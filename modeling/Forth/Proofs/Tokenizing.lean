-- SUMMARY: Tokenizing and its reference: what every read of a text gives, said of the text as a whole.
import Forth.Proofs.Places
import Mathlib.Data.List.Induction
import Mathlib.Data.Nat.Digits.Defs

/-!
# Tokenizing

A lexer goes through a text once, with a cursor that keeps count of lines and
columns and a depth of open comments. What its reads give can be said without all
that. A lexeme starts at each character that is not blank and has a blank or nothing
before it, and its place is counted from all characters before it. A read gives the
next lexeme outside of comments, classed by what it looks like, or the end of the
text, or it fails once in a comment that the text does not close.
-/

namespace Forth

-- ---------------------------------------------------------------------------
-- Places
-- ---------------------------------------------------------------------------

namespace Location

/-- The place behind the characters `front` of the text called `path`: the line is
    counted by line feeds, and the column from the last of them. -/
def behind (path : String) (front : List Char) : Location where
  path
  line := 1 + front.count '\n'
  column := 1 + (front.reverse.takeWhile (· ≠ '\n')).length

theorem after_behind (path : String) (front : List Char) (c : Char) :
    (behind path front).after c = behind path (front ++ [c]) := by
  unfold after behind
  split
  · rename_i hc
    simp [hc, Nat.add_assoc]
  · rename_i hc
    simp [hc, Nat.add_comm]

theorem afterAll_behind (path : String) (front cs : List Char) :
    (behind path front).afterAll cs = behind path (front ++ cs) := by
  induction cs generalizing front with
  | nil => rw [afterAll_nil, List.append_nil]
  | cons c cs ih => rw [afterAll_cons, after_behind, ih, List.append_assoc, List.singleton_append]

end Location

-- ---------------------------------------------------------------------------
-- Lexemes
-- ---------------------------------------------------------------------------

namespace Text

/-- Whether a lexeme starts at position `i`: the character there is not blank, and the
    one before it is, if there is one. -/
def startsAt (cs : List Char) (i : Nat) : Bool :=
  (cs.drop i).head?.any (!isBlank ·) && (cs.take i).getLast?.all isBlank

/-- The lexeme that starts at position `i` reaches up to the next blank. -/
def lexemeAt (path : String) (cs : List Char) (i : Nat) : Lexeme :=
  ⟨.behind path (cs.take i), String.ofList ((cs.drop i).takeWhile (!isBlank ·))⟩

/-- The lexemes of a text, in the order of their positions. -/
def lexemes (path : String) (cs : List Char) : List Lexeme :=
  ((List.range cs.length).filter (startsAt cs)).map (lexemeAt path cs)

/-- The lexemes of a text that start behind its first characters `front`. -/
def lexemesBehind (path : String) (front rest : List Char) : List Lexeme :=
  ((List.range' front.length rest.length).filter (startsAt (front ++ rest))).map
    (lexemeAt path (front ++ rest))

variable {path : String} {front rest : List Char} {c : Char}

theorem lexemes_eq (path : String) (cs : List Char) : lexemes path cs = lexemesBehind path [] cs := by
  rw [lexemes, List.range_eq_range']
  rfl

/-- A lexeme starts behind `front` if the next character is not blank and the last one
    is. -/
theorem startsAt_length (front : List Char) (c : Char) (rest : List Char) :
    startsAt (front ++ c :: rest) front.length = (!isBlank c && front.getLast?.all isBlank) := by
  simp [startsAt]

/-- A lexeme that starts here is the first of those that are left. -/
theorem lexemesBehind_of_starts (h : startsAt (front ++ c :: rest) front.length = true) :
    lexemesBehind path front (c :: rest) =
      ⟨.behind path front, String.ofList ((c :: rest).takeWhile (!isBlank ·))⟩ ::
        lexemesBehind path (front ++ [c]) rest := by
  rw [lexemesBehind, List.length_cons, List.range'_succ, List.filter_cons_of_pos h, List.map_cons]
  simp [lexemesBehind, lexemeAt]

theorem lexemesBehind_of_not_starts (h : startsAt (front ++ c :: rest) front.length = false) :
    lexemesBehind path front (c :: rest) = lexemesBehind path (front ++ [c]) rest := by
  rw [lexemesBehind, List.length_cons, List.range'_succ,
    List.filter_cons_of_neg (Bool.not_eq_true _ ▸ h)]
  simp [lexemesBehind]

/-- No lexeme starts at a blank. -/
theorem lexemesBehind_skip_blanks (path : String) (front rest : List Char) :
    lexemesBehind path front rest =
      lexemesBehind path (front ++ rest.takeWhile isBlank) (rest.dropWhile isBlank) := by
  induction rest generalizing front with
  | nil => simp
  | cons c rest ih =>
    cases hc : isBlank c with
    | false => simp [hc]
    | true =>
      have hstarts : startsAt (front ++ c :: rest) front.length = false := by
        simp [startsAt_length, hc]
      rw [lexemesBehind_of_not_starts hstarts, ih]
      simp [hc]

/-- Behind a character that is not blank no lexeme starts before the next blank. -/
theorem lexemesBehind_skip_word (path : String) (hlast : front.getLast? = some c)
    (hc : isBlank c = false) (rest : List Char) :
    lexemesBehind path front rest =
      lexemesBehind path (front ++ rest.takeWhile (!isBlank ·)) (rest.dropWhile (!isBlank ·)) := by
  induction rest generalizing front c with
  | nil => simp
  | cons d rest ih =>
    cases hd : isBlank d with
    | true => simp [hd]
    | false =>
      have hstarts : startsAt (front ++ d :: rest) front.length = false := by
        simp [startsAt_length, hlast, hc]
      rw [lexemesBehind_of_not_starts hstarts, ih List.getLast?_concat hd]
      simp [hd]

/-- The first lexeme, where one starts. -/
theorem lexemesBehind_word (path : String) (hfront : front.getLast?.all isBlank = true)
    (hne : rest.takeWhile (!isBlank ·) ≠ []) :
    lexemesBehind path front rest =
      ⟨.behind path front, String.ofList (rest.takeWhile (!isBlank ·))⟩ ::
        lexemesBehind path (front ++ rest.takeWhile (!isBlank ·)) (rest.dropWhile (!isBlank ·)) := by
  cases rest with
  | nil => exact absurd rfl hne
  | cons c rest =>
    cases hc : isBlank c with
    | true => simp [hc] at hne
    | false =>
      have hstarts : startsAt (front ++ c :: rest) front.length = true := by
        simp [startsAt_length, hc, hfront]
      rw [lexemesBehind_of_starts hstarts, lexemesBehind_skip_word path List.getLast?_concat hc]
      simp [hc]

/-- Blanks that are skipped leave a blank before the next lexeme. -/
theorem blank_before_word
    (h : front.getLast?.all isBlank = true ∨ rest.head?.all isBlank = true)
    (hne : rest.dropWhile isBlank ≠ []) :
    (front ++ rest.takeWhile isBlank).getLast?.all isBlank = true := by
  rw [List.getLast?_append]
  cases hlast : (rest.takeWhile isBlank).getLast? with
  | some d =>
    have hd : d ∈ rest.takeWhile isBlank := List.mem_of_getLast? hlast
    simpa using List.all_eq_true.1 List.all_takeWhile d hd
  | none =>
    rw [Option.none_or]
    rcases h with h | h
    · exact h
    · cases rest with
      | nil => exact absurd rfl hne
      | cons d rest =>
        have hd : isBlank d = true := by simpa using h
        simp [hd] at hlast

theorem blank_behind_word (cs : List Char) :
    (cs.dropWhile (!isBlank ·)).head?.all isBlank = true := by
  have hhead := List.head?_dropWhile_not (!isBlank ·) cs
  cases hrest : cs.dropWhile (!isBlank ·) with
  | nil => rfl
  | cons c rest =>
    rw [hrest] at hhead
    simpa using hhead

end Text

namespace Cursor

variable {path : String} {front : List Char} {c c' : Cursor} {x : Lexeme}

/-- A cursor without a lexeme has only blanks left, and ends behind them. -/
theorem of_lexeme_none (h : c.lexeme = (none, c')) :
    c.rest.dropWhile Text.isBlank = [] ∧ c'.location = c.location.afterAll c.rest := by
  have hhead := List.head?_dropWhile_not Text.isBlank c.rest
  have hsplit := List.takeWhile_append_dropWhile (p := Text.isBlank) (l := c.rest)
  unfold lexeme skip at h
  cases hrest : c.rest.dropWhile Text.isBlank with
  | nil =>
    rw [hrest, List.append_nil] at hsplit
    simp only [hrest, hsplit] at h
    cases h
    exact ⟨rfl, rfl⟩
  | cons y ys =>
    rw [hrest] at hhead
    simp_all

/-- A cursor skips blanks, takes the word behind them, and stays in front of the next
    blank. -/
theorem of_lexeme_some (h : c.lexeme = (some x, c')) :
    let blanks := c.rest.takeWhile Text.isBlank
    let rest := c.rest.dropWhile Text.isBlank
    let word := rest.takeWhile (!Text.isBlank ·)
    word ≠ [] ∧ x = ⟨c.location.afterAll blanks, String.ofList word⟩ ∧
      c' = ⟨rest.dropWhile (!Text.isBlank ·), (c.location.afterAll blanks).afterAll word⟩ := by
  unfold lexeme skip at h
  dsimp only at h
  split at h
  · cases h
  · rename_i hne
    cases h
    exact ⟨hne, rfl, rfl⟩

/-- The lexemes that a cursor reads are those of the text that start behind it. -/
theorem lexemes_eq_lexemesBehind (hplace : c.location = .behind path front)
    (hstart : front.getLast?.all Text.isBlank = true ∨ c.rest.head?.all Text.isBlank = true) :
    c.lexemes = (Text.lexemesBehind path front c.rest, .behind path (front ++ c.rest)) := by
  fun_induction lexemes c generalizing front with
  | case1 c c' h =>
    obtain ⟨hrest, hfinish⟩ := of_lexeme_none h
    rw [Text.lexemesBehind_skip_blanks, hrest, hfinish, hplace, Location.afterAll_behind]
    rfl
  | case2 c x c' h _ xs finish hxs ih =>
    obtain ⟨hne, rfl, rfl⟩ := of_lexeme_some h
    have hblank := Text.blank_before_word hstart fun hnil => hne (by rw [hnil]; rfl)
    rw [hplace, Location.afterAll_behind] at hxs ih ⊢
    rw [Location.afterAll_behind] at hxs ih
    have hrest := ih rfl (.inr (Text.blank_behind_word _))
    rw [hxs] at hrest
    cases hrest
    rw [Text.lexemesBehind_skip_blanks path front, Text.lexemesBehind_word path hblank hne]
    simp only [List.append_assoc, List.takeWhile_append_dropWhile]

/-- The lexemes of a source text and its end. -/
theorem lexemes_ofSource (path source : String) :
    (ofSource path source).lexemes =
      (Text.lexemes path source.toList, .behind path source.toList) := by
  rw [Text.lexemes_eq]
  exact @lexemes_eq_lexemesBehind path [] _ rfl (.inl rfl)

end Cursor

-- ---------------------------------------------------------------------------
-- Classes of lexemes
-- ---------------------------------------------------------------------------

namespace Text

variable {cs : List Char} {s : String}

/-- One or more ASCII digits. -/
def IsDigits (cs : List Char) : Prop :=
  cs ≠ [] ∧ ∀ c ∈ cs, c.isDigit = true

/-- The value of a list of digits with the highest one first. -/
def digitsValue (cs : List Char) : Nat :=
  Nat.ofDigits 10 (cs.reverse.map fun c => c.toNat - '0'.toNat)

/-- The characters are a numeral of an integer, of any size. -/
inductive Numeral : List Char → Int → Prop where
  | plain {cs : List Char} : IsDigits cs → Numeral cs (digitsValue cs)
  | plus {cs : List Char} : IsDigits cs → Numeral ('+' :: cs) (digitsValue cs)
  | minus {cs : List Char} : IsDigits cs → Numeral ('-' :: cs) (-digitsValue cs)

/-- The characters are a string literal of a text. -/
inductive Literal : List Char → String → Prop where
  | newline : Literal ['"', '\\', 'n', '"'] "\n"
  | interior {cs : List Char} : cs ≠ ['\\', 'n'] → Literal ('"' :: cs ++ ['"']) (String.ofList cs)

/-- Digits are read as the number that they spell. -/
theorem digits?_eq_some_iff {n : Nat} :
    digits? cs = some n ↔ IsDigits cs ∧ digitsValue cs = n := by
  have hvalue : digitsValue cs = cs.foldl (fun n c => 10 * n + (c.toNat - '0'.toNat)) 0 := by
    rw [digitsValue, Nat.ofDigits_eq_foldr, List.map_reverse, List.foldr_reverse, List.foldl_map]
    simp only [Nat.add_comm, Nat.cast_id]
  rw [digits?, Option.ite_none_right_eq_some, ← hvalue, Option.some.injEq]
  simp [IsDigits]

/-- A numeral is read as its value, whatever its size is. -/
theorem signed?_eq_some_iff {v : Int} : signed? cs = some v ↔ Numeral cs v := by
  constructor
  · intro h
    unfold signed? at h
    split at h
    all_goals
      obtain ⟨n, hn, rfl⟩ := Option.map_eq_some_iff.1 h
      obtain ⟨hdigits, rfl⟩ := digits?_eq_some_iff.1 hn
    · exact .plus hdigits
    · exact .minus hdigits
    · exact .plain hdigits
  · intro h
    cases h with
    | plus hdigits | minus hdigits =>
      rw [signed?, digits?_eq_some_iff.2 ⟨hdigits, rfl⟩]
      rfl
    | plain hdigits =>
      obtain ⟨c, cs, rfl⟩ := List.exists_cons_of_ne_nil hdigits.1
      have hc := hdigits.2 c List.mem_cons_self
      unfold signed?
      split
      · rename_i heq
        cases heq
        cases hc
      · rename_i heq
        cases heq
        cases hc
      · rw [digits?_eq_some_iff.2 ⟨hdigits, rfl⟩]
        rfl

/-- An integer in range is represented by itself, and no other one is. -/
theorem int64?_eq_some_iff {v : Int} {n : Int64} : int64? v = some n ↔ n.toInt = v := by
  unfold int64?
  split
  · rename_i hrange
    rw [Option.some.injEq]
    constructor
    · rintro rfl
      exact Int64.toInt_ofInt_of_le hrange.1 (Int.lt_of_le_of_lt hrange.2 (by decide))
    · rintro rfl
      exact Int64.ofInt_toInt n
  · rename_i hrange
    constructor
    · exact fun h => nomatch h
    · rintro rfl
      exact absurd ⟨Int64.minValue_le_toInt n, Int64.toInt_le n⟩ hrange

/-- A text is read as an integer if it is a numeral of it. -/
theorem readInt64?_eq_some_iff {n : Int64} :
    readInt64? s = some n ↔ Numeral s.toList n.toInt := by
  rw [readInt64?, Option.bind_eq_some_iff]
  simp only [signed?_eq_some_iff, int64?_eq_some_iff]
  constructor
  · rintro ⟨v, hv, rfl⟩
    exact hv
  · exact fun h => ⟨_, h, rfl⟩

/-- A text is read as a string if it is a literal of it. -/
theorem literal?_eq_some_iff {t : String} : literal? s = some t ↔ Literal s.toList t := by
  unfold literal?
  generalize s.toList = cs
  constructor
  · intro h
    split at h
    · rw [Option.ite_none_right_eq_some] at h
      obtain ⟨hlast, h⟩ := h
      obtain ⟨ys, rfl⟩ := List.getLast?_eq_some_iff.1 hlast
      rw [List.dropLast_concat] at h
      split at h
      · rename_i hys
        cases h
        exact hys ▸ .newline
      · rename_i hys
        cases h
        exact .interior hys
    · cases h
  · intro h
    cases h with
    | newline => rfl
    | interior hne => simp [hne]

theorem readInt64?_eq_none (h : ∀ n : Int64, ¬ Numeral s.toList n.toInt) :
    readInt64? s = none :=
  Option.eq_none_iff_forall_ne_some.2 fun n hn => h n (readInt64?_eq_some_iff.1 hn)

theorem literal?_eq_none (h : ∀ t, ¬ Literal s.toList t) : literal? s = none :=
  Option.eq_none_iff_forall_ne_some.2 fun t ht => h t (literal?_eq_some_iff.1 ht)

end Text

theorem Keyword.ofText?_eq_some_iff {s : String} {k : Keyword} :
    ofText? s = some k ↔ k.text = s := by
  constructor
  · intro h
    simpa using List.find?_some h
  · rintro rfl
    exact ofText?_text k

namespace Token

/-- What a lexeme outside of comments means. Each class takes what the classes before it
    leave: integers in range, string literals, keywords, identifiers. -/
inductive Denotes (s : String) : Payload → Prop where
  | integer {n : Int64} : Text.Numeral s.toList n.toInt → Denotes s (.integer n)
  | string {t : String} : (∀ n : Int64, ¬ Text.Numeral s.toList n.toInt) →
      Text.Literal s.toList t → Denotes s (.string t)
  | keyword {k : Keyword} : (∀ n : Int64, ¬ Text.Numeral s.toList n.toInt) →
      (∀ t, ¬ Text.Literal s.toList t) → k.text = s → Denotes s (.keyword k)
  | identifier : (∀ n : Int64, ¬ Text.Numeral s.toList n.toInt) →
      (∀ t, ¬ Text.Literal s.toList t) → (∀ k : Keyword, k.text ≠ s) → Denotes s (.identifier s)

variable {s : String} {p : Payload}

/-- A lexeme is classified by what it denotes. -/
theorem ofText_eq_iff_denotes : Payload.ofText s = p ↔ Denotes s p := by
  constructor
  · rintro rfl
    unfold Payload.ofText
    cases hint : Text.readInt64? s with
    | some n => exact .integer (Text.readInt64?_eq_some_iff.1 hint)
    | none =>
      have hint' : ∀ n : Int64, ¬ Text.Numeral s.toList n.toInt := by
        intro n hn
        cases hint.symm.trans (Text.readInt64?_eq_some_iff.2 hn)
      cases hlit : Text.literal? s with
      | some t => exact .string hint' (Text.literal?_eq_some_iff.1 hlit)
      | none =>
        have hlit' : ∀ t, ¬ Text.Literal s.toList t := by
          intro t ht
          cases hlit.symm.trans (Text.literal?_eq_some_iff.2 ht)
        cases hkey : Keyword.ofText? s with
        | some k => exact .keyword hint' hlit' (Keyword.ofText?_eq_some_iff.1 hkey)
        | none =>
          refine .identifier hint' hlit' ?_
          intro k hk
          cases hkey.symm.trans (Keyword.ofText?_eq_some_iff.2 hk)
  · intro h
    unfold Payload.ofText
    cases h with
    | integer hn => rw [Text.readInt64?_eq_some_iff.2 hn]
    | string hint ht => rw [Text.readInt64?_eq_none hint, Text.literal?_eq_some_iff.2 ht]
    | keyword hint hlit hk =>
      rw [Text.readInt64?_eq_none hint, Text.literal?_eq_none hlit, Keyword.ofText?_eq_some_iff.2 hk]
    | identifier hint hlit hkey =>
      have hnone : Keyword.ofText? s = none :=
        Option.eq_none_iff_forall_ne_some.2 fun k hk => hkey k (Keyword.ofText?_eq_some_iff.1 hk)
      rw [Text.readInt64?_eq_none hint, Text.literal?_eq_none hlit, hnone]

end Token

-- ---------------------------------------------------------------------------
-- Reads
-- ---------------------------------------------------------------------------

namespace Lexer

/-- What the next read gives, and the lexer behind it. -/
def readOnce (l : Lexer) : Except SyntaxError Token × Lexer :=
  match next l with
  | .ok t l' => (.ok t, l')
  | .error e l' => (.error e, l')

/-- What the read behind `n` other reads gives. Reads go on behind a failure. -/
def read : Nat → Lexer → Except SyntaxError Token
  | 0, l => l.readOnce.1
  | n + 1, l => read n l.readOnce.2

end Lexer

/-- The lexemes end inside of the comment that starts at `x`: it is met outside of
    comments, and no lexeme behind it brings the depth back to zero. -/
def EndsInside (xs : List Lexeme) (x : Lexeme) : Prop :=
  ∃ front back, xs = front ++ x :: back ∧ CommentsClosed 0 front ∧ x.text = "(" ∧
    ∀ k, ¬ CommentsClosed 1 (back.take k)

/-- What the read behind `n` other reads gives, for a text with the lexemes `xs` and its
    end at `finish`. -/
inductive NthRead (xs : List Lexeme) (finish : Location) (n : Nat) :
    Except SyntaxError Token → Prop where
  | token {x : Lexeme} {p : Token.Payload} :
      (outsideComments 0 xs)[n]? = some x → Token.Denotes x.text p →
      NthRead xs finish n (.ok ⟨x.location, p⟩)
  | unclosed {x : Lexeme} :
      n = (outsideComments 0 xs).length → EndsInside xs x →
      NthRead xs finish n (.error ⟨x.location, .unclosedComment⟩)
  | finished :
      (outsideComments 0 xs).length ≤ n →
      (n = (outsideComments 0 xs).length → ∀ x, ¬ EndsInside xs x) →
      NthRead xs finish n (.ok ⟨finish, .endOfInput⟩)

section Comments

variable {xs ys : List Lexeme} {x : Lexeme} {depth n : Nat}

theorem commentsClosed_singleton (h : x.text ≠ "(") : CommentsClosed 0 [x] := by
  simp [CommentsClosed, Lexeme.depthAfter, h]

/-- A lexeme outside of comments stands behind closed comments. -/
theorem exists_of_getElem?_outsideComments (h : (outsideComments depth xs)[n]? = some x) :
    ∃ front back, xs = front ++ x :: back ∧ CommentsClosed depth front ∧
      (outsideComments depth front).length = n ∧ x.text ≠ "(" := by
  induction xs generalizing depth n with
  | nil => cases h
  | cons y ys ih =>
    by_cases hy : depth = 0 ∧ y.text ≠ "("
    · rw [outsideComments, if_pos hy] at h
      cases n with
      | zero =>
        cases h
        exact ⟨[], ys, rfl, hy.1, rfl, hy.2⟩
      | succ n =>
        obtain ⟨front, back, rfl, hclosed, hlength, hx⟩ := ih h
        refine ⟨y :: front, back, rfl, hclosed, ?_, hx⟩
        rw [outsideComments, if_pos hy, List.length_cons, hlength]
    · rw [outsideComments, if_neg hy] at h
      obtain ⟨front, back, rfl, hclosed, hlength, hx⟩ := ih h
      refine ⟨y :: front, back, rfl, hclosed, ?_, hx⟩
      rwa [outsideComments, if_neg hy]

/-- No lexeme stands outside of a comment that is never closed. -/
theorem outsideComments_eq_nil (h : ∀ k, ¬ CommentsClosed depth (xs.take k)) :
    outsideComments depth xs = [] := by
  induction xs generalizing depth with
  | nil => rfl
  | cons y ys ih =>
    have hdepth : depth ≠ 0 := h 0
    rw [outsideComments, if_neg fun hy => hdepth hy.1]
    exact ih fun k => h (k + 1)

theorem outsideComments_cons (h : x.text ≠ "(") (xs : List Lexeme) :
    outsideComments 0 (x :: xs) = x :: outsideComments 0 xs := by
  simp [outsideComments, Lexeme.depthAfter, h]

/-- What comes behind the start of an unclosed comment is inside of it. -/
theorem outsideComments_of_open {front back : List Lexeme} (hfront : CommentsClosed 0 front)
    (hx : x.text = "(") (hopen : ∀ k, ¬ CommentsClosed 1 (back.take k)) :
    outsideComments 0 (front ++ x :: back) = outsideComments 0 front := by
  have hnil : outsideComments 0 (x :: back) = [] := by
    rw [outsideComments, if_neg fun h => h.2 hx, Lexeme.depthAfter, if_pos hx]
    exact outsideComments_eq_nil hopen
  rw [outsideComments_append hfront, hnil, List.append_nil]

theorem commentsClosed_cons_of_open (h : x.text = "(") :
    CommentsClosed depth (x :: xs) ↔ CommentsClosed (depth + 1) xs := by
  rw [CommentsClosed, List.foldl_cons, Lexeme.depthAfter, if_pos h]
  rfl

/-- If a comment is not closed, the lexemes end inside of it. -/
theorem exists_endsInside (h : ¬ CommentsClosed 0 xs) : ∃ x, EndsInside xs x := by
  -- by the last lexeme: it opens the comment, or the lexemes before it end inside of it
  induction xs using List.reverseRecOn with
  | nil => exact absurd rfl h
  | append_singleton ys y ih =>
    by_cases hclosed : CommentsClosed 0 ys
    · by_cases hy : y.text = "("
      · refine ⟨y, ys, [], rfl, hclosed, hy, ?_⟩
        intro k
        rw [List.take_nil]
        exact Nat.one_ne_zero
      · exact absurd (hclosed.append (commentsClosed_singleton hy)) h
    · obtain ⟨x, front, back, rfl, hfront, hx, hopen⟩ := ih hclosed
      refine ⟨x, front, back ++ [y], by simp, hfront, hx, ?_⟩
      intro k hk
      by_cases hle : k ≤ back.length
      · rw [List.take_append_of_le_length hle] at hk
        exact hopen k hk
      · rw [List.take_of_length_le (by simp; omega)] at hk
        refine h ?_
        rw [List.append_assoc]
        exact hfront.append ((commentsClosed_cons_of_open hx).2 hk)

end Comments

namespace Lexer

variable {xs ys : List Lexeme} {x : Lexeme} {finish : Location} {n : Nat}

/-- The comment from `start` on with `depth` comments open, itself included. -/
def Comment.ofDepth (start : Location) : Nat → Option Comment
  | 0 => none
  | inner + 1 => some { start, inner }

/-- Inside of a comment, a lexeme only changes how many comments are open. -/
theorem scan_inside (start : Location) (inner : Nat) (x : Lexeme) (xs : List Lexeme) :
    scan finish (Comment.ofDepth start (inner + 1)) (x :: xs) =
      scan finish (Comment.ofDepth start (x.depthAfter (inner + 1))) xs := by
  rw [Comment.ofDepth, scan, Lexeme.depthAfter]
  split
  · rfl
  · split
    · cases inner <;> rfl
    · rfl

/-- Closed comments are passed over. -/
theorem scan_append (start : Location) {depth : Nat} (hclosed : CommentsClosed depth xs)
    (hout : outsideComments depth xs = []) (ys : List Lexeme) :
    scan finish (Comment.ofDepth start depth) (xs ++ ys) = scan finish none ys := by
  induction xs generalizing start depth with
  | nil =>
    obtain rfl : depth = 0 := hclosed
    rfl
  | cons x xs ih =>
    by_cases hx : depth = 0 ∧ x.text ≠ "("
    · rw [outsideComments, if_pos hx] at hout
      cases hout
    · rw [outsideComments, if_neg hx] at hout
      cases depth with
      | succ inner =>
        rw [List.cons_append, scan_inside]
        exact ih start hclosed hout
      | zero =>
        have hopen : x.text = "(" := Classical.not_not.1 fun hne => hx ⟨rfl, hne⟩
        rw [Lexeme.depthAfter, if_pos hopen] at hout
        rw [List.cons_append, Comment.ofDepth, scan, if_pos hopen]
        exact ih x.location ((commentsClosed_cons_of_open hopen).1 hclosed) hout

/-- In a comment that is never closed a read fails, with the place where it starts. -/
theorem scan_of_open {start : Location} {depth : Nat}
    (h : ∀ k, ¬ CommentsClosed depth (xs.take k)) :
    scan finish (Comment.ofDepth start depth) xs = .error ⟨start, .unclosedComment⟩ [] := by
  induction xs generalizing depth with
  | nil =>
    obtain ⟨inner, rfl⟩ := Nat.exists_eq_succ_of_ne_zero (h 0)
    rfl
  | cons x xs ih =>
    obtain ⟨inner, rfl⟩ := Nat.exists_eq_succ_of_ne_zero (h 0)
    rw [scan_inside]
    exact ih fun k => h (k + 1)

theorem read_congr (h : scan finish none xs = scan finish none ys) (n : Nat) :
    read n { lexemes := xs, finish } = read n { lexemes := ys, finish } := by
  have honce : readOnce { lexemes := xs, finish } = readOnce { lexemes := ys, finish } := by
    simp only [readOnce, next, fresh, h]
  cases n with
  | zero => rw [read, read, honce]
  | succ n => rw [read, read, honce]

/-- Outside of comments a lexeme is read as a token. -/
theorem readOnce_cons (h : x.text ≠ "(") (xs : List Lexeme) :
    readOnce { lexemes := x :: xs, finish } = (.ok x.token, { lexemes := xs, finish }) := by
  simp only [readOnce, next, fresh, scan, if_neg h]

/-- A read in front of an unclosed comment fails at its start, and nothing is left
    behind it. -/
theorem readOnce_of_open (hx : x.text = "(") (hopen : ∀ k, ¬ CommentsClosed 1 (xs.take k)) :
    readOnce { lexemes := x :: xs, finish } =
      (.error ⟨x.location, .unclosedComment⟩, { lexemes := [], finish }) := by
  have hscan : scan finish (some { start := x.location }) xs =
      .error ⟨x.location, .unclosedComment⟩ [] := scan_of_open hopen
  simp only [readOnce, next, fresh, scan, if_pos hx, hscan]

/-- Behind all lexemes every read gives the end of the text. -/
theorem read_nil (finish : Location) (n : Nat) :
    read n { lexemes := [], finish } = .ok ⟨finish, .endOfInput⟩ := by
  induction n with
  | zero => rfl
  | succ n ih => exact ih

/-- Behind closed comments the reads are those of the rest. -/
theorem read_append (finish : Location) (hclosed : CommentsClosed 0 xs) (ys : List Lexeme)
    (n : Nat) :
    read ((outsideComments 0 xs).length + n) { lexemes := xs ++ ys, finish } =
      read n { lexemes := ys, finish } := by
  -- one lexeme outside of comments after the other
  induction hk : (outsideComments 0 xs).length generalizing xs with
  | zero =>
    rw [Nat.zero_add]
    exact read_congr (scan_append finish hclosed (List.length_eq_zero_iff.1 hk) ys) n
  | succ k ih =>
    obtain ⟨x, hx⟩ : ∃ x, (outsideComments 0 xs)[0]? = some x :=
      ⟨_, List.getElem?_eq_getElem (hk ▸ Nat.succ_pos k)⟩
    obtain ⟨front, back, rfl, hfront, hnone, hx⟩ := exists_of_getElem?_outsideComments hx
    replace hnone := List.length_eq_zero_iff.1 hnone
    have hclosed' : CommentsClosed 0 back :=
      (commentsClosed_append_iff (commentsClosed_singleton hx)).1
        ((commentsClosed_append_iff hfront).1 hclosed)
    rw [outsideComments_append hfront, hnone, List.nil_append, outsideComments_cons hx] at hk
    have hskip : read (k + 1 + n) { lexemes := front ++ x :: (back ++ ys), finish } =
        read (k + 1 + n) { lexemes := x :: (back ++ ys), finish } :=
      read_congr (scan_append finish hfront hnone _) _
    rw [List.append_assoc, List.cons_append, hskip, Nat.add_right_comm, read, readOnce_cons hx]
    exact ih hclosed' (Nat.succ.inj hk)

/-- The reads of lexemes give what they should. -/
theorem read_of_nthRead {r : Except SyntaxError Token} (h : NthRead xs finish n r) :
    read n { lexemes := xs, finish } = r := by
  cases h with
  | @token x p hget hp =>
    obtain ⟨front, back, rfl, hfront, rfl, hx⟩ := exists_of_getElem?_outsideComments hget
    have hread := read_append finish hfront (x :: back) 0
    rw [Nat.add_zero, read, readOnce_cons hx] at hread
    rw [hread, Lexeme.token, Token.ofText_eq_iff_denotes.2 hp]
  | @unclosed x hn hinside =>
    obtain ⟨front, back, rfl, hfront, hx, hopen⟩ := hinside
    have hread := read_append finish hfront (x :: back) 0
    rw [Nat.add_zero, read, readOnce_of_open hx hopen] at hread
    rw [hn, outsideComments_of_open hfront hx hopen, hread]
  | finished hle hlast =>
    obtain ⟨k, rfl⟩ := Nat.le.dest hle
    by_cases hclosed : CommentsClosed 0 xs
    · have hread := read_append finish hclosed [] k
      rw [List.append_nil, read_nil] at hread
      exact hread
    · -- the read before this one has failed, and nothing is left behind a failure
      obtain ⟨x, hinside⟩ := exists_endsInside hclosed
      obtain ⟨j, rfl⟩ : ∃ j, k = j + 1 :=
        Nat.exists_eq_succ_of_ne_zero fun hk => hlast (by rw [hk, Nat.add_zero]) x hinside
      obtain ⟨front, back, rfl, hfront, hx, hopen⟩ := hinside
      rw [outsideComments_of_open hfront hx hopen, read_append finish hfront (x :: back), read,
        readOnce_of_open hx hopen, read_nil]

/-- Every read gives something. -/
theorem exists_nthRead (xs : List Lexeme) (finish : Location) (n : Nat) :
    ∃ r, NthRead xs finish n r := by
  cases hx : (outsideComments 0 xs)[n]? with
  | some x => exact ⟨_, .token hx (Token.ofText_eq_iff_denotes.1 rfl)⟩
  | none =>
    have hle := List.getElem?_eq_none_iff.1 hx
    by_cases hinside : n = (outsideComments 0 xs).length ∧ ∃ x, EndsInside xs x
    · obtain ⟨hn, x, hx⟩ := hinside
      exact ⟨_, .unclosed hn hx⟩
    · exact ⟨_, .finished hle fun hn x hx => hinside ⟨hn, x, hx⟩⟩

/-- Reading the tokens of a text one after the other gives just what the text as a whole
    says, places included. -/
theorem read_iff_nthRead (path source : String) (n : Nat) (r : Except SyntaxError Token) :
    (ofSource path source).read n = r ↔
      NthRead (Text.lexemes path source.toList) (.behind path source.toList) n r := by
  rw [ofSource, Cursor.lexemes_ofSource]
  constructor
  · rintro rfl
    obtain ⟨r, hr⟩ := exists_nthRead (Text.lexemes path source.toList)
      (.behind path source.toList) n
    rwa [read_of_nthRead hr]
  · exact read_of_nthRead

example :
    (ofSource "a" "-1 ( x\n) ( \"y\" ( z )").read 1 = .error ⟨⟨"a", 2, 3⟩, .unclosedComment⟩ ∧
    (ofSource "a" "-1 ( x\n) \"\\n\" \"y").read 2 = .ok ⟨⟨"a", 2, 8⟩, .identifier "\"y"⟩ := by
  decide +kernel

end Lexer

end Forth
