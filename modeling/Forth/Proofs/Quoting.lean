-- SUMMARY: Quoting: a quoted text stays in its line, ends where it can be told to end, and gives its text back.
import Forth.Proofs.Fields

/-!
# Quoting

A quote that belongs to the text stands behind an odd number of backslashes, and the
quote that closes it behind an even number. So the end of a quoted text is found by
counting backslashes, whatever comes behind it, and what stands between the quotes
is the text with five escapes to undo.
-/

namespace Forth.Text

-- ---------------------------------------------------------------------------
-- Reading a quoted text
-- ---------------------------------------------------------------------------

/-- The number of backslashes at the end of a text. -/
def backslashes (front : List Char) : Nat :=
  (front.reverse.takeWhile (· = '\\')).length

/-- Whether a quote stands at position `i`, behind an even number of backslashes. -/
def closesAt (cs : List Char) (i : Nat) : Bool :=
  cs[i]? = some '"' && backslashes (cs.take i) % 2 = 0

/-- The first position behind the start of a text where a quote closes. -/
def closing? (cs : List Char) : Option Nat :=
  (List.range cs.length).find? fun i => 0 < i && closesAt cs i

/-- The character that a backslash and `c` stand for. -/
def unescapeChar? : Char → Option Char
  | '"' => some '"'
  | '\\' => some '\\'
  | 'n' => some '\n'
  | 'r' => some '\r'
  | 't' => some '\t'
  | _ => none

/-- Undoes the five escapes. A backslash that starts none of them is refused. -/
def unescape? : List Char → Option (List Char)
  | [] => some []
  | ['\\'] => none
  | '\\' :: c :: cs => do return (← unescapeChar? c) :: (← unescape? cs)
  | c :: cs => do return c :: (← unescape? cs)

-- ---------------------------------------------------------------------------
-- Escapes
-- ---------------------------------------------------------------------------

/-- A character is written as an escape that stands for it, or as it is. -/
theorem escape_cases (c : Char) :
    (∃ d, escape c = ['\\', d] ∧ unescapeChar? d = some c) ∨
      escape c = [c] ∧ c ∉ ['"', '\\', '\n', '\r', '\t'] := by
  unfold escape
  split
  case h_6 hquote hbackslash hfeed hreturn htab =>
    refine .inr ⟨rfl, ?_⟩
    simpa using ⟨hquote, hbackslash, hfeed, hreturn, htab⟩
  all_goals exact .inl ⟨_, rfl, rfl⟩

/-- No escape has a character that would break a line or a column. -/
theorem notMem_escape {b : Char} (hb : b ∈ ['\n', '\r', '\t']) (c : Char) : b ∉ escape c := by
  have hletter : unescapeChar? b = none ∧ b ≠ '\\' := by
    simp only [List.mem_cons, List.not_mem_nil, or_false] at hb
    rcases hb with rfl | rfl | rfl <;> decide
  rcases escape_cases c with ⟨d, hescape, hd⟩ | ⟨hescape, hplain⟩
  · have hbd : b ≠ d := by
      rintro rfl
      cases hd.symm.trans hletter.1
    simp [hescape, hletter.2, hbd]
  · have hbc : b ≠ c := by
      rintro rfl
      exact hplain (List.mem_cons_of_mem _ (List.mem_cons_of_mem _ hb))
    simp [hescape, hbc]

/-- Every text can be read back from its escapes. -/
theorem unescape?_flatMap_escape (s : List Char) : unescape? (s.flatMap escape) = some s := by
  induction s with
  | nil => rfl
  | cons c s ih =>
    rw [List.flatMap_cons]
    rcases escape_cases c with ⟨d, hescape, hd⟩ | ⟨hescape, hplain⟩
    · simp [hescape, unescape?, hd, ih]
    · have hc : c ≠ '\\' := fun h => hplain (by simp [h])
      simp [hescape, unescape?, hc, ih]

-- ---------------------------------------------------------------------------
-- Backslashes
-- ---------------------------------------------------------------------------

theorem backslashes_concat (front : List Char) (c : Char) :
    backslashes (front ++ [c]) = if c = '\\' then backslashes front + 1 else 0 := by
  by_cases hc : c = '\\' <;> simp [backslashes, hc]

/-- Behind whole escapes stands an even number of backslashes. -/
theorem backslashes_escape {front : List Char} (h : backslashes front % 2 = 0) (c : Char) :
    backslashes (front ++ escape c) % 2 = 0 := by
  rcases escape_cases c with ⟨d, hescape, -⟩ | ⟨hescape, hplain⟩
  · have hsplit : front ++ ['\\', d] = front ++ ['\\'] ++ [d] := by simp
    rw [hescape, hsplit, backslashes_concat, backslashes_concat, if_pos rfl]
    split <;> omega
  · have hc : c ≠ '\\' := fun h => hplain (by simp [h])
    rw [hescape, backslashes_concat, if_neg hc]

/-- Behind the escapes of a text stands an even number of backslashes. -/
theorem backslashes_flatMap_escape {front : List Char} (h : backslashes front % 2 = 0)
    (s : List Char) : backslashes (front ++ s.flatMap escape) % 2 = 0 := by
  induction s generalizing front with
  | nil => simpa using h
  | cons c s ih =>
    rw [List.flatMap_cons, ← List.append_assoc]
    exact ih (backslashes_escape h c)

/-- A quote closes behind `front` if the number of backslashes in front of it is even. -/
theorem closesAt_length (front rest : List Char) :
    closesAt (front ++ rest) front.length =
      (rest.head? = some '"' && backslashes front % 2 = 0) := by
  simp [closesAt, List.head?_eq_getElem?, List.getElem?_append_right]

/-- No quote closes inside of whole escapes. -/
theorem closesAt_escapes {front : List Char} (h : backslashes front % 2 = 0) (s rest : List Char)
    {i : Nat} (hi : i < (s.flatMap escape).length) :
    closesAt (front ++ (s.flatMap escape ++ rest)) (front.length + i) = false := by
  induction s generalizing front i with
  | nil => cases hi
  | cons c s ih =>
    have hnext (j : Nat) (hj : j < (s.flatMap escape).length) :
        closesAt (front ++ escape c ++ (s.flatMap escape ++ rest))
          ((front ++ escape c).length + j) = false :=
      ih (backslashes_escape h c) hj
    rw [List.flatMap_cons] at hi ⊢
    rcases escape_cases c with ⟨d, hescape, -⟩ | ⟨hescape, hplain⟩
    · rw [hescape] at hi hnext ⊢
      rcases i with _ | _ | i
      · simpa using closesAt_length front ('\\' :: d :: (s.flatMap escape ++ rest))
      · -- a quote here stands behind the backslash of its escape
        have hodd : backslashes (front ++ ['\\']) % 2 = 1 := by
          rw [backslashes_concat, if_pos rfl]
          omega
        have hclose := closesAt_length (front ++ ['\\']) (d :: (s.flatMap escape ++ rest))
        simpa [hodd] using hclose
      · have hrest := hnext i (by simpa using hi)
        simpa [Nat.add_assoc, Nat.add_comm 2 i] using hrest
    · rw [hescape] at hi hnext ⊢
      rcases i with _ | i
      · have hc : c ≠ '"' := fun h => hplain (by simp [h])
        simpa [hc] using closesAt_length front (c :: (s.flatMap escape ++ rest))
      · have hrest := hnext i (by simpa using hi)
        simpa [Nat.add_assoc, Nat.add_comm 1 i] using hrest

/-- The first quote that closes stands behind all escapes. -/
theorem closing?_escapes (s rest : List Char) :
    closing? ('"' :: (s.flatMap escape ++ '"' :: rest)) = some (1 + (s.flatMap escape).length) := by
  have hstart : backslashes ['"'] % 2 = 0 := rfl
  rw [closing?, List.find?_range_eq_some]
  refine ⟨?_, by simp; omega, fun i hi => ?_⟩
  · have hlast := closesAt_length (['"'] ++ s.flatMap escape) ('"' :: rest)
    rw [backslashes_flatMap_escape hstart, List.append_assoc, List.length_append] at hlast
    rw [Bool.and_eq_true, decide_eq_true_eq]
    exact ⟨by omega, hlast⟩
  · rcases i with _ | i
    · rfl
    · have hinside := closesAt_escapes hstart s ('"' :: rest) (i := i) (by omega)
      rw [List.length_singleton, Nat.add_comm, List.singleton_append] at hinside
      rw [hinside, Bool.and_false]
      rfl

-- ---------------------------------------------------------------------------
-- Quoted texts
-- ---------------------------------------------------------------------------

theorem toList_quote (s : String) :
    (quote s).toList = '"' :: (s.toList.flatMap escape ++ ['"']) := by
  rw [quote, String.toList_ofList]
  rfl

theorem length_quote (s : String) : (quote s).length = (s.toList.flatMap escape).length + 2 := by
  rw [← String.length_toList, toList_quote, List.length_cons, List.length_append]
  rfl

/-- A quoted text ends at the first quote that closes, whatever comes behind it. -/
theorem closing?_quote (s rest : String) :
    closing? (quote s ++ rest).toList = some ((quote s).length - 1) := by
  rw [String.toList_append, toList_quote, List.cons_append, List.append_assoc,
    List.singleton_append, closing?_escapes, length_quote, Nat.add_comm]
  rfl

/-- `q` shows the text `s` within a line: it can be told where it ends, and what it shows. -/
structure Shows (q s : String) : Prop where
  inLine : ∀ c ∈ ['\n', '\r', '\t'], c ∉ q.toList
  opening : q.toList.head? = some '"'
  closing : ∀ rest : String, closing? (q ++ rest).toList = some (q.length - 1)
  content : unescape? q.toList.tail.dropLast = some s.toList

/-- A quoted text shows the text within a line. -/
theorem shows_quote (s : String) : Shows (quote s) s where
  inLine := by
    intro c hc
    have hescape := notMem_escape hc
    have hquote : c ≠ '"' := by
      rintro rfl
      exact absurd hc (by decide)
    simp [toList_quote, hescape, hquote]
  opening := by rw [toList_quote]; rfl
  closing := closing?_quote s
  content := by
    rw [toList_quote, List.tail_cons, List.dropLast_concat, unescape?_flatMap_escape]

/-- Quoting is faithful: a quoted text stays in its line, ends at the first quote that closes,
    and gives its text back. So no two texts are quoted alike, and what comes behind a quoted
    text can be told from it. -/
theorem quote_faithful :
    (∀ s, Shows (quote s) s) ∧ (∀ s t, quote s = quote t → s = t) ∧
      ∀ s t x y, quote s ++ x = quote t ++ y → s = t ∧ x = y := by
  refine ⟨shows_quote, fun s t => quote_injective, fun s t x y h => ?_⟩
  have hlength : (quote s).toList.length = (quote t).toList.length := by
    have hclosing := closing?_quote s x
    rw [h, closing?_quote, Option.some.injEq, length_quote, length_quote] at hclosing
    rw [String.length_toList, String.length_toList, length_quote, length_quote]
    omega
  have hchars := congrArg String.toList h
  rw [String.toList_append, String.toList_append] at hchars
  obtain ⟨hquote, hrest⟩ := List.append_inj hchars hlength
  exact ⟨quote_injective (String.toList_inj.1 hquote), String.toList_inj.1 hrest⟩

/-- A text that ends in a backslash, and one that looks escaped already. -/
example : closing? (quote "\\" ++ "\"").toList = some 3 ∧
    unescape? (quote "\\n\"").toList.tail.dropLast = some ['\\', 'n', '"'] := by
  decide +kernel

end Forth.Text
