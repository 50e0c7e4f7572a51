-- SUMMARY: The tokens of a text: the lexemes outside of comments, and how a lexer hands them out.
import Forth.Token.Lexer

/-!
# The tokens of a text

Comments are described by a depth that every lexeme `(` raises and every lexeme
`)` lowers. The lexemes at depth zero are the tokens of the text, and the text
has an unclosed comment if the depth at its end is not zero. A lexer that looks
ahead and reads on demand hands out just these tokens, one after the other.
-/

namespace Forth

-- ---------------------------------------------------------------------------
-- Comments
-- ---------------------------------------------------------------------------

/-- How many comments are open behind `x`, if `depth` are open in front of it. -/
def Lexeme.depthAfter (depth : Nat) (x : Lexeme) : Nat :=
  if x.text = "(" then depth + 1 else if x.text = ")" then depth - 1 else depth

/-- The lexemes outside of comments, if `depth` comments are open in front. -/
def outsideComments : Nat → List Lexeme → List Lexeme
  | _, [] => []
  | depth, x :: xs =>
    if depth = 0 ∧ x.text ≠ "(" then
      x :: outsideComments (x.depthAfter depth) xs
    else
      outsideComments (x.depthAfter depth) xs

/-- Every comment is closed, also the `depth` comments that are open in front. -/
def CommentsClosed (depth : Nat) (xs : List Lexeme) : Prop :=
  xs.foldl (fun depth x => x.depthAfter depth) depth = 0

instance (depth : Nat) (xs : List Lexeme) : Decidable (CommentsClosed depth xs) :=
  inferInstanceAs (Decidable (_ = 0))

def tokensOf (xs : List Lexeme) : List Token :=
  (outsideComments 0 xs).map Lexeme.token

theorem isEnd_of_mem_tokensOf {xs : List Lexeme} {t : Token} (h : t ∈ tokensOf xs) :
    t.isEnd = false := by
  obtain ⟨x, -, rfl⟩ := List.mem_map.1 h
  exact x.isEnd_token

theorem mem_of_mem_outsideComments {depth : Nat} {xs : List Lexeme} {x : Lexeme}
    (h : x ∈ outsideComments depth xs) : x ∈ xs := by
  induction xs generalizing depth with
  | nil => exact h
  | cons y ys ih =>
    simp only [outsideComments] at h
    split at h
    · rcases List.mem_cons.1 h with rfl | h
      · exact List.mem_cons_self
      · exact List.mem_cons_of_mem _ (ih h)
    · exact List.mem_cons_of_mem _ (ih h)

-- ---------------------------------------------------------------------------
-- Reading one token
-- ---------------------------------------------------------------------------

namespace Lexer

/-- What a read can give, with `depth` comments open in front of the lexemes `xs`:
    the end of the text, the next lexeme outside of comments, or a failure in a
    comment that is never closed. -/
inductive Scanned (finish : Location) (depth : Nat) (xs : List Lexeme) :
    EStateM.Result SyntaxError (List Lexeme) Token → Prop where
  | finished : outsideComments depth xs = [] → CommentsClosed depth xs →
      Scanned finish depth xs (.ok ⟨finish, .endOfInput⟩ [])
  | token {x : Lexeme} {rest : List Lexeme} :
      outsideComments depth xs = x :: outsideComments 0 rest →
      (CommentsClosed depth xs ↔ CommentsClosed 0 rest) →
      Scanned finish depth xs (.ok x.token rest)
  | unclosed {e : SyntaxError} {rest : List Lexeme} :
      outsideComments depth xs = [] → ¬ CommentsClosed depth xs →
      Scanned finish depth xs (.error e rest)

/-- A lexeme inside of a comment, or one that opens a comment, is passed over. -/
theorem Scanned.skip {finish : Location} {depth : Nat} {x : Lexeme} {xs : List Lexeme}
    {r : EStateM.Result SyntaxError (List Lexeme) Token} (hx : ¬ (depth = 0 ∧ x.text ≠ "("))
    (h : Scanned finish (x.depthAfter depth) xs r) : Scanned finish depth (x :: xs) r := by
  have hout : outsideComments depth (x :: xs) = outsideComments (x.depthAfter depth) xs := by
    rw [outsideComments, if_neg hx]
  cases h with
  | finished hnil hclosed => exact .finished (hout.trans hnil) hclosed
  | token hcons hclosed => exact .token (hout.trans hcons) hclosed
  | unclosed hnil hopen => exact .unclosed (hout.trans hnil) hopen

/-- How many comments are open inside of a comment, itself included. -/
def Comment.depth : Option Comment → Nat
  | none => 0
  | some c => c.inner + 1

theorem scanned_scan (finish : Location) (c : Option Comment) (xs : List Lexeme) :
    Scanned finish (Comment.depth c) xs (scan finish c xs) := by
  fun_induction scan finish c xs with
  | case1 => exact .finished rfl rfl
  | case2 c => exact .unclosed rfl (Nat.succ_ne_zero c.inner)
  | case3 x xs hx ih =>
    refine .skip (fun h => h.2 hx) ?_
    simpa [Lexeme.depthAfter, Comment.depth, hx] using ih
  | case4 x xs hx =>
    have hdepth : x.depthAfter 0 = 0 := by simp [Lexeme.depthAfter, hx]
    refine .token ?_ ?_
    · simp [outsideComments, Comment.depth, hx, hdepth]
    · simp [CommentsClosed, Comment.depth, hdepth]
  | case5 c x xs hx ih =>
    refine .skip (fun h => h.2 hx) ?_
    simpa [Lexeme.depthAfter, Comment.depth, hx] using ih
  | case6 c x xs hx hy hc ih =>
    refine .skip (fun h => Nat.succ_ne_zero _ h.1) ?_
    simpa [Lexeme.depthAfter, Comment.depth, hy, hc] using ih
  | case7 c x xs hx hy inner hc ih =>
    refine .skip (fun h => Nat.succ_ne_zero _ h.1) ?_
    simpa [Lexeme.depthAfter, Comment.depth, hy, hc] using ih
  | case8 c x xs hx hy ih =>
    refine .skip (fun h => Nat.succ_ne_zero _ h.1) ?_
    simpa [Lexeme.depthAfter, Comment.depth, hx, hy] using ih

-- ---------------------------------------------------------------------------
-- Lookahead
-- ---------------------------------------------------------------------------

/-- What a lexer has left: the tokens `ts`, and behind them the end of the text,
    or a comment that is never closed if `closed` does not hold. -/
inductive Offers (l : Lexer) (ts : List Token) (closed : Prop) : Prop where
  | fresh : l.pending = none → tokensOf l.lexemes = ts →
      (closed ↔ CommentsClosed 0 l.lexemes) → Offers l ts closed
  | pending {t : Token} : l.pending = some t → t.isEnd = false → t :: tokensOf l.lexemes = ts →
      (closed ↔ CommentsClosed 0 l.lexemes) → Offers l ts closed
  | finished {t : Token} : l.pending = some t → t.payload = .endOfInput → l.lexemes = [] →
      ts = [] → closed → Offers l ts closed

/-- A new lexer offers the tokens of its text, up to an unclosed comment if there is one. -/
theorem offers_ofSource (path source : String) :
    (ofSource path source).Offers (tokensOf (Cursor.ofSource path source).lexemes.1)
      (CommentsClosed 0 (Cursor.ofSource path source).lexemes.1) :=
  .fresh rfl rfl Iff.rfl

/-- Reading a fresh token takes the first of the tokens that are left. -/
theorem fresh_cons {l : Lexer} {t : Token} {ts : List Token}
    (h : tokensOf l.lexemes = t :: ts) :
    ∃ rest, fresh l = .ok t { l with lexemes := rest } ∧ tokensOf rest = ts ∧
      (CommentsClosed 0 l.lexemes ↔ CommentsClosed 0 rest) := by
  have hs : Scanned l.finish 0 l.lexemes (scan l.finish none l.lexemes) := scanned_scan _ none _
  unfold fresh
  cases hr : scan l.finish none l.lexemes with
  | ok u rest =>
    rw [hr] at hs
    cases hs with
    | finished hnil _ => simp [tokensOf, hnil] at h
    | token hcons hclosed =>
      simp only [tokensOf, hcons, List.map_cons, List.cons.injEq] at h
      obtain ⟨rfl, rfl⟩ := h
      exact ⟨rest, rfl, rfl, hclosed⟩
  | error e rest =>
    rw [hr] at hs
    cases hs with
    | unclosed hnil _ => simp [tokensOf, hnil] at h

/-- With no token left, a read gives the end of the text if all comments are
    closed, and fails otherwise. -/
theorem fresh_nil {l : Lexer} (h : tokensOf l.lexemes = []) :
    (CommentsClosed 0 l.lexemes ∧
      fresh l = .ok ⟨l.finish, .endOfInput⟩ { l with lexemes := [] }) ∨
    (¬ CommentsClosed 0 l.lexemes ∧ ∃ e l', fresh l = .error e l') := by
  have hs : Scanned l.finish 0 l.lexemes (scan l.finish none l.lexemes) := scanned_scan _ none _
  unfold fresh
  cases hr : scan l.finish none l.lexemes with
  | ok u rest =>
    rw [hr] at hs
    cases hs with
    | finished _ hclosed => exact .inl ⟨hclosed, rfl⟩
    | token hcons _ => simp [tokensOf, hcons] at h
  | error e rest =>
    rw [hr] at hs
    cases hs with
    | unclosed _ hopen => exact .inr ⟨hopen, e, _, rfl⟩

namespace Offers

variable {l : Lexer} {t : Token} {ts : List Token} {closed : Prop}

theorem isEnd_head (h : l.Offers (t :: ts) closed) : t.isEnd = false := by
  cases h with
  | fresh _ htokens _ => exact isEnd_of_mem_tokensOf (htokens ▸ List.mem_cons_self)
  | pending _ hend htokens _ => cases htokens; exact hend
  | finished _ _ _ hnil => cases hnil

/-- A read gives the first token that is offered, and takes it. -/
theorem next_cons (h : l.Offers (t :: ts) closed) :
    ∃ l', next l = .ok t l' ∧ l'.Offers ts closed := by
  cases h with
  | fresh hpending htokens hclosed =>
    obtain ⟨rest, hfresh, hrest, hiff⟩ := fresh_cons htokens
    refine ⟨{ l with lexemes := rest }, ?_, .fresh hpending hrest (hclosed.trans hiff)⟩
    simp only [next, hpending, hfresh]
  | pending hpending _ htokens hclosed =>
    cases htokens
    exact ⟨{ l with pending := none }, by simp only [next, hpending], .fresh rfl rfl hclosed⟩
  | finished _ _ _ hnil => cases hnil

/-- Behind all tokens a read gives the end of the input, again and again. -/
theorem next_nil (h : l.Offers [] closed) (hc : closed) :
    ∃ t l', next l = .ok t l' ∧ t.payload = .endOfInput ∧ l'.Offers [] closed := by
  cases h with
  | fresh hpending htokens hclosed =>
    rcases fresh_nil htokens with ⟨_, hfresh⟩ | ⟨hopen, _⟩
    · refine ⟨⟨l.finish, .endOfInput⟩, { l with lexemes := [] }, ?_, rfl, ?_⟩
      · simp only [next, hpending, hfresh]
      · exact .fresh hpending rfl ⟨fun _ => rfl, fun _ => hc⟩
    · exact absurd (hclosed.1 hc) hopen
  | pending _ _ htokens => cases htokens
  | @finished u hpending hend hlexemes _ _ =>
    refine ⟨u, { l with pending := none }, by simp only [next, hpending], hend, ?_⟩
    exact .fresh rfl (by rw [hlexemes]; rfl) ⟨fun _ => by rw [hlexemes]; rfl, fun _ => hc⟩

/-- Behind all tokens a read fails in the comment that is never closed. -/
theorem next_unclosed (h : l.Offers [] closed) (hc : ¬ closed) :
    ∃ e l', next l = .error e l' := by
  cases h with
  | fresh hpending htokens hclosed =>
    rcases fresh_nil htokens with ⟨hyes, _⟩ | ⟨_, e, l', hfresh⟩
    · exact absurd (hclosed.2 hyes) hc
    · exact ⟨e, l', by simp only [next, hpending, hfresh]⟩
  | pending _ _ htokens => cases htokens
  | finished _ _ _ _ hyes => exact absurd hyes hc

/-- Looking ahead gives the first token that is offered, and leaves it. -/
theorem peek_cons (h : l.Offers (t :: ts) closed) :
    ∃ l', peek l = .ok t l' ∧ l'.Offers (t :: ts) closed := by
  have hend : t.isEnd = false := h.isEnd_head
  cases h with
  | fresh hpending htokens hclosed =>
    obtain ⟨rest, hfresh, hrest, hiff⟩ := fresh_cons htokens
    refine ⟨{ l with lexemes := rest, pending := some t }, ?_, ?_⟩
    · simp only [peek, hpending, hfresh]
    · exact .pending rfl hend (by rw [hrest]) (hclosed.trans hiff)
  | pending hpending _ htokens hclosed =>
    cases htokens
    exact ⟨l, by simp only [peek, hpending], .pending hpending hend rfl hclosed⟩
  | finished _ _ _ hnil => cases hnil

theorem peek_nil (h : l.Offers [] closed) (hc : closed) :
    ∃ t l', peek l = .ok t l' ∧ t.payload = .endOfInput ∧ l'.Offers [] closed := by
  cases h with
  | fresh hpending htokens hclosed =>
    rcases fresh_nil htokens with ⟨_, hfresh⟩ | ⟨hopen, _⟩
    · refine ⟨⟨l.finish, .endOfInput⟩,
        { l with lexemes := [], pending := some ⟨l.finish, .endOfInput⟩ }, ?_, rfl, ?_⟩
      · simp only [peek, hpending, hfresh]
      · exact .finished rfl rfl rfl rfl hc
    · exact absurd (hclosed.1 hc) hopen
  | pending _ _ htokens => cases htokens
  | @finished u hpending hend hlexemes _ _ =>
    exact ⟨u, l, by simp only [peek, hpending], hend, .finished hpending hend hlexemes rfl hc⟩

theorem peek_unclosed (h : l.Offers [] closed) (hc : ¬ closed) :
    ∃ e l', peek l = .error e l' := by
  cases h with
  | fresh hpending htokens hclosed =>
    rcases fresh_nil htokens with ⟨hyes, _⟩ | ⟨_, e, l', hfresh⟩
    · exact absurd (hclosed.2 hyes) hc
    · exact ⟨e, l', by simp only [peek, hpending, hfresh]⟩
  | pending _ _ htokens => cases htokens
  | finished _ _ _ _ hyes => exact absurd hyes hc

end Offers

end Lexer

-- ---------------------------------------------------------------------------
-- Names
-- ---------------------------------------------------------------------------

/-- A lexeme has no blank inside of it. -/
theorem Cursor.isBlank_of_lexeme {c c' : Cursor} {x : Lexeme} (h : c.lexeme = (some x, c')) :
    ∀ ch ∈ x.text.toList, Text.isBlank ch = false := by
  unfold lexeme at h
  dsimp only at h
  split at h
  · cases h
  · cases h
    intro ch hch
    rw [String.toList_ofList] at hch
    simpa using List.all_eq_true.1 List.all_takeWhile ch hch

/-- No character of a lexeme is a blank. -/
theorem Cursor.isBlank_of_mem_lexemes {c : Cursor} {x : Lexeme} (h : x ∈ c.lexemes.1) :
    ∀ ch ∈ x.text.toList, Text.isBlank ch = false := by
  induction hn : c.rest.length using Nat.strongRecOn generalizing c with
  | _ n ih =>
    subst hn
    rcases hl : c.lexeme with ⟨_ | y, c'⟩
    · simp [lexemes_of_none hl] at h
    · rw [lexemes_of_some hl] at h
      rcases List.mem_cons.1 h with rfl | h
      · exact isBlank_of_lexeme hl
      · exact ih _ (length_lexeme_lt hl) h rfl

theorem Token.Payload.ofText_eq_identifier {s name : String} (h : ofText s = .identifier name) :
    s = name := by
  unfold ofText at h
  split at h
  · cases h
  · split at h
    · cases h
    · split at h
      · cases h
      · cases h; rfl

/-- A name in a source text has no blanks. -/
theorem isBlank_of_identifier {path source name : String} {t : Token}
    (ht : t ∈ tokensOf (Cursor.ofSource path source).lexemes.1)
    (hname : t.payload = .identifier name) : ∀ ch ∈ name.toList, Text.isBlank ch = false := by
  obtain ⟨x, hx, rfl⟩ := List.mem_map.1 ht
  rw [← Token.Payload.ofText_eq_identifier hname]
  exact Cursor.isBlank_of_mem_lexemes (mem_of_mem_outsideComments hx)

end Forth
