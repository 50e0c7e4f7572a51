-- SUMMARY: The lexer: tokens read one by one from lexemes, with comments skipped and one token of lookahead.
import Forth.SyntaxError

/-!
# The lexer

A lexer holds the lexemes that are not read yet and at most one pending token.
Reading takes the pending token if there is one, and otherwise the next fresh
token. A comment runs from a lexeme `(` to the lexeme `)` that closes it, and
comments nest. A failed read keeps what it has read, so later reads go on behind
the failure.

The measure `remaining` counts what is left to read. A read makes it smaller
unless it meets the end of the input, and looking ahead does not make it larger.
-/

namespace Forth

/-- The unread lexemes of a text, the location of its end, and a token that was
    looked at or pushed back. -/
structure Lexer where
  lexemes : List Lexeme
  finish : Location
  pending : Option Token := none
  deriving DecidableEq

namespace Lexer

def ofSource (path source : String) : Lexer :=
  let (lexemes, finish) := (Cursor.ofSource path source).lexemes
  { lexemes, finish }

/-- A comment that is not closed yet: where it starts, and how many comments are
    open inside of it. -/
structure Comment where
  start : Location
  inner : Nat := 0

/-- Reads one token from the lexemes of a text that ends at `finish`. The comment
    is the one that the first lexeme stands in. -/
def scan (finish : Location) :
    Option Comment → List Lexeme → EStateM.Result SyntaxError (List Lexeme) Token
  | none, [] => .ok ⟨finish, .endOfInput⟩ []
  | some c, [] => .error ⟨c.start, .unclosedComment⟩ []
  | none, x :: xs =>
    if x.text = "(" then scan finish (some { start := x.location }) xs else .ok x.token xs
  | some c, x :: xs =>
    if x.text = "(" then
      scan finish (some { c with inner := c.inner + 1 }) xs
    else if x.text = ")" then
      match c.inner with
      | 0 => scan finish none xs
      | inner + 1 => scan finish (some { c with inner }) xs
    else
      scan finish (some c) xs

/-- Reads the next fresh token, whatever is pending. -/
def fresh : EStateM SyntaxError Lexer Token := fun l =>
  match scan l.finish none l.lexemes with
  | .ok t rest => .ok t { l with lexemes := rest }
  | .error e rest => .error e { l with lexemes := rest }

def next : EStateM SyntaxError Lexer Token := fun l =>
  match l.pending with
  | some t => .ok t { l with pending := none }
  | none => fresh l

/-- The next token, which stays the next one. When it can not be read, nothing
    is pending. -/
def peek : EStateM SyntaxError Lexer Token := fun l =>
  match l.pending with
  | some t => .ok t l
  | none =>
    match fresh l with
    | .ok t l => .ok t { l with pending := some t }
    | .error e l => .error e l

/-- Makes `t` the next token. Refused if a token is pending already. -/
def unread (t : Token) : EStateM SyntaxError Lexer Unit := fun l =>
  match l.pending with
  | some p => .error ⟨t.location, .alreadyPending p t⟩ l
  | none => .ok () { l with pending := some t }

/-! ## What is left to read -/

/-- The number of lexemes and pending tokens left to read. A pending end of the
    input does not count. -/
def remaining (l : Lexer) : Nat :=
  l.lexemes.length + (l.pending.toList.filter (!·.isEnd)).length

/-- A token takes up at least one lexeme, and the end of the input none. -/
theorem scan_length {finish : Location} {c : Option Comment} {xs rest : List Lexeme} {t : Token}
    (h : scan finish c xs = .ok t rest) : rest.length + (if t.isEnd then 0 else 1) ≤ xs.length := by
  fun_induction scan finish c xs with
  | case1 => cases h; simp [Token.isEnd]
  | case2 => cases h
  | case3 x xs _ ih => have := ih h; simp only [List.length_cons]; omega
  | case4 x xs => cases h; simp
  | case5 c x xs _ ih => have := ih h; simp only [List.length_cons]; omega
  | case6 c x xs _ _ _ ih => have := ih h; simp only [List.length_cons]; omega
  | case7 c x xs _ _ inner _ ih => have := ih h; simp only [List.length_cons]; omega
  | case8 c x xs _ _ ih => have := ih h; simp only [List.length_cons]; omega

theorem fresh_lexemes_length {l l' : Lexer} {t : Token} (h : fresh l = .ok t l') :
    l'.lexemes.length + (if t.isEnd then 0 else 1) ≤ l.lexemes.length ∧ l'.pending = l.pending := by
  unfold fresh at h
  split at h
  · next hs => cases h; exact ⟨scan_length hs, rfl⟩
  · cases h

/-- A token that is not the end of the input makes what is left smaller. -/
theorem remaining_next_lt {l l' : Lexer} {t : Token} (h : next l = .ok t l')
    (ht : t.isEnd = false) : l'.remaining < l.remaining := by
  unfold next at h
  split at h
  · next hp => cases h; simp [remaining, hp, ht]
  · next hp =>
    obtain ⟨hl, hq⟩ := fresh_lexemes_length h
    simp only [remaining, hq, hp, ht] at hl ⊢
    simp at hl ⊢
    omega

/-- No read makes what is left larger. -/
theorem remaining_next_le {l l' : Lexer} {t : Token} (h : next l = .ok t l') :
    l'.remaining ≤ l.remaining := by
  unfold next at h
  split at h
  · cases h; simp [remaining]
  · obtain ⟨hl, hq⟩ := fresh_lexemes_length h
    simp only [remaining, hq]
    omega

/-- Looking ahead does not make what is left larger. -/
theorem remaining_peek_le {l l' : Lexer} {t : Token} (h : peek l = .ok t l') :
    l'.remaining ≤ l.remaining := by
  unfold peek at h
  split at h
  · cases h; exact Nat.le_refl _
  · split at h
    · next hp _ _ _ hf =>
      cases h
      obtain ⟨hl, hq⟩ := fresh_lexemes_length hf
      simp only [remaining, hp]
      cases he : t.isEnd <;> simp [he] at hl ⊢ <;> omega
    · cases h

end Lexer

end Forth
