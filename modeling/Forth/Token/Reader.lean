-- SUMMARY: The reader: a lexer that reads its text on demand, from a buffer of characters.
import Forth.Source.Buffer
import Forth.Token.Lexer

/-!
# The reader

A reader is a lexer that has not split its text into lexemes: it holds a buffer of
characters and at most one pending token. A fresh token takes as many lexemes from the
buffer as it needs, comments in front of it included. When a read fails, the text up to
the failure is consumed.
-/

namespace Forth

/-- The text that is not read, and a token that was looked at or pushed back. -/
structure Reader where
  buffer : Buffer
  pending : Option Token := none
  deriving DecidableEq

namespace Reader

def ofSource (path source : String) : Reader where
  buffer := .ofSource path source

/-- Discards lexemes until `depth` open comments are closed. The outermost one starts at
    `start`. -/
def skipComment (start : Location) (depth : Nat) (b : Buffer) :
    EStateM.Result SyntaxError Buffer Unit :=
  match depth with
  | 0 => .ok () b
  | inner + 1 =>
    match h : b.lexeme with
    | (none, b') => .error ⟨start, .unclosedComment⟩ b'
    | (some x, b') =>
      have := Buffer.remaining_lexeme_lt h
      if x.text = "(" then
        skipComment start (inner + 2) b'
      else if x.text = ")" then
        skipComment start inner b'
      else
        skipComment start (inner + 1) b'
termination_by b.remaining

theorem remaining_skipComment_le {start : Location} {depth : Nat} {b b' : Buffer}
    (h : skipComment start depth b = .ok () b') : b'.remaining ≤ b.remaining := by
  fun_induction skipComment start depth b with
  | case1 => cases h; exact Nat.le_refl _
  | case2 => cases h
  | case3 b inner x b₁ hx hlt _ ih => exact Nat.le_trans (ih h) (Nat.le_of_lt hlt)
  | case4 b inner x b₁ hx hlt _ _ ih => exact Nat.le_trans (ih h) (Nat.le_of_lt hlt)
  | case5 b inner x b₁ hx hlt _ _ ih => exact Nat.le_trans (ih h) (Nat.le_of_lt hlt)

/-- Reads the next fresh token from a buffer. -/
def scan (b : Buffer) : EStateM.Result SyntaxError Buffer Token :=
  match h : b.lexeme with
  | (none, b') => .ok ⟨b'.location, .endOfInput⟩ b'
  | (some x, b') =>
    if x.text = "(" then
      match hskip : skipComment x.location 1 b' with
      | .ok () rest =>
        have := Nat.lt_of_le_of_lt (remaining_skipComment_le hskip) (Buffer.remaining_lexeme_lt h)
        scan rest
      | .error e rest => .error e rest
    else
      .ok x.token b'
termination_by b.remaining

/-- Reads the next fresh token, whatever is pending. -/
def fresh : EStateM SyntaxError Reader Token := fun r =>
  match scan r.buffer with
  | .ok t buffer => .ok t { r with buffer }
  | .error e buffer => .error e { r with buffer }

def next : EStateM SyntaxError Reader Token := fun r =>
  match r.pending with
  | some t => .ok t { r with pending := none }
  | none => fresh r

/-- The next token, which stays the next one. When it can not be read, nothing is
    pending. -/
def peek : EStateM SyntaxError Reader Token := fun r =>
  match r.pending with
  | some t => .ok t r
  | none =>
    match fresh r with
    | .ok t r => .ok t { r with pending := some t }
    | .error e r => .error e r

/-- Makes `t` the next token. Refused if a token is pending already. -/
def unread (t : Token) : EStateM SyntaxError Reader Unit := fun r =>
  match r.pending with
  | some p => .error ⟨t.location, .alreadyPending p t⟩ r
  | none => .ok () { r with pending := some t }

end Reader

end Forth
