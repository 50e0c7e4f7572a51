-- SUMMARY: A source text that is read character by character, with one character of lookahead.
import Forth.Source.Cursor

/-!
# Buffers

A buffer hands out the characters of a text one by one. A character that was looked at
is kept in the buffer, and is the next one that is consumed. The location moves only
when a character is consumed. Runs of characters are read by looking at the next
character and consuming it while it belongs to the run, so the first character behind
a run has been looked at and stays in the buffer.
-/

namespace Forth

/-- The characters that were not looked at, the location of the next character, and the
    next character if it was looked at. -/
structure Buffer where
  chars : List Char
  location : Location
  current : Option Char := none
  deriving DecidableEq, Repr

namespace Buffer

def ofSource (path source : String) : Buffer where
  chars := source.toList
  location := .start path

/-- The next character. It stays the next one. -/
def peek (b : Buffer) : Option Char × Buffer :=
  match b.current with
  | some c => (some c, b)
  | none =>
    match b.chars with
    | [] => (none, b)
    | c :: chars => (some c, { b with chars, current := some c })

def next (b : Buffer) : Option Char × Buffer :=
  match b.current with
  | some c => (some c, { b with location := b.location.after c, current := none })
  | none =>
    match b.chars with
    | [] => (none, b)
    | c :: chars => (some c, { b with chars, location := b.location.after c })

/-- The number of characters that are not consumed. -/
def remaining (b : Buffer) : Nat :=
  b.chars.length + b.current.toList.length

theorem remaining_peek (b : Buffer) : b.peek.2.remaining = b.remaining := by
  obtain ⟨chars, location, current⟩ := b
  cases current with
  | some c => rfl
  | none => cases chars <;> rfl

/-- Consuming a character that was looked at leaves fewer characters. -/
theorem remaining_next_lt {b b' : Buffer} {c : Char} (h : b.peek = (some c, b')) :
    b'.next.2.remaining < b.remaining := by
  obtain ⟨chars, location, current⟩ := b
  cases current with
  | some d =>
    cases h
    exact Nat.lt_succ_self _
  | none =>
    cases chars with
    | nil => cases h
    | cons d chars =>
      cases h
      exact Nat.lt_succ_self _

/-- Consumes characters as long as the next one satisfies `p`. -/
def takeWhile (p : Char → Bool) (b : Buffer) : List Char × Buffer :=
  match h : b.peek with
  | (none, b') => ([], b')
  | (some c, b') =>
    have := remaining_next_lt h
    if p c then
      let (cs, rest) := b'.next.2.takeWhile p
      (c :: cs, rest)
    else
      ([], b')
termination_by b.remaining

/-- Consumes the blanks in front of the next lexeme, and the lexeme if there is one. -/
def lexeme (b : Buffer) : Option Lexeme × Buffer :=
  let (_, b) := b.takeWhile Text.isBlank
  match b.takeWhile (!Text.isBlank ·) with
  | ([], rest) => (none, rest)
  | (cs, rest) => (some ⟨b.location, String.ofList cs⟩, rest)

theorem remaining_takeWhile (p : Char → Bool) (b : Buffer) :
    (b.takeWhile p).2.remaining + (b.takeWhile p).1.length ≤ b.remaining := by
  fun_induction takeWhile p b with
  | case1 b b' h =>
    have hpeek := b.remaining_peek
    rw [h] at hpeek
    exact Nat.le_of_eq hpeek
  | case2 b c b' h hlt _ cs rest hrest ih =>
    rw [hrest] at ih
    exact Nat.lt_of_le_of_lt ih hlt
  | case3 b c b' h hlt _ =>
    have hpeek := b.remaining_peek
    rw [h] at hpeek
    exact Nat.le_of_eq hpeek

/-- Reading a lexeme leaves fewer characters. -/
theorem remaining_lexeme_lt {b b' : Buffer} {x : Lexeme} (h : b.lexeme = (some x, b')) :
    b'.remaining < b.remaining := by
  unfold lexeme at h
  have hblanks := b.remaining_takeWhile Text.isBlank
  have hword := (b.takeWhile Text.isBlank).2.remaining_takeWhile (!Text.isBlank ·)
  dsimp only at h
  split at h
  · cases h
  · rename_i cs rest hne hcs
    cases h
    simp only [hcs] at hword
    have hpos : 0 < cs.length := List.length_pos_iff.2 hne
    omega

end Buffer

end Forth
