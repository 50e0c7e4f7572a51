-- SUMMARY: A cursor on a source text, the lexemes it reads, and the split of a text into lexemes.
import Forth.Source.Location
import Forth.Text.Blank

/-!
# Cursors and lexemes

A cursor is the unread rest of a source text together with the location of its
first character. A lexeme is a maximal run of characters that are not blank,
with the location of the first of them.
-/

namespace Forth

/-- A run of characters that are not blank, and where it starts. -/
structure Lexeme where
  location : Location
  text : String
  deriving DecidableEq, Repr

/-- The unread rest of a source text and the location where it starts. -/
structure Cursor where
  rest : List Char
  location : Location
  deriving DecidableEq, Repr

namespace Cursor

def ofSource (path source : String) : Cursor :=
  ⟨source.toList, .start path⟩

/-- The character under the cursor. The cursor does not move. -/
def peek? (c : Cursor) : Option Char :=
  c.rest.head?

/-- The character under the cursor, and the cursor behind it. -/
def next (c : Cursor) : Option Char × Cursor :=
  match c.rest with
  | [] => (none, c)
  | x :: xs => (some x, ⟨xs, c.location.after x⟩)

/-- The cursor behind the longest run of characters that satisfy `p`. -/
def skip (p : Char → Bool) (c : Cursor) : Cursor :=
  ⟨c.rest.dropWhile p, c.location.afterAll (c.rest.takeWhile p)⟩

/-- The next lexeme, if there is one, and the cursor behind it. When only blanks
    are left they are all read. -/
def lexeme (c : Cursor) : Option Lexeme × Cursor :=
  let c := c.skip Text.isBlank
  match c.rest.takeWhile (!Text.isBlank ·) with
  | [] => (none, c)
  | xs => (some ⟨c.location, String.ofList xs⟩, c.skip (!Text.isBlank ·))

theorem length_skip_le (p : Char → Bool) (c : Cursor) :
    (c.skip p).rest.length ≤ c.rest.length :=
  (List.dropWhile_sublist p).length_le

/-- Reading a lexeme shortens the rest. -/
theorem length_lexeme_lt {c c' : Cursor} {x : Lexeme} (h : c.lexeme = (some x, c')) :
    c'.rest.length < c.rest.length := by
  unfold lexeme at h
  generalize hb : c.skip Text.isBlank = b at h
  have hle : b.rest.length ≤ c.rest.length := hb ▸ length_skip_le _ c
  cases ht : b.rest.takeWhile (!Text.isBlank ·) with
  | nil => simp [ht] at h
  | cons y ys =>
    simp only [ht, Prod.mk.injEq] at h
    obtain ⟨_, rfl⟩ := h
    have hsplit := congrArg List.length
      (List.takeWhile_append_dropWhile (p := (!Text.isBlank ·)) (l := b.rest))
    simp only [List.length_append, ht, List.length_cons] at hsplit
    simp only [skip]
    omega

/-- All lexemes that are left, and the location of the end of the text. -/
def lexemes (c : Cursor) : List Lexeme × Location :=
  match h : c.lexeme with
  | (none, c') => ([], c'.location)
  | (some x, c') =>
    have := length_lexeme_lt h
    let (xs, finish) := c'.lexemes
    (x :: xs, finish)
termination_by c.rest.length

theorem lexemes_of_none {c c' : Cursor} (h : c.lexeme = (none, c')) :
    c.lexemes = ([], c'.location) := by
  rw [lexemes]
  split <;> simp_all

theorem lexemes_of_some {c c' : Cursor} {x : Lexeme} (h : c.lexeme = (some x, c')) :
    c.lexemes = (x :: c'.lexemes.1, c'.lexemes.2) := by
  rw [lexemes]
  split <;> simp_all

end Cursor

end Forth
