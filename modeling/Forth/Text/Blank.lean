-- SUMMARY: The blank characters: the code points with the Unicode property White_Space.

/-!
# Blanks

Blanks separate the lexemes of a source text and are trimmed from the end of a
listing line. They are the 25 code points with the Unicode property
White_Space, given here as closed ranges in ascending order.
-/

namespace Forth.Text

/-- The code points with the property White_Space, as closed ranges. -/
def blankRanges : List (Nat × Nat) :=
  [(0x09, 0x0D), (0x20, 0x20), (0x85, 0x85), (0xA0, 0xA0), (0x1680, 0x1680), (0x2000, 0x200A),
   (0x2028, 0x2029), (0x202F, 0x202F), (0x205F, 0x205F), (0x3000, 0x3000)]

/-- Whether a character is a blank. -/
def isBlank (c : Char) : Bool :=
  blankRanges.any fun (first, last) => first ≤ c.toNat && c.toNat ≤ last

/-- Every character that core counts as whitespace is a blank. -/
theorem isBlank_of_isWhitespace {c : Char} (h : c.isWhitespace = true) : isBlank c = true := by
  simp only [Char.isWhitespace, Bool.or_eq_true, decide_eq_true_eq] at h
  rcases h with ((rfl | rfl) | rfl) | rfl <;> decide

example : (blankRanges.map fun (first, last) => last + 1 - first).sum = 25 := by decide

example : isBlank '\n' ∧ ¬ isBlank 'a' := by decide

end Forth.Text
