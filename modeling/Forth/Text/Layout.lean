-- SUMMARY: Fixed-width columns and trimmed line ends for the lines of a listing.
import Forth.Text.Blank

/-!
# Layout of lines

The lines of a listing are laid out in columns. A field shorter than its column
is filled with spaces; a longer one is kept whole.
-/

namespace Forth.Text

/-- Fill `s` with spaces on the right up to `width` characters. -/
def padRight (width : Nat) (s : String) : String :=
  s ++ String.ofList (List.replicate (width - s.length) ' ')

/-- Fill `s` with spaces on the left up to `width` characters. -/
def padLeft (width : Nat) (s : String) : String :=
  String.ofList (List.replicate (width - s.length) ' ') ++ s

def trimEnd (s : String) : String :=
  String.ofList (s.toList.reverse.dropWhile isBlank).reverse

end Forth.Text
