-- SUMMARY: Quoted text: a string between double quotes with five characters escaped.

/-!
# Quoted text

A listing and a message show a string between double quotes. A quote, a
backslash, a line feed, a carriage return and a tab are escaped by a backslash,
so the quoted form stays on one line and its end can be found.
-/

namespace Forth.Text

/-- How one character is written between the quotes. -/
def escape : Char → List Char
  | '"' => ['\\', '"']
  | '\\' => ['\\', '\\']
  | '\n' => ['\\', 'n']
  | '\r' => ['\\', 'r']
  | '\t' => ['\\', 't']
  | c => [c]

def quote (s : String) : String :=
  String.ofList ('"' :: s.toList.flatMap escape ++ ['"'])

example : quote "say \"hi\"\n" = "\"say \\\"hi\\\"\\n\"" := by decide +kernel

end Forth.Text
