-- SUMMARY: The source text of the words that are there before any program is loaded.

/-!
# The bootstrap library

These words are loaded into every machine of the command line before the program.
-/

namespace Forth.Bootstrap

/-- The path that locations in the bootstrap library carry. -/
def path : String := "<bootstrap>"

def source : String :=
  "( Words that are handy to have around before any user code is compiled. )\n" ++
  "\n" ++
  ": cr ( -- ) \"\\n\" . ;\n" ++
  "\n" ++
  ": 2dup ( a b -- a b a b ) over over ;\n"

end Forth.Bootstrap
