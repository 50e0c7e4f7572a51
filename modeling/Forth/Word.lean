-- SUMMARY: Words: named lists of ops, as the compiler makes them and the linker takes them.
import Forth.Op
import Forth.Source.Location

/-!
# Words

A word is a named list of ops with the place of its definition. A compiled word
ends in a return.
-/

namespace Forth

/-- A named list of ops and the place of its definition. -/
structure Word where
  name : String
  location : Location
  ops : List Op
  deriving DecidableEq

namespace Word

/-- The name of the word that holds the code outside of all definitions. -/
def topLevel : String := "top-level code"

/-- The word with the given body, followed by a return. -/
def ofBody (name : String) (location : Location) (body : List Op) : Word :=
  ⟨name, location, body ++ [.ret]⟩

@[simp] theorem ofBody_name (name : String) (location : Location) (body : List Op) :
    (ofBody name location body).name = name := rfl

@[simp] theorem ofBody_location (name : String) (location : Location) (body : List Op) :
    (ofBody name location body).location = location := rfl

@[simp] theorem ofBody_ops (name : String) (location : Location) (body : List Op) :
    (ofBody name location body).ops = body ++ [.ret] := rfl

end Word

end Forth
