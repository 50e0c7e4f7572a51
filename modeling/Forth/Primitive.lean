-- SUMMARY: The primitive words: the names that compile to a single operation of the machine.
import Forth.Opcode

/-!
# Primitive words

A primitive word compiles to one operation with a fixed argument. No two of them
share a name, and no two share an operation and an argument.
-/

namespace Forth

/-- A name for one operation with a fixed argument. -/
structure Primitive where
  name : String
  opcode : Opcode
  argument : Nat
  description : String
  signature : String
  deriving DecidableEq, Repr

namespace Primitive

/-- All primitive words, ordered by name. -/
def all : List Primitive :=
  [⟨"+", .add, 0, "Add two integers.", "a b -- sum"⟩,
   ⟨".", .print, 0, "Print the top value of the stack.", "value -- "⟩,
   ⟨"and", .and, 0, "Bitwise and of two integers.", "a b -- result"⟩,
   ⟨"drop", .drop, 1, "Drop the top value on the data stack.", "value -- "⟩,
   ⟨"dup", .dup, 0, "Duplicate the top value on the data stack.", "value -- value value"⟩,
   ⟨"mod", .mod, 0, "Remainder after dividing a by b.", "a b -- remainder"⟩,
   ⟨"over", .dup, 1, "Make a copy of the second value and place it on top.", "a b -- a b a"⟩]

def find? (name : String) : Option Primitive :=
  all.find? (·.name = name)

/-- The primitive word that stands for an operation with an argument. -/
def for? (opcode : Opcode) (argument : Nat) : Option Primitive :=
  all.find? fun p => p.opcode = opcode && p.argument = argument

end Primitive

end Forth
