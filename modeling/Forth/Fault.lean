-- SUMMARY: The faults that stop a running program, and their messages.

/-!
# Faults

A fault stops the program at the instruction that raised it.
-/

namespace Forth

/-- What can go wrong while a program runs. Types of values are given by name. -/
inductive Fault where
  | outsideProgram (address : Nat)
  | noHandler (byte : UInt8)
  | constantOutOfRange (index : Nat)
  | notAName (kind : String)
  | underflow
  | notAnInteger (kind : String)
  | pickUnderflow (depth size : Nat)
  | dropUnderflow (count size : Nat)
  | unsetVariable (name : String)
  | moduloByZero
  | voidPrinted
  | writeFailed
  deriving DecidableEq, Repr

def Fault.message : Fault → String
  | outsideProgram address => s!"Instruction pointer {address} is outside of the program."
  | noHandler byte => s!"No handler for opcode {byte}."
  | constantOutOfRange index => s!"Constant index {index} is out of range."
  | notAName kind => s!"Variable name must be a string, got a {kind} value."
  | underflow => "Stack underflow."
  | notAnInteger kind => s!"Expected an integer, got a {kind} value."
  | pickUnderflow depth size => s!"Stack underflow picking depth {depth} of {size}."
  | dropUnderflow count size => s!"Stack underflow dropping {count} of {size}."
  | unsetVariable name => s!"Variable '{name}' has not been set."
  | moduloByZero => "Modulo by zero."
  | voidPrinted => "Can't print a void value."
  -- the reason is the output's own, and the only outputs that fail are full buffers
  | writeFailed => "I/O error: failed to write whole buffer"

end Forth
