-- SUMMARY: The operations of the machine, their names and their encoding as bytes.

/-!
# Opcodes

The machine has thirteen operations, encoded as the bytes 1 to 13. The byte 0
belongs to `invalid`, which no instruction decodes to.
-/

namespace Forth

/-- An operation of the machine. -/
inductive Opcode where
  | invalid | ret | push | call | jump | jumpIfNot | print | add | mod | dup | drop | and | store
  | fetch
  deriving DecidableEq, Repr

namespace Opcode

/-- All opcodes, in the order of their bytes. -/
def all : List Opcode :=
  [invalid, ret, push, call, jump, jumpIfNot, print, add, mod, dup, drop, and, store, fetch]

/-- The name of an opcode in a listing and in messages. -/
def name : Opcode → String
  | invalid => "invalid"
  | ret => "return"
  | push => "push"
  | call => "call"
  | jump => "jump"
  | jumpIfNot => "jump-if-not"
  | print => "print"
  | add => "add"
  | mod => "mod"
  | dup => "dup"
  | drop => "drop"
  | and => "and"
  | store => "store"
  | fetch => "fetch"

def ofName? (s : String) : Option Opcode :=
  all.find? (·.name = s)

/-- The name of an opcode in capitals. -/
def title : Opcode → String
  | invalid => "Invalid"
  | ret => "Return"
  | push => "Push"
  | call => "Call"
  | jump => "Jump"
  | jumpIfNot => "JumpIfNot"
  | print => "Print"
  | add => "Add"
  | mod => "Mod"
  | dup => "Dup"
  | drop => "Drop"
  | and => "And"
  | store => "Store"
  | fetch => "Fetch"

def byte : Opcode → UInt8
  | invalid => 0
  | ret => 1
  | push => 2
  | call => 3
  | jump => 4
  | jumpIfNot => 5
  | print => 6
  | add => 7
  | mod => 8
  | dup => 9
  | drop => 10
  | and => 11
  | store => 12
  | fetch => 13

/-- The operation that a byte encodes. -/
def ofByte? : UInt8 → Option Opcode
  | 1 => some ret
  | 2 => some push
  | 3 => some call
  | 4 => some jump
  | 5 => some jumpIfNot
  | 6 => some print
  | 7 => some add
  | 8 => some mod
  | 9 => some dup
  | 10 => some drop
  | 11 => some and
  | 12 => some store
  | 13 => some fetch
  | _ => none

/-- Whether the argument of an operation is an index of the constant pool. -/
def usesPool : Opcode → Bool
  | push | store | fetch => true
  | _ => false

/-- Every operation but `invalid` decodes from its own byte. -/
theorem ofByte?_byte {o : Opcode} (h : o ≠ invalid) : ofByte? o.byte = some o := by
  cases o with
  | invalid => exact absurd rfl h
  | _ => rfl

/-- The name of an operation denotes it. -/
@[simp] theorem ofName?_name (o : Opcode) : ofName? o.name = some o := by
  cases o <;> decide +kernel

end Opcode

end Forth
