-- SUMMARY: Machine instructions: an opcode byte and a 24-bit argument packed into one 32-bit number.
import Forth.Opcode

/-!
# Instructions

An instruction is a 32-bit number. Its low byte is the opcode and its upper 24
bits are the argument.
-/

namespace Forth

/-- An opcode byte and a 24-bit argument in one number. -/
structure Instruction where
  raw : UInt32
  deriving DecidableEq, Repr, Inhabited

namespace Instruction

/-- The largest argument that fits. -/
def argumentLimit : Nat := 0xffffff

/-- The instruction of an opcode and an argument that fits. -/
def pack (opcode : Opcode) (argument : Nat) : Instruction :=
  ⟨.ofNat (argument * 256 + opcode.byte.toNat)⟩

def byte (i : Instruction) : UInt8 :=
  i.raw.toUInt8

def argument (i : Instruction) : Nat :=
  i.raw.toNat / 256

/-- The last `width` hexadecimal digits of a number. -/
def hexDigits : Nat → Nat → List Char
  | 0, _ => []
  | width + 1, n => hexDigits width (n / 16) ++ [Nat.digitChar (n % 16)]

/-- An instruction as eight hexadecimal digits. -/
def hex (i : Instruction) : String :=
  String.ofList (hexDigits 8 i.raw.toNat)

@[simp] theorem byte_pack (opcode : Opcode) (argument : Nat) :
    (pack opcode argument).byte = opcode.byte := by
  apply UInt8.toNat_inj.1
  have := opcode.byte.toNat_lt
  simp only [pack, byte, UInt32.toNat_toUInt8, UInt32.toNat_ofNat']
  omega

/-- An argument within the limit can be read back. -/
@[simp] theorem argument_pack {opcode : Opcode} {argument : Nat} (h : argument ≤ argumentLimit) :
    (pack opcode argument).argument = argument := by
  have := opcode.byte.toNat_lt
  simp only [argumentLimit] at h
  simp only [pack, Instruction.argument, UInt32.toNat_ofNat']
  omega

example : (pack .push 1).hex = "00000102" := by decide +kernel

end Instruction

end Forth
