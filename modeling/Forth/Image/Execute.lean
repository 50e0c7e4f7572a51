-- SUMMARY: Instructions in action: what each operation does to the state, and where the program goes on.
import Forth.Image
import Forth.State

/-!
# Carrying out instructions

An instruction acts on the state of the program and says where to go on. It reads
the image and leaves it as it is.
-/

namespace Forth

/-- Where to go on after an instruction. -/
inductive Flow where
  | next
  | jump (target : Nat)
  | enter (target : Nat)
  | leave
  deriving DecidableEq, Repr

namespace Image

def constant (image : Image) (index : Nat) : Action Value :=
  match image.constant? index with
  | some v => return v
  | none => throw (.constantOutOfRange index)

def variableName (image : Image) (index : Nat) : Action String := do
  match ← image.constant index with
  | .str name => return name
  | v => throw (.notAName v.kind)

def execute (image : Image) (argument : Nat) : Opcode → Action Flow
  | .invalid => throw (.noHandler 0)
  | .ret => return .leave
  | .push => do Action.push (← image.constant argument); return .next
  | .call => return .enter argument
  | .jump => return .jump argument
  | .jumpIfNot => do return if (← Action.pop).isFalse then .jump argument else .next
  | .print => do Action.print; return .next
  | .add => do Action.add; return .next
  | .mod => do Action.mod; return .next
  | .dup => do Action.dup argument; return .next
  | .drop => do Action.discard argument; return .next
  | .and => do Action.and; return .next
  | .store => do Action.store (← image.variableName argument); return .next
  | .fetch => do Action.fetch (← image.variableName argument); return .next

/-- Carries out the instruction at an address on the state. -/
def executeAt (image : Image) (address : Nat) : Action Flow :=
  match image.instruction? address with
  | none => throw (.outsideProgram address)
  | some i =>
    match Opcode.ofByte? i.byte with
    | none => throw (.noHandler i.byte)
    | some opcode => image.execute i.argument opcode

end Image

end Forth
