-- SUMMARY: The listing of an image: one line per instruction, with the words as headings.
import Forth.Image
import Forth.Primitive
import Forth.Text.Layout

/-!
# Listings

A listing has one line for each instruction, in the order of the addresses, and a
heading in front of the first instruction of each word. A line shows the address,
the operation and its argument, and then what the argument stands for: the
constant, the word that is called, or the primitive word with its description.
-/

namespace Forth.Image

/-- The columns of a line: the operation, the argument and a remark. -/
def columns (opcode : Opcode) (argument : Nat) (remark : String) : String :=
  s!"{Text.padRight 11 opcode.name} {Text.padRight 6 (toString argument)} {remark}"

def describePrimitive (p : Primitive) : String :=
  s!"{p.name} ( {p.signature} ) {p.description}"

/-- An instruction without its address. -/
def listInstruction (image : Image) (i : Instruction) : String :=
  match Opcode.ofByte? i.byte with
  | none => s!"{Text.padRight 11 Opcode.invalid.name} {i.argument} (opcode {i.byte})"
  | some opcode =>
    match opcode with
    | .push | .store | .fetch =>
      columns opcode i.argument (((image.constant? i.argument).map (·.renderQuoted)).getD "?")
    | .call => columns opcode i.argument ((image.wordName? i.argument).getD "?")
    | _ =>
      match Primitive.for? opcode i.argument with
      | some p => columns opcode i.argument (describePrimitive p)
      | none => s!"{Text.padRight 11 opcode.name} {i.argument}"

/-- The heading in front of an address, if a word starts there. -/
def heading (image : Image) (address : Nat) : String :=
  match image.dictionary.entryAt? address with
  | some e => if e.address = address then s!"{e.name}:\n" else ""
  | none => ""

def line (image : Image) (address : Nat) (i : Instruction) : String :=
  s!"{Text.padLeft 6 (toString address)}: {Text.trimEnd (image.listInstruction i)}\n"

def listing (image : Image) : String :=
  String.join <| image.code.toList.zipIdx.map fun (i, address) =>
    image.heading address ++ image.line address i

end Forth.Image
