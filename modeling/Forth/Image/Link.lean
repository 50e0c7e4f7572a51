-- SUMMARY: Linking: words are placed behind an image, names and distances become addresses, data become constants.
import Forth.Diagnostic
import Forth.Image
import Forth.Word

/-!
# Linking

Linking adds a list of words to an image. First all words are placed, so that
each may call any other. Then the ops become instructions one after the other:
a call gets the address of the newest word of that name, a jump gets the address
it leads to, and an op with a datum gets the index of a new constant. Linking
starts at the first address behind the dictionary's blocks. When it fails there
is no new image, so the old one is as it was.
-/

namespace Forth

/-- What prevents a list of words from being linked. -/
inductive LinkFault where
  | noTarget (word : String)
  | undefinedWord (name word : String)
  | argumentTooLarge (argument : Nat) (opcode : Opcode) (word : String)
  | noTopLevel
  deriving DecidableEq

def LinkFault.message : LinkFault → String
  | noTarget word => s!"Call in '{word}' has no target name."
  | undefinedWord name word => s!"Word '{name}' called from '{word}' is not defined."
  | argumentTooLarge argument opcode word =>
    s!"Argument {argument} of {opcode.name} in '{word}' does not fit in an instruction."
  | noTopLevel => "No top-level code was linked."

/-- A fault and the definition it is found in. -/
structure LinkError where
  location : Option Location
  fault : LinkFault
  deriving DecidableEq

def LinkError.diagnostic (e : LinkError) : Diagnostic where
  location := e.location
  message := e.fault.message

namespace Image

/-- The dictionary with `words` placed in order behind its blocks. -/
def place (d : Dictionary) (words : List Word) : Dictionary :=
  words.foldl (fun d w => d.define w.name w.location w.ops.length) d

/-- The argument of the instruction for `op`, at an address of `word`. -/
def resolve (image : Image) (word : Word) (address : Nat) (op : Op) : Except LinkError Nat :=
  match op.opcode with
  | .call =>
    match op.datum with
    | .str name =>
      match image.dictionary.address? name with
      | some target => .ok target
      | none => .error ⟨some word.location, .undefinedWord name word.name⟩
    | _ => .error ⟨some word.location, .noTarget word.name⟩
  | .push | .store | .fetch => .ok image.constants.size
  | .jump | .jumpIfNot => .ok (address + op.arg)
  | _ => .ok op.arg

/-- Adds the instruction for `op`, and its datum if it has one. -/
def emit (image : Image) (word : Word) (address : Nat) (op : Op) : Except LinkError Image := do
  let argument ← image.resolve word address op
  if argument ≤ Instruction.argumentLimit then
    let image := if op.opcode.usesPool then image.addConstant op.datum else image
    return image.addInstruction (.pack op.opcode argument)
  else
    throw ⟨some word.location, .argumentTooLarge argument op.opcode word.name⟩

/-- The ops of `words` in order, each with its word and its address. -/
def sites (base : Nat) (words : List Word) : List ((Word × Op) × Nat) :=
  (words.flatMap fun w => w.ops.map (w, ·)).zipIdx base

/-- Adds `words` to an image. The result is the new image and the address of the
    last word of the list that holds top-level code. -/
def link (image : Image) (words : List Word) : Except LinkError (Image × Nat) := do
  let dictionary := place image.dictionary words
  let linked ← (sites image.dictionary.nextAddress words).foldlM
    (fun image ((word, op), address) => image.emit word address op) { image with dictionary }
  match (dictionary.entries.take words.length).find? (·.name = Word.topLevel) with
  | some entry => return (linked, entry.address)
  | none => throw ⟨none, .noTopLevel⟩

end Image

end Forth
