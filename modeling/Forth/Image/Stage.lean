-- SUMMARY: Linking in place: what words add to an image is staged, and added when all of it is linked.
import Forth.Image.Link

/-!
# Linking in place

A linker holds an image and a stage: the blocks, constants and instructions that
words are going to add to the image. A name is looked up in the stage first, so
the words see each other and hide older words of the same name. The stage is
added to the image when every op has become an instruction. A link that fails
keeps what it has changed, the image included.
-/

namespace Forth

/-- Blocks with the newest first, constants and instructions that are not part of
    an image yet. -/
structure Stage where
  entries : List Entry := []
  constants : Array Value := #[]
  code : Array Instruction := #[]

/-- An image, and what is staged for it. -/
structure Linker where
  image : Image
  stage : Stage := {}

/-- A change of a linker that may fail. -/
abbrev Linking := EStateM LinkError Linker

namespace Linker

/-- The first address behind all blocks, the staged ones included. -/
def nextAddress (l : Linker) : Nat :=
  match l.stage.entries with
  | [] => l.image.dictionary.nextAddress
  | e :: _ => e.finish

def address? (l : Linker) (name : String) : Option Nat :=
  match l.stage.entries.find? (·.name = name) with
  | some entry => some entry.address
  | none => l.image.dictionary.address? name

/-- The image with everything that is staged. -/
def committed (l : Linker) : Image where
  code := l.image.code ++ l.stage.code
  constants := l.image.constants ++ l.stage.constants
  dictionary := ⟨l.stage.entries ++ l.image.dictionary.entries⟩

/-! ## Staging -/

/-- Stages the block of a word. -/
def place (word : Word) : Linking Unit := fun l =>
  let entry : Entry := ⟨word.location, word.name, l.nextAddress, word.ops.length⟩
  .ok () { l with stage.entries := entry :: l.stage.entries }

/-- Stages a constant. The result is the index that it is going to have. -/
def addConstant (v : Value) : Linking Nat := fun l =>
  .ok (l.image.constants.size + l.stage.constants.size)
    { l with stage.constants := l.stage.constants.push v }

def addInstruction (i : Instruction) : Linking Unit := fun l =>
  .ok () { l with stage.code := l.stage.code.push i }

/-- The address of the word that `op` calls from `word`. -/
def target (word : Word) (op : Op) : Linking Nat := fun l =>
  match op.datum with
  | .str name =>
    match l.address? name with
    | some address => .ok address l
    | none => .error ⟨some word.location, .undefinedWord name word.name⟩ l
  | _ => .error ⟨some word.location, .noTarget word.name⟩ l

/-- The argument of the instruction for `op`, at an address of `word`. Its datum is
    staged if it has one. -/
def resolve (word : Word) (address : Nat) (op : Op) : Linking Nat :=
  match op.opcode with
  | .call => target word op
  | .push | .store | .fetch => addConstant op.datum
  | .jump | .jumpIfNot => return address + op.arg
  | _ => return op.arg

/-- Stages the instruction for `op`, at an address of `word`. -/
def emit (word : Word) (address : Nat) (op : Op) : Linking Unit := do
  let argument ← resolve word address op
  if argument ≤ Instruction.argumentLimit then
    addInstruction (.pack op.opcode argument)
  else
    throw ⟨some word.location, .argumentTooLarge argument op.opcode word.name⟩

/-! ## Linking -/

/-- Adds everything that is staged to the image. -/
def commit : Linking Unit := fun l =>
  .ok () { image := l.committed }

/-- Links words. The result is the address of the last word that holds top-level
    code. -/
def link (words : List Word) : Linking Nat := do
  let base := (← get).nextAddress
  forM words place
  forM (Image.sites base words) fun ((word, op), address) => emit word address op
  match (← get).stage.entries.find? (·.name = Word.topLevel) with
  | some entry => do commit; return entry.address
  | none => throw ⟨none, .noTopLevel⟩

end Linker

def Image.linkInPlace (words : List Word) : EStateM LinkError Image Nat := fun image =>
  match Linker.link words { image } with
  | .ok start l => .ok start l.image
  | .error e l => .error e l.image

end Forth
