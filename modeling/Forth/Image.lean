-- SUMMARY: The program image: the code, the constant pool and the dictionary of everything loaded.
import Forth.Dictionary
import Forth.Instruction
import Forth.Value

/-!
# Images

An image holds everything that was loaded. It only grows: loading a source text
adds code, constants and entries behind those that are there.
-/

namespace Forth

/-- Code, constants and dictionary of a program. -/
structure Image where
  code : Array Instruction := #[]
  constants : Array Value := #[]
  dictionary : Dictionary := {}
  deriving DecidableEq, Inhabited

namespace Image

def instruction? (image : Image) (address : Nat) : Option Instruction :=
  image.code[address]?

def constant? (image : Image) (index : Nat) : Option Value :=
  image.constants[index]?

def addConstant (image : Image) (v : Value) : Image :=
  { image with constants := image.constants.push v }

def addInstruction (image : Image) (i : Instruction) : Image :=
  { image with code := image.code.push i }

/-- The name of the word whose block holds an address. -/
def wordName? (image : Image) (address : Nat) : Option String :=
  (image.dictionary.entryAt? address).map (·.name)

end Image

end Forth
