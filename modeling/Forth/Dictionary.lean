-- SUMMARY: The dictionary: the blocks of code that words occupy, found by name or by address.
import Forth.Source.Location

/-!
# The dictionary

An entry says which block of addresses a word occupies. Each new entry takes the
addresses behind those of the entry before it, so the blocks lie side by side
from address zero on. A name may be defined more than once: a look-up by name
finds the newest definition, while the older blocks keep their addresses.
-/

namespace Forth

/-- The block of addresses of one word. -/
structure Entry where
  location : Location
  name : String
  address : Nat
  size : Nat
  deriving DecidableEq, Repr

namespace Entry

/-- The first address behind the block. -/
def finish (e : Entry) : Nat :=
  e.address + e.size

def covers (e : Entry) (address : Nat) : Bool :=
  e.address ≤ address && address < e.finish

def render (e : Entry) : String :=
  s!"{e.name} @ {e.address} ({e.size} instructions, defined at {e.location.render})"

end Entry

/-- The entries of all words, newest first. -/
structure Dictionary where
  entries : List Entry := []
  deriving DecidableEq, Repr, Inhabited

namespace Dictionary

/-- The first address behind all blocks. -/
def nextAddress (d : Dictionary) : Nat :=
  match d.entries with
  | [] => 0
  | e :: _ => e.finish

/-- Adds a word of `size` instructions behind all blocks. -/
def define (d : Dictionary) (name : String) (location : Location) (size : Nat) : Dictionary :=
  ⟨⟨location, name, d.nextAddress, size⟩ :: d.entries⟩

/-- The newest entry called `name`. -/
def find? (d : Dictionary) (name : String) : Option Entry :=
  d.entries.find? (·.name = name)

def address? (d : Dictionary) (name : String) : Option Nat :=
  (d.find? name).map (·.address)

/-- The entry whose block holds an address. -/
def entryAt? (d : Dictionary) (address : Nat) : Option Entry :=
  (d.entries.find? (·.address ≤ address)).filter (·.covers address)

/-- The entries in the order of their addresses. -/
def blocks (d : Dictionary) : List Entry :=
  d.entries.reverse

/-- The number of different names. -/
def size (d : Dictionary) : Nat :=
  (d.entries.map (·.name)).eraseDups.length

def isEmpty (d : Dictionary) : Bool :=
  d.entries.isEmpty

@[simp] theorem nextAddress_empty : ({} : Dictionary).nextAddress = 0 := rfl

/-- A new block is placed directly behind all blocks. -/
@[simp] theorem nextAddress_define (d : Dictionary) (name : String) (location : Location)
    (size : Nat) : (d.define name location size).nextAddress = d.nextAddress + size := rfl

@[simp] theorem blocks_define (d : Dictionary) (name : String) (location : Location) (size : Nat) :
    (d.define name location size).blocks =
      d.blocks ++ [⟨location, name, d.nextAddress, size⟩] := by
  simp [blocks, define]

/-- A name is bound to its last definition. -/
@[simp] theorem find?_define_self (d : Dictionary) (name : String) (location : Location)
    (size : Nat) :
    (d.define name location size).find? name = some ⟨location, name, d.nextAddress, size⟩ := by
  simp [find?, define]

theorem find?_define_of_ne (d : Dictionary) {name other : String} (location : Location)
    (size : Nat) (h : name ≠ other) : (d.define name location size).find? other = d.find? other := by
  simp [find?, define, h]

end Dictionary

end Forth
