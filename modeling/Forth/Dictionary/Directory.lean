-- SUMMARY: The directory: a dictionary kept in two tables, one by name and one in the order of addresses.
import Forth.Dictionary
import Mathlib.Data.List.Dedup

/-!
# Directories

A directory keeps the entries of a dictionary twice: the newest entry of every name in
a hash table, and all entries in an array in the order of their addresses. A look-up by
address halves the array until it comes to the first block behind the address. The
block in front of that one is the only one that can hold the address. Blocks may be
empty, so several of them may start at one address.
-/

namespace Forth

/-- The first number from `low` up to `high` for which `p` fails, if `p` fails for all
    numbers behind one for which it fails. -/
def firstFailing (p : Nat → Bool) (low high : Nat) : Nat :=
  if low < high then
    let middle := (low + high) / 2
    if p middle then firstFailing p (middle + 1) high else firstFailing p low middle
  else
    low
termination_by high - low

/-- The newest entry of every name, and all entries in the order of their addresses. -/
structure Directory where
  names : Std.HashMap String Entry := {}
  blocks : Array Entry := #[]

namespace Directory

def nextAddress (d : Directory) : Nat :=
  match d.blocks.back? with
  | none => 0
  | some e => e.finish

/-- Adds an entry, which must start at the first address behind all blocks. -/
def insert (d : Directory) (e : Entry) : Directory where
  names := d.names.insert e.name e
  blocks := d.blocks.push e

def find? (d : Directory) (name : String) : Option Entry :=
  d.names[name]?

/-- The number of blocks that start at an address or in front of it. -/
def countUpTo (d : Directory) (address : Nat) : Nat :=
  firstFailing (fun i => d.blocks[i]?.any (·.address ≤ address)) 0 d.blocks.size

def entryAt? (d : Directory) (address : Nat) : Option Entry :=
  match d.countUpTo address with
  | 0 => none
  | i + 1 => d.blocks[i]?.filter (·.covers address)

def size (d : Directory) : Nat :=
  d.names.size

end Directory

end Forth
