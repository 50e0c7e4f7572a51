-- SUMMARY: Ops: the operations of relocatable code, before linking.
import Forth.Opcode
import Forth.Text.Layout
import Forth.Value

/-!
# Ops

An op is an operation that does not depend on where it is placed: a jump has a
distance instead of a target, a call has a name instead of an address, and a
constant stands beside the op instead of in the pool.
-/

namespace Forth

/-- An operation before linking. -/
structure Op where
  opcode : Opcode
  arg : Nat := 0
  datum : Value := .void
  deriving DecidableEq

namespace Op

def ret : Op := { opcode := .ret }

def push (v : Value) : Op := { opcode := .push, datum := v }

def call (name : String) : Op := { opcode := .call, datum := .str name }

def store (name : String) : Op := { opcode := .store, datum := .str name }

def fetch (name : String) : Op := { opcode := .fetch, datum := .str name }

/-- The op that goes on `distance` ops further. -/
def jump (distance : Nat) : Op := { opcode := .jump, arg := distance }

/-- The op that goes on `distance` ops further if the top value is false. -/
def jumpIfNot (distance : Nat) : Op := { opcode := .jumpIfNot, arg := distance }

/-- What an op works on: its datum if it has one, or else its argument. -/
def operand (o : Op) : String :=
  match o.datum with
  | .void => toString o.arg
  | v => if o.opcode = Opcode.push then v.renderQuoted else v.render

def render (o : Op) : String :=
  s!"{Text.padRight 11 o.opcode.name} {o.operand}"

/-- An op with its argument and its datum. -/
def describe (o : Op) : String :=
  s!"{o.opcode.title}({o.arg}, {o.datum.describe})"

end Op

end Forth
