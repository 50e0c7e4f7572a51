-- SUMMARY: What a program works on (data stack, variables, output), and the primitive actions on it.
import Forth.Fault
import Forth.Sink
import Forth.Variables

/-!
# Program state

The state of a program is its data stack, its variables and its output. An action
changes the state, and may fail; a failed action keeps the changes it made before
it failed. The right operand of an operation is on top of the stack and is taken
off first.
-/

namespace Forth

/-- The data stack with its top first, the variables, and the output. -/
structure State where
  stack : List Value := []
  vars : Variables := {}
  output : Sink := {}
  deriving DecidableEq, Inhabited

/-- A change of the state that may fail. -/
abbrev Action := EStateM Fault State

/-- The list without its first `n` elements, if it has as many. -/
def dropExactly? {α : Type} : Nat → List α → Option (List α)
  | 0, xs => some xs
  | _ + 1, [] => none
  | n + 1, _ :: xs => dropExactly? n xs

theorem dropExactly?_eq {α : Type} (n : Nat) (xs : List α) :
    dropExactly? n xs = if n ≤ xs.length then some (xs.drop n) else none := by
  induction n generalizing xs with
  | zero => simp [dropExactly?]
  | succ n ih =>
    cases xs with
    | nil => simp [dropExactly?]
    | cons x xs => simp [dropExactly?, ih]

namespace Action

theorem bind_of_ok {α β : Type} {a : Action α} {f : α → Action β} {s s' : State} {x : α}
    (h : a s = .ok x s') : (a >>= f) s = f x s' := by
  change EStateM.bind a f s = f x s'
  rw [EStateM.bind, h]

theorem bind_of_error {α β : Type} {a : Action α} {f : α → Action β} {s s' : State} {fault : Fault}
    (h : a s = .error fault s') : (a >>= f) s = .error fault s' := by
  change EStateM.bind a f s = .error fault s'
  rw [EStateM.bind, h]

theorem map_of_ok {α β : Type} {a : Action α} {f : α → β} {s s' : State} {x : α}
    (h : a s = .ok x s') : (f <$> a) s = .ok (f x) s' := by
  change EStateM.map f a s = .ok (f x) s'
  rw [EStateM.map, h]

theorem map_of_error {α β : Type} {a : Action α} {f : α → β} {s s' : State} {fault : Fault}
    (h : a s = .error fault s') : (f <$> a) s = .error fault s' := by
  change EStateM.map f a s = .error fault s'
  rw [EStateM.map, h]

/-! ## The data stack -/

def push (v : Value) : Action Unit := fun s =>
  .ok () { s with stack := v :: s.stack }

def pop : Action Value := fun s =>
  match s.stack with
  | [] => .error .underflow s
  | v :: stack => .ok v { s with stack }

/-- Takes the top value off the stack, which must be an integer. -/
def popInt : Action Int64 := do
  match ← pop with
  | .int n => return n
  | v => throw (.notAnInteger v.kind)

/-- The value `depth` places below the top. -/
def pick (depth : Nat) : Action Value := fun s =>
  match s.stack[depth]? with
  | some v => .ok v s
  | none => .error (.pickUnderflow depth s.stack.length) s

/-- Takes `count` values off the stack, or none if there are fewer. -/
def discard (count : Nat) : Action Unit := fun s =>
  match dropExactly? count s.stack with
  | some stack => .ok () { s with stack }
  | none => .error (.dropUnderflow count s.stack.length) s

/-! ## Variables and output -/

def readVariable (name : String) : Action Value := fun s =>
  match s.vars.get? name with
  | some v => .ok v s
  | none => .error (.unsetVariable name) s

def writeVariable (name : String) (v : Value) : Action Unit := fun s =>
  .ok () { s with vars := s.vars.set name v }

def write (text : String) : Action Unit := fun s =>
  let bytes := text.toUTF8
  let accepted := s.output.accepts bytes
  let s := { s with output := s.output.write bytes }
  if accepted then .ok () s else .error .writeFailed s

/-! ## Primitive actions -/

/-- Replaces two integers by their sum, which wraps around. -/
def add : Action Unit := do
  let b ← popInt
  let a ← popInt
  push (.int (a + b))

/-- Replaces two integers by the remainder of their division, which has the sign
    of the left one. -/
def mod : Action Unit := do
  let b ← popInt
  let a ← popInt
  if b = 0 then throw .moduloByZero
  push (.int (a % b))

def and : Action Unit := do
  let b ← popInt
  let a ← popInt
  push (.int (a &&& b))

/-- Copies the value `depth` places below the top to the top. -/
def dup (depth : Nat) : Action Unit := do
  push (← pick depth)

def print : Action Unit := do
  match ← pop with
  | .void => throw .voidPrinted
  | v => write v.render

/-- Takes the top value off the stack into a variable. -/
def store (name : String) : Action Unit := do
  writeVariable name (← pop)

/-- Puts the value of a variable on the stack. -/
def fetch (name : String) : Action Unit := do
  push (← readVariable name)

end Action

end Forth
