-- SUMMARY: The machine: loading source texts into an image and running it one instruction at a time.
import Forth.Compiler
import Forth.Image.Execute
import Forth.Image.Stage

/-!
# The machine

A machine is an image, the address of the next instruction, the addresses of the
open calls, and the state of the program. Loading a source text adds it to the
image and makes its top-level code the next to run; a text that can not be loaded
changes nothing. Running carries out one instruction after the other until the
top-level code returns or a fault occurs. A fault leaves the machine at the
instruction that raised it.
-/

namespace Forth

/-- Image, next instruction, open calls with the innermost first, and state. -/
structure Machine where
  image : Image := {}
  ip : Nat := 0
  calls : List Nat := []
  state : State := {}
  deriving DecidableEq, Inhabited

/-! ## Runs -/

/-- Whether a machine can go on. -/
inductive Status where
  | running
  | halted
  | failed (fault : Fault)
  deriving DecidableEq, Repr

namespace Machine

/-- Moves to the next instruction. A return without an open call halts. -/
def follow (m : Machine) : Flow → Status × Machine
  | .next => (.running, { m with ip := m.ip + 1 })
  | .jump target => (.running, { m with ip := target })
  | .enter target => (.running, { m with ip := target, calls := m.ip :: m.calls })
  | .leave =>
    match m.calls with
    | [] => (.halted, m)
    | address :: calls => (.running, { m with ip := address + 1, calls })

def step (m : Machine) : Status × Machine :=
  match m.image.executeAt m.ip m.state with
  | .ok flow state => { m with state }.follow flow
  | .error fault state => (.failed fault, { m with state })

/-- Carries out at most `n` instructions. The status is `running` if there are
    more to come. -/
def runFor : Nat → Machine → Status × Machine
  | 0, m => (.running, m)
  | n + 1, m =>
    match m.step with
    | (.running, m') => runFor n m'
    | ended => ended

@[simp] theorem runFor_zero (m : Machine) : runFor 0 m = (.running, m) := rfl

/-- A run can be cut in two at any instruction. -/
theorem runFor_add (n k : Nat) (m : Machine) :
    runFor (n + k) m =
      match runFor n m with
      | (.running, m') => runFor k m'
      | ended => ended := by
  induction n generalizing m with
  | zero => simp
  | succ n ih =>
    rw [Nat.succ_add, runFor, runFor]
    rcases m.step with ⟨status, m'⟩
    cases status with
    | running => exact ih m'
    | halted => rfl
    | failed fault => rfl

/-! ## Reports -/

/-- The word at an address, for a call trace. -/
def callAt (m : Machine) (address : Nat) : Call :=
  ⟨address, (m.image.wordName? address).getD "<unknown>"⟩

/-- The open calls, outermost first, and the current instruction. -/
def trace (m : Machine) : List Call :=
  (m.calls.reverse ++ [m.ip]).map m.callAt

/-- The word that the current instruction belongs to. -/
def currentWord? (m : Machine) : Option Entry :=
  m.image.dictionary.entryAt? m.ip

/-- The diagnostic of a fault. A failed write is not the fault of a word. -/
def report (m : Machine) (fault : Fault) : Diagnostic :=
  match fault with
  | .writeFailed => { message := fault.message }
  | _ => {
      location := m.currentWord?.map (·.location)
      message := fault.message
      trace := some m.trace }

def perform {α : Type} (m : Machine) (a : Action α) : Except Diagnostic α × Machine :=
  match a m.state with
  | .ok x state => (.ok x, { m with state })
  | .error fault state =>
    let m := { m with state }
    (.error (m.report fault), m)

end Machine

/-! ## Loading -/

/-- Why a source text can not be loaded. -/
inductive LoadError where
  | source (e : SyntaxError)
  | link (e : LinkError)
  deriving DecidableEq

def LoadError.diagnostic : LoadError → Diagnostic
  | source e => e.diagnostic
  | link e => e.diagnostic

namespace Machine

/-- Adds a source text to the image, and makes its top-level code the next to
    run. -/
def load (m : Machine) (path source : String) : Except LoadError Machine :=
  match wordsOfSource path source with
  | .error e => .error (.source e)
  | .ok words =>
    match m.image.link words with
    | .error e => .error (.link e)
    | .ok (image, ip) => .ok { m with image, ip }

/-- Adds a source text to the image in place, and makes its top-level code the next
    to run. -/
def loadInPlace (path source : String) : EStateM LoadError Machine Unit := fun m =>
  match wordsOfSource path source with
  | .error e => .error (.source e) m
  | .ok words =>
    match Image.linkInPlace words m.image with
    | .ok ip image => .ok () { m with image, ip }
    | .error e image => .error (.link e) { m with image }

end Machine

end Forth
