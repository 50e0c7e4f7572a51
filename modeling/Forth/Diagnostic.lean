-- SUMMARY: Diagnostics: a message with the place it is about and the calls that led there, and their text.
import Forth.SyntaxError
import Forth.Text.Layout

/-!
# Diagnostics

Every failure is reported as a diagnostic. A fault of a source text has a
location and no call trace. A fault of a running program has a call trace, and
the location of the word that was running if there is one.
-/

namespace Forth

/-- An address in the code and the word that it belongs to. -/
structure Call where
  address : Nat
  word : String
  deriving DecidableEq, Repr

def Call.render (c : Call) : String :=
  s!"{Text.padLeft 6 (toString c.address)}: {c.word}"

/-- A message, the place it is about, and the open calls, outermost first. -/
structure Diagnostic where
  location : Option Location := none
  message : String
  trace : Option (List Call) := none
  deriving DecidableEq

namespace Diagnostic

/-- The message behind its location. -/
def headline (d : Diagnostic) : String :=
  match d.location with
  | some l => s!"{l.render}: {d.message}"
  | none => d.message

/-- A call trace as text, innermost call first. -/
def renderTrace (trace : List Call) : String :=
  "\n\nCall stack\n" ++ String.join (trace.reverse.map fun c => s!"  {c.render}\n")

def render (d : Diagnostic) : String :=
  match d.trace with
  | some trace => d.headline ++ renderTrace trace
  | none => d.headline

end Diagnostic

def SyntaxError.diagnostic (e : SyntaxError) : Diagnostic where
  location := some e.location
  message := e.fault.message

end Forth
