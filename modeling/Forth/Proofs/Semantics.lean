-- SUMMARY: The meaning of programs: how phrases are evaluated, without code and addresses.
import Forth.Proofs.Grammar
import Forth.State

/-!
# The meaning of programs

A phrase is evaluated statement by statement on the state of a program. A call
evaluates the body of the definition that its name is bound to. Names are bound
when a text is loaded: all definitions of one text see each other, and they see
those of the texts that were loaded before. So the phrases of all texts, the
newest first, are the library that a phrase is evaluated in, and the body of an
older definition is evaluated in the part of the library that it was loaded into.
-/

namespace Forth

-- ---------------------------------------------------------------------------
-- Simple statements
-- ---------------------------------------------------------------------------

def Primitive.action (p : Primitive) : Action Unit :=
  match p.name with
  | "+" => Action.add
  | "." => Action.print
  | "and" => Action.and
  | "drop" => Action.discard 1
  | "dup" => Action.dup 0
  | "mod" => Action.mod
  | "over" => Action.dup 1
  | _ => return

def Simple.action : Simple → Action Unit
  | push v => Action.push v
  | primitive p => p.action
  | store name => Action.store name
  | fetch name => Action.fetch name

-- ---------------------------------------------------------------------------
-- Libraries
-- ---------------------------------------------------------------------------

/-- The body of the last definition of a name in a phrase. -/
def Phrase.body? (p : Phrase) (name : String) : Option Phrase :=
  (p.definitions.reverse.find? (·.name = name)).map (·.body)

/-- The phrases of the texts that were loaded, newest first. -/
abbrev Library := List Phrase

/-- The body that a name is bound to, and the library that the body is evaluated in. -/
def Library.find? (name : String) : Library → Option (Phrase × Library)
  | [] => none
  | p :: older =>
    match p.body? name with
    | some body => some (body, p :: older)
    | none => find? name older

-- ---------------------------------------------------------------------------
-- Evaluation
-- ---------------------------------------------------------------------------

/-- How an evaluation ends. A failed one has a state before and a state after the
    action that failed. -/
inductive Outcome where
  | done (s : State)
  | failed (fault : Fault) (before after : State)
  deriving DecidableEq

/-- Evaluation of a phrase. A conditional pops one value; the value 0 stands for false
    and every other value for true. A definition does nothing where it stands. -/
inductive Eval : Library → Phrase → State → Outcome → Prop where
  | done {lib : Library} {s : State} : Eval lib .done s (.done s)
  | simple {lib : Library} {stmt : Simple} {rest : Phrase} {s s' : State} {o : Outcome} :
      stmt.action s = .ok () s' → Eval lib rest s' o → Eval lib (.simple stmt rest) s o
  | simpleFails {lib : Library} {stmt : Simple} {rest : Phrase} {fault : Fault} {s s' : State} :
      stmt.action s = .error fault s' → Eval lib (.simple stmt rest) s (.failed fault s s')
  | call {lib lib' : Library} {name : String} {body rest : Phrase} {s s' : State} {o : Outcome} :
      lib.find? name = some (body, lib') → Eval lib' body s (.done s') → Eval lib rest s' o →
      Eval lib (.call name rest) s o
  | callFails {lib lib' : Library} {name : String} {body rest : Phrase} {fault : Fault}
      {s before after : State} :
      lib.find? name = some (body, lib') → Eval lib' body s (.failed fault before after) →
      Eval lib (.call name rest) s (.failed fault before after)
  | ifThen {lib : Library} {yes rest : Phrase} {v : Value} {stack : List Value} {s s' : State}
      {o : Outcome} :
      s.stack = v :: stack →
      Eval lib (if v = .int 0 then .done else yes) { s with stack } (.done s') →
      Eval lib rest s' o → Eval lib (.ifThen yes rest) s o
  | ifThenFails {lib : Library} {yes rest : Phrase} {v : Value} {stack : List Value} {fault : Fault}
      {s before after : State} :
      s.stack = v :: stack →
      Eval lib (if v = .int 0 then .done else yes) { s with stack } (.failed fault before after) →
      Eval lib (.ifThen yes rest) s (.failed fault before after)
  | ifThenUnderflow {lib : Library} {yes rest : Phrase} {s : State} :
      s.stack = [] → Eval lib (.ifThen yes rest) s (.failed .underflow s s)
  | ifThenElse {lib : Library} {yes no rest : Phrase} {v : Value} {stack : List Value}
      {s s' : State} {o : Outcome} :
      s.stack = v :: stack →
      Eval lib (if v = .int 0 then no else yes) { s with stack } (.done s') →
      Eval lib rest s' o → Eval lib (.ifThenElse yes no rest) s o
  | ifThenElseFails {lib : Library} {yes no rest : Phrase} {v : Value} {stack : List Value}
      {fault : Fault} {s before after : State} :
      s.stack = v :: stack →
      Eval lib (if v = .int 0 then no else yes) { s with stack } (.failed fault before after) →
      Eval lib (.ifThenElse yes no rest) s (.failed fault before after)
  | ifThenElseUnderflow {lib : Library} {yes no rest : Phrase} {s : State} :
      s.stack = [] → Eval lib (.ifThenElse yes no rest) s (.failed .underflow s s)
  | definition {lib : Library} {location : Location} {name : String} {body rest : Phrase}
      {s : State} {o : Outcome} :
      Eval lib rest s o → Eval lib (.definition location name body rest) s o

end Forth
