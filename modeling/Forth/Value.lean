-- SUMMARY: The values of the data stack, the variables and the constant pool.
import Forth.Text.Numeral
import Forth.Text.Quoted

/-!
# Values

A value is a 64-bit signed integer or a string. The void value stands for the
absence of a datum; no program text denotes it.
-/

namespace Forth

/-- What the data stack, the variables and the constant pool hold. -/
inductive Value where
  | void
  | int (n : Int64)
  | str (s : String)
  deriving DecidableEq, Inhabited

namespace Value

def kind : Value → String
  | void => "void"
  | int _ => "integer"
  | str _ => "string"

def text? : Value → Option String
  | str s => some s
  | _ => none

/-- A value as it is printed: an integer as its numeral, a string as it is. -/
def render : Value → String
  | void => "void"
  | int n => Text.showInt64 n
  | str s => s

/-- A value as a listing shows it: like `render`, with strings quoted. -/
def renderQuoted : Value → String
  | str s => Text.quote s
  | v => v.render

/-- A value together with its type. -/
def describe : Value → String
  | void => "Void"
  | int n => s!"Int({Text.showInt64 n})"
  | str s => s!"String({Text.quote s})"

/-- Whether a conditional takes its false branch on this value. -/
def isFalse (v : Value) : Bool :=
  v = int 0

end Value

end Forth
