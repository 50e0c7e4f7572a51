-- SUMMARY: Keywords and tokens: what a lexeme means, where it stands, and how it is shown.
import Forth.Source.Cursor
import Forth.Text.Numeral
import Forth.Text.Quoted

/-!
# Tokens

Every lexeme outside a comment is one token. The classes are tried in a fixed
order: integer, string literal, keyword, identifier. So a numeral out of range
and a lone quote are identifiers.
-/

namespace Forth

/-! ## Keywords -/

/-- The words that structure a program. The opening of a comment is not one of
    them, because a comment is no token. -/
inductive Keyword where
  | colon | semicolon | closeParen | if_ | then_ | else_
  deriving DecidableEq, Repr

namespace Keyword

def all : List Keyword :=
  [colon, semicolon, closeParen, if_, then_, else_]

/-- The spelling of a keyword. -/
def text : Keyword → String
  | colon => ":"
  | semicolon => ";"
  | closeParen => ")"
  | if_ => "if"
  | then_ => "then"
  | else_ => "else"

def ofText? (s : String) : Option Keyword :=
  all.find? (·.text = s)

/-- The text of a keyword denotes it. -/
@[simp] theorem ofText?_text (k : Keyword) : ofText? k.text = some k := by
  cases k <;> decide +kernel

end Keyword

/-! ## Tokens -/

/-- What a token means. -/
inductive Token.Payload where
  | integer (n : Int64)
  | string (s : String)
  | keyword (k : Keyword)
  | identifier (name : String)
  | endOfInput
  deriving DecidableEq

/-- A meaning and the place where it is written. -/
structure Token where
  location : Location
  payload : Token.Payload
  deriving DecidableEq

namespace Token

/-- The name of a token's class. -/
def Payload.kind : Payload → String
  | integer _ => "Integer"
  | string _ => "String"
  | keyword _ => "Keyword"
  | identifier _ => "Identifier"
  | endOfInput => "EndOfInput"

/-- A token as a message shows it. -/
def Payload.render : Payload → String
  | integer n => Text.showInt64 n
  | string s => Text.quote s
  | keyword k => k.text
  | identifier name => name
  | endOfInput => "<end of input>"

def render (t : Token) : String :=
  t.payload.render

/-- A token with its location and class. -/
def describe (t : Token) : String :=
  s!"{t.location.render}: {t.payload.kind} {t.render}"

def isKeyword (t : Token) (k : Keyword) : Bool :=
  t.payload = .keyword k

def isIdentifier (t : Token) (name : String) : Bool :=
  t.payload = .identifier name

def isEnd (t : Token) : Bool :=
  t.payload = .endOfInput

end Token

/-! ## The token of a lexeme -/

/-- The text of a string literal. It starts and ends with a quote, and what
    stands between the two quotes is taken as it is, except that the two
    characters `\n` alone denote a line feed. -/
def Text.literal? (s : String) : Option String :=
  match s.toList with
  | '"' :: cs =>
    if cs.getLast? = some '"' then
      some (if cs.dropLast = ['\\', 'n'] then "\n" else String.ofList cs.dropLast)
    else
      none
  | _ => none

/-- The meaning of a lexeme that stands outside of a comment. -/
def Token.Payload.ofText (s : String) : Token.Payload :=
  match Text.readInt64? s with
  | some n => .integer n
  | none =>
    match Text.literal? s with
    | some t => .string t
    | none =>
      match Keyword.ofText? s with
      | some k => .keyword k
      | none => .identifier s

/-- The token of a lexeme that stands outside of a comment. -/
def Lexeme.token (x : Lexeme) : Token :=
  ⟨x.location, .ofText x.text⟩

theorem Token.Payload.ofText_ne_endOfInput (s : String) : ofText s ≠ .endOfInput := by
  unfold ofText
  split
  · simp
  · split
    · simp
    · split <;> simp

@[simp] theorem Lexeme.isEnd_token (x : Lexeme) : x.token.isEnd = false := by
  simp [Token.isEnd, token, Token.Payload.ofText_ne_endOfInput]

example : Text.literal? "\"\\n\"" = some "\n" := by decide +kernel

example : Text.literal? "\"" = none := by decide +kernel

end Forth
