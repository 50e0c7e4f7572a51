-- SUMMARY: The compiler by recursive descent: every construct is compiled by a call of its own, in a state that counts them.
import Forth.Compiler

/-!
# Recursive descent

A construct is compiled by a call that compiles the statements inside of it. The
call ends in front of a keyword that the construct reacts to: it reads the keyword
and puts it back, and the construct reads it once more. The calls share a state
that counts the open conditionals. A fault in a call ends all calls around it, and
what they have read and finished stays.

A call reads at least one token in front of every call inside of it, so the number
of the tokens left bounds how deep the calls are.
-/

namespace Forth

/-- A compiler, and the number of conditionals around the next token. -/
structure Descent where
  compiler : Compiler
  nesting : Nat := 0
  deriving DecidableEq

/-- A part of a compilation, which may fail. -/
abbrev Descending := EStateM SyntaxError Descent

namespace Descent

def ofSource (path source : String) : Descent where
  compiler := .ofSource path source

/-- The number of lexemes and pending tokens left to read. -/
def remaining (d : Descent) : Nat :=
  d.compiler.lexer.remaining

def read {α : Type} (f : EStateM SyntaxError Lexer α) : Descending α := fun d =>
  match f d.compiler.lexer with
  | .ok a lexer => .ok a { d with compiler.lexer := lexer }
  | .error e lexer => .error e { d with compiler.lexer := lexer }

def fail {α : Type} (l : Location) (fault : SyntaxFault) : Descending α :=
  throw ⟨l, fault⟩

/-- The code of the conditional at `l`, unless it is too long. -/
def fitting (l : Location) : Option (Array Op) → Descending (Array Op)
  | some code => pure code
  | none => fail l .branchTooLong

/-! ## Constructs -/

/-- The op of a name: a primitive word, a variable if `!` or `@` follows, or a call. -/
def identifier (name : String) : Descending Op :=
  match Primitive.find? name with
  | some p => pure { opcode := p.opcode, arg := p.argument }
  | none => do
    let t ← read Lexer.peek
    if t.isIdentifier "!" then
      let _ ← read Lexer.next
      return .store name
    else if t.isIdentifier "@" then
      let _ ← read Lexer.next
      return .fetch name
    else
      return .call name

def beginDefinition : Descending Unit :=
  modify fun d => { d with compiler.defining := true }

/-- Marks the end of a definition and adds its word. -/
def endDefinition (word : Word) : Descending Unit :=
  modify fun d => { d with
    compiler.defining := false
    compiler.words := d.compiler.words.push word }

/-- The definition whose colon stands at `l`, up to and including its semicolon. -/
def definition (statements : List String → Descending (Array Op)) (l : Location) :
    Descending Unit := do
  let d ← get
  if d.compiler.defining then
    fail l .nestedDefinition
  else
    let t ← read Lexer.next
    match t.payload with
    | .identifier name =>
      beginDefinition
      let body ← statements [";"]
      let closing ← read Lexer.next
      if closing.isKeyword .semicolon then
        endDefinition (.ofBody name l body.toList)
      else
        fail l (.unfinishedDefinition name)
    | _ => fail t.location (.invalidName t)

/-- The branches of the conditional at `l`, up to and including its `then`. -/
def branches (statements : List String → Descending (Array Op)) (l : Location) :
    Descending (Array Op) := do
  let yes ← statements ["else", "then"]
  let t ← read Lexer.next
  if t.isKeyword .then_ then
    fitting l (Op.ifThen? yes)
  else if t.isKeyword .else_ then
    let no ← statements ["then"]
    let closing ← read Lexer.next
    if closing.isKeyword .then_ then
      fitting l (Op.ifThenElse? yes no)
    else
      fail l .missingThenAfterElse
  else
    fail l .missingThen

/-- The conditional whose `if` stands at `l`. It is counted while its branches are
    compiled, whether they fail or not. -/
def conditional (statements : List String → Descending (Array Op)) (l : Location) :
    Descending (Array Op) := fun d =>
  if d.nesting < nestingLimit then
    match branches statements l { d with nesting := d.nesting + 1 } with
    | .ok code d => .ok code { d with nesting := d.nesting - 1 }
    | .error e d => .error e { d with nesting := d.nesting - 1 }
  else
    fail l .nestedTooDeep d

/-! ## Statements -/

/-- The code of the statements behind `ops`, up to one of the keywords `stops` or the
    end of the input. The number of tokens left is less than the bound. -/
def statements : Nat → List String → Array Op → Descending (Array Op)
  | 0, _, ops => pure ops
  | bound + 1, stops, ops => do
    let t ← read Lexer.next
    match t.payload with
    | .integer n => statements bound stops (ops.push (.push (.int n)))
    | .string s => statements bound stops (ops.push (.push (.str s)))
    | .identifier name =>
      let op ← identifier name
      statements bound stops (ops.push op)
    | .keyword k =>
      if k.text ∈ stops then
        read (Lexer.unread t)
        return ops
      else
        match k with
        | .colon =>
          definition (statements bound · #[]) t.location
          statements bound stops ops
        | .if_ =>
          let code ← conditional (statements bound · #[]) t.location
          statements bound stops (ops ++ code)
        | .semicolon =>
          let d ← get
          fail t.location
            (if d.compiler.defining then .semicolonInConditional else .semicolonOutside)
        | .else_ | .then_ => fail t.location (.unmatched k)
        | .closeParen => fail t.location (.unexpected k)
    | .endOfInput => return ops

/-- Compiles up to the end of the input, or up to one of the keywords `stops`. -/
def compile (stops : List String) : Descending (List Op) := do
  let d ← get
  let ops ← statements (d.remaining + 1) stops #[]
  return ops.toList

/-- Compiles the rest of the text. The result is the finished words and then the
    code outside of all definitions as a word of its own. -/
def program : Descending (List Word) := do
  let body ← compile []
  let d ← get
  return d.compiler.words.toList ++ [.ofBody Word.topLevel d.compiler.start body]

end Descent

end Forth
