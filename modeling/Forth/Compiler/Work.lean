-- SUMMARY: A compilation under way: its open constructs, the code emitted so far, and what one token makes of it.
import Forth.Primitive
import Forth.Token.Lexer
import Forth.Word

/-!
# A compilation under way

Tokens are compiled one by one. Each definition or conditional that is not
finished yet is a frame, and the code of the innermost one is being emitted. A
frame keeps the code in front of its construct, so that closing the construct
puts the two together. A definition adds no code where it stands; it adds a word
to the finished words.
-/

namespace Forth

/-! ## Code of conditionals -/

/-- The largest distance of a jump. -/
def distanceLimit : Nat := 0xffffffff

/-- The code that runs `yes` if the top value is true. Fails if a jump would be
    too long. -/
def Op.ifThen? (yes : Array Op) : Option (Array Op) :=
  if yes.size + 1 ≤ distanceLimit then some (#[.jumpIfNot (yes.size + 1)] ++ yes) else none

/-- The code that runs `yes` if the top value is true and `no` otherwise. Fails if
    a jump would be too long. -/
def Op.ifThenElse? (yes no : Array Op) : Option (Array Op) :=
  if yes.size + 2 ≤ distanceLimit ∧ no.size + 1 ≤ distanceLimit then
    some (#[.jumpIfNot (yes.size + 2)] ++ yes ++ #[.jump (no.size + 1)] ++ no)
  else
    none

/-! ## Compilers and frames -/

/-- What lasts from one compilation to the next: the tokens left to read, the
    start of the text, whether a definition is open, and the finished words. -/
structure Compiler where
  lexer : Lexer
  start : Location
  defining : Bool := false
  words : Array Word := #[]
  deriving DecidableEq

def Compiler.ofSource (path source : String) : Compiler where
  lexer := .ofSource path source
  start := .start path

/-- A construct that is not finished: where it starts, the code in front of it,
    and what is known of it. -/
inductive Frame where
  | definition (location : Location) (outer : Array Op) (name : String)
  | branch (location : Location) (outer : Array Op)
  | alternative (location : Location) (outer : Array Op) (yes : Array Op)
  deriving DecidableEq

namespace Frame

/-- The keywords that close a construct or go on to its next part. -/
def stops : Frame → List Keyword
  | definition .. => [.semicolon]
  | branch .. => [.else_, .then_]
  | alternative .. => [.then_]

def isConditional : Frame → Bool
  | definition .. => false
  | branch .. | alternative .. => true

end Frame

/-- A compilation under way: the keywords to stop at outside of all constructs,
    the open constructs, innermost first, and the code of the innermost one. -/
structure Work where
  compiler : Compiler
  stops : List Keyword
  frames : List Frame := []
  ops : Array Op := #[]
  deriving DecidableEq

/-- How a compilation ends: with its code or an error, and with what is left. -/
abbrev Compiled := EStateM.Result SyntaxError Compiler (List Op)

/-- What one token makes of a compilation. -/
inductive Progress where
  | more (w : Work)
  | ended (r : Compiled)

namespace Work

/-- The keywords that the innermost construct reacts to. -/
def innerStops (w : Work) : List Keyword :=
  match w.frames with
  | [] => w.stops
  | f :: _ => f.stops

/-- The number of conditionals around the next token. -/
def nesting (w : Work) : Nat :=
  w.frames.countP Frame.isConditional

def emit (w : Work) (op : Op) : Progress :=
  .more { w with ops := w.ops.push op }

def fail (w : Work) (l : Location) (fault : SyntaxFault) : Progress :=
  .ended (.error ⟨l, fault⟩ w.compiler)

/-- Uses the lexer, and goes on with what it gives. -/
def read {α : Type} (w : Work) (f : EStateM SyntaxError Lexer α) (k : α → Work → Progress) :
    Progress :=
  match f w.compiler.lexer with
  | .ok a lexer => k a { w with compiler := { w.compiler with lexer } }
  | .error e lexer => .ended (.error e { w.compiler with lexer })

/-! ## One token -/

/-- A name is a primitive word, a variable if `!` or `@` follows, or a call. -/
def identifier (w : Work) (name : String) : Progress :=
  match Primitive.find? name with
  | some p => w.emit { opcode := p.opcode, arg := p.argument }
  | none =>
    w.read Lexer.peek fun t w =>
      if t.isIdentifier "!" then
        w.read Lexer.next fun _ w => w.emit (.store name)
      else if t.isIdentifier "@" then
        w.read Lexer.next fun _ w => w.emit (.fetch name)
      else
        w.emit (.call name)

/-- A colon at `l` opens a definition, whose name follows. -/
def openDefinition (w : Work) (l : Location) : Progress :=
  if w.compiler.defining then
    w.fail l .nestedDefinition
  else
    w.read Lexer.next fun t w =>
      match t.payload with
      | .identifier name =>
        .more { w with
          compiler := { w.compiler with defining := true }
          frames := .definition l w.ops name :: w.frames
          ops := #[] }
      | _ => w.fail t.location (.invalidName t)

def openConditional (w : Work) (l : Location) : Progress :=
  if w.nesting < nestingLimit then
    .more { w with frames := .branch l w.ops :: w.frames, ops := #[] }
  else
    w.fail l .nestedTooDeep

/-- Closes the conditional at `l`, whose code is given unless it is too long. -/
def closeConditional (w : Work) (l : Location) (frames : List Frame) (outer : Array Op) :
    Option (Array Op) → Progress
  | some code => .more { w with frames, ops := outer ++ code }
  | none => w.fail l .branchTooLong

/-- A keyword that is not one of the innermost stops. -/
def keyword (w : Work) (l : Location) : Keyword → Progress
  | .colon => w.openDefinition l
  | .if_ => w.openConditional l
  | .semicolon =>
    w.fail l (if w.compiler.defining then .semicolonInConditional else .semicolonOutside)
  | k@.else_ | k@.then_ => w.fail l (.unmatched k)
  | k@.closeParen => w.fail l (.unexpected k)

/-- A token `t` that is the keyword `k`, one of the innermost stops. Outside of
    all constructs it ends the compilation and stays unread. -/
def stop (w : Work) (t : Token) (k : Keyword) : Progress :=
  match w.frames with
  | [] => w.read (Lexer.unread t) fun _ w => .ended (.ok w.ops.toList w.compiler)
  | .definition l outer name :: frames =>
    .more { w with
      compiler := { w.compiler with
        defining := false
        words := w.compiler.words.push (.ofBody name l w.ops.toList) }
      frames
      ops := outer }
  | .branch l outer :: frames =>
    if k = .else_ then
      .more { w with frames := .alternative l outer w.ops :: frames, ops := #[] }
    else
      w.closeConditional l frames outer (Op.ifThen? w.ops)
  | .alternative l outer yes :: frames =>
    w.closeConditional l frames outer (Op.ifThenElse? yes w.ops)

/-- At the end of the input nothing may be open. -/
def endOfInput (w : Work) : Progress :=
  match w.frames with
  | [] => .ended (.ok w.ops.toList w.compiler)
  | .definition l _ name :: _ => w.fail l (.unfinishedDefinition name)
  | .branch l _ :: _ => w.fail l .missingThen
  | .alternative l _ _ :: _ => w.fail l .missingThenAfterElse

/-- Goes on behind the token `t`. -/
def token (w : Work) (t : Token) : Progress :=
  match t.payload with
  | .integer n => w.emit (.push (.int n))
  | .string s => w.emit (.push (.str s))
  | .identifier name => w.identifier name
  | .keyword k => if k ∈ w.innerStops then w.stop t k else w.keyword t.location k
  | .endOfInput => w.endOfInput

def step (w : Work) : Progress :=
  w.read Lexer.next fun t w => w.token t

end Work

end Forth
