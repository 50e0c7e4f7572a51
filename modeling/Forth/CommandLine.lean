-- SUMMARY: The command line: its settings, the texts it reads from the host, and the outcome of a run.
import Forth.Bootstrap
import Forth.Image.Listing
import Forth.Machine

/-!
# The command line

The command `minforth [--dump] [script]` loads the bootstrap library, then the
script or the standard input, and runs it. With `--dump` the listing of
everything that was loaded is printed in front of the program's output. The first
failure is reported on the error stream, and the exit status is one.

What the host gives is a parameter: files and standard input are read in any
monad, so that the same preparation serves a real host and one held in memory.
Reading may fail. Writing may not: the host takes all that is written to its two
output streams, so an outcome is what both of them hold in the end.
-/

namespace Forth.CommandLine

/-! ## Settings -/

/-- What the arguments ask for. -/
structure Settings where
  dump : Bool := false
  script : Option String := none
  deriving DecidableEq, Repr

/-- What is wrong with the arguments. -/
inductive UsageError where
  | unknownOption (argument : String)
  | secondScript
  deriving DecidableEq, Repr

def usage : String := "Usage: minforth [--dump] [script]"

def UsageError.diagnostic : UsageError → Diagnostic
  | unknownOption argument => { message := s!"Unknown option {argument}.  {usage}" }
  | secondScript => { message := s!"Only one script can be given.  {usage}" }

def Settings.add (s : Settings) (argument : String) : Except UsageError Settings :=
  if argument = "--dump" then
    .ok { s with dump := true }
  else if ['-', '-'].isPrefixOf argument.toList then
    .error (.unknownOption argument)
  else
    match s.script with
    | none => .ok { s with script := some argument }
    | some _ => .error .secondScript

/-- The settings that the arguments behind the command's name ask for. -/
def Settings.ofArguments (arguments : List String) : Except UsageError Settings :=
  arguments.foldlM Settings.add {}

/-! ## Reading from the host -/

/-- Why a file or the standard input can not be read. -/
inductive FileError where
  | notFound
  | isDirectory
  | notDirectory
  | notText
  | other (reason : String)
  deriving DecidableEq, Repr

def FileError.message : FileError → String
  | notFound => "No such file or directory (os error 2)"
  | isDirectory => "Is a directory (os error 21)"
  | notDirectory => "Not a directory (os error 20)"
  | notText => "stream did not contain valid UTF-8"
  | other reason => reason

/-- What the command takes from the host: the path of a bootstrap library to use
    instead of the built-in one, the files, and the standard input. -/
structure Host (m : Type → Type) where
  bootstrap : Option String
  readFile : String → m (Except FileError ByteArray)
  readInput : m (Except FileError ByteArray)

/-- A source text and the path that its locations carry. -/
structure Script where
  path : String
  source : String
  deriving DecidableEq, Repr

variable {m : Type → Type} [Monad m]

/-- The text of bytes, which must be UTF-8. -/
def decode (bytes : ByteArray) : Except FileError String :=
  match String.fromUTF8? bytes with
  | some source => .ok source
  | none => .error .notText

def Host.script (host : Host m) (path : String) : ExceptT Diagnostic m Script := do
  match (← host.readFile path).bind decode with
  | .ok source => return ⟨path, source⟩
  | .error e => throw { message := s!"Could not read file {path}: {e.message}" }

def Host.input (host : Host m) : ExceptT Diagnostic m Script := do
  match (← host.readInput).bind decode with
  | .ok source => return ⟨"<stdin>", source⟩
  | .error e => throw { message := s!"I/O error: {e.message}" }

def Host.library (host : Host m) : ExceptT Diagnostic m Script :=
  match host.bootstrap with
  | some path => host.script path
  | none => return ⟨Bootstrap.path, Bootstrap.source⟩

/-- The program to run. -/
def Host.program (host : Host m) (settings : Settings) : ExceptT Diagnostic m Script :=
  match settings.script with
  | some path => host.script path
  | none => host.input

/-! ## Preparing and running -/

def load (machine : Machine) (script : Script) : Except Diagnostic Machine :=
  match Machine.loadInPlace script.path script.source machine with
  | .ok _ machine => .ok machine
  | .error e _ => .error e.diagnostic

/-- The machine with the bootstrap library and the program loaded. With a dump,
    the listing is its output so far. The output has no limit, as the host takes all. -/
def prepare (host : Host m) (arguments : List String) : ExceptT Diagnostic m Machine := do
  let settings ← MonadExcept.ofExcept ((Settings.ofArguments arguments).mapError (·.diagnostic))
  let library ← host.library
  let machine ← MonadExcept.ofExcept (load {} library)
  let program ← host.program settings
  let machine ← MonadExcept.ofExcept (load machine program)
  if settings.dump then
    let output : Sink := { written := machine.image.listing.toUTF8 }
    return { machine with state := { machine.state with output } }
  else
    return machine

/-- What is written to the error stream on a failure. -/
def errorText (d : Diagnostic) : String :=
  s!"Error: {d.render}\n"

/-- What a command leaves behind: the exit status and the two output streams. -/
structure Outcome where
  status : Nat
  output : ByteArray := .empty
  errors : String := ""

def Outcome.ofStatus? (machine : Machine) : Status → Option Outcome
  | .running => none
  | .halted => some { status := 0, output := machine.state.output.written }
  | .failed fault => some {
      status := 1
      output := machine.state.output.written
      errors := errorText (machine.report fault) }

/-- The outcome of a command, unless it takes more than `steps` instructions. -/
def run (steps : Nat) (host : Host Id) (arguments : List String) : Option Outcome :=
  match (prepare host arguments).run with
  | .error d => some { status := 1, errors := errorText d }
  | .ok machine =>
    let (status, machine) := machine.runFor steps
    Outcome.ofStatus? machine status

end Forth.CommandLine
