-- SUMMARY: The program: the command line on the host it runs on.
import Forth.CommandLine

/-!
# The program

Everything is decided by `Forth.CommandLine`. What is left is to read files and
the standard input, to run the machine piece by piece, and to write.
-/

namespace Forth.CommandLine

/-- The environment variable with the path of a bootstrap library. -/
def bootstrapVariable : String := "MINFORTH_BOOTSTRAP"

/-- Why the host could not read. -/
def FileError.ofHost : IO.Error → FileError
  | .noFileOrDirectory .. => .notFound
  | .inappropriateType _ code _ => if code = 21 ∨ code = -21 then .isDirectory else .notDirectory
  | e => .other (toString e)

/-- What the host reads, or why it could not. -/
def reading (read : IO ByteArray) : IO (Except FileError ByteArray) := do
  try
    return .ok (← read)
  catch e =>
    return .error (.ofHost e)

/-- Writes what the machine has printed, and forgets it. -/
def flushOutput (machine : Machine) : IO Machine := do
  let stdout ← IO.getStdout
  stdout.write machine.state.output.written
  stdout.flush
  return { machine with state := { machine.state with output := {} } }

/-- Runs a machine until it stops. The result is the exit status. -/
partial def runToEnd (machine : Machine) : IO UInt32 := do
  let (status, machine) := machine.runFor 65536
  let machine ← flushOutput machine
  match Outcome.ofStatus? machine status with
  | none => runToEnd machine
  | some outcome =>
    IO.eprint outcome.errors
    return .ofNat outcome.status

/-- The command on the host it runs on. -/
def command (arguments : List String) : IO UInt32 := do
  let host : Host IO := {
    bootstrap := ← IO.getEnv bootstrapVariable
    readFile := fun path => reading (IO.FS.readBinFile path)
    readInput := reading do (← IO.getStdin).readBinToEnd }
  match ← (prepare host arguments).run with
  | .error d =>
    IO.eprint (errorText d)
    return 1
  | .ok machine => runToEnd machine

end Forth.CommandLine

def main (arguments : List String) : IO UInt32 :=
  Forth.CommandLine.command arguments
