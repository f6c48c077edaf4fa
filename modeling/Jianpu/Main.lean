import Jianpu.Cli.Compile
import Jianpu.Cli.Inspect

/-!
# The command line

Both commands in one program: under the name of the inspecting command it inspects a MIDI file,
under any other name it compiles a sheet.
-/

namespace Jianpu.Cli

/-- The number of an error, which can come with the sign changed. -/
def errorNumber (code : UInt32) : UInt32 := if code < 0x80000000 then code else 0 - code

/-- What went wrong with a file. -/
def fileError : IO.Error → FileError
  | .noFileOrDirectory .. => .notFound
  | .permissionDenied .. => .denied
  | .inappropriateType _ code _ => if errorNumber code = 20 then .notDirectory else .isDirectory
  | .invalidArgument _ code details =>
    if errorNumber code = 36 then .nameTooLong else .other details
  | e => .other (toString e)

/-- Runs an action on a file. -/
def attempt {α : Type} (action : IO α) : IO (Except FileError α) := do
  try return .ok (← action) catch e => return .error (fileError e)

/-- The bytes of a file. -/
def readFile (path : String) : IO (Except FileError (List UInt8)) :=
  attempt do return (← IO.FS.readBinFile path).toList

/-- The bytes of standard input from here on. -/
partial def readInput (input : IO.FS.Stream) (before : ByteArray) : IO ByteArray := do
  let bytes ← input.read 65536
  if bytes.isEmpty then return before else readInput input (before ++ bytes)

/-- Carries out a command: writes its file, prints what it prints. `run` tells the outcome by what
making the file brings. -/
def carryOut (run : Except FileError Unit → Outcome) : IO UInt32 := do
  let o := run (.ok ())
  let o ← match o.written with
    | none => pure o
    | some (path, bytes) =>
      match ← attempt (IO.FS.writeBinFile path ⟨bytes.toArray⟩) with
      | .ok _ => pure o
      | .error e => pure (run (.error e))
  IO.print o.stdout
  IO.eprint (Outcome.unlines o.stderr)
  return UInt32.ofNat o.exit

/-- The compiling command. -/
def compileCommand (args : List String) : IO UInt32 := do
  match Compile.ofArguments args with
  | .error h => carryOut fun _ => Compile.halt h
  | .ok c =>
    let input ← match c.input with
      | some path => readFile path
      | none => attempt do return (← readInput (← IO.getStdin) .empty).toList
    carryOut fun created =>
      (c.run Macro.Expander.ample input created).getD (({} : Outcome).fail "out of steps")

/-- The inspecting command. -/
def inspectCommand (args : List String) : IO UInt32 := do
  match Inspect.ofArguments args with
  | .error h => carryOut fun _ => Inspect.halt h
  | .ok c =>
    let input ← readFile c.input
    carryOut (c.run input)

end Jianpu.Cli

/-- Runs the command that the program is called by. -/
def main (args : List String) : IO UInt32 := do
  let name := (← IO.appPath).fileStem
  if name = some Jianpu.Cli.Inspect.name then Jianpu.Cli.inspectCommand args
  else Jianpu.Cli.compileCommand args
