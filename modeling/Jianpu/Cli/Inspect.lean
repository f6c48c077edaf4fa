import Jianpu.Cli.Outcome
import Jianpu.Gzip.Member
import Jianpu.Smf.Report

/-!
# The inspecting command

Reads a MIDI file, compressed or not, and reports on it in JSON.
-/

namespace Jianpu.Cli

/-- What the inspecting command is asked to do. -/
structure Inspect where
  input : String
  /-- The file for the report; standard output if there is none. -/
  output : Option String := none
  compact : Bool := false
  deriving DecidableEq, Repr, Inhabited

namespace Inspect

/-- The arguments of the command. -/
def grammar : Grammar where
  operands := 1
  choices := [
    { name := "output", letter := some 'o', action := .value isPath },
    { name := "compact", letter := some 'c', action := .flag }]

/-- What the arguments ask for. -/
def ofArguments (args : List String) : Except Halt Inspect := do
  let a ← grammar.parse args
  match a.operands with
  | [] => throw .usage
  | input :: _ => return { input, output := a.value? "output", compact := a.count "compact" > 0 }

/-- The last part of a path, with empty parts and those that stay in place left out. -/
def fileName (path : String) : List Char :=
  let parts := (path.toList.splitOn '/').filter fun p => p ≠ [] ∧ p ≠ ['.']
  parts.getLast?.getD []

/-- What follows the last dot of a file's name, unless the name starts with it. -/
def extension? (path : String) : Option String :=
  let name := fileName path
  let tail := name.reverse.takeWhile (· ≠ '.')
  if tail.length + 1 < name.length ∧ name ≠ ['.', '.'] then some (String.ofList tail.reverse)
  else none

/-- Whether a file is compressed, by its name. -/
def isCompressed (path : String) : Bool :=
  match (extension? path).map fun e => String.ofList (e.toList.map Char.toLower) with
  | some e => e = "gz" || e = "midz"
  | none => false

/-- The bytes of the MIDI file in what was read. -/
def midi? (c : Inspect) (bytes : List UInt8) : Option (List UInt8) :=
  if isCompressed c.input || Gzip.isMember bytes then Gzip.decompress bytes else some bytes

/-- Runs the command, given what reading the file brought and what making the output brings. -/
def run (c : Inspect) (input : Except FileError (List UInt8)) (created : Except FileError Unit) :
    Outcome :=
  let o : Outcome := {}
  match input.toOption.bind c.midi? with
  | none => o.fail "cannot read the input"
  | some bytes =>
    match Smf.decode bytes with
    | .error e => o.fail ("MidiParse(\"" ++ e.message ++ "\")")
    | .ok file =>
      let text := (if c.compact then file.report.compact else file.report.pretty) ++ "\n"
      match c.output, created with
      | none, _ => { stdout := text }
      | some _, .error e => o.fail e.message
      | some path, .ok _ => { written := some (path, Utf8.encode text) }

/-- What the command is called. -/
def name : String := "mid2json"

/-- The arguments of the command, for a reader. -/
def usage : String := name ++ " [-c] [-o OUTPUT] INPUT"

/-- The outcome where the command does not run. -/
def halt (h : Halt) : Outcome := .ofHalt name usage h

end Inspect

end Jianpu.Cli
