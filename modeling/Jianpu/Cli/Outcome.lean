import Jianpu.Cli.Arguments
import Jianpu.Publish

/-!
# Outcomes of a command

What a command prints, the file that it writes, and its exit code. A command that can write a file
is told what making that file would bring.
-/

namespace Jianpu.Cli

/-- What a command does. -/
structure Outcome where
  exit : Nat := 0
  stdout : String := ""
  stderr : List String := []
  /-- The file written, and its bytes. -/
  written : Option (String × List UInt8) := none
  deriving DecidableEq, Repr, Inhabited

namespace Outcome

/-- Lines as text. -/
def unlines (lines : List String) : String := String.join (lines.map (· ++ "\n"))

/-- The outcome with an error reported. -/
def fail (o : Outcome) (message : String) : Outcome :=
  { o with exit := 1, stderr := o.stderr ++ ["Error: " ++ message] }

/-- The outcome of a command that does not run. -/
def ofHalt (name usage : String) : Halt → Outcome
  | .usage => { exit := 2, stderr := ["Usage: " ++ usage] }
  | .help => { stdout := "Usage: " ++ usage ++ "\n" }
  | .version => { stdout := name ++ " 0.1.0\n" }

end Outcome

end Jianpu.Cli
