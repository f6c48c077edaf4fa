import Jianpu.Cli.Outcome
import Jianpu.Diagnostic.Excerpt
import Jianpu.Text.Lines

/-!
# The compiling command

Reads a sheet from a file or from standard input and writes a MIDI file. Faults of the sheet are
shown with the lines that they are about, and then nothing is written.
-/

namespace Jianpu.Cli

/-- What the compiling command is asked to do. -/
structure Compile where
  /-- The file with the sheet; standard input if there is none. -/
  input : Option String := none
  output : String := "a.mid"
  dump : Bool := false
  options : Options := {}
  threshold : Level := .warn

namespace Compile

/-- The arguments of the command. -/
def grammar : Grammar where
  operands := 1
  choices := [
    { name := "file", letter := some 'f', action := .value isPath },
    { name := "output", letter := some 'o', action := .value isPath },
    { name := "dump", letter := some 'd', action := .flag },
    { name := "param-char", action := .value isCharacter },
    { name := "comment-char", action := .value isCharacter },
    { name := "verbose", letter := some 'v', action := .count }]

/-- The first character of an option's value. -/
def character (a : Arguments) (name : String) (default : Char) : Char :=
  ((a.value? name).bind (·.toList.head?)).getD default

/-- What the arguments ask for. The sheet can be named as an operand or as an option, not both. -/
def ofArguments (args : List String) : Except Halt Compile := do
  let a ← grammar.parse args
  let operand := a.operands.head?
  let file := a.value? "file"
  if operand.isSome && file.isSome then throw .usage
  else
    let music := Alphabet.music
    let alphabet := { music with
      param := character a "param-char" music.param
      comment := character a "comment-char" music.comment }
    return {
      input := operand <|> file
      output := (a.value? "output").getD "a.mid"
      dump := a.count "dump" > 0
      options := { alphabet }
      threshold := .ofVerbosity (a.count "verbose") }

/-- The text of the sheet, given what reading it brought. -/
def text (c : Compile) (input : Except FileError (List UInt8)) : Except Failure String :=
  let text := input.bind fun bytes =>
    match Utf8.decode? bytes with
    | some text => .ok text
    | none => .error .notText
  text.mapError fun e => .file (match c.input with
    | some path => e.opening path
    | none => e)

/-- Writes a composition, given what making the file brings, after what was done so far. -/
def write (c : Compile) (o : Outcome) (composition : Composition)
    (created : Except FileError Unit) :
    Outcome :=
  match created with
  | .error e => o.fail (Failure.file e).message
  | .ok _ =>
    match encodeFile composition with
    | .error e => { o with written := some (c.output, []) }.fail e.message
    | .ok bytes =>
      let remark : Remark := ⟨.info, "wrote " ++ composition.tracks.length.repr ++ " track(s), " ++
        composition.eventCount.repr ++ " event(s) to " ++ c.output⟩
      { o with
        written := some (c.output, bytes)
        stderr := o.stderr ++ Remark.shown c.threshold [remark] }

/-- Runs the command, given what reading the sheet brought and what making the output brings. -/
def run (fuel : Nat) (c : Compile) (input : Except FileError (List UInt8))
    (created : Except FileError Unit) : Option Outcome :=
  match c.text input with
  | .error e => some (({} : Outcome).fail e.message)
  | .ok source =>
    (compile fuel c.options source).map fun r =>
      let journal := Remark.shown c.threshold r.journal
      if r.diagnostics.isEmpty then
        let stdout := if c.dump then Outcome.unlines r.composition.dump else ""
        let warning :=
          if r.composition.tracks.isEmpty then ["Warning: creating empty MIDI file."] else []
        c.write { stdout, stderr := journal ++ warning } r.composition created
      else
        { exit := 1
          stderr := journal ++ r.diagnostics.flatMap (Excerpt.render (Text.lines source)) }

/-- What the command is called. -/
def name : String := "qmidi"

/-- The arguments of the command, for a reader. -/
def usage : String :=
  name ++ " [-d] [-v] [-o OUTPUT] [--param-char CHAR] [--comment-char CHAR] [INPUT | -f INPUT]"

/-- The outcome where the command does not run. -/
def halt (h : Halt) : Outcome := .ofHalt name usage h

end Compile

end Jianpu.Cli
