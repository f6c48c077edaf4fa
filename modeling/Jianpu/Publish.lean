import Jianpu.Compile
import Jianpu.Smf.Reader
import Jianpu.Smf.Writer

/-!
# From a source to a file

Compiling the bytes of a source and writing the composition to a file. The file is opened before the
composition is encoded, so an event that cannot be encoded leaves an empty file.
-/

namespace Jianpu

/-- Why a file cannot be used. -/
inductive FileError where
  | notFound
  | denied
  | notDirectory
  | isDirectory
  | nameTooLong
  | notText
  | other (text : String)
  deriving DecidableEq, Repr, Inhabited

namespace FileError

/-- The wording of an error, with its number where it has one. -/
def message : FileError → String
  | notFound => "No such file or directory (os error 2)"
  | denied => "Permission denied (os error 13)"
  | notDirectory => "Not a directory (os error 20)"
  | isDirectory => "Is a directory (os error 21)"
  | nameTooLong => "File name too long (os error 36)"
  | notText => "stream did not contain valid UTF-8"
  | other text => text

/-- The wording of an error in opening a file. -/
def opening (path : String) (e : FileError) : FileError :=
  other ("Failed to open '" ++ path ++ "': " ++ e.message)

end FileError

/-- Why a source is not compiled, or a MIDI file not read. -/
inductive Failure where
  | source (diagnostics : List Diagnostic)
  | overflow (o : Smf.Overflow)
  | midi (f : Smf.Fault)
  | file (e : FileError)
  deriving DecidableEq, Repr, Inhabited

namespace Failure

/-- The wording of a failure. -/
def message : Failure → String
  | source ds => "Compilation failed with " ++ ds.length.repr ++ " error(s)"
  | overflow o =>
    "Track \"" ++ o.track ++ "\": event delta of " ++ o.delta.repr ++
      " ticks exceeds the MIDI limit of 268435455"
  | midi f => "MIDI parse error: " ++ f.message
  | file e => "IO error: " ++ e.message

end Failure

namespace Compiled

/-- The composition, if nothing is wrong with its source. -/
def result (c : Compiled) : Except Failure Composition :=
  if c.diagnostics.isEmpty then return c.composition else throw (.source c.diagnostics)

end Compiled

/-- The file of a composition. -/
def encodeFile (c : Composition) : Except Failure (List UInt8) :=
  (Smf.encode c).mapError .overflow

/-- What became of writing a composition: the outcome, and the bytes of the file if one was made. -/
structure Published where
  outcome : Except Failure Composition
  written : Option (List UInt8)

namespace Published

/-- The content of the output after the writing, by its content before. -/
def output (p : Published) (before : Option (List UInt8)) : Option (List UInt8) :=
  p.written <|> before

end Published

/-- A file that is open for writing, and what was written to it. -/
structure OpenFile where
  bytes : List UInt8

namespace OpenFile

/-- Makes a file, or empties the one that is there. -/
def create : OpenFile := ⟨[]⟩

/-- Encodes a composition and writes it at the end. Nothing is written if it cannot be encoded. -/
def write (f : OpenFile) (c : Composition) : Except Failure Composition × OpenFile :=
  match encodeFile c with
  | .error e => (throw e, f)
  | .ok bytes => (return c, ⟨f.bytes ++ bytes⟩)

end OpenFile

/-- Compiles the bytes of a source and writes the composition. The output is opened only if nothing
is wrong with the source. -/
def publish (fuel : Nat) (o : Options) (input : List UInt8) : Option Published :=
  match Utf8.decode? input with
  | none => some ⟨throw (.file .notText), none⟩
  | some text =>
    (compile fuel o text).map fun c =>
      match c.result with
      | .error e => ⟨throw e, none⟩
      | .ok composition =>
        let (outcome, file) := OpenFile.create.write composition
        ⟨outcome, some file.bytes⟩

/-- Compiles the file at a path, given what opening it brought, and writes the composition. -/
def publishFile (fuel : Nat) (o : Options) (path : String) (input : Except FileError (List UInt8)) :
    Option Published :=
  match input with
  | .error e => some ⟨throw (.file (.opening path e)), none⟩
  | .ok bytes => publish fuel o bytes

end Jianpu
