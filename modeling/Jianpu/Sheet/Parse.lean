import Jianpu.Composition
import Jianpu.Sheet.Body

/-!
# Sheets

```
Sheet := HeaderDirective* ( Track | Voice | Sequence )*
```

A sheet is what the source says before it is played: the header, and parts with their voices. A
track directive selects a part, a voice directive a voice of it; both are made where they do not
exist. Music outside any track goes to an implicit part. A voice that is selected again goes on
where it ended, with what was ambient then.
-/

namespace Jianpu

/-- A voice of a part, and what is ambient at its end. -/
structure Voice where
  name : String
  strand : Option Strand := none
  ambient : Ambient
  deriving Repr, Inhabited

/-- A track before it is played. -/
structure Part where
  name : String
  settings : Settings
  /-- Whether the part was made for music outside any track. -/
  implicit : Bool
  score : Score := {}
  voices : List Voice := []
  selected : Option Nat := none
  deriving Repr, Inhabited

/-- The header and the parts of a source. -/
structure Sheet where
  header : Header
  parts : List Part
  deriving Repr, Inhabited

namespace Part

/-- Selects a voice, by its place, and makes it where it does not exist. -/
def selectVoice (p : Part) (name : String) (defaults : Ambient) : Nat × Part :=
  match p.voices.findIdx? (·.name = name) with
  | some i => (i, { p with selected := some i })
  | none =>
    let i := p.voices.length
    (i, { p with
      voices := p.voices ++ [{ name, ambient := defaults }]
      selected := some i })

/-- The voice in use. The first one is called `1` if no name was given. -/
def currentVoice (p : Part) (defaults : Ambient) : Nat × Part :=
  match p.selected with
  | some i => (i, p)
  | none => p.selectVoice "1" defaults

end Part

/-- The state while a sheet is read. -/
structure Draft where
  input : Macro.Expander Directive
  header : Header := {}
  /-- What is ambient at the start of every voice. -/
  defaults : Ambient := {}
  parts : List Part := []
  selected : Option Nat := none
  /-- Settings made before there is any part; the first part takes them. -/
  pending : Settings := {}
  /-- Whether a track, a voice or music has been met. -/
  started : Bool := false
  deriving Repr, Inhabited

/-- Reading a sheet. -/
abbrev Drafting := StateT Draft Option

namespace Drafting

/-- Reads from the source. -/
def read {α : Type} (m : Reading α) : Drafting α := fun d =>
  (m d.input).map fun (a, input) => (a, { d with input })

/-- Makes a part, with the settings that were pending. -/
def addPart (name : String) (implicit : Bool) : Drafting Nat :=
  modifyGet fun d =>
    (d.parts.length, { d with
      parts := d.parts ++ [{ name, settings := d.pending, implicit }]
      pending := {} })

/-- The part in use. An implicit one is made if there is none. -/
def currentPart : Drafting Nat := do
  let d ← get
  match d.selected with
  | some i => return i
  | none =>
    let i ← addPart ("Track " ++ (d.parts.length + 1).repr) true
    modify ({ · with selected := some i })
    return i

/-- A track directive: selects the part with the name given. -/
def selectTrack : Drafting Unit := do
  modify ({ · with started := true })
  let some a ← read Reading.argumentRaw | return
  let i ← match (← get).parts.findIdx? (·.name = a.text) with
    | some i => pure i
    | none => addPart a.text false
  modify ({ · with selected := some i })

/-- A voice directive: selects the voice with the name given. -/
def selectVoice : Drafting Unit := do
  modify ({ · with started := true })
  let some a ← read Reading.argumentRaw | return
  let i ← currentPart
  modify fun d => { d with
    parts := d.parts.modify i fun p => (p.selectVoice a.text d.defaults).2 }

/-- Music: goes to the end of the voice in use. -/
def music (fuel : Nat) : Drafting Unit := do
  modify ({ · with started := true })
  let i ← currentPart
  let d ← get
  let some part := d.parts[i]? | return
  let (v, part) := part.currentVoice d.defaults
  let some voice := part.voices[v]? | return
  let ((s, ambient), b) ← liftM
    (Writing.sequence fuel none voice.ambient ⟨d.input, part.score, part.settings⟩)
  let (strand, _, score) := Strand.concat voice.strand s b.score
  let part := { part with
    score
    settings := b.settings
    voices := part.voices.set v { voice with strand, ambient } }
  set { d with input := b.input, parts := d.parts.set i part }

/-- A directive for the settings of the part in use, or of the first one to come. -/
def setting (fuel : Nat) (x : Directive) : Drafting Unit := do
  let d ← get
  match d.selected.bind fun i => d.parts[i]?.map (i, ·) with
  | some (i, part) =>
    let settings ← read (Writing.setting fuel x part.settings)
    modify fun d => { d with parts := d.parts.set i { part with settings } }
  | none =>
    let pending ← read (Writing.setting fuel x d.pending)
    modify ({ · with pending })

/-- A directive before the music: sets the header, or what is ambient at the start. -/
def heading (fuel : Nat) (x : Directive) : Drafting Unit := do
  match x with
  | .tempo | .bpm =>
    let some tempo ← read (Reading.tempo fuel (x = .bpm)) | return
    modify fun d => { d with header := { d.header with tempo } }
  | .major | .minor =>
    let some key ← read (Reading.key fuel (x = .minor)) | return
    modify fun d => { d with
      header := { d.header with key }
      defaults := { d.defaults with shift := key.shift } }
  | .times =>
    let some (numerator, denominator) ← read (Reading.timeSignature fuel) | return
    modify fun d => { d with header := { d.header with numerator, denominator } }
  | .div =>
    let some division ← read (Reading.division fuel) | return
    modify fun d => { d with header := { d.header with division } }
  | .vel =>
    let some velocity ← read (Reading.sevenBits fuel .velocityTooLarge) | return
    modify fun d => { d with defaults := { d.defaults with velocity } }
  | .octave =>
    let some octave ← read (Reading.octave fuel) | return
    modify fun d => { d with defaults := { d.defaults with octave } }
  | _ => return

/-- Reads all of the source. -/
def all : Nat → Drafting Unit
  | 0 => failure
  | fuel + 1 => do
    let t ← read (Reading.peek fuel)
    if t.isEof then return
    else if t.kind = .closing then
      let _ ← read (Reading.next fuel)
      all fuel
    else if t.isSeparator then
      let _ ← read (Reading.next fuel)
      read (Reading.report (.unexpectedSeparator t.text) t.span)
      all fuel
    else
      let d ← get
      match d.input.directive? t with
      | some .track =>
        let _ ← read (Reading.next fuel)
        selectTrack
      | some .voice =>
        let _ ← read (Reading.next fuel)
        selectVoice
      | some .instrument =>
        let _ ← read (Reading.next fuel)
        setting fuel .instrument
      | some .volume =>
        let _ ← read (Reading.next fuel)
        setting fuel .volume
      | some x =>
        if d.started then music fuel
        else
          let _ ← read (Reading.next fuel)
          heading fuel x
      | none => music fuel
      all fuel

end Drafting

/-- What reading a source gives, beside what there is to report. -/
structure Sheet.Result where
  sheet : Sheet
  diagnostics : List Diagnostic
  journal : List Remark
  deriving Repr, Inhabited

namespace Sheet

/-- Reads a sheet, with calls nested no deeper than `limit`. There is none if the steps do not
suffice. -/
def parse (fuel : Nat) (source : Source) (limit : Nat) : Option Result := do
  let input := Macro.Expander.ofSource source Directive.scopes limit
  let (_, d) ← Drafting.all fuel { input }
  return ⟨⟨d.header, d.parts⟩, d.input.diagnostics, d.input.journal⟩

end Sheet

end Jianpu
