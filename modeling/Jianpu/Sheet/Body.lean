import Jianpu.Score.Strand
import Jianpu.Sheet.Argument

/-!
# The music of a voice

```
Sequence := ( ( Note | Group ) Modifier* | Directive )*
Group    := '{' Sequence ( ( '|' | ',' ) Sequence )* '}'
Note     := '0' | '1' ... '7'
Modifier := '_' | '-'+ | '*'+ | '/'+ | '#' | 'b' | ''' | '.'
```

A sequence is read into a strand of the track's score. Octave, velocity and key are ambient: a
directive changes them for the rest of its sequence, and every branch of a group starts with those
at its brace.
-/

namespace Jianpu

/-- What a note takes from before it. -/
structure Ambient where
  octave : Int := 4
  velocity : Nat := 80
  shift : Int := 0
  deriving DecidableEq, Repr, Inhabited

/-- The instrument and the volume of a track. -/
structure Settings where
  instrument : Nat := 0
  volume : Nat := 100
  deriving DecidableEq, Repr, Inhabited

/-- The state while the music of a track is read. -/
structure Body where
  input : Macro.Expander Directive
  score : Score
  settings : Settings
  deriving Repr, Inhabited

/-- Reading the music of a track. -/
abbrev Writing := StateT Body Option

namespace Writing

/-- Reads from the source. -/
def read {α : Type} (m : Reading α) : Writing α := fun b =>
  (m b.input).map fun (a, input) => (a, { b with input })

/-- Adds to the score. -/
def write {α : Type} (f : Score → α × Score) : Writing α := fun b =>
  let (a, score) := f b.score
  some (a, { b with score })

/-- Adds a node at the end of a sequence. -/
def append (s : Option Strand) (c : Content) (span : Span) : Writing (Strand × Slot) :=
  write fun g =>
    let (id, g) := g.addNode c span
    let (s, slot, g) := Strand.append s g id
    ((s, slot), g)

/-- Adds a group at the end of a sequence. -/
def concat (s group : Option Strand) : Writing (Option Strand × Option Slot) :=
  write fun g =>
    let (s, slot, g) := Strand.concat s group g
    ((s, slot), g)

/-- Adds a branch to a group. -/
def branch (s other : Option Strand) : Writing (Option Strand) :=
  write (Strand.branch s other)

/-- Puts a modifier into a slot. An empty group has no slot, and its modifiers are lost. -/
def insert (slot : Option Slot) (kind : Modifier.Kind) (span : Span) : Writing (Option Slot) :=
  match slot with
  | none => return none
  | some slot =>
    write fun g =>
      let (m, g) := g.addModifier kind span
      let (slot, g) := slot.insert g m
      (some slot, g)

/-- Sets the instrument or the volume of the track. -/
def setting (fuel : Nat) (d : Directive) (s : Settings) : Reading Settings := do
  match d with
  | .instrument =>
    let some n ← Reading.instrument fuel | return s
    return { s with instrument := n }
  | .volume =>
    let some n ← Reading.sevenBits fuel .volumeTooLarge | return s
    return { s with volume := n }
  | _ => return s

/-- What a note token stands for. What is no note is reported and taken for one below all
pitches. -/
def content (t : Token) (a : Ambient) : Reading Content := do
  match t.single?.filter Char.isDigit with
  | none =>
    Reading.report .noteExpected t.span
    return .note (-1) a.velocity
  | some c =>
    let degree := c.toNat - '0'.toNat
    if degree = 0 then return .rest
    else if degree ≤ 7 then return .note (Pitch.ofDegree degree a.octave a.shift) a.velocity
    else
      Reading.report (.unknownNote degree) t.span
      return .note (-1) a.velocity

/-- A directive inside the music: the node that it puts there, if any, and what is ambient after
it. -/
def directive (fuel : Nat) (d : Directive) (t : Token) (a : Ambient) :
    Writing (Option Content × Ambient) := do
  match d with
  | .tempo | .bpm =>
    let r ← read (Reading.tempo fuel (d = .bpm))
    return (r.map .tempo, a)
  | .major | .minor =>
    let some k ← read (Reading.key fuel (d = .minor)) | return (none, a)
    return (some (.key k), { a with shift := k.shift })
  | .times =>
    let r ← read (Reading.timeSignature fuel)
    return (r.map fun p => .time p.1 p.2, a)
  | .div =>
    read do
      let _ ← Reading.argument fuel
      Reading.report .lateDivision t.span
    return (none, a)
  | .vel =>
    let some n ← read (Reading.sevenBits fuel .velocityTooLarge) | return (none, a)
    return (none, { a with velocity := n })
  | .octave =>
    let some n ← read (Reading.octave fuel) | return (none, a)
    return (none, { a with octave := n })
  | .instrument | .volume =>
    let b ← get
    let s ← read (setting fuel d b.settings)
    modify ({ · with settings := s })
    return (none, a)
  | .track | .voice => return (none, a)

/-- A run of one character from here on: its length, added to `count`, and the last token of it. -/
def run (c : Char) : Nat → UInt32 → Span → Reading (UInt32 × Span)
  | 0, _, _ => failure
  | fuel + 1, count, last => do
    let t ← Reading.peek fuel
    if t.single? = some c then
      let _ ← Reading.next fuel
      run c fuel (count + 1) t.span
    else return (count, last)

/-- A modifier and the part of the source that it takes, if one stands here. -/
def modifier? (fuel : Nat) : Reading (Option (Modifier.Kind × Span)) := do
  let t ← Reading.peek fuel
  let some c := t.single? | return none
  match Modifier.Kind.ofChar? c, Modifier.Kind.counted? c 0 with
  | some kind, _ =>
    let _ ← Reading.next fuel
    return some (kind, t.span)
  | none, some _ =>
    let (count, last) ← run c fuel 0 t.span
    return (Modifier.Kind.counted? c count).map (·, .between t.span last)
  | none, none => return none

/-- The modifiers that stand here, put into a slot. -/
def modifiers : Nat → Option Slot → Writing Unit
  | 0, _ => failure
  | fuel + 1, slot => do
    let some (kind, span) ← read (modifier? fuel) | return
    let slot ← insert slot kind span
    modifiers fuel slot

mutual

/-- A sequence from here on, after the strand `s`: up to the end of its group, a separator, or a
directive that starts a track or a voice. -/
def sequence : Nat → Option Strand → Ambient → Writing (Option Strand × Ambient)
  | 0, _, _ => failure
  | fuel + 1, s, a => do
    let t ← read (Reading.peek fuel)
    if t.isEof || t.kind = .closing || t.isSeparator then return (s, a)
    else if t.kind = .opening then
      let g ← group fuel a
      let (s, slot) ← concat s g
      modifiers fuel slot
      sequence fuel s a
    else
      match (← get).input.directive? t with
      | some .track | some .voice => return (s, a)
      | some d =>
        let _ ← read (Reading.next fuel)
        match ← directive fuel d t a with
        | (some c, a) =>
          let (s, _) ← append s c t.span
          sequence fuel (some s) a
        | (none, a) => sequence fuel s a
      | none =>
        let t ← read (Reading.next fuel)
        let c ← read (content t a)
        let (s, slot) ← append s c t.span
        modifiers fuel (some slot)
        sequence fuel (some s) a

/-- A group, from its brace on. -/
def group : Nat → Ambient → Writing (Option Strand)
  | 0, _ => failure
  | fuel + 1, a => do
    let _ ← read (Reading.next fuel)
    let (s, _) ← sequence fuel none a
    let s ← branches fuel s a
    let t ← read (Reading.peek fuel)
    if t.kind = .closing then
      let _ ← read (Reading.next fuel)
      return s
    else
      read (Reading.report .closingExpected t.span)
      return s

/-- The further branches of a group. -/
def branches : Nat → Option Strand → Ambient → Writing (Option Strand)
  | 0, _, _ => failure
  | fuel + 1, s, a => do
    let t ← read (Reading.peek fuel)
    if t.isSeparator then
      let _ ← read (Reading.next fuel)
      let (other, _) ← sequence fuel none a
      let s ← branch s other
      branches fuel s a
    else return s

end

end Writing

end Jianpu
