import Jianpu.Proofs.Schedule.Timeline
import Jianpu.Proofs.Score.Chain
import Jianpu.Sheet.Body

/-!
# Phrases

A phrase is the music of a sequence as a tree: notes, rests and groups one after another, each with
its marks, and in a group any number of branches. `Phrase.render` writes it down in tokens. What it
means does not depend on any score: `Phrase.tones` are the notes that sound and when they do, and
`Phrase.finish` is when the phrase is over. The pitch of a tone is the exact sum of the steps of the
scale, octaves and semitones, which `Tone.events` brings between 0 and 131. On 32 bits the sum wraps
around (`Tone.wrapped`), but not as long as it fits (`Tone.wrapped_of_fits`).
-/

namespace Jianpu

/-! ## Marks -/

/-- A character after a note or a group. -/
inductive Mark where
  | underline
  | dash
  | dot
  | stroke
  | sharp
  | flat
  | octaveUp
  | octaveDown
  deriving DecidableEq, Repr

namespace Mark

def char : Mark → Char
  | underline => '_'
  | dash => '-'
  | dot => '*'
  | stroke => '/'
  | sharp => '#'
  | flat => 'b'
  | octaveUp => '\''
  | octaveDown => '.'

/-- The modifier of one mark. -/
def kind : Mark → Modifier.Kind
  | underline => .underline
  | dash => .dash 1
  | dot => .dot 1
  | stroke => .tuplet 1
  | sharp => .sharp
  | flat => .flat
  | octaveUp => .octaveUp
  | octaveDown => .octaveDown

/-- Puts a mark before modifiers. Dashes, dots and strokes in a row are one modifier, with their
number on 32 bits. -/
def cons : Mark → List Modifier.Kind → List Modifier.Kind
  | dash, .dash n :: ks => .dash (n + 1) :: ks
  | dot, .dot n :: ks => .dot (n + 1) :: ks
  | stroke, .tuplet n :: ks => .tuplet (n + 1) :: ks
  | m, ks => m.kind :: ks

/-- The modifiers of marks. -/
def kinds (ms : List Mark) : List Modifier.Kind := ms.foldr cons []

end Mark

/-! ## Phrases and their tokens -/

mutual

/-- Notes, rests and groups one after another. Degree 0 is a rest. -/
inductive Phrase where
  | nil
  | note (degree : Fin 8) (marks : List Mark) (rest : Phrase)
  | group (branches : Branches) (marks : List Mark) (rest : Phrase)

/-- The branches of a group. -/
inductive Branches where
  | last (p : Phrase)
  | more (p : Phrase) (rest : Branches)

end

/-- What a token is and says, wherever it stands. -/
abbrev Lexeme := Token.Kind × String

def Token.lexeme (t : Token) : Lexeme := (t.kind, t.text)

namespace Lexeme

/-- An ordinary character. -/
def glyph (c : Char) : Lexeme := (.other, String.singleton c)

def opening : Lexeme := (.opening, "\x7b")

def closing : Lexeme := (.closing, "\x7d")

end Lexeme

/-- The tokens of marks. -/
def Mark.render (ms : List Mark) : List Lexeme := ms.map (Lexeme.glyph ·.char)

/-- The degree of a number. -/
def Phrase.degree (n : Nat) : Fin 8 := .ofNat 8 n

/-- The digit of a degree. -/
def Phrase.digit (degree : Fin 8) : Char := Nat.digitChar degree

mutual

/-- The tokens of a phrase. -/
def Phrase.render : Phrase → List Lexeme
  | .nil => []
  | .note degree marks rest => .glyph (Phrase.digit degree) :: (Mark.render marks ++ rest.render)
  | .group branches marks rest =>
    .opening :: (branches.render ++ .closing :: (Mark.render marks ++ rest.render))

/-- The tokens of branches, with a bar between them. -/
def Branches.render : Branches → List Lexeme
  | .last p => p.render
  | .more p rest => p.render ++ .glyph '|' :: rest.render

end

/-! ## Meaning -/

/-- A note that sounds from one tick to another. The pitch can be out of range. -/
structure Tone where
  start : Nat
  stop : Nat
  pitch : Int
  deriving DecidableEq, Repr

namespace Tone

/-- The events of a tone, with its pitch brought between 0 and 131. -/
def events (channel velocity : Nat) (x : Tone) : Timeline :=
  let pitch := (max 0 (min 131 x.pitch)).toNat
  [(x.start, .noteOn channel pitch velocity), (x.stop, .noteOff channel pitch velocity)]

/-- The tone with its pitch on 32 bits. -/
def wrapped (x : Tone) : Tone := { x with pitch := x.pitch.bmod 0x100000000 }

/-- The pitch fits into 32 bits. -/
def Fits (x : Tone) : Prop := -0x80000000 ≤ x.pitch ∧ x.pitch ≤ 0x7FFFFFFF

instance : DecidablePred Fits := fun _ => inferInstanceAs (Decidable (_ ∧ _))

end Tone

/-- The pitch of a degree of the major scale under modifiers: degree 1 is at 60 in octave 4. -/
def Pitch.under (a : Ambient) (degree : Nat) (ks : List Modifier.Kind) : Int :=
  60 + [0, 2, 4, 5, 7, 9, 11].getD (degree - 1) 0 + 12 * (a.octave - 4) + a.shift +
    Modifier.semitones ks

section Meaning

variable (a : Ambient) (division : Nat)

mutual

/-- When a phrase that starts at tick `t` is over, where `outer` are the modifiers around it. -/
def Phrase.finish : Phrase → List Modifier.Kind → Nat → Nat
  | .nil, _, t => t
  | .note _ marks rest, outer, t =>
    rest.finish outer (t + Duration.under division (Mark.kinds marks ++ outer))
  | .group branches marks rest, outer, t =>
    rest.finish outer (branches.finish (Mark.kinds marks ++ outer) t)

/-- When the last of some branches is over. -/
def Branches.finish : Branches → List Modifier.Kind → Nat → Nat
  | .last p, outer, t => p.finish outer t
  | .more p rest, outer, t => max (p.finish outer t) (rest.finish outer t)

end

mutual

/-- The notes that sound in a phrase that starts at tick `t`. A rest only takes time. -/
def Phrase.tones : Phrase → List Modifier.Kind → Nat → List Tone
  | .nil, _, _ => []
  | .note degree marks rest, outer, t =>
    let ks := Mark.kinds marks ++ outer
    let stop := t + Duration.under division ks
    (if degree = 0 then [] else [⟨t, stop, Pitch.under a degree ks⟩]) ++ rest.tones outer stop
  | .group branches marks rest, outer, t =>
    let ks := Mark.kinds marks ++ outer
    branches.tones ks t ++ rest.tones outer (branches.finish division ks t)

/-- The notes that sound in branches, which all start at tick `t`. -/
def Branches.tones : Branches → List Modifier.Kind → Nat → List Tone
  | .last p, outer, t => p.tones outer t
  | .more p rest, outer, t => p.tones outer t ++ rest.tones outer t

end

end Meaning

/-- The phrase `{1#|{2|}--|0}'4_''''''`: a group in a group, with an empty branch, a rest and marks
on both, and then a note that is raised by six octaves. -/
def Phrase.nested : Phrase :=
  .group
    (.more (.note 1 [.sharp] .nil)
      (.more (.group (.more (.note 2 [] .nil) (.last .nil)) [.dash, .dash] .nil)
        (.last (.note 0 [] .nil))))
    [.octaveUp] (.note 4 (.underline :: .replicate 6 .octaveUp) .nil)

end Jianpu
