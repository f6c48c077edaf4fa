import Jianpu.Score.Double
import Jianpu.Text.Position

/-!
# Modifiers

The suffixes of notes and groups. Some change the duration, some the pitch; the anchor, which stands
for the sequence that a note is in, changes nothing. Durations are worked out in doubles, one
modifier at a time, and rounded to ticks at the end.
-/

namespace Jianpu

/-- What a modifier does. A run of equal dashes, dots or strokes counts as one; its length is
counted on 32 bits. -/
inductive Modifier.Kind where
  | anchor
  | dash (count : UInt32)
  | underline
  | dot (count : UInt32)
  | tuplet (count : UInt32)
  | sharp
  | flat
  | octaveUp
  | octaveDown
  deriving DecidableEq, Repr, Inhabited

/-- A modifier in the chain of those that apply to a note: `parent` is the next one outwards. -/
structure Modifier where
  kind : Modifier.Kind
  span : Span
  parent : Option Nat := none
  deriving DecidableEq, Repr, Inhabited

namespace Modifier.Kind

/-- The modifiers of one character. -/
def ofChar? : Char → Option Modifier.Kind
  | '_' => some underline
  | '#' => some sharp
  | 'b' => some flat
  | '\'' => some octaveUp
  | '.' => some octaveDown
  | _ => none

/-- The modifiers of a run of one character. -/
def counted? (c : Char) (count : UInt32) : Option Modifier.Kind :=
  match c with
  | '-' => some (dash count)
  | '*' => some (dot count)
  | '/' => some (tuplet count)
  | _ => none

/-- What the modifier makes of a duration. One more than the largest count is zero, and the number
of dots is taken as one with a sign. -/
def stretch (d : Double) : Modifier.Kind → Double
  | dash n => d.mul (.ofNat (n + 1).toNat)
  | underline => d.div (.ofNat 2)
  | dot n =>
    let factor := Double.powerOfTwo n.toInt32.toInt
    (d.mul ((Double.ofNat 2).mul factor).pred).div factor
  | tuplet n => d.div (.ofNat (n + 1).toNat)
  | _ => d

/-- The semitones that the modifier adds. -/
def transpose : Modifier.Kind → Int32
  | sharp => 1
  | flat => -1
  | octaveUp => 12
  | octaveDown => -12
  | _ => 0

end Modifier.Kind

namespace Duration

/-- The longest duration, in ticks. -/
def longest : Nat := 0xFFFFFFFF

/-- A duration in whole ticks: to the nearest, halves away from zero, at least one tick and at most
the longest. A duration that is no number has no ticks. -/
def ticks (d : Double) : Nat := d.clamp 1 longest

/-- The ticks of a note of `division` ticks under modifiers, the innermost first. -/
def under (division : Nat) (ms : List Modifier.Kind) : Nat :=
  ticks (ms.foldl Modifier.Kind.stretch (Double.ofNat division))

end Duration

end Jianpu
