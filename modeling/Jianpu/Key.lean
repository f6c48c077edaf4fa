import Jianpu.Text.Blank

/-!
# Keys

A key says how far degree 1 lies above C and how many sharps (or, negative, flats) the key signature
shows. In a minor key degree 1 stays on the tonic of the relative major, so A minor reads like C
major.
-/

namespace Jianpu

/-- A key: the semitones of degree 1 above C, the sharps of its signature, and its mode. -/
structure Key where
  shift : Int := 0
  sharps : Int8 := 0
  minor : Bool := false
  deriving DecidableEq, Repr, Inhabited

namespace Key

/-- The semitones above C of a letter, and its place on the circle of fifths. -/
def letter? : Char → Option (Int × Int)
  | 'C' => some (0, 0)
  | 'D' => some (2, 2)
  | 'E' => some (4, 4)
  | 'F' => some (5, -1)
  | 'G' => some (7, 1)
  | 'A' => some (9, 3)
  | 'B' => some (11, 5)
  | _ => none

/-- The key of the letter `semitone`, `fifths` with an accidental. A signature of more than seven
sharps or flats is that of the same tones with fewer. -/
def ofTonic (semitone fifths accidental : Int) (minor : Bool) : Key :=
  let tonic := (semitone + accidental) % 12
  let sharps := fifths + 7 * accidental - (if minor then 3 else 0)
  let sharps := if sharps > 7 then sharps - 12 else if sharps < -7 then sharps + 12 else sharps
  { shift := if minor then (tonic + 3) % 12 else tonic, sharps := Int8.ofInt sharps, minor }

/-- The key with a name such as `G`, `Bb` or `f#`. -/
def parse? (name : String) (minor : Bool) : Option Key := do
  let (c, accidental) ← match Text.trimChars name.toList with
    | [c] => some (c, 0)
    | [c, '#'] => some (c, 1)
    | [c, 'b'] => some (c, -1)
    | _ => none
  let (semitone, fifths) ← letter? c.toUpper
  return ofTonic semitone fifths accidental minor

end Key

end Jianpu
