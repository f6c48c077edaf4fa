/-!
# Pitches

A pitch is a number of semitones, with middle C at 60. Degrees of the major scale, an octave and the
shift of a key give a pitch; a pitch has a name by degree and octave. Pitches are worked out on 32
bits and wrap around.
-/

namespace Jianpu.Pitch

/-- The semitones of each degree of the major scale above the first. -/
def scale : List Int := [0, 2, 4, 5, 7, 9, 11]

/-- The names of the twelve tones. -/
def toneNames : List String := ["1", "1#", "2", "2#", "3", "4", "4#", "5", "5#", "6", "6#", "7"]

/-- The highest pitch that a note is played at. -/
def highest : Nat := 131

/-- The pitch of a degree. Degrees outside 1 to 7 are taken for the nearest. -/
def ofDegree (degree : Nat) (octave shift : Int) : Int32 :=
  .ofInt (scale.getD (min (max degree 1) 7 - 1) 0 + 12 * (octave + 1) + shift)

/-- The nearest pitch from 0 to `highest`. -/
def clamp (p : Int32) : Nat := min p.toInt.toNat highest

/-- The name of a pitch: its tone and its octave. -/
def name (p : Nat) : String :=
  toneNames.getD (p % 12) "" ++ "-" ++ Int.repr ((p / 12 : Nat) - 1 : Int)

theorem clamp_le (p : Int32) : clamp p ≤ highest := Nat.min_le_right _ _

end Jianpu.Pitch
