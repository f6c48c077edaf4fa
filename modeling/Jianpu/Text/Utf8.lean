/-!
# UTF-8

Bytes as text. Reading takes one character at a time, or else the longest run of bytes that starts
like a character and does not go on like one. A strict reader refuses such a run; a lenient one puts
the replacement character in its place.
-/

namespace Jianpu.Utf8

/-- The bytes of a text. -/
def encode (s : String) : List UInt8 := s.toList.flatMap String.utf8EncodeChar

/-- What the first byte of a longer character says: how many bytes follow, the least and the
greatest value of the first of them, and the bits of the character that it holds. -/
def lead? (b : UInt8) : Option (Nat × UInt8 × UInt8 × Nat) :=
  if 0xC2 ≤ b ∧ b ≤ 0xDF then some (1, 0x80, 0xBF, b.toNat - 0xC0)
  else if b = 0xE0 then some (2, 0xA0, 0xBF, 0)
  else if b = 0xED then some (2, 0x80, 0x9F, 0xD)
  else if 0xE1 ≤ b ∧ b ≤ 0xEF then some (2, 0x80, 0xBF, b.toNat - 0xE0)
  else if b = 0xF0 then some (3, 0x90, 0xBF, 0)
  else if 0xF1 ≤ b ∧ b ≤ 0xF3 then some (3, 0x80, 0xBF, b.toNat - 0xF0)
  else if b = 0xF4 then some (3, 0x80, 0x8F, 4)
  else none

/-- Takes the bytes that follow the first one of a character: its value, unless one is missing or
out of range, and the bytes after those that fit. -/
def trail : Nat → UInt8 → UInt8 → Nat → List UInt8 → Option Nat × List UInt8
  | 0, _, _, value, bs => (some value, bs)
  | _ + 1, _, _, _, [] => (none, [])
  | n + 1, lo, hi, value, b :: bs =>
    if lo ≤ b ∧ b ≤ hi then trail n 0x80 0xBF (64 * value + (b.toNat - 0x80)) bs
    else (none, b :: bs)

theorem length_trail_le (n : Nat) (lo hi : UInt8) (value : Nat) (bs : List UInt8) :
    (trail n lo hi value bs).2.length ≤ bs.length := by
  induction n generalizing lo hi value bs with
  | zero => exact Nat.le_refl _
  | succ n ih =>
    cases bs with
    | nil => exact Nat.le_refl _
    | cons b bs =>
      unfold trail
      split
      · exact Nat.le_succ_of_le (ih ..)
      · exact Nat.le_refl _

/-- The character that a byte starts, if the bytes after it fit, and the bytes left. -/
def next (b : UInt8) (bs : List UInt8) : Option Char × List UInt8 :=
  if b < 0x80 then (some (Char.ofNat b.toNat), bs)
  else
    match lead? b with
    | none => (none, bs)
    | some (n, lo, hi, value) =>
      let r := trail n lo hi value bs
      (r.1.map Char.ofNat, r.2)

theorem length_next_le (b : UInt8) (bs : List UInt8) : (next b bs).2.length ≤ bs.length := by
  unfold next
  split
  · exact Nat.le_refl _
  · split
    · exact Nat.le_refl _
    · exact length_trail_le ..

/-- The characters of bytes, with `none` for each run of bytes that is no character. -/
def chars : List UInt8 → List (Option Char)
  | [] => []
  | b :: bs =>
    have := length_next_le b bs
    (next b bs).1 :: chars (next b bs).2
termination_by bs => bs.length

/-- The text of bytes, if all of them are text. -/
def decode? (bs : List UInt8) : Option String :=
  ((chars bs).mapM id).map String.ofList

/-- The text of bytes, with the replacement character for what is no text. -/
def decodeLossy (bs : List UInt8) : String :=
  String.ofList ((chars bs).map (·.getD '�'))

end Jianpu.Utf8
