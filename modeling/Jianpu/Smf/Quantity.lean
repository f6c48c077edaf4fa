/-!
# Numbers in a MIDI file

Numbers of a fixed number of bytes, the most significant first, and quantities of variable length:
up to four bytes of seven bits each, where the top bit says that another byte follows.
-/

namespace Jianpu.Smf

/-- A number in `width` bytes, the most significant first. -/
def bigEndian : Nat → Nat → List UInt8
  | 0, _ => []
  | width + 1, n => UInt8.ofNat (n >>> (8 * width)) :: bigEndian width n

/-- The number of some bytes, the most significant first. -/
def ofBigEndian (bs : List UInt8) : Nat := bs.foldl (fun n b => 256 * n + b.toNat) 0

/-- The number of some bytes, the least significant first. -/
def ofLittleEndian (bs : List UInt8) : Nat := ofBigEndian bs.reverse

@[simp] theorem length_bigEndian (width n : Nat) : (bigEndian width n).length = width := by
  induction width with
  | zero => rfl
  | succ width ih => simp [bigEndian, ih]

namespace Quantity

/-- The largest quantity. -/
def largest : Nat := 0x0FFFFFFF

/-- Seven bits of a quantity, with another byte to follow. -/
def more (n : Nat) : UInt8 := UInt8.ofNat (n % 128 + 128)

/-- The last seven bits of a quantity. -/
def last (n : Nat) : UInt8 := UInt8.ofNat (n % 128)

/-- The bytes of a quantity, as few as possible. -/
def encode (n : Nat) : List UInt8 :=
  if n < 0x80 then [last n]
  else if n < 0x4000 then [more (n / 0x80), last n]
  else if n < 0x200000 then [more (n / 0x4000), more (n / 0x80), last n]
  else [more (n / 0x200000), more (n / 0x4000), more (n / 0x80), last n]

/-- Reads at most `k` bytes of a quantity whose bits so far are `value`. -/
def decodeFrom : Nat → Nat → List UInt8 → Nat × List UInt8
  | 0, value, bs => (value, bs)
  | _ + 1, value, [] => (value, [])
  | k + 1, value, b :: bs =>
    let value := 128 * value + b.toNat % 128
    if b.toNat < 128 then (value, bs) else decodeFrom k value bs

/-- The quantity at the start of some bytes, and the bytes after it. It ends after four bytes, or
with the bytes. -/
def decode (bs : List UInt8) : Nat × List UInt8 := decodeFrom 4 0 bs

theorem length_decodeFrom_le (k value : Nat) (bs : List UInt8) :
    (decodeFrom k value bs).2.length ≤ bs.length := by
  induction k generalizing value bs with
  | zero => simp [decodeFrom]
  | succ k ih =>
    cases bs with
    | nil => simp [decodeFrom]
    | cons b bs =>
      unfold decodeFrom
      dsimp only
      split
      · exact Nat.le_succ _
      · exact Nat.le_succ_of_le (ih ..)

theorem length_decode_le (bs : List UInt8) : (decode bs).2.length ≤ bs.length :=
  length_decodeFrom_le ..

end Quantity

end Jianpu.Smf
