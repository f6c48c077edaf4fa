/-!
# Bits

Bytes read bit by bit, the least significant bit of each byte first.
-/

namespace Jianpu.Gzip

/-- Bytes, and the number of bits of them that have been read. -/
structure Bits where
  bytes : Array UInt8
  position : Nat := 0
  deriving Repr, Inhabited

namespace Bits

/-- The next bit, as a number. -/
def next? (b : Bits) : Option (Nat × Bits) :=
  b.bytes[b.position / 8]?.map fun byte =>
    ((byte.toNat.testBit (b.position % 8)).toNat, { b with position := b.position + 1 })

/-- A number of `n` bits, the least significant first. -/
def take? : Nat → Bits → Option (Nat × Bits)
  | 0, b => some (0, b)
  | n + 1, b => do
    let (low, b) ← b.next?
    let (high, b) ← take? n b
    return (low + 2 * high, b)

/-- Skips to the start of a byte. -/
def align (b : Bits) : Bits := { b with position := (b.position + 7) / 8 * 8 }

/-- A number of whole bytes, where a byte starts. -/
def takeBytes? (n : Nat) (b : Bits) : Option (Array UInt8 × Bits) :=
  let start := b.position / 8
  if start + n ≤ b.bytes.size then
    some (b.bytes.extract start (start + n), { b with position := b.position + 8 * n })
  else none

end Bits

end Jianpu.Gzip
