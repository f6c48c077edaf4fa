import Jianpu.Gzip.Inflate

/-!
# Gzip members

A header, compressed data, and the check sum and number of the bytes that it holds. What follows the
first member of a file is not looked at.
-/

namespace Jianpu.Gzip

/-- The check sum with one more bit taken in. -/
def crcBit (crc : UInt32) : UInt32 :=
  if crc % 2 = 1 then (crc >>> 1) ^^^ 0xEDB88320 else crc >>> 1

/-- The check sum with one more byte taken in. -/
def crcByte (crc : UInt32) (b : UInt8) : UInt32 :=
  Nat.repeat crcBit 8 (crc ^^^ b.toUInt32)

/-- The check sum of some bytes. -/
def crc32 (bytes : Array UInt8) : UInt32 := bytes.foldl crcByte 0xFFFFFFFF ^^^ 0xFFFFFFFF

/-- The longest text in a header. -/
def longestText : Nat := 65535

/-- Skips a text that ends with a zero byte, after at most `room` others. -/
def skipTextFrom (room : Nat) : List UInt8 → Option (List UInt8)
  | [] => none
  | b :: bs => if b = 0 then some bs else if room = 0 then none else skipTextFrom (room - 1) bs

/-- Skips a text that ends with a zero byte. -/
def skipText (bs : List UInt8) : Option (List UInt8) := skipTextFrom longestText bs

/-- Skips a field with its length, of two bytes, before it. -/
def skipField : List UInt8 → Option (List UInt8)
  | a :: b :: bs =>
    let n := a.toNat + 256 * b.toNat
    if n ≤ bs.length then some (bs.drop n) else none
  | _ => none

/-- Skips the header of a member. Its own check sum, if it has one, must be right. -/
def skipHeader (bs : List UInt8) : Option (List UInt8) := do
  match bs with
  | 0x1F :: 0x8B :: 8 :: flags :: _ :: _ :: _ :: _ :: _ :: _ :: rest =>
    let has (n : Nat) : Bool := flags.toNat.testBit n
    if flags ≥ 0x20 then none
    else
      let rest ← if has 2 then skipField rest else some rest
      let rest ← if has 3 then skipText rest else some rest
      let rest ← if has 4 then skipText rest else some rest
      if has 1 then
        match rest with
        | a :: b :: body =>
          let crc := crc32 (bs.take (bs.length - rest.length)).toArray
          if a.toNat + 256 * b.toNat = crc.toNat % 0x10000 then some body else none
        | _ => none
      else some rest
  | _ => none

/-- Whether some bytes start like a member. -/
def isMember : List UInt8 → Bool
  | 0x1F :: 0x8B :: _ => true
  | _ => false

/-- The bytes that the first member holds, if it is complete and its sums are right. -/
def decompress (bs : List UInt8) : Option (List UInt8) := do
  let (out, b) ← inflate { bytes := (← skipHeader bs).toArray }
  let (crc, b) ← b.align.take? 32
  let (size, _) ← b.take? 32
  if crc = (crc32 out).toNat ∧ size = out.size % 0x100000000 then some out.toList else none

end Jianpu.Gzip
