import Jianpu.Smf.Quantity

/-!
# Chunks

A MIDI file, like a RIFF file, is a row of chunks: four characters that say what the chunk is, the
number of its bytes, and the bytes.
-/

namespace Jianpu.Smf

/-- The characters `MThd`, of a header. -/
def headerId : List UInt8 := [0x4D, 0x54, 0x68, 0x64]

/-- The characters `MTrk`, of a track. -/
def trackId : List UInt8 := [0x4D, 0x54, 0x72, 0x6B]

/-- The characters `RIFF`. -/
def riffId : List UInt8 := [0x52, 0x49, 0x46, 0x46]

/-- The characters `RMID`. -/
def rmidId : List UInt8 := [0x52, 0x4D, 0x49, 0x44]

/-- The characters `data`. -/
def dataId : List UInt8 := [0x64, 0x61, 0x74, 0x61]

/-- The bytes of a chunk. -/
def chunk (id data : List UInt8) : List UInt8 := id ++ bigEndian 4 data.length ++ data

/-- A chunk that was read, and the bytes after it. -/
structure Chunk where
  id : List UInt8
  data : List UInt8
  rest : List UInt8
  deriving DecidableEq, Repr, Inhabited

namespace Chunk

/-- The chunk at the start of some bytes, by a reading of its length. A chunk that is cut off ends
with the bytes; there is none if even its length is cut off. -/
def read? (ofLength : List UInt8 → Nat) : List UInt8 → Option Chunk
  | i₁ :: i₂ :: i₃ :: i₄ :: n₁ :: n₂ :: n₃ :: n₄ :: rest =>
    let n := ofLength [n₁, n₂, n₃, n₄]
    some ⟨[i₁, i₂, i₃, i₄], rest.take n, rest.drop n⟩
  | _ => none

theorem length_rest_lt {ofLength : List UInt8 → Nat} {bs : List UInt8} {c : Chunk}
    (h : read? ofLength bs = some c) : c.rest.length < bs.length := by
  unfold read? at h
  split at h
  · cases h
    simp only [List.length_drop, List.length_cons]
    omega
  · cases h

end Chunk

end Jianpu.Smf
