import Jianpu.Gzip.Huffman

/-!
# Inflating

The blocks of compressed data. A block holds bytes as they are, or symbols of two codes: bytes, and
copies of what came before, each by its length and its distance. Before the first byte there are
zeros. The codes are fixed, or stand in front of the block.
-/

namespace Jianpu.Gzip

/-- The least value of a symbol and the number of bits that are added to it. -/
abbrev Extra := Nat × Nat

/-- The lengths of copies, from symbol 257 on. -/
def copyLengths : Array Extra :=
  #[(3, 0), (4, 0), (5, 0), (6, 0), (7, 0), (8, 0), (9, 0), (10, 0), (11, 1), (13, 1), (15, 1),
    (17, 1), (19, 2), (23, 2), (27, 2), (31, 2), (35, 3), (43, 3), (51, 3), (59, 3), (67, 4),
    (83, 4), (99, 4), (115, 4), (131, 5), (163, 5), (195, 5), (227, 5), (258, 0)]

/-- The distances of copies. -/
def copyDistances : Array Extra :=
  #[(1, 0), (2, 0), (3, 0), (4, 0), (5, 1), (7, 1), (9, 2), (13, 2), (17, 3), (25, 3), (33, 4),
    (49, 4), (65, 5), (97, 5), (129, 6), (193, 6), (257, 7), (385, 7), (513, 8), (769, 8),
    (1025, 9), (1537, 9), (2049, 10), (3073, 10), (4097, 11), (6145, 11), (8193, 12), (12289, 12),
    (16385, 13), (24577, 13)]

/-- The value of a symbol with its added bits. -/
def extra? (table : Array Extra) (symbol : Nat) (b : Bits) : Option (Nat × Bits) := do
  let (base, bits) ← table[symbol]?
  let (n, b) ← b.take? bits
  return (base + n, b)

/-- The byte that stands `distance` bytes before the end; zero before the first one. -/
def byteBefore (distance : Nat) (out : Array UInt8) : UInt8 :=
  if distance ≤ out.size then out.getD (out.size - distance) 0 else 0

/-- Appends `n` bytes, each from `distance` bytes before. -/
def copy (distance : Nat) : Nat → Array UInt8 → Array UInt8
  | 0, out => out
  | n + 1, out => copy distance n (out.push (byteBefore distance out))

/-- The bytes of symbols up to the end of a block, after `out`. Every symbol takes a bit, so the
number of bits is enough for `fuel`. -/
def inflateSymbols (literals distances : Code) :
    Nat → Bits → Array UInt8 → Option (Array UInt8 × Bits)
  | 0, _, _ => none
  | fuel + 1, b, out => do
    let (symbol, b) ← literals.decode? b
    if symbol < 256 then inflateSymbols literals distances fuel b (out.push (UInt8.ofNat symbol))
    else if symbol = 256 then return (out, b)
    else
      let (length, b) ← extra? copyLengths (symbol - 257) b
      let (symbol, b) ← distances.decode? b
      let (distance, b) ← extra? copyDistances symbol b
      inflateSymbols literals distances fuel b (copy distance length out)

/-- A block of bytes as they are: their number, the same with all bits changed, and the bytes. -/
def inflateStored (b : Bits) (out : Array UInt8) : Option (Array UInt8 × Bits) := do
  let (n, b) ← b.align.take? 16
  let (m, b) ← b.take? 16
  if n + m ≠ 0xFFFF then none
  else
    let (bytes, b) ← b.takeBytes? n
    return (out ++ bytes, b)

/-- The lengths of the fixed code for bytes and lengths. -/
def fixedLiterals : List Nat :=
  List.replicate 144 8 ++ List.replicate 112 9 ++ List.replicate 24 7 ++ List.replicate 8 8

/-- The lengths of the fixed code for distances. -/
def fixedDistances : List Nat := List.replicate 32 5

/-- The order in which the lengths of the code for lengths are given. -/
def lengthOrder : List Nat := [16, 17, 18, 0, 8, 7, 9, 6, 10, 5, 11, 4, 12, 3, 13, 2, 14, 1, 15]

/-- A number of three-bit lengths. -/
def takeLengths? : Nat → Bits → Option (List Nat × Bits)
  | 0, b => some ([], b)
  | n + 1, b => do
    let (l, b) ← b.take? 3
    let (ls, b) ← takeLengths? n b
    return (l :: ls, b)

/-- Reads `count` lengths in all, after those in `lengths`. A run of lengths is given by its
number. -/
def inflateLengths (code : Code) (count : Nat) :
    Nat → Bits → List Nat → Option (List Nat × Bits)
  | 0, _, _ => none
  | fuel + 1, b, lengths => do
    if lengths.length = count then return (lengths, b)
    else if count < lengths.length then none
    else
      let (symbol, b) ← code.decode? b
      if symbol < 16 then inflateLengths code count fuel b (lengths ++ [symbol])
      else
        let (value, base, bits) ←
          if symbol = 16 then lengths.getLast?.map (·, 3, 2)
          else if symbol = 17 then some (0, 3, 3)
          else some (0, 11, 7)
        let (n, b) ← b.take? bits
        inflateLengths code count fuel b (lengths ++ List.replicate (base + n) value)

/-- The two codes in front of a block. Neither has lengths for symbols that stand for nothing. -/
def inflateCodes (b : Bits) : Option (Code × Code × Bits) := do
  let (literals, b) ← b.take? 5
  let (distances, b) ← b.take? 5
  let (lengths, b) ← b.take? 4
  let literals := literals + 257
  let distances := distances + 1
  if 257 + copyLengths.size < literals ∨ copyDistances.size < distances then none
  else
    let (given, b) ← takeLengths? (lengths + 4) b
    let table := lengthOrder.zip given
    let code ← Code.ofLengths? ((List.range 19).map fun i => (table.lookup i).getD 0)
    let count := literals + distances
    let (all, b) ← inflateLengths code count (count + 1) b []
    return (← Code.ofLengths? (all.take literals), ← Code.ofLengths? (all.drop literals), b)

/-- A block by its kind, after `out`. -/
def inflateBlock (kind : Nat) (b : Bits) (out : Array UInt8) : Option (Array UInt8 × Bits) := do
  let fuel := 8 * b.bytes.size + 1
  match kind with
  | 0 => inflateStored b out
  | 1 =>
    inflateSymbols (← Code.ofLengths? fixedLiterals) (← Code.ofLengths? fixedDistances) fuel b out
  | 2 =>
    let (literals, distances, b) ← inflateCodes b
    inflateSymbols literals distances fuel b out
  | _ => none

/-- The blocks up to the last one, after `out`. -/
def inflateBlocks : Nat → Bits → Array UInt8 → Option (Array UInt8 × Bits)
  | 0, _, _ => none
  | fuel + 1, b, out => do
    let (final, b) ← b.take? 1
    let (kind, b) ← b.take? 2
    let (out, b) ← inflateBlock kind b out
    if final = 1 then return (out, b) else inflateBlocks fuel b out

/-- The bytes of compressed data, and the bits after it. Every block takes a bit. -/
def inflate (b : Bits) : Option (Array UInt8 × Bits) :=
  inflateBlocks (8 * b.bytes.size + 1) b #[]

end Jianpu.Gzip
