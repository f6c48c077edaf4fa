import Jianpu.Gzip.Bits

/-!
# Huffman codes

A code of the canonical kind is given by the length of each symbol's code word: shorter words come
before longer ones, and those of one length are in the order of their symbols. The words must fill
the code exactly, unless there is none, or only one, of a single bit.
-/

namespace Jianpu.Gzip

/-- The number of code words of each length from one on, and the symbols in the order of their
words. -/
structure Code where
  counts : List Nat
  symbols : Array Nat
  deriving Repr, Inhabited

namespace Code

/-- The longest code word. -/
def longest : Nat := 15

/-- Whether words of the given lengths, none of them zero, make a code. -/
def fits (words : List Nat) : Bool :=
  words = [] || words = [1] || words.foldl (fun n l => n + 1 <<< (longest - l)) 0 = 1 <<< longest

/-- The code of some lengths; a symbol of length zero has no word. -/
def ofLengths? (lengths : List Nat) : Option Code :=
  let widths := List.range' 1 longest
  if fits (lengths.filter (· ≠ 0)) then
    some {
      counts := widths.map fun w => lengths.countP (· = w)
      symbols := (widths.flatMap fun w =>
        (List.range lengths.length).filter fun i => lengths.getD i 0 = w).toArray }
  else none

/-- Reads a word. `code` is what was read of it, doubled; `first` the first word of the length at
hand and `index` its place among the symbols. -/
def decodeFrom (symbols : Array Nat) :
    List Nat → Nat → Nat → Nat → Bits → Option (Nat × Bits)
  | [], _, _, _, _ => none
  | n :: counts, code, first, index, b => do
    let (bit, b) ← b.next?
    let code := code + bit
    if code < first + n then return (← symbols[index + (code - first)]?, b)
    else decodeFrom symbols counts (2 * code) (2 * (first + n)) (index + n) b

/-- The symbol of the next word. -/
def decode? (c : Code) (b : Bits) : Option (Nat × Bits) := decodeFrom c.symbols c.counts 0 0 0 b

end Code

end Jianpu.Gzip
