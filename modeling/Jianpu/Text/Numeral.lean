/-!
# Numerals

Decimal numerals in directives: digits with a plus sign before them or not. A negative number has a
minus sign. A numeral beyond the range asked for is refused like one that is no numeral.
-/

namespace Jianpu.Text

/-- The value of a non-empty run of digits. -/
def digits? (cs : List Char) : Option Nat :=
  if cs ≠ [] ∧ cs.all Char.isDigit then
    some (cs.foldl (fun n c => 10 * n + (c.toNat - '0'.toNat)) 0)
  else none

/-- The numeral's value, if it is at most `max`. -/
def nat? (max : Nat) (s : String) : Option Nat :=
  let digits := match s.toList with
    | '+' :: cs => cs
    | cs => cs
  (digits? digits).filter (· ≤ max)

/-- The value of a numeral with a sign or without, if it is one of 32 bits. -/
def int32? (s : String) : Option Int :=
  let value := match s.toList with
    | '+' :: cs => (digits? cs).map Int.ofNat
    | '-' :: cs => (digits? cs).map fun n => -Int.ofNat n
    | cs => (digits? cs).map Int.ofNat
  value.filter fun n => -0x80000000 ≤ n && n < 0x80000000

end Jianpu.Text
