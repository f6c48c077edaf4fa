/-!
# Base sixteen

Digits of base sixteen, in lower case, and bytes as two of them.
-/

namespace Jianpu.Text

/-- A digit of base sixteen. -/
def hexDigit (n : Nat) : Char :=
  if n < 10 then Char.ofNat ('0'.toNat + n) else Char.ofNat ('a'.toNat + (n - 10))

/-- A number below 256, in two digits. -/
def hexByte (n : Nat) : List Char := [hexDigit (n / 16), hexDigit (n % 16)]

end Jianpu.Text
