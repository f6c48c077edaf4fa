/-!
# Doubles

The numbers in which durations are worked out: binary fractions of 53 significant bits, an infinity
of either sign for what is too large, and one value that is no number. An operation gives the double
nearest to the exact result, and of two that are as near, the even one. Zero has no sign here, since
no duration is divided by a negative number.
-/

namespace Jianpu

/-- A number in double precision. -/
inductive Double where
  | nan
  | infinite (negative : Bool)
  | finite (value : Rat)
  deriving DecidableEq, Repr, Inhabited

namespace Double

/-- A quotient rounded to a whole number, halves to the even one. -/
def roundEven (a b : Nat) : Nat :=
  let q := a / b
  let r := a % b
  if 2 * r < b ∨ 2 * r = b ∧ q % 2 = 0 then q else q + 1

/-- The exponent of the largest power of two that is not above a positive quotient. -/
def exponent (a b : Nat) : Int :=
  let e : Int := a.log2 - b.log2
  if b <<< e.toNat ≤ a <<< (-e).toNat then e else e - 1

/-- The exponent of the last bit that a positive quotient keeps. Bits below the smallest double are
not kept. -/
def lastBit (a b : Nat) : Int := max (exponent a b - 52) (-1074)

/-- The double nearest to a quotient, with a sign. -/
def ofQuotient (negative : Bool) (a b : Nat) : Double :=
  if a = 0 then finite 0
  else
    let e := lastBit a b
    let m := roundEven (a <<< (-e).toNat) (b <<< e.toNat)
    let value : Rat := mkRat (m <<< e.toNat) (1 <<< (-e).toNat)
    if 1 <<< (1024 + (-e).toNat) ≤ m <<< e.toNat then infinite negative
    else finite (if negative then -value else value)

/-- The double nearest to a number. -/
def ofRat (q : Rat) : Double := ofQuotient (q < 0) q.num.natAbs q.den

/-- The double nearest to a natural number. -/
def ofNat (n : Nat) : Double := ofQuotient false n 1

/-- The product. -/
def mul : Double → Double → Double
  | finite a, finite b => ofRat (a * b)
  | infinite s, infinite t => infinite (s != t)
  | infinite s, finite a | finite a, infinite s => if a = 0 then nan else infinite (s != (a < 0))
  | _, _ => nan

/-- The quotient. What is divided by zero keeps its sign. -/
def div : Double → Double → Double
  | finite a, finite b =>
    if b ≠ 0 then ofRat (a / b) else if a = 0 then nan else infinite (a < 0)
  | infinite s, finite a => infinite (s != (a < 0))
  | finite _, infinite _ => finite 0
  | _, _ => nan

/-- The number less one. -/
def pred : Double → Double
  | finite a => ofRat (a - 1)
  | d => d

/-- A power of two. One with a negative exponent is the reciprocal, so it is zero where that
overflows. -/
def powerOfTwo (e : Int) : Double :=
  if 1024 ≤ e then infinite false
  else if e ≤ -1024 then finite 0
  else if 0 ≤ e then finite (1 <<< e.toNat)
  else finite (mkRat 1 (1 <<< (-e).toNat))

/-- A number rounded to a whole one, halves away from zero, and brought into a range. What is no
number is taken for zero, whatever the range. -/
def clamp (low high : Nat) : Double → Nat
  | nan => 0
  | infinite negative => if negative then low else high
  | finite a => max low (min high (a + 1 / 2).floor.toNat)

end Double

end Jianpu
