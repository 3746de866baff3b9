/-!
Decimals `digits · 10^exponent`, and the digits of natural numbers as text.
-/
namespace Reckon

structure Decimal where
  digits : Nat
  exponent : Int
  deriving DecidableEq, Repr

namespace Decimal

def tenTo (e : Int) : Rat := (10 : Rat) ^ e

def value (d : Decimal) : Rat := d.digits * tenTo d.exponent

def strip (digits : Nat) (exponent : Int) : Decimal :=
  if digits = 0 then ⟨0, 0⟩
  else if digits % 10 = 0 then strip (digits / 10) (exponent + 1)
  else ⟨digits, exponent⟩
termination_by digits

def digitCount (n : Nat) : Nat := (Nat.toDigits 10 n).length

/-- The exponent `k` with `10^(k-1) ≤ v < 10^k`, for positive `v`. Below one it is found on the
reciprocal. -/
def scale (v : Rat) : Int :=
  if 1 ≤ v then digitCount v.floor.toNat
  else 1 - (digitCount ((v.den - 1) / v.num.toNat) : Int)

def units (v : Rat) (j : Int) : Nat := (v / tenTo j).floor.toNat

def toFloat (d : Decimal) : Float :=
  Float.ofScientific d.digits (d.exponent < 0) d.exponent.natAbs

end Decimal
end Reckon
