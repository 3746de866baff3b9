import Reckon.Decimal.Shortest

/-!
Rounding a double to a number of significant decimal digits, to hide the last bits of a result.
-/
namespace Reckon.Decimal

/-- `n / d` rounded to an integer, a half to the even neighbour. -/
def roundToEven (n d : Nat) : Nat :=
  let q := n / d
  let twice := 2 * (n % d)
  if twice < d then q else if twice > d then q + 1 else if q % 2 = 0 then q else q + 1

def nearestMultiple (v : Rat) (j : Int) : Decimal :=
  let scaled := v / tenTo j
  ⟨roundToEven scaled.num.toNat scaled.den, j⟩

end Reckon.Decimal

namespace Reckon.Binary64

/-- The double nearest to the exact value of `x` rounded to `digits` digits. Zero digits round
nothing. -/
def roundSignificant (x : Float) (digits : Nat) : Float :=
  match ofFloat x with
  | finite negative m e =>
    if m = 0 ∨ digits = 0 then x
    else
      let v := magnitude m e
      let rounded := (Decimal.nearestMultiple v (Decimal.scale v - digits)).toFloat
      if negative then -rounded else rounded
  | _ => x

end Reckon.Binary64
