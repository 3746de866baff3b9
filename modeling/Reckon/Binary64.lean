/-!
Doubles as exact numbers: the value that a double stands for, the integers among the doubles, and
rounding to them. Nothing here depends on the arithmetic of the machine.
-/
namespace Reckon

/-- A double is no number, an infinity, or a sign with an exact magnitude `m · 2^e`. -/
inductive Binary64 where
  | nan
  | infinite (negative : Bool)
  | finite (negative : Bool) (m : Nat) (e : Int)
  deriving DecidableEq, Repr

namespace Binary64

open Float.Model in
def ofFloat (x : Float) : Binary64 :=
  match x.toModel.unpack with
  | .notANumber => nan
  | .infinity sign => infinite (sign == .negative)
  | .zero sign => finite (sign == .negative) 0 0
  | .finite sign m e _ => finite (sign == .negative) m e

/-- The double nearest to `m · 2^e`, ties to the even neighbour, with its sign. -/
def nearest (negative : Bool) (m : Nat) (e : Int) : Float :=
  let sign : Float.Model.UnpackedFloat.Sign := if negative then .negative else .positive
  if m = 0 then ⟨.pack (.zero sign)⟩ else ⟨.pack (.round .binary64 sign m e)⟩

def magnitude (m : Nat) (e : Int) : Rat := m * (2 : Rat) ^ e

def value? : Binary64 → Option Rat
  | finite negative m e => some (if negative then -magnitude m e else magnitude m e)
  | _ => none

def unit (e : Int) : Nat := Nat.pow 2 (-e).toNat

def isIntegral (m : Nat) (e : Int) : Bool := m % unit e = 0

def integer? (x : Float) : Option Int :=
  match ofFloat x with
  | finite negative m e =>
    if isIntegral m e then
      let n : Nat := m / unit e * Nat.pow 2 e.toNat
      some (if negative then -(n : Int) else n)
    else none
  | _ => none

/-- The largest integer below which every integer is a double of its own. -/
def maxSafeInteger : Nat := 0x1fffffffffffff

/-- An integer in the range where doubles tell neighbours apart. -/
def safeInteger? (x : Float) : Option Int :=
  (integer? x).filter fun n => n.natAbs ≤ maxSafeInteger

def safeNat? (x : Float) : Option Nat := (safeInteger? x).bind Int.toNat?

def int32? (x : Float) : Option Int :=
  (integer? x).filter fun n => -0x80000000 ≤ n && n ≤ 0x7fffffff

def hasFraction (x : Float) : Bool :=
  match ofFloat x with
  | finite _ m e => !isIntegral m e
  | _ => false

inductive Direction where
  | down
  | up
  | nearest
  deriving DecidableEq, Repr

/-- The integer that stands for the magnitude `m / d`. The nearest one is the larger of two that
are equally near. -/
def Direction.choose (direction : Direction) (negative : Bool) (m d : Nat) : Nat :=
  match direction, negative with
  | down, false | up, true => m / d
  | down, true | up, false => (m + d - 1) / d
  | .nearest, _ => (2 * m + d) / (2 * d)

/-- Rounds to an integer; zeros keep the sign of what they were rounded from, and doubles without
a fraction stay. -/
def roundToInteger (direction : Direction) (x : Float) : Float :=
  match ofFloat x with
  | finite negative m e =>
    if isIntegral m e then x
    else
      let n := Float.ofNat (direction.choose negative m (unit e))
      if negative then -n else n
  | _ => x

def floor : Float → Float := roundToInteger .down
def ceil : Float → Float := roundToInteger .up
def round : Float → Float := roundToInteger .nearest

end Binary64
end Reckon
