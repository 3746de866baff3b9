import Reckon.Complex

/-!
Comparing doubles with a relative tolerance, and their orders.
-/
namespace Reckon.Tolerance

def machineEpsilon : Float := 2.220446049250313e-16

/-- The larger of two doubles; one that is no number is ignored. -/
def larger (x y : Float) : Float :=
  if x.isNaN then y else if y.isNaN then x else if x < y then y else x

/-- Two finite numbers are nearly equal if they differ by at most `epsilon` times the larger
magnitude, or by the machine epsilon near zero. Infinities equal only themselves. -/
def nearlyEqual (x y epsilon : Float) : Bool :=
  if x.isNaN || y.isNaN then false
  else if !x.isFinite || !y.isFinite then x == y
  else (x - y).abs ≤ larger machineEpsilon (epsilon * larger x.abs y.abs)

def nearlyEqualComplex (z w : Complex) (epsilon : Float) : Bool :=
  nearlyEqual z.re w.re epsilon && nearlyEqual z.im w.im epsilon

def order? (x y : Float) : Option Ordering :=
  if x < y then some .lt else if x == y then some .eq else if y < x then some .gt else none

/-- Nearly equal numbers count as equal. -/
def tolerantOrder? (x y epsilon : Float) : Option Ordering :=
  if nearlyEqual x y epsilon then some .eq else order? x y

/-- An order of all doubles: what is no number comes after every number and equals itself. -/
def totalOrder (x y : Float) : Ordering :=
  if x.isNaN then if y.isNaN then .eq else .gt
  else if y.isNaN then .lt
  else (order? x y).getD .eq

end Reckon.Tolerance
