import Reckon.Root
import Reckon.Decimal.Layout

/-!
Complex numbers with doubles as parts, their elementary functions, and the way expressions write
them.
-/
namespace Reckon

structure Complex where
  re : Float
  im : Float

namespace Complex

/-- Places behind the point that fix the rounding of a root whatever follows them. -/
def guardPlaces : Nat := 64

/-- The length of the hypotenuse over two legs, rounded once. The last digit of the scaled root
tells whether it is exact. -/
def hypot (x y : Float) : Float :=
  match Binary64.ofFloat x, Binary64.ofFloat y with
  | .infinite _, _ | _, .infinite _ => 1 / 0
  | .nan, _ | _, .nan => 0 / 0
  | .finite _ m d, .finite _ n e =>
    let low := min d e
    let a := Nat.shiftLeft m (d - low).toNat
    let b := Nat.shiftLeft n (e - low).toNat
    let square := Nat.shiftLeft (a * a + b * b) (2 * guardPlaces)
    let root := Root.floor square
    let sticky := if root * root = square then 0 else 1
    Binary64.nearest false (2 * root + sticky) (low - (guardPlaces + 1 : Nat))

def ofReal (x : Float) : Complex := ⟨x, 0⟩

def i : Complex := ⟨0, 1⟩

/-- Equality of the parts, so no number with a part that is no number equals itself. -/
protected def beq (z w : Complex) : Bool := z.re == w.re && z.im == w.im

instance : BEq Complex := ⟨Complex.beq⟩

def isZero (z : Complex) : Bool := z.re == 0 && z.im == 0

protected def neg (z : Complex) : Complex := ⟨-z.re, -z.im⟩
protected def add (z w : Complex) : Complex := ⟨z.re + w.re, z.im + w.im⟩
protected def sub (z w : Complex) : Complex := ⟨z.re - w.re, z.im - w.im⟩
protected def mul (z w : Complex) : Complex :=
  ⟨z.re * w.re - z.im * w.im, z.re * w.im + z.im * w.re⟩
protected def div (z w : Complex) : Complex :=
  let n := w.re * w.re + w.im * w.im
  ⟨(z.re * w.re + z.im * w.im) / n, (z.im * w.re - z.re * w.im) / n⟩

instance : Neg Complex := ⟨Complex.neg⟩
instance : Add Complex := ⟨Complex.add⟩
instance : Sub Complex := ⟨Complex.sub⟩
instance : Mul Complex := ⟨Complex.mul⟩
instance : Div Complex := ⟨Complex.div⟩

def conj (z : Complex) : Complex := ⟨z.re, -z.im⟩

def inverse (z : Complex) : Complex :=
  let n := z.re * z.re + z.im * z.im
  ⟨z.re / n, -z.im / n⟩

def norm (z : Complex) : Float := hypot z.re z.im

def arg (z : Complex) : Float := Float.atan2 z.im z.re

def ofPolar (r angle : Float) : Complex := ⟨r * angle.cos, r * angle.sin⟩

def ln (z : Complex) : Complex := ⟨z.norm.log, z.arg⟩

/-- The limits at infinite real parts are taken where a product of an infinity and a zero would
be no number. -/
def exp (z : Complex) : Complex :=
  if z.re.isInf && z.re < 0 && !z.im.isFinite then ⟨0, 0⟩
  else if z.re.isInf && z.re > 0 && (z.im == 0 || !z.im.isFinite) then
    ⟨z.re, if z.im.isInf then 0 / 0 else z.im⟩
  else if z.re.isNaN && z.im == 0 then z
  else ofPolar z.re.exp z.im

def hasSign (x : Float) : Bool :=
  match Binary64.ofFloat x with
  | .finite negative _ _ => negative
  | .infinite negative => negative
  | .nan => false

/-- The principal root. The sign of a zero imaginary part chooses the side of the cut. -/
def sqrt (z : Complex) : Complex :=
  if z.im == 0 then
    if hasSign z.re then
      let y := (-z.re).sqrt
      ⟨0, if hasSign z.im then -y else y⟩
    else ⟨z.re.sqrt, z.im⟩
  else if z.re == 0 then
    let x := (z.im.abs / 2).sqrt
    ⟨x, if hasSign z.im then -x else x⟩
  else ofPolar z.norm.sqrt (z.arg / 2)

def sin (z : Complex) : Complex := ⟨z.re.sin * z.im.cosh, z.re.cos * z.im.sinh⟩

def cos (z : Complex) : Complex := ⟨z.re.cos * z.im.cosh, -z.re.sin * z.im.sinh⟩

def tan (z : Complex) : Complex :=
  let a := z.re + z.re
  let b := z.im + z.im
  let n := a.cos + b.cosh
  ⟨a.sin / n, b.sinh / n⟩

def powComplex (z w : Complex) : Complex := if w.isZero then ⟨1, 0⟩ else exp (w * z.ln)

/-- Takes the factors two out of `n` by squaring the base. -/
def oddPart (base : Complex) (n : Nat) : Complex × Nat :=
  if n ≠ 0 ∧ n % 2 = 0 then oddPart (base * base) (n / 2) else (base, n)
termination_by n

/-- Multiplies `acc` by the powers of the base that the digits of `n` above the lowest ask for. -/
def powLoop (acc base : Complex) (n : Nat) : Complex :=
  if 1 < n then
    let square := base * base
    powLoop (if n / 2 % 2 = 1 then acc * square else acc) square (n / 2)
  else acc
termination_by n

def powNat (z : Complex) (n : Nat) : Complex :=
  if n = 0 then ⟨1, 0⟩
  else
    let (base, odd) := oddPart z n
    powLoop base base odd

def powInt (z : Complex) (n : Int) : Complex :=
  if n < 0 then powNat z.inverse n.natAbs else powNat z n.natAbs

def renderImaginary (y : Float) : String :=
  if y == 1 then "i" else if y == -1 then "-i" else Binary64.render y ++ "i"

/-- A part that is zero is left out unless both are. -/
def render (z : Complex) : String :=
  if z.isZero then "0"
  else if z.im == 0 then Binary64.render z.re
  else if z.re == 0 then renderImaginary z.im
  else if z.im > 0 then Binary64.render z.re ++ " + " ++ renderImaginary z.im
  else Binary64.render z.re ++ " - " ++ renderImaginary (-z.im)

end Complex
end Reckon
