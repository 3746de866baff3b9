import Reckon.Root
import Reckon.Decimal.Layout
import Reckon.Decimal.Numeral

/-!
Exact numbers, the rationals: reading and writing them as decimals, conversion to and from doubles,
powers, roots and rounding.
-/
namespace Reckon.Exact

/-- The largest power of ten, up or down, that a decimal text may carry. -/
def maxScale : Nat := 4096

/-- How many digits behind the point are written before a fraction is cut off. -/
def shownPlaces : Nat := 20

def minInt64 : Int := -0x8000000000000000
def maxInt64 : Int := 0x7fffffffffffffff

def isInt64 (n : Int) : Bool := minInt64 ≤ n && n ≤ maxInt64

inductive Unread where
  | refused
  /-- The scale is the least integer of 64 bits, whose absolute value is none of 64 bits. -/
  | overflow
  deriving DecidableEq, Repr

/-- Lets a numeral pass whose exponent and scale are in bounds. The scale is checked to have 64 bits,
but its absolute value is not: there the integers can run over. -/
def bounded (n : Numeral) : Except Unread Numeral :=
  if !isInt64 n.exponent || !isInt64 n.scale then throw .refused
  else if !isInt64 n.scale.natAbs then throw .overflow
  else if n.scale.natAbs > maxScale then throw .refused
  else return n

def numeral (text : String) : Except Unread Numeral :=
  match Numeral.read? (Text.trim text.toList) with
  | some n => bounded n
  | none => throw .refused

def factor (n : Numeral) : Nat := Nat.pow 10 n.scale.natAbs

def place (n : Numeral) : Rat :=
  let magnitude : Rat :=
    if 0 ≤ n.scale then (n.digits * factor n : Nat) else mkRat n.digits (factor n)
  if n.negative then -magnitude else magnitude

def read (text : String) : Except Unread Rat := (numeral text).map place

/-- The number that the shortest decimal of a finite double denotes, so that `0.1` is a tenth. -/
def ofFloat? (x : Float) : Option Rat :=
  match Binary64.ofFloat x with
  | .finite negative m e =>
    let magnitude := (Binary64.decimal m e).value
    some (if negative then -magnitude else magnitude)
  | _ => none

/-- The double nearest to a natural number. One with more than 1024 binary digits is infinite, and
is not rounded first to find that out. -/
def natToFloat (n : Nat) : Float := if n.log2 < 1024 then Float.ofNat n else 1 / 0

def intToFloat (n : Int) : Float :=
  if n < 0 then -natToFloat n.natAbs else natToFloat n.natAbs

/-- The quotient of the doubles nearest to numerator and denominator. -/
def toFloat (q : Rat) : Float := intToFloat q.num / natToFloat q.den

def toInt64? (q : Rat) : Option Int :=
  if q.den = 1 ∧ isInt64 q.num then some q.num else none

/-- Integer powers. Zero has no negative ones, and exponents are limited to 32 bits. -/
def power? (q : Rat) (n : Int) : Option Rat :=
  if n.natAbs ≥ 0x100000000 then none
  else if 0 ≤ n then some (q ^ n.natAbs)
  else if q = 0 then none
  else some (q ^ n.natAbs)⁻¹

def bitLength (n : Nat) : Nat := if n = 0 then 0 else n.log2 + 1

def bits (q : Rat) : Nat := bitLength q.num.natAbs + bitLength q.den

def root? (q : Rat) : Option Rat :=
  match Root.perfect? q.num.natAbs, Root.perfect? q.den with
  | some n, some d => some (mkRat n d)
  | _, _ => none

/-- The nearest integer, a half away from zero. -/
def round (q : Rat) : Rat :=
  let n := (2 * q.num.natAbs + q.den) / (2 * q.den)
  if q.num < 0 then ((-n : Int) : Rat) else (n : Rat)

/-- The digit of a place; there is none above nine. -/
def digit (n : Nat) : Char := if n < 10 then Nat.digitChar n else '0'

/-- Long division of what is left over, a digit at a time, until nothing is left or all places are
written. -/
def longDivision (den : Nat) : Nat → Nat → List Char
  | 0, _ => []
  | places + 1, rest =>
    if rest = 0 then []
    else digit (rest * 10 / den) :: longDivision den places (rest * 10 % den)

def fraction (q : Rat) : List Char :=
  ((longDivision q.den shownPlaces (q.num.natAbs % q.den)).reverse.dropWhile (· == '0')).reverse

/-- A decimal, cut off behind its shown places. A number too small to show a digit is written as
its double in scientific notation. -/
def render (q : Rat) : String :=
  if q.den = 1 then toString q.num
  else
    let whole := q.num.natAbs / q.den
    match fraction q with
    | [] =>
      if whole = 0 then Binary64.renderScientific (toFloat q)
      else Binary64.signed (q.num < 0) (toString whole)
    | digits =>
      Binary64.signed (q.num < 0) (toString whole ++ "." ++ String.ofList digits)

end Reckon.Exact
