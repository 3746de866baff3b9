import Reckon.Decimal
import Reckon.Text.Blank

/-!
Reading decimal numerals: an optional sign, digits with at most one point among them, and
optionally `e` or `E` with an integer behind it.
-/
namespace Reckon

/-- The number `± digits · 10^(exponent - places)`, where `places` digits stood behind the
point. -/
structure Numeral where
  negative : Bool
  digits : Nat
  places : Nat
  exponent : Int
  deriving DecidableEq, Repr

namespace Numeral

def sign : List Char → Bool × List Char
  | '-' :: cs => (true, cs)
  | '+' :: cs => (false, cs)
  | cs => (false, cs)

def natural? (cs : List Char) : Option Nat :=
  if cs ≠ [] ∧ cs.all Char.isDigit then some (Nat.ofDigitChars 10 cs 0) else none

def integer? (cs : List Char) : Option Int :=
  let (negative, digits) := sign cs
  (natural? digits).map fun n => if negative then -(n : Int) else n

/-- Splits at the first character that satisfies `p`, which belongs to neither part. -/
def splitAt? (p : Char → Bool) (cs : List Char) : List Char × Option (List Char) :=
  match cs.dropWhile (fun c => !p c) with
  | [] => (cs, none)
  | _ :: rest => (cs.takeWhile (fun c => !p c), some rest)

/-- Digits around an optional point, at least one in all, and how many stood behind it. -/
def mantissa? (cs : List Char) : Option (Nat × Nat) :=
  let (whole, fraction) := splitAt? (· == '.') cs
  let places := fraction.getD []
  (natural? (whole ++ places)).map fun n => (n, places.length)

def read? (cs : List Char) : Option Numeral :=
  let (front, power) := splitAt? (fun c => c == 'e' || c == 'E') cs
  let (negative, digits) := sign front
  match mantissa? digits, power.elim (some 0) integer? with
  | some (n, places), some exponent => some ⟨negative, n, places, exponent⟩
  | _, _ => none

def scale (n : Numeral) : Int := n.exponent - n.places

def magnitude (n : Numeral) : Decimal := ⟨n.digits, n.scale⟩

def value (n : Numeral) : Rat :=
  if n.negative then -n.magnitude.value else n.magnitude.value

end Numeral

namespace Binary64

def toLower (cs : List Char) : List Char := cs.map Char.toLower

/-- The names of the doubles that no numeral writes, in any letter case and with any sign. -/
def named? (cs : List Char) : Option Float :=
  let (negative, name) := Numeral.sign cs
  let positive? :=
    if toLower name = ['n', 'a', 'n'] then some (0 / 0 : Float)
    else if toLower name = ['i', 'n', 'f'] then some (1 / 0)
    else if toLower name = ['i', 'n', 'f', 'i', 'n', 'i', 't', 'y'] then some (1 / 0)
    else none
  positive?.map fun x => if negative then -x else x

def read? (cs : List Char) : Option Float :=
  match named? cs with
  | some x => some x
  | none => (Numeral.read? cs).map fun n =>
    if n.negative then -n.magnitude.toFloat else n.magnitude.toFloat

end Binary64
end Reckon
