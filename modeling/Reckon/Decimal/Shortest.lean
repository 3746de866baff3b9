import Reckon.Binary64
import Reckon.Decimal

/-!
The fewest digits that read back. The real numbers that round to a double `m · 2^e` form an
interval; the decimal chosen for it lies on the coarsest decimal grid that has a point there, and
on that grid it is the point nearest to the value, the upper one when two are equally near.
-/
namespace Reckon.Decimal

/-- The real numbers that round to `m · 2^e`; the ends belong to it when `m` is even. -/
structure Interval where
  low : Rat
  high : Rat
  closed : Bool
  deriving DecidableEq, Repr

/-- Halfway to both neighbours. Below a power of two the neighbour is nearer, except among the
smallest doubles. -/
def Interval.around (m : Nat) (e : Int) : Interval where
  low :=
    let below := if m = 0x10000000000000 ∧ e ≠ -1074 then 1 else 2
    (4 * m - below : Nat) * (2 : Rat) ^ (e - 2)
  high := (4 * m + 2 : Nat) * (2 : Rat) ^ (e - 2)
  closed := m % 2 = 0

def Interval.contains (i : Interval) (x : Rat) : Bool :=
  if i.closed then i.low ≤ x && x ≤ i.high else i.low < x && x < i.high

/-- The better of the two multiples of `10^j` around `v`, if one is in the interval. -/
def candidate? (interval : Interval) (v : Rat) (j : Int) : Option Decimal :=
  let below : Decimal := ⟨units v j, j⟩
  let above : Decimal := ⟨below.digits + 1, j⟩
  match interval.contains below.value, interval.contains above.value with
  | true, true => some (if 2 * v < below.value + above.value then below else above)
  | true, false => some below
  | false, true => some above
  | false, false => none

def exactDigits (m : Nat) (e : Int) : Decimal :=
  if 0 ≤ e then ⟨m * Nat.pow 2 e.toNat, 0⟩ else ⟨m * Nat.pow 5 (-e).toNat, e⟩

/-- The most digits that a double needs. -/
def maxDigits : Nat := 17

/-- The decimal for the positive double `m · 2^e`: grids are tried from that of the leading digit
to finer ones. -/
def shortest (m : Nat) (e : Int) : Decimal :=
  let v := Binary64.magnitude m e
  let interval := Interval.around m e
  let k := scale v
  let found := (List.range maxDigits).findSome? fun (i : Nat) => candidate? interval v (k - 1 - i)
  let d := found.getD (exactDigits m e)
  strip d.digits d.exponent

end Reckon.Decimal
