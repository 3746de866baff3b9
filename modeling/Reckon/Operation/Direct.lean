import Reckon.Fault
import Reckon.Tolerance

/-!
The direct rules of the binary operations: one function for each pair of kinds, without a result
where the operation has no rule for it.
-/
namespace Reckon.Rule

/-- The largest size in binary digits of an exact power. -/
def maxPowerBits : Nat := 0x100000

def divisionByZero (r : Rule) : Outcome Value := throw (.divisionByZero r.name)

/-- Everything but zero and what is no number is true. -/
def truth (x : Float) : Bool := x != 0 && !x.isNaN

def connect? (a b : Bool) : Rule → Option Bool
  | .and => some (a && b)
  | .or => some (a || b)
  | .xor => some (a != b)
  | _ => none

def holds? (order : Option Ordering) : Rule → Option Bool
  | .smaller => some (order.any Ordering.isLT)
  | .smallerEq => some (order.any Ordering.isLE)
  | .larger => some (order.any Ordering.isGT)
  | .largerEq => some (order.any Ordering.isGE)
  | _ => none

def agrees? (equal : Bool) : Rule → Option Bool
  | .equal => some equal
  | .unequal => some !equal
  | _ => none

def sign : Ordering → Value
  | .lt => .number (-1)
  | .eq => .number 0
  | .gt => .number 1

def boolean? (b : Option Bool) : Option (Outcome Value) := b.map fun b => .ok (.boolean b)

/-- The remainder has the sign of the divisor. -/
def floatMod (x y : Float) : Float := x - y * Binary64.floor (x / y)

/-- A negative number has a complex power where the exponent is no integer. -/
def floatPow (x y : Float) : Value :=
  if x < 0 && Binary64.hasFraction y then
    .complex ((Complex.ofReal x).powComplex (Complex.ofReal y))
  else .number (x.pow y)

def numbers (x y : Float) (s : Settings) (r : Rule) : Option (Outcome Value) :=
  match r with
  | .add => some (.ok (.number (x + y)))
  | .subtract => some (.ok (.number (x - y)))
  | .multiply => some (.ok (.number (x * y)))
  | .divide => some (if y == 0 then r.divisionByZero else .ok (.number (x / y)))
  | .mod => some (if y == 0 then r.divisionByZero else .ok (.number (floatMod x y)))
  | .pow => some (.ok (floatPow x y))
  | .equal | .unequal => boolean? (r.agrees? (Tolerance.nearlyEqual x y s.epsilon))
  | .smaller | .smallerEq | .larger | .largerEq =>
    boolean? (r.holds? (Tolerance.tolerantOrder? x y s.epsilon))
  | .compare =>
    some (.ok (sign
      (if Tolerance.nearlyEqual x y s.epsilon then .eq else Tolerance.totalOrder x y)))
  | .and | .or | .xor => boolean? (r.connect? (truth x) (truth y))
  | .convert => none

/-- Integer exponents that fit 32 bits are powers by multiplication. -/
def complexPow (z w : Complex) : Complex :=
  match Binary64.int32? w.re with
  | some n => if w.im == 0 then z.powInt n else z.powComplex w
  | none => z.powComplex w

def complexes (z w : Complex) (s : Settings) (r : Rule) : Option (Outcome Value) :=
  match r with
  | .add => some (.ok (.complex (z + w)))
  | .subtract => some (.ok (.complex (z - w)))
  | .multiply => some (.ok (.complex (z * w)))
  | .divide => some (if w.isZero then r.divisionByZero else .ok (.complex (z / w)))
  | .pow => some (.ok (.complex (complexPow z w)))
  | .equal | .unequal => boolean? (r.agrees? (Tolerance.nearlyEqualComplex z w s.epsilon))
  | .and | .or | .xor => boolean? (r.connect? (!z.isZero) (!w.isZero))
  | _ => none

def exactMod (p q : Rat) : Rat := p - q * ((p / q).floor : Rat)

def exactOrder (p q : Rat) : Ordering := if p < q then .lt else if p = q then .eq else .gt

/-- Exact powers have integer exponents and a limited size; other powers have no direct rule. -/
def exactPow (p q : Rat) (r : Rule) : Option (Outcome Value) :=
  match Exact.toInt64? q with
  | none => none
  | some n =>
    if Exact.bits p * n.natAbs > maxPowerBits then none
    else
      match Exact.power? p n with
      | some v => some (.ok (.exact v))
      | none => some r.divisionByZero

def exacts (p q : Rat) (r : Rule) : Option (Outcome Value) :=
  match r with
  | .add => some (.ok (.exact (p + q)))
  | .subtract => some (.ok (.exact (p - q)))
  | .multiply => some (.ok (.exact (p * q)))
  | .divide => some (if q = 0 then r.divisionByZero else .ok (.exact (p / q)))
  | .mod => some (if q = 0 then r.divisionByZero else .ok (.exact (exactMod p q)))
  | .pow => exactPow p q r
  | .equal | .unequal => boolean? (r.agrees? (p = q))
  | .smaller | .smallerEq | .larger | .largerEq => boolean? (r.holds? (some (exactOrder p q)))
  | .compare => some (.ok (sign (exactOrder p q)))
  | .and | .or | .xor => boolean? (r.connect? (p ≠ 0) (q ≠ 0))
  | .convert => none

/-- Fails unless both quantities measure the same base. -/
def sameBase (r : Rule) (p q : Quantity) (result : Outcome Value) : Outcome Value :=
  if p.sameBase q then result else throw (.dimensions r.name (.bases p.unitName q.unitName))

/-- The target of a conversion is a bare unit. -/
def conversion (r : Rule) (p q : Quantity) : Outcome Value :=
  if q.value.isSome then throw (.invalid r.name (.targetHasValue q.render))
  else
    match p.convert? q with
    | some converted => .ok (.quantity converted)
    | none => throw (.dimensions r.name (.conversion p.unitName q.unitName))

def quantities (p q : Quantity) (s : Settings) (r : Rule) : Option (Outcome Value) :=
  match r with
  | .add => some (r.sameBase p q (.ok (.quantity (p.withSi (p.si + q.si)))))
  | .subtract => some (r.sameBase p q (.ok (.quantity (p.withSi (p.si - q.si)))))
  | .divide | .equal | .unequal | .smaller | .smallerEq | .larger | .largerEq | .compare =>
    (numbers p.si q.si s r).map (r.sameBase p q)
  | .and | .or | .xor => numbers p.si q.si s r
  | .convert => some (r.conversion p q)
  | .multiply | .mod | .pow => none

def quantityNumber (p : Quantity) (y : Float) (r : Rule) : Option (Outcome Value) :=
  match r with
  | .multiply => some (.ok (.quantity (p.withSi (p.si * y))))
  | .divide =>
    some (if y == 0 then r.divisionByZero else .ok (.quantity (p.withSi (p.si / y))))
  | _ => none

def numberQuantity (x : Float) (q : Quantity) (r : Rule) : Option (Outcome Value) :=
  match r with
  | .multiply => some (.ok (.quantity (q.withSi (x * q.si))))
  | _ => none

def texts (s t : String) (r : Rule) : Option (Outcome Value) :=
  match r with
  | .add => some (.ok (.text (s ++ t)))
  | .equal | .unequal => boolean? (r.agrees? (s = t))
  | .smaller | .smallerEq | .larger | .largerEq => boolean? (r.holds? (some (Ord.compare s t)))
  | .compare => some (.ok (sign (Ord.compare s t)))
  | _ => none

/-- Truth values without a rule of their own become numbers. -/
def booleans (a b : Bool) (r : Rule) : Option (Outcome Value) :=
  match r with
  | .equal | .unequal => boolean? (r.agrees? (a = b))
  | .and | .or | .xor => boolean? (r.connect? a b)
  | _ => none

/-- The rule for the kinds of the two operands, if there is one. Exact numbers without a rule of
their own are taken as plain numbers. -/
def direct (r : Rule) (s : Settings) : Value → Value → Option (Outcome Value)
  | .number x, .number y => numbers x y s r
  | .complex z, .complex w => complexes z w s r
  | .exact p, .exact q =>
    match exacts p q r with
    | some result => some result
    | none => numbers (Exact.toFloat p) (Exact.toFloat q) s r
  | .quantity p, .quantity q => quantities p q s r
  | .quantity p, .number y => quantityNumber p y r
  | .number x, .quantity q => numberQuantity x q r
  | .text a, .text b => texts a b r
  | .boolean a, .boolean b => booleans a b r
  | _, _ => none

end Reckon.Rule
