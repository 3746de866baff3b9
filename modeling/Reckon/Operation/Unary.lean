import Reckon.Operation.Direct
import Reckon.Shape

/-!
The prefix and postfix operators on values that are no arrays, and the parts of numbers.
-/
namespace Reckon.Operation

def unsupported (op : Operation) (x : Value) : Outcome Value :=
  throw (.unsupportedBy op.name [x])

def negate : Value → Outcome Value
  | .number x => return .number (-x)
  | .exact q => return .exact (-q)
  | .complex z => return .complex (-z)
  | .quantity q => return .quantity (q.withSi (-q.si))
  | .boolean b => return .number (-(Value.ofBool b))
  | v => unaryMinus.unsupported v

/-- Nothing changes but truth values, which become numbers. -/
def plus : Value → Outcome Value
  | .number x => return .number x
  | .exact q => return .exact q
  | .complex z => return .complex z
  | .quantity q => return .quantity q
  | .boolean b => return .number (Value.ofBool b)
  | v => unaryPlus.unsupported v

def negation : Value → Outcome Value
  | .number x => return .boolean !(Rule.truth x)
  | .exact q => return .boolean (q = 0)
  | .complex z => return .boolean z.isZero
  | .quantity q => return .boolean !(Rule.truth q.si)
  | .boolean b => return .boolean !b
  | v => not.unsupported v

/-- Beyond this the factorial of a number is infinite. -/
def maxNumberFactorial : Nat := 170

/-- Beyond this the factorial of an exact number is refused. -/
def maxExactFactorial : Nat := 10000

/-- The product from one up to `n`, rounded at each step. -/
def floatFactorial (n : Nat) : Float :=
  (List.range n).foldl (fun product k => product * Float.ofNat (k + 1)) 1

def product (first : Nat) : (count : Nat) → Nat
  | 0 => 1
  | count + 1 => first * product (first + 1) count

def numberFactorial (x : Float) : Outcome Value :=
  match Binary64.safeNat? x with
  | some n =>
    if n > maxNumberFactorial then return .number (1 / 0)
    else return .number (floatFactorial n)
  | none => throw (.invalid factorial.name .notNatural)

def factorialOf : Value → Outcome Value
  | .number x => numberFactorial x
  | .boolean b => numberFactorial (Value.ofBool b)
  | .exact q =>
    if q.den ≠ 1 ∨ q.num < 0 then throw (.invalid factorial.name .notNatural)
    else if q.num.toNat > maxExactFactorial then throw (.invalid factorial.name .tooLarge)
    else return .exact (product 1 q.num.toNat : Nat)
  | v => factorial.unsupported v

def magnitude : Value → Outcome Value
  | .number x => return .number x.abs
  | .exact q => return .exact (if q < 0 then -q else q)
  | .complex z => return .number z.norm
  | .quantity q => return .quantity (q.withSi q.si.abs)
  | .boolean b => return .number (Value.ofBool b)
  | v => abs.unsupported v

/-- Real kinds are their own real part. -/
def realPart : Value → Outcome Value
  | .complex z => return .number z.re
  | .number x => return .number x
  | .exact q => return .exact q
  | .boolean b => return .number (Value.ofBool b)
  | v => re.unsupported v

def imaginaryPart : Value → Outcome Value
  | .complex z => return .number z.im
  | .number _ => return .number 0
  | .boolean _ => return .number 0
  | .exact _ => return .exact 0
  | v => im.unsupported v

def conjugate : Value → Outcome Value
  | .complex z => return .complex z.conj
  | .number x => return .number x
  | .exact q => return .exact q
  | .boolean b => return .number (Value.ofBool b)
  | v => conj.unsupported v

end Reckon.Operation
