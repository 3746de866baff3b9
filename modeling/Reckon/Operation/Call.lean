import Reckon.Operation.Elementary
import Reckon.Operation.Conversion

/-!
Running an operation on a list of arguments. `run` is the operation itself, which refuses the
numbers of arguments that it cannot work on; `call` is the table's entry, which checks their number
first.
-/
namespace Reckon.Operation

def wrongCount (op : Operation) (expected : Arity) (arguments : List Value) : Outcome Value :=
  throw (.argumentCount op.name arguments.length expected)

def one (op : Operation) (f : Value → Outcome Value) : List Value → Outcome Value
  | [x] => f x
  | arguments => op.wrongCount (.exactly 1) arguments

def two (op : Operation) (g : Value → Value → Outcome Value) : List Value → Outcome Value
  | [x, y] => g x y
  | arguments => op.wrongCount (.exactly 2) arguments

def oneOrTwo (op : Operation) (f : Value → Outcome Value) (g : Value → Value → Outcome Value) :
    List Value → Outcome Value
  | [x] => f x
  | [x, y] => g x y
  | arguments => op.wrongCount (.oneOf [1, 2]) arguments

def onLeaves (op : Operation) (f : Value → Outcome Value) : List Value → Outcome Value :=
  op.one (Value.mapLeaves f)

def run (op : Operation) (s : Settings) : List Value → Outcome Value :=
  match op with
  | rule r => (rule r).two (r.apply s)
  | unaryMinus => unaryMinus.onLeaves negate
  | unaryPlus => unaryPlus.onLeaves plus
  | not => not.onLeaves negation
  | factorial => factorial.onLeaves factorialOf
  | transpose => transpose.one Value.transpose
  | abs => abs.onLeaves magnitude
  | sqrt => sqrt.onLeaves root
  | exp => exp.onLeaves (exp.elementary Float.exp Complex.exp false)
  | log => log.oneOrTwo (Value.mapLeaves naturalLog) (Value.combine log.name (logToBase s))
  | sin => sin.onLeaves (sin.elementary Float.sin Complex.sin true)
  | cos => cos.onLeaves (cos.elementary Float.cos Complex.cos true)
  | tan => tan.onLeaves (tan.elementary Float.tan Complex.tan true)
  | round =>
    round.oneOrTwo (Value.mapLeaves (round.toIntegers Binary64.round Exact.round))
      (Value.combine round.name roundTo)
  | floor => floor.onLeaves (floor.toIntegers Binary64.floor fun q => (q.floor : Rat))
  | ceil => ceil.onLeaves (ceil.toIntegers Binary64.ceil fun q => (q.ceil : Rat))
  | re => re.onLeaves realPart
  | im => im.onLeaves imaginaryPart
  | conj => conj.onLeaves conjugate
  | number => number.onLeaves toNumber
  | exact => exact.onLeaves toExact
  | complex => complex.oneOrTwo (Value.mapLeaves toComplex) (Value.combine complex.name ofParts)
  | text => text.one fun v => return toText v
  | size => size.one dimensionsOf

def call (op : Operation) (s : Settings) (arguments : List Value) : Outcome Value :=
  if op.arity.accepts arguments.length then op.run s arguments
  else op.wrongCount op.arity arguments

def dispatch (name : String) (arguments : List Value) (s : Settings) : Outcome Value :=
  match find? name with
  | some op => op.call s arguments
  | none => throw (.undefinedFunction name)

end Reckon.Operation
