import Reckon.Quantity
import Reckon.Value

/-!
What can go wrong in an evaluation. Causes are data; `Fault.message` alone has the words for them.
-/
namespace Reckon

/-- The most function calls that may be under way at once. -/
def maxCallDepth : Nat := 128

structure UnitName where
  name : String
  base : Base
  deriving DecidableEq, Repr

def UnitName.describe (u : UnitName) : String := u.name ++ " (" ++ u.base.name ++ ")"

def Quantity.unitName (q : Quantity) : UnitName := ⟨q.unit.name, q.base⟩

inductive Mismatch where
  | lengths (left right : Nat)
  | rows (first other : List Nat)
  | tooMany (count : Nat)
  | bases (left right : UnitName)
  | conversion (source target : UnitName)
  deriving DecidableEq, Repr

inductive Objection where
  | indexNotInteger (shown : String)
  | notIndexable (kind : Kind)
  | notNatural
  | tooLarge
  | decimals
  | notNumeric (text : String)
  | notExact (shown : String)
  | targetHasValue (shown : String)
  | remark (text : String)
  deriving DecidableEq, Repr

inductive Fault where
  | argumentCount (name : String) (given : Nat) (expected : Arity)
  | unsupported (name : String) (kinds : List Kind)
  | dimensions (name : String) (mismatch : Mismatch)
  | undefinedSymbol (name : String)
  | undefinedFunction (name : String)
  | notCallable (name : String) (kind : Kind)
  | divisionByZero (name : String)
  | invalid (name : String) (objection : Objection)
  | outOfRange (index : Int) (size : Nat)
  | callDepth
  | noValue
  /-- An integer of 64 bits runs over. The evaluation is broken off rather than answered. -/
  | overflow
  deriving DecidableEq, Repr

def renderDimensions (ds : List Nat) : String :=
  "[" ++ String.intercalate ", " (ds.map toString) ++ "]"

def Mismatch.message : Mismatch → String
  | lengths left right => "(" ++ toString left ++ " != " ++ toString right ++ ")"
  | rows first other =>
    "rows of different sizes (" ++ renderDimensions first ++ " != " ++ renderDimensions other ++ ")"
  | tooMany count => "expected at most 2 dimensions, got " ++ toString count
  | bases left right => "cannot combine " ++ left.describe ++ " with " ++ right.describe
  | conversion source target => "cannot convert " ++ source.describe ++ " to " ++ target.describe

def Objection.message : Objection → String
  | indexNotInteger shown => "index must be an integer, got " ++ shown
  | notIndexable kind => "cannot index a " ++ kind.name
  | notNatural => "expected a non-negative integer"
  | tooLarge => "argument too large"
  | decimals => "decimals must be an integer between 0 and 15"
  | notNumeric text => "cannot convert \"" ++ text ++ "\" to a number"
  | notExact shown => "cannot convert " ++ shown ++ " to a bignumber"
  | targetHasValue shown => "target unit " ++ shown ++ " must not have a value"
  | remark text => text

def Fault.message : Fault → String
  | argumentCount name given expected =>
    "Wrong number of arguments in function " ++ name ++ " (" ++ toString given ++ " provided, " ++
      expected.describe ++ " expected)"
  | unsupported name kinds =>
    "Function " ++ name ++ "(" ++ String.intercalate ", " (kinds.map Kind.name) ++
      ") is not supported"
  | dimensions name mismatch => "Dimension mismatch in " ++ name ++ ": " ++ mismatch.message
  | undefinedSymbol name => "Undefined symbol " ++ name
  | undefinedFunction name => "Undefined function " ++ name
  | notCallable name kind => name ++ " is not a function (found " ++ kind.name ++ ")"
  | divisionByZero name => "Division by zero in " ++ name
  | invalid name objection => "Invalid argument for " ++ name ++ ": " ++ objection.message
  | outOfRange index size =>
    "Index " ++ toString index ++ " out of range (size " ++ toString size ++ ")"
  | callDepth => "Maximum call depth of " ++ toString maxCallDepth ++ " exceeded"
  | noValue => "Expression did not produce a value"
  | overflow => "attempt to negate with overflow"

abbrev Outcome (α : Type) := Except Fault α

/-- The exact number that a decimal text writes. A text that is refused is left to `otherwise`; one
on which reading runs over is not. -/
def Outcome.ofDecimal (text : String) (otherwise : Outcome Value) : Outcome Value :=
  match Exact.read text with
  | .ok q => return .exact q
  | .error .refused => otherwise
  | .error .overflow => throw .overflow

def Fault.unsupportedBy (name : String) (arguments : List Value) : Fault :=
  .unsupported name (arguments.map Value.kind)

end Reckon
