import Reckon.Complex
import Reckon.Exact
import Reckon.Quantity
import Reckon.Operation
import Reckon.Settings

/-!
Values and executables. A function value may hold an executable as its body and an executable may
hold values as its constants, so the two are one family of types. Each function value carries the
stamp it was made with; two function values are the same exactly if their stamps are.
-/
namespace Reckon

inductive Kind where
  | number | exact | complex | quantity | boolean | text | array | function
  deriving DecidableEq, Repr

def Kind.name : Kind → String
  | number => "number"
  | exact => "bignumber"
  | complex => "complex"
  | quantity => "unit"
  | boolean => "boolean"
  | text => "string"
  | array => "array"
  | function => "function"

mutual

/-- Arrays of arrays are matrices. -/
inductive Value where
  | number (x : Float)
  | exact (q : Rat)
  | complex (z : Complex)
  | quantity (q : Quantity)
  | boolean (b : Bool)
  | text (s : String)
  | array (items : List Value)
  | function (f : Function)

/-- A function defined in an expression keeps the settings of its body; a host function is known
by the entry under which the host offers it. -/
inductive Function where
  | user (stamp : Nat) (name : String) (parameters : List String) (body : Executable)
      (settings : Settings)
  | host (stamp : Nat) (name entry : String)
  | operation (stamp : Nat) (operation : Operation)

/-- A compiled expression: operators are operations and literals are values, while names are looked
up whenever it runs. -/
inductive Executable where
  | constant (value : Value)
  | symbol (name : String)
  | unary (operation : Operation) (operand : Executable)
  | binary (operation : Operation) (left right : Executable)
  | call (callee : String) (arguments : List Executable)
  | define (name : String) (parameters : List String) (body : Executable)
  | assign (name : String) (value : Executable)
  | block (statements : List Executable)
  | matrix (elements : List Executable)
  | index (object : Executable) (indices : List Executable)

end

instance : Inhabited Value := ⟨.boolean false⟩

namespace Function

def name : Function → String
  | user _ n _ _ _ => n
  | host _ n _ => n
  | operation _ op => op.name

def stamp : Function → Nat
  | user s _ _ _ _ | host s _ _ | operation s _ => s

def render : Function → String
  | user _ n parameters _ _ => n ++ "(" ++ String.intercalate ", " parameters ++ ")"
  | host _ n _ => n ++ "(...)"
  | operation _ op => op.name

end Function

namespace Value

def kind : Value → Kind
  | number _ => .number
  | exact _ => .exact
  | complex _ => .complex
  | quantity _ => .quantity
  | boolean _ => .boolean
  | text _ => .text
  | array _ => .array
  | function _ => .function

def isArray : Value → Bool
  | array _ => true
  | _ => false

def items? : Value → Option (List Value)
  | array items => some items
  | _ => none

def ofBool (b : Bool) : Float := if b then 1 else 0

def number? : Value → Option Float
  | number x => some x
  | boolean b => some (ofBool b)
  | _ => none

/-- The real number nearest to a value that stands for one. -/
def real? : Value → Option Float
  | exact q => some (Exact.toFloat q)
  | v => v.number?

def complex? : Value → Option Complex
  | complex z => some z
  | v => v.real?.map Complex.ofReal

mutual

/-- Equality of values. Numbers compare as doubles, functions by identity, and values of different
kinds differ. -/
def same : Value → Value → Bool
  | number x, number y => x == y
  | exact p, exact q => p == q
  | complex z, complex w => z == w
  | quantity p, quantity q => p == q
  | boolean a, boolean b => a == b
  | text s, text t => s == t
  | array xs, array ys => sameAll xs ys
  | function f, function g => f.stamp == g.stamp
  | _, _ => false

def sameAll : List Value → List Value → Bool
  | [], [] => true
  | x :: xs, y :: ys => same x y && sameAll xs ys
  | _, _ => false

end

mutual

/-- A value as it is shown. Texts stand in quotes and arrays in brackets. -/
def render : Value → String
  | number x => Binary64.render x
  | exact q => Exact.render q
  | complex z => z.render
  | quantity q => q.render
  | boolean b => toString b
  | text s => "\"" ++ s ++ "\""
  | array items => "[" ++ String.intercalate ", " (renderAll items) ++ "]"
  | function f => f.render

def renderAll : List Value → List String
  | [] => []
  | v :: vs => v.render :: renderAll vs

end

end Value
end Reckon
