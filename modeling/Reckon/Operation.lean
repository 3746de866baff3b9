/-!
The operations: their names, how many arguments they take, and their order in the table.
-/
namespace Reckon

inductive Arity where
  | exactly (count : Nat)
  | oneOf (counts : List Nat)
  deriving DecidableEq, Repr

namespace Arity

def accepts : Arity → Nat → Bool
  | exactly count, n => n = count
  | oneOf counts, n => n ∈ counts

def describe : Arity → String
  | exactly count => toString count
  | oneOf counts => String.intercalate " or " (counts.map toString)

end Arity

/-- Operations on two operands that apply to arrays element by element and promote operands of
different kinds. -/
inductive Rule where
  | add | subtract | multiply | divide | mod | pow
  | equal | unequal | smaller | smallerEq | larger | largerEq | compare
  | and | or | xor
  | convert
  deriving DecidableEq, Repr

def Rule.name : Rule → String
  | add => "add"
  | subtract => "subtract"
  | multiply => "multiply"
  | divide => "divide"
  | mod => "mod"
  | pow => "pow"
  | equal => "equal"
  | unequal => "unequal"
  | smaller => "smaller"
  | smallerEq => "smallerEq"
  | larger => "larger"
  | largerEq => "largerEq"
  | compare => "compare"
  | and => "and"
  | or => "or"
  | xor => "xor"
  | convert => "to"

inductive Operation where
  | rule (rule : Rule)
  | unaryMinus | unaryPlus | not | factorial | transpose
  | abs | sqrt | exp | log | sin | cos | tan
  | round | floor | ceil
  | re | im | conj
  | number | exact | complex | text
  | size
  deriving DecidableEq, Repr

namespace Operation

def name : Operation → String
  | rule r => r.name
  | unaryMinus => "unaryMinus"
  | unaryPlus => "unaryPlus"
  | not => "not"
  | factorial => "factorial"
  | transpose => "transpose"
  | abs => "abs"
  | sqrt => "sqrt"
  | exp => "exp"
  | log => "log"
  | sin => "sin"
  | cos => "cos"
  | tan => "tan"
  | round => "round"
  | floor => "floor"
  | ceil => "ceil"
  | re => "re"
  | im => "im"
  | conj => "conj"
  | number => "number"
  | exact => "bignumber"
  | complex => "complex"
  | text => "string"
  | size => "size"

def arity : Operation → Arity
  | rule _ => .exactly 2
  | log | round | complex => .oneOf [1, 2]
  | _ => .exactly 1

def table : List Operation := [
  rule .add, rule .subtract, rule .multiply, rule .divide, rule .mod, rule .pow,
  unaryMinus, unaryPlus, not, factorial, transpose,
  rule .equal, rule .unequal, rule .smaller, rule .smallerEq, rule .larger, rule .largerEq,
  rule .compare, rule .and, rule .or, rule .xor, rule .convert,
  abs, sqrt, exp, log, sin, cos, tan, round, floor, ceil, re, im, conj,
  number, exact, complex, text, size]

def find? (name : String) : Option Operation := table.find? (fun op => op.name = name)

end Operation
end Reckon
