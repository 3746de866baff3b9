/-!
Expression trees. Every node knows the byte offset of its construct in the source, so that later
stages can point at it; no meaning depends on the offset.
-/
namespace Reckon

inductive BinaryOperator where
  | add | sub | mul | div | mod | pow
  | less | greater | lessEqual | greaterEqual | equal | notEqual
  | and | or | xor
  | convert
  deriving DecidableEq, Repr

/-- `plus` makes numbers of truth values; `factorial` and `transpose` follow their operand. -/
inductive UnaryOperator where
  | negate | plus | not | factorial | transpose
  deriving DecidableEq, Repr

namespace BinaryOperator

def spelling : BinaryOperator → String
  | add => "+"
  | sub => "-"
  | mul => "*"
  | div => "/"
  | mod => "%"
  | pow => "^"
  | less => "<"
  | greater => ">"
  | lessEqual => "<="
  | greaterEqual => ">="
  | equal => "=="
  | notEqual => "!="
  | and => "and"
  | or => "or"
  | xor => "xor"
  | convert => "to"

/-- Comparisons do not associate. -/
def isComparison : BinaryOperator → Bool
  | less | greater | lessEqual | greaterEqual | equal | notEqual => true
  | _ => false

end BinaryOperator

inductive Literal where
  | number (digits : String)
  | text (content : String)
  | boolean (value : Bool)
  deriving DecidableEq, Repr

/-- The rows of a matrix with more than one row are matrices themselves. A block without
statements is the empty expression. -/
inductive Expr where
  | literal (value : Literal) (offset : Nat)
  | name (name : String) (offset : Nat)
  | unary (op : UnaryOperator) (operand : Expr) (offset : Nat)
  | binary (op : BinaryOperator) (left right : Expr) (offset : Nat)
  | call (callee : String) (arguments : List Expr) (offset : Nat)
  | define (name : String) (parameters : List String) (body : Expr) (offset : Nat)
  | assign (name : String) (value : Expr) (offset : Nat)
  | block (statements : List Expr) (offset : Nat)
  | matrix (elements : List Expr) (offset : Nat)
  | index (object : Expr) (indices : List Expr) (offset : Nat)
  deriving Repr

namespace Expr

def offset : Expr → Nat
  | literal _ o | name _ o | unary _ _ o | binary _ _ _ o | call _ _ o | define _ _ _ o
  | assign _ _ o | block _ o | matrix _ o | index _ _ o => o

def isEmpty : Expr → Bool
  | block [] _ => true
  | _ => false

end Expr
end Reckon
