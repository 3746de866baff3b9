import Reckon.Token

/-!
What can be wrong with a token list that is no expression, and the words for it.
-/
namespace Reckon

/-- Deepest nesting of unary operators, groupings, calls, literals and assignments. -/
def maxNesting : Nat := 64

inductive Expected where
  | expression
  | index
  | identifier
  | symbol (symbol : Symbol)
  | commaOr (closing : Symbol)
  | rowEnd
  deriving DecidableEq, Repr

def Expected.describe : Expected → String
  | expression => "an expression"
  | index => "an index"
  | identifier => "an identifier"
  | symbol s => s.describe
  | commaOr closing => "',' or " ++ closing.describe
  | rowEnd => "',', ';' or ']'"

/-- A missing part of the grammar. Without a token found, the source ends at the offset. -/
structure Missing where
  expected : Expected
  found : Option Token
  offset : Nat
  deriving DecidableEq, Repr

inductive Defect where
  | parameter (missing : Missing)
  | repeated (parameter : String)
  deriving DecidableEq, Repr

inductive Malformed where
  | missing (missing : Missing)
  | trailing (found : Token) (offset : Nat)
  | chainedComparison (offset : Nat)
  | definition (name : String) (defect : Defect) (offset : Nat)
  | tooDeep (offset : Nat)
  deriving DecidableEq, Repr

def Missing.message (m : Missing) : String :=
  match m.found with
  | some token =>
    "Unexpected " ++ token.describe ++ " at offset " ++ toString m.offset ++ ", expected " ++
      m.expected.describe
  | none =>
    "Unexpected end of input at offset " ++ toString m.offset ++ ", expected " ++
      m.expected.describe

def Defect.message : Defect → String
  | parameter missing => missing.message
  | repeated name => "parameter " ++ name ++ " appears twice"

namespace Malformed

def offset : Malformed → Nat
  | missing m => m.offset
  | trailing _ o | chainedComparison o | definition _ _ o | tooDeep o => o

def message : Malformed → String
  | missing m => m.message
  | trailing found o =>
    "Unexpected " ++ found.describe ++ " at offset " ++ toString o ++ " after a complete statement"
  | chainedComparison o => "Comparison operators cannot be chained (offset " ++ toString o ++ ")"
  | definition name defect o =>
    "Invalid definition of function " ++ name ++ " at offset " ++ toString o ++ ": " ++
      defect.message
  | tooDeep o =>
    "Expression nested deeper than " ++ toString maxNesting ++ " levels at offset " ++ toString o

end Malformed
end Reckon
