import Reckon.Expr.Statement
import Reckon.Fault
import Reckon.Token.Lexer

/-!
Reading a whole source, and the failures of the way from a source to a value, each with the stage
that it comes from.
-/
namespace Reckon

inductive Failure where
  | unrecognized (text : Unrecognized)
  | malformed (reason : Malformed)
  | fault (fault : Fault)
  deriving DecidableEq, Repr

def Failure.message : Failure → String
  | unrecognized u => "Lex error: " ++ u.message
  | malformed m => "Parse error: " ++ m.message
  | fault .overflow => Fault.overflow.message
  | fault f => "Eval error: " ++ f.message

def Failure.breaksOff : Failure → Bool
  | fault .overflow => true
  | _ => false

def Expr.read (source : String) : Except Failure Expr :=
  match tokenize source with
  | .error u => .error (.unrecognized u)
  | .ok tokens => (Expr.ofTokens tokens source.utf8ByteSize).mapError .malformed

theorem Expr.read_of_tokens {source : String} (tokens : tokenize source = .ok ls) :
    Expr.read source = (Expr.ofTokens ls source.utf8ByteSize).mapError .malformed := by
  rw [read, tokens]

end Reckon
