import Reckon.Evaluate
import Reckon.Failure

/-!
An engine reads, compiles and evaluates sources one after the other against one scope. What a
source assigned or defined before it failed stays.
-/
namespace Reckon

structure Engine where
  machine : Machine
  settings : Settings

namespace Engine

def new (s : Settings) : Engine := ⟨⟨.empty, 0⟩, s⟩

def scope (e : Engine) : Scope := e.machine.scope

def compile (e : Engine) (source : String) : Except Failure Program := do
  let tree ← Expr.read source
  (Program.ofExpr tree e.settings).mapError .fault

/-- The value of a source, if it has a statement, and the engine after it. -/
def eval (e : Engine) (offered : Host) (source : String) :
    Except Failure (Option Value) × Engine :=
  match e.compile source with
  | .error f => (.error f, e)
  | .ok program =>
    let (result, machine) := program.evaluate offered e.machine
    (result.mapError .fault, { e with machine := machine })

def get? (e : Engine) (name : String) : Option Value := e.scope.get? name

def withScope (e : Engine) (s : Scope) : Engine :=
  { e with machine := { e.machine with scope := s } }

def set (e : Engine) (name : String) (v : Value) : Engine := e.withScope (e.scope.set name v)

/-- Removing a name that is not bound does nothing. -/
def remove (e : Engine) (name : String) : Engine × Option Value :=
  let (s, v) := e.scope.remove name
  (e.withScope s, v)

def clear (e : Engine) : Engine := e.withScope .empty

end Engine

def evaluate (source : String) (s : Settings) : Except Failure (Option Value) :=
  ((Engine.new s).eval .none source).1

end Reckon
