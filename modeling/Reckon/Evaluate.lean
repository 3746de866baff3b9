import Reckon.Host
import Reckon.Operation.Call
import Reckon.Program
import Reckon.Scope
import Reckon.Select

/-!
Evaluation. A run changes a scope, and the changes stay when it fails. Function bodies run one
call deeper than their callers, and the number of calls under way is limited, so every evaluation
ends.
-/
namespace Reckon

/-- The scope and the number of function values made so far, each of which is a stamp. -/
structure Machine where
  scope : Scope
  stamps : Nat

abbrev Run (α : Type) := ExceptT Fault (StateM Machine) α

namespace Run

def ofOutcome (r : Outcome α) : Run α := fun m => (r, m)

def fail (f : Fault) : Run α := fun m => (.error f, m)

def lookup (name : String) : Run (Option Value) := fun m => (.ok (m.scope.get? name), m)

def bind (name : String) (v : Value) : Run Unit :=
  fun m => (.ok (), { m with scope := m.scope.set name v })

def freshStamp : Run Nat := fun m => (.ok m.stamps, { m with stamps := m.stamps + 1 })

def inCall (f : Frame) (p : Run α) : Run α := fun m =>
  if m.scope.depth < maxCallDepth then
    let (result, after) := p { m with scope := m.scope.push f }
    (result, { after with scope := after.scope.pop })
  else (.error .callDepth, m)

def required : Option Value → Run Value
  | some v => return v
  | none => fail .noValue

end Run

def constant? : String → Option Value
  | "pi" => some (.number 3.141592653589793)
  | "e" => some (.number 2.718281828459045)
  | "tau" => some (.number 6.283185307179586)
  | "i" => some (.complex Complex.i)
  | "Infinity" => some (.number (1 / 0))
  | "NaN" => some (.number (0 / 0))
  | _ => none

/-- The meaning of a name: a binding, a constant, an operation, or a unit. -/
def resolve (name : String) : Run Value := do
  match ← Run.lookup name with
  | some v => return v
  | none =>
    match constant? name, Operation.find? name, Quantity.bare? name with
    | some v, _, _ => return v
    | none, some op, _ => return .function (.operation (← Run.freshStamp) op)
    | none, none, some q => return .quantity q
    | none, none, none => Run.fail (.undefinedSymbol name)

/-- How the body of a function runs inside the frame of its call. -/
abbrev BodyRunner := Executable → Settings → Run Value

/-- Calls a function value. Operations take the settings of the caller. -/
def Function.call (body : BodyRunner) (offered : Host) (s : Settings) (arguments : List Value) :
    Function → Run Value
  | user _ name parameters code own =>
    if arguments.length ≠ parameters.length then
      Run.fail (.argumentCount name arguments.length (.exactly parameters.length))
    else Run.inCall (.ofArguments parameters arguments) (body code own)
  | host _ name entry => Run.ofOutcome (offered entry name arguments)
  | operation _ op => Run.ofOutcome (op.call s arguments)

def callNamed (body : BodyRunner) (offered : Host) (s : Settings) (callee : String)
    (arguments : List Value) : Run Value := do
  match ← Run.lookup callee with
  | some (.function f) => f.call body offered s arguments
  | some v => Run.fail (.notCallable callee v.kind)
  | none =>
    match Operation.find? callee with
    | some op => Run.ofOutcome (op.call s arguments)
    | none => Run.fail (.undefinedFunction callee)

namespace Executable

mutual

/-- The value of an executable; an empty block has none. -/
def eval (body : BodyRunner) (offered : Host) (s : Settings) : Executable → Run (Option Value)
  | constant v => return some v
  | symbol name => return some (← resolve name)
  | unary op operand => do
    let x ← Run.required (← eval body offered s operand)
    return some (← Run.ofOutcome (op.call s [x]))
  | binary op left right => do
    let x ← Run.required (← eval body offered s left)
    let y ← Run.required (← eval body offered s right)
    return some (← Run.ofOutcome (op.call s [x, y]))
  | call callee arguments => do
    let values ← evalAll body offered s arguments
    return some (← callNamed body offered s callee values)
  | define name parameters code => do
    let f := Value.function (.user (← Run.freshStamp) name parameters code s)
    Run.bind name f
    return some f
  | assign name value => do
    let v ← Run.required (← eval body offered s value)
    Run.bind name v
    return some v
  | block statements => evalStatements body offered s none statements
  | matrix elements => do
    let m := Value.array (← evalAll body offered s elements)
    let _ ← Run.ofOutcome m.dimensions
    return some m
  | index object indices => do
    let v ← Run.required (← eval body offered s object)
    let positions ← evalAll body offered s indices
    return some (← Run.ofOutcome (v.select positions))

def evalAll (body : BodyRunner) (offered : Host) (s : Settings) :
    List Executable → Run (List Value)
  | [] => return []
  | e :: es => do
    let v ← Run.required (← eval body offered s e)
    let vs ← evalAll body offered s es
    return v :: vs

/-- The value of the last statement, `last` if there is none. -/
def evalStatements (body : BodyRunner) (offered : Host) (s : Settings) (last : Option Value) :
    List Executable → Run (Option Value)
  | [] => return last
  | e :: es => do
    let v ← eval body offered s e
    evalStatements body offered s v es

end

/-- Evaluation with `room` calls left for bodies to nest. -/
def evalWithin (offered : Host) : (room : Nat) → Executable → Settings → Run (Option Value)
  | 0, e, s => e.eval (fun _ _ => Run.fail .callDepth) offered s
  | room + 1, e, s =>
    e.eval (fun code own => do Run.required (← evalWithin offered room code own)) offered s

def evaluate (offered : Host) (s : Settings) (e : Executable) : Run (Option Value) := fun m =>
  evalWithin offered (maxCallDepth - m.scope.depth) e s m

end Executable

def Program.evaluate (p : Program) (offered : Host) : Run (Option Value) :=
  p.root.evaluate offered p.settings

end Reckon
