import Reckon.Engine

/-!
A session works on one engine and any number of further scopes, and keeps compiled programs in
slots. A step that fails does not end it; one that breaks off does.
-/
namespace Reckon

mutual

/-- A copy of a value whose functions are functions of their own, with stamps from `n` on. -/
def Value.restamp (n : Nat) : Value → Value × Nat
  | .array items =>
    let (copies, m) := Value.restampAll n items
    (.array copies, m)
  | .function (.user _ name parameters body s) => (.function (.user n name parameters body s), n + 1)
  | .function (.host _ name entry) => (.function (.host n name entry), n + 1)
  | .function (.operation _ op) => (.function (.operation n op), n + 1)
  | v => (v, n)

def Value.restampAll (n : Nat) : List Value → List Value × Nat
  | [] => ([], n)
  | v :: vs =>
    let (w, m) := Value.restamp n v
    let (ws, k) := Value.restampAll m vs
    (w :: ws, k)

end

/-- Without a scope the step works on that of the engine. -/
inductive Session.Command where
  | eval (source : String) (scope : Option String) (settings : Option Settings)
  | compile (slot source : String)
  | run (slot : String) (scope : Option String)
  | set (name : String) (value : Value) (scope : Option String)
  | get (name : String) (scope : Option String)
  | remove (name : String) (scope : Option String)
  | clear (scope : Option String)
  | native (name entry : String) (scope : Option String)
  | same (left right : String) (scope : Option String)
  | inspect (scope : Option String)

namespace Session

structure Summary where
  names : List String
  size : Nat
  empty : Bool
  depth : Nat
  containsAll : Bool

inductive Reply where
  | nothing
  | result (value : Option Value)
  | failed (failure : Failure)
  | faulted (fault : Fault)
  | compiled (settings : Settings)
  | answer (yes : Bool)
  | summary (summary : Summary)
  | noProgram (slot : String)

def Reply.breaksOff : Reply → Bool
  | failed f => f.breaksOff
  | faulted f => (Failure.fault f).breaksOff
  | _ => false

end Session

structure Session where
  engine : Engine
  scopes : List (String × Scope)
  slots : List (String × Program)
  offered : Host

namespace Session

def new (s : Settings) (offered : Host) : Session := ⟨.new s, [], [], offered⟩

/-- A scope is empty until it is used. -/
def scope (s : Session) : Option String → Scope
  | none => s.engine.scope
  | some name => (s.scopes.lookup name).getD .empty

def store (s : Session) (name : Option String) (changed : Scope) : Session :=
  match name with
  | none => { s with engine := s.engine.withScope changed }
  | some n => { s with scopes := (n, changed) :: s.scopes.filter fun p => p.1 != n }

/-- All scopes of a session share its supply of stamps. -/
def machine (s : Session) (name : Option String) : Machine :=
  { s.engine.machine with scope := s.scope name }

def withStamps (s : Session) (n : Nat) : Session :=
  { s with engine := { s.engine with machine := { s.engine.machine with stamps := n } } }

def evaluate (s : Session) (p : Program) (name : Option String) : Reply × Session :=
  let (result, after) := p.evaluate s.offered (s.machine name)
  let s' := (s.withStamps after.stamps).store name after.scope
  match result with
  | .ok v => (.result v, s')
  | .error f => (.faulted f, s')

def summarize (scope : Scope) : Summary where
  names := scope.names
  size := scope.size
  empty := scope.size = 0
  depth := scope.depth
  containsAll := scope.names.all scope.contains

def step (s : Session) : Command → Reply × Session
  | .eval source none none =>
    match s.engine.eval s.offered source with
    | (.ok v, engine) => (.result v, { s with engine := engine })
    | (.error f, engine) => (.failed f, { s with engine := engine })
  | .eval source scope settings =>
    match Expr.read source with
    | .error f => (.failed f, s)
    | .ok tree =>
      match Program.ofExpr tree (settings.getD s.engine.settings) with
      | .error f => (.faulted f, s)
      | .ok p => s.evaluate p scope
  | .compile slot source =>
    match s.engine.compile source with
    | .error f => (.failed f, s)
    | .ok p =>
      (.compiled p.settings, { s with slots := (slot, p) :: s.slots.filter fun q => q.1 != slot })
  | .run slot scope =>
    match s.slots.lookup slot with
    | some p => s.evaluate p scope
    | none => (.noProgram slot, s)
  | .set name v scope =>
    let (w, n) := v.restamp s.engine.machine.stamps
    (.nothing, (s.withStamps n).store scope ((s.scope scope).set name w))
  | .get name scope => (.result ((s.scope scope).get? name), s)
  | .remove name scope =>
    let (changed, v) := (s.scope scope).remove name
    (.result v, s.store scope changed)
  | .clear scope => (.nothing, s.store scope .empty)
  | .native name entry scope =>
    let n := s.engine.machine.stamps
    let f := Value.function (.host n name entry)
    (.nothing, (s.withStamps (n + 1)).store scope ((s.scope scope).set name f))
  | .same left right scope =>
    match (s.scope scope).get? left, (s.scope scope).get? right with
    | some v, some w => (.answer (v.same w), s)
    | none, none => (.answer true, s)
    | _, _ => (.answer false, s)
  | .inspect scope => (.summary (summarize (s.scope scope)), s)

/-- The replies to commands, up to the first that breaks off. -/
def runAll (s : Session) : List Command → List Reply
  | [] => []
  | c :: cs =>
    let (reply, s') := s.step c
    if reply.breaksOff then [reply] else reply :: runAll s' cs

end Session
end Reckon
