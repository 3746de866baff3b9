import Reckon.Engine
import Reckon.Proofs.Evaluate.Bodies
import Reckon.Proofs.Printer.Tokens
import Reckon.Proofs.Program
import Reckon.Proofs.Reader

/-! An engine runs the statements of a source one after the other, each with what the ones before it
left. The statements of a source are those of its tree; offsets play no part. -/
namespace Reckon

open Grammar Run

namespace Expr

mutual

theorem compile_skeleton (mode : LiteralMode) :
    (e : Expr) → e.skeleton.compile mode = e.compile mode
  | literal .. => rfl
  | name .. => rfl
  | unary _ e _ => by rw [skeleton, compile, compile_skeleton mode e, compile]
  | binary _ l r _ => by
    rw [skeleton, compile, compile_skeleton mode l, compile_skeleton mode r, compile]
  | call _ as _ => by rw [skeleton, compile, compileAll_skeletons mode as, compile]
  | define _ _ b _ => by rw [skeleton, compile, compile_skeleton mode b, compile]
  | assign _ v _ => by rw [skeleton, compile, compile_skeleton mode v, compile]
  | block es _ => by rw [skeleton, compile, compileAll_skeletons mode es, compile]
  | matrix es _ => by rw [skeleton, compile, compileAll_skeletons mode es, compile]
  | index e is _ => by
    rw [skeleton, compile, compile_skeleton mode e, compileAll_skeletons mode is, compile]

theorem compileAll_skeletons (mode : LiteralMode) :
    (es : List Expr) → compileAll mode (skeletons es) = compileAll mode es
  | [] => rfl
  | e :: es => by
    rw [skeletons, compileAll, compile_skeleton mode e, compileAll_skeletons mode es, compileAll]

end

end Expr

namespace Executable

variable {body : BodyRunner} {offered : Host} {s : Settings}

theorem evalStatements_append (last : Option Value) (xs ys : List Executable) :
    evalStatements body offered s last (xs ++ ys) =
      evalStatements body offered s last xs >>= fun v => evalStatements body offered s v ys := by
  induction xs generalizing last with
  | nil => simp [evalStatements]
  | cons x xs ih => simp only [List.cons_append, evalStatements, ih, bind_assoc]

/-- A program is compiled and evaluated statement by statement. -/
theorem compile_ofStatements (compiled : Expr.compileAll mode es = .ok xs) :
    ∃ x, (ofStatements es).compile mode = .ok x ∧ ∀ body offered s,
      x.eval body offered s = evalStatements body offered s none xs := by
  rcases es with _ | ⟨e, _ | ⟨e', es⟩⟩
  · exact ⟨_, Expr.compile_eq_ok.mpr (.block compiled), fun _ _ _ => by rw [eval]⟩
  · obtain _ | ⟨only, ⟨⟩⟩ := Expr.compileAll_eq_ok.mp compiled
    exact ⟨_, only, fun _ _ _ => by simp [evalStatements]⟩
  · exact ⟨_, Expr.compile_eq_ok.mpr (.block compiled), fun _ _ _ => by rw [eval]⟩

/-- A statement that cannot be compiled keeps the program from being compiled. -/
theorem compileAll_of_ofStatements (compiled : (ofStatements es).compile mode = .ok x) :
    ∃ xs, Expr.compileAll mode es = .ok xs := by
  rcases es with _ | ⟨e, _ | ⟨e', es⟩⟩
  · exact ⟨[], rfl⟩
  · exact ⟨[x], Expr.compileAll_eq_ok.mpr (.cons compiled .nil)⟩
  · cases Expr.compile_eq_ok.mp compiled with
    | block statements => exact ⟨_, statements⟩

def Gives (p : Run (Option Value)) : Prop := ∀ ⦃m v m'⦄, p m = (.ok v, m') → v.isSome

theorem Gives.bind {p : Run α} {f : α → Run (Option Value)} (h : ∀ a, Gives (f a)) :
    Gives (p >>= f) := by
  intro m v m' run
  rw [bind_apply] at run
  split at run
  · exact h _ run
  · cases run

theorem Gives.some (v : Value) : Gives (pure (some v)) := by
  rintro m _ m' ⟨⟩
  rfl

theorem Gives.isSome {p : Run (Option Value)} (h : Gives p) {wrap : Fault → Failure}
    (run : (p m).1.mapError wrap = .ok v) : v.isSome := by
  cases hp : p m with
  | mk r m' =>
    rw [hp] at run
    cases r with
    | error f => cases run
    | ok v' =>
      cases run
      exact h hp

/-- Only an empty block has no value. -/
theorem eval_gives {x : Executable} (h : ∀ xs, x ≠ .block xs) : Gives (x.eval body offered s) := by
  cases x with
  | block xs => exact absurd rfl (h xs)
  | constant v => exact .some v
  | symbol => exact .bind fun _ => .some _
  | unary => exact .bind fun _ => .bind fun _ => .bind fun _ => .some _
  | binary =>
    exact .bind fun _ => .bind fun _ => .bind fun _ => .bind fun _ => .bind fun _ => .some _
  | call => exact .bind fun _ => .bind fun _ => .some _
  | define => exact .bind fun _ => .bind fun _ => .some _
  | assign => exact .bind fun _ => .bind fun _ => .bind fun _ => .some _
  | matrix => exact .bind fun _ => .bind fun _ => .some _
  | index => exact .bind fun _ => .bind fun _ => .bind fun _ => .bind fun _ => .some _

theorem evalStatements_gives (each : ∀ x ∈ xs, Gives (x.eval body offered s))
    (nonempty : xs ≠ []) : Gives (evalStatements body offered s last xs) := by
  induction xs generalizing last with
  | nil => contradiction
  | cons x xs ih =>
    obtain ⟨first, others⟩ := List.forall_mem_cons.mp each
    cases xs with
    | nil => simpa [evalStatements] using first
    | cons => exact .bind fun _ => ih others (by simp)

end Executable

theorem Expr.PrintableStatement.compile_ne_block {e : Expr} (h : e.PrintableStatement)
    (compiled : e.compile mode = .ok x) (xs : List Executable) : x ≠ .block xs := by
  rcases h with _ | ⟨_ | _ | _ | _ | _ | _ | _ | _⟩ <;>
    cases Expr.compile_eq_ok.mp compiled <;> nofun

namespace Engine

/-- Runs statements with the engine; `last` is the value if there are none. -/
def runStatements (offered : Host) (e : Engine) (last : Option Value) (xs : List Executable) :
    Except Failure (Option Value) × Engine :=
  let r := Executable.evalStatements (Executable.bodies offered (maxCallDepth - e.scope.depth))
    offered e.settings last xs e.machine
  (r.1.mapError .fault, { e with machine := r.2 })

/-- The value of statements is that of the last one, so nothing before them counts. -/
theorem runStatements_of_ne_nil (nonempty : xs ≠ []) (offered : Host) (e : Engine)
    (last : Option Value) :
    e.runStatements offered last xs = e.runStatements offered none xs := by
  cases xs with
  | nil => contradiction
  | cons x xs => rfl

theorem runStatements_depth (offered : Host) (e : Engine) (last : Option Value)
    (xs : List Executable) :
    (e.runStatements offered last xs).2.scope.depth = e.scope.depth := by
  have keeps : Keeps (Executable.targetsAll xs) e.scope
      (e.runStatements offered last xs).2.scope :=
    (Executable.evalStatements_tame (Executable.bodies_agree offered _) last _ e.machine).1
  exact keeps.depth

theorem runStatements_append (offered : Host) (e : Engine) (last : Option Value)
    (xs ys : List Executable) :
    e.runStatements offered last (xs ++ ys) =
      match e.runStatements offered last xs with
      | (.ok v, e') => e'.runStatements offered v ys
      | (.error f, e') => (.error f, e') := by
  have depth := e.runStatements_depth offered last xs
  simp only [runStatements, scope] at depth
  simp only [runStatements, Executable.evalStatements_append, bind_apply, scope]
  cases hr : Executable.evalStatements
      (Executable.bodies offered (maxCallDepth - e.machine.scope.depth)) offered e.settings last
      xs e.machine with
  | mk r m =>
    rw [hr] at depth
    cases r with
    | error f => rfl
    | ok v =>
      change _ = runStatements offered { e with machine := m } v ys
      simp only [runStatements, scope, depth]

theorem runStatements_isSome (blockless : ∀ x ∈ xs, ∀ ys, x ≠ .block ys) (nonempty : xs ≠ [])
    {e : Engine} (run : (e.runStatements offered last xs).1 = .ok v) : v.isSome := by
  have gives : Executable.Gives (Executable.evalStatements
      (Executable.bodies offered (maxCallDepth - e.scope.depth)) offered e.settings last xs) :=
    Executable.evalStatements_gives (fun x member => Executable.eval_gives (blockless x member))
      nonempty
  exact gives.isSome run

end Engine
end Reckon
