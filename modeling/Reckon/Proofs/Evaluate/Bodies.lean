import Reckon.Proofs.Evaluate.Frames

/-! Evaluation keeps to the limit of nested calls and to the innermost frame, by induction on the
executable and, for function bodies, on the calls that are left. -/
namespace Reckon

open Run

namespace Executable

mutual

/-- The names that an assignment or a definition binds, outside the bodies of definitions. -/
def targets : Executable → List String
  | constant _ | symbol _ => []
  | unary _ operand => operand.targets
  | binary _ left right => left.targets ++ right.targets
  | call _ arguments => targetsAll arguments
  | define name _ _ => [name]
  | assign name value => name :: value.targets
  | block statements => targetsAll statements
  | matrix elements => targetsAll elements
  | index object indices => object.targets ++ targetsAll indices

def targetsAll : List Executable → List String
  | [] => []
  | e :: es => e.targets ++ targetsAll es

end

def bodies (offered : Host) : (room : Nat) → BodyRunner
  | 0 => fun _ _ => Run.fail .callDepth
  | room + 1 => fun code own => do Run.required (← evalWithin offered room code own)

theorem evalWithin_eq (offered : Host) (room : Nat) (e : Executable) (s : Settings) :
    evalWithin offered room e s = e.eval (bodies offered room) offered s := by
  cases room <;> rfl

def watch (stray body : BodyRunner) : BodyRunner := fun code own m =>
  if m.scope.depth ≤ maxCallDepth then body code own m else stray code own m

/-- Evaluation in which a body that starts with more than `maxCallDepth` calls under way does
whatever `stray` does. -/
def evalWatched (stray : BodyRunner) (offered : Host) :
    (room : Nat) → Executable → Settings → Run (Option Value)
  | 0, e, s => e.eval (watch stray fun _ _ => Run.fail .callDepth) offered s
  | room + 1, e, s =>
    e.eval (watch stray fun code own => do
      Run.required (← evalWatched stray offered room code own)) offered s

def evaluateWatched (stray : BodyRunner) (offered : Host) (s : Settings) (e : Executable) :
    Run (Option Value) := fun m =>
  evalWatched stray offered (maxCallDepth - m.scope.depth) e s m

end Executable

section

variable {body body' : BodyRunner} {offered : Host} {s : Settings}

/-- The two ways to run bodies agree within the limit of calls and keep to the frame of the
call. -/
def Agree (body body' : BodyRunner) : Prop :=
  ∀ code own, ∃ names, Tame names (body code own) (body' code own)

theorem Function.call_scope (bodies : Agree body body') (f : Function) (arguments : List Value)
    (m : Machine) :
    (f.call body offered s arguments m).2.scope = m.scope ∧
    f.call body' offered s arguments m = f.call body offered s arguments m := by
  cases f with
  | user stamp name parameters code own =>
    simp only [call]
    split
    · exact ⟨rfl, rfl⟩
    · obtain ⟨names, tame⟩ := bodies code own
      exact inCall_scope tame _ m
  | host => exact ⟨rfl, rfl⟩
  | operation => exact ⟨rfl, rfl⟩

theorem Run.Tame.call (bodies : Agree body body') (f : Function) (arguments : List Value) :
    Tame names (f.call body offered s arguments) (f.call body' offered s arguments) :=
  fun m => ⟨(f.call_scope bodies arguments m).1.symm ▸ .refl names m.scope,
    fun _ => (f.call_scope bodies arguments m).2⟩

theorem Run.Tame.callNamed (bodies : Agree body body') (callee : String)
    (arguments : List Value) :
    Tame names (callNamed body offered s callee arguments)
      (callNamed body' offered s callee arguments) := by
  refine .bind (.lookup callee) fun v => ?_
  cases v with
  | some v =>
    cases v with
    | function f => exact .call bodies f arguments
    | _ => exact .fail _
  | none =>
    dsimp only
    split
    · exact .ofOutcome _
    · exact .fail _

namespace Executable

mutual

theorem eval_tame (bodies : Agree body body') :
    (e : Executable) → Tame e.targets (eval body offered s e) (eval body' offered s e)
  | constant v => .pure (some v)
  | symbol name => .bind (.resolve name) fun _ => .pure _
  | unary _ operand =>
    .bind (eval_tame bodies operand) fun _ => .bind (.required _) fun _ =>
      .bind (.ofOutcome _) fun _ => .pure _
  | binary _ left right =>
    .bind ((eval_tame bodies left).mono (by simp [targets])) fun _ => .bind (.required _) fun _ =>
      .bind ((eval_tame bodies right).mono (by simp [targets])) fun _ =>
        .bind (.required _) fun _ => .bind (.ofOutcome _) fun _ => .pure _
  | call callee arguments =>
    .bind (evalAll_tame bodies arguments) fun _ => .bind (.callNamed bodies callee _) fun _ =>
      .pure _
  | define name parameters code =>
    .bind .freshStamp fun _ => .bind (.binding (by simp [targets]) _) fun _ => .pure _
  | assign name value =>
    .bind ((eval_tame bodies value).mono (by simp [targets])) fun _ => .bind (.required _) fun _ =>
      .bind (.binding (by simp [targets]) _) fun _ => .pure _
  | block statements => evalStatements_tame bodies none statements
  | matrix elements =>
    .bind (evalAll_tame bodies elements) fun _ => .bind (.ofOutcome _) fun _ => .pure _
  | index object indices =>
    .bind ((eval_tame bodies object).mono (by simp [targets])) fun _ =>
      .bind (.required _) fun _ =>
        .bind ((evalAll_tame bodies indices).mono (by simp [targets])) fun _ =>
          .bind (.ofOutcome _) fun _ => .pure _

theorem evalAll_tame (bodies : Agree body body') :
    (es : List Executable) →
      Tame (targetsAll es) (evalAll body offered s es) (evalAll body' offered s es)
  | [] => .pure []
  | e :: es =>
    .bind ((eval_tame bodies e).mono (by simp [targetsAll])) fun _ => .bind (.required _) fun _ =>
      .bind ((evalAll_tame bodies es).mono (by simp [targetsAll])) fun _ => .pure _

theorem evalStatements_tame (bodies : Agree body body') (last : Option Value) :
    (es : List Executable) →
      Tame (targetsAll es) (evalStatements body offered s last es)
        (evalStatements body' offered s last es)
  | [] => .pure last
  | e :: es =>
    .bind ((eval_tame bodies e).mono (by simp [targetsAll])) fun v =>
      (evalStatements_tame bodies v es).mono (by simp [targetsAll])

end

end Executable

theorem Run.Tame.watch {stray : BodyRunner} {p q : Run Value} (h : Tame names p q) :
    Tame names p (Executable.watch stray (fun _ _ => q) code own) := by
  refine fun m => ⟨(h m).1, fun le => ?_⟩
  rw [Executable.watch, if_pos le]
  exact (h m).2 le

theorem Run.Tame.self {p q : Run α} (h : Tame names p q) : Tame names p p :=
  fun m => ⟨(h m).1, fun _ => rfl⟩

namespace Executable

/-- Whatever bodies would do beyond the limit of calls plays no part in an evaluation. -/
theorem evalWithin_tame (stray : BodyRunner) (offered : Host) (room : Nat) (e : Executable)
    (s : Settings) :
    Tame e.targets (evalWithin offered room e s) (evalWatched stray offered room e s) := by
  induction room generalizing e s with
  | zero => exact eval_tame (fun _ _ => ⟨[], Tame.watch (.fail .callDepth)⟩) e
  | succ room ih =>
    exact eval_tame (fun code own =>
      ⟨code.targets, Tame.watch (.bind (ih code own) fun v => .required v)⟩) e

theorem bodies_agree (offered : Host) (room : Nat) :
    Agree (bodies offered room) (bodies offered room) := by
  intro code own
  cases room with
  | zero => exact ⟨[], .fail .callDepth⟩
  | succ room =>
    have tame := evalWithin_tame (fun _ _ => Run.fail .callDepth) offered room code own
    exact ⟨code.targets, .bind tame.self fun v => .required v⟩

theorem evaluate_keeps (offered : Host) (s : Settings) (e : Executable) (m : Machine) :
    Keeps e.targets m.scope (e.evaluate offered s m).2.scope :=
  (evalWithin_tame (fun _ _ => Run.fail .callDepth) offered _ e s m).1

end Executable

end

end Reckon
