import Reckon.Engine
import Reckon.Proofs.Evaluate.Bodies

/-! What calls and evaluations leave of a scope, and why an engine is always at its global
frame. -/
namespace Reckon

namespace Engine

/-- The engines that some sequence of calls leads to. Programs and function values may run against
the scope of the engine directly. -/
inductive Reachable : Engine → Prop
  | new (s : Settings) : Reachable (new s)
  | eval (offered : Host) (source : String) : Reachable e → Reachable (e.eval offered source).2
  | run (offered : Host) (p : Program) : Reachable e →
      Reachable { e with machine := (p.evaluate offered e.machine).2 }
  | call (offered : Host) (room : Nat) (f : Function) (s : Settings) (arguments : List Value) :
      Reachable e → Reachable { e with
        machine := (f.call (Executable.bodies offered room) offered s arguments e.machine).2 }
  | set (name : String) (v : Value) : Reachable e → Reachable (e.set name v)
  | remove (name : String) : Reachable e → Reachable (e.remove name).1
  | clear : Reachable e → Reachable e.clear

end Engine

theorem Scope.depth_update (s : Scope) (change : Frame → Frame) :
    (s.update change).depth = s.depth := by
  rw [depth_eq_frames, frames_update_tail, ← depth_eq_frames]

theorem Outcome.mapError_eq_ok {r : Outcome α} {wrap : Fault → Failure} :
    r.mapError wrap = .ok a ↔ r = .ok a := by
  cases r <;> constructor <;> intro made <;> cases made <;> rfl

/-- A source that is not compiled changes nothing, and any other one is evaluated. -/
theorem Engine.eval_cases (e : Engine) (offered : Host) (source : String) :
    (∃ f, e.compile source = .error f ∧ e.eval offered source = (.error f, e)) ∨
    ∃ p, e.compile source = .ok p ∧ e.eval offered source =
      ((p.evaluate offered e.machine).1.mapError .fault,
        { e with machine := (p.evaluate offered e.machine).2 }) := by
  unfold Engine.eval
  cases e.compile source with
  | error f => exact .inl ⟨f, rfl, rfl⟩
  | ok p => exact .inr ⟨p, rfl, rfl⟩

theorem Engine.Reachable.depth_eq_zero (h : Reachable e) : e.scope.depth = 0 := by
  have evaluated {e : Engine} (offered : Host) (p : Program) (ih : e.scope.depth = 0) :
      (p.evaluate offered e.machine).2.scope.depth = 0 :=
    (p.root.evaluate_keeps offered p.settings e.machine).depth.trans ih
  induction h with
  | new s => rfl
  | @eval e offered source _ ih =>
    rcases e.eval_cases offered source with ⟨f, _, run⟩ | ⟨p, _, run⟩
    · rw [run]
      exact ih
    · rw [run]
      exact evaluated offered p ih
  | run offered p _ ih => exact evaluated offered p ih
  | @call e offered room f s arguments _ ih =>
    exact (congrArg Scope.depth
      (f.call_scope (Executable.bodies_agree offered room) arguments e.machine).1).trans ih
  | set name v _ ih => exact (Scope.depth_set _ _ _).trans ih
  | @remove e name _ ih => exact (e.scope.depth_update fun f => f.erase name).trans ih
  | clear => rfl

/-- With no call under way, names are set, found and removed in the global frame. -/
theorem Engine.global_of_depth_eq_zero {e : Engine} (h : e.scope.depth = 0) (name : String)
    (v : Value) :
    (e.set name v).scope = ⟨e.scope.global.insert name v, []⟩ ∧
    e.get? name = e.scope.global.get? name ∧
    (e.remove name).1.scope = ⟨e.scope.global.erase name, []⟩ ∧
    (e.remove name).2 = e.scope.global.get? name := by
  have empty : e.scope.calls = [] := List.length_eq_zero_iff.mp h
  refine ⟨?_, ?_, ?_, ?_⟩
  · change e.scope.set name v = _
    simp [Scope.set, Scope.update, empty]
  · simp [get?, Scope.get?, empty]
  · change (e.scope.remove name).1 = _
    simp [Scope.remove, Scope.update, empty]
  · change (e.scope.remove name).2 = _
    simp [Scope.remove, Scope.innermost, empty]

/-- An evaluation, whether it fails or not, leaves the calls under way and all frames but the
innermost one as they are, and in that one all names that it does not itself bind. Within the limit
of calls no body starts beyond it: it makes no difference what one would do there. A function call
leaves the whole scope as it is. So an engine is at its global frame between any two uses of it. -/
theorem Executable.evaluate_frames (offered : Host) :
    (∀ (x : Executable) (s : Settings) (m : Machine),
      (x.evaluate offered s m).2.scope.depth = m.scope.depth ∧
      (x.evaluate offered s m).2.scope.frames.tail = m.scope.frames.tail ∧
      (∀ name, name ∉ x.targets →
        (x.evaluate offered s m).2.scope.innermost.get? name = m.scope.innermost.get? name) ∧
      (m.scope.depth ≤ maxCallDepth →
        ∀ stray, x.evaluateWatched stray offered s m = x.evaluate offered s m)) ∧
    (∀ (f : Function) (room : Nat) (s : Settings) (arguments : List Value) (m : Machine),
      (f.call (bodies offered room) offered s arguments m).2.scope = m.scope) ∧
    ∀ e : Engine, e.Reachable → e.scope.depth = 0 ∧ ∀ name v,
      (e.set name v).scope = ⟨e.scope.global.insert name v, []⟩ ∧
      e.get? name = e.scope.global.get? name ∧
      (e.remove name).1.scope = ⟨e.scope.global.erase name, []⟩ ∧
      (e.remove name).2 = e.scope.global.get? name := by
  refine ⟨fun x s m => ?_, fun f room s arguments m => ?_, fun e h => ?_⟩
  · have keeps := x.evaluate_keeps offered s m
    exact ⟨keeps.depth, keeps.outer, keeps.innermost,
      fun le stray => (x.evalWithin_tame stray offered _ s m).2 le⟩
  · exact (f.call_scope (bodies_agree offered room) arguments m).1
  · exact ⟨h.depth_eq_zero, Engine.global_of_depth_eq_zero h.depth_eq_zero⟩

/-- A body that assigns `y` leaves the `y` of the caller alone. -/
theorem Executable.evaluate_frames_local :
    let body : Executable := .assign "y" (.symbol "x")
    let m : Machine := ⟨Scope.empty.set "f" (.function (.user 0 "f" ["x"] body {})), 1⟩
    let x : Executable := .call "f" [.constant (.boolean true)]
    let e := (Engine.new {}).set "y" (.boolean false)
    ("y" ∉ x.targets ∧
      (x.evaluate .none {} m).2.scope.innermost.get? "y" = m.scope.innermost.get? "y") ∧
    (m.scope.depth ≤ maxCallDepth ∧
      ∀ stray, x.evaluateWatched stray .none {} m = x.evaluate .none {} m) ∧
    e.Reachable ∧ e.get? "y" = e.scope.global.get? "y" := by
  intro body m x e
  have other : "y" ∉ x.targets := by simp [x, targets, targetsAll]
  have within : m.scope.depth ≤ maxCallDepth := Nat.zero_le _
  have reachable : e.Reachable := .set _ _ (.new _)
  obtain ⟨evaluated, _, engines⟩ := evaluate_frames .none
  obtain ⟨_, _, kept, bounded⟩ := evaluated x {} m
  exact ⟨⟨other, kept "y" other⟩, ⟨within, bounded within⟩, reachable,
    ((engines e reachable).2 "y" (.boolean true)).2.1⟩

end Reckon
