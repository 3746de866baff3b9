import Reckon.Evaluate

/-! Which frames of a scope an evaluation may change. Calls end with the frame that they began
with, so only the innermost frame of the caller changes, and there only the names that the
executable itself binds. -/
namespace Reckon

namespace Scope

def frames (s : Scope) : List Frame := s.calls ++ [s.global]

theorem depth_eq_frames (s : Scope) : s.depth = s.frames.tail.length := by
  simp [depth, frames]

theorem frames_inj {s t : Scope} (h : s.frames = t.frames) : s = t := by
  obtain ⟨calls, global⟩ := List.append_inj' h rfl
  cases s
  cases t
  simp_all

theorem frames_push (s : Scope) (f : Frame) : (s.push f).frames = f :: s.frames := rfl

theorem frames_pop {s : Scope} (h : s.depth ≠ 0) : s.pop.frames = s.frames.tail := by
  unfold depth at h
  unfold pop frames
  cases hs : s.calls with
  | nil => simp [hs] at h
  | cons f fs => rfl

theorem frames_update_tail (s : Scope) (change : Frame → Frame) :
    (s.update change).frames.tail = s.frames.tail := by
  unfold update frames
  split <;> simp_all

theorem innermost_update (s : Scope) (change : Frame → Frame) :
    (s.update change).innermost = change s.innermost := by
  unfold update innermost
  split <;> simp_all

end Scope

/-- From one scope to the other only names of the innermost frame have changed, and of these only
the given ones. -/
structure Keeps (names : List String) (before after : Scope) : Prop where
  outer : after.frames.tail = before.frames.tail
  innermost : ∀ name, name ∉ names → after.innermost.get? name = before.innermost.get? name

namespace Keeps

variable {s t u : Scope}

theorem refl (names : List String) (s : Scope) : Keeps names s s := ⟨rfl, fun _ _ => rfl⟩

theorem trans (first : Keeps names s t) (next : Keeps names t u) : Keeps names s u :=
  ⟨next.outer.trans first.outer,
    fun name other => (next.innermost name other).trans (first.innermost name other)⟩

theorem mono (h : Keeps names s t) (sub : names ⊆ more) : Keeps more s t :=
  ⟨h.outer, fun name other => h.innermost name fun member => other (sub member)⟩

theorem depth (h : Keeps names s t) : t.depth = s.depth := by
  rw [t.depth_eq_frames, h.outer, ← s.depth_eq_frames]

theorem set (member : name ∈ names) (s : Scope) (v : Value) : Keeps names s (s.set name v) := by
  refine ⟨s.frames_update_tail _, fun other apart => ?_⟩
  have ne : other ≠ name := fun h => apart (h ▸ member)
  rw [Scope.set, Scope.innermost_update, Frame.get?_insert, if_neg ne]

/-- Leaving the frame of a call restores the scope of the caller. -/
theorem pop_push (h : Keeps names (s.push f) t) : t.pop = s := by
  refine Scope.frames_inj ?_
  rw [Scope.frames_pop (by rw [h.depth]; simp), h.outer, Scope.frames_push, List.tail_cons]

end Keeps

namespace Run

theorem bind_apply (p : Run α) (f : α → Run β) (m : Machine) :
    (p >>= f) m = match p m with
      | (.ok a, m') => f a m'
      | (.error e, m') => (.error e, m') := by
  change ExceptT.bindCont (m := StateM Machine) f (p m).1 (p m).2 = _
  rcases p m with ⟨_ | _, m'⟩ <;> rfl

/-- The first run changes only the given names, and the second one is the same on all machines
within the limit of calls. -/
def Tame (names : List String) (p q : Run α) : Prop :=
  ∀ m : Machine, Keeps names m.scope (p m).2.scope ∧
    (m.scope.depth ≤ maxCallDepth → q m = p m)

/-- The run leaves the scope alone. -/
theorem Tame.of_scope {p : Run α} (h : ∀ m, (p m).2.scope = m.scope) : Tame names p p :=
  fun m => ⟨(h m).symm ▸ .refl names m.scope, fun _ => rfl⟩

theorem Tame.mono {p q : Run α} (h : Tame names p q) (sub : names ⊆ more) : Tame more p q :=
  fun m => ⟨(h m).1.mono sub, (h m).2⟩

theorem Tame.bind {p q : Run α} {f g : α → Run β} (first : Tame names p q)
    (next : ∀ a, Tame names (f a) (g a)) : Tame names (p >>= f) (q >>= g) := by
  intro m
  obtain ⟨keeps, same⟩ := first m
  rw [bind_apply, bind_apply]
  cases hp : p m with
  | mk r m' =>
    rw [hp] at keeps same
    cases r with
    | error e => exact ⟨keeps, fun le => by rw [same le]⟩
    | ok a =>
      obtain ⟨keeps', same'⟩ := next a m'
      refine ⟨keeps.trans keeps', fun le => ?_⟩
      rw [same le]
      exact same' (keeps.depth ▸ le)

theorem Tame.pure (a : α) : Tame names (Pure.pure a : Run α) (Pure.pure a) :=
  .of_scope fun _ => rfl

theorem Tame.fail (f : Fault) : Tame names (fail f : Run α) (fail f) := .of_scope fun _ => rfl

theorem Tame.ofOutcome (r : Outcome α) : Tame names (ofOutcome r) (ofOutcome r) :=
  .of_scope fun _ => rfl

theorem Tame.lookup (name : String) : Tame names (lookup name) (lookup name) :=
  .of_scope fun _ => rfl

theorem Tame.freshStamp : Tame names freshStamp freshStamp := .of_scope fun _ => rfl

theorem Tame.required (v : Option Value) : Tame names (required v) (required v) := by
  cases v with
  | none => exact .fail _
  | some v => exact .pure v

/-- Binding a name is the one change to a frame. -/
theorem Tame.binding (member : name ∈ names) (v : Value) :
    Tame names (Run.bind name v) (Run.bind name v) :=
  fun m => ⟨.set member m.scope v, fun _ => rfl⟩

/-- A call leaves the scope of its caller as it was, whatever happens inside. -/
theorem inCall_scope {p q : Run α} (h : Tame names p q) (f : Frame) (m : Machine) :
    (inCall f p m).2.scope = m.scope ∧ inCall f q m = inCall f p m := by
  unfold inCall
  split
  · rename_i open_
    obtain ⟨keeps, same⟩ := h { m with scope := m.scope.push f }
    simp only [same open_]
    exact ⟨keeps.pop_push, trivial⟩
  · exact ⟨rfl, rfl⟩

theorem Tame.resolve (name : String) : Tame names (resolve name) (resolve name) := by
  refine .bind (.lookup name) fun v => ?_
  cases v with
  | some v => exact .pure v
  | none =>
    dsimp only
    split
    · exact .pure _
    · exact .bind .freshStamp fun _ => .pure _
    · exact .pure _
    · exact .fail _

end Run
end Reckon
