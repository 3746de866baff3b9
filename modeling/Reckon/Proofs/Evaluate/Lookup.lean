import Reckon.Proofs.Evaluate.Frames
import Reckon.Proofs.Evaluate.Judgement

/-! What an evaluation observes of a scope: the meaning of names and the number of calls under way,
and nothing of how bindings are spread over frames. -/
namespace Reckon

/-- No evaluation can tell the scopes of the two machines apart. The function values made next get
the same stamps. -/
structure Machine.Alike (m n : Machine) : Prop where
  depth : m.scope.depth = n.scope.depth
  get : ∀ name, m.scope.get? name = n.scope.get? name
  stamps : m.stamps = n.stamps

namespace Scope

theorem get?_push (s : Scope) (f : Frame) (name : String) :
    (s.push f).get? name = match f.get? name with
      | some v => some v
      | none => s.get? name := by
  unfold push get?
  rw [List.findSome?_cons]
  cases f.get? name <;> rfl

end Scope

namespace Machine.Alike

variable {m n : Machine}

theorem set (h : Alike m n) (name : String) (v : Value) :
    Alike { m with scope := m.scope.set name v } { n with scope := n.scope.set name v } where
  depth := by simpa using h.depth
  get other := by simp only [Scope.get?_set, h.get]
  stamps := h.stamps

theorem push (h : Alike m n) (f : Frame) :
    Alike { m with scope := m.scope.push f } { n with scope := n.scope.push f } where
  depth := by simpa using h.depth
  get name := by simp only [Scope.get?_push, h.get]
  stamps := h.stamps

end Machine.Alike

namespace Run

/-- On machines that cannot be told apart the run has one result, in `Q` if it is a value, and
leaves such machines. It keeps to the innermost frame, which is what a call needs to end where it
began. -/
structure Blind (p : Run α) (Q : α → Prop) : Prop where
  alike : ∀ m n, Machine.Alike m n → (p m).1 = (p n).1 ∧ Machine.Alike (p m).2 (p n).2
  outer : ∀ m, (p m).2.scope.frames.tail = m.scope.frames.tail
  result : ∀ m a, (p m).1 = .ok a → Q a

namespace Blind

theorem ofOutcome {r : Outcome α} {Q : α → Prop} (h : ∀ a, r = .ok a → Q a) :
    Blind (Run.ofOutcome r) Q where
  alike _ _ same := ⟨rfl, same⟩
  outer _ := rfl
  result _ := h

theorem bind {p : Run α} {f : α → Run β} {Q : α → Prop} {R : β → Prop} (first : Blind p Q)
    (next : ∀ a, Q a → Blind (f a) R) : Blind (p >>= f) R where
  alike m n same := by
    obtain ⟨result, left⟩ := first.alike m n same
    have good := first.result m
    rw [bind_apply, bind_apply]
    rcases hm : p m with ⟨r, m'⟩
    rcases hn : p n with ⟨r', n'⟩
    rw [hm, hn] at result left
    rw [hm] at good
    obtain rfl : r = r' := result
    cases r with
    | error e => exact ⟨rfl, left⟩
    | ok a => exact (next a (good a rfl)).alike m' n' left
  outer m := by
    have kept := first.outer m
    have good := first.result m
    rw [bind_apply]
    rcases hm : p m with ⟨_ | a, m'⟩ <;> rw [hm] at kept good
    · exact kept
    · exact ((next a (good a rfl)).outer m').trans kept
  result m b h := by
    have good := first.result m
    rw [bind_apply] at h
    rcases hm : p m with ⟨_ | a, m'⟩ <;> rw [hm] at h good
    · cases h
    · exact (next a (good a rfl)).result m' b h

theorem lookup (name : String) : Blind (Run.lookup name) fun _ => True where
  alike _ _ same := ⟨congrArg Except.ok (same.get name), same⟩
  outer _ := rfl
  result _ _ _ := trivial

theorem binding (name : String) (v : Value) : Blind (Run.bind name v) fun _ => True where
  alike _ _ same := ⟨rfl, same.set name v⟩
  outer m := m.scope.frames_update_tail _
  result _ _ _ := trivial

theorem freshStamp : Blind Run.freshStamp fun _ => True where
  alike _ _ same := ⟨congrArg Except.ok same.stamps, same.depth, same.get,
    congrArg (· + 1) same.stamps⟩
  outer _ := rfl
  result _ _ _ := trivial

theorem pop_push {p : Run α} (h : Blind p Q) (m : Machine) (f : Frame) :
    (p { m with scope := m.scope.push f }).2.scope.pop = m.scope := by
  have outer := h.outer { m with scope := m.scope.push f }
  refine Scope.frames_inj ?_
  rw [Scope.frames_pop, outer, Scope.frames_push, List.tail_cons]
  rw [Scope.depth_eq_frames, outer, ← Scope.depth_eq_frames]
  simp

/-- After a call the caller has its own frames back, whatever happened in the frame of the call. -/
theorem inCall_apply {p : Run α} (h : Blind p Q) (f : Frame) (m : Machine) :
    Run.inCall f p m =
      if m.scope.depth < maxCallDepth then
        ((p { m with scope := m.scope.push f }).1,
          ⟨m.scope, (p { m with scope := m.scope.push f }).2.stamps⟩)
      else (.error .callDepth, m) := by
  unfold Run.inCall
  split
  · exact congrArg (fun s : Scope => (_, Machine.mk s _)) (h.pop_push m f)
  · rfl

theorem inCall {p : Run α} {Q : α → Prop} (f : Frame) (h : Blind p Q) :
    Blind (Run.inCall f p) Q where
  alike m n same := by
    rw [h.inCall_apply, h.inCall_apply, ← same.depth]
    split
    · obtain ⟨result, left⟩ := h.alike _ _ (same.push f)
      exact ⟨result, same.depth, same.get, left.stamps⟩
    · exact ⟨rfl, same⟩
  outer m := by
    rw [h.inCall_apply]
    split <;> rfl
  result m a := by
    rw [h.inCall_apply]
    split
    · exact h.result _ a
    · nofun

theorem judgement : Judgement Blind fun _ => True where
  ofOutcome := ofOutcome
  bind := bind
  lookup {name} := ⟨(lookup name).alike, (lookup name).outer, fun _ _ _ _ _ => trivial⟩
  binding _ := binding _ _
  freshStamp := freshStamp
  inCall _ h := inCall _ h

end Blind

end Run

theorem Value.kept_true (offered : Host) : Value.Kept (fun _ => True) offered where
  scalar _ := trivial
  operation := trivial
  user := ⟨fun _ _ _ => trivial, fun _ => trivial⟩
  host _ _ _ := trivial
  array _ _ := trivial
  call _ _ := trivial
  select _ _ := trivial

/-- Two scopes with the same number of calls under way in which every name means the same cannot be
told apart: an evaluation has the same result in both, a value or a fault, and leaves two such
scopes, however the bindings are spread over the frames. The function values that it makes get the
same stamps if the next stamp is the same. -/
theorem Executable.evaluate_lookup (offered : Host) (s : Settings) (x : Executable) (stamps : Nat)
    (a b : Scope) (depth : a.depth = b.depth) (agree : ∀ name, a.get? name = b.get? name) :
    (x.evaluate offered s ⟨a, stamps⟩).1 = (x.evaluate offered s ⟨b, stamps⟩).1 ∧
    (x.evaluate offered s ⟨a, stamps⟩).2.scope.depth =
      (x.evaluate offered s ⟨b, stamps⟩).2.scope.depth ∧
    (∀ name, (x.evaluate offered s ⟨a, stamps⟩).2.scope.get? name =
      (x.evaluate offered s ⟨b, stamps⟩).2.scope.get? name) ∧
    (x.evaluate offered s ⟨a, stamps⟩).2.stamps = (x.evaluate offered s ⟨b, stamps⟩).2.stamps := by
  have blind := evalWithin_judged Run.Blind.judgement (Value.kept_true offered)
    (maxCallDepth - a.depth) x s fun _ _ => trivial
  obtain ⟨result, left⟩ := blind.alike ⟨a, stamps⟩ ⟨b, stamps⟩ ⟨depth, agree, rfl⟩
  unfold evaluate
  rw [← depth]
  exact ⟨result, left.depth, left.get, left.stamps⟩

/-- A name that is bound in the global frame or in the frame of a call. -/
theorem Executable.evaluate_lookup_spread :
    let a := (Scope.empty.set "x" (.boolean true)).push .empty
    let b := Scope.empty.push (.ofArguments ["x"] [.boolean true])
    let x : Executable := .assign "y" (.unary .not (.symbol "x"))
    (a.depth = b.depth ∧ ∀ name, a.get? name = b.get? name) ∧
    (x.evaluate .none {} ⟨a, 0⟩).1 = (x.evaluate .none {} ⟨b, 0⟩).1 := by
  intro a b x
  have agree (name : String) : a.get? name = b.get? name := by
    simp only [a, b, Scope.get?_push, Scope.get?_set, Frame.ofArguments, List.zip_cons_cons,
      List.zip_nil_left, List.foldl_cons, List.foldl_nil, Frame.get?_insert, Frame.get?_empty]
    split <;> rfl
  exact ⟨⟨rfl, agree⟩, (evaluate_lookup .none {} x 0 a b rfl agree).1⟩

end Reckon
