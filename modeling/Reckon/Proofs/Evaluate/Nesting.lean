import Reckon.Proofs.Evaluate.Functions

/-! How deep evaluations nest. Parts are lower than what they are parts of, and there are only so
many calls that a body can be deeper, so the heights of the bodies that can be called and the calls
that are left bound the nesting together. -/
namespace Reckon

open Run

namespace Executable

end Executable

/-- With `depth` calls under way and good values in scope, both runs do the same: they keep it so,
and their results are in `Q`. -/
def Run.Agrees (Good : Value → Prop) (depth : Nat) (p q : Run α) (Q : α → Prop) : Prop :=
  ∀ m : Machine, m.scope.depth = depth → m.scope.Holds Good →
    q m = p m ∧ (p m).2.scope.depth = depth ∧ (p m).2.scope.Holds Good ∧
      ∀ a, (p m).1 = .ok a → Q a

namespace Run.Agrees

variable {Good : Value → Prop} {depth : Nat}

theorem bind {p q : Run α} {f g : α → Run β} {Q : α → Prop} {R : β → Prop}
    (first : Agrees Good depth p q Q) (next : ∀ a, Q a → Agrees Good depth (f a) (g a) R) :
    Agrees Good depth (p >>= f) (q >>= g) R := by
  intro m atDepth holds
  obtain ⟨same, atDepth', holds', result⟩ := first m atDepth holds
  rw [bind_apply, bind_apply, same]
  rcases hp : p m with ⟨_ | a, m'⟩ <;> rw [hp] at atDepth' holds' result
  · exact ⟨rfl, atDepth', holds', nofun⟩
  · exact next a (result a rfl) m' atDepth' holds'

theorem inCall {p q : Run α} {Q : α → Prop} (frame : f.Holds Good)
    (h : depth < maxCallDepth → Agrees Good (depth + 1) p q Q) :
    Agrees Good depth (Run.inCall f p) (Run.inCall f q) Q := by
  intro m atDepth holds
  unfold Run.inCall
  split
  · rename_i open_
    obtain ⟨same, atDepth', holds', result⟩ := h (atDepth ▸ open_)
      { m with scope := m.scope.push f } (by simp [atDepth]) (holds.push frame)
    rw [same]
    exact ⟨rfl, (Scope.depth_pop _).trans (Nat.sub_eq_of_eq_add atDepth'), holds'.pop, result⟩
  · exact ⟨rfl, atDepth, holds, nofun⟩

theorem correspondence (Good : Value → Prop) (depth : Nat) :
    Correspondence (Agrees Good depth)
      (fun p q Q => depth < maxCallDepth → Agrees Good (depth + 1) p q Q) Good True where
  ofOutcome made _ _ atDepth holds := ⟨rfl, atDepth, holds, made⟩
  bind := bind
  lookup _ atDepth holds := ⟨rfl, atDepth, holds, fun _ same _ found =>
    holds.get? ((Except.ok.inj same).trans found)⟩
  binding good _ atDepth holds :=
    ⟨rfl, (Scope.depth_set _ _ _).trans atDepth, holds.set _ good, fun _ _ => trivial⟩
  freshStamp _ atDepth holds := ⟨rfl, atDepth, holds, fun _ _ => trivial⟩
  inCall good h := inCall (.ofArguments good) h

end Run.Agrees

namespace Executable

variable {offered : Host} {h : Nat}

end Executable

end Reckon
