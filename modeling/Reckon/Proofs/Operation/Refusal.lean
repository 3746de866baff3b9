import Reckon.Proofs.Operation.Broadcast
import Reckon.Proofs.Promotion

/-! Operands that a binary operation refuses. Direct rules fail for other reasons, so a refusal
comes from operands without a rule that no promotion changes any more, and it is these that it
names. -/
namespace Reckon.Rule

section

variable {r : Rule} {s : Settings} {x y a b : Value}

/-- A binary operation on leaves fails with an objection of a direct rule, or it refuses the
operands that promotion has come to. -/
theorem apply_fault (hx : x.isArray = false) (hy : y.isArray = false)
    (fails : r.apply s x y = .error e) :
    r.Objects e ∨ ∃ a b, r.Refuses s x y a b ∧ e = .unsupported r.name [a.kind, b.kind] := by
  rw [apply_leaves r s hx hy] at fails
  rcases applyLeaves_cases (Value.settlesIn_two x y) with
    ⟨a, b, -, result⟩ | ⟨a, b, refused, result⟩
  · exact .inl (r.direct_conclusive s a b _ (result.trans (congrArg some fails))).error
  · exact .inr ⟨a, b, refused, Except.error.inj (fails.symm.trans result)⟩

/-- Operands are refused as they were given exactly if they could not be promoted. -/
theorem Refuses.given_iff (refused : r.Refuses s x y a b) :
    [a.kind, b.kind] = [x.kind, y.kind] ↔ x.promote? y = none := by
  obtain ⟨reached, -, settled⟩ := refused
  cases reached with
  | here => exact ⟨fun _ => settled, fun _ => rfl⟩
  | promoted _ promoted reached =>
    exact ⟨fun same => absurd same (reached.kinds_ne promoted),
      fun none => by simp [none] at promoted⟩

/-- A binary operation on two values that are no arrays is not supported exactly if it refuses the
operands that promotion comes to. The fault has the name of the operation and the kinds of these
operands, which are the kinds of the values themselves if and only if they could not be promoted. -/
theorem unsupported_iff (r : Rule) (s : Settings) (x y : Value) (hx : x.isArray = false)
    (hy : y.isArray = false) :
    (∀ name kinds, r.apply s x y = .error (.unsupported name kinds) ↔
      name = r.name ∧ ∃ a b, r.Refuses s x y a b ∧ kinds = [a.kind, b.kind]) ∧
    ∀ a b, r.Refuses s x y a b → ([a.kind, b.kind] = [x.kind, y.kind] ↔ x.promote? y = none) := by
  refine ⟨fun name kinds => ⟨fun fails => ?_, ?_⟩, fun a b refused => refused.given_iff⟩
  · rcases apply_fault hx hy fails with objects | ⟨a, b, refused, same⟩
    · cases objects
    · obtain ⟨rfl, rfl⟩ := Fault.unsupported.inj same
      exact ⟨rfl, a, b, refused, rfl⟩
  · rintro ⟨rfl, a, b, refused, rfl⟩
    rw [apply_leaves r s hx hy]
    exact refused.applyLeaves (Value.settlesIn_two x y)

/-- A truth value and a length, which are refused as a number and a length. -/
theorem unsupported_iff_length :
    let x : Value := .boolean true
    let y : Value := .quantity ⟨⟨"m", .length, 1⟩, some 5⟩
    (x.isArray = false ∧ y.isArray = false) ∧
      (∃ a b, add.Refuses {} x y a b ∧
        ([a.kind, b.kind] = [x.kind, y.kind] ↔ x.promote? y = none)) ∧
      add.apply {} x y = .error (.unsupported "add" [.number, .quantity]) := by
  intro x y
  have refused : add.Refuses {} x y (.number (Value.ofBool true)) y :=
    ⟨.promoted rfl rfl .here, rfl, rfl⟩
  obtain ⟨refusal, given⟩ := unsupported_iff add {} x y rfl rfl
  exact ⟨⟨rfl, rfl⟩, ⟨_, _, refused, given _ _ refused⟩,
    (refusal _ _).mpr ⟨rfl, _, _, refused, rfl⟩⟩

/-- The kinds that are reported need not be those of the operands that were passed. -/
theorem given_kinds_lost :
    ¬∀ (r : Rule) (s : Settings) (x y : Value), x.isArray = false → y.isArray = false →
      ∀ name kinds, r.apply s x y = .error (.unsupported name kinds) →
        name = r.name ∧ kinds = [x.kind, y.kind] := by
  intro reported
  have kinds := (reported add {} (.boolean true) (.quantity ⟨⟨"m", .length, 1⟩, some 5⟩) rfl rfl
    "add" [.number, .quantity] rfl).2
  cases kinds

end

end Reckon.Rule
