import Reckon.Proofs.Operation.Broadcast

/-! Properties of values that arrays take over from their elements. What an operation makes of
arguments with such a property has it, too, whether its arrays are full or ragged: transposing and
indexing move elements, and all other operations make scalars. -/
namespace Reckon

namespace Value

structure Hereditary (P : Value → Prop) : Prop where
  scalar : v.Scalar → P v
  array : P (.array items) ↔ ∀ v ∈ items, P v

namespace Hereditary

variable {P : Value → Prop} {f : Value → Outcome Value} {g : Value → Value → Outcome Value}

mutual

theorem mapLeaves (h : Hereditary P) (leaf : ∀ v w, f v = .ok w → P w) :
    (v : Value) → v.mapLeaves f = .ok w → P w
  | .array items, made => by
    rw [Value.mapLeaves, mapLeavesAll_eq] at made
    obtain ⟨ws, run, made⟩ := Outcome.bind_eq_ok.mp made
    obtain rfl := Except.ok.inj made
    refine h.array.mpr fun w member => ?_
    obtain ⟨v, inside, made⟩ := (mapElements_ok run).2 w member
    exact mapLeavesAll h leaf items v inside made
  | .number _, made | .exact _, made | .complex _, made | .quantity _, made | .boolean _, made
  | .text _, made | .function _, made => leaf _ _ made

theorem mapLeavesAll (h : Hereditary P) (leaf : ∀ v w, f v = .ok w → P w) :
    (vs : List Value) → ∀ v ∈ vs, v.mapLeaves f = .ok w → P w
  | [] => nofun
  | v :: vs => List.forall_mem_cons.mpr ⟨mapLeaves h leaf v, mapLeavesAll h leaf vs⟩

end

variable (h : Hereditary P)

include h

theorem pairs {name : String} (fits : ∀ a b, (a, b) ∈ Value.pairs x y → ∀ z, g a b = .ok z → P z)
    (leaves : x.isArray = false → y.isArray = false → g x y = .ok z → P z)
    (made : combine name g x y = .ok z) : P z := by
  rcases combine_cases name g x y with ⟨hx, hy⟩ | ⟨_, _, _, _, _, run⟩ | ⟨_, _, run⟩
  · rw [combine_leaves hx hy] at made
    exact leaves hx hy made
  · cases run.symm.trans made
  · rw [run] at made
    obtain ⟨zs, run, made⟩ := Outcome.bind_eq_ok.mp made
    obtain rfl := Except.ok.inj made
    refine h.array.mpr fun z member => ?_
    obtain ⟨⟨a, b⟩, inside, made⟩ := Outcome.mapM_ok run z member
    exact fits a b inside z made

theorem combine {name : String} (each : ∀ x y z, g x y = .ok z → P z)
    (made : Value.combine name g x y = .ok z) : P z :=
  h.pairs (fun a b _ => each a b) (fun _ _ => each x y z) made

theorem zipLeaves {name : String} (leaf : ∀ x y z, g x y = .ok z → P z)
    (made : Value.zipLeaves name g x y = .ok z) : P z := by
  -- By the size of both values, as the walk goes down now in one of them and now in both.
  induction size : sizeOf x + sizeOf y using Nat.strongRecOn generalizing x y z with
  | _ n ih =>
    rw [zipLeaves_eq_combine] at made
    refine h.pairs (fun a b member z made => ?_) (fun hx hy made => ?_) made
    · exact ih _ (size ▸ size_of_pairs member) made rfl
    · rw [zipLeaves_of_leaf hx, mapLeaves_of_leaf hy] at made
      exact leaf _ _ _ made

theorem apply (made : Rule.apply r s x y = .ok z) : P z :=
  h.zipLeaves (fun x y z made => h.scalar ((r.applyLeaves_single s _ x y).scalar z made)) made

theorem items (hv : P v) : ∀ item ∈ v.items?.getD [], P item := by
  cases v with
  | array items => exact h.array.mp hv
  | _ => nofun

theorem transpose (hv : P v) (made : v.transpose = .ok w) : P w := by
  obtain ⟨ds, _, made⟩ := Outcome.bind_eq_ok.mp made
  split at made
  · exact Except.ok.inj made ▸ hv
  · exact Except.ok.inj made ▸ hv
  · obtain rfl := Except.ok.inj made
    refine h.array.mpr fun column member => ?_
    obtain ⟨j, _, rfl⟩ := List.mem_map.mp member
    refine h.array.mpr fun cell member => ?_
    obtain ⟨row, inside, found⟩ := List.mem_filterMap.mp member
    obtain ⟨cells, hcells, found⟩ := Option.bind_eq_some_iff.mp found
    have good := h.items (h.items hv row inside)
    rw [hcells] at good
    exact good cell (List.mem_of_getElem? found)
  · cases made

theorem select (hv : P v) (made : v.select indices = .ok w) : P w := by
  induction indices generalizing v with
  | nil =>
    obtain rfl : v = w := by
      cases v <;> exact Except.ok.inj made
    exact hv
  | cons i others ih =>
    unfold Value.select at made
    split at made
    · obtain ⟨item, found, made⟩ := Outcome.bind_eq_ok.mp made
      exact ih (h.array.mp hv item (element_mem found)) made
    · split at made
      · obtain ⟨c, _, made⟩ := Outcome.bind_eq_ok.mp made
        obtain rfl := Except.ok.inj made
        exact h.scalar (scalar_text _)
      · cases made
    · cases made

end Hereditary

end Value

namespace Operation

open Value

variable {P : Value → Prop} {op : Operation} {f : Value → Outcome Value}
  {g : Value → Value → Outcome Value} {s : Settings} {arguments : List Value}
  (h : Hereditary P)

include h

theorem hereditary_onLeaves (single : ∀ v, (f v).Single) (made : op.onLeaves f arguments = .ok w) :
    P w := by
  obtain ⟨x, rfl, made⟩ := one_eq_ok made
  exact h.mapLeaves (fun v w made => h.scalar ((single v).scalar w made)) x made

theorem hereditary_onPairs (single : ∀ v, (f v).Single) (pairs : ∀ x y z, g x y = .ok z → P z)
    (made : op.oneOrTwo (Value.mapLeaves f) (Value.combine op.name g) arguments = .ok w) : P w := by
  rcases oneOrTwo_eq_ok made with ⟨x, rfl, made⟩ | ⟨x, y, rfl, made⟩
  · exact h.mapLeaves (fun v w made => h.scalar ((single v).scalar w made)) x made
  · exact h.combine pairs made

theorem hereditary_logToBase (made : logToBase s x y = .ok z) : P z := by
  obtain ⟨_, _, made⟩ := Outcome.bind_eq_ok.mp made
  obtain ⟨_, _, made⟩ := Outcome.bind_eq_ok.mp made
  exact h.apply made

theorem hereditary_dimensionsOf (made : dimensionsOf v = .ok w) : P w := by
  obtain ⟨ds, _, made⟩ := Outcome.bind_eq_ok.mp made
  obtain rfl := Except.ok.inj made
  refine h.array.mpr fun v member => ?_
  obtain ⟨d, _, rfl⟩ := List.mem_map.mp member
  exact h.scalar (scalar_number _)

theorem hereditary_rule (made : (rule r).run s arguments = .ok w) : P w := by
  obtain ⟨x, y, rfl, made⟩ := two_eq_ok made
  exact h.apply made

theorem hereditary_run (good : ∀ v ∈ arguments, P v) (made : op.run s arguments = .ok w) :
    P w := by
  cases op with
  | rule r => exact hereditary_rule h made
  | transpose =>
    obtain ⟨x, rfl, made⟩ := one_eq_ok made
    exact h.transpose (good x (by simp)) made
  | size =>
    obtain ⟨x, rfl, made⟩ := one_eq_ok made
    exact hereditary_dimensionsOf h made
  | text =>
    obtain ⟨x, rfl, made⟩ := one_eq_ok made
    obtain rfl := Except.ok.inj made
    exact h.scalar (toText_scalar x)
  | log =>
    exact hereditary_onPairs h naturalLog_single (fun _ _ _ => hereditary_logToBase (s := s) h) made
  | round =>
    exact hereditary_onPairs h (toIntegers_single _ _ _)
      (fun x y z made => h.scalar ((roundTo_single x y).scalar z made)) made
  | complex =>
    exact hereditary_onPairs h toComplex_single
      (fun x y z made => h.scalar ((ofParts_single x y).scalar z made)) made
  | unaryMinus => exact hereditary_onLeaves h negate_single made
  | unaryPlus => exact hereditary_onLeaves h plus_single made
  | not => exact hereditary_onLeaves h negation_single made
  | factorial => exact hereditary_onLeaves h factorialOf_single made
  | abs => exact hereditary_onLeaves h magnitude_single made
  | sqrt => exact hereditary_onLeaves h root_single made
  | exp | sin | cos | tan => exact hereditary_onLeaves h (elementary_single _ _ _ _) made
  | floor | ceil => exact hereditary_onLeaves h (toIntegers_single _ _ _) made
  | re => exact hereditary_onLeaves h realPart_single made
  | im => exact hereditary_onLeaves h imaginaryPart_single made
  | conj => exact hereditary_onLeaves h conjugate_single made
  | number => exact hereditary_onLeaves h toNumber_single made
  | exact => exact hereditary_onLeaves h toExact_single made

theorem hereditary_call (good : ∀ v ∈ arguments, P v) (made : op.call s arguments = .ok w) :
    P w := by
  unfold call at made
  split at made
  · exact hereditary_run h good made
  · cases made

end Operation

end Reckon
