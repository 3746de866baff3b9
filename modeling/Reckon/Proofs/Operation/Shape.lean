import Reckon.Proofs.Operation.Leaves
import Reckon.Select

/-! Operations keep arrays full: they are put together from single values by the ways of applying
functions to leaves and elements. -/
namespace Reckon

namespace Value

variable {P : Value → Prop}

theorem Full.apply (hx : Full P dx x) (hy : Full P dy y) (h : Rule.apply r s x y = .ok z) :
    Full Scalar (overlay dx dy) z :=
  hx.zipLeaves hy ((r.applyLeaves_single s _ _ _).scalar _) h

/-- Leaves combined to a scalar. -/
theorem Full.of_leaves (hx : Full P dx x) (hy : Full P dy y)
    (leaves : x.isArray = false ∧ y.isArray = false ∧ z.Scalar) :
    Full Scalar (overlay dx dy) z := by
  obtain ⟨leafx, leafy, scalar⟩ := leaves
  rw [hx.eq_nil leafx, hy.eq_nil leafy]
  exact .leaf scalar.isArray scalar

theorem isArray_of_real? {v : Value} (h : v.real? = some x) : v.isArray = false := by
  cases v with
  | array => contradiction
  | _ => rfl

/-- A scalar alone, for any `P` that scalars satisfy. -/
theorem Full.scalar (h : v.Scalar) : Full Scalar [] v := .leaf h.isArray h

end Value

namespace Operation

open Value

variable {P : Value → Prop} {op : Operation} {f : Value → Outcome Value}
  {g : Value → Value → Outcome Value} {s : Settings}

theorem roundTo_leaves (h : roundTo v decimals = .ok w) :
    v.isArray = false ∧ decimals.isArray = false ∧ w.Scalar := by
  refine ⟨?_, ?_, (roundTo_single v decimals).scalar w h⟩
  · cases v with
    | array =>
      unfold roundTo at h
      split at h <;> cases h
    | _ => rfl
  · cases decimals with
    | array => cases h
    | _ => rfl

theorem ofParts_leaves (h : ofParts x y = .ok z) :
    x.isArray = false ∧ y.isArray = false ∧ z.Scalar := by
  have scalar := (ofParts_single x y).scalar z h
  unfold ofParts at h
  split at h
  · rename_i hx hy
    exact ⟨isArray_of_real? hx, isArray_of_real? hy, scalar⟩
  · cases h

theorem full_logToBase (hx : Full P dx x) (hy : Full P dy y) (h : logToBase s x y = .ok z) :
    Full Scalar (overlay dx dy) z := by
  obtain ⟨numerator, hn, h⟩ := Outcome.bind_eq_ok.mp h
  obtain ⟨denominator, hd, h⟩ := Outcome.bind_eq_ok.mp h
  have scalar (v : Value) := (naturalLog_single v).scalar
  exact (hx.mapLeaves scalar hn).apply (hy.mapLeaves scalar hd) h

theorem full_dimensionsOf (h : dimensionsOf v = .ok w) : ∃ ds, Full Scalar ds w := by
  obtain ⟨ds, _, made⟩ := Outcome.bind_eq_ok.mp h
  obtain rfl := Except.ok.inj made
  refine ⟨[ds.length], .array (by simp) (fun _ => rfl) fun v hv => ?_⟩
  obtain ⟨d, _, rfl⟩ := List.mem_map.mp hv
  exact .scalar (scalar_number _)

theorem toText_scalar (v : Value) : (toText v).Scalar := by
  unfold toText
  split <;> simp

theorem one_eq_ok (h : op.one f arguments = .ok w) : ∃ x, arguments = [x] ∧ f x = .ok w := by
  unfold one at h
  split at h
  · exact ⟨_, rfl, h⟩
  · cases h

theorem two_eq_ok (h : op.two g arguments = .ok w) : ∃ x y, arguments = [x, y] ∧ g x y = .ok w := by
  unfold two at h
  split at h
  · exact ⟨_, _, rfl, h⟩
  · cases h

theorem oneOrTwo_eq_ok (h : op.oneOrTwo f g arguments = .ok w) :
    (∃ x, arguments = [x] ∧ f x = .ok w) ∨ ∃ x y, arguments = [x, y] ∧ g x y = .ok w := by
  unfold oneOrTwo at h
  split at h
  · exact .inl ⟨_, rfl, h⟩
  · exact .inr ⟨_, _, rfl, h⟩
  · cases h

section

variable {arguments : List Value} (full : ∀ v ∈ arguments, ∃ ds, Full P ds v)

include full

theorem full_onLeaves (single : ∀ v, (f v).Single) (h : op.onLeaves f arguments = .ok w) :
    ∃ ds, Full Scalar ds w := by
  obtain ⟨x, rfl, h⟩ := one_eq_ok h
  obtain ⟨ds, hx⟩ := full x (by simp)
  exact ⟨ds, hx.mapLeaves (fun v => (single v).scalar) h⟩

theorem full_oneOrTwo (single : ∀ v, (f v).Single)
    (fits : ∀ {ds es x y z}, Full P ds x → Full P es y → g x y = .ok z →
      Full Scalar (overlay ds es) z)
    (h : op.oneOrTwo (Value.mapLeaves f) (Value.combine op.name g) arguments = .ok w) :
    ∃ ds, Full Scalar ds w := by
  rcases oneOrTwo_eq_ok h with ⟨x, rfl, h⟩ | ⟨x, y, rfl, h⟩
  · obtain ⟨ds, hx⟩ := full x (by simp)
    exact ⟨ds, hx.mapLeaves (fun v => (single v).scalar) h⟩
  · obtain ⟨dx, hx⟩ := full x (by simp)
    obtain ⟨dy, hy⟩ := full y (by simp)
    exact ⟨overlay dx dy, hx.combine hy fits h⟩

theorem full_rule (h : (rule r).run s arguments = .ok w) : ∃ ds, Full Scalar ds w := by
  obtain ⟨x, y, rfl, h⟩ := two_eq_ok h
  obtain ⟨dx, hx⟩ := full x (by simp)
  obtain ⟨dy, hy⟩ := full y (by simp)
  exact ⟨overlay dx dy, hx.apply hy h⟩

/-- Transposing moves the leaves of its argument; all other operations make leaves of their own. -/
theorem full_run (scalar : ∀ v, v.Scalar → P v) (h : op.run s arguments = .ok w) :
    ∃ ds, Full P ds w := by
  have ofScalars : (∃ ds, Full Scalar ds w) → ∃ ds, Full P ds w :=
    fun ⟨ds, hw⟩ => ⟨ds, hw.mono scalar⟩
  cases op with
  | rule r => exact ofScalars (full_rule full h)
  | transpose =>
    obtain ⟨x, rfl, h⟩ := one_eq_ok h
    obtain ⟨ds, hx⟩ := full x (by simp)
    exact hx.transpose h
  | size =>
    obtain ⟨x, rfl, h⟩ := one_eq_ok h
    exact ofScalars (full_dimensionsOf h)
  | text =>
    obtain ⟨x, rfl, made⟩ := one_eq_ok h
    obtain rfl := Except.ok.inj made
    exact ofScalars ⟨[], .scalar (toText_scalar x)⟩
  | log => exact ofScalars (full_oneOrTwo full naturalLog_single (full_logToBase (s := s)) h)
  | round =>
    exact ofScalars (full_oneOrTwo full (toIntegers_single _ _ _)
      (fun hx hy h => hx.of_leaves hy (roundTo_leaves h)) h)
  | complex =>
    exact ofScalars (full_oneOrTwo full toComplex_single
      (fun hx hy h => hx.of_leaves hy (ofParts_leaves h)) h)
  | unaryMinus => exact ofScalars (full_onLeaves full negate_single h)
  | unaryPlus => exact ofScalars (full_onLeaves full plus_single h)
  | not => exact ofScalars (full_onLeaves full negation_single h)
  | factorial => exact ofScalars (full_onLeaves full factorialOf_single h)
  | abs => exact ofScalars (full_onLeaves full magnitude_single h)
  | sqrt => exact ofScalars (full_onLeaves full root_single h)
  | exp | sin | cos | tan => exact ofScalars (full_onLeaves full (elementary_single _ _ _ _) h)
  | floor | ceil => exact ofScalars (full_onLeaves full (toIntegers_single _ _ _) h)
  | re => exact ofScalars (full_onLeaves full realPart_single h)
  | im => exact ofScalars (full_onLeaves full imaginaryPart_single h)
  | conj => exact ofScalars (full_onLeaves full conjugate_single h)
  | number => exact ofScalars (full_onLeaves full toNumber_single h)
  | exact => exact ofScalars (full_onLeaves full toExact_single h)

theorem full_call (scalar : ∀ v, v.Scalar → P v) (h : op.call s arguments = .ok w) :
    ∃ ds, Full P ds w := by
  unfold call at h
  split at h
  · exact full_run full scalar h
  · cases h

end

end Operation

namespace Value

variable {P : Value → Prop}

theorem Full.exists_item (h : Full P ds (.array items)) (member : v ∈ items) :
    ∃ es, Full P es v := by
  cases h with
  | leaf => contradiction
  | array _ _ each => exact ⟨_, each v member⟩

theorem element_mem (h : element elements i = .ok x) : x ∈ elements := by
  obtain ⟨n, _, h⟩ := Outcome.bind_eq_ok.mp h
  split at h
  · cases h
  · split at h
    · rename_i y found
      obtain rfl : y = x := Except.ok.inj h
      exact List.mem_of_getElem? found
    · cases h

/-- An element of a full array is full, and so is an element of that. -/
theorem Full.select (hv : Full P ds v) (scalar : ∀ v, v.Scalar → P v)
    (h : v.select indices = .ok w) : ∃ es, Full P es w := by
  induction indices generalizing ds v with
  | nil =>
    obtain rfl : v = w := by
      cases v <;> exact Except.ok.inj h
    exact ⟨ds, hv⟩
  | cons i others ih =>
    unfold Value.select at h
    split at h
    · obtain ⟨item, hitem, h⟩ := Outcome.bind_eq_ok.mp h
      obtain ⟨es, full⟩ := hv.exists_item (element_mem hitem)
      exact ih full h
    · split at h
      · obtain ⟨c, _, made⟩ := Outcome.bind_eq_ok.mp h
        obtain rfl := Except.ok.inj made
        exact ⟨[], .leaf rfl (scalar _ (scalar_text _))⟩
      · cases h
    · cases h

end Value

end Reckon
