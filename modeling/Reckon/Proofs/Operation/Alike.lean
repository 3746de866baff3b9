import Reckon.Proofs.Operation.Broadcast
import Mathlib.Data.List.Forall2

/-! Two runs of an operation, on values of the same nesting whose leaves are related one by one.
Where the rule for leaves has outcomes that are alike, so has what applies it to whole values, and
dimensions do not depend on the leaves at all. -/
namespace Reckon

/-- The same fault, up to the names of the units that do not fit. -/
inductive Fault.SameCause : Fault → Fault → Prop
  | same (e : Fault) : SameCause e e
  | bases : l.base = l'.base → r.base = r'.base →
      SameCause (.dimensions name (.bases l r)) (.dimensions name (.bases l' r'))
  | conversion : l.base = l'.base → r.base = r'.base →
      SameCause (.dimensions name (.conversion l r)) (.dimensions name (.conversion l' r'))

theorem Fault.SameCause.ctorIdx_eq (h : SameCause e e') : e.ctorIdx = e'.ctorIdx := by
  cases h <;> rfl

namespace Outcome

abbrev Alike (R : α → β → Prop) : Outcome α → Outcome β → Prop := Related Fault.SameCause R

theorem Alike.refl {R : α → α → Prop} (same : ∀ v, R v v) (a : Outcome α) : Alike R a a :=
  Related.refl same .same a

end Outcome

open Outcome (Alike)

theorem zip_forall₂ {R : α → α' → Prop} {S : β → β' → Prop} (left : List.Forall₂ R as as')
    (right : List.Forall₂ S bs bs') :
    List.Forall₂ (fun p q => R p.1 q.1 ∧ S p.2 q.2) (as.zip bs) (as'.zip bs') := by
  induction left generalizing bs bs' with
  | nil => exact .nil
  | cons head _ ih =>
    cases right with
    | nil => exact .nil
    | cons head' tail' => exact .cons ⟨head, head'⟩ (ih tail')

theorem getElem?_forall₂ {R : α → β → Prop} (h : List.Forall₂ R as bs) (i : Nat) :
    Option.Rel R as[i]? bs[i]? := by
  induction h generalizing i with
  | nil => exact .none
  | cons head _ ih =>
    cases i with
    | zero => exact .some head
    | succ i => exact ih i

namespace Value

inductive Leafwise (L : Value → Value → Prop) : Value → Value → Prop
  | leaf : v.isArray = false → w.isArray = false → L v w → Leafwise L v w
  | array : vs.length = ws.length → (∀ p ∈ vs.zip ws, Leafwise L p.1 p.2) →
      Leafwise L (array vs) (array ws)

section

variable {L M N : Value → Value → Prop} {v w x x' y y' : Value} {vs ws : List Value}

theorem leafwise_array :
    Leafwise L (array vs) (array ws) ↔ List.Forall₂ (Leafwise L) vs ws := by
  rw [List.forall₂_iff_zip]
  constructor
  · intro h
    cases h with
    | leaf nested => cases nested
    | array length each => exact ⟨length, each _⟩
  · rintro ⟨length, each⟩
    exact .array length fun p => each

/-- Related values are both arrays or both not. -/
theorem Leafwise.cases (h : Leafwise L v w) : (v.isArray = false ∧ w.isArray = false ∧ L v w) ∨
    ∃ vs ws, v = Value.array vs ∧ w = Value.array ws ∧ List.Forall₂ (Leafwise L) vs ws := by
  cases h with
  | leaf hv hw related => exact .inl ⟨hv, hw, related⟩
  | array length each => exact .inr ⟨_, _, rfl, rfl, leafwise_array.mp (.array length each)⟩

theorem Leafwise.isArray_eq (h : Leafwise L v w) : v.isArray = w.isArray := by
  cases h with
  | leaf hv hw => rw [hv, hw]
  | array => rfl

theorem Leafwise.of_leaf (h : Leafwise L v w) (leaf : v.isArray = false) : L v w := by
  cases h with
  | leaf _ _ related => exact related
  | array => cases leaf

theorem Leafwise.exists_items (h : Leafwise L (Value.array vs) w) :
    ∃ ws, w = Value.array ws ∧ List.Forall₂ (Leafwise L) vs ws := by
  cases h with
  | leaf nested => cases nested
  | array length each => exact ⟨_, rfl, leafwise_array.mp (.array length each)⟩

theorem Leafwise.exists_items_left (h : Leafwise L v (Value.array ws)) :
    ∃ vs, v = Value.array vs ∧ List.Forall₂ (Leafwise L) vs ws := by
  cases h with
  | leaf _ nested => cases nested
  | array length each => exact ⟨_, rfl, leafwise_array.mp (.array length each)⟩

theorem Leafwise.mono (h : Leafwise L v w) (weaker : ∀ v w, L v w → M v w) : Leafwise M v w := by
  induction h with
  | leaf hv hw related => exact .leaf hv hw (weaker _ _ related)
  | array length _ ih => exact .array length ih

mutual

theorem Leafwise.refl (same : ∀ v, L v v) : (v : Value) → Leafwise L v v
  | .array items => leafwise_array.mpr (Leafwise.reflAll same items)
  | .number _ | .exact _ | .complex _ | .quantity _ | .boolean _ | .text _ | .function _ =>
    .leaf rfl rfl (same _)

theorem Leafwise.reflAll (same : ∀ v, L v v) : (vs : List Value) → List.Forall₂ (Leafwise L) vs vs
  | [] => .nil
  | v :: vs => .cons (Leafwise.refl same v) (Leafwise.reflAll same vs)

end

/-! ## Applying a rule for leaves -/

theorem mapLeaves_alike {f : Value → Outcome Value}
    (leaf : ∀ v w, L v w → Alike (Leafwise N) (f v) (f w)) (h : Leafwise L v w) :
    Alike (Leafwise N) (v.mapLeaves f) (w.mapLeaves f) := by
  induction h with
  | leaf hv hw related =>
    rw [mapLeaves_of_leaf hv, mapLeaves_of_leaf hw]
    exact leaf _ _ related
  | @array vs ws length _ ih =>
    have each : List.Forall₂ (fun v w => Alike (Leafwise N) (v.mapLeaves f) (w.mapLeaves f))
        vs ws := List.forall₂_iff_zip.mpr ⟨length, ih _⟩
    rw [mapLeaves, mapLeaves, mapLeavesAll_eq, mapLeavesAll_eq, mapElements_eq, mapElements_eq]
    exact (Outcome.Related.mapM each).bind fun _ _ items => .values (leafwise_array.mpr items)

/-- One level below related values there are related pairs. -/
theorem pairs_alike (hx : Leafwise L x x') (hy : Leafwise M y y') :
    List.Forall₂ (fun p q => Leafwise L p.1 q.1 ∧ Leafwise M p.2 q.2) (pairs x y)
      (pairs x' y') := by
  rcases hx.cases with ⟨leaf, leaf', -⟩ | ⟨xs, xs', rfl, rfl, hxs⟩ <;>
    rcases hy.cases with ⟨other, other', -⟩ | ⟨ys, ys', rfl, rfl, hys⟩
  · rw [pairs_leaves leaf other, pairs_leaves leaf' other']
    exact .nil
  · rw [pairs_right leaf, pairs_right leaf', List.forall₂_map_left_iff, List.forall₂_map_right_iff]
    exact hys.imp fun _ _ item => ⟨hx, item⟩
  · rw [pairs_left other, pairs_left other', List.forall₂_map_left_iff,
      List.forall₂_map_right_iff]
    exact hxs.imp fun _ _ item => ⟨item, hy⟩
  · exact zip_forall₂ hxs hys

/-- Whether two values are combined directly, not at all or pair by pair does not depend on their
leaves. -/
theorem combine_alike {f : Value → Value → Outcome Value} (hx : Leafwise L x x')
    (hy : Leafwise M y y')
    (leaves : x.isArray = false → y.isArray = false → Alike (Leafwise N) (f x y) (f x' y'))
    (each : ∀ a b, (a, b) ∈ pairs x y → ∀ a' b', Leafwise L a a' → Leafwise M b b' →
      Alike (Leafwise N) (f a b) (f a' b')) :
    Alike (Leafwise N) (combine name f x y) (combine name f x' y') := by
  rcases combine_cases name f x y with ⟨leaf, other⟩ | ⟨xs, ys, rfl, rfl, differ, fails⟩ |
    ⟨nested, fit, combined⟩
  · rw [combine_leaves leaf other, combine_leaves (hx.isArray_eq ▸ leaf) (hy.isArray_eq ▸ other)]
    exact leaves leaf other
  · obtain ⟨xs', rfl, hxs⟩ := hx.exists_items
    obtain ⟨ys', rfl, hys⟩ := hy.exists_items
    rw [hxs.length_eq, hys.length_eq] at differ
    rw [fails, combine, if_pos differ, hxs.length_eq, hys.length_eq]
    exact .faults (.same _)
  · rcases combine_cases name f x' y' with ⟨leaf, other⟩ | ⟨xs', ys', rfl, rfl, differ, -⟩ |
      ⟨-, -, combined'⟩
    · rw [hx.isArray_eq, hy.isArray_eq, leaf, other] at nested
      cases nested
    · obtain ⟨xs, rfl, hxs⟩ := hx.exists_items_left
      obtain ⟨ys, rfl, hys⟩ := hy.exists_items_left
      exact absurd (hxs.length_eq ▸ hys.length_eq ▸ fit xs ys rfl rfl) differ
    · obtain ⟨length, related⟩ := List.forall₂_iff_zip.mp (pairs_alike hx hy)
      rw [combined, combined']
      refine (Outcome.Related.mapM (List.forall₂_iff_zip.mpr ⟨length, fun member => ?_⟩)).bind
        fun _ _ items => .values (leafwise_array.mpr items)
      obtain ⟨left, right⟩ := related member
      exact each _ _ (List.of_mem_zip member).1 _ _ left right

theorem zipLeaves_alike {f : Value → Value → Outcome Value}
    (leaves : ∀ x x' y y', L x x' → M y y' → Alike (Leafwise N) (f x y) (f x' y'))
    (hx : Leafwise L x x') (hy : Leafwise M y y') :
    Alike (Leafwise N) (zipLeaves name f x y) (zipLeaves name f x' y') := by
  -- By the size of both values, as the walk goes down now in one of them and now in both.
  induction size : sizeOf x + sizeOf y using Nat.strongRecOn generalizing x x' y y' with
  | _ n ih =>
    rw [zipLeaves_eq_combine, zipLeaves_eq_combine name f x']
    refine combine_alike hx hy (fun leaf other => ?_) fun a b member a' b' left right =>
      ih _ (size ▸ size_of_pairs member) left right rfl
    have leaf' : x'.isArray = false := hx.isArray_eq ▸ leaf
    have other' : y'.isArray = false := hy.isArray_eq ▸ other
    rw [zipLeaves_of_leaf leaf, mapLeaves_of_leaf other, zipLeaves_of_leaf leaf',
      mapLeaves_of_leaf other']
    exact leaves x x' y y' (hx.of_leaf leaf) (hy.of_leaf other)

/-! ## Dimensions and transposition -/

theorem haveDimensions_congr {inner : List Nat}
    (each : List.Forall₂ (fun v w : Value => v.dimensions = w.dimensions) vs ws) :
    haveDimensions inner vs = haveDimensions inner ws := by
  induction each with
  | nil => rfl
  | cons head _ ih => rw [haveDimensions, haveDimensions, head, ih]

theorem Leafwise.dimensions_eq (h : Leafwise L v w) : v.dimensions = w.dimensions := by
  induction h with
  | @leaf v w hv hw _ =>
    have flat {u : Value} (leaf : u.isArray = false) : u.dimensions = .ok [] := by
      cases u with
      | array => contradiction
      | _ => rfl
    rw [flat hv, flat hw]
  | @array vs ws length _ ih =>
    have each : List.Forall₂ (fun v w : Value => v.dimensions = w.dimensions) vs ws :=
      List.forall₂_iff_zip.mpr ⟨length, ih _⟩
    cases each with
    | nil => rfl
    | cons head tail =>
      rw [dimensions, dimensions, dimensionsOfItems, dimensionsOfItems, head, tail.length_eq]
      simp only [haveDimensions_congr tail]

theorem Leafwise.items (h : Leafwise L v w) :
    Option.Rel (List.Forall₂ (Leafwise L)) v.items? w.items? := by
  rcases h.cases with ⟨hv, hw, -⟩ | ⟨vs, ws, rfl, rfl, items⟩
  · have none {u : Value} (leaf : u.isArray = false) : u.items? = none := by
      cases u with
      | array => contradiction
      | _ => rfl
    rw [none hv, none hw]
    exact .none
  · exact .some items

theorem column_leafwise (rows : List.Forall₂ (Leafwise L) vs ws) (j : Nat) :
    Leafwise L (column vs j) (column ws j) := by
  refine leafwise_array.mpr (List.rel_filterMap (fun v w row => ?_) rows)
  have cells := row.items
  generalize v.items? = left, w.items? = right at cells ⊢
  cases cells with
  | none => exact .none
  | some cells => exact getElem?_forall₂ cells j

theorem Leafwise.rows (h : Leafwise L v w) :
    List.Forall₂ (Leafwise L) (v.items?.getD []) (w.items?.getD []) := by
  have items := h.items
  generalize v.items? = left, w.items? = right at items ⊢
  cases items with
  | none => exact .nil
  | some items => exact items

theorem transpose_alike (h : Leafwise L v w) : Alike (Leafwise L) v.transpose w.transpose := by
  rw [transpose, transpose, h.dimensions_eq]
  cases w.dimensions with
  | error e => exact .faults (.same e)
  | ok ds =>
    rcases ds with _ | ⟨_, _ | ⟨columns, _ | _⟩⟩
    · exact .values h
    · exact .values h
    · refine .values (leafwise_array.mpr ?_)
      rw [List.forall₂_map_left_iff, List.forall₂_map_right_iff, List.forall₂_same]
      exact fun j _ => column_leafwise h.rows j
    · exact .faults (.same _)

end

end Value

end Reckon
