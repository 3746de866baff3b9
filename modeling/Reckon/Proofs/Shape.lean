import Reckon.Proofs.Outcome
import Reckon.Shape

/-! Full arrays: all elements of an array have one shape. A value has dimensions exactly if it is
full, and whatever applies a function to leaves or elements makes full arrays of full arrays. -/
namespace Reckon

namespace Value

def Scalar : Value → Prop
  | array _ | function _ => False
  | _ => True

@[simp] theorem scalar_number (x : Float) : (number x).Scalar := trivial
@[simp] theorem scalar_exact (q : Rat) : (exact q).Scalar := trivial
@[simp] theorem scalar_complex (z : Complex) : (complex z).Scalar := trivial
@[simp] theorem scalar_quantity (q : Quantity) : (quantity q).Scalar := trivial
@[simp] theorem scalar_boolean (b : Bool) : (boolean b).Scalar := trivial
@[simp] theorem scalar_text (s : String) : (text s).Scalar := trivial

theorem Scalar.isArray {v : Value} (h : v.Scalar) : v.isArray = false := by
  cases v with
  | array => exact h.elim
  | _ => rfl

/-- `Full P ds v`: an array with the dimensions `ds` and leaves in `P`. A leaf has no dimensions,
and below an empty array there are none. -/
inductive Full (P : Value → Prop) : List Nat → Value → Prop
  | leaf : v.isArray = false → P v → Full P [] v
  | array : items.length = n → (n = 0 → ds = []) → (∀ v ∈ items, Full P ds v) →
      Full P (n :: ds) (array items)

theorem Full.eq_nil (h : Full P ds v) (leaf : v.isArray = false) : ds = [] := by
  cases h with
  | leaf => rfl
  | array => contradiction

theorem Full.exists_items (h : Full P (n :: ds) v) : ∃ items, v = Value.array items ∧
    items.length = n ∧ (n = 0 → ds = []) ∧ ∀ v ∈ items, Full P ds v := by
  cases h with
  | array length none each => exact ⟨_, rfl, length, none, each⟩

theorem Full.mono (h : Full P ds v) (weaker : ∀ v, P v → Q v) : Full Q ds v := by
  induction h with
  | leaf leaf hv => exact .leaf leaf (weaker _ hv)
  | array length none _ ih => exact .array length none ih

theorem haveDimensions_eq_ok {inner : List Nat} :
    haveDimensions inner items = .ok () ↔ ∀ v ∈ items, v.dimensions = .ok inner := by
  induction items with
  | nil => simp [haveDimensions, pure, Except.pure]
  | cons v items ih =>
    rw [haveDimensions, Outcome.bind_eq_ok, List.forall_mem_cons, ← ih]
    constructor
    · rintro ⟨other, hv, rest⟩
      split at rest
      · subst inner
        exact ⟨hv, rest⟩
      · cases rest
    · rintro ⟨hv, rest⟩
      exact ⟨inner, hv, by simpa using rest⟩

/-- An array has dimensions if its elements have the same ones, none if there is no element. -/
theorem dimensions_array {items : List Value} :
    (array items).dimensions = .ok ds ↔
      ∃ inner, (items.length = 0 → inner = []) ∧ (∀ v ∈ items, v.dimensions = .ok inner) ∧
        ds = items.length :: inner := by
  cases items with
  | nil =>
    constructor
    · intro h
      obtain rfl : [0] = ds := Except.ok.inj h
      exact ⟨[], by simp⟩
    · rintro ⟨inner, none, _, rfl⟩
      obtain rfl := none rfl
      rfl
  | cons v items =>
    rw [dimensions, dimensionsOfItems, Outcome.bind_eq_ok]
    refine exists_congr fun inner => ?_
    rw [Outcome.bind_eq_ok, List.forall_mem_cons]
    constructor
    · rintro ⟨first, _, same, made⟩
      exact ⟨nofun, ⟨first, haveDimensions_eq_ok.mp same⟩, (Except.ok.inj made).symm⟩
    · rintro ⟨_, ⟨first, same⟩, rfl⟩
      exact ⟨first, (), haveDimensions_eq_ok.mpr same, rfl⟩

theorem Full.dimensions (h : Full P ds v) : v.dimensions = .ok ds := by
  induction h with
  | @leaf v leaf _ =>
    cases v with
    | array => contradiction
    | _ => rfl
  | array length none _ ih =>
    subst length
    exact dimensions_array.mpr ⟨_, none, ih, rfl⟩

mutual

theorem full_of_dimensions : (v : Value) → v.dimensions = .ok ds → Full (fun _ => True) ds v
  | array items, h => by
    obtain ⟨inner, none, same, rfl⟩ := dimensions_array.mp h
    exact .array rfl none (full_of_all items same)
  | number _, h | exact _, h | complex _, h | quantity _, h | boolean _, h | text _, h
  | function _, h => by
    obtain rfl : [] = ds := Except.ok.inj h
    exact .leaf rfl trivial

theorem full_of_all : (items : List Value) → (∀ v ∈ items, v.dimensions = .ok ds) →
    ∀ v ∈ items, Full (fun _ => True) ds v
  | [], _ => by simp
  | v :: items, h => by
    obtain ⟨first, others⟩ := List.forall_mem_cons.mp h
    exact List.forall_mem_cons.mpr ⟨full_of_dimensions v first, full_of_all items others⟩

end

theorem dimensions_eq_ok {v : Value} : v.dimensions = .ok ds ↔ Full (fun _ => True) ds v :=
  ⟨full_of_dimensions v, Full.dimensions⟩

mutual

/-- A value without dimensions has rows of different ones. -/
theorem dimensions_fault : (v : Value) → v.dimensions = .error e →
    ∃ first other, e = .dimensions "size" (.rows first other)
  | array items, fails => dimensionsOfItems_fault items fails
  | number _, fails | exact _, fails | complex _, fails | quantity _, fails | boolean _, fails
  | text _, fails | function _, fails => nomatch fails

theorem dimensionsOfItems_fault : (items : List Value) → dimensionsOfItems items = .error e →
    ∃ first other, e = .dimensions "size" (.rows first other)
  | [], fails => nomatch fails
  | first :: others, fails => by
    rcases Outcome.bind_eq_error.mp fails with fails | ⟨inner, _, fails⟩
    · exact dimensions_fault first fails
    · rcases Outcome.bind_eq_error.mp fails with fails | ⟨_, _, made⟩
      · exact haveDimensions_fault inner others fails
      · cases made

theorem haveDimensions_fault (inner : List Nat) : (items : List Value) →
    haveDimensions inner items = .error e →
    ∃ first other, e = .dimensions "size" (.rows first other)
  | [], fails => nomatch fails
  | item :: items, fails => by
    rcases Outcome.bind_eq_error.mp fails with fails | ⟨other, _, fails⟩
    · exact dimensions_fault item fails
    · split at fails
      · exact haveDimensions_fault inner items fails
      · exact ⟨inner, other, (Except.error.inj fails).symm⟩

end

theorem mapElements_ok (h : mapElements f xs = .ok zs) :
    zs.length = xs.length ∧ ∀ z ∈ zs, ∃ x ∈ xs, f x = .ok z := by
  induction xs generalizing zs with
  | nil =>
    obtain rfl : [] = zs := Except.ok.inj h
    simp
  | cons x xs ih =>
    obtain ⟨z, hz, h⟩ := Outcome.bind_eq_ok.mp h
    obtain ⟨others, rest, made⟩ := Outcome.bind_eq_ok.mp h
    obtain rfl : z :: others = zs := Except.ok.inj made
    obtain ⟨length, from_⟩ := ih rest
    refine ⟨by simp [length], List.forall_mem_cons.mpr ⟨⟨x, by simp, hz⟩, fun w hw => ?_⟩⟩
    obtain ⟨a, ha, haw⟩ := from_ w hw
    exact ⟨a, .tail _ ha, haw⟩

theorem zipElements_ok (same : xs.length = ys.length) (h : zipElements f xs ys = .ok zs) :
    zs.length = xs.length ∧ ∀ z ∈ zs, ∃ x ∈ xs, ∃ y ∈ ys, f x y = .ok z := by
  induction xs generalizing ys zs with
  | nil =>
    obtain rfl : [] = zs := Except.ok.inj h
    simp
  | cons x xs ih =>
    cases ys with
    | nil => cases same
    | cons y ys =>
      obtain ⟨z, hz, h⟩ := Outcome.bind_eq_ok.mp h
      obtain ⟨others, rest, made⟩ := Outcome.bind_eq_ok.mp h
      obtain rfl : z :: others = zs := Except.ok.inj made
      obtain ⟨length, from_⟩ := ih (Nat.succ.inj same) rest
      refine ⟨by simp [length], List.forall_mem_cons.mpr
        ⟨⟨x, by simp, y, by simp, hz⟩, fun w hw => ?_⟩⟩
      obtain ⟨a, ha, b, hb, hab⟩ := from_ w hw
      exact ⟨a, .tail _ ha, b, .tail _ hb, hab⟩

theorem mapLeavesAll_eq (f : Value → Outcome Value) (vs : List Value) :
    mapLeavesAll f vs = mapElements (mapLeaves f) vs := by
  induction vs with
  | nil => rfl
  | cons v vs ih => rw [mapLeavesAll, mapElements, ih]

theorem zipLeavesAll_eq (name : String) (f : Value → Value → Outcome Value) (xs ys : List Value) :
    zipLeavesAll name f xs ys = zipElements (zipLeaves name f) xs ys := by
  induction xs generalizing ys with
  | nil => rfl
  | cons x xs ih =>
    cases ys with
    | nil => rfl
    | cons y ys => rw [zipLeavesAll, zipElements, ih]

theorem zipLeavesLeft_eq (name : String) (f : Value → Value → Outcome Value) (xs : List Value)
    (y : Value) : zipLeavesLeft name f xs y = mapElements (fun x => zipLeaves name f x y) xs := by
  induction xs with
  | nil => rfl
  | cons x xs ih => rw [zipLeavesLeft, mapElements, ih]

section

variable {f : Value → Outcome Value} {g : Value → Value → Outcome Value}

theorem leaf_or_array (v : Value) : v.isArray = false ∨ ∃ items, v = array items := by
  cases v with
  | array items => exact .inr ⟨items, rfl⟩
  | _ => exact .inl rfl

theorem mapLeaves_of_leaf {v : Value} (h : v.isArray = false) : v.mapLeaves f = f v := by
  cases v with
  | array => contradiction
  | _ => rfl

/-- How two values are combined: two that are no arrays directly, and an array element by element,
with the elements of another one or with a value that is none. -/
inductive Combined (f : Value → Value → Outcome Value) : Value → Value → Value → Prop
  | leaves : x.isArray = false → y.isArray = false → f x y = .ok z → Combined f x y z
  | arrays : xs.length = ys.length → zs.length = xs.length →
      (∀ z ∈ zs, ∃ x ∈ xs, ∃ y ∈ ys, f x y = .ok z) → Combined f (array xs) (array ys) (array zs)
  | left : y.isArray = false → zs.length = xs.length → (∀ z ∈ zs, ∃ x ∈ xs, f x y = .ok z) →
      Combined f (array xs) y (array zs)
  | right : x.isArray = false → zs.length = ys.length → (∀ z ∈ zs, ∃ y ∈ ys, f x y = .ok z) →
      Combined f x (array ys) (array zs)

theorem combine_left {y : Value} (h : y.isArray = false) (xs : List Value) :
    combine name g (array xs) y = do return array (← mapElements (fun x => g x y) xs) := by
  cases y with
  | array => contradiction
  | _ => rfl

theorem combine_right {x : Value} (h : x.isArray = false) (ys : List Value) :
    combine name g x (array ys) = do return array (← mapElements (fun y => g x y) ys) := by
  cases x with
  | array => contradiction
  | _ => rfl

theorem combine_leaves {x y : Value} (hx : x.isArray = false) (hy : y.isArray = false) :
    combine name g x y = g x y := by
  cases x with
  | array => contradiction
  | _ =>
    cases y with
    | array => contradiction
    | _ => rfl

theorem combined_of_combine (h : combine name g x y = .ok z) : Combined g x y z := by
  rcases x.leaf_or_array with hx | ⟨xs, rfl⟩ <;> rcases y.leaf_or_array with hy | ⟨ys, rfl⟩
  · rw [combine_leaves hx hy] at h
    exact .leaves hx hy h
  · rw [combine_right hx] at h
    obtain ⟨zs, hzs, made⟩ := Outcome.bind_eq_ok.mp h
    obtain rfl : array zs = z := Except.ok.inj made
    exact .right hx (mapElements_ok hzs).1 (mapElements_ok hzs).2
  · rw [combine_left hy] at h
    obtain ⟨zs, hzs, made⟩ := Outcome.bind_eq_ok.mp h
    obtain rfl : array zs = z := Except.ok.inj made
    exact .left hy (mapElements_ok hzs).1 (mapElements_ok hzs).2
  · rw [combine] at h
    by_cases same : xs.length = ys.length
    · rw [if_neg (by simpa using same)] at h
      obtain ⟨zs, hzs, made⟩ := Outcome.bind_eq_ok.mp h
      obtain rfl : array zs = z := Except.ok.inj made
      exact .arrays same (zipElements_ok same hzs).1 (zipElements_ok same hzs).2
    · rw [if_pos same] at h
      cases h

theorem zipLeaves_of_leaf {x : Value} (h : x.isArray = false) (y : Value) :
    zipLeaves name g x y = y.mapLeaves (g x) := by
  cases x with
  | array => contradiction
  | _ => cases y <;> rfl

/-- Combining leaves is combining elements by combining their leaves. -/
theorem zipLeaves_eq_combine (name : String) (g : Value → Value → Outcome Value) (x y : Value) :
    zipLeaves name g x y = combine name (zipLeaves name g) x y := by
  rcases x.leaf_or_array with hx | ⟨xs, rfl⟩ <;> rcases y.leaf_or_array with hy | ⟨ys, rfl⟩
  · rw [combine_leaves hx hy]
  · have each : zipLeaves name g x = mapLeaves (g x) := funext (zipLeaves_of_leaf hx)
    rw [combine_right hx, zipLeaves_of_leaf hx, mapLeaves, mapLeavesAll_eq, each]
  · rw [combine_left hy, ← zipLeavesLeft_eq]
    cases y with
    | array => contradiction
    | _ => rw [zipLeaves]; nofun
  · rw [combine, ← zipLeavesAll_eq, zipLeaves]

/-- Applying a function to all leaves keeps the dimensions. -/
theorem Full.mapLeaves (hv : Full P ds v) (scalar : ∀ v w, f v = .ok w → Scalar w)
    (h : v.mapLeaves f = .ok w) : Full Scalar ds w := by
  induction hv generalizing w with
  | leaf leaf _ =>
    rw [mapLeaves_of_leaf leaf] at h
    exact .leaf (scalar _ _ h).isArray (scalar _ _ h)
  | array length none _ ih =>
    rw [Value.mapLeaves, mapLeavesAll_eq] at h
    obtain ⟨ws, hws, made⟩ := Outcome.bind_eq_ok.mp h
    obtain rfl : Value.array ws = w := Except.ok.inj made
    obtain ⟨length', from_⟩ := mapElements_ok hws
    refine .array (length'.trans length) none fun z hz => ?_
    obtain ⟨x, hx, hxz⟩ := from_ z hz
    exact ih x hx hxz

/-- The dimensions of two values laid over each other: those of the deeper one, which begin with
those of the other if the two fit. -/
def overlay : List Nat → List Nat → List Nat
  | [], ds => ds
  | ds, [] => ds
  | n :: ds, _ :: es => n :: overlay ds es

@[simp] theorem overlay_nil (ds : List Nat) : overlay ds [] = ds := by
  cases ds <;> rfl

/-- Combining two values makes a full array if combining leaves makes leaves and combining elements
makes full arrays of one shape. -/
theorem Full.combined (h : Combined g x y z) (hx : Full P dx x) (hy : Full P dy y)
    (leaves : x.isArray = false → y.isArray = false → g x y = .ok z → Full Q [] z)
    (fits : ∀ {ds es x y z}, ds.length + es.length < dx.length + dy.length →
      Full P ds x → Full P es y → g x y = .ok z → Full Q (overlay ds es) z) :
    Full Q (overlay dx dy) z := by
  cases h with
  | leaves leafx leafy h =>
    rw [hx.eq_nil leafx, hy.eq_nil leafy]
    exact leaves leafx leafy h
  | arrays same length from_ =>
    cases hx with
    | leaf => contradiction
    | array lengthx nonex hxs =>
      cases hy with
      | leaf => contradiction
      | array lengthy noney hys =>
        refine .array (length.trans lengthx) (fun zero => ?_) fun z hz => ?_
        · rw [nonex zero, noney (by omega), overlay]
        · obtain ⟨x, hx, y, hy, hxy⟩ := from_ z hz
          exact fits (by simp; omega) (hxs x hx) (hys y hy) hxy
  | left leafy length from_ =>
    obtain rfl := hy.eq_nil leafy
    cases hx with
    | leaf => contradiction
    | array lengthx nonex hxs =>
      refine .array (length.trans lengthx) nonex fun z hz => ?_
      obtain ⟨x, hx, hxy⟩ := from_ z hz
      simpa using fits (by simp) (hxs x hx) hy hxy
  | right leafx length from_ =>
    obtain rfl := hx.eq_nil leafx
    cases hy with
    | leaf => contradiction
    | array lengthy noney hys =>
      refine .array (length.trans lengthy) noney fun z hz => ?_
      obtain ⟨y, hy, hxy⟩ := from_ z hz
      exact fits (by simp) hx (hys y hy) hxy

theorem Full.combine (hx : Full P dx x) (hy : Full P dy y)
    (fits : ∀ {ds es x y z}, Full P ds x → Full P es y → g x y = .ok z →
      Full Q (overlay ds es) z)
    (h : combine name g x y = .ok z) : Full Q (overlay dx dy) z := by
  refine .combined (combined_of_combine h) hx hy (fun leafx leafy h => ?_) fun _ => fits
  have := fits hx hy h
  rwa [hx.eq_nil leafx, hy.eq_nil leafy] at this

theorem Full.zipLeaves (hx : Full P dx x) (hy : Full P dy y)
    (scalar : ∀ {x y z}, g x y = .ok z → Scalar z) (h : zipLeaves name g x y = .ok z) :
    Full Scalar (overlay dx dy) z := by
  induction size : dx.length + dy.length using Nat.strongRecOn
    generalizing dx dy x y z with
  | _ n ih =>
    rw [zipLeaves_eq_combine] at h
    refine .combined (combined_of_combine h) hx hy (fun leafx leafy h => ?_) fun less hx hy h => ?_
    · rw [zipLeaves_of_leaf leafx, mapLeaves_of_leaf leafy] at h
      exact .leaf (scalar h).isArray (scalar h)
    · exact ih _ (size ▸ less) hx hy h rfl

theorem Full.cell (h : Full P [n] row) (hj : j < n) :
    ∃ v, row.items?.bind (·[j]?) = some v ∧ Full P [] v := by
  obtain ⟨items, rfl, rfl, _, hitems⟩ := h.exists_items
  exact ⟨items[j], by simp [items?, hj], hitems _ (List.getElem_mem hj)⟩

/-- A column has one cell from each row. -/
theorem Full.column (h : ∀ row ∈ rows, Full P [n] row) (hj : j < n) (occupied : rows ≠ []) :
    Full P [rows.length] (column rows j) := by
  refine .array ?_ (fun none => absurd (List.length_eq_zero_iff.mp none) occupied) fun v hv => ?_
  · rw [List.length_filterMap_eq_countP, List.countP_eq_length]
    intro row hrow
    obtain ⟨v, hv, _⟩ := (h row hrow).cell hj
    simp [hv]
  · obtain ⟨row, hrow, hv⟩ := List.mem_filterMap.mp hv
    obtain ⟨w, hw, full⟩ := (h row hrow).cell hj
    obtain rfl : w = v := Option.some.inj (hw.symm.trans hv)
    exact full

/-- Transposing exchanges the dimensions of a matrix, except that no columns become no rows. -/
theorem Full.transpose (hv : Full P ds v) (h : v.transpose = .ok w) : ∃ es, Full P es w := by
  rw [Value.transpose, Outcome.bind_eq_ok] at h
  obtain ⟨es, dims, h⟩ := h
  obtain rfl : ds = es := Except.ok.inj (hv.dimensions.symm.trans dims)
  split at h
  · obtain rfl : v = w := Except.ok.inj h
    exact ⟨_, hv⟩
  · obtain rfl : v = w := Except.ok.inj h
    exact ⟨_, hv⟩
  · rename_i rows columns
    obtain rfl := Except.ok.inj h
    obtain ⟨items, rfl, rfl, none, hitems⟩ := hv.exists_items
    have occupied : items ≠ [] := fun empty => by simp [empty] at none
    refine ⟨columns :: if columns = 0 then [] else [items.length], .array (by simp)
      (fun zero => if_pos zero) fun v hv => ?_⟩
    obtain ⟨j, hj, rfl⟩ := List.mem_map.mp hv
    have hj : j < columns := List.mem_range.mp hj
    rw [if_neg (by omega)]
    exact .column hitems hj occupied
  · cases h

end

end Value
end Reckon
