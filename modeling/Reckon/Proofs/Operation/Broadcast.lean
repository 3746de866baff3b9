import Reckon.Proofs.Operation.Shape

/-! Binary operations leaf by leaf. Two values are walked together, and every position of the walk
is named by its path. If no position fails, the result holds at each pair of leaves what the
operation makes of that pair; otherwise the first position that fails decides. -/
namespace Reckon

namespace Value

def at? : Value → List Nat → Option Value
  | v, [] => some v
  | v, i :: path => (v.items?.bind (·[i]?)).bind fun item => item.at? path

/-- The pairs one level below two values: the elements of two arrays, or those of one array each
with the other value. -/
def pairs : Value → Value → List (Value × Value)
  | array xs, array ys => xs.zip ys
  | array xs, y => xs.map fun x => (x, y)
  | x, array ys => ys.map fun y => (x, y)
  | _, _ => []

inductive Meets : Value → Value → List Nat → Value → Value → Prop
  | here : Meets x y [] x y
  | inside : (pairs x y)[i]? = some (x', y') → Meets x' y' path a b → Meets x y (i :: path) a b

/-- A position where the walk fails: two arrays of different lengths, or two leaves on which the
operation itself does. -/
inductive FailsAt (name : String) (f : Value → Value → Outcome Value) (x y : Value) :
    List Nat → Fault → Prop
  | lengths : Meets x y path (array xs) (array ys) → xs.length ≠ ys.length →
      FailsAt name f x y path (.dimensions name (.lengths xs.length ys.length))
  | leaves : Meets x y path a b → a.isArray = false → b.isArray = false → f a b = .error e →
      FailsAt name f x y path e

/-- The value has exactly the positions that are met, an array where one of the two is an array,
and at each pair of leaves the result of the operation. -/
structure Answers (f : Value → Value → Outcome Value) (x y z : Value) : Prop where
  positions : ∀ path, (z.at? path).isSome ↔ ∃ a b, Meets x y path a b
  nested : ∀ path a b c, Meets x y path a b → z.at? path = some c →
    c.isArray = (a.isArray || b.isArray)
  leaves : ∀ path a b c, Meets x y path a b → z.at? path = some c → a.isArray = false →
    b.isArray = false → f a b = .ok c

section

variable {name : String} {f g : Value → Value → Outcome Value} {x y : Value}

theorem mapElements_eq (g : Value → Outcome Value) (xs : List Value) :
    mapElements g xs = xs.mapM g := by
  induction xs with
  | nil => rfl
  | cons x xs ih => rw [mapElements, ih, List.mapM_cons]

theorem zipElements_eq (f : Value → Value → Outcome Value) (xs ys : List Value) :
    zipElements f xs ys = (xs.zip ys).mapM fun p => f p.1 p.2 := by
  induction xs generalizing ys with
  | nil => rfl
  | cons x xs ih =>
    cases ys with
    | nil => rfl
    | cons y ys => rw [zipElements, ih, List.zip_cons_cons, List.mapM_cons]

theorem pairs_left (h : y.isArray = false) (xs : List Value) :
    pairs (array xs) y = xs.map fun x => (x, y) := by
  cases y with
  | array => contradiction
  | _ => rfl

theorem pairs_right (h : x.isArray = false) (ys : List Value) :
    pairs x (array ys) = ys.map fun y => (x, y) := by
  cases x with
  | array => contradiction
  | _ => rfl

theorem pairs_leaves (hx : x.isArray = false) (hy : y.isArray = false) : pairs x y = [] := by
  cases x with
  | array => contradiction
  | _ =>
    cases y with
    | array => contradiction
    | _ => rfl

/-- Two values are leaves, or arrays that do not fit, or are combined pair by pair. -/
theorem combine_cases (name : String) (f : Value → Value → Outcome Value) (x y : Value) :
    (x.isArray = false ∧ y.isArray = false) ∨
    (∃ xs ys, x = array xs ∧ y = array ys ∧ xs.length ≠ ys.length ∧
      combine name f x y = .error (.dimensions name (.lengths xs.length ys.length))) ∨
    ((x.isArray || y.isArray) = true ∧
      (∀ xs ys, x = array xs → y = array ys → xs.length = ys.length) ∧
      combine name f x y = do return array (← (pairs x y).mapM fun p => f p.1 p.2)) := by
  rcases x.leaf_or_array with hx | ⟨xs, rfl⟩ <;> rcases y.leaf_or_array with hy | ⟨ys, rfl⟩
  · exact .inl ⟨hx, hy⟩
  · refine .inr (.inr ⟨by simp [isArray], fun xs _ same => by simp [same, isArray] at hx, ?_⟩)
    rw [combine_right hx, mapElements_eq, pairs_right hx, List.mapM_map]
    rfl
  · refine .inr (.inr ⟨by simp [isArray], fun _ ys _ same => by simp [same, isArray] at hy, ?_⟩)
    rw [combine_left hy, mapElements_eq, pairs_left hy, List.mapM_map]
    rfl
  · by_cases same : xs.length = ys.length
    · refine .inr (.inr ⟨rfl, ?_, ?_⟩)
      · rintro _ _ ⟨⟩ ⟨⟩
        exact same
      · rw [combine, if_neg (not_not_intro same), zipElements_eq, pairs]
    · exact .inr (.inl ⟨xs, ys, rfl, rfl, same, by rw [combine, if_pos same]; rfl⟩)

/-- The walk goes down in both values together. -/
theorem size_of_pairs (member : (a, b) ∈ pairs x y) :
    sizeOf a + sizeOf b < sizeOf x + sizeOf y := by
  rcases x.leaf_or_array with hx | ⟨xs, rfl⟩ <;> rcases y.leaf_or_array with hy | ⟨ys, rfl⟩
  · simp [pairs_leaves hx hy] at member
  · obtain ⟨y, hy, same⟩ := List.mem_map.mp (pairs_right hx ys ▸ member)
    obtain ⟨rfl, rfl⟩ := Prod.mk.inj same
    have := List.sizeOf_lt_of_mem hy
    simp only [array.sizeOf_spec]
    omega
  · obtain ⟨x, hx, same⟩ := List.mem_map.mp (pairs_left hy xs ▸ member)
    obtain ⟨rfl, rfl⟩ := Prod.mk.inj same
    have := List.sizeOf_lt_of_mem hx
    simp only [array.sizeOf_spec]
    omega
  · obtain ⟨hx, hy⟩ := List.of_mem_zip (show (a, b) ∈ xs.zip ys from member)
    have := List.sizeOf_lt_of_mem hx
    have := List.sizeOf_lt_of_mem hy
    simp only [array.sizeOf_spec]
    omega

theorem Meets.nil_inj (h : Meets x y [] a b) : a = x ∧ b = y := by
  cases h
  exact ⟨rfl, rfl⟩

theorem meets_cons : Meets x y (i :: path) a b ↔
    ∃ x' y', (pairs x y)[i]? = some (x', y') ∧ Meets x' y' path a b := by
  constructor
  · intro h
    cases h with
    | inside found h => exact ⟨_, _, found, h⟩
  · rintro ⟨x', y', found, h⟩
    exact .inside found h

theorem failsAt_cons : FailsAt name f x y (i :: path) e ↔
    ∃ x' y', (pairs x y)[i]? = some (x', y') ∧ FailsAt name f x' y' path e := by
  constructor
  · intro h
    cases h with
    | lengths h differ =>
      obtain ⟨x', y', found, h⟩ := meets_cons.mp h
      exact ⟨x', y', found, .lengths h differ⟩
    | leaves h ha hb fails =>
      obtain ⟨x', y', found, h⟩ := meets_cons.mp h
      exact ⟨x', y', found, .leaves h ha hb fails⟩
  · rintro ⟨x', y', found, h⟩
    cases h with
    | lengths h differ => exact .lengths (.inside found h) differ
    | leaves h ha hb fails => exact .leaves (.inside found h) ha hb fails

/-- At the top the walk fails on leaves that the operation refuses and on arrays that do not fit. -/
theorem failsAt_nil (h : FailsAt name f x y [] e) :
    (x.isArray = false ∧ y.isArray = false ∧ f x y = .error e) ∨
    ∃ xs ys, x = array xs ∧ y = array ys ∧ xs.length ≠ ys.length := by
  cases h with
  | lengths h differ =>
    obtain ⟨rfl, rfl⟩ := h.nil_inj
    exact .inr ⟨_, _, rfl, rfl, differ⟩
  | leaves h ha hb fails =>
    obtain ⟨rfl, rfl⟩ := h.nil_inj
    exact .inl ⟨ha, hb, fails⟩

/-- The first position that fails, in the order of the elements and an array before its own, with
its fault. -/
structure FirstFailure (name : String) (f : Value → Value → Outcome Value) (x y : Value)
    (path : List Nat) (e : Fault) : Prop where
  fails : FailsAt name f x y path e
  first : ∀ other e', FailsAt name f x y other e' → ¬List.Lex (· < ·) other path

inductive Walked (name : String) (f : Value → Value → Outcome Value) (x y : Value) :
    Outcome Value → Prop
  | fails : FirstFailure name f x y path e → Walked name f x y (.error e)
  | answers : (∀ path e, ¬FailsAt name f x y path e) → Answers f x y z → Walked name f x y (.ok z)

/-- Two leaves are the whole walk. -/
theorem walked_leaves (hx : x.isArray = false) (hy : y.isArray = false)
    (leaf : ∀ z, f x y = .ok z → z.isArray = false) : Walked name f x y (f x y) := by
  have below (i : Nat) (path : List Nat) (a b : Value) : ¬Meets x y (i :: path) a b := by
    simp [meets_cons, pairs_leaves hx hy]
  cases made : f x y with
  | error e => exact .fails ⟨.leaves .here hx hy made, fun _ _ _ => nofun⟩
  | ok z =>
    refine .answers (fun path e h => ?_) ⟨fun path => ?_, fun path a b c h hc => ?_,
      fun path a b c h hc ha hb => ?_⟩
    · cases path with
      | nil =>
        rcases failsAt_nil h with ⟨_, _, fails⟩ | ⟨xs, _, rfl, _⟩
        · cases made.symm.trans fails
        · cases hx
      | cons => simp [failsAt_cons, pairs_leaves hx hy] at h
    · have none : z.items? = .none := by
        have := leaf z made
        cases z with
        | array => contradiction
        | _ => rfl
      cases path with
      | nil => exact ⟨fun _ => ⟨x, y, .here⟩, fun _ => rfl⟩
      | cons => simp [at?, none, below]
    · cases path with
      | nil =>
        obtain ⟨rfl, rfl⟩ := h.nil_inj
        obtain rfl := Option.some.inj hc
        rw [hx, hy, leaf z made]
        rfl
      | cons => exact absurd h (below _ _ _ _)
    · cases path with
      | nil =>
        obtain ⟨rfl, rfl⟩ := h.nil_inj
        obtain rfl := Option.some.inj hc
        exact made
      | cons => exact absurd h (below _ _ _ _)

theorem array_at?_cons (zs : List Value) (i : Nat) (path : List Nat) :
    (array zs).at? (i :: path) = zs[i]?.bind fun z => z.at? path := rfl

/-- Results for all pairs, put into an array, are the result for the two values. -/
theorem Answers.array {zs : List Value} (nested : (x.isArray || y.isArray) = true)
    (length : zs.length = (pairs x y).length)
    (each : ∀ (i : Nat) a b z, (pairs x y)[i]? = some (a, b) → zs[i]? = some z → Answers f a b z) :
    Answers f x y (.array zs) := by
  have pair {i : Nat} {z} (hz : zs[i]? = some z) : ∃ a b, (pairs x y)[i]? = some (a, b) := by
    have inside : i < zs.length := (List.getElem?_eq_some_iff.mp hz).1
    exact ⟨_, _, List.getElem?_eq_getElem (length ▸ inside)⟩
  have below {i path a b c} (h : Meets x y (i :: path) a b)
      (hc : (Value.array zs).at? (i :: path) = some c) :
      ∃ x' y' z, Answers f x' y' z ∧ Meets x' y' path a b ∧ z.at? path = some c := by
    obtain ⟨x', y', found, h⟩ := meets_cons.mp h
    obtain ⟨z, hz, hc⟩ := Option.bind_eq_some_iff.mp hc
    exact ⟨x', y', z, each i x' y' z found hz, h, hc⟩
  refine ⟨fun path => ?_, fun path a b c h hc => ?_, fun path a b c h hc ha hb => ?_⟩
  · cases path with
    | nil => exact ⟨fun _ => ⟨x, y, .here⟩, fun _ => rfl⟩
    | cons i path =>
      constructor
      · intro some_
        obtain ⟨c, hc⟩ := Option.isSome_iff_exists.mp some_
        obtain ⟨z, hz, hc⟩ := Option.bind_eq_some_iff.mp hc
        obtain ⟨x', y', found⟩ := pair hz
        obtain ⟨a, b, h⟩ := ((each i x' y' z found hz).positions path).mp (by rw [hc]; rfl)
        exact ⟨a, b, .inside found h⟩
      · rintro ⟨a, b, h⟩
        obtain ⟨x', y', found, h⟩ := meets_cons.mp h
        have inside : i < (pairs x y).length := (List.getElem?_eq_some_iff.mp found).1
        have hz : zs[i]? = some zs[i] := List.getElem?_eq_getElem (length ▸ inside)
        rw [array_at?_cons, hz]
        exact ((each i x' y' _ found hz).positions path).mpr ⟨a, b, h⟩
  · cases path with
    | nil =>
      obtain ⟨rfl, rfl⟩ := h.nil_inj
      obtain rfl := Option.some.inj hc
      exact nested.symm
    | cons i path =>
      obtain ⟨x', y', z, answers, h, hc⟩ := below h hc
      exact answers.nested path a b c h hc
  · cases path with
    | nil =>
      obtain ⟨rfl, rfl⟩ := h.nil_inj
      simp [ha, hb] at nested
    | cons i path =>
      obtain ⟨x', y', z, answers, h, hc⟩ := below h hc
      exact answers.leaves path a b c h hc ha hb

/-- The first pair that fails has the first position that fails. -/
theorem FirstFailure.inside (found : (pairs x y)[i]? = some (a, b))
    (h : FirstFailure name f a b path e) (top : ∀ e, ¬FailsAt name f x y [] e)
    (before : ∀ j < i, ∀ a b, (pairs x y)[j]? = some (a, b) →
      ∀ path e, ¬FailsAt name f a b path e) :
    FirstFailure name f x y (i :: path) e := by
  refine ⟨failsAt_cons.mpr ⟨a, b, found, h.fails⟩, fun other e' fails earlier => ?_⟩
  -- An earlier position is the top itself, or is in a pair before this one or in this pair.
  cases earlier with
  | nil => exact top e' fails
  | rel earlier =>
    obtain ⟨c, d, found', fails⟩ := failsAt_cons.mp fails
    exact before _ earlier c d found' _ e' fails
  | cons earlier =>
    obtain ⟨c, d, found', fails⟩ := failsAt_cons.mp fails
    obtain ⟨rfl, rfl⟩ := Prod.mk.inj (Option.some.inj (found.symm.trans found'))
    exact h.first _ e' fails earlier

theorem walked_pairs (nested : (x.isArray || y.isArray) = true)
    (fit : ∀ xs ys, x = .array xs → y = .array ys → xs.length = ys.length)
    (each : ∀ a b, (a, b) ∈ pairs x y → Walked name f a b (g a b)) :
    Walked name f x y (do return .array (← (pairs x y).mapM fun p => g p.1 p.2)) := by
  have top (e : Fault) : ¬FailsAt name f x y [] e := by
    intro h
    rcases failsAt_nil h with ⟨hx, hy, _⟩ | ⟨xs, ys, rfl, rfl, differ⟩
    · simp [hx, hy] at nested
    · exact differ (fit xs ys rfl rfl)
  have walked {i : Nat} {a b} (found : (pairs x y)[i]? = some (a, b)) : Walked name f a b (g a b) :=
    each a b (List.mem_of_getElem? found)
  have succeeded {i : Nat} {a b z} (found : (pairs x y)[i]? = some (a, b)) (made : g a b = .ok z) :
      (∀ path e, ¬FailsAt name f a b path e) ∧ Answers f a b z := by
    have h := walked found
    rw [made] at h
    cases h with
    | answers none answers => exact ⟨none, answers⟩
  rcases Outcome.mapM_cases (fun p : Value × Value => g p.1 p.2) (pairs x y) with
    ⟨zs, run, length, made⟩ | ⟨i, ⟨a, b⟩, e, found, fails, run, before⟩
  · have pair {i : Nat} {a b} (found : (pairs x y)[i]? = some (a, b)) : ∃ z, g a b = .ok z := by
      have inside : i < (pairs x y).length := (List.getElem?_eq_some_iff.mp found).1
      exact ⟨zs[i], made i (a, b) zs[i] found (List.getElem?_eq_getElem (length ▸ inside))⟩
    rw [run]
    refine .answers (fun path e h => ?_) (.array nested length fun i a b z found hz => ?_)
    · cases path with
      | nil => exact top e h
      | cons i path =>
        obtain ⟨a, b, found, h⟩ := failsAt_cons.mp h
        obtain ⟨z, hz⟩ := pair found
        exact (succeeded found hz).1 path e h
    · exact (succeeded found (made i (a, b) z found hz)).2
  · have h := walked found
    rw [show g a b = .error e from fails] at h
    rw [run]
    cases h with
    | fails first =>
      refine .fails (.inside found first top fun j hj a b found => ?_)
      obtain ⟨z, hz⟩ := before j hj (a, b) found
      exact (succeeded found hz).1

/-- What combines two values element by element through itself comes to what the walk does. -/
theorem walked_of_combine (combined : ∀ x y, g x y = combine name g x y)
    (leaves : ∀ x y, x.isArray = false → y.isArray = false → g x y = f x y)
    (leaf : ∀ x y z, f x y = .ok z → z.isArray = false) (x y : Value) :
    Walked name f x y (g x y) := by
  induction size : sizeOf x + sizeOf y using Nat.strongRecOn generalizing x y with
  | _ n ih =>
    rcases combine_cases name g x y with
      ⟨hx, hy⟩ | ⟨xs, ys, rfl, rfl, differ, run⟩ | ⟨nested, fit, run⟩
    · rw [leaves x y hx hy]
      exact walked_leaves hx hy (leaf x y)
    · rw [combined, run]
      exact .fails ⟨.lengths .here differ, fun _ _ _ => nofun⟩
    · rw [combined, run]
      exact walked_pairs nested fit fun a b member => ih _ (size ▸ size_of_pairs member) a b rfl

end

end Value

namespace Rule

theorem apply_leaves (r : Rule) (s : Settings) (hx : x.isArray = false) (hy : y.isArray = false) :
    r.apply s x y = r.applyLeaves s maxPromotions x y := by
  rw [apply, Value.zipLeaves_of_leaf hx, Value.mapLeaves_of_leaf hy]

/-- The direct rule for two leaves goes before promotion. -/
theorem applyLeaves_direct {r : Rule} (rule : r.direct s x y = some result) (steps : Nat) :
    r.applyLeaves s steps x y = result := by
  cases steps with
  | zero => rw [applyLeaves, rule, Option.getD_some]
  | succ => rw [applyLeaves, rule]

/-- Two runs on leaves stay related through promotion if the direct rules and the refusals are. -/
theorem applyLeaves_related {r r' : Rule} {s : Settings} {R : Outcome Value → Outcome Value → Prop}
    {P : Value × Value → Value × Value → Prop}
    (rule : ∀ a b, P a b → Option.Rel R (r.direct s a.1 a.2) (r'.direct s b.1 b.2))
    (promoted : ∀ a b, P a b → Option.Rel P (a.1.promote? a.2) (b.1.promote? b.2))
    (refused : ∀ a b, P a b → R (throw (.unsupportedBy r.name [a.1, a.2]))
      (throw (.unsupportedBy r'.name [b.1, b.2])))
    (steps : Nat) (h : P a b) :
    R (r.applyLeaves s steps a.1 a.2) (r'.applyLeaves s steps b.1 b.2) := by
  induction steps generalizing a b with
  | zero =>
    have direct := rule a b h
    rw [applyLeaves, applyLeaves]
    generalize r.direct s a.1 a.2 = v, r'.direct s b.1 b.2 = w at direct
    cases direct with
    | none => exact refused a b h
    | some result => exact result
  | succ steps ih =>
    have direct := rule a b h
    have operands := promoted a b h
    rw [applyLeaves, applyLeaves]
    generalize r.direct s a.1 a.2 = v, r'.direct s b.1 b.2 = w at direct
    cases direct with
    | none =>
      generalize a.1.promote? a.2 = v, b.1.promote? b.2 = w at operands
      cases operands with
      | none => exact refused a b h
      | some operands => exact ih operands
    | some result => exact result

/-- A binary operation comes to what the walk does with the rule for leaves. -/
theorem walked_apply (r : Rule) (s : Settings) (x y : Value) :
    Value.Walked r.name (r.applyLeaves s maxPromotions) x y (r.apply s x y) :=
  Value.walked_of_combine (Value.zipLeaves_eq_combine r.name _) (fun _ _ => r.apply_leaves s)
    (fun x y z made => ((r.applyLeaves_single s maxPromotions x y).scalar z made).isArray) x y

/-- A binary operation on any two values: if no position of their walk fails, the result has an
array exactly where one of the two has one, and holds at each pair of leaves what the rule makes of
that pair. Otherwise the result is the fault of the first position that fails, where arrays of
different lengths fail before their elements. -/
theorem apply_leafwise (r : Rule) (s : Settings) (x y : Value) :
    let rule := r.applyLeaves s maxPromotions
    ((∀ path e, ¬Value.FailsAt r.name rule x y path e) →
      ∃ z, r.apply s x y = .ok z ∧ Value.Answers rule x y z) ∧
    ((∃ path e, Value.FailsAt r.name rule x y path e) →
      ∃ path e, Value.FirstFailure r.name rule x y path e ∧ r.apply s x y = .error e) := by
  intro rule
  have walked := r.walked_apply s x y
  constructor
  · intro none
    cases made : r.apply s x y with
    | ok z =>
      rw [made] at walked
      cases walked with
      | answers _ answers => exact ⟨z, rfl, answers⟩
    | error e =>
      rw [made] at walked
      cases walked with
      | fails first => exact absurd first.fails (none _ e)
  · rintro ⟨path, e, fails⟩
    cases made : r.apply s x y with
    | ok z =>
      rw [made] at walked
      cases walked with
      | answers none _ => exact absurd fails (none path e)
    | error e =>
      rw [made] at walked
      cases walked with
      | fails first => exact ⟨_, e, first, rfl⟩

/-- Rows with a text, and rows of which the second does not fit: that its elements fail, too, does
not count. -/
theorem apply_leafwise_rows :
    let rule := add.applyLeaves {} maxPromotions
    let x : Value := .array [.array [.text "a"], .array []]
    let y : Value := .text "b"
    let rows : Value := .array [.array [.text "a"], .array [.boolean true]]
    let other : Value := .array [.text "b", .array [.text "c", .text "d"]]
    ((∀ path e, ¬Value.FailsAt add.name rule x y path e) ∧
      ∃ z, add.apply {} x y = .ok z ∧ Value.Answers rule x y z) ∧
    (∃ path e, Value.FailsAt add.name rule rows other path e) ∧
      ∃ path e, Value.FirstFailure add.name rule rows other path e ∧
        add.apply {} rows other = .error e := by
  intro rule x y rows other
  have made : add.apply {} x y = .ok (.array [.array [.text "ab"], .array []]) := rfl
  have none : ∀ path e, ¬Value.FailsAt add.name rule x y path e := by
    intro path e fails
    obtain ⟨_, _, _, run⟩ := (apply_leafwise add {} x y).2 ⟨path, e, fails⟩
    cases made.symm.trans run
  have inside : Value.FailsAt add.name rule rows other [1, 0]
      (.unsupported "add" [.boolean, .text]) :=
    .leaves (.inside rfl (.inside rfl .here)) rfl rfl rfl
  exact ⟨⟨none, (apply_leafwise add {} x y).1 none⟩, ⟨_, _, inside⟩,
    (apply_leafwise add {} rows other).2 ⟨_, _, inside⟩⟩

end Rule
end Reckon
