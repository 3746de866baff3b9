import Reckon.Proofs.Operation.Broadcast
import Mathlib.Data.List.Forall2

/-! Operations with two arguments that are combined element by element. They go down one level of
the walk that the binary operations make to its end: what they do with elements that are arrays is
up to the function for the elements. Rounding and building complex numbers refuse them, and the
logarithm takes them if each has a logarithm by itself. -/
namespace Reckon

namespace Value

/-- The walk succeeds: where it meets two arrays they have one length, and where it meets two leaves
the operation does not fail. -/
structure Fits (f : Value → Value → Outcome Value) (x y : Value) : Prop where
  lengths : Meets x y path (array xs) (array ys) → xs.length = ys.length
  leaves : Meets x y path a b → a.isArray = false → b.isArray = false → ∃ c, f a b = .ok c

section

variable {name : String} {f g : Value → Value → Outcome Value} {x y : Value}

namespace Fits

theorem inside (fits : Fits f x y) (member : (a, b) ∈ pairs x y) : Fits f a b := by
  obtain ⟨i, found⟩ := List.getElem?_of_mem member
  exact ⟨fun meets => fits.lengths (.inside found meets),
    fun meets => fits.leaves (.inside found meets)⟩

theorem leaf (hx : x.isArray = false) (hy : y.isArray = false) (made : f x y = .ok c) :
    Fits f x y := by
  have only {path a b} (meets : Meets x y path a b) : a = x ∧ b = y := by
    cases meets with
    | here => exact ⟨rfl, rfl⟩
    | inside found => simp [pairs_leaves hx hy] at found
  constructor
  · intro path xs ys meets
    obtain ⟨rfl, -⟩ := only meets
    contradiction
  · intro path a b meets _ _
    obtain ⟨rfl, rfl⟩ := only meets
    exact ⟨c, made⟩

theorem array (nested : (x.isArray || y.isArray) = true)
    (fit : ∀ xs ys, x = .array xs → y = .array ys → xs.length = ys.length)
    (each : ∀ a b, (a, b) ∈ pairs x y → Fits f a b) : Fits f x y := by
  constructor
  · intro path xs ys meets
    cases meets with
    | here => exact fit xs ys rfl rfl
    | inside found meets => exact (each _ _ (List.mem_of_getElem? found)).lengths meets
  · intro path a b meets ha hb
    cases meets with
    | here => simp [ha, hb] at nested
    | inside found meets => exact (each _ _ (List.mem_of_getElem? found)).leaves meets ha hb

/-- An array against a leaf. -/
theorem row (leaf : y.isArray = false) (each : ∀ x ∈ xs, Fits f x y) : Fits f (.array xs) y := by
  refine .array rfl (fun _ _ _ same => nomatch leaf.symm.trans (congrArg isArray same))
    fun a b member => ?_
  rw [pairs_left leaf] at member
  obtain ⟨a, inside, same⟩ := List.mem_map.mp member
  obtain ⟨rfl, rfl⟩ := Prod.mk.inj same
  exact each a inside

theorem cell (leaf : y.isArray = false) (fits : Fits f x y) : Fits f (.array [x]) y :=
  row leaf fun _ member => List.mem_singleton.mp member ▸ fits

theorem answers_leaves (fits : Fits f x y) (hx : x.isArray = false) (hy : y.isArray = false)
    (leaf : ∀ z, f x y = .ok z → z.isArray = false) : ∃ z, f x y = .ok z ∧ Answers f x y z := by
  obtain ⟨z, made⟩ := fits.leaves .here hx hy
  have walked : Walked "" f x y (f x y) := walked_leaves hx hy leaf
  rw [made] at walked
  cases walked with
  | answers _ answers => exact ⟨z, made, answers⟩

/-- What answers each pair of elements answers the two values. -/
theorem answers_pairs (fits : Fits f x y) (nested : (x.isArray || y.isArray) = true)
    (each : ∀ a b, (a, b) ∈ pairs x y → ∃ z, g a b = .ok z ∧ Answers f a b z) :
    ∃ z, combine name g x y = .ok z ∧ Answers f x y z := by
  rcases combine_cases name g x y with
    ⟨hx, hy⟩ | ⟨xs, ys, rfl, rfl, differ, -⟩ | ⟨-, -, run⟩
  · simp [hx, hy] at nested
  · exact absurd (fits.lengths .here) differ
  · rcases Outcome.mapM_cases (fun p : Value × Value => g p.1 p.2) (pairs x y) with
      ⟨zs, made, length, results⟩ | ⟨i, ⟨a, b⟩, e, found, fails, -⟩
    · refine ⟨.array zs, by rw [run, made]; rfl, .array nested length fun i a b z found hz => ?_⟩
      obtain ⟨z', made, answers⟩ := each a b (List.mem_of_getElem? found)
      obtain rfl : z' = z := Except.ok.inj (made.symm.trans (results i (a, b) z found hz))
      exact answers
    · obtain ⟨z, made, -⟩ := each a b (List.mem_of_getElem? found)
      cases made.symm.trans fails

end Fits

/-- A combination that succeeds does so on all pairs of elements. -/
theorem combine_pairs_ok (made : combine name g x y = .ok z) (member : (a, b) ∈ pairs x y) :
    ∃ c, g a b = .ok c := by
  rcases combine_cases name g x y with
    ⟨hx, hy⟩ | ⟨xs, ys, rfl, rfl, -, run⟩ | ⟨-, -, run⟩
  · simp [pairs_leaves hx hy] at member
  · cases run.symm.trans made
  · rw [run] at made
    obtain ⟨zs, made, -⟩ := Outcome.bind_eq_ok.mp made
    rcases Outcome.mapM_cases (fun p : Value × Value => g p.1 p.2) (pairs x y) with
      ⟨ws, run, length, results⟩ | ⟨_, _, _, _, _, fails, _⟩
    · obtain ⟨i, inside, found⟩ := List.getElem_of_mem member
      have hw := List.getElem?_eq_getElem (length ▸ inside : i < ws.length)
      have found := found ▸ List.getElem?_eq_getElem inside
      exact ⟨ws[i], results i (a, b) _ found hw⟩
    · cases fails.symm.trans made

/-- What stands in a pair is one of the two values or an element of it. -/
theorem mem_pairs (member : (a, b) ∈ pairs x y) :
    (a = x ∨ ∃ xs, x = array xs ∧ a ∈ xs) ∧ (b = y ∨ ∃ ys, y = array ys ∧ b ∈ ys) := by
  rcases x.leaf_or_array with hx | ⟨xs, rfl⟩ <;> rcases y.leaf_or_array with hy | ⟨ys, rfl⟩
  · simp [pairs_leaves hx hy] at member
  · obtain ⟨b, inside, same⟩ := List.mem_map.mp (pairs_right hx ys ▸ member)
    obtain ⟨rfl, rfl⟩ := Prod.mk.inj same
    exact ⟨.inl rfl, .inr ⟨ys, rfl, inside⟩⟩
  · obtain ⟨a, inside, same⟩ := List.mem_map.mp (pairs_left hy xs ▸ member)
    obtain ⟨rfl, rfl⟩ := Prod.mk.inj same
    exact ⟨.inr ⟨xs, rfl, inside⟩, .inl rfl⟩
  · obtain ⟨ha, hb⟩ := List.of_mem_zip (show (a, b) ∈ xs.zip ys from member)
    exact ⟨.inr ⟨xs, rfl, ha⟩, .inr ⟨ys, rfl, hb⟩⟩

theorem mapElements_forall₂ {f : Value → Outcome Value} (made : mapElements f xs = .ok ys) :
    List.Forall₂ (fun x y => f x = .ok y) xs ys := by
  induction xs generalizing ys with
  | nil =>
    obtain rfl := Except.ok.inj made
    exact .nil
  | cons x xs ih =>
    obtain ⟨y, first, made⟩ := Outcome.bind_eq_ok.mp made
    obtain ⟨others, rest, made⟩ := Outcome.bind_eq_ok.mp made
    obtain rfl := Except.ok.inj made
    exact .cons first (ih rest)

theorem mapElements_congr {f g : Value → Outcome Value}
    (same : List.Forall₂ (fun x y => f x = g y) xs ys) : mapElements f xs = mapElements g ys := by
  induction same with
  | nil => rfl
  | cons first _ ih => rw [mapElements, mapElements, first, ih]

theorem zipElements_congr {R Q : Value → Value → Prop} (hx : List.Forall₂ R xs xs')
    (hy : List.Forall₂ Q ys ys') (same : ∀ x x' y y', R x x' → Q y y' → f x y = g x' y') :
    zipElements f xs ys = zipElements g xs' ys' := by
  induction hx generalizing ys ys' with
  | nil => rfl
  | cons first _ ih =>
    cases hy with
    | nil => rfl
    | cons first' rest => rw [zipElements, zipElements, same _ _ _ _ first first', ih rest]

/-- Leaves become leaves, and arrays arrays of what their elements become. -/
theorem mapLeaves_cases {f : Value → Outcome Value} (scalar : ∀ v w, f v = .ok w → w.Scalar)
    (made : x.mapLeaves f = .ok w) :
    (x.isArray = false ∧ w.isArray = false) ∨
    ∃ xs ws, x = array xs ∧ w = array ws ∧
      List.Forall₂ (fun v w => v.mapLeaves f = .ok w) xs ws := by
  rcases x.leaf_or_array with leaf | ⟨xs, rfl⟩
  · rw [mapLeaves_of_leaf leaf] at made
    exact .inl ⟨leaf, (scalar x w made).isArray⟩
  · rw [mapLeaves, mapLeavesAll_eq] at made
    obtain ⟨ws, each, made⟩ := Outcome.bind_eq_ok.mp made
    obtain rfl := Except.ok.inj made
    exact .inr ⟨xs, ws, rfl, rfl, mapElements_forall₂ each⟩

theorem mapLeaves_item {f : Value → Outcome Value} (made : (array xs).mapLeaves f = .ok w)
    (member : v ∈ xs) : ∃ w, v.mapLeaves f = .ok w := by
  rw [mapLeaves, mapLeavesAll_eq, mapElements_eq] at made
  obtain ⟨ws, run, -⟩ := Outcome.bind_eq_ok.mp made
  rcases Outcome.mapM_cases (mapLeaves f) xs with ⟨ws', -, length, each⟩ | ⟨_, _, _, _, _, fails, _⟩
  · obtain ⟨i, inside, rfl⟩ := List.getElem_of_mem member
    have hw := List.getElem?_eq_getElem (length ▸ inside : i < ws'.length)
    exact ⟨ws'[i], each i _ _ (List.getElem?_eq_getElem inside) hw⟩
  · cases fails.symm.trans run

end

end Value

namespace Operation

open Value

variable {s : Settings} {x y : Value}

def pairwise : List Operation := [round, complex, log]

/-- What the operation takes as an element of its arguments: any leaf, and the logarithm also an
array that has a logarithm by itself. -/
def TakesElement (s : Settings) : Operation → Value → Prop
  | log, v => ∃ w, log.call s [v] = .ok w
  | _, v => v.isArray = false

section Logarithm

theorem logToBase_eq (numerator : x.mapLeaves naturalLog = .ok n)
    (denominator : y.mapLeaves naturalLog = .ok d) :
    logToBase s x y = Rule.divide.apply s n d := by
  rw [logToBase, numerator, denominator]
  rfl

/-- Dividing logarithms goes the same way as the walk of the two values themselves. -/
theorem logToBase_eq_combine (hx : x.mapLeaves naturalLog = .ok n)
    (hy : y.mapLeaves naturalLog = .ok d) :
    logToBase s x y = combine Rule.divide.name (logToBase s) x y := by
  have scalar (v w : Value) (made : naturalLog v = .ok w) : w.Scalar :=
    (naturalLog_single v).scalar w made
  have each {a b a' b' : Value} (ha : a.mapLeaves naturalLog = .ok a')
      (hb : b.mapLeaves naturalLog = .ok b') :
      zipLeaves Rule.divide.name (Rule.divide.applyLeaves s Rule.maxPromotions) a' b' =
        logToBase s a b := (logToBase_eq ha hb).symm
  rw [logToBase_eq hx hy, Rule.apply, zipLeaves_eq_combine]
  rcases mapLeaves_cases scalar hx with ⟨leafx, leafn⟩ | ⟨xs, ns, rfl, rfl, hxs⟩ <;>
    rcases mapLeaves_cases scalar hy with ⟨leafy, leafd⟩ | ⟨ys, ds, rfl, rfl, hys⟩
  · rw [combine_leaves leafn leafd, combine_leaves leafx leafy, each hx hy]
  · rw [combine_right leafn, combine_right leafx,
      mapElements_congr (hys.flip.imp fun _ _ hb => each hx hb)]
  · rw [combine_left leafd, combine_left leafy,
      mapElements_congr (hxs.flip.imp fun _ _ ha => each ha hy)]
  · rw [combine, combine, hxs.length_eq, hys.length_eq,
      zipElements_congr hxs.flip hys.flip fun _ _ _ _ ha hb => each ha hb]

theorem TakesElement.of_pairs (hx : TakesElement s log x) (hy : TakesElement s log y)
    (member : (a, b) ∈ pairs x y) : TakesElement s log a ∧ TakesElement s log b := by
  obtain ⟨left, right⟩ := mem_pairs member
  constructor
  · rcases left with rfl | ⟨xs, rfl, inside⟩
    · exact hx
    · obtain ⟨n, made⟩ := hx
      exact mapLeaves_item made inside
  · rcases right with rfl | ⟨ys, rfl, inside⟩
    · exact hy
    · obtain ⟨d, made⟩ := hy
      exact mapLeaves_item made inside

theorem logToBase_scalar (hx : x.isArray = false) (hy : y.isArray = false)
    (made : logToBase s x y = .ok z) : z.isArray = false := by
  obtain ⟨n, numerator, made⟩ := Outcome.bind_eq_ok.mp made
  obtain ⟨d, denominator, made⟩ := Outcome.bind_eq_ok.mp made
  rw [mapLeaves_of_leaf hx] at numerator
  rw [mapLeaves_of_leaf hy] at denominator
  have leafn := ((naturalLog_single x).scalar n numerator).isArray
  have leafd := ((naturalLog_single y).scalar d denominator).isArray
  rw [Rule.apply_leaves _ _ leafn leafd] at made
  exact ((Rule.divide.applyLeaves_single s _ n d).scalar z made).isArray

theorem logToBase_answers (hx : TakesElement s log x) (hy : TakesElement s log y)
    (fits : Fits (fun a b => log.call s [a, b]) x y) :
    ∃ z, logToBase s x y = .ok z ∧ Answers (fun a b => log.call s [a, b]) x y z := by
  -- By the size of both values, as the walk goes down now in one of them and now in both.
  induction size : sizeOf x + sizeOf y using Nat.strongRecOn generalizing x y with
  | _ n ih =>
    have called : log.call s [x, y] = combine log.name (logToBase s) x y := rfl
    by_cases nested : (x.isArray || y.isArray) = true
    · obtain ⟨_, numerator⟩ := hx
      obtain ⟨_, denominator⟩ := hy
      rw [logToBase_eq_combine numerator denominator]
      refine fits.answers_pairs nested fun a b member => ?_
      obtain ⟨ha, hb⟩ := TakesElement.of_pairs ⟨_, numerator⟩ ⟨_, denominator⟩ member
      exact ih _ (size ▸ size_of_pairs member) ha hb (fits.inside member) rfl
    · obtain ⟨leafx, leafy⟩ : x.isArray = false ∧ y.isArray = false := by simpa using nested
      rw [combine_leaves leafx leafy] at called
      rw [← called]
      exact fits.answers_leaves leafx leafy fun z made =>
        logToBase_scalar leafx leafy (called.symm.trans made)

end Logarithm

/-- An operation that is combined element by element succeeds exactly on elements it takes, if it
takes what it succeeds on and answers what it takes. -/
theorem answers_of_elements {op : Operation} {g : Value → Value → Outcome Value}
    (called : ∀ a b, op.call s [a, b] = combine op.name g a b)
    (takes : ∀ a b c, g a b = .ok c → TakesElement s op a ∧ TakesElement s op b)
    (answers : ∀ a b, TakesElement s op a → TakesElement s op b →
      Fits (fun a b => op.call s [a, b]) a b →
      ∃ c, g a b = .ok c ∧ Answers (fun a b => op.call s [a, b]) a b c)
    (leaf : ∀ a b c, a.isArray = false → b.isArray = false → g a b = .ok c → c.isArray = false)
    (fits : Fits (fun a b => op.call s [a, b]) x y) :
    ((∃ z, op.call s [x, y] = .ok z) ↔
      ∀ a b, (a, b) ∈ pairs x y → TakesElement s op a ∧ TakesElement s op b) ∧
    ∀ z, op.call s [x, y] = .ok z → Answers (fun a b => op.call s [a, b]) x y z := by
  by_cases nested : (x.isArray || y.isArray) = true
  · have onPairs (taken : ∀ a b, (a, b) ∈ pairs x y → TakesElement s op a ∧ TakesElement s op b) :
        ∃ z, op.call s [x, y] = .ok z ∧ Answers (fun a b => op.call s [a, b]) x y z := by
      rw [called]
      exact fits.answers_pairs nested fun a b member =>
        answers a b (taken a b member).1 (taken a b member).2 (fits.inside member)
    have taken {z} (made : op.call s [x, y] = .ok z) (a b) (member : (a, b) ∈ pairs x y) :
        TakesElement s op a ∧ TakesElement s op b := by
      rw [called] at made
      obtain ⟨c, made⟩ := combine_pairs_ok made member
      exact takes a b c made
    refine ⟨⟨fun ⟨z, made⟩ => taken made, fun all => ?_⟩, fun z made => ?_⟩
    · obtain ⟨z, made, -⟩ := onPairs all
      exact ⟨z, made⟩
    · obtain ⟨w, same, result⟩ := onPairs (taken made)
      obtain rfl : w = z := Except.ok.inj (same.symm.trans made)
      exact result
  · obtain ⟨hx, hy⟩ : x.isArray = false ∧ y.isArray = false := by simpa using nested
    have direct : op.call s [x, y] = g x y := by rw [called, combine_leaves hx hy]
    obtain ⟨z, made, result⟩ := fits.answers_leaves hx hy fun z made =>
      leaf x y z hx hy (direct.symm.trans made)
    refine ⟨⟨fun _ => by simp [pairs_leaves hx hy], fun _ => ⟨z, made⟩⟩, fun w same => ?_⟩
    obtain rfl : z = w := Except.ok.inj (made.symm.trans same)
    exact result

/-- An operation whose function for elements works on leaves alone. -/
theorem answers_of_leaves {op : Operation} {g : Value → Value → Outcome Value}
    (leafwise : ∀ v, TakesElement s op v ↔ v.isArray = false)
    (called : ∀ a b, op.call s [a, b] = combine op.name g a b)
    (leaves : ∀ a b c, g a b = .ok c → a.isArray = false ∧ b.isArray = false ∧ c.Scalar)
    (fits : Fits (fun a b => op.call s [a, b]) x y) :
    ((∃ z, op.call s [x, y] = .ok z) ↔
      ∀ a b, (a, b) ∈ pairs x y → TakesElement s op a ∧ TakesElement s op b) ∧
    ∀ z, op.call s [x, y] = .ok z → Answers (fun a b => op.call s [a, b]) x y z := by
  refine answers_of_elements called (fun a b c made => ?_) (fun a b ha hb fits => ?_)
    (fun a b c _ _ made => (leaves a b c made).2.2.isArray) fits
  · obtain ⟨ha, hb, -⟩ := leaves a b c made
    exact ⟨(leafwise a).mpr ha, (leafwise b).mpr hb⟩
  · have leafa := (leafwise a).mp ha
    have leafb := (leafwise b).mp hb
    have direct : op.call s [a, b] = g a b := by rw [called, combine_leaves leafa leafb]
    rw [← direct]
    exact fits.answers_leaves leafa leafb fun c made =>
      (leaves a b c (direct.symm.trans made)).2.2.isArray

/-- Where the walk of two arguments succeeds, the call succeeds exactly if the operation takes all
elements of the arguments: rounding and complex numbers take leaves alone, and the logarithm takes
what has one. Then the result has an array exactly where an argument has one, and holds at each pair
of leaves what the operation makes of that pair. -/
theorem pairwise_answers (s : Settings) {op : Operation} (member : op ∈ pairwise) {x y : Value}
    (fits : Fits (fun a b => op.call s [a, b]) x y) :
    ((∃ z, op.call s [x, y] = .ok z) ↔
      ∀ a b, (a, b) ∈ pairs x y → TakesElement s op a ∧ TakesElement s op b) ∧
    ∀ z, op.call s [x, y] = .ok z → Answers (fun a b => op.call s [a, b]) x y z := by
  simp only [pairwise, List.mem_cons, List.not_mem_nil, or_false] at member
  rcases member with rfl | rfl | rfl
  · exact answers_of_leaves (fun _ => Iff.rfl) (fun _ _ => rfl) (fun _ _ _ => roundTo_leaves) fits
  · exact answers_of_leaves (fun _ => Iff.rfl) (fun _ _ => rfl) (fun _ _ _ => ofParts_leaves) fits
  · refine answers_of_elements (fun _ _ => rfl) (fun a b c made => ?_)
      (fun _ _ => logToBase_answers) (fun _ _ _ => logToBase_scalar) fits
    obtain ⟨n, numerator, made⟩ := Outcome.bind_eq_ok.mp made
    obtain ⟨d, denominator, -⟩ := Outcome.bind_eq_ok.mp made
    exact ⟨⟨n, numerator⟩, ⟨d, denominator⟩⟩

/-- Complex numbers from a row of real parts, and logarithms of a matrix without elements. -/
theorem pairwise_answers_rows :
    let built := fun a b => complex.call {} [a, b]
    let row : Value := .array [.number 1.5, .boolean true]
    let logarithm := fun a b => log.call {} [a, b]
    let empty : Value := .array [.array []]
    (complex ∈ pairwise ∧ Fits built row (.number 2) ∧
      ∃ z, built row (.number 2) = .ok z ∧ Answers built row (.number 2) z) ∧
    (log ∈ pairwise ∧ Fits logarithm empty (.number 2) ∧
      ∃ z, logarithm empty (.number 2) = .ok z ∧ Answers logarithm empty (.number 2) z) := by
  intro built row logarithm empty
  have fits : Fits built row (.number 2) := by
    refine .row rfl fun a member => ?_
    have member : a = .number 1.5 ∨ a = .boolean true := by simpa using member
    rcases member with rfl | rfl <;> exact .leaf rfl rfl rfl
  have hollow : Fits logarithm empty (.number 2) := .cell rfl (.row rfl nofun)
  have ⟨succeeds, answers⟩ := pairwise_answers {} (by simp [pairwise]) fits
  have ⟨succeeds', answers'⟩ := pairwise_answers {} (by simp [pairwise]) hollow
  obtain ⟨z, made⟩ := succeeds.mpr fun a b member => by
    have member : (a = .number 1.5 ∧ b = .number 2) ∨ (a = .boolean true ∧ b = .number 2) := by
      simpa [row, pairs] using member
    rcases member with ⟨rfl, rfl⟩ | ⟨rfl, rfl⟩ <;> exact ⟨rfl, rfl⟩
  obtain ⟨w, made'⟩ := succeeds'.mpr fun a b member => by
    obtain ⟨rfl, rfl⟩ : a = .array [] ∧ b = .number 2 := by simpa [empty, pairs] using member
    exact ⟨⟨_, rfl⟩, ⟨_, rfl⟩⟩
  exact ⟨⟨by simp [pairwise], fits, z, made, answers z made⟩,
    ⟨by simp [pairwise], hollow, w, made', answers' w made'⟩⟩

/-- Rounding and complex numbers refuse an array inside an array although the walk succeeds, and so
does the logarithm where its base stands opposite to no leaf. -/
theorem nested_elements_refused :
    let rounded := fun a b => round.call {} [a, b]
    let built := fun a b => complex.call {} [a, b]
    let logarithm := fun a b => log.call {} [a, b]
    let cell : Value := .array [.array [.number 1.5]]
    (Fits rounded cell (.number 0) ∧
      rounded cell (.number 0) = .error (.unsupported "round" [.array])) ∧
    (Fits built cell (.number 0) ∧
      built cell (.number 0) = .error (.unsupported "complex" [.array, .number])) ∧
    (Fits logarithm (.array [.array []]) (.text "a") ∧
      logarithm (.array [.array []]) (.text "a") = .error (.unsupported "log" [.text])) := by
  intro rounded built logarithm cell
  have inCell {f} (leaf : Fits f (.number 1.5) (.number 0)) : Fits f cell (.number 0) :=
    .cell rfl (.cell rfl leaf)
  exact ⟨⟨inCell (.leaf rfl rfl rfl), rfl⟩, ⟨inCell (.leaf rfl rfl rfl), rfl⟩,
    .cell rfl (.row rfl nofun), rfl⟩

end Operation
end Reckon
