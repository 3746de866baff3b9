import Reckon.Proofs.Binary64.Integer
import Reckon.Proofs.Exact.Reading
import Reckon.Proofs.Operation.Power
import Reckon.Proofs.Evaluate.Bodies
import Reckon.Proofs.Evaluate.Results
import Reckon.Proofs.Shape

/-! Indexing. An index means a place in an array, or the last one a place in a text, and the first
index without a place decides how indexing fails. -/
namespace Reckon

namespace Value

/-- The integer in an index. A plain number holds one where doubles tell integers apart, and an
exact number where it has 64 bits. -/
inductive Holds : Value → Int → Prop
  | number {i : Int} : (Binary64.ofFloat x).value? = some (i : Rat) → i.natAbs ≤ 2 ^ 53 - 1 →
      Holds (number x) i
  | exact {i : Int} : -2 ^ 63 ≤ i → i < 2 ^ 63 → Holds (exact i) i

/-- How many places an index can mean, given the indices behind it: a text has places for the last
index only. -/
def extent? : Value → List Value → Option Nat
  | array items, _ => some items.length
  | text s, [] => some s.length
  | _, _ => none

inductive Selects : Value → List Value → Value → Prop
  | done : Selects v [] v
  | element {k : Nat} : Holds index (k + 1) → items[k]? = some item → Selects item others w →
      Selects (array items) (index :: others) w
  | character {k : Nat} : Holds index (k + 1) → s.toList[k]? = some c →
      Selects (text s) [index] (text (String.ofList [c]))

/-- Following the indices comes to the integer `i` where there are `n` places, and `i` is none of
them. -/
inductive Misses : Value → List Value → Int → Nat → Prop
  | here : extent? v others = some n → Holds index i → ¬(1 ≤ i ∧ i ≤ n) →
      Misses v (index :: others) i n
  | inside {k : Nat} : Holds index (k + 1) → items[k]? = some item → Misses item others i n →
      Misses (array items) (index :: others) i n

section

variable {index v w : Value} {others indices : List Value} {i : Int}

theorem indexInteger_of_holds (holds : Holds index i) : indexInteger index = .ok i := by
  cases holds with
  | @number x _ value small =>
    have integer : Binary64.safeInteger? x = some i :=
      Option.filter_eq_some_iff.mpr ⟨Binary64.integer?_eq_some.mpr value, decide_eq_true small⟩
    simp only [indexInteger, integer]
    rfl
  | exact low high =>
    have range : Exact.isInt64 i := Exact.isInt64_iff.mpr ⟨low, Int.le_of_lt_add_one high⟩
    have integer : Exact.toInt64? i = some i := Exact.toInt64?_eq_some.mpr ⟨rfl, range⟩
    simp only [indexInteger, integer]
    rfl

/-- An index without an integer is refused as it is shown. -/
theorem indexInteger_cases (index : Value) : (∃ i, Holds index i) ∨
    indexInteger index = .error (.invalid "index" (.indexNotInteger index.render)) := by
  unfold indexInteger
  split
  · rename_i x
    cases integer : Binary64.safeInteger? x with
    | none => exact .inr rfl
    | some i =>
      obtain ⟨integer, small⟩ := Option.filter_eq_some_iff.mp integer
      exact .inl ⟨i, .number (Binary64.integer?_eq_some.mp integer) (of_decide_eq_true small)⟩
  · rename_i q
    cases integer : Exact.toInt64? q with
    | none => exact .inr rfl
    | some i =>
      obtain ⟨rfl, range⟩ := Exact.toInt64?_eq_some.mp integer
      obtain ⟨low, high⟩ := Exact.isInt64_iff.mp range
      exact .inl ⟨i, .exact low (Int.lt_add_one_of_le high)⟩
  · exact .inr rfl

theorem Holds.unique (h : Holds index i) (h' : Holds index j) : i = j :=
  Except.ok.inj ((indexInteger_of_holds h).symm.trans (indexInteger_of_holds h'))

theorem element_of_holds (holds : Holds index i) (xs : List α) : element xs index =
    if i < 1 then .error (.outOfRange i xs.length)
    else match xs[i.toNat - 1]? with
      | some x => .ok x
      | none => .error (.outOfRange i xs.length) := by
  rw [element, indexInteger_of_holds holds]
  rfl

/-- An index has a place in a list, or holds an integer that has none, or holds no integer. -/
theorem element_cases (xs : List α) (index : Value) :
    (∃ (k : Nat) (x : α), Holds index (k + 1) ∧ xs[k]? = some x ∧ element xs index = .ok x) ∨
    (∃ i, Holds index i ∧ ¬(1 ≤ i ∧ i ≤ xs.length) ∧
      element xs index = .error (.outOfRange i xs.length)) ∨
    ((∀ i, ¬Holds index i) ∧
      element xs index = .error (.invalid "index" (.indexNotInteger index.render))) := by
  rcases indexInteger_cases index with ⟨i, holds⟩ | refused
  · have run := element_of_holds holds xs
    by_cases below : i < 1
    · rw [if_pos below] at run
      exact .inr (.inl ⟨i, holds, by omega, run⟩)
    · obtain ⟨k, rfl⟩ : ∃ k : Nat, i = k + 1 := ⟨i.toNat - 1, by omega⟩
      have place : ((k : Int) + 1).toNat - 1 = k := by omega
      rw [if_neg below, place] at run
      cases found : xs[k]? with
      | some x => exact .inl ⟨k, x, holds, found, by rw [run, found]⟩
      | none =>
        have beyond := List.getElem?_eq_none_iff.mp found
        exact .inr (.inl ⟨k + 1, holds, by omega, by rw [run, found]⟩)
  · refine .inr (.inr ⟨fun i holds => ?_, ?_⟩)
    · cases refused.symm.trans (indexInteger_of_holds holds)
    · rw [element, refused]
      rfl

theorem element_eq_ok {xs : List α} :
    element xs index = .ok x ↔ ∃ k : Nat, Holds index (k + 1) ∧ xs[k]? = some x := by
  rcases element_cases xs index with
    ⟨k, y, holds, found, run⟩ | ⟨i, holds, outside, run⟩ | ⟨none, run⟩
  · rw [run]
    constructor
    · rintro ⟨⟩
      exact ⟨k, holds, found⟩
    · rintro ⟨k', holds', found'⟩
      have := holds.unique holds'
      obtain rfl : k = k' := by omega
      rw [Option.some.inj (found.symm.trans found')]
  · refine iff_of_false (fun made => nomatch run.symm.trans made) ?_
    rintro ⟨k, holds', found⟩
    have := holds.unique holds'
    have := (List.getElem?_eq_some_iff.mp found).1
    omega
  · exact iff_of_false (fun made => nomatch run.symm.trans made) fun ⟨k, holds, _⟩ => none _ holds

theorem element_misses_iff {xs : List α} : element xs index = .error (.outOfRange i n) ↔
    xs.length = n ∧ Holds index i ∧ ¬(1 ≤ i ∧ i ≤ n) := by
  rcases element_cases xs index with
    ⟨k, y, holds, found, run⟩ | ⟨j, holds, outside, run⟩ | ⟨none, run⟩
  · refine iff_of_false (fun fails => nomatch run.symm.trans fails) ?_
    rintro ⟨rfl, holds', outside⟩
    have := holds.unique holds'
    have := (List.getElem?_eq_some_iff.mp found).1
    omega
  · rw [run]
    constructor
    · rintro ⟨⟩
      exact ⟨rfl, holds, outside⟩
    · rintro ⟨rfl, holds', -⟩
      rw [holds.unique holds']
  · exact iff_of_false (fun fails => nomatch run.symm.trans fails) fun h => none _ h.2.1

/-- All other faults say that the index is no integer. -/
theorem element_invalid {xs : List α} (fails : element xs index = .error e)
    (other : ∀ i n, e ≠ .outOfRange i n) : ∃ objection, e = .invalid "index" objection := by
  rcases element_cases xs index with ⟨k, y, -, -, run⟩ | ⟨j, -, -, run⟩ | ⟨-, run⟩
  · cases run.symm.trans fails
  · exact absurd (Except.error.inj (fails.symm.trans run)) (other _ _)
  · exact ⟨_, Except.error.inj (fails.symm.trans run)⟩

/-! ## Several indices -/

theorem select_array (items : List Value) (index : Value) (others : List Value) :
    (array items).select (index :: others) =
      (element items index >>= fun item => item.select others) := rfl

theorem select_text (s : String) (index : Value) : (text s).select [index] =
    (element s.toList index >>= fun c => pure (text (String.ofList [c]))) := rfl

theorem select_eq_ok : v.select indices = .ok w ↔ Selects v indices w := by
  induction indices generalizing v with
  | nil =>
    have run : v.select [] = .ok v := by cases v <;> rfl
    rw [run]
    constructor
    · rintro ⟨⟩
      exact .done
    · rintro ⟨⟩
      rfl
  | cons index others ih =>
    constructor
    · intro made
      unfold select at made
      split at made
      · obtain ⟨item, found, made⟩ := Outcome.bind_eq_ok.mp made
        obtain ⟨k, holds, found⟩ := element_eq_ok.mp found
        exact .element holds found (ih.mp made)
      · split at made
        · rename_i last
          obtain rfl := List.isEmpty_iff.mp last
          obtain ⟨c, found, made⟩ := Outcome.bind_eq_ok.mp made
          obtain ⟨k, holds, found⟩ := element_eq_ok.mp found
          obtain rfl := Except.ok.inj made
          exact .character holds found
        · cases made
      · cases made
    · intro selects
      cases selects with
      | element holds found rest =>
        rw [select_array, element_eq_ok.mpr ⟨_, holds, found⟩]
        exact ih.mpr rest
      | character holds found =>
        rw [select_text, element_eq_ok.mpr ⟨_, holds, found⟩]
        rfl

theorem select_misses_iff {i : Int} {n : Nat} :
    v.select indices = .error (.outOfRange i n) ↔ Misses v indices i n := by
  induction indices generalizing v with
  | nil =>
    have run : v.select [] = .ok v := by cases v <;> rfl
    rw [run]
    exact iff_of_false nofun nofun
  | cons index others ih =>
    constructor
    · intro fails
      unfold select at fails
      split at fails
      · rcases Outcome.bind_eq_error.mp fails with fails | ⟨item, found, fails⟩
        · obtain ⟨length, holds, outside⟩ := element_misses_iff.mp fails
          exact .here (congrArg some length) holds outside
        · obtain ⟨k, holds, found⟩ := element_eq_ok.mp found
          exact .inside holds found (ih.mp fails)
      · split at fails
        · rename_i last
          obtain rfl := List.isEmpty_iff.mp last
          rcases Outcome.bind_eq_error.mp fails with fails | ⟨item, found, fails⟩
          · obtain ⟨length, holds, outside⟩ := element_misses_iff.mp fails
            exact .here (congrArg some length) holds outside
          · cases fails
        · cases fails
      · cases fails
    · intro misses
      cases misses with
      | here extent holds outside =>
        cases v with
        | array items =>
          obtain rfl := Option.some.inj extent
          rw [select_array]
          exact Outcome.bind_eq_error.mpr (.inl (element_misses_iff.mpr ⟨rfl, holds, outside⟩))
        | text s =>
          cases others with
          | nil =>
            obtain rfl := Option.some.inj extent
            rw [select_text]
            exact Outcome.bind_eq_error.mpr (.inl (element_misses_iff.mpr ⟨rfl, holds, outside⟩))
          | cons => cases extent
        | _ => cases extent
      | inside holds found rest =>
        rw [select_array, element_eq_ok.mpr ⟨_, holds, found⟩]
        exact ih.mpr rest

/-- All faults but a missed place are objections to an index or to what is indexed. -/
theorem select_invalid (fails : v.select indices = .error e) (other : ∀ i n, e ≠ .outOfRange i n) :
    ∃ objection, e = .invalid "index" objection := by
  induction indices generalizing v with
  | nil => cases v <;> cases fails
  | cons index others ih =>
    unfold select at fails
    split at fails
    · rcases Outcome.bind_eq_error.mp fails with fails | ⟨item, -, fails⟩
      · exact element_invalid fails other
      · exact ih fails
    · split at fails
      · rcases Outcome.bind_eq_error.mp fails with fails | ⟨c, -, fails⟩
        · exact element_invalid fails other
        · cases fails
      · exact ⟨_, (Except.error.inj fails).symm⟩
    · exact ⟨_, (Except.error.inj fails).symm⟩

/-- Indices that can be followed together can be followed one by one. -/
theorem Selects.chained (selects : Selects v indices w) :
    indices.foldlM (fun u index => u.select [index]) v = .ok w := by
  induction selects with
  | done => rfl
  | @element index items item others w k holds found _ ih =>
    have first : (array items).select [index] = .ok item :=
      select_eq_ok.mpr (.element holds found .done)
    rw [List.foldlM_cons, first]
    exact ih
  | @character index c s k holds found =>
    have only : (text s).select [index] = .ok (text (String.ofList [c])) :=
      select_eq_ok.mpr (.character holds found)
    rw [List.foldlM_cons, only]
    rfl

end
end Value

namespace Executable

variable {body : BodyRunner} {offered : Host} {s : Settings} {v w : Value}

def chain (x : Executable) (indices : List Value) : Executable :=
  indices.foldl (fun x i => .index x [.constant i]) x

theorem eval_chain (object : eval body offered s x m = (.ok (some v), m))
    (follows : indices.foldlM (fun u i => u.select [i]) v = .ok w) :
    eval body offered s (x.chain indices) m = (.ok (some w), m) := by
  induction indices generalizing x v with
  | nil =>
    obtain rfl := Except.ok.inj follows
    exact object
  | cons i others ih =>
    rw [List.foldlM_cons] at follows
    obtain ⟨u, first, rest⟩ := Outcome.bind_eq_ok.mp follows
    refine ih ?_ rest
    rw [eval_index object (evalAll_one rfl), first]
    rfl

end Executable

/-- Indexing ends at the element that the indices lead to. It fails at the first index whose integer
has no place, or because an index is no integer or a value has no places to index. Where it succeeds,
indexing by each index on its own leads to the same value. -/
theorem Value.select_follows (v : Value) (indices : List Value) :
    (∀ w, v.select indices = .ok w ↔ Selects v indices w) ∧
    (∀ i n, v.select indices = .error (.outOfRange i n) ↔ Misses v indices i n) ∧
    (∀ e, v.select indices = .error e → (∀ i n, e ≠ .outOfRange i n) →
      ∃ objection, e = .invalid "index" objection) ∧
    ∀ offered s m,
      (Executable.index (.constant v) (indices.map .constant)).evaluate offered s m =
        ((v.select indices).map some, m) ∧
      ∀ w, v.select indices = .ok w →
        ((Executable.constant v).chain indices).evaluate offered s m = (.ok (some w), m) := by
  refine ⟨fun w => select_eq_ok, fun i n => select_misses_iff, fun e => select_invalid, ?_⟩
  intro offered s m
  rw [Executable.evaluate, Executable.evalWithin_eq, Executable.evaluate, Executable.evalWithin_eq]
  constructor
  · exact Executable.eval_index rfl (Executable.evalAll_map fun _ _ => rfl)
  · intro w made
    exact Executable.eval_chain rfl (select_eq_ok.mp made).chained

theorem Value.select_follows_nested :
    let cell := text "ab"
    let nested := array [array [.exact 7, cell]]
    nested.select [.exact 1, .exact 2, .exact 2] = .ok (text "b") ∧
    nested.select [.exact 1, .exact 3, .exact 1] = .error (.outOfRange 3 2) ∧
    ∃ objection,
      nested.select [.exact 1, .exact 1, .exact 1] = .error (.invalid "index" objection) := by
  intro cell nested
  have holds {q : Rat} {i : Int} (same : (i : Rat) = q) (low : -2 ^ 63 ≤ i) (high : i < 2 ^ 63) :
      Holds (.exact q) i := same ▸ .exact low high
  obtain ⟨follows, -, -, -⟩ := select_follows nested [.exact 1, .exact 2, .exact 2]
  obtain ⟨-, misses, -, -⟩ := select_follows nested [.exact 1, .exact 3, .exact 1]
  refine ⟨(follows _).mpr ?_, (misses 3 2).mpr ?_, ?_⟩
  · have first : Holds (.exact 1) ((0 : Nat) + 1) := holds rfl (by decide) (by decide)
    have second : Holds (.exact 2) ((1 : Nat) + 1) := holds rfl (by decide) (by decide)
    exact .element first rfl (.element second rfl (.character second rfl))
  · have first : Holds (.exact 1) ((0 : Nat) + 1) := holds rfl (by decide) (by decide)
    have third : Holds (.exact 3) 3 := holds rfl (by decide) (by decide)
    exact .inside first rfl (.here rfl third (by decide))
  · exact ⟨.notIndexable .exact, rfl⟩

end Reckon
