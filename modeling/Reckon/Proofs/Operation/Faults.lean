import Reckon.Proofs.Operation.Broadcast

/-! The faults of operations. That there is no value to go on with is none of them: whatever an
operation, an index or the shape of an array fails with says what is wrong with a value. -/
namespace Reckon

namespace Outcome

namespace Definite

theorem bind {r : Outcome α} {f : α → Outcome β} (first : r.Definite)
    (next : ∀ a, (f a).Definite) : (r >>= f).Definite := by
  cases r with
  | error e => exact fun same => first (congrArg Except.error (Except.error.inj same))
  | ok a => exact next a

theorem mapM {f : α → Outcome β} {xs : List α} (each : ∀ x ∈ xs, (f x).Definite) :
    (xs.mapM f).Definite := by
  induction xs with
  | nil => exact definite_pure []
  | cons x xs ih =>
    obtain ⟨first, others⟩ := List.forall_mem_cons.mp each
    rw [List.mapM_cons]
    exact first.bind fun _ => (ih others).bind fun _ => definite_pure _

end Definite

end Outcome

namespace Value

mutual

theorem mapLeaves_definite {f : Value → Outcome Value} (leaf : ∀ v, (f v).Definite) :
    (v : Value) → (v.mapLeaves f).Definite
  | array items => .bind (mapLeavesAll_definite leaf items) fun _ => Outcome.definite_pure _
  | number _ | exact _ | complex _ | quantity _ | boolean _ | text _ | function _ => leaf _

theorem mapLeavesAll_definite {f : Value → Outcome Value} (leaf : ∀ v, (f v).Definite) :
    (vs : List Value) → (mapLeavesAll f vs).Definite
  | [] => Outcome.definite_pure []
  | v :: vs => .bind (mapLeaves_definite leaf v) fun _ =>
      .bind (mapLeavesAll_definite leaf vs) fun _ => Outcome.definite_pure _

end

theorem combine_definite {g : Value → Value → Outcome Value} (leaf : ∀ x y, (g x y).Definite)
    (name : String) (x y : Value) : (combine name g x y).Definite := by
  rcases combine_cases name g x y with
    ⟨hx, hy⟩ | ⟨xs, ys, rfl, rfl, _, run⟩ | ⟨_, _, run⟩
  · rw [combine_leaves hx hy]
    exact leaf x y
  · rw [run]
    nofun
  · rw [run]
    exact .bind (.mapM fun _ _ => leaf _ _) fun _ => Outcome.definite_pure _

theorem dimensions_definite (v : Value) : v.dimensions.Definite := by
  intro fails
  obtain ⟨_, _, rows⟩ := dimensions_fault v fails
  cases rows

theorem transpose_definite (v : Value) : v.transpose.Definite := by
  refine .bind v.dimensions_definite fun ds => ?_
  split <;> simp

theorem element_definite (elements : List α) (i : Value) : (element elements i).Definite := by
  have refused (v : Value) : Outcome.Definite (indexNotInteger v : Outcome Int) := by
    simp [indexNotInteger]
  have integer : (indexInteger i).Definite := by
    unfold indexInteger
    repeat' split
    all_goals first | exact refused _ | simp
  refine .bind integer fun n => ?_
  repeat' split
  all_goals simp

/-- Indexing fails with a fault of its own. -/
theorem select_definite (v : Value) (indices : List Value) : (v.select indices).Definite := by
  induction indices generalizing v with
  | nil => cases v <;> simp [select]
  | cons i others ih =>
    unfold select
    split
    · exact .bind (element_definite _ i) fun item => ih item
    · split
      · exact .bind (element_definite _ i) fun _ => Outcome.definite_pure _
      · simp
    · simp

end Value

namespace Rule

/-- The first position that fails does so for its lengths or for what the rule says of its
leaves. -/
theorem apply_definite (r : Rule) (s : Settings) (x y : Value) : (r.apply s x y).Definite := by
  intro fails
  have walked := r.walked_apply s x y
  rw [fails] at walked
  cases walked with
  | fails first =>
    cases first.fails with
    | leaves _ _ _ made => exact (r.applyLeaves_single s maxPromotions _ _).definite made

end Rule

namespace Operation

variable {op : Operation} {f : Value → Outcome Value} {g : Value → Value → Outcome Value}

theorem logToBase_definite (s : Settings) (x base : Value) : (logToBase s x base).Definite := by
  have leaf (v : Value) : (naturalLog v).Definite := (naturalLog_single v).definite
  exact .bind (x.mapLeaves_definite leaf) fun _ =>
    .bind (base.mapLeaves_definite leaf) fun _ => Rule.apply_definite _ s _ _

theorem wrongCount_definite (op : Operation) (expected : Arity) (arguments : List Value) :
    (op.wrongCount expected arguments).Definite := by
  simp [wrongCount]

theorem one_definite (h : ∀ v, (f v).Definite) (arguments : List Value) :
    (op.one f arguments).Definite := by
  unfold one
  split
  · exact h _
  · exact op.wrongCount_definite _ _

theorem two_definite (h : ∀ x y, (g x y).Definite) (arguments : List Value) :
    (op.two g arguments).Definite := by
  unfold two
  split
  · exact h _ _
  · exact op.wrongCount_definite _ _

theorem oneOrTwo_definite (hf : ∀ v, (f v).Definite) (hg : ∀ x y, (g x y).Definite)
    (arguments : List Value) : (op.oneOrTwo f g arguments).Definite := by
  unfold oneOrTwo
  split
  · exact hf _
  · exact hg _ _
  · exact op.wrongCount_definite _ _

theorem onLeaves_definite (h : ∀ v, (f v).Single) (arguments : List Value) :
    (op.onLeaves f arguments).Definite :=
  op.one_definite (Value.mapLeaves_definite fun v => (h v).definite) arguments

/-- On leaves with one argument and on the pairs of two otherwise. -/
theorem onPairs_definite (hf : ∀ v, (f v).Single) (hg : ∀ x y, (g x y).Definite)
    (arguments : List Value) :
    (op.oneOrTwo (Value.mapLeaves f) (Value.combine op.name g) arguments).Definite :=
  op.oneOrTwo_definite (Value.mapLeaves_definite fun v => (hf v).definite)
    (Value.combine_definite hg op.name) arguments

theorem run_definite (op : Operation) (s : Settings) (arguments : List Value) :
    (op.run s arguments).Definite := by
  cases op with
  | rule r => exact two_definite (r.apply_definite s) arguments
  | transpose => exact one_definite Value.transpose_definite arguments
  | text => exact one_definite (fun _ => Outcome.definite_pure _) arguments
  | size =>
    exact one_definite (fun v => .bind v.dimensions_definite fun _ => Outcome.definite_pure _)
      arguments
  | log => exact onPairs_definite naturalLog_single (logToBase_definite s) arguments
  | round =>
    exact onPairs_definite (toIntegers_single _ _ _) (fun x y => (roundTo_single x y).definite)
      arguments
  | complex =>
    exact onPairs_definite toComplex_single (fun x y => (ofParts_single x y).definite) arguments
  | unaryMinus => exact onLeaves_definite negate_single arguments
  | unaryPlus => exact onLeaves_definite plus_single arguments
  | not => exact onLeaves_definite negation_single arguments
  | factorial => exact onLeaves_definite factorialOf_single arguments
  | abs => exact onLeaves_definite magnitude_single arguments
  | sqrt => exact onLeaves_definite root_single arguments
  | exp | sin | cos | tan => exact onLeaves_definite (elementary_single _ _ _ _) arguments
  | floor | ceil => exact onLeaves_definite (toIntegers_single _ _ _) arguments
  | re => exact onLeaves_definite realPart_single arguments
  | im => exact onLeaves_definite imaginaryPart_single arguments
  | conj => exact onLeaves_definite conjugate_single arguments
  | number => exact onLeaves_definite toNumber_single arguments
  | exact => exact onLeaves_definite toExact_single arguments

/-- Operations fail with faults of their own. -/
theorem call_definite (op : Operation) (s : Settings) (arguments : List Value) :
    (op.call s arguments).Definite := by
  unfold call
  split
  · exact op.run_definite s arguments
  · exact op.wrongCount_definite _ arguments

end Operation

end Reckon
