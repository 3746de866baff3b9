import Reckon.Proofs.Evaluate.Nested
import Reckon.Proofs.Evaluate.Results
import Reckon.Proofs.Exact.Denotation
import Reckon.Proofs.Exact.Reading
import Reckon.Proofs.Program

/-! Arithmetic with exact literals is exact. A tree evaluates to the number that it denotes, or to
the fault of the first division by zero, and on the way there are no values but exact numbers. -/
namespace Reckon

theorem floor_eq (q : Rat) : q.floor = ⌊q⌋ := rfl

theorem ceil_eq (q : Rat) : q.ceil = ⌈q⌉ :=
  eq_of_forall_ge_iff fun _ => Rat.ceil_le_iff.trans Int.ceil_le.symm

/-- The remainder is what the quotient, rounded down, leaves. -/
theorem remainder_exactMod (p : Rat) {q : Rat} (nonzero : q ≠ 0) :
    Remainder p q (Rule.exactMod p q) := by
  have quotient : q * (p / q) = p := mul_div_cancel₀ p nonzero
  have low : (⌊p / q⌋ : Rat) ≤ p / q := Int.floor_le _
  have high : p / q < ⌊p / q⌋ + 1 := Int.lt_floor_add_one _
  refine ⟨⟨⌊p / q⌋, ?_⟩, ?_⟩
  · unfold Rule.exactMod
    rw [floor_eq]
    ring
  · have rest : Rule.exactMod p q = q * (p / q - ⌊p / q⌋) := by
      unfold Rule.exactMod
      rw [floor_eq, mul_sub, quotient]
    rw [rest]
    rcases lt_or_gt_of_ne nonzero with negative | positive
    · refine .inr ⟨negative, ?_, ?_⟩ <;> nlinarith
    · refine .inl ⟨positive, ?_, ?_⟩ <;> nlinarith

namespace Expr

/-- Trees of exact numbers and of operations that are exact on these. The functions that they call
are not bound to anything. -/
inductive Arithmetic (s : Scope) : Expr → Prop
  | literal : Exact.read digits = .ok q → Arithmetic s (.literal (.number digits) o)
  | sign : op ∈ [UnaryOperator.negate, .plus] → Arithmetic s x → Arithmetic s (.unary op x o)
  | operation : op ∈ [BinaryOperator.add, .sub, .mul, .div, .mod] → Arithmetic s x →
      Arithmetic s y → Arithmetic s (.binary op x y o)
  | call : f ∈ ["abs", "floor", "ceil"] → s.get? f = none → Arithmetic s x →
      Arithmetic s (.call f [x] o)

/-- The result of exact evaluation: the number that the tree denotes, or the fault of its first
division by zero. -/
inductive Exactly (e : Expr) : Outcome (Option Value) → Prop
  | value : Denotes e q → Exactly e (.ok (some (.exact q)))
  | fault : FirstDivision e.postorder r → Exactly e (.error (.divisionByZero r.name))

theorem denotes_literal (read : Exact.read digits = .ok q) (o : Nat) :
    Denotes (.literal (.number digits) o) q := by
  obtain ⟨n, spelled, _, rfl⟩ := Exact.read_eq_ok_iff.mp read
  exact .literal spelled

theorem Arithmetic.compiles (h : Arithmetic s e) : ∃ x, compile .exact e = .ok x := by
  induction h with
  | literal read => exact ⟨_, compile_exact read _⟩
  | sign _ _ ih =>
    obtain ⟨x, compiled⟩ := ih
    exact ⟨_, compile_eq_ok.mpr (.unary compiled)⟩
  | operation _ _ _ ihx ihy =>
    obtain ⟨x, left⟩ := ihx
    obtain ⟨y, right⟩ := ihy
    exact ⟨_, compile_eq_ok.mpr (.binary left right)⟩
  | call _ _ _ ih =>
    obtain ⟨x, compiled⟩ := ih
    exact ⟨_, compile_eq_ok.mpr (.call (compileAll_eq_ok.mpr (.cons compiled .nil)))⟩

theorem call_sign (member : op ∈ [UnaryOperator.negate, .plus]) (hx : Denotes x p) :
    ∃ q, Denotes (.unary op x o) q ∧
      ∀ s, op.operation.call s [.exact p] = .ok (.exact q) := by
  simp only [List.mem_cons, List.not_mem_nil, or_false] at member
  rcases member with rfl | rfl
  · exact ⟨-p, .negate hx, fun _ => rfl⟩
  · exact ⟨p, .plus hx, fun _ => rfl⟩

theorem call_function (member : f ∈ ["abs", "floor", "ceil"]) (hx : Denotes x p) :
    ∃ op q, Operation.find? f = some op ∧ Denotes (.call f [x] o) q ∧
      ∀ s, op.call s [.exact p] = .ok (.exact q) := by
  simp only [List.mem_cons, List.not_mem_nil, or_false] at member
  rcases member with rfl | rfl | rfl
  · refine ⟨.abs, |p|, rfl, .call hx rfl, fun s => ?_⟩
    have size : |p| = if p < 0 then -p else p := by
      split
      · rename_i negative
        exact abs_of_neg negative
      · rename_i positive
        exact abs_of_nonneg (not_lt.mp positive)
    rw [size]
    rfl
  · exact ⟨.floor, ⌊p⌋, rfl, .call hx rfl, fun _ => rfl⟩
  · refine ⟨.ceil, ⌈p⌉, rfl, .call hx rfl, fun s => ?_⟩
    rw [← ceil_eq]
    rfl

/-- An operation has the result that the tree denotes, or it is the first that divides by zero. -/
theorem call_operation (member : op ∈ [BinaryOperator.add, .sub, .mul, .div, .mod])
    (hx : Denotes x p) (hy : Denotes y q) :
    (∃ r, Denotes (.binary op x y o) r ∧
      ∀ s, (Operation.rule op.rule).call s [.exact p, .exact q] = .ok (.exact r)) ∨
    DividesByZero (.binary op x y o) op.rule ∧
      ∀ s, (Operation.rule op.rule).call s [.exact p, .exact q] =
        .error (.divisionByZero op.rule.name) := by
  simp only [List.mem_cons, List.not_mem_nil, or_false] at member
  rcases member with rfl | rfl | rfl | rfl | rfl
  · exact .inl ⟨p + q, .add hx hy, fun _ => rfl⟩
  · exact .inl ⟨p - q, .sub hx hy, fun _ => rfl⟩
  · exact .inl ⟨p * q, .mul hx hy, fun _ => rfl⟩
  · have called (s : Settings) : (Operation.rule .divide).call s [.exact p, .exact q] =
        if q = 0 then Rule.divide.divisionByZero else .ok (.exact (p / q)) := rfl
    by_cases zero : q = 0
    · subst zero
      exact .inr ⟨.div hy, called⟩
    · refine .inl ⟨p / q, .div hx hy zero, fun s => ?_⟩
      exact (called s).trans (if_neg zero)
  · have called (s : Settings) : (Operation.rule .mod).call s [.exact p, .exact q] =
        if q = 0 then Rule.mod.divisionByZero else .ok (.exact (Rule.exactMod p q)) := rfl
    by_cases zero : q = 0
    · subst zero
      exact .inr ⟨.mod hy, called⟩
    · refine .inl ⟨_, .mod hx hy (remainder_exactMod p zero), fun s => ?_⟩
      exact (called s).trans (if_neg zero)

section

variable {body : BodyRunner} {offered : Host} {s : Settings} {m : Machine}

theorem eval_exactly (h : Arithmetic m.scope e) (compiled : compile .exact e = .ok code) :
    ∃ r, Exactly e r ∧ code.eval body offered s m = (r, m) := by
  induction h generalizing code with
  | literal read =>
    obtain rfl := Except.ok.inj ((compile_exact read _).symm.trans compiled)
    exact ⟨_, .value (denotes_literal read _), rfl⟩
  | sign member _ ih =>
    cases compile_eq_ok.mp compiled with
    | unary operand =>
    obtain ⟨_, result, run⟩ := ih operand
    cases result with
    | value hx =>
      obtain ⟨q, denotes, called⟩ := call_sign member hx
      exact ⟨_, .value denotes, by rw [Executable.eval_unary run, called]; rfl⟩
    | fault zero =>
      exact ⟨_, .fault (zero.append_right _), Executable.eval_unary_error run _⟩
  | operation member _ _ ihx ihy =>
    cases compile_eq_ok.mp compiled with
    | binary first second =>
    obtain ⟨_, left, runLeft⟩ := ihx first
    cases left with
    | fault zero =>
      exact ⟨_, .fault (zero.append_right _), Executable.eval_binary_left_error runLeft _ _⟩
    | value hx =>
      obtain ⟨_, right, runRight⟩ := ihy second
      cases right with
      | fault zero =>
        exact ⟨_, .fault (.append_left hx.no_division (zero.append_right _)),
          Executable.eval_binary_right_error runLeft runRight _⟩
      | value hy =>
        have run := Executable.eval_binary runLeft runRight
        rcases call_operation member hx hy with ⟨q, denotes, called⟩ | ⟨zero, called⟩
        · exact ⟨_, .value denotes, by rw [run, called]; rfl⟩
        · refine ⟨_, .fault ?_, by rw [run, called]; rfl⟩
          exact .append_left hx.no_division (.append_left hy.no_division (.here zero))
  | call member unbound _ ih =>
    cases compile_eq_ok.mp compiled with
    | call arguments =>
    obtain _ | ⟨argument, ⟨⟩⟩ := compileAll_eq_ok.mp arguments
    obtain ⟨_, result, run⟩ := ih argument
    cases result with
    | value hx =>
      obtain ⟨op, q, found, denotes, called⟩ := call_function member hx
      have one := Executable.evalAll_one run
      have result := Executable.eval_call one (callNamed_of_unbound unbound found)
      exact ⟨_, .value denotes, result.trans (by rw [called]; rfl)⟩
    | fault zero =>
      have none := Executable.evalAll_cons_error run []
      refine ⟨_, .fault ?_, Executable.eval_call_error none _⟩
      rw [postorder, postorderAll, postorderAll, List.append_nil]
      exact zero.append_right _

theorem evalWithin_exactly (h : Arithmetic m.scope e) (compiled : compile .exact e = .ok code)
    (room : Nat) : ∃ r, Exactly e r ∧ code.evalWithin offered room s m = (r, m) := by
  rw [Executable.evalWithin_eq]
  exact eval_exactly h compiled

theorem evalAll_exactly (h : Arithmetic m.scope e) (compiled : compile .exact e = .ok code)
    (run : Executable.evalAll body offered s [code] m = (.ok vs, m')) : m' = m := by
  obtain ⟨_, result, same⟩ := eval_exactly h compiled
  cases result with
  | value =>
    have one := Executable.evalAll_one same
    exact congrArg Prod.snd (run.symm.trans one)
  | fault =>
    have none := Executable.evalAll_cons_error same []
    cases run.symm.trans none

/-- Whatever is evaluated inside an exact evaluation is one, too. -/
theorem Arithmetic.starts {x y : Evaluation} (h : Arithmetic m.scope e)
    (step : Evaluation.Starts offered x y) (compiled : compile .exact e = .ok x.code)
    (machine : x.machine = m) :
    ∃ e', Arithmetic m.scope e' ∧ compile .exact e' = .ok y.code ∧ y.machine = m := by
  obtain ⟨room, code, own, m'⟩ := x
  obtain rfl : m' = m := machine
  cases h with
  | literal read =>
    obtain rfl := Except.ok.inj ((compile_exact read _).symm.trans compiled)
    cases step
  | sign _ hx =>
    cases compile_eq_ok.mp compiled with
    | unary operand =>
    cases step with
    | operand => exact ⟨_, hx, operand, rfl⟩
  | operation _ hx hy =>
    cases compile_eq_ok.mp compiled with
    | binary first second =>
    cases step with
    | left => exact ⟨_, hx, first, rfl⟩
    | right run =>
      obtain ⟨r, _, same⟩ := evalWithin_exactly hx first _
      cases same.symm.trans run
      exact ⟨_, hy, second, rfl⟩
  | call _ unbound hx =>
    cases compile_eq_ok.mp compiled with
    | call arguments =>
    obtain _ | ⟨argument, ⟨⟩⟩ := compileAll_eq_ok.mp arguments
    generalize listed : [_] = nodes at step
    cases step with
    | argument run =>
      rcases List.append_eq_singleton_iff.mp listed.symm with ⟨rfl, rest⟩ | ⟨_, rest⟩
      · cases rest
        cases run
        exact ⟨_, hx, argument, rfl⟩
      · cases rest
    | body run found =>
      subst listed
      rw [evalAll_exactly hx argument run, unbound] at found
      cases found

theorem Arithmetic.nested {x y : Evaluation} (h : Arithmetic m.scope e)
    (inside : Evaluation.Nested offered x y) (compiled : compile .exact e = .ok x.code)
    (machine : x.machine = m) :
    ∃ e', Arithmetic m.scope e' ∧ compile .exact e' = .ok y.code ∧ y.machine = m := by
  induction inside with
  | refl => exact ⟨e, h, compiled, machine⟩
  | tail _ step ih =>
    obtain ⟨e', h', compiled', machine'⟩ := ih
    exact h'.starts step compiled' machine'

end

end Expr

def BinaryOperator.Compares : BinaryOperator → Rat → Rat → Prop
  | less, p, q => p < q
  | lessEqual, p, q => p ≤ q
  | greater, p, q => q < p
  | greaterEqual, p, q => q ≤ p
  | equal, p, q => p = q
  | notEqual, p, q => p ≠ q
  | _, _, _ => False

theorem Rule.exactOrder_eq (p q : Rat) : exactOrder p q = cmp p q := by
  unfold exactOrder cmp cmpUsing
  rcases lt_trichotomy p q with less | rfl | more
  · simp [less]
  · simp
  · simp [more, more.ne', not_lt.mpr more.le]

theorem Rule.call_comparison {op : BinaryOperator} (comparison : op.isComparison) (p q : Rat) :
    ∃ b, (∀ s, (Operation.rule op.rule).call s [.exact p, .exact q] = .ok (.boolean b)) ∧
      (b ↔ op.Compares p q) := by
  have order := exactOrder_eq p q
  cases op with
  | less =>
    refine ⟨(exactOrder p q).isLT, fun _ => rfl, ?_⟩
    rw [order, Ordering.isLT_iff_eq_lt, cmp_eq_lt_iff]
    rfl
  | greater =>
    refine ⟨(exactOrder p q).isGT, fun _ => rfl, ?_⟩
    rw [order, Ordering.isGT_iff_eq_gt, cmp_eq_gt_iff]
    rfl
  | lessEqual =>
    refine ⟨(exactOrder p q).isLE, fun _ => rfl, ?_⟩
    rw [order, Ordering.isLE_iff_ne_gt, cmp_eq_gt_iff]
    exact not_lt
  | greaterEqual =>
    refine ⟨(exactOrder p q).isGE, fun _ => rfl, ?_⟩
    rw [order, Ordering.isGE_iff_ne_lt, cmp_eq_lt_iff]
    exact not_lt
  | equal => exact ⟨p = q, fun _ => rfl, by simp [BinaryOperator.Compares]⟩
  | notEqual => exact ⟨!decide (p = q), fun _ => rfl, by simp [BinaryOperator.Compares]⟩
  | _ => contradiction

namespace Expr

/-- The rules that divide have names of their own. -/
theorem FirstDivision.name_inj (h : FirstDivision es r) (same : r'.name = r.name) : r' = r := by
  obtain ⟨_, _, zero⟩ := h.exists_mem
  cases zero <;> cases r' <;> simp [Rule.name] at same ⊢

/-- The two results exclude each other. -/
theorem Exactly.unique (h : Exactly e r) (h' : Exactly e r') : r = r' := by
  cases h with
  | value denotes =>
    cases h' with
    | value denotes' => rw [denotes.unique denotes']
    | fault first =>
      obtain ⟨part, member, zero⟩ := first.exists_mem
      exact absurd zero (denotes.no_division part member _)
  | fault first =>
    cases h' with
    | value denotes =>
      obtain ⟨part, member, zero⟩ := first.exists_mem
      exact absurd zero (denotes.no_division part member _)
    | fault first' => rw [first.unique first']

theorem exactly_value_iff : Exactly e (.ok (some (.exact q))) ↔ Denotes e q :=
  ⟨fun | .value denotes => denotes, .value⟩

theorem exactly_fault_iff {r : Rule} :
    Exactly e (.error (.divisionByZero r.name)) ↔ FirstDivision e.postorder r := by
  refine ⟨fun h => ?_, .fault⟩
  generalize result : (Except.error (.divisionByZero r.name) : Outcome (Option Value)) = w at h
  cases h with
  | value => cases result
  | fault first =>
    injection result with fault
    injection fault with same
    rwa [first.name_inj same]

end Expr

namespace Program

section

variable {s : Settings} {m : Machine} {offered : Host}

theorem ofExpr_eq_ok : ofExpr e s = .ok p ↔ ∃ x, e.compile s.literals = .ok x ∧ ⟨x, s⟩ = p := by
  simp [ofExpr, Outcome.bind_eq_ok, pure, Except.pure]

theorem evaluate_iff_exactly (literals : s.literals = .exact) (offered : Host)
    (h : Expr.Arithmetic m.scope e) (compiled : ofExpr e s = .ok p) :
    p.evaluate offered m = (r, m) ↔ e.Exactly r := by
  obtain ⟨code, made, rfl⟩ := ofExpr_eq_ok.mp compiled
  obtain ⟨result, exactly, run⟩ : ∃ r, e.Exactly r ∧
      (⟨code, s⟩ : Program).evaluate offered m = (r, m) :=
    Expr.evalWithin_exactly h (literals ▸ made) _
  rw [run]
  constructor
  · intro same
    cases same
    exact exactly
  · intro exactly'
    rw [exactly.unique exactly']

theorem evaluate_comparison (literals : s.literals = .exact) (hx : Expr.Arithmetic m.scope x)
    (hy : Expr.Arithmetic m.scope y) (left : x.Denotes p) (right : y.Denotes q)
    {op : BinaryOperator} (comparison : op.isComparison) (o : Nat) :
    ∃ c b, ofExpr (.binary op x y o) s = .ok c ∧
      c.evaluate offered m = (.ok (some (.boolean b)), m) ∧ (b ↔ op.Compares p q) := by
  obtain ⟨b, called, truth⟩ := Rule.call_comparison comparison p q
  obtain ⟨code, compiledLeft⟩ := hx.compiles
  obtain ⟨code', compiledRight⟩ := hy.compiles
  rw [← literals] at compiledLeft compiledRight
  have whole : (Expr.binary op x y o).compile s.literals = _ :=
    Expr.compile_eq_ok.mpr (.binary compiledLeft compiledRight)
  have runLeft := (evaluate_iff_exactly literals offered hx
    (ofExpr_eq_ok.mpr ⟨_, compiledLeft, rfl⟩)).mpr (.value left)
  have runRight := (evaluate_iff_exactly literals offered hy
    (ofExpr_eq_ok.mpr ⟨_, compiledRight, rfl⟩)).mpr (.value right)
  refine ⟨_, b, ofExpr_eq_ok.mpr ⟨_, whole, rfl⟩, ?_, truth⟩
  rw [evaluate, Executable.evaluate, Executable.evalWithin_eq] at runLeft runRight ⊢
  rw [Executable.eval_binary runLeft runRight, called]
  rfl

/-- Every evaluation inside an exact one has an exact number as its value, if any. -/
theorem run_of_nested (literals : s.literals = .exact) (h : Expr.Arithmetic m.scope e)
    (compiled : ofExpr e s = .ok p) (inside : Evaluation.Nested offered (.ofProgram p m) x) :
    (∃ q, x.run offered = (.ok (some (.exact q)), m)) ∨
    ∃ r : Rule, x.run offered = (.error (.divisionByZero r.name), m) := by
  obtain ⟨_, made, rfl⟩ := ofExpr_eq_ok.mp compiled
  obtain ⟨part, arithmetic, code, machine⟩ := h.nested inside (literals ▸ made) rfl
  obtain ⟨room, code', own, m'⟩ := x
  obtain rfl : m' = m := machine
  obtain ⟨_, result, run⟩ := Expr.evalWithin_exactly arithmetic code room
  cases result with
  | value => exact .inl ⟨_, run⟩
  | fault => exact .inr ⟨_, run⟩

end

/-- With exact literals, arithmetic is compiled, and in any scope that leaves the names it calls
alone it has the number as its value that the tree denotes, or else the fault of the first division
by zero, which there is exactly if something is divided by zero. The same goes for every evaluation
inside: there is no value on the way that is no exact number. Comparisons of what two trees denote
are true if and only if they hold. -/
theorem evaluate_arithmetic {s : Settings} (literals : s.literals = .exact)
    (offered : Host) {m : Machine} (h : Expr.Arithmetic m.scope e) :
    ∃ p, ofExpr e s = .ok p ∧
    (∀ q, p.evaluate offered m = (.ok (some (.exact q)), m) ↔ e.Denotes q) ∧
    (∀ r : Rule, p.evaluate offered m = (.error (.divisionByZero r.name), m) ↔
      Expr.FirstDivision e.postorder r) ∧
    ((∃ r : Rule, p.evaluate offered m = (.error (.divisionByZero r.name), m)) ↔
      ∃ part ∈ e.postorder, ∃ r, part.DividesByZero r) ∧
    (∀ x, Evaluation.Nested offered (.ofProgram p m) x →
      (∃ q, x.run offered = (.ok (some (.exact q)), m)) ∨
      ∃ r : Rule, x.run offered = (.error (.divisionByZero r.name), m)) ∧
    ∀ e' q q', Expr.Arithmetic m.scope e' → e.Denotes q → e'.Denotes q' →
      ∀ (op : BinaryOperator) (o : Nat), op.isComparison →
      ∃ c b, ofExpr (.binary op e e' o) s = .ok c ∧
        c.evaluate offered m = (.ok (some (.boolean b)), m) ∧ (b ↔ op.Compares q q') := by
  obtain ⟨code, compiled⟩ := h.compiles
  have compiled : ofExpr e s = .ok ⟨code, s⟩ := ofExpr_eq_ok.mpr ⟨_, literals ▸ compiled, rfl⟩
  have faults (r : Rule) : Program.evaluate ⟨code, s⟩ offered m =
      (.error (.divisionByZero r.name), m) ↔ Expr.FirstDivision e.postorder r :=
    (evaluate_iff_exactly literals offered h compiled).trans Expr.exactly_fault_iff
  refine ⟨_, compiled,
    fun q => (evaluate_iff_exactly literals offered h compiled).trans Expr.exactly_value_iff,
    faults, ?_, fun x inside => run_of_nested literals h compiled inside,
    fun e' q q' h' hq hq' op o comparison =>
      evaluate_comparison literals h h' hq hq' comparison o⟩
  constructor
  · rintro ⟨r, fault⟩
    obtain ⟨part, member, zero⟩ := ((faults r).mp fault).exists_mem
    exact ⟨part, member, r, zero⟩
  · rintro ⟨part, member, r, zero⟩
    obtain ⟨r, first⟩ := Expr.FirstDivision.exists_of_mem member zero
    exact ⟨r, (faults r).mpr first⟩

/-- The remainder of `-7` by `floor(2.5)`, and that it is positive. -/
theorem evaluate_arithmetic_remainder :
    let s : Settings := { literals := .exact }
    let m : Machine := ⟨.empty, 0⟩
    let seven : Expr := .unary .negate (.literal (.number "7") 1) 0
    let e : Expr := .binary .mod seven (.call "floor" [.literal (.number "2.5") 11] 5) 3
    let zero : Expr := .literal (.number "0") 0
    (e.Arithmetic m.scope ∧ ∃ p, ofExpr e s = .ok p ∧
      p.evaluate .none m = (.ok (some (.exact 1)), m)) ∧
    (zero.Arithmetic m.scope ∧ e.Denotes 1 ∧ zero.Denotes 0 ∧
      ∃ p, ofExpr (.binary .greater e zero 0) s = .ok p ∧
        p.evaluate .none m = (.ok (some (.boolean true)), m)) := by
  intro s m seven e zero
  have arithmetic : e.Arithmetic m.scope :=
    .operation (by simp) (.sign (by simp) (.literal rfl)) (.call (by simp) rfl (.literal rfl))
  have none : zero.Arithmetic m.scope := .literal rfl
  have literal {digits : String} (n : Numeral) {q : Rat} {o : Nat}
      (read : Numeral.read? (Text.trim digits.toList) = some n)
      (value : (n.digits : Rat) * 10 ^ n.scale = q) (positive : n.negative = false) :
      Expr.Denotes (.literal (.number digits) o) q := by
    have denotes := Expr.Denotes.literal (o := o) (Numeral.read?_eq_some.mp read)
    rwa [Numeral.value, positive, if_neg Bool.false_ne_true, Numeral.magnitude, Decimal.value,
      Decimal.tenTo, value] at denotes
  have whole : (Expr.literal (.number "7") 1).Denotes 7 :=
    literal ⟨false, 7, 0, 0⟩ rfl (by norm_num [Numeral.scale]) rfl
  have fraction : (Expr.literal (.number "2.5") 11).Denotes (5 / 2) :=
    literal ⟨false, 25, 1, 0⟩ rfl (by norm_num [Numeral.scale]) rfl
  have rounded : (Expr.call "floor" [.literal (.number "2.5") 11] 5).Denotes 2 :=
    .call fraction (by norm_num [exactFunction?])
  have denotes : e.Denotes 1 :=
    .mod (.negate whole) rounded ⟨⟨-4, by norm_num⟩, .inl (by norm_num)⟩
  have denotes' : zero.Denotes 0 := literal ⟨false, 0, 0, 0⟩ rfl (by norm_num) rfl
  obtain ⟨p, compiled, values, _, _, _, comparisons⟩ :=
    evaluate_arithmetic (s := s) rfl .none arithmetic
  obtain ⟨c, b, compared, run, truth⟩ := comparisons zero 1 0 none denotes denotes' .greater 0 rfl
  obtain rfl : b = true := truth.mpr zero_lt_one
  exact ⟨⟨arithmetic, p, compiled, (values 1).mpr denotes⟩, none, denotes, denotes', c, compared,
    run⟩

end Program
end Reckon
