import Reckon.Proofs.Binary64.Order
import Reckon.Proofs.Exact.Downgrade
import Reckon.Proofs.Operation.Mirror

/-! Truth under `not` and under the logical operations. `not` looks at a value as it is, the others
at what promotion makes of it next to the other operand. The two agree but for what is promoted to
complex numbers or back to doubles: there what is no number counts as true, and a fraction with a
huge denominator as zero. -/
namespace Reckon

open Binary64 (overflow)

def Value.truth : Value → Bool
  | number x => Rule.truth x
  | exact q => q ≠ 0
  | complex z => !z.isZero
  | quantity q => Rule.truth q.si
  | boolean b => b
  | _ => false

/-- Next to the other operand a value is promoted to one of the opposite truth. -/
inductive LosesTruth : Value → Value → Prop
  | nan : x.isNaN = true → LosesTruth (.number x) (.complex w)
  | vanishes : q.num.natAbs < overflow → overflow ≤ q.den → LosesTruth (.exact q) (.complex w)
  | beside : overflow ≤ q.den → x.isFinite = false → LosesTruth (.exact q) (.number x)

/-! ## Truth of doubles -/

section

variable {x : Float} {q : Rat}

theorem isZero_iff : (x == 0) = true ↔ (Binary64.ofFloat x).value? = some 0 :=
  Binary64.beq_iff_value Binary64.value_ofFloat_zero

/-- A double is true if it is a number and not zero. -/
theorem truth_iff : Rule.truth x = true ↔
    x.isNaN = false ∧ (Binary64.ofFloat x).value? ≠ some 0 := by
  rw [Ne, ← isZero_iff]
  simp [Rule.truth, bne, and_comm]

theorem isZero_ofReal (x : Float) : (Complex.ofReal x).isZero = (x == 0) := by
  have zero : ((0 : Float) == 0) = true := by decide +kernel
  rw [Complex.isZero, Complex.ofReal, zero, Bool.and_true]

theorem truth_ofBool (b : Bool) : Rule.truth (Value.ofBool b) = b := by
  cases b <;> rfl

theorem ofFloat?_ofBool (b : Bool) :
    Exact.ofFloat? (Value.ofBool b) = some (if b then 1 else 0) := by
  cases b <;> decide +kernel

theorem ofFloat?_isSome :
    (∃ q, Exact.ofFloat? x = some q) ↔ ∃ v, (Binary64.ofFloat x).value? = some v := by
  refine ⟨fun ⟨q, promoted⟩ => ?_, fun ⟨v, finite⟩ => Exact.ofFloat?_of_value finite⟩
  rw [Exact.ofFloat?] at promoted
  split at promoted
  · rename_i same
    exact ⟨_, by rw [same]; rfl⟩
  · cases promoted

theorem isFinite_of_ofFloat? (refused : Exact.ofFloat? x = none) : x.isFinite = false := by
  rw [Bool.eq_false_iff, Ne, Binary64.isFinite_iff, ← ofFloat?_isSome, refused]
  nofun

/-- A double and the exact number that it is promoted to are zero together. -/
theorem truth_of_ofFloat? (promoted : Exact.ofFloat? x = some q) :
    Rule.truth x = decide (q ≠ 0) := by
  obtain ⟨v, finite⟩ := ofFloat?_isSome.mp ⟨q, promoted⟩
  have number := Binary64.isNaN_of_place (Binary64.place?_of_value finite)
  obtain ⟨-, zero, m, e, -, rounds, size⟩ := Exact.ofFloat?_spec promoted finite
  have zero' : q = 0 → v = 0 := by
    rintro rfl
    rw [abs_zero] at rounds
    rw [← abs_eq_zero, ← size, Binary64.magnitude_eq_zero, rounds.eq_zero_iff]
    positivity
  rw [Bool.eq_iff_iff, truth_iff, decide_eq_true_iff, finite, Ne, Option.some_inj]
  exact ⟨fun h none => h.2 (zero' none), fun h => ⟨number, fun none => h (zero none)⟩⟩

/-- A quotient of doubles is zero only where the denominator alone overflows. -/
theorem value_toFloat_zero : (Binary64.ofFloat (Exact.toFloat q)).value? = some 0 ↔
    q = 0 ∨ q.num.natAbs < overflow ∧ overflow ≤ q.den := by
  rcases eq_or_ne q 0 with rfl | nonzero
  · refine iff_of_true ?_ (.inl rfl)
    have bits : Binary64.ofFloat (Exact.toFloat 0) = .finite false 0 0 := by decide +kernel
    rw [bits, Binary64.value_finite_zero]
  · rw [or_iff_right nonzero]
    rcases lt_or_ge (q.num.natAbs : Rat) overflow with num | num <;>
      rcases lt_or_ge (q.den : Rat) overflow with den | den
    · obtain ⟨_, _, _, _, m, e, -, -, -, small, positive, double⟩ := Exact.toFloat_finite num den
      rw [double, Binary64.value_make small, Option.some_inj]
      have size := Binary64.magnitude_pos (positive nonzero) e
      refine iff_of_false ?_ fun h => den.not_ge h.2
      split_ifs
      · exact (neg_neg_of_pos size).ne
      · exact size.ne'
    · rw [Exact.toFloat_zero num den, Binary64.value_finite_zero]
      exact iff_of_true rfl ⟨num, den⟩
    · rw [Exact.toFloat_infinite num den]
      exact iff_of_false nofun fun h => den.not_ge h.2
    · rw [Exact.toFloat_nan num den]
      exact iff_of_false nofun fun h => num.not_gt h.1

theorem isZero_toFloat : (Exact.toFloat q == 0) = true ↔
    q = 0 ∨ q.num.natAbs < overflow ∧ overflow ≤ q.den :=
  isZero_iff.trans value_toFloat_zero

theorem isNaN_toFloat : (Exact.toFloat q).isNaN = true ↔
    overflow ≤ q.num.natAbs ∧ overflow ≤ q.den := by
  rw [Binary64.isNaN_iff, ← Exact.toFloat_eq_nan_iff]
  cases Binary64.ofFloat (Exact.toFloat q) <;> simp [Binary64.place?]

theorem truth_toFloat : Rule.truth (Exact.toFloat q) = true ↔ q ≠ 0 ∧ q.den < overflow := by
  rw [truth_iff, Ne, value_toFloat_zero, ← Bool.not_eq_true, isNaN_toFloat, ← not_le, ← not_le]
  tauto

/-- The denominator of zero does not overflow. -/
theorem ne_zero_of_overflow (den : overflow ≤ q.den) : q ≠ 0 := by
  rintro rfl
  exact (Binary64.one_lt_overflow.trans_le den).ne' (by simp)

end

/-! ## Promotion -/

section

variable {x : Float} {p : Rat}

theorem promote?_number_exact (promoted : Exact.ofFloat? x = some p) (q : Rat) :
    (Value.number x).promote? (.exact q) = some (.exact p, .exact q) := by
  rw [Value.promote?, promoted]

theorem promote?_exact_number (q : Rat) (promoted : Exact.ofFloat? x = some p) :
    (Value.exact q).promote? (.number x) = some (.exact q, .exact p) := by
  rw [Value.promote?, promoted]

theorem promote?_exact_refused (q : Rat) (refused : Exact.ofFloat? x = none) :
    (Value.exact q).promote? (.number x) = some (.number (Exact.toFloat q), .number x) := by
  rw [Value.promote?, refused]

end

namespace Rule

def isLogical : Rule → Bool
  | and | or | xor => true
  | _ => false

/-- After at most `steps` promotions the operands are of one kind, and their truths are `a` and
`b`. -/
inductive Settles : (steps : Nat) → Value → Value → (a b : Bool) → Prop
  | same : x.kind = y.kind → x.isNumeric = true → Settles steps x y x.truth y.truth
  | promoted : x.kind ≠ y.kind → x.promote? y = some (x', y') → Settles steps x' y' a b →
      Settles (steps + 1) x y a b

section

variable {r : Rule} {s : Settings} {x y : Value}

/-- Operands of one kind are connected by their truths. -/
theorem direct_same (h : r.isLogical = true) (same : x.kind = y.kind)
    (numeric : x.isNumeric = true) (s : Settings) :
    r.direct s x y = boolean? (r.connect? x.truth y.truth) := by
  cases x <;> cases y
  case number.number => cases r <;> first | rfl | cases h
  case exact.exact => cases r <;> first | rfl | cases h
  case complex.complex => cases r <;> first | rfl | cases h
  case quantity.quantity => cases r <;> first | rfl | cases h
  case boolean.boolean => cases r <;> first | rfl | cases h
  all_goals contradiction

/-- There are no rules for operands of two kinds. -/
theorem direct_different (h : r.isLogical = true) (differ : x.kind ≠ y.kind) (s : Settings) :
    r.direct s x y = none := by
  cases x <;> cases y
  case number.quantity => cases r <;> first | rfl | cases h
  case quantity.number => cases r <;> first | rfl | cases h
  all_goals first | rfl | exact absurd rfl differ

theorem exists_connect (h : r.isLogical = true) (a b : Bool) :
    ∃ c, boolean? (r.connect? a b) = some (.ok (.boolean c)) := by
  cases r <;> first | exact ⟨_, rfl⟩ | cases h

theorem Settles.applyLeaves (h : r.isLogical = true) (settles : Settles steps x y a b)
    (s : Settings) : some (r.applyLeaves s steps x y) = boolean? (r.connect? a b) := by
  induction settles with
  | @same _ x y same numeric =>
    obtain ⟨c, connected⟩ := exists_connect h x.truth y.truth
    rw [applyLeaves_direct ((direct_same h same numeric s).trans connected), connected]
  | promoted differ promote _ ih =>
    rw [Rule.applyLeaves, direct_different h differ, promote]
    exact ih

theorem Settles.swap (h : Settles steps x y a b) : Settles steps y x b a := by
  induction h with
  | @same _ x y same numeric =>
    refine .same same.symm ?_
    cases x <;> cases y <;> first | contradiction | rfl
  | promoted differ promote _ ih =>
    have exchanged := (Value.promote?_swap _ _).trans (congrArg (Option.map Prod.swap) promote)
    exact .promoted differ.symm exchanged ih

end

/-- How the truths of two operands enter a logical operation: as they are, except where promotion
loses them. -/
structure Judged (x y : Value) (a b : Bool) : Prop where
  settles : Settles maxPromotions x y a b
  left : a = x.truth ↔ ¬LosesTruth x y
  right : b = y.truth ↔ ¬LosesTruth y x

theorem Judged.swap (h : Judged x y a b) : Judged y x b a := ⟨h.settles.swap, h.right, h.left⟩

theorem judged_same {x y : Value} (same : x.kind = y.kind) (numeric : x.isNumeric = true) :
    Judged x y x.truth y.truth := by
  refine ⟨.same same numeric, iff_of_true rfl ?_, iff_of_true rfl ?_⟩ <;> intro loses <;>
    cases loses <;> contradiction

theorem judged_number_complex (x : Float) (w : Complex) :
    ∃ a b, Judged (.number x) (.complex w) a b := by
  refine ⟨_, _, .promoted nofun rfl (.same rfl rfl), ?_, iff_of_true rfl nofun⟩
  have loses : LosesTruth (.number x) (.complex w) ↔ x.isNaN = true :=
    ⟨fun h => by cases h; assumption, .nan⟩
  rw [loses, Value.truth, Value.truth, isZero_ofReal, truth, bne]
  cases nan : x.isNaN with
  | false => simp
  | true =>
    have nonzero : (x == 0) = false := by
      rw [Bool.eq_false_iff, Ne, isZero_iff]
      intro zero
      cases nan.symm.trans (Binary64.isNaN_of_place (Binary64.place?_of_value zero))
    simp [nonzero]

theorem judged_exact_complex (q : Rat) (w : Complex) :
    ∃ a b, Judged (.exact q) (.complex w) a b := by
  refine ⟨_, _, .promoted nofun rfl (.same rfl rfl), ?_, iff_of_true rfl nofun⟩
  have loses : LosesTruth (.exact q) (.complex w) ↔
      q.num.natAbs < overflow ∧ overflow ≤ q.den :=
    ⟨fun h => by cases h; exact ⟨‹_›, ‹_›⟩, fun h => .vanishes h.1 h.2⟩
  have nonzero := ne_zero_of_overflow (q := q)
  rw [loses, Value.truth, Value.truth, isZero_ofReal, Bool.eq_iff_iff, Bool.not_eq_true',
    ← Bool.not_eq_true, isZero_toFloat, decide_eq_true_iff]
  tauto

theorem judged_exact_number (q : Rat) (x : Float) :
    ∃ a b, Judged (.exact q) (.number x) a b := by
  have loses : LosesTruth (.exact q) (.number x) ↔ overflow ≤ q.den ∧ x.isFinite = false :=
    ⟨fun h => by cases h; exact ⟨‹_›, ‹_›⟩, fun h => .beside h.1 h.2⟩
  cases promoted : Exact.ofFloat? x with
  | some p =>
    have step := promote?_exact_number q promoted
    refine ⟨_, _, .promoted nofun step (.same rfl rfl), iff_of_true rfl ?_, iff_of_true ?_ nofun⟩
    · rw [loses, Binary64.isFinite_iff.mpr (ofFloat?_isSome.mp ⟨p, promoted⟩)]
      nofun
    · exact (truth_of_ofFloat? promoted).symm
  | none =>
    have step := promote?_exact_refused q promoted
    refine ⟨_, _, .promoted nofun step (.same rfl rfl), ?_, iff_of_true rfl nofun⟩
    have nonzero := ne_zero_of_overflow (q := q)
    rw [loses, isFinite_of_ofFloat? promoted, Value.truth, Value.truth, Bool.eq_iff_iff,
      truth_toFloat, decide_eq_true_iff, ← not_le]
    tauto

theorem judged_boolean (b : Bool) {y : Value} (numeric : y.isNumeric = true)
    (real : y.kind ≠ .quantity) : ∃ a c, Judged (.boolean b) y a c := by
  cases y with
  | boolean c => exact ⟨_, _, judged_same rfl rfl⟩
  | quantity => exact absurd rfl real
  | number x =>
    refine ⟨_, _, .promoted nofun rfl (.same rfl rfl), ?_, iff_of_true rfl nofun⟩
    exact iff_of_true (truth_ofBool b) nofun
  | exact q =>
    have step := promote?_number_exact (ofFloat?_ofBool b) q
    refine ⟨_, _, .promoted nofun rfl (.promoted nofun step (.same rfl rfl)), ?_,
      iff_of_true rfl nofun⟩
    exact iff_of_true (by cases b <;> rfl) nofun
  | complex w =>
    refine ⟨_, _, .promoted nofun rfl (.promoted nofun rfl (.same rfl rfl)), ?_,
      iff_of_true rfl nofun⟩
    exact iff_of_true (by cases b <;> rfl) nofun
  | _ => contradiction

/-- Any two numeric values are brought to one kind, unless just one is a quantity. -/
theorem exists_judged {x y : Value} (hx : x.isNumeric = true) (hy : y.isNumeric = true)
    (fit : x.kind = .quantity ↔ y.kind = .quantity) : ∃ a b, Judged x y a b := by
  by_cases same : x.kind = y.kind
  · exact ⟨_, _, judged_same same hx⟩
  · have swapped {x y : Value} : (∃ a b, Judged x y a b) → ∃ a b, Judged y x a b :=
      fun ⟨a, b, h⟩ => ⟨b, a, h.swap⟩
    cases x <;> cases y
    case number.complex x w => exact judged_number_complex x w
    case complex.number w x => exact swapped (judged_number_complex x w)
    case exact.complex q w => exact judged_exact_complex q w
    case complex.exact w q => exact swapped (judged_exact_complex q w)
    case exact.number q x => exact judged_exact_number q x
    case number.exact x q => exact swapped (judged_exact_number q x)
    case boolean.number b x => exact judged_boolean b rfl nofun
    case boolean.exact b q => exact judged_boolean b rfl nofun
    case boolean.complex b w => exact judged_boolean b rfl nofun
    case number.boolean x b => exact swapped (judged_boolean b rfl nofun)
    case exact.boolean q b => exact swapped (judged_boolean b rfl nofun)
    case complex.boolean w b => exact swapped (judged_boolean b rfl nofun)
    all_goals first | contradiction | simp [Value.kind] at fit

/-- A quantity has no truth next to a number. -/
theorem logical_fails {r : Rule} (h : r.isLogical = true) (s : Settings) {x y : Value}
    (hx : x.isNumeric = true) (hy : y.isNumeric = true)
    (differ : ¬(x.kind = .quantity ↔ y.kind = .quantity)) : ∃ e, r.apply s x y = .error e := by
  cases x <;> cases y <;>
    first | contradiction | (simp [Value.kind] at differ; done) |
      (cases r <;> first | exact ⟨_, rfl⟩ | cases h)

def DeMorgan (s : Settings) (x y : Value) : Prop :=
  (do Operation.not.call s [← Rule.and.apply s x y]) =
    (do Rule.or.apply s (← Operation.not.call s [x]) (← Operation.not.call s [y])) ∧
  (do Operation.not.call s [← Rule.or.apply s x y]) =
    (do Rule.and.apply s (← Operation.not.call s [x]) (← Operation.not.call s [y]))

theorem not_call (s : Settings) {x : Value} (numeric : x.isNumeric = true) :
    Operation.not.call s [x] = .ok (.boolean !x.truth) := by
  cases x with
  | exact q =>
    have negated : (!(Value.exact q).truth) = decide (q = 0) := by simp [Value.truth]
    rw [negated]
    rfl
  | complex z =>
    rw [Value.truth, Bool.not_not]
    rfl
  | text | array | function => contradiction
  | _ => rfl

/-- The truths by which `not` answers, and those by which two numeric values of any kinds are
connected. The logical operations fail exactly on a quantity next to another kind. Else they are the
connectives of the truths of both operands, of which one is turned around exactly where promotion
loses it; where none is, the laws of De Morgan hold. -/
theorem logical_truths (s : Settings) {x y : Value} (hx : x.isNumeric = true)
    (hy : y.isNumeric = true) : ∃ a b,
    Operation.not.call s [x] = .ok (.boolean !a) ∧ Operation.not.call s [y] = .ok (.boolean !b) ∧
    (¬(x.kind = .quantity ↔ y.kind = .quantity) →
      ∀ r : Rule, r.isLogical = true → ∃ e, r.apply s x y = .error e) ∧
    ((x.kind = .quantity ↔ y.kind = .quantity) → ∃ a' b',
      (a' = a ↔ ¬LosesTruth x y) ∧ (b' = b ↔ ¬LosesTruth y x) ∧
      Rule.and.apply s x y = .ok (.boolean (a' && b')) ∧
      Rule.or.apply s x y = .ok (.boolean (a' || b')) ∧
      Rule.xor.apply s x y = .ok (.boolean (a' != b')) ∧
      (¬LosesTruth x y → ¬LosesTruth y x → DeMorgan s x y)) := by
  refine ⟨x.truth, y.truth, not_call s hx, not_call s hy,
    fun differ r h => logical_fails h s hx hy differ, fun fit => ?_⟩
  obtain ⟨a, b, judged⟩ := exists_judged hx hy fit
  have leaf {v : Value} (numeric : v.isNumeric = true) : v.isArray = false := by
    cases v <;> first | rfl | contradiction
  have result {r : Rule} (h : r.isLogical = true) :
      some (r.apply s x y) = boolean? (r.connect? a b) := by
    rw [apply_leaves r s (leaf hx) (leaf hy)]
    exact judged.settles.applyLeaves h s
  have conjunction := Option.some.inj (result (r := .and) rfl)
  have disjunction := Option.some.inj (result (r := .or) rfl)
  have exclusive := Option.some.inj (result (r := .xor) rfl)
  refine ⟨a, b, judged.left, judged.right, conjunction, disjunction, exclusive,
    fun left right => ?_⟩
  rw [judged.left.mpr left, judged.right.mpr right] at conjunction disjunction
  rw [DeMorgan, conjunction, disjunction, not_call s hx, not_call s hy]
  constructor
  · change Except.ok (Value.boolean !(x.truth && y.truth)) = _
    rw [Bool.not_and]
    rfl
  · change Except.ok (Value.boolean !(x.truth || y.truth)) = _
    rw [Bool.not_or]
    rfl

/-- A number next to an exact zero. -/
theorem logical_truths_zero :
    (Value.number 2).isNumeric = true ∧ (Value.exact 0).isNumeric = true ∧
      Rule.and.apply {} (.number 2) (.exact 0) = .ok (.boolean false) ∧
      DeMorgan {} (.number 2) (.exact 0) := by
  have kept : ¬LosesTruth (.number 2) (.exact 0) := nofun
  have kept' : ¬LosesTruth (.exact 0) (.number 2) := by
    intro loses
    cases loses with
    | beside den _ => exact ne_zero_of_overflow den rfl
  have numeric : (Value.number 2).isNumeric = true := rfl
  have numeric' : (Value.exact 0).isNumeric = true := rfl
  obtain ⟨a, b, -, ny, -, fit⟩ := logical_truths {} numeric numeric'
  obtain ⟨a', b', -, right, conjunction, -, -, laws⟩ := fit (by simp [Value.kind])
  obtain rfl := right.mpr kept'
  have zero : decide ((0 : Rat) = 0) = !b' := Value.boolean.inj (Except.ok.inj ny)
  obtain rfl : b' = false := by simpa using zero
  rw [Bool.and_false] at conjunction
  exact ⟨numeric, numeric', conjunction, laws kept kept'⟩

/-- What is no number becomes true next to a complex number, and a fraction that is not zero becomes
false. -/
theorem truth_lost :
    let tiny : Rat := ((10 ^ 1024 : Nat) : Rat)⁻¹
    Operation.not.call {} [.number (0 / 0)] = .ok (.boolean true) ∧
    Rule.and.apply {} (.number (0 / 0)) (.complex ⟨1, 1⟩) = .ok (.boolean true) ∧
    Operation.not.call {} [.exact tiny] = .ok (.boolean false) ∧
    Rule.or.apply {} (.exact tiny) (.complex ⟨0, 0⟩) = .ok (.boolean false) := by
  intro tiny
  have positive : 0 < 10 ^ 1024 := by positivity
  have num : tiny.num.natAbs = 1 := congrArg Int.natAbs (Rat.inv_natCast_num_of_pos positive)
  have den : overflow ≤ tiny.den := by
    rw [Rat.inv_natCast_den_of_pos positive]
    exact_mod_cast Binary64.overflow_le_ten_pow
  have zero : (Exact.toFloat tiny == 0) = true :=
    isZero_toFloat.mpr (.inr ⟨by rw [num]; exact_mod_cast Binary64.one_lt_overflow, den⟩)
  refine ⟨by rfl, by rfl, ?_, ?_⟩
  · rw [not_call {} (x := .exact tiny) rfl, Value.truth, decide_eq_true (ne_zero_of_overflow den)]
    rfl
  · change Except.ok (Value.boolean (!(Complex.ofReal (Exact.toFloat tiny)).isZero || false)) = _
    rw [isZero_ofReal, zero]
    rfl

end Rule

end Reckon
