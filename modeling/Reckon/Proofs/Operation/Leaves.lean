import Reckon.Operation.Call
import Reckon.Proofs.Program
import Reckon.Proofs.Shape

/-! The rules for single values: whatever they are applied to, they make a single value or fail with
a fault that says what is wrong with a value. -/
namespace Reckon

def Outcome.Definite (r : Outcome α) : Prop := r ≠ .error .noValue

structure Outcome.Single (r : Outcome Value) : Prop where
  scalar : ∀ v, r = .ok v → v.Scalar
  definite : r.Definite

namespace Outcome

@[simp] theorem definite_ok (a : α) : Definite (.ok a : Outcome α) := nofun

@[simp] theorem definite_pure (a : α) : Definite (pure a : Outcome α) := nofun

@[simp] theorem definite_throw {f : Fault} :
    Definite (throw f : Outcome α) ↔ f ≠ .noValue := by
  simp [Definite, throw, throwThe, MonadExceptOf.throw]

@[simp] theorem single_ok (v : Value) : Outcome.Single (.ok v) ↔ v.Scalar :=
  ⟨fun h => h.scalar v rfl, fun h => ⟨fun _ same => Except.ok.inj same ▸ h, definite_ok v⟩⟩

@[simp] theorem single_pure (v : Value) : Outcome.Single (pure v) ↔ v.Scalar := single_ok v

@[simp] theorem single_throw (f : Fault) : Outcome.Single (throw f) ↔ f ≠ .noValue :=
  ⟨fun h => definite_throw.mp h.definite, fun h => ⟨nofun, definite_throw.mpr h⟩⟩

end Outcome

@[simp] theorem Fault.unsupportedBy_ne_noValue (name : String) (arguments : List Value) :
    Fault.unsupportedBy name arguments ≠ .noValue := nofun

namespace Operation

@[simp] theorem single_unsupported (op : Operation) (v : Value) : (op.unsupported v).Single := by
  simp [unsupported]

theorem negate_single (v : Value) : (negate v).Single := by cases v <;> simp [negate]
theorem plus_single (v : Value) : (plus v).Single := by cases v <;> simp [plus]
theorem negation_single (v : Value) : (negation v).Single := by cases v <;> simp [negation]

theorem numberFactorial_single (x : Float) : (numberFactorial x).Single := by
  unfold numberFactorial
  repeat' split
  all_goals simp

theorem factorialOf_single (v : Value) : (factorialOf v).Single := by
  cases v <;> simp only [factorialOf, numberFactorial_single, single_unsupported]
  repeat' split
  all_goals simp

theorem magnitude_single (v : Value) : (magnitude v).Single := by cases v <;> simp [magnitude]
theorem realPart_single (v : Value) : (realPart v).Single := by cases v <;> simp [realPart]

theorem imaginaryPart_single (v : Value) : (imaginaryPart v).Single := by
  cases v <;> simp [imaginaryPart]

theorem conjugate_single (v : Value) : (conjugate v).Single := by cases v <;> simp [conjugate]

theorem realRoot_scalar (x : Float) : (realRoot x).Scalar := by
  unfold realRoot
  split <;> simp

theorem root_single (v : Value) : (root v).Single := by
  have real (x : Float) : Outcome.Single (return realRoot x) :=
    (Outcome.single_pure _).mpr (realRoot_scalar x)
  cases v <;> simp only [root, single_unsupported, real]
  · split
    · simp
    · split
      · simp
      · exact real _
  · simp

theorem elementary_single (op : Operation) (real : Float → Float) (complexForm : Complex → Complex)
    (ofAngles : Bool) (v : Value) : (op.elementary real complexForm ofAngles v).Single := by
  unfold elementary
  repeat' split
  all_goals simp

theorem naturalLog_single (v : Value) : (naturalLog v).Single := by
  unfold naturalLog
  repeat' split
  all_goals simp

theorem toIntegers_single (op : Operation) (real : Float → Float) (exactForm : Rat → Rat)
    (v : Value) : (op.toIntegers real exactForm v).Single := by
  cases v <;> simp [toIntegers]

theorem roundTo_single (v decimals : Value) : (roundTo v decimals).Single := by
  unfold roundTo
  repeat' split
  all_goals simp

theorem toNumber_single (v : Value) : (toNumber v).Single := by
  unfold toNumber
  repeat' split
  all_goals simp

theorem ofDecimal_single (text : String) {otherwise : Outcome Value} (h : otherwise.Single) :
    (Outcome.ofDecimal text otherwise).Single := by
  rcases Outcome.ofDecimal_cases text otherwise with ⟨q, same⟩ | same | same <;> rw [same]
  · simp
  · exact h
  · exact (Outcome.single_throw _).mpr nofun

theorem toExact_single (v : Value) : (toExact v).Single := by
  have refused (v : Value) : (notExact v).Single := by simp [notExact]
  cases v with
  | number x =>
    simp only [toExact]
    split
    · simp
    · exact refused _
  | text s => exact ofDecimal_single s (refused _)
  | _ => simp [toExact]

theorem toComplex_single (v : Value) : (toComplex v).Single := by
  unfold toComplex
  split <;> simp

theorem ofParts_single (re im : Value) : (ofParts re im).Single := by
  unfold ofParts
  split <;> simp

end Operation

namespace Rule

def MakesSingle (o : Option (Outcome Value)) : Prop := ∀ r ∈ o, r.Single

inductive Objects (r : Rule) : Fault → Prop
  | division : Objects r (.divisionByZero r.name)
  | mismatch (m : Mismatch) : Objects r (.dimensions r.name m)
  | invalid (o : Objection) : Objects r (.invalid r.name o)

inductive Concludes (r : Rule) : Outcome Value → Prop
  | value : v.Scalar → Concludes r (.ok v)
  | objection : r.Objects e → Concludes r (.error e)

def Conclusive (r : Rule) (o : Option (Outcome Value)) : Prop := ∀ result ∈ o, r.Concludes result

section

variable {r : Rule} {result : Outcome Value} {e : Fault}

theorem Concludes.error (h : r.Concludes (.error e)) : r.Objects e := by
  cases h with
  | objection objects => exact objects

theorem Concludes.single (h : r.Concludes result) : result.Single := by
  cases h with
  | value scalar => exact (Outcome.single_ok _).mpr scalar
  | objection objects => exact (Outcome.single_throw _).mpr (by cases objects <;> nofun)

@[simp] theorem concludes_ok (r : Rule) (v : Value) : r.Concludes (.ok v) ↔ v.Scalar :=
  ⟨fun h => h.single.scalar v rfl, .value⟩

@[simp] theorem concludes_divisionByZero (r : Rule) : r.Concludes r.divisionByZero :=
  .objection .division

@[simp] theorem conclusive_none (r : Rule) : r.Conclusive none := nofun

@[simp] theorem conclusive_some : r.Conclusive (some result) ↔ r.Concludes result := by
  simp [Conclusive]

end

@[simp] theorem scalar_sign (o : Ordering) : (sign o).Scalar := by
  cases o <;> exact Value.scalar_number _

@[simp] theorem conclusive_boolean? (r : Rule) (b : Option Bool) : r.Conclusive (boolean? b) := by
  cases b <;> simp [boolean?]

@[simp] theorem scalar_floatPow (x y : Float) : (floatPow x y).Scalar := by
  unfold floatPow
  split <;> simp

theorem numbers_conclusive (x y : Float) (s : Settings) (r : Rule) :
    r.Conclusive (numbers x y s r) := by
  cases r <;> simp [numbers]
  all_goals split <;> simp

theorem complexes_conclusive (z w : Complex) (s : Settings) (r : Rule) :
    r.Conclusive (complexes z w s r) := by
  cases r <;> simp [complexes]
  split <;> simp

theorem exactPow_conclusive (p q : Rat) (r : Rule) : r.Conclusive (exactPow p q r) := by
  unfold exactPow
  repeat' split
  all_goals simp

theorem exacts_conclusive (p q : Rat) (r : Rule) : r.Conclusive (exacts p q r) := by
  cases r <;> simp [exacts, exactPow_conclusive]
  all_goals split <;> simp

theorem sameBase_concludes (r : Rule) (p q : Quantity) (h : r.Concludes result) :
    r.Concludes (r.sameBase p q result) := by
  unfold sameBase
  split
  · exact h
  · exact .objection (.mismatch _)

theorem conversion_concludes (r : Rule) (p q : Quantity) : r.Concludes (r.conversion p q) := by
  unfold conversion
  split
  · exact .objection (.invalid _)
  · split
    · simp
    · exact .objection (.mismatch _)

theorem quantities_conclusive (p q : Quantity) (s : Settings) (r : Rule) :
    r.Conclusive (quantities p q s r) := by
  have onSi : r.Conclusive ((numbers p.si q.si s r).map (r.sameBase p q)) := by
    intro result made
    obtain ⟨inner, hinner, rfl⟩ := Option.map_eq_some_iff.mp made
    exact r.sameBase_concludes p q (numbers_conclusive p.si q.si s r inner hinner)
  cases r <;> simp only [quantities, conclusive_some, conclusive_none]
  case add | subtract => exact sameBase_concludes _ p q (by simp)
  case and | or | xor => exact numbers_conclusive p.si q.si s _
  case convert => exact conversion_concludes _ p q
  all_goals exact onSi

theorem quantityNumber_conclusive (p : Quantity) (y : Float) (r : Rule) :
    r.Conclusive (quantityNumber p y r) := by
  cases r <;> simp [quantityNumber]
  split <;> simp

theorem numberQuantity_conclusive (x : Float) (q : Quantity) (r : Rule) :
    r.Conclusive (numberQuantity x q r) := by
  cases r <;> simp [numberQuantity]

theorem texts_conclusive (s t : String) (r : Rule) : r.Conclusive (texts s t r) := by
  cases r <;> simp [texts]

theorem booleans_conclusive (a b : Bool) (r : Rule) : r.Conclusive (booleans a b r) := by
  cases r <;> simp [booleans]

/-- A direct rule makes a single value, or fails with an objection of its own operation. -/
theorem direct_conclusive (r : Rule) (s : Settings) (x y : Value) :
    r.Conclusive (r.direct s x y) := by
  unfold direct
  split
  · exact numbers_conclusive _ _ _ _
  · exact complexes_conclusive _ _ _ _
  · rename_i p q
    split
    · rename_i result made
      exact conclusive_some.mpr (exacts_conclusive p q r result made)
    · exact numbers_conclusive _ _ _ _
  · exact quantities_conclusive _ _ _ _
  · exact quantityNumber_conclusive _ _ _
  · exact numberQuantity_conclusive _ _ _
  · exact texts_conclusive _ _ _
  · exact booleans_conclusive _ _ _
  · exact conclusive_none r

theorem direct_single (r : Rule) (s : Settings) (x y : Value) : MakesSingle (r.direct s x y) :=
  fun result made => (r.direct_conclusive s x y result made).single

theorem applyLeaves_single (r : Rule) (s : Settings) (steps : Nat) (x y : Value) :
    (r.applyLeaves s steps x y).Single := by
  induction steps generalizing x y with
  | zero =>
    rw [applyLeaves]
    cases made : r.direct s x y with
    | none => simp
    | some result => exact r.direct_single s x y result made
  | succ steps ih =>
    rw [applyLeaves]
    split
    · rename_i result made
      exact r.direct_single s x y result made
    · split
      · exact ih _ _
      · simp

end Rule

end Reckon
