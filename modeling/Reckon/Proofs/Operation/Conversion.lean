import Reckon.Proofs.Operation.Alike

/-! Quantities in other units. Every rule reads a quantity by its size in SI units and its base,
which conversion keeps, so operations do not see whether their arguments were converted. The target
of a conversion has to stay: whether it is a bare unit does count there. -/
namespace Reckon

open Outcome (Alike)

structure Quantity.SameAmount (p q : Quantity) : Prop where
  si : p.si = q.si
  base : p.base = q.base

theorem Quantity.SameAmount.refl (p : Quantity) : p.SameAmount p := ⟨rfl, rfl⟩

theorem Quantity.SameAmount.withSi {p q : Quantity} (h : p.SameAmount q) (same : x = y) :
    (p.withSi x).SameAmount (q.withSi y) := ⟨same, h.base⟩

theorem Quantity.sameAmount_of_convert {p q target : Quantity}
    (made : p.convert? target = some q) : p.SameAmount q := by
  obtain ⟨same, made⟩ := Option.ite_none_right_eq_some.mp made
  obtain rfl := Option.some.inj made
  exact ⟨rfl, of_decide_eq_true same⟩

namespace Value

inductive SameAmount : Value → Value → Prop
  | same (v : Value) : SameAmount v v
  | quantity : p.SameAmount q → SameAmount (quantity p) (quantity q)

inductive Converted : Value → Value → Prop
  | same (v : Value) : Converted v v
  | quantity : p.convert? target = some q → Converted (quantity p) (quantity q)

abbrev SameAmounts : Value → Value → Prop := Leafwise SameAmount

theorem Converted.sameAmount (h : Converted v w) : SameAmount v w := by
  cases h with
  | same => exact .same v
  | quantity made => exact .quantity (Quantity.sameAmount_of_convert made)

theorem SameAmounts.refl (v : Value) : SameAmounts v v := Leafwise.refl .same v

theorem SameAmount.kind_eq (h : SameAmount v w) : v.kind = w.kind := by
  cases h <;> rfl

theorem SameAmounts.kind_eq (h : SameAmounts v w) : v.kind = w.kind := by
  cases h with
  | leaf _ _ related => exact related.kind_eq
  | array => rfl

/-- Neither quantities nor arrays are real numbers. -/
theorem SameAmounts.real?_eq (h : SameAmounts v w) : v.real? = w.real? := by
  cases h with
  | leaf _ _ related => cases related <;> rfl
  | array => rfl

end Value

open Value (SameAmount SameAmounts)

theorem Outcome.Alike.of_eq {a b : Outcome Value} (same : a = b) : Alike SameAmounts a b :=
  same ▸ .refl SameAmounts.refl a

theorem Quantity.SameAmount.alike {p q : Quantity} (h : p.SameAmount q) :
    Alike SameAmounts (.ok (.quantity p)) (.ok (.quantity q)) :=
  .values (.leaf rfl rfl (.quantity h))

/-- A rule for leaves that does not see in which unit a quantity is written. -/
def Value.Respects (f : Value → Outcome Value) : Prop :=
  ∀ v w, SameAmount v w → Alike SameAmounts (f v) (f w)

namespace Operation

open Value (Respects)

section

variable {f : Value → Outcome Value} {p q : Quantity} {v w x x' y y' : Value}

theorem respects_of_quantities
    (each : ∀ p q, p.SameAmount q → Alike SameAmounts (f (.quantity p)) (f (.quantity q))) :
    Respects f := by
  intro v w h
  cases h with
  | same => exact .of_eq rfl
  | quantity same => exact each _ _ same

/-- Most rules refuse quantities. -/
theorem respects_of_ignores (each : ∀ p q, f (.quantity p) = f (.quantity q)) : Respects f :=
  respects_of_quantities fun p q _ => .of_eq (each p q)

theorem negate_respects : Respects negate :=
  respects_of_quantities fun _ _ h => (h.withSi (congrArg _ h.si)).alike

theorem plus_respects : Respects plus := respects_of_quantities fun _ _ h => h.alike

theorem negation_respects : Respects negation :=
  respects_of_quantities fun p q h => .of_eq (by rw [negation, negation, h.si])

theorem magnitude_respects : Respects magnitude :=
  respects_of_quantities fun _ _ h => (h.withSi (congrArg _ h.si)).alike

theorem elementary_respects (op : Operation) (real : Float → Float)
    (complexForm : Complex → Complex) (ofAngles : Bool) :
    Respects (op.elementary real complexForm ofAngles) := by
  refine respects_of_quantities fun p q h => .of_eq ?_
  simp only [elementary, h.si, h.base]
  rfl

theorem factorialOf_respects : Respects factorialOf := respects_of_ignores fun _ _ => rfl
theorem root_respects : Respects root := respects_of_ignores fun _ _ => rfl
theorem naturalLog_respects : Respects naturalLog := respects_of_ignores fun _ _ => rfl
theorem realPart_respects : Respects realPart := respects_of_ignores fun _ _ => rfl
theorem imaginaryPart_respects : Respects imaginaryPart := respects_of_ignores fun _ _ => rfl
theorem conjugate_respects : Respects conjugate := respects_of_ignores fun _ _ => rfl
theorem toNumber_respects : Respects toNumber := respects_of_ignores fun _ _ => rfl
theorem toExact_respects : Respects toExact := respects_of_ignores fun _ _ => rfl
theorem toComplex_respects : Respects toComplex := respects_of_ignores fun _ _ => rfl

theorem toIntegers_respects (op : Operation) (real : Float → Float) (exactForm : Rat → Rat) :
    Respects (op.toIntegers real exactForm) := respects_of_ignores fun _ _ => rfl

/-! ## Two arguments, element by element -/

theorem places?_eq (h : SameAmounts v w) : places? v = places? w := by
  rw [places?, places?, h.real?_eq]

theorem roundTo_alike (hx : SameAmounts x x') (hy : SameAmounts y y') :
    Alike SameAmounts (roundTo x y) (roundTo x' y') := by
  apply Alike.of_eq
  unfold roundTo
  rw [places?_eq hy]
  cases hx with
  | leaf _ _ related => cases related <;> rfl
  | array => rfl

theorem ofParts_alike (hx : SameAmounts x x') (hy : SameAmounts y y') :
    Alike SameAmounts (ofParts x y) (ofParts x' y') := by
  apply Alike.of_eq
  rw [ofParts, ofParts, hx.real?_eq, hy.real?_eq, Fault.unsupportedBy, Fault.unsupportedBy]
  simp only [List.map_cons, List.map_nil, hx.kind_eq, hy.kind_eq]

end

end Operation

namespace Rule

section

variable {r : Rule} {s : Settings} {p p' q q' : Quantity} {x x' y y' : Value}

def SameOperand (r : Rule) (y y' : Value) : Prop := SameAmount y y' ∧ (r = .convert → y = y')

theorem SameOperand.refl (r : Rule) (y : Value) : r.SameOperand y y := ⟨.same y, fun _ => rfl⟩

theorem sameBase_alike (hp : p.SameAmount p') (hq : q.SameAmount q')
    (result : Alike SameAmounts a b) :
    Alike SameAmounts (r.sameBase p q a) (r.sameBase p' q' b) := by
  have bases : p'.sameBase q' = p.sameBase q := by
    rw [Quantity.sameBase, Quantity.sameBase, hp.base, hq.base]
  rw [sameBase, sameBase, bases]
  split
  · exact result
  · exact .faults (.bases hp.base hq.base)

theorem convert?_eq (h : p.SameAmount p') (target : Quantity) :
    p.convert? target = p'.convert? target := by
  rw [Quantity.convert?, Quantity.convert?, Quantity.sameBase, Quantity.sameBase, h.si, h.base]

theorem conversion_alike (h : p.SameAmount p') (target : Quantity) :
    Alike SameAmounts (r.conversion p target) (r.conversion p' target) := by
  rw [conversion, conversion, convert?_eq h]
  split
  · exact .of_eq rfl
  · cases p'.convert? target with
    | some => exact .of_eq rfl
    | none => exact .faults (.conversion h.base rfl)

theorem rel_of_eq {a b : Option (Outcome Value)} (same : a = b) :
    Option.Rel (Alike SameAmounts) a b := by
  subst same
  cases a with
  | none => exact .none
  | some result => exact .some (.of_eq rfl)

theorem quantities_alike (hp : p.SameAmount p') (hq : q.SameAmount q')
    (kept : r = .convert → q = q') :
    Option.Rel (Alike SameAmounts) (quantities p q s r) (quantities p' q' s r) := by
  have onSi : Option.Rel (Alike SameAmounts) ((numbers p.si q.si s r).map (r.sameBase p q))
      ((numbers p'.si q'.si s r).map (r.sameBase p' q')) := by
    rw [hp.si, hq.si]
    cases numbers p'.si q'.si s r with
    | none => exact .none
    | some result => exact .some (sameBase_alike hp hq (.of_eq rfl))
  cases r with
  | add => exact .some (sameBase_alike hp hq (hp.withSi (by rw [hp.si, hq.si])).alike)
  | subtract => exact .some (sameBase_alike hp hq (hp.withSi (by rw [hp.si, hq.si])).alike)
  | and | or | xor => exact rel_of_eq (by rw [quantities, quantities, hp.si, hq.si])
  | convert =>
    obtain rfl := kept rfl
    exact .some (conversion_alike hp q)
  | multiply | mod | pow => exact .none
  | _ => exact onSi

theorem quantityNumber_alike (h : p.SameAmount p') (y : Float) :
    Option.Rel (Alike SameAmounts) (quantityNumber p y r) (quantityNumber p' y r) := by
  cases r with
  | multiply => exact .some (h.withSi (by rw [h.si])).alike
  | divide =>
    rw [quantityNumber, quantityNumber]
    by_cases zero : y == 0
    · rw [if_pos zero, if_pos zero]
      exact rel_of_eq rfl
    · rw [if_neg zero, if_neg zero]
      exact .some (h.withSi (by rw [h.si])).alike
  | _ => exact .none

theorem numberQuantity_alike (h : q.SameAmount q') (x : Float) :
    Option.Rel (Alike SameAmounts) (numberQuantity x q r) (numberQuantity x q' r) := by
  cases r with
  | multiply => exact .some (h.withSi (by rw [h.si])).alike
  | _ => exact .none

/-- The direct rules, by the kinds that have rules with quantities. -/
theorem direct_alike (hx : SameAmount x x') (hy : r.SameOperand y y') :
    Option.Rel (Alike SameAmounts) (r.direct s x y) (r.direct s x' y') := by
  obtain ⟨amount, kept⟩ := hy
  cases hx with
  | same =>
    cases amount with
    | same => exact rel_of_eq rfl
    | @quantity q q' hq =>
      have kept : r = .convert → q = q' := fun converts => Value.quantity.inj (kept converts)
      cases x with
      | number x => exact numberQuantity_alike hq x
      | quantity p => exact quantities_alike (.refl p) hq kept
      | _ => exact .none
  | quantity hp =>
    cases amount with
    | same =>
      cases y with
      | number y => exact quantityNumber_alike hp y
      | quantity q => exact quantities_alike hp (.refl q) fun _ => rfl
      | _ => exact .none
    | quantity hq => exact quantities_alike hp hq fun converts => Value.quantity.inj (kept converts)

/-- Promotion makes nothing of a quantity, but plain numbers of what stands beside it. -/
theorem promote?_alike (hx : SameAmount x x') (hy : r.SameOperand y y') :
    Option.Rel (fun a b => SameAmount a.1 b.1 ∧ r.SameOperand a.2 b.2) (x.promote? y)
      (x'.promote? y') := by
  obtain ⟨amount, kept⟩ := hy
  cases hx with
  | same =>
    cases amount with
    | same =>
      cases x.promote? y with
      | none => exact .none
      | some a => exact .some ⟨.same _, .refl r _⟩
    | quantity hq =>
      cases x with
      | boolean b => exact .some ⟨.same _, .quantity hq, kept⟩
      | exact q => exact .some ⟨.same _, .quantity hq, kept⟩
      | _ => exact .none
  | quantity hp =>
    cases amount with
    | same =>
      cases y with
      | boolean b => exact .some ⟨.quantity hp, .refl r _⟩
      | exact q => exact .some ⟨.quantity hp, .refl r _⟩
      | _ => exact .none
    | quantity hq => exact .none

/-- Operands of the same kinds are refused alike. -/
theorem applyLeaves_alike (steps : Nat) (hx : SameAmount x x') (hy : r.SameOperand y y') :
    Alike SameAmounts (r.applyLeaves s steps x y) (r.applyLeaves s steps x' y') := by
  refine applyLeaves_related (P := fun a b => SameAmount a.1 b.1 ∧ r.SameOperand a.2 b.2)
    (fun a b h => direct_alike h.1 h.2) (fun a b h => promote?_alike h.1 h.2) (fun a b h => ?_)
    steps (a := (x, y)) (b := (x', y')) ⟨hx, hy⟩
  apply Alike.of_eq
  simp only [Fault.unsupportedBy, List.map_cons, List.map_nil, h.1.kind_eq, h.2.1.kind_eq]

/-- Both operands may be converted, but not the target of a conversion. -/
theorem apply_alike (hx : SameAmounts x x') (hy : SameAmounts y y')
    (kept : r = .convert → y = y') : Alike SameAmounts (r.apply s x y) (r.apply s x' y') := by
  have operands : Value.Leafwise r.SameOperand y y' := by
    by_cases converts : r = .convert
    · exact kept converts ▸ Value.Leafwise.refl (SameOperand.refl r) y
    · exact hy.mono fun _ _ amount => ⟨amount, fun h => absurd h converts⟩
  exact Value.zipLeaves_alike (fun _ _ _ _ => applyLeaves_alike maxPromotions) hx operands

end

end Rule

namespace Operation

open Value (Respects)

section

variable {op : Operation} {s : Settings} {f : Value → Outcome Value}
  {g : Value → Value → Outcome Value} {xs ys : List Value} {x x' y y' : Value}

theorem logToBase_alike (hx : SameAmounts x x') (hy : SameAmounts y y') :
    Alike SameAmounts (logToBase s x y) (logToBase s x' y') :=
  (Value.mapLeaves_alike naturalLog_respects hx).bind fun _ _ numerator =>
    (Value.mapLeaves_alike naturalLog_respects hy).bind fun _ _ denominator =>
      Rule.apply_alike numerator denominator nofun

/-! ## Lists of arguments -/

theorem wrongCount_alike (args : List.Forall₂ SameAmounts xs ys) (expected : Arity) :
    Alike SameAmounts (op.wrongCount expected xs) (op.wrongCount expected ys) := by
  rw [wrongCount, wrongCount, args.length_eq]
  exact .faults (.same _)

theorem one_alike (args : List.Forall₂ SameAmounts xs ys)
    (each : ∀ v w, SameAmounts v w → Alike SameAmounts (f v) (f w)) :
    Alike SameAmounts (op.one f xs) (op.one f ys) := by
  match args with
  | .nil => exact wrongCount_alike .nil _
  | .cons hx .nil => exact each _ _ hx
  | .cons hx (.cons hy rest) => exact wrongCount_alike (.cons hx (.cons hy rest)) _

theorem two_alike (args : List.Forall₂ SameAmounts xs ys)
    (each : ∀ x x' y y', xs = [x, y] → ys = [x', y'] → SameAmounts x x' → SameAmounts y y' →
      Alike SameAmounts (g x y) (g x' y')) :
    Alike SameAmounts (op.two g xs) (op.two g ys) := by
  match args with
  | .nil => exact wrongCount_alike .nil _
  | .cons hx .nil => exact wrongCount_alike (.cons hx .nil) _
  | .cons hx (.cons hy .nil) => exact each _ _ _ _ rfl rfl hx hy
  | .cons hx (.cons hy (.cons hz rest)) =>
    exact wrongCount_alike (.cons hx (.cons hy (.cons hz rest))) _

theorem onLeaves_alike (args : List.Forall₂ SameAmounts xs ys) (leaf : Respects f) :
    Alike SameAmounts (op.onLeaves f xs) (op.onLeaves f ys) :=
  one_alike args fun _ _ => Value.mapLeaves_alike leaf

/-- On leaves with one argument and on the pairs of two otherwise. -/
theorem onPairs_alike (args : List.Forall₂ SameAmounts xs ys) (leaf : Respects f)
    (pair : ∀ x x' y y', SameAmounts x x' → SameAmounts y y' →
      Alike SameAmounts (g x y) (g x' y')) :
    Alike SameAmounts (op.oneOrTwo (Value.mapLeaves f) (Value.combine op.name g) xs)
      (op.oneOrTwo (Value.mapLeaves f) (Value.combine op.name g) ys) := by
  match args with
  | .nil => exact wrongCount_alike .nil _
  | .cons hx .nil => exact Value.mapLeaves_alike leaf hx
  | .cons hx (.cons hy .nil) =>
    exact Value.combine_alike hx hy (fun _ _ => pair _ _ _ _ hx hy)
      fun _ _ _ _ _ => pair _ _ _ _
  | .cons hx (.cons hy (.cons hz rest)) =>
    exact wrongCount_alike (.cons hx (.cons hy (.cons hz rest))) _

theorem dimensionsOf_alike (h : SameAmounts x x') :
    Alike SameAmounts (dimensionsOf x) (dimensionsOf x') :=
  .of_eq (by rw [dimensionsOf, dimensionsOf, h.dimensions_eq])

theorem run_alike (shown : op ≠ .text) (args : List.Forall₂ SameAmounts xs ys)
    (target : op = .rule .convert → xs[1]? = ys[1]?) :
    Alike SameAmounts (op.run s xs) (op.run s ys) := by
  cases op with
  | text => exact absurd rfl shown
  | rule r =>
    refine two_alike args ?_
    rintro x x' y y' rfl rfl hx hy
    exact Rule.apply_alike hx hy fun converts => Option.some.inj (target (converts ▸ rfl))
  | transpose => exact one_alike args fun _ _ => Value.transpose_alike
  | size => exact one_alike args fun _ _ => dimensionsOf_alike
  | log => exact onPairs_alike args naturalLog_respects fun _ _ _ _ => logToBase_alike
  | round => exact onPairs_alike args (toIntegers_respects _ _ _) fun _ _ _ _ => roundTo_alike
  | complex => exact onPairs_alike args toComplex_respects fun _ _ _ _ => ofParts_alike
  | unaryMinus => exact onLeaves_alike args negate_respects
  | unaryPlus => exact onLeaves_alike args plus_respects
  | not => exact onLeaves_alike args negation_respects
  | factorial => exact onLeaves_alike args factorialOf_respects
  | abs => exact onLeaves_alike args magnitude_respects
  | sqrt => exact onLeaves_alike args root_respects
  | exp | sin | cos | tan => exact onLeaves_alike args (elementary_respects _ _ _ _)
  | floor | ceil => exact onLeaves_alike args (toIntegers_respects _ _ _)
  | re => exact onLeaves_alike args realPart_respects
  | im => exact onLeaves_alike args imaginaryPart_respects
  | conj => exact onLeaves_alike args conjugate_respects
  | number => exact onLeaves_alike args toNumber_respects
  | exact => exact onLeaves_alike args toExact_respects

theorem call_alike (shown : op ≠ .text) (args : List.Forall₂ SameAmounts xs ys)
    (target : op = .rule .convert → xs[1]? = ys[1]?) :
    Alike SameAmounts (op.call s xs) (op.call s ys) := by
  rw [call, call, args.length_eq]
  split
  · exact run_alike shown args target
  · exact wrongCount_alike args _

end

/-- No operation but the one that shows a value tells a quantity from what it is in another unit,
neither among its arguments nor inside of arrays, except for the target of a conversion: both runs
have results that differ in nothing but the units of quantities, or both fail with the same kind of
fault. -/
theorem call_converted (op : Operation) (s : Settings) (shown : op ≠ .text)
    (args : List.Forall₂ (Value.Leafwise Value.Converted) xs ys)
    (target : op = .rule .convert → xs[1]? = ys[1]?) :
    Alike SameAmounts (op.call s xs) (op.call s ys) ∧
    ∀ e e' : Fault, e.SameCause e' → e.ctorIdx = e'.ctorIdx := by
  have amounts : List.Forall₂ SameAmounts xs ys :=
    args.imp fun _ _ h => h.mono fun _ _ converted => converted.sameAmount
  exact ⟨call_alike shown amounts target, fun _ _ => Fault.SameCause.ctorIdx_eq⟩

/-- An inch among others, written in centimetres, and both expressed in millimetres. -/
theorem call_converted_inch :
    let inch : Quantity := ⟨⟨"inch", .length, 0.0254⟩, none⟩
    let cm : Quantity := ⟨⟨"cm", .length, 0.01⟩, none⟩
    let mm : Quantity := ⟨⟨"mm", .length, 0.001⟩, none⟩
    let written : Quantity := ⟨cm.unit, some inch.si⟩
    let xs : List Value := [.array [.quantity inch, .quantity inch], .quantity mm]
    let ys : List Value := [.array [.quantity written, .quantity inch], .quantity mm]
    let op : Operation := rule .convert
    inch.convert? cm = some written ∧ op ≠ .text ∧
    List.Forall₂ (Value.Leafwise Value.Converted) xs ys ∧
    (op = rule .convert → xs[1]? = ys[1]?) ∧
    ∃ v w, op.call {} xs = .ok v ∧ op.call {} ys = .ok w ∧ SameAmounts v w := by
  intro inch cm mm written xs ys op
  have made : inch.convert? cm = some written := rfl
  have elements : List.Forall₂ (Value.Leafwise Value.Converted)
      [.quantity inch, .quantity inch] [.quantity written, .quantity inch] :=
    .cons (.leaf rfl rfl (.quantity made)) (.cons (.leaf rfl rfl (.same _)) .nil)
  have args : List.Forall₂ (Value.Leafwise Value.Converted) xs ys :=
    .cons (Value.leafwise_array.mpr elements) (.cons (.leaf rfl rfl (.same _)) .nil)
  have target : op = rule .convert → xs[1]? = ys[1]? := fun _ => rfl
  obtain ⟨alike, -⟩ := call_converted op {} nofun args target
  refine ⟨made, nofun, args, target, _, _, rfl, rfl, ?_⟩
  cases alike with
  | values amounts => exact amounts

/-- A converted target would be refused. -/
example : let written : Quantity := ⟨⟨"cm", .length, 0.01⟩, some 0.0254⟩
    ∃ shown, (rule .convert).call {} [.quantity written, .quantity written] =
      .error (.invalid "to" (.targetHasValue shown)) := ⟨_, rfl⟩

end Operation

end Reckon
