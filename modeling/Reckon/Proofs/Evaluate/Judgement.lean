import Reckon.Proofs.Evaluate.Layer

/-! What evaluation preserves. A judgement that holds of the steps of a run, and of one run after
another, holds of every evaluation, and values with a property that operations keep stay among
themselves. It is the case of related evaluations where the two are the same one. -/
namespace Reckon

open Run

namespace Executable

mutual

def constants : Executable → List Value
  | constant v => [v]
  | symbol _ => []
  | unary _ operand => operand.constants
  | binary _ left right => left.constants ++ right.constants
  | call _ arguments => constantsAll arguments
  | define _ _ body => body.constants
  | assign _ value => value.constants
  | block statements => constantsAll statements
  | matrix elements => constantsAll elements
  | index object indices => object.constants ++ constantsAll indices

def constantsAll : List Executable → List Value
  | [] => []
  | e :: es => e.constants ++ constantsAll es

end

end Executable

/-- What evaluation makes of values with the property has it, too. A function that is defined has
it exactly if the values written in its body do. -/
structure Value.Kept (Good : Value → Prop) (offered : Host) : Prop where
  scalar : v.Scalar → Good v
  operation : Good (.function (.operation stamp op))
  user : Good (.function (.user stamp name parameters code s)) ↔ ∀ v ∈ code.constants, Good v
  host : Good (.function (.host stamp name entry)) → (∀ v ∈ arguments, Good v) →
    offered entry name arguments = .ok v → Good v
  array : (∀ v ∈ items, Good v) → (Value.array items).dimensions = .ok ds → Good (.array items)
  call : (∀ v ∈ arguments, Good v) → Operation.call op s arguments = .ok v → Good v
  select : Good v → v.select indices = .ok w → Good w

/-- `T p Q` holds of runs that are steps, with their results in `Q`, and of one such run after
another. -/
structure Run.Judgement (T : ∀ {α : Type}, Run α → (α → Prop) → Prop) (Good : Value → Prop) :
    Prop where
  ofOutcome {α : Type} {r : Outcome α} {Q : α → Prop} : (∀ a, r = .ok a → Q a) → T (ofOutcome r) Q
  bind {α β : Type} {p : Run α} {f : α → Run β} {Q : α → Prop} {R : β → Prop} :
    T p Q → (∀ a, Q a → T (f a) R) → T (p >>= f) R
  lookup : T (lookup name) fun v => ∀ w ∈ v, Good w
  binding : Good v → T (Run.bind name v) fun _ => True
  freshStamp : T freshStamp fun _ => True
  inCall {α : Type} {p : Run α} {Q : α → Prop} : (∀ v ∈ arguments, Good v) → T p Q →
    T (inCall (.ofArguments parameters arguments) p) Q

namespace Executable

theorem constants_subset_constantsAll {es : List Executable} (member : e ∈ es) :
    e.constants ⊆ constantsAll es := by
  induction es with
  | nil => cases member
  | cons x es ih =>
    rcases List.mem_cons.mp member with rfl | inside
    · exact List.subset_append_left _ _
    · exact List.Subset.trans (ih inside) (List.subset_append_right _ _)

theorem constants_of_parts {e : Executable} (member : x ∈ e.parts) :
    x.constants ⊆ e.constants := by
  refine List.Subset.trans (constants_subset_constantsAll member) ?_
  cases e <;> simp [parts, constants, constantsAll]

end Executable

section

variable {T : ∀ {α : Type}, Run α → (α → Prop) → Prop} {Good : Value → Prop} {offered : Host}
  {body : BodyRunner} {s : Settings}

theorem Value.Kept.closed (kept : Kept Good offered) : Closed Good True offered where
  scalar := kept.scalar
  operation := kept.operation
  host callable good := ⟨fun _ => kept.host callable good, fun _ => trivial⟩
  array := kept.array
  call := kept.call
  select := kept.select

theorem Value.Kept.brings (kept : Kept Good offered) :
    Executable.Brings (fun e => ∀ v ∈ e.constants, Good v) Good True where
  parts good _ member v inside := good v (Executable.constants_of_parts member inside)
  constant good := good _ (List.mem_singleton.mpr rfl)
  define good := kept.user.mpr good
  body := kept.user.mp
  block _ := trivial

theorem Value.given_true : Value.Given Good True v ↔ ∀ w ∈ v, Good w := by
  cases v <;> simp [Value.Given]

namespace Run.Judgement

theorem correspondence (h : Judgement T Good) :
    Correspondence (fun p _ => T p) (fun p _ => T p) Good True where
  ofOutcome made _ := h.ofOutcome made
  bind := h.bind
  lookup := h.lookup
  binding := h.binding
  freshStamp := h.freshStamp
  inCall := h.inCall

theorem mono {Q R : α → Prop} {p : Run α} (h : Judgement T Good) (run : T p Q)
    (weaker : ∀ a, Q a → R a) : T p R := by
  have again := h.bind run fun a good => h.ofOutcome (r := .ok a) fun _ same =>
    Except.ok.inj same ▸ weaker a good
  exact bind_pure p ▸ again

theorem fail {α : Type} {Q : α → Prop} (h : Judgement T Good) (f : Fault) : T (Run.fail f) Q :=
  h.ofOutcome (r := .error f) nofun

theorem required (h : Judgement T Good) (good : ∀ w ∈ v, Good w) : T (Run.required v) Good :=
  h.correspondence.required (Value.given_true.mpr good)

end Run.Judgement

namespace Executable

theorem eval_judged (h : Judgement T Good) (kept : Value.Kept Good offered)
    (bodies : ∀ code own, (∀ v ∈ code.constants, Good v) → T (body code own) Good)
    (e : Executable) (good : ∀ v ∈ e.constants, Good v) :
    T (eval body offered s e) (Value.Given Good True) :=
  eval_related h.correspondence kept.closed kept.brings body body bodies e good

theorem eval_judged_each (h : Judgement T Good) (kept : Value.Kept Good offered)
    (bodies : ∀ code own, (∀ v ∈ code.constants, Good v) → T (body code own) Good)
    (es : List Executable) (good : ∀ v ∈ constantsAll es, Good v) :
    ∀ e ∈ es, T (eval body offered s e) (Value.Given Good True) :=
  fun e member => eval_judged h kept bodies e fun v inside =>
    good v (constants_subset_constantsAll member inside)

theorem evalAll_judged (h : Judgement T Good) (kept : Value.Kept Good offered)
    (bodies : ∀ code own, (∀ v ∈ code.constants, Good v) → T (body code own) Good)
    (es : List Executable) (good : ∀ v ∈ constantsAll es, Good v) :
    T (evalAll body offered s es) fun vs => ∀ v ∈ vs, Good v := by
  rw [evalAll_eq_valuesOf]
  exact h.correspondence.valuesOf _ (eval body offered s) (eval_judged_each h kept bodies es good)

theorem evalStatements_judged (h : Judgement T Good) (kept : Value.Kept Good offered)
    (bodies : ∀ code own, (∀ v ∈ code.constants, Good v) → T (body code own) Good)
    (last : Option Value) (hlast : ∀ w ∈ last, Good w) (es : List Executable)
    (good : ∀ v ∈ constantsAll es, Good v) :
    T (evalStatements body offered s last es) fun v => ∀ w ∈ v, Good w := by
  rw [evalStatements_eq_lastOf]
  have run := h.correspondence.lastOf (eval body offered s) (eval body offered s)
    (eval_judged_each h kept bodies es good) fun _ => Value.given_true.mpr hlast
  exact h.mono run fun _ => Value.given_true.mp

/-- The judgement holds however deep bodies may nest. -/
theorem evalWithin_judged (h : Judgement T Good) (kept : Value.Kept Good offered) (room : Nat)
    (e : Executable) (s : Settings) (good : ∀ v ∈ e.constants, Good v) :
    T (evalWithin offered room e s) fun v => ∀ w ∈ v, Good w :=
  h.mono (evalWithin_related h.correspondence kept.closed kept.brings room e s good)
    fun _ => Value.given_true.mp

end Executable

end

end Reckon
