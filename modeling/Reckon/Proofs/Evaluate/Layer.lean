import Reckon.Proofs.Evaluate.Bodies
import Reckon.Proofs.Operation.Faults

/-! One layer of evaluation: what an executable does, given how its parts and the bodies that it
calls are evaluated. Two ways to evaluate these that are related make two related layers, so that an
induction over evaluations need not go through the kinds of executables again. -/
namespace Reckon

open Run

namespace Executable

/-- The executables that are evaluated as parts of this one. The body of a definition is not. -/
def parts : Executable → List Executable
  | constant _ | symbol _ | define _ _ _ => []
  | unary _ operand => [operand]
  | binary _ left right => [left, right]
  | call _ arguments => arguments
  | assign _ value => [value]
  | block statements => statements
  | matrix elements => elements
  | index object indices => object :: indices

mutual

def height : Executable → Nat
  | constant _ | symbol _ => 1
  | unary _ operand => operand.height + 1
  | binary _ left right => max left.height right.height + 1
  | call _ arguments => heightAll arguments + 1
  | define _ _ body => body.height + 1
  | assign _ value => value.height + 1
  | block statements => heightAll statements + 1
  | matrix elements => heightAll elements + 1
  | index object indices => max object.height (heightAll indices) + 1

def heightAll : List Executable → Nat
  | [] => 0
  | e :: es => max e.height (heightAll es)

end

theorem height_le_heightAll {es : List Executable} (member : e ∈ es) :
    e.height ≤ heightAll es := by
  induction es with
  | nil => cases member
  | cons x es ih =>
    rw [heightAll]
    rcases List.mem_cons.mp member with rfl | inside
    · omega
    · have := ih inside
      omega

/-- Parts are lower than what they are parts of. -/
theorem height_of_parts {e : Executable} (member : x ∈ e.parts) : x.height < e.height := by
  have parts : x.height ≤ heightAll e.parts := height_le_heightAll member
  cases e with
  | constant | symbol | define => cases member
  | _ =>
    simp only [Executable.parts, heightAll, height] at parts ⊢
    omega

section

variable (part : Executable → Run (Option Value))

def valuesOf : List Executable → Run (List Value)
  | [] => return []
  | e :: es => do
    let v ← Run.required (← part e)
    let vs ← valuesOf es
    return v :: vs

def lastOf (last : Option Value) : List Executable → Run (Option Value)
  | [] => return last
  | e :: es => do
    let v ← part e
    lastOf v es

/-- The value of an executable, where `part` evaluates its parts and `body` the bodies of
functions. -/
def layer (body : BodyRunner) (offered : Host) (s : Settings) : Executable → Run (Option Value)
  | constant v => return some v
  | symbol name => return some (← resolve name)
  | unary op operand => do
    let x ← Run.required (← part operand)
    return some (← Run.ofOutcome (op.call s [x]))
  | binary op left right => do
    let x ← Run.required (← part left)
    let y ← Run.required (← part right)
    return some (← Run.ofOutcome (op.call s [x, y]))
  | call callee arguments => do
    let values ← valuesOf part arguments
    return some (← callNamed body offered s callee values)
  | define name parameters code => do
    let f := Value.function (.user (← Run.freshStamp) name parameters code s)
    Run.bind name f
    return some f
  | assign name value => do
    let v ← Run.required (← part value)
    Run.bind name v
    return some v
  | block statements => lastOf part none statements
  | matrix elements => do
    let m := Value.array (← valuesOf part elements)
    let _ ← Run.ofOutcome m.dimensions
    return some m
  | index object indices => do
    let v ← Run.required (← part object)
    let positions ← valuesOf part indices
    return some (← Run.ofOutcome (v.select positions))

end

section

variable (body : BodyRunner) (offered : Host) (s : Settings)

theorem evalAll_eq_valuesOf (es : List Executable) :
    evalAll body offered s es = valuesOf (eval body offered s) es := by
  induction es with
  | nil => rfl
  | cons e es ih => rw [evalAll, valuesOf, ih]

theorem evalStatements_eq_lastOf (last : Option Value) (es : List Executable) :
    evalStatements body offered s last es = lastOf (eval body offered s) last es := by
  induction es generalizing last with
  | nil => rfl
  | cons e es ih =>
    rw [evalStatements, lastOf]
    exact congrArg _ (funext ih)

/-- Evaluation is a layer over itself. -/
theorem eval_eq_layer (e : Executable) :
    eval body offered s e = layer (eval body offered s) body offered s e := by
  cases e <;> simp only [eval, layer, evalAll_eq_valuesOf, evalStatements_eq_lastOf]

end

end Executable

def Value.Given (Good : Value → Prop) (Missing : Prop) : Option Value → Prop
  | some v => Good v
  | none => Missing

/-- `T p q Q` holds of two runs of the same step, with their results in `Q`, and of one such run
after another; `B` is the relation inside the frame of a call. A run may fail for want of a value
only if `Missing`. -/
structure Run.Correspondence (T B : ∀ {α : Type}, Run α → Run α → (α → Prop) → Prop)
    (Good : Value → Prop) (Missing : Prop) : Prop where
  ofOutcome {α : Type} {r : Outcome α} {Q : α → Prop} : (∀ a, r = .ok a → Q a) →
    (r = .error .noValue → Missing) → T (ofOutcome r) (ofOutcome r) Q
  bind {α β : Type} {p q : Run α} {f g : α → Run β} {Q : α → Prop} {R : β → Prop} :
    T p q Q → (∀ a, Q a → T (f a) (g a) R) → T (p >>= f) (q >>= g) R
  lookup : T (lookup name) (lookup name) fun v => ∀ w ∈ v, Good w
  binding : Good v → T (Run.bind name v) (Run.bind name v) fun _ => True
  freshStamp : T freshStamp freshStamp fun _ => True
  inCall {α : Type} {p q : Run α} {Q : α → Prop} : (∀ v ∈ arguments, Good v) → B p q Q →
    T (inCall (.ofArguments parameters arguments) p)
      (inCall (.ofArguments parameters arguments) q) Q

structure Value.Closed (Good : Value → Prop) (Missing : Prop) (offered : Host) : Prop where
  scalar : v.Scalar → Good v
  operation : Good (.function (.operation stamp op))
  host : Good (.function (.host stamp name entry)) → (∀ v ∈ arguments, Good v) →
    (∀ v, offered entry name arguments = .ok v → Good v) ∧
      (offered entry name arguments = .error .noValue → Missing)
  array : (∀ v ∈ items, Good v) → (Value.array items).dimensions = .ok ds → Good (.array items)
  call : (∀ v ∈ arguments, Good v) → Operation.call op s arguments = .ok v → Good v
  select : Good v → v.select indices = .ok w → Good w

/-- Executables in `Code` bring good values only, and the bodies of good functions are among them.
Only where a value may be missing may there be an empty block. -/
structure Executable.Brings (Code : Executable → Prop) (Good : Value → Prop) (Missing : Prop) :
    Prop where
  parts : Code e → ∀ x ∈ e.parts, Code x
  constant : Code (.constant v) → Good v
  define : Code (.define name parameters code) → Good (.function (.user stamp name parameters code s))
  body : Good (.function (.user stamp name parameters code s)) → Code code
  block : Code (.block []) → Missing

section

variable {T B : ∀ {α : Type}, Run α → Run α → (α → Prop) → Prop} {Good : Value → Prop}
  {Missing : Prop} {Code : Executable → Prop} {offered : Host} {body body' : BodyRunner}
  {part part' : Executable → Run (Option Value)} {s : Settings}

theorem constant?_scalar (h : constant? name = some v) : v.Scalar := by
  unfold constant? at h
  split at h
  all_goals first | contradiction | (cases h; trivial)

namespace Run.Correspondence

theorem pure {Q : α → Prop} (h : Correspondence T B Good Missing) (good : Q a) :
    T (Pure.pure a : Run α) (Pure.pure a) Q :=
  h.ofOutcome (r := .ok a) (fun _ same => Except.ok.inj same ▸ good) nofun

theorem fail {α : Type} {Q : α → Prop} (h : Correspondence T B Good Missing) {f : Fault}
    (definite : f ≠ .noValue) : T (Run.fail f) (Run.fail f) Q :=
  h.ofOutcome (r := .error f) nofun fun same => absurd (Except.error.inj same) definite

theorem definite {r : Outcome α} {Q : α → Prop} (h : Correspondence T B Good Missing)
    (definite : r.Definite) (made : ∀ a, r = .ok a → Q a) :
    T (Run.ofOutcome r) (Run.ofOutcome r) Q :=
  h.ofOutcome made fun same => absurd same definite

theorem required (h : Correspondence T B Good Missing) (given : Value.Given Good Missing v) :
    T (Run.required v) (Run.required v) Good := by
  cases v with
  | none => exact h.ofOutcome (r := .error .noValue) nofun fun _ => given
  | some v => exact h.pure given

theorem value (h : Correspondence T B Good Missing) {p q : Run Value} (run : T p q Good) :
    T (p >>= fun v => Pure.pure (some v)) (q >>= fun v => Pure.pure (some v))
      (Value.Given Good Missing) :=
  h.bind run fun _ good => h.pure good

variable (h : Correspondence T B Good Missing)

include h

/-- A part that must have a value. -/
theorem one {p q : Run (Option Value)} (run : T p q (Value.Given Good Missing)) :
    T (p >>= Run.required) (q >>= Run.required) Good :=
  h.bind run fun _ given => h.required given

theorem valuesOf (part part' : Executable → Run (Option Value))
    (run : ∀ e ∈ es, T (part e) (part' e) (Value.Given Good Missing)) :
    T (Executable.valuesOf part es) (Executable.valuesOf part' es) fun vs => ∀ v ∈ vs, Good v := by
  induction es with
  | nil => exact h.pure nofun
  | cons e es ih =>
    obtain ⟨first, others⟩ := List.forall_mem_cons.mp run
    exact h.bind first fun _ given => h.bind (h.required given) fun v good =>
      h.bind (ih others) fun vs goods => h.pure (List.forall_mem_cons.mpr ⟨good, goods⟩)

theorem lastOf (part part' : Executable → Run (Option Value))
    (run : ∀ e ∈ es, T (part e) (part' e) (Value.Given Good Missing))
    (none : es = [] → Value.Given Good Missing last) :
    T (Executable.lastOf part last es) (Executable.lastOf part' last es)
      (Value.Given Good Missing) := by
  induction es generalizing last with
  | nil => exact h.pure (none rfl)
  | cons e es ih =>
    obtain ⟨first, others⟩ := List.forall_mem_cons.mp run
    exact h.bind first fun _ given => ih others fun _ => given

variable (closed : Value.Closed Good Missing offered)

include closed

theorem resolve (name : String) : T (Reckon.resolve name) (Reckon.resolve name) Good := by
  refine h.bind h.lookup fun v found => ?_
  cases v with
  | some v => exact h.pure (found v rfl)
  | none =>
    dsimp only
    split
    · rename_i v known
      exact h.pure (closed.scalar (constant?_scalar known))
    · exact h.bind h.freshStamp fun _ _ => h.pure closed.operation
    · exact h.pure (closed.scalar trivial)
    · exact h.fail (by simp)

theorem operation (good : ∀ v ∈ arguments, Good v) (op : Operation) (s : Settings) :
    T (Run.ofOutcome (op.call s arguments)) (Run.ofOutcome (op.call s arguments)) Good :=
  h.definite (op.call_definite s arguments) fun _ made => closed.call good made

variable (brings : Executable.Brings Code Good Missing)
  (bodies : ∀ code own, Code code → B (body code own) (body' code own) Good)

include brings bodies

theorem call (f : Function) (callable : Good (.function f)) (good : ∀ v ∈ arguments, Good v) :
    T (f.call body offered s arguments) (f.call body' offered s arguments) Good := by
  cases f with
  | user stamp name parameters code own =>
    simp only [Function.call]
    split
    · exact h.fail (by simp)
    · exact h.inCall good (bodies code own (brings.body callable))
  | host stamp name entry =>
    obtain ⟨made, missing⟩ := closed.host callable good
    exact h.ofOutcome made missing
  | operation stamp op => exact h.operation closed good op s

theorem callNamed (callee : String) (good : ∀ v ∈ arguments, Good v) :
    T (Reckon.callNamed body offered s callee arguments)
      (Reckon.callNamed body' offered s callee arguments) Good := by
  refine h.bind h.lookup fun v found => ?_
  cases v with
  | some v =>
    cases v with
    | function f => exact h.call closed brings bodies f (found _ rfl) good
    | _ => exact h.fail (by simp)
  | none =>
    dsimp only
    split
    · exact h.operation closed good _ s
    · exact h.fail (by simp)

/-- Related parts and bodies make related layers. -/
theorem layer {e : Executable} (code : Code e)
    (run : ∀ x ∈ e.parts, T (part x) (part' x) (Value.Given Good Missing)) :
    T (Executable.layer part body offered s e) (Executable.layer part' body' offered s e)
      (Value.Given Good Missing) := by
  cases e with
  | constant v => exact h.pure (brings.constant code)
  | symbol name => exact h.value (h.resolve closed name)
  | unary op operand =>
    have first := run operand (by simp [Executable.parts])
    exact h.bind first fun _ given => h.bind (h.required given) fun x hx =>
      h.value (h.operation closed (by simpa using hx) op s)
  | binary op left right =>
    have first := run left (by simp [Executable.parts])
    have second := run right (by simp [Executable.parts])
    exact h.bind first fun _ given => h.bind (h.required given) fun x hx =>
      h.bind second fun _ given => h.bind (h.required given) fun y hy =>
        h.value (h.operation closed (by simp [hx, hy]) op s)
  | call callee arguments =>
    exact h.bind (h.valuesOf part part' run) fun _ good =>
      h.value (h.callNamed closed brings bodies callee good)
  | define name parameters body =>
    exact h.bind h.freshStamp fun stamp _ =>
      h.bind (h.binding (brings.define code)) fun _ _ => h.pure (brings.define code)
  | assign name value =>
    have first := run value (by simp [Executable.parts])
    exact h.bind first fun _ given => h.bind (h.required given) fun v hv =>
      h.bind (h.binding hv) fun _ _ => h.pure hv
  | block statements =>
    exact h.lastOf part part' run fun empty => brings.block (empty ▸ code)
  | matrix elements =>
    refine h.bind (h.valuesOf part part' run) fun items good => ?_
    have checked : T (Run.ofOutcome (Value.array items).dimensions)
        (Run.ofOutcome (Value.array items).dimensions)
        fun ds => (Value.array items).dimensions = .ok ds :=
      h.definite (Value.dimensions_definite _) fun _ made => made
    exact h.bind checked fun _ dims => h.pure (closed.array good dims)
  | index object indices =>
    obtain ⟨first, others⟩ := List.forall_mem_cons.mp run
    exact h.bind first fun _ given => h.bind (h.required given) fun v hv =>
      h.bind (h.valuesOf part part' others) fun _ _ =>
        h.value (h.definite (v.select_definite _) fun _ made => closed.select hv made)

end Run.Correspondence

namespace Executable

/-- Related ways to run bodies make related evaluations. -/
theorem eval_related (h : Run.Correspondence T B Good Missing)
    (closed : Value.Closed Good Missing offered) (brings : Brings Code Good Missing)
    (body body' : BodyRunner)
    (bodies : ∀ code own, Code code → B (body code own) (body' code own) Good)
    (e : Executable) (code : Code e) :
    T (eval body offered s e) (eval body' offered s e) (Value.Given Good Missing) := by
  -- The recursion is over the parts, whatever kind of executable they are parts of.
  rw [eval_eq_layer body, eval_eq_layer body']
  exact h.layer closed brings bodies code fun x member =>
    eval_related h closed brings body body' bodies x (brings.parts code x member)
termination_by e.height
decreasing_by exact height_of_parts member

/-- What holds of steps and of one run after another, inside calls as well, holds of evaluations,
however deep bodies may nest. -/
theorem evalWithin_related (h : Run.Correspondence T T Good Missing)
    (closed : Value.Closed Good Missing offered) (brings : Brings Code Good Missing) (room : Nat)
    (e : Executable) (s : Settings) (code : Code e) :
    T (evalWithin offered room e s) (evalWithin offered room e s) (Value.Given Good Missing) := by
  induction room generalizing e s with
  | zero =>
    have bodies (code : Executable) (own : Settings) (_ : Code code) :
        T (Run.fail .callDepth) (Run.fail .callDepth) Good := h.fail (by simp)
    exact eval_related h closed brings _ _ bodies e code
  | succ room ih =>
    exact eval_related h closed brings _ _ (fun code own good => h.one (ih code own good)) e code

end Executable

end

end Reckon
