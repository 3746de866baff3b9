import Reckon.Proofs.Engine.Shape
import Reckon.Proofs.Evaluate.Functions
import Reckon.Proofs.Printer
import Reckon.Proofs.Script.Statements

/-! Sources always come to a value or to a fault that says what is wrong. A tree that was read has a
block at its root at most, so every statement and every body of a function that a source defines has
a value if it ends well, and the only source without one is the empty one. -/
namespace Reckon

namespace Expr

mutual

def blockless : Expr → Bool
  | literal _ _ | name _ _ => true
  | unary _ operand _ => operand.blockless
  | binary _ left right _ => left.blockless && right.blockless
  | call _ arguments _ => blocklessAll arguments
  | define _ _ body _ => body.blockless
  | assign _ value _ => value.blockless
  | block _ _ => false
  | matrix elements _ => blocklessAll elements
  | index object indices _ => object.blockless && blocklessAll indices

def blocklessAll : List Expr → Bool
  | [] => true
  | e :: es => e.blockless && blocklessAll es

end

def flat : Expr → Bool
  | block statements _ => statements.length != 1 && blocklessAll statements
  | e => e.blockless

theorem blocklessAll_iff {es : List Expr} : blocklessAll es ↔ ∀ e ∈ es, e.blockless := by
  induction es with
  | nil => simp [blocklessAll]
  | cons e es ih => simp [blocklessAll, ih]

mutual

theorem blockless_skeleton : (e : Expr) → e.skeleton.blockless = e.blockless
  | literal .. | name .. | block .. => rfl
  | unary _ e _ => by rw [skeleton, blockless, blockless_skeleton e, blockless]
  | binary _ l r _ => by
    rw [skeleton, blockless, blockless_skeleton l, blockless_skeleton r, blockless]
  | call _ as _ => by rw [skeleton, blockless, blocklessAll_skeletons as, blockless]
  | define _ _ b _ => by rw [skeleton, blockless, blockless_skeleton b, blockless]
  | assign _ v _ => by rw [skeleton, blockless, blockless_skeleton v, blockless]
  | matrix es _ => by rw [skeleton, blockless, blocklessAll_skeletons es, blockless]
  | index e is _ => by
    rw [skeleton, blockless, blockless_skeleton e, blocklessAll_skeletons is, blockless]

theorem blocklessAll_skeletons : (es : List Expr) → blocklessAll (skeletons es) = blocklessAll es
  | [] => rfl
  | e :: es => by
    rw [skeletons, blocklessAll, blockless_skeleton e, blocklessAll_skeletons es, blocklessAll]

end

theorem flat_skeleton (e : Expr) : e.skeleton.flat = e.flat := by
  cases e with
  | block es => rw [skeleton, flat, blocklessAll_skeletons, skeletons_eq_map, List.length_map, flat]
  | _ => exact blockless_skeleton _

theorem flat_of_blockless {e : Expr} (h : e.blockless) : e.flat := by
  cases e with
  | block => cases h
  | _ => exact h

theorem isEmpty_of_blockless {e : Expr} (h : e.blockless) : e.isEmpty = false := by
  cases e with
  | block => cases h
  | _ => rfl

theorem Printable.blockless {e : Expr} (h : e.Printable) : e.blockless := by
  induction h with
  | literal | name => rfl
  | unary _ ih | assign _ _ ih => exact ih
  | binary _ _ ihl ihr => simp [Expr.blockless, ihl, ihr]
  | call _ _ ih | matrix _ ih => exact blocklessAll_iff.mpr ih
  | index _ _ _ ihe ihs => simp [Expr.blockless, ihe, blocklessAll_iff.mpr ihs]

theorem PrintableStatement.blockless {e : Expr} (h : e.PrintableStatement) : e.blockless := by
  cases h with
  | define _ _ _ body => exact body.blockless
  | expression h => exact h.blockless

/-- A tree that was read has a block at its root only, and not for a single statement. -/
theorem flat_of_read {source : String} (h : read source = .ok e) : e.flat := by
  obtain ⟨es, tree, printable⟩ := printable_of_read h
  have statements : ∀ e ∈ es, e.blockless := fun e member => (printable e member).blockless
  rw [← flat_skeleton, tree]
  rcases es with _ | ⟨only, _ | ⟨next, others⟩⟩
  · rfl
  · exact flat_of_blockless (statements only (by simp))
  · simpa [Grammar.ofStatements, flat] using blocklessAll_iff.mpr statements

def Makes (e : Executable) : Prop :=
  ∃ (t : Expr) (mode : LiteralMode), t.flat ∧ t.isEmpty = false ∧ t.compile mode = .ok e

theorem makes_of_blockless {t : Expr} (compiled : t.compile mode = .ok e) (h : t.blockless) :
    Makes e :=
  ⟨t, mode, flat_of_blockless h, isEmpty_of_blockless h, compiled⟩

theorem makesAll_of_blockless {ts : List Expr} (compiled : compileAll mode ts = .ok es)
    (all : blocklessAll ts) : ∀ e ∈ es, Makes e := by
  intro e member
  rw [compileAll_eq_mapM] at compiled
  obtain ⟨t, inside, made⟩ := Outcome.mapM_ok compiled e member
  exact makes_of_blockless made (blocklessAll_iff.mp all t inside)

/-- Below the root there is no block, so the parts come from trees without any. -/
theorem Makes.parts (h : Makes e) : ∀ x ∈ e.parts, Makes x := by
  obtain ⟨t, mode, flat, _, compiled⟩ := h
  cases compile_eq_ok.mp compiled with
  | literal | name | define => nofun
  | unary made | assign made => exact List.forall_mem_singleton.mpr (makes_of_blockless made flat)
  | binary left right =>
    obtain ⟨hl, hr⟩ := Bool.and_eq_true_iff.mp flat
    exact List.forall_mem_cons.mpr ⟨makes_of_blockless left hl,
      List.forall_mem_singleton.mpr (makes_of_blockless right hr)⟩
  | call made | matrix made => exact makesAll_of_blockless made flat
  | block made => exact makesAll_of_blockless made (Bool.and_eq_true_iff.mp flat).2
  | index object indices =>
    obtain ⟨ho, hi⟩ := Bool.and_eq_true_iff.mp flat
    exact List.forall_mem_cons.mpr
      ⟨makes_of_blockless object ho, makesAll_of_blockless indices hi⟩

end Expr

def Function.Written : Function → Prop
  | user _ _ _ code _ => ∃ (t : Expr) (mode : LiteralMode), t.blockless ∧ t.compile mode = .ok code
  | host _ _ _ => False
  | operation _ _ => True

theorem Executable.brings_written :
    Brings (Every Expr.Makes Function.Written) (Value.Every Function.Written) False := by
  refine brings_every (fun _ made => made.parts) (fun _ _ _ code _ made => ?_)
    (fun _ _ _ code _ written => ?_) fun made => ?_
  · obtain ⟨t, mode, flat, _, compiled⟩ := made
    cases Expr.compile_eq_ok.mp compiled with
    | define body =>
      refine ⟨_, mode, ?_, body⟩
      exact flat
  · obtain ⟨t, mode, blockless, compiled⟩ := written
    exact Expr.makes_of_blockless compiled blockless
  · obtain ⟨t, mode, _, occupied, compiled⟩ := made
    cases Expr.compile_eq_ok.mp compiled with
    | block statements =>
      cases Expr.compileAll_eq_ok.mp statements
      cases occupied

/-- In a scope of good values the run binds good ones only, ends with a result in `Q`, and does not
fail for want of a value. -/
structure Run.Settles (Good : Value → Prop) (p : Run α) (Q : α → Prop) : Prop where
  maintains : Maintains Good p Q
  definite : ∀ m : Machine, m.scope.Holds Good → Outcome.Definite (p m).1

namespace Run.Settles

variable {Good : Value → Prop}

theorem bind {p : Run α} {f : α → Run β} {Q : α → Prop} {R : β → Prop} (first : Settles Good p Q)
    (next : ∀ a, Q a → Settles Good (f a) R) : Settles Good (p >>= f) R where
  maintains := first.maintains.bind fun a good => (next a good).maintains
  definite m holds := by
    have definite := first.definite m holds
    rw [bind_apply]
    rcases run : p m with ⟨_ | a, m'⟩ <;> rw [run] at definite
    · exact fun same => definite (congrArg Except.error (Except.error.inj same))
    · obtain ⟨left, good⟩ := first.maintains.after holds run
      exact (next a good).definite m' left

theorem inCall {p : Run α} {Q : α → Prop} {f : Frame} (frame : f.Holds Good) (h : Settles Good p Q) :
    Settles Good (Run.inCall f p) Q where
  maintains := h.maintains.inCall frame
  definite m holds := by
    unfold Run.inCall
    split
    · exact h.definite _ (holds.push frame)
    · nofun

theorem correspondence :
    Correspondence (fun p _ => Settles Good p) (fun p _ => Settles Good p) Good False where
  ofOutcome made missing := ⟨Maintains.judgement.ofOutcome made, fun _ _ => missing⟩
  bind := bind
  lookup := ⟨Maintains.judgement.lookup, fun _ _ => nofun⟩
  binding good := ⟨Maintains.judgement.binding good, fun _ _ => nofun⟩
  freshStamp := ⟨Maintains.judgement.freshStamp, fun _ _ => nofun⟩
  inCall good h := inCall (.ofArguments good) h

end Run.Settles

namespace Expr

theorem compile_functions {e : Expr} (compiled : e.compile mode = .ok x) : x.functions = [] := by
  rw [Executable.functions_eq_constants, List.flatMap_eq_nil_iff]
  exact fun v member => Value.functions_of_scalar (e.compile_constants compiled v member)

/-- A tree that was read and has a statement settles. -/
theorem settles_of_read {source : String} (h : read source = .ok t) (occupied : t.isEmpty = false)
    (compiled : t.compile mode = .ok x) (offered : Host) (s : Settings) :
    Run.Settles (Value.Every Function.Written) (x.evaluate offered s)
      (Value.Given (Value.Every Function.Written) False) := by
  -- How many calls are left depends on the machine, and so must be fixed before the evaluation is.
  have settles (room : Nat) := Executable.evalWithin_related Run.Settles.correspondence
    (Value.closed_every (fun _ _ => trivial) (fun _ _ _ => id) False offered)
    Executable.brings_written room x s
    ⟨⟨t, mode, flat_of_read h, occupied, compiled⟩, by simp [compile_functions compiled]⟩
  exact ⟨fun m holds => (settles _).maintains m holds, fun m holds => (settles _).definite m holds⟩

/-- That no source can be read is a matter of its text. -/
theorem read_ne_fault (source : String) (f : Fault) : read source ≠ .error (.fault f) := by
  unfold read
  split
  · nofun
  · rename_i tokens _
    cases ofTokens tokens source.utf8ByteSize <;> nofun

end Expr

theorem Outcome.mapError_eq_error {r : Outcome α} {wrap : Fault → Failure} :
    r.mapError wrap = .error e ↔ ∃ f, r = .error f ∧ wrap f = e := by
  cases r <;> simp [Except.mapError]

namespace Engine

inductive Spoken : Engine → Prop
  | new (s : Settings) : Spoken (new s)
  | eval (offered : Host) (source : String) : Spoken e → Spoken (e.eval offered source).2
  | remove (name : String) : Spoken e → Spoken (e.remove name).1
  | clear : Spoken e → Spoken e.clear

variable {e : Engine}

theorem eval_of_isEmpty (read : Expr.read source = .ok t) (empty : t.isEmpty) (offered : Host)
    (e : Engine) : e.eval offered source = (.ok none, e) := by
  cases t with
  | block es =>
    cases es with
    | nil =>
      rw [eval_of_compile read rfl]
      simp only [Executable.evaluate, Executable.evalWithin_eq]
      rfl
    | cons => cases empty
  | _ => cases empty

/-- What a source comes to. It fails before it is evaluated, there is no statement in it, or it is
evaluated as code that settles. -/
inductive Fate (offered : Host) (e : Engine) (source : String) : Prop
  | fails : e.eval offered source = (.error f, e) → f ≠ .fault .noValue →
      (∀ t, Expr.read source = .ok t → t.isEmpty = false) → Fate offered e source
  | empty : Expr.read source = .ok t → t.isEmpty = true →
      e.eval offered source = (.ok none, e) → Fate offered e source
  | settles {x : Executable} : Expr.read source = .ok t → t.isEmpty = false →
      Run.Settles (Value.Every Function.Written) (x.evaluate offered e.settings)
        (Value.Given (Value.Every Function.Written) False) →
      e.eval offered source = ((x.evaluate offered e.settings e.machine).1.mapError .fault,
        { e with machine := (x.evaluate offered e.settings e.machine).2 }) → Fate offered e source

theorem fate (offered : Host) (e : Engine) (source : String) : Fate offered e source := by
  cases read : Expr.read source with
  | error f =>
    have failed : e.compile source = .error f := by
      rw [compile, read]
      rfl
    refine .fails (eval_of_error failed offered) (fun same => ?_) fun t ok => ?_
    · exact Expr.read_ne_fault source _ (read.trans (congrArg _ same))
    · cases read.symm.trans ok
  | ok t =>
    cases empty : t.isEmpty with
    | true => exact .empty read empty (eval_of_isEmpty read empty offered e)
    | false =>
      rcases compile_cases read e with ⟨x, _, compiled, _⟩ | ⟨_, broken⟩
      · exact .settles read empty (Expr.settles_of_read read empty compiled offered e.settings)
          (eval_of_compile read compiled offered)
      · refine .fails (eval_of_error broken offered) (fun same => by cases same) fun t' same => ?_
        cases read.symm.trans same
        exact empty

theorem Spoken.holds (h : Spoken e) : e.scope.Holds (Value.Every Function.Written) := by
  induction h with
  | new s => exact .empty
  | @eval e offered source _ ih =>
    rcases e.fate offered source with ⟨run, _⟩ | ⟨_, _, run⟩ | ⟨_, _, settles, run⟩ <;> rw [run]
    · exact ih
    · exact ih
    · exact (settles.maintains e.machine ih).1
  | remove name _ ih => exact Scope.Holds.remove ih name
  | clear => exact .empty

/-- Sources never come to want of a value, and one that is evaluated well has none exactly if there
is no statement in it. That is so because no tree that is read has a block below its root, one of a
single statement, or an empty one other than itself, and because the bodies of all functions in
scope are such trees. -/
theorem eval_definite (h : Spoken e) (offered : Host) :
    (∀ source, (e.eval offered source).1 ≠ .error (.fault .noValue) ∧
      ((e.eval offered source).1 = .ok none ↔
        ∃ t, Expr.read source = .ok t ∧ t.isEmpty = true)) ∧
    (∀ source t, Expr.read source = .ok t → t.flat = true) ∧
    ∀ f ∈ e.scope.functions, f.Written := by
  refine ⟨fun source => ?_, fun _ _ => Expr.flat_of_read, Scope.holds_every.mp h.holds⟩
  cases e.fate offered source with
  | fails run other occupied =>
    rw [run]
    refine ⟨fun same => other (Except.error.inj same), nofun, fun ⟨t, read, empty⟩ => ?_⟩
    cases (occupied t read).symm.trans empty
  | empty read empty run =>
    rw [run]
    exact ⟨nofun, fun _ => ⟨_, read, empty⟩, fun _ => rfl⟩
  | settles read occupied settles run =>
    have definite := settles.definite e.machine h.holds
    have result := (settles.maintains e.machine h.holds).2
    rw [run]
    refine ⟨fun same => ?_, fun same => ?_, fun ⟨t', same, noStatement⟩ => ?_⟩
    · obtain ⟨f, run, same⟩ := Outcome.mapError_eq_error.mp same
      cases same
      exact definite run
    · exact (result none (Outcome.mapError_eq_ok.mp same)).elim
    · cases read.symm.trans same
      cases occupied.symm.trans noStatement

/-- A function that is defined and called in one source, and a source with a comment only. -/
theorem eval_definite_comment :
    let e := ((new {}).eval .none "f(x) = x; f(f)").2
    e.Spoken ∧ (e.eval .none "# f()").1 = .ok none ∧
    (∃ t, Expr.read "# f()" = .ok t ∧ t.isEmpty = true) ∧
    ∀ source, (e.eval .none source).1 ≠ .error (.fault .noValue) := by
  intro e
  have spoken : e.Spoken := .eval .none _ (.new {})
  obtain ⟨sources, _, _⟩ := eval_definite spoken .none
  have read : Expr.read "# f()" = .ok (.block [] 5) := by with_unfolding_all rfl
  have empty : ∃ t, Expr.read "# f()" = .ok t ∧ t.isEmpty = true := ⟨_, read, rfl⟩
  exact ⟨spoken, (sources "# f()").2.mpr empty, empty, fun source => (sources source).1⟩

end Engine

end Reckon
