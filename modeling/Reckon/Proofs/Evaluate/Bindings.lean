import Reckon.Proofs.Evaluate.Judgement
import Reckon.Proofs.Evaluate.Nested

/-! Properties of all values in a scope. One that operations and calls keep holds of every value
that an evaluation binds, in any frame and at any moment, and of its result. -/
namespace Reckon

variable {Good : Value → Prop}

def Frame.Holds (Good : Value → Prop) (f : Frame) : Prop := ∀ b ∈ f.bindings, Good b.2

def Scope.Holds (Good : Value → Prop) (s : Scope) : Prop := ∀ f ∈ s.frames, f.Holds Good

namespace Frame.Holds

variable {f : Frame}

theorem erase (h : f.Holds Good) (name : String) : (f.erase name).Holds Good :=
  fun b member => h b (List.mem_filter.mp member).1

theorem insert (h : f.Holds Good) (name : String) (good : Good v) :
    (f.insert name v).Holds Good :=
  List.forall_mem_cons.mpr ⟨good, h.erase name⟩

theorem get? (h : f.Holds Good) (found : f.get? name = some v) : Good v := by
  obtain ⟨before, after, split, _⟩ := List.lookup_eq_some_iff.mp found
  exact h (name, v) (by simp [split])

theorem ofArguments {arguments : List Value} (good : ∀ v ∈ arguments, Good v) :
    (Frame.ofArguments parameters arguments).Holds Good := by
  have bound : ∀ b ∈ parameters.zip arguments, Good b.2 :=
    fun b member => good b.2 (List.of_mem_zip member).2
  unfold Frame.ofArguments
  generalize parameters.zip arguments = bs at bound
  have empty : Frame.empty.Holds Good := nofun
  generalize Frame.empty = f at empty
  induction bs generalizing f with
  | nil => exact empty
  | cons b bs ih =>
    obtain ⟨first, others⟩ := List.forall_mem_cons.mp bound
    exact ih others _ (empty.insert b.1 first)

end Frame.Holds

namespace Scope.Holds

variable {s : Scope}

theorem mono (h : s.Holds Good) (weaker : ∀ v, Good v → Fine v) : s.Holds Fine :=
  fun f hf b hb => weaker b.2 (h f hf b hb)

theorem empty : Scope.empty.Holds Good := by
  intro f member
  obtain rfl := List.mem_singleton.mp member
  nofun

theorem push (h : s.Holds Good) (hf : f.Holds Good) : (s.push f).Holds Good :=
  List.forall_mem_cons.mpr ⟨hf, h⟩

theorem pop (h : s.Holds Good) : s.pop.Holds Good := by
  refine fun f member => h f ?_
  unfold Scope.pop Scope.frames at member
  unfold Scope.frames
  simp only [List.mem_append] at member ⊢
  exact member.imp_left List.mem_of_mem_tail

theorem update (h : s.Holds Good)
    (change : s.innermost.Holds Good → (f s.innermost).Holds Good) : (s.update f).Holds Good := by
  cases s with
  | mk global calls =>
    cases calls with
    | nil =>
      refine fun g member => ?_
      obtain rfl := List.mem_singleton.mp member
      exact change (h global (by simp [frames]))
    | cons g gs =>
      obtain ⟨first, others⟩ := List.forall_mem_cons.mp h
      exact List.forall_mem_cons.mpr ⟨change first, others⟩

theorem set (h : s.Holds Good) (name : String) (good : Good v) : (s.set name v).Holds Good :=
  h.update fun inner => inner.insert name good

theorem remove (h : s.Holds Good) (name : String) : (s.remove name).1.Holds Good :=
  h.update fun inner => inner.erase name

theorem get? (h : s.Holds Good) (found : s.get? name = some v) : Good v := by
  unfold Scope.get? at found
  split at found
  · rename_i w called
    obtain rfl := Option.some.inj found
    obtain ⟨f, member, found⟩ := List.exists_of_findSome?_eq_some called
    exact (h f (List.mem_append_left _ member)).get? found
  · exact (h s.global (by simp [frames])).get? found

end Scope.Holds

namespace Run

def Maintains (Good : Value → Prop) (p : Run α) (Q : α → Prop) : Prop :=
  ∀ m : Machine, m.scope.Holds Good →
    (p m).2.scope.Holds Good ∧ ∀ a, (p m).1 = .ok a → Q a

namespace Maintains

theorem after {p : Run α} {Q : α → Prop} (h : Maintains Good p Q) (holds : m.scope.Holds Good)
    (run : p m = (.ok a, m')) : m'.scope.Holds Good ∧ Q a := by
  obtain ⟨left, result⟩ := h m holds
  rw [run] at left result
  exact ⟨left, result a rfl⟩

theorem bind {p : Run α} {f : α → Run β} {Q : α → Prop} {R : β → Prop}
    (first : Maintains Good p Q) (next : ∀ a, Q a → Maintains Good (f a) R) :
    Maintains Good (p >>= f) R := by
  intro m holds
  obtain ⟨left, result⟩ := first m holds
  rw [bind_apply]
  rcases hm : p m with ⟨_ | a, m'⟩ <;> rw [hm] at left result
  · exact ⟨left, nofun⟩
  · exact next a (result a rfl) m' left

theorem inCall {p : Run α} {Q : α → Prop} (frame : f.Holds Good) (h : Maintains Good p Q) :
    Maintains Good (Run.inCall f p) Q := by
  intro m holds
  unfold Run.inCall
  split
  · obtain ⟨left, result⟩ := h { m with scope := m.scope.push f } (holds.push frame)
    exact ⟨left.pop, result⟩
  · exact ⟨holds, nofun⟩

theorem judgement : Judgement (Maintains Good) Good where
  ofOutcome h _ holds := ⟨holds, h⟩
  bind := bind
  lookup _ holds := ⟨holds, fun _ same _ found =>
    holds.get? ((Except.ok.inj same).trans found)⟩
  binding good _ holds := ⟨holds.set _ good, fun _ _ => trivial⟩
  freshStamp _ holds := ⟨holds, fun _ _ => trivial⟩
  inCall good h := inCall (.ofArguments good) h

end Maintains

end Run

namespace Executable

variable {offered : Host} (kept : Value.Kept Good offered)

include kept

theorem evalWithin_maintains (room : Nat) (e : Executable) (s : Settings)
    (good : ∀ v ∈ e.constants, Good v) :
    Run.Maintains Good (evalWithin offered room e s) fun v => ∀ w ∈ v, Good w :=
  evalWithin_judged Run.Maintains.judgement kept room e s good

theorem bodies_maintain (room : Nat) (code : Executable) (own : Settings)
    (good : ∀ v ∈ code.constants, Good v) :
    Run.Maintains Good (bodies offered room code own) Good := by
  have judgement : Run.Judgement (Run.Maintains Good) Good := Run.Maintains.judgement
  cases room with
  | zero => exact judgement.fail _
  | succ room =>
    exact judgement.bind (evalWithin_maintains kept room code own good) fun _ found =>
      judgement.required found

theorem evalAll_maintains (room : Nat) (es : List Executable) (s : Settings)
    (good : ∀ v ∈ constantsAll es, Good v) :
    Run.Maintains Good (evalAll (bodies offered room) offered s es) fun vs => ∀ v ∈ vs, Good v :=
  evalAll_judged Run.Maintains.judgement kept (bodies_maintain kept room) es good

theorem evalStatements_maintains (room : Nat) (es : List Executable) (s : Settings)
    (good : ∀ v ∈ constantsAll es, Good v) :
    Run.Maintains Good (evalStatements (bodies offered room) offered s none es)
      fun v => ∀ w ∈ v, Good w :=
  evalStatements_judged Run.Maintains.judgement kept (bodies_maintain kept room) none (by simp) es
    good

end Executable

namespace Evaluation

structure Holds (Good : Value → Prop) (e : Evaluation) : Prop where
  scope : e.machine.scope.Holds Good
  constants : ∀ v ∈ e.code.constants, Good v

open Executable

theorem constantsAll_append (xs ys : List Executable) :
    constantsAll (xs ++ ys) = constantsAll xs ++ constantsAll ys := by
  induction xs with
  | nil => rfl
  | cons x xs ih => rw [List.cons_append, constantsAll, ih, constantsAll, List.append_assoc]

/-- The values written in the parts before one of several, and in that part. -/
theorem good_parts {before after : List Executable}
    (good : ∀ v ∈ constantsAll (before ++ x :: after), Good v) :
    (∀ v ∈ constantsAll before, Good v) ∧ ∀ v ∈ x.constants, Good v := by
  rw [constantsAll_append, List.forall_mem_append] at good
  exact ⟨good.1, (List.forall_mem_append.mp good.2).1⟩

variable {offered : Host} (kept : Value.Kept Good offered)

include kept

theorem Holds.starts (h : Holds Good e) (step : Starts offered e e') : Holds Good e' := by
  obtain ⟨scope, good⟩ := h
  cases step with
  | operand | assigned => exact ⟨scope, good⟩
  | left | object => exact ⟨scope, (List.forall_mem_append.mp good).1⟩
  | right run =>
    obtain ⟨goodLeft, goodRight⟩ := List.forall_mem_append.mp good
    exact ⟨((evalWithin_maintains kept _ _ _ goodLeft).after scope run).1, goodRight⟩
  | argument run | element run =>
    obtain ⟨goodBefore, goodPart⟩ := good_parts good
    exact ⟨((evalAll_maintains kept _ _ _ goodBefore).after scope run).1, goodPart⟩
  | statement run =>
    obtain ⟨goodBefore, goodPart⟩ := good_parts good
    exact ⟨((evalStatements_maintains kept _ _ _ goodBefore).after scope run).1, goodPart⟩
  | body run found =>
    obtain ⟨left, goodArguments⟩ := (evalAll_maintains kept _ _ _ good).after scope run
    exact ⟨left.push (.ofArguments goodArguments), kept.user.mp (left.get? found)⟩
  | index runObject runBefore =>
    obtain ⟨goodObject, goodIndices⟩ := List.forall_mem_append.mp good
    obtain ⟨goodBefore, goodPart⟩ := good_parts goodIndices
    have left := ((evalWithin_maintains kept _ _ _ goodObject).after scope runObject).1
    exact ⟨((evalAll_maintains kept _ _ _ goodBefore).after left runBefore).1, goodPart⟩

theorem Holds.nested (h : Holds Good e) (inside : Nested offered e e') : Holds Good e' := by
  induction inside with
  | refl => exact h
  | tail _ step ih => exact ih.starts kept step

theorem Holds.run (h : Holds Good e) : (e.run offered).2.scope.Holds Good ∧
    ∀ v, (e.run offered).1 = .ok (some v) → Good v := by
  obtain ⟨left, result⟩ :=
    evalWithin_maintains kept e.room e.code e.settings h.constants e.machine h.scope
  exact ⟨left, fun v made => result (some v) made v rfl⟩

end Evaluation

end Reckon
