import Mathlib.Data.List.Forall2
import Reckon.Fault

/-! Outcomes in sequence: values go on to the next step and a fault ends the run. Two runs are
related if their values are, or else their faults. -/
namespace Reckon

namespace Outcome

theorem bind_eq_ok {r : Outcome α} {f : α → Outcome β} :
    (r >>= f) = .ok b ↔ ∃ a, r = .ok a ∧ f a = .ok b := by
  cases r with
  | error e => simp [bind, Except.bind]
  | ok a => simp [bind, Except.bind]

theorem bind_eq_error {r : Outcome α} {f : α → Outcome β} :
    (r >>= f) = .error e ↔ r = .error e ∨ ∃ a, r = .ok a ∧ f a = .error e := by
  cases r with
  | error e => simp [bind, Except.bind]
  | ok a => simp [bind, Except.bind]

/-- Elements in order, up to the first failure. -/
theorem mapM_cases (f : α → Outcome β) (xs : List α) :
    (∃ ys, xs.mapM f = .ok ys ∧ ys.length = xs.length ∧
      ∀ (i : Nat) x y, xs[i]? = some x → ys[i]? = some y → f x = .ok y) ∨
    ∃ (i : Nat) (x : α) (e : Fault), xs[i]? = some x ∧ f x = .error e ∧ xs.mapM f = .error e ∧
      ∀ j < i, ∀ x, xs[j]? = some x → ∃ y, f x = .ok y := by
  induction xs with
  | nil => exact .inl ⟨[], rfl, rfl, nofun⟩
  | cons x xs ih =>
    rw [List.mapM_cons]
    cases hx : f x with
    | error e => exact .inr ⟨0, x, e, rfl, hx, rfl, nofun⟩
    | ok y =>
      rcases ih with ⟨ys, run, length, each⟩ | ⟨i, a, e, found, fails, run, before⟩
      · refine .inl ⟨y :: ys, by rw [run]; rfl, by simp [length], fun i a b ha hb => ?_⟩
        cases i with
        | zero => exact Option.some.inj ha ▸ Option.some.inj hb ▸ hx
        | succ i => exact each i a b ha hb
      · refine .inr ⟨i + 1, a, e, found, fails, by rw [run]; rfl, fun j hj b hb => ?_⟩
        cases j with
        | zero => exact ⟨y, Option.some.inj hb ▸ hx⟩
        | succ j => exact before j (Nat.lt_of_succ_lt_succ hj) b hb

theorem mapM_eq_ok {f : α → Outcome β} {xs : List α} {ys : List β} :
    xs.mapM f = .ok ys ↔ List.Forall₂ (fun x y => f x = .ok y) xs ys := by
  induction xs generalizing ys with
  | nil => simp [pure, Except.pure, eq_comm]
  | cons x xs ih =>
    rw [List.mapM_cons, bind_eq_ok]
    constructor
    · rintro ⟨y, first, others⟩
      obtain ⟨zs, rest, made⟩ := bind_eq_ok.mp others
      cases made
      exact .cons first (ih.mp rest)
    · rintro (_ | ⟨first, rest⟩)
      exact ⟨_, first, bind_eq_ok.mpr ⟨_, ih.mpr rest, rfl⟩⟩

/-- Every result comes from an element. -/
theorem mapM_ok {f : α → Outcome β} {xs : List α} (run : xs.mapM f = .ok ys) :
    ∀ y ∈ ys, ∃ x ∈ xs, f x = .ok y := by
  have each := mapM_eq_ok.mp run
  clear run
  induction each with
  | nil => nofun
  | cons first _ ih =>
    refine List.forall_mem_cons.mpr ⟨⟨_, List.mem_cons_self, first⟩, fun y member => ?_⟩
    obtain ⟨x, inside, made⟩ := ih y member
    exact ⟨x, List.mem_cons_of_mem _ inside, made⟩

theorem exists_mapM {f : α → Outcome β} {xs : List α} :
    (∃ ys, xs.mapM f = .ok ys) ↔ ∀ x ∈ xs, ∃ y, f x = .ok y := by
  simp only [mapM_eq_ok]
  induction xs with
  | nil => simp
  | cons x xs ih =>
    rw [List.forall_mem_cons, ← ih]
    constructor
    · rintro ⟨_, _ | ⟨first, rest⟩⟩
      exact ⟨⟨_, first⟩, _, rest⟩
    · rintro ⟨⟨y, first⟩, ys, rest⟩
      exact ⟨y :: ys, .cons first rest⟩

inductive Related (F : Fault → Fault → Prop) (R : α → β → Prop) : Outcome α → Outcome β → Prop
  | values : R v w → Related F R (.ok v) (.ok w)
  | faults : F e e' → Related F R (.error e) (.error e')

variable {F : Fault → Fault → Prop}

theorem Related.refl {R : α → α → Prop} (values : ∀ v, R v v) (faults : ∀ e, F e e)
    (a : Outcome α) : Related F R a a := by
  cases a with
  | ok v => exact .values (values v)
  | error e => exact .faults (faults e)

theorem Related.bind {f : α → Outcome γ} {g : β → Outcome δ} (h : Related F R a b)
    (next : ∀ v w, R v w → Related F S (f v) (g w)) : Related F S (a >>= f) (b >>= g) := by
  cases h with
  | values related => exact next _ _ related
  | faults related => exact .faults related

theorem Related.mapM {f : α → Outcome γ} {g : β → Outcome δ}
    (each : List.Forall₂ (fun a b => Related F R (f a) (g b)) as bs) :
    Related F (List.Forall₂ R) (as.mapM f) (bs.mapM g) := by
  induction each with
  | nil => exact .values .nil
  | cons first _ ih =>
    rw [List.mapM_cons, List.mapM_cons]
    exact first.bind fun _ _ head => ih.bind fun _ _ tail => .values (.cons head tail)

end Outcome

end Reckon
