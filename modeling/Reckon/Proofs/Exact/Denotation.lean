import Reckon.Expr
import Reckon.Operation
import Reckon.Proofs.Decimal.Numeral
import Mathlib.Algebra.Order.Archimedean.Basic
import Mathlib.Data.Rat.Floor
import Mathlib.Tactic.Linarith

/-! What arithmetic means. A tree of decimals, signs, sums, products, quotients, remainders,
absolute values and roundings denotes a rational number unless something is divided by zero in
it. -/
namespace Reckon

/-- What remains of `x` when an integer multiple of `y` is taken away, with the sign of `y` and
smaller than it. -/
def Remainder (x y r : Rat) : Prop :=
  (∃ k : Int, x = y * k + r) ∧ (0 < y ∧ 0 ≤ r ∧ r < y ∨ y < 0 ∧ y < r ∧ r ≤ 0)

namespace Remainder

theorem ne_zero (h : Remainder x y r) : y ≠ 0 := by
  rcases h.2 with ⟨positive, _⟩ | ⟨negative, _⟩
  · exact positive.ne'
  · exact negative.ne

theorem unique (h : Remainder x y r) (h' : Remainder x y r') : r = r' := by
  obtain ⟨⟨k, hk⟩, bounds⟩ := h
  obtain ⟨⟨k', hk'⟩, bounds'⟩ := h'
  have difference : y * ((k' - k : Int) : Rat) = r - r' := by
    push_cast
    linarith
  -- A multiple of `y` that is smaller than `y` is none.
  have small : |y * ((k' - k : Int) : Rat)| < |y| := by
    rw [difference, abs_lt]
    rcases bounds with ⟨positive, low, high⟩ | ⟨negative, low, high⟩
    · rw [abs_of_pos positive]
      rcases bounds' with ⟨_, low', high'⟩ | ⟨negative, _⟩ <;> constructor <;> linarith
    · rw [abs_of_neg negative]
      rcases bounds' with ⟨positive, _⟩ | ⟨_, low', high'⟩ <;> constructor <;> linarith
  have none : k' - k = 0 := by
    rw [abs_mul] at small
    have less : |((k' - k : Int) : Rat)| < 1 :=
      lt_of_mul_lt_mul_left (by simpa using small) (abs_nonneg y)
    exact Int.abs_lt_one_iff.mp (by exact_mod_cast less)
  rw [none] at difference
  simp at difference
  linarith

end Remainder

def exactFunction? (f : String) (p : Rat) : Option Rat :=
  match f with
  | "abs" => some |p|
  | "floor" => some ⌊p⌋
  | "ceil" => some ⌈p⌉
  | _ => none

namespace Expr

inductive Denotes : Expr → Rat → Prop
  | literal : Numeral.Spelled (Text.trim digits.toList) n →
      Denotes (.literal (.number digits) o) n.value
  | negate : Denotes x p → Denotes (.unary .negate x o) (-p)
  | plus : Denotes x p → Denotes (.unary .plus x o) p
  | add : Denotes x p → Denotes y q → Denotes (.binary .add x y o) (p + q)
  | sub : Denotes x p → Denotes y q → Denotes (.binary .sub x y o) (p - q)
  | mul : Denotes x p → Denotes y q → Denotes (.binary .mul x y o) (p * q)
  | div : Denotes x p → Denotes y q → q ≠ 0 → Denotes (.binary .div x y o) (p / q)
  | mod : Denotes x p → Denotes y q → Remainder p q r → Denotes (.binary .mod x y o) r
  | call : Denotes x p → exactFunction? f p = some q → Denotes (.call f [x] o) q

theorem Denotes.unique (h : Denotes e p) (h' : Denotes e q) : p = q := by
  induction h generalizing q with
  | literal spelled =>
    cases h' with
    | literal spelled' =>
      have read := Numeral.read?_eq_some.mpr spelled
      rw [Numeral.read?_eq_some.mpr spelled'] at read
      rw [Option.some.inj read]
  | negate _ ih => cases h' with | negate hx => rw [ih hx]
  | plus _ ih => cases h' with | plus hx => rw [ih hx]
  | add _ _ ihx ihy => cases h' with | add hx hy => rw [ihx hx, ihy hy]
  | sub _ _ ihx ihy => cases h' with | sub hx hy => rw [ihx hx, ihy hy]
  | mul _ _ ihx ihy => cases h' with | mul hx hy => rw [ihx hx, ihy hy]
  | div _ _ _ ihx ihy => cases h' with | div hx hy => rw [ihx hx, ihy hy]
  | mod _ _ remainder ihx ihy =>
    cases h' with
    | mod hx hy remainder' =>
      obtain rfl := ihx hx
      obtain rfl := ihy hy
      exact remainder.unique remainder'
  | call _ made ih =>
    cases h' with
    | call hx made' =>
      obtain rfl := ih hx
      exact Option.some.inj (made.symm.trans made')

mutual

def postorder : Expr → List Expr
  | literal l o => [literal l o]
  | name n o => [name n o]
  | unary op x o => x.postorder ++ [unary op x o]
  | binary op x y o => x.postorder ++ (y.postorder ++ [binary op x y o])
  | call f es o => postorderAll es ++ [call f es o]
  | define n ps x o => x.postorder ++ [define n ps x o]
  | assign n x o => x.postorder ++ [assign n x o]
  | block es o => postorderAll es ++ [block es o]
  | matrix es o => postorderAll es ++ [matrix es o]
  | index x es o => x.postorder ++ (postorderAll es ++ [index x es o])

def postorderAll : List Expr → List Expr
  | [] => []
  | e :: es => e.postorder ++ postorderAll es

end

inductive DividesByZero : Expr → Rule → Prop
  | div : Denotes y 0 → DividesByZero (.binary .div x y o) .divide
  | mod : Denotes y 0 → DividesByZero (.binary .mod x y o) .mod

/-- The first tree of a list that divides by zero does so by the given rule. -/
inductive FirstDivision : List Expr → Rule → Prop
  | here : DividesByZero e r → FirstDivision (e :: es) r
  | later : (∀ r, ¬ DividesByZero e r) → FirstDivision es r →
      FirstDivision (e :: es) r

theorem DividesByZero.unique (h : DividesByZero e r) (h' : DividesByZero e r') :
    r = r' := by
  cases h <;> cases h' <;> rfl

namespace FirstDivision

theorem unique (h : FirstDivision es r) (h' : FirstDivision es r') : r = r' := by
  induction h with
  | here zero =>
    cases h' with
    | here zero' => exact zero.unique zero'
    | later not_zero => exact absurd zero (not_zero _)
  | later not_zero _ ih =>
    cases h' with
    | here zero' => exact absurd zero' (not_zero _)
    | later _ rest => exact ih rest

theorem exists_mem (h : FirstDivision es r) : ∃ e ∈ es, DividesByZero e r := by
  induction h with
  | here zero => exact ⟨_, .head _, zero⟩
  | later _ _ ih =>
    obtain ⟨e, member, zero⟩ := ih
    exact ⟨e, .tail _ member, zero⟩

theorem exists_of_mem (member : e ∈ es) (zero : DividesByZero e r) :
    ∃ r, FirstDivision es r := by
  induction es with
  | nil => cases member
  | cons e' es ih =>
    by_cases first : ∃ r, DividesByZero e' r
    · obtain ⟨r, first⟩ := first
      exact ⟨r, .here first⟩
    · rcases List.mem_cons.mp member with rfl | rest
      · exact absurd ⟨r, zero⟩ first
      · obtain ⟨r, rest⟩ := ih rest
        exact ⟨r, .later (fun r zero => first ⟨r, zero⟩) rest⟩

theorem append_right (h : FirstDivision es r) (others : List Expr) :
    FirstDivision (es ++ others) r := by
  induction h with
  | here zero => exact .here zero
  | later not_zero _ ih => exact .later not_zero ih

theorem append_left (none : ∀ e ∈ es, ∀ r, ¬ DividesByZero e r)
    (h : FirstDivision others r) : FirstDivision (es ++ others) r := by
  induction es with
  | nil => exact h
  | cons e es ih =>
    obtain ⟨first, rest⟩ := List.forall_mem_cons.mp none
    exact .later first (ih rest)

end FirstDivision

/-- Nothing is divided by zero in a tree that denotes a number. -/
theorem Denotes.no_division (h : Denotes e p) :
    ∀ part ∈ e.postorder, ∀ r, ¬ DividesByZero part r := by
  have last {es : List Expr} {e : Expr} (others : ∀ part ∈ es, ∀ r, ¬ DividesByZero part r)
      (not_zero : ∀ r, ¬ DividesByZero e r) :
      ∀ part ∈ es ++ [e], ∀ r, ¬ DividesByZero part r :=
    List.forall_mem_append.mpr ⟨others, List.forall_mem_singleton.mpr not_zero⟩
  induction h with
  | literal => exact List.forall_mem_singleton.mpr nofun
  | negate _ ih | plus _ ih => exact last ih nofun
  | add _ _ ihx ihy | sub _ _ ihx ihy | mul _ _ ihx ihy =>
    exact List.forall_mem_append.mpr ⟨ihx, last ihy nofun⟩
  | div _ hy nonzero ihx ihy =>
    refine List.forall_mem_append.mpr ⟨ihx, last ihy fun r zero => ?_⟩
    cases zero with
    | div zero => exact nonzero (hy.unique zero)
  | mod _ hy remainder ihx ihy =>
    refine List.forall_mem_append.mpr ⟨ihx, last ihy fun r zero => ?_⟩
    cases zero with
    | mod zero => exact remainder.ne_zero (hy.unique zero)
  | call _ _ ih =>
    rw [postorder, postorderAll, postorderAll, List.append_nil]
    exact last ih nofun

end Expr
end Reckon
