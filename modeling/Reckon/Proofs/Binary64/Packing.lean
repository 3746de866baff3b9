import Mathlib
import Reckon.Proofs.Binary64.Rounding

/-! The bits of a double hold its sign, its exponent and its mantissa: what is packed on the grid is
found again, and beyond the largest exponent it is infinite. The library's lemmas on the components of
packed doubles are in none of its parts that could be imported alone, hence the whole of it. -/
namespace Reckon.Binary64

open Float.Model (Format)
open Float.Model.UnpackedFloat

def make (negative : Bool) (m : Nat) (e : Int) : Binary64 :=
  if m = 0 then .finite negative 0 0
  else if maxExponent < e then .infinite negative
  else .finite negative m e

/-- The implicit digit stands above the others. -/
theorem toNat_append_mantissa (m : BitVec 52) : (1#1 ++ m).toNat = 2 ^ 52 + m.toNat := by
  rw [BitVec.toNat_append, ← Nat.shiftLeft_add_eq_or_of_lt m.isLt]
  rfl

theorem unpack_normal (sign : Sign) (full : 2 ^ 52 ≤ m) (digits : m < 2 ^ 53) (low : 0 < e)
    (high : e < 2047) :
    unpack .binary64 (packComponents .binary64 sign (BitVec.ofNat 11 e) (BitVec.ofNat 52 m)) =
      .finite sign m (e - 1075) (by omega) := by
  have exponent : (BitVec.ofNat 11 e).toNat = e := by
    rw [BitVec.toNat_ofNat, Nat.mod_eq_of_lt (by omega)]
  have mantissa : (1#1 ++ BitVec.ofNat 52 m).toNat = m := by
    rw [toNat_append_mantissa, BitVec.toNat_ofNat]
    omega
  have notLast : BitVec.ofNat 11 e ≠ -1#11 := fun last => by
    have := congrArg BitVec.toNat last
    rw [exponent] at this
    simp at this
    omega
  have notFirst : BitVec.ofNat 11 e ≠ 0#11 := fun first => by
    have := congrArg BitVec.toNat first
    rw [exponent] at this
    simp at this
    omega
  rw [unpack]
  simp only [unpackMantissa_packComponents, unpackExponent_packComponents,
    unpackSign_packComponents, Sign.ofBitVec_toBitVec, if_neg notLast, if_neg notFirst, exponent,
    mantissa]
  congr 1

theorem unpack_subnormal (sign : Sign) (positive : 0 < m) (small : m < 2 ^ 52) :
    unpack .binary64 (packComponents .binary64 sign 0#11 (BitVec.ofNat 52 m)) =
      .finite sign m (-1074) positive := by
  have mantissa : (BitVec.ofNat 52 m).toNat = m := by
    rw [BitVec.toNat_ofNat, Nat.mod_eq_of_lt small]
  have notZero : BitVec.ofNat 52 m ≠ 0#52 := fun zero => by
    have := congrArg BitVec.toNat zero
    rw [mantissa] at this
    simp at this
    omega
  rw [unpack]
  simp only [unpackMantissa_packComponents, unpackExponent_packComponents,
    unpackSign_packComponents, Sign.ofBitVec_toBitVec, dif_neg notZero, mantissa]
  rfl

/-- A magnitude on the grid is packed without loss unless its exponent is too large. -/
theorem unpack_pack (grid : OnGrid m e) (positive : 0 < m) (small : e ≤ maxExponent) (sign : Sign) :
    unpack .binary64 (pack .binary64 (.finite sign m e positive)) = .finite sign m e positive := by
  obtain ⟨digits, least, full⟩ := grid
  rw [maxExponent] at small
  have biased : (e + Format.binary64.exponentBias +
      Format.binary64.mantissaBitsWithoutImplicit).toNat = (e + 1075).toNat := by
    change (e + (1023 : Nat) + (52 : Nat)).toNat = _
    omega
  rw [pack]
  simp only [biased]
  rw [if_neg (by simp; omega)]
  by_cases normal : 2 ^ 52 ≤ m
  · have log : m.log2 + 1 = Format.binary64.mantissaBits := by
      rw [(Nat.log2_eq_iff positive.ne').mpr ⟨normal, digits⟩]
      rfl
    rw [if_pos log]
    refine (unpack_normal sign normal digits (by omega) (by omega)).trans ?_
    congr 1
    omega
  · obtain rfl := full.resolve_left normal
    have log : m.log2 + 1 ≠ Format.binary64.mantissaBits := by
      have := (Nat.log2_lt positive.ne').mpr (not_le.mp normal)
      change m.log2 + 1 ≠ 53
      omega
    rw [if_neg log]
    exact unpack_subnormal sign positive (not_le.mp normal)

/-- What is packed on the grid, or beyond its end. -/
theorem ofFloat_pack (grid : OnGrid m e) (sign : Sign) :
    ofFloat ⟨.pack (unpacked sign m e)⟩ = make (sign == .negative) m e := by
  rw [unpacked, make]
  split
  · cases sign <;> rfl
  · rename_i nonzero
    split
    · rename_i large
      have packed : pack .binary64 (.finite sign m e (Nat.pos_of_ne_zero nonzero)) =
          packedInfinity .binary64 sign := by
        rw [maxExponent] at large
        rw [pack]
        exact if_pos (by change 2048 ≤ (e + (1023 : Nat) + (52 : Nat)).toNat + 1; omega)
      have model : Float.Model.pack (.finite sign m e (Nat.pos_of_ne_zero nonzero)) =
          .pack (.infinity sign) := by
        simp only [Float.Model.pack, packed]
        rfl
      rw [model]
      cases sign <;> rfl
    · rename_i small
      have model : (Float.Model.pack (.finite sign m e (Nat.pos_of_ne_zero nonzero))).unpack =
          .finite sign m e (Nat.pos_of_ne_zero nonzero) :=
        unpack_pack grid (Nat.pos_of_ne_zero nonzero) (not_lt.mp small) sign
      rw [ofFloat, model]

theorem unpacked_of_pos (positive : 0 < m) : unpacked sign m e = .finite sign m e positive :=
  dif_neg positive.ne'

/-- A double is no number, an infinity or a magnitude on the grid with a sign. -/
theorem unpack_cases (x : Float) : x.toModel.unpack = .notANumber ∨
    (∃ sign, x.toModel.unpack = .infinity sign) ∨
    ∃ sign m e, OnGrid m e ∧ e ≤ maxExponent ∧ x.toModel.unpack = unpacked sign m e := by
  rw [Float.Model.unpack]
  generalize x.toModel.toBits.toBitVec = bits
  have bias : ((Format.binary64.exponentBias : Nat) : Int) +
      (Format.binary64.mantissaBitsWithoutImplicit : Nat) = 1075 := rfl
  fun_cases unpack .binary64 bits with
  | case1 => exact .inr (.inl ⟨_, rfl⟩)
  | case2 => exact .inl rfl
  | case3 => exact .inr (.inr ⟨_, 0, -1074, ⟨by decide, by decide, .inr rfl⟩, by decide, rfl⟩)
  | case4 mantissa exponent e bit sign _ first nonzero =>
    have digits : mantissa.toNat < 2 ^ 52 := mantissa.isLt
    have positive : 0 < mantissa.toNat := by
      simpa [BitVec.toNat_pos, BitVec.pos_iff_ne_zero] using nonzero
    have least : e + 1 = -1074 := by
      dsimp only [e]
      rw [first, bias]
      rfl
    rw [← unpacked_of_pos positive, least]
    exact .inr (.inr ⟨_, _, _, ⟨by omega, le_rfl, .inr rfl⟩, by decide, rfl⟩)
  | case5 mantissa exponent e bit sign notLast notFirst =>
    have first : 0 < exponent.toNat := by
      simpa [BitVec.toNat_pos, BitVec.pos_iff_ne_zero] using notFirst
    have last : exponent.toNat < 2047 := by
      have : exponent.toNat ≠ 2047 := fun last => notLast (BitVec.eq_of_toNat_eq last)
      have : exponent.toNat < 2 ^ 11 := exponent.isLt
      omega
    have mantissaLt : mantissa.toNat < 2 ^ 52 := mantissa.isLt
    have digits : (1#1 ++ mantissa).toNat = 2 ^ 52 + mantissa.toNat :=
      toNat_append_mantissa mantissa
    have biased : e = exponent.toNat - 1075 := by
      dsimp only [e]
      rw [bias]
    have small : e ≤ maxExponent := by
      rw [maxExponent]
      omega
    rw [← unpacked_of_pos (by omega)]
    exact .inr (.inr ⟨_, _, _, ⟨by omega, by omega, .inl (by omega)⟩, small, rfl⟩)

end Reckon.Binary64
