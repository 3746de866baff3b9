import Reckon.Proofs.Exact.Reading
import Reckon.Proofs.Lexer
import Mathlib.Algebra.Order.Archimedean.Basic
import Mathlib.Data.List.DropRight
import Mathlib.Data.Rat.Lemmas
import Mathlib.Tactic.FieldSimp
import Mathlib.Tactic.Ring

/-! The text of an exact number is a decimal that is read as the number, cut off behind twenty
digits. -/
namespace Reckon

open Numeral (Digits Mantissa Sign Spelled)

/-- A decimal without sign and exponent, with digits on both sides of its point, if it has one, and
the number of those behind it. -/
inductive Written : Nat → List Char → Rat → Prop
  | whole : Digits cs n → Written 0 cs n
  | point : Digits ws n → Digits fs k →
      Written fs.length (ws ++ '.' :: fs) (n + k / 10 ^ fs.length)

namespace Numeral.Digits

theorem of_toDigits (n : Nat) : Digits (Nat.toDigits 10 n) n where
  ne_nil := Nat.toDigits_ne_nil
  isDigit _ member := Nat.isDigit_of_mem_toDigits (by decide) (by decide) member
  value := Nat.ofDigitChars_toDigits (by decide) (by decide)

theorem append (front : Digits cs n) (back : Digits ds k) :
    Digits (cs ++ ds) (10 ^ ds.length * n + k) where
  ne_nil := by simp [front.ne_nil]
  isDigit c member := (List.mem_append.mp member).elim (front.isDigit c) (back.isDigit c)
  value := by
    rw [Nat.ofDigitChars_append, Nat.ofDigitChars_eq_ofDigitChars_zero, front.value, back.value]

end Numeral.Digits

namespace Text

theorem isBlank_eq_false (h : c.isDigit ∨ c = '.') : isBlank c = false := by
  rcases h with digit | rfl
  · have bounds : 48 ≤ c.toNat ∧ c.toNat ≤ 57 := by
      simpa [Char.isDigit, UInt32.le_iff_toNat_le] using digit
    unfold isBlank
    simp only [Bool.or_eq_false_iff, Bool.and_eq_false_iff, decide_eq_false_iff_not,
      beq_eq_false_iff_ne]
    omega
  · rfl

/-- Nothing is trimmed off a text without blanks. -/
theorem trim_of_forall (h : ∀ c ∈ cs, isBlank c = false) : trim cs = cs := by
  have kept {cs : List Char} (h : ∀ c ∈ cs, isBlank c = false) : cs.dropWhile isBlank = cs :=
    List.dropWhile_eq_self_iff.mpr fun nonempty => by simp [h _ (List.getElem_mem nonempty)]
  rw [trim, kept h, kept fun c hc => h c (List.mem_reverse.mp hc), List.reverse_reverse]

end Text

namespace Written

theorem mantissa (h : Written p cs q) : ∃ n : Nat, Mantissa cs n p ∧ (n : Rat) / 10 ^ p = q := by
  cases h with
  | whole digits => exact ⟨_, .whole digits, by simp⟩
  | point whole fraction =>
    refine ⟨_, .point (whole.append fraction), ?_⟩
    push_cast
    field_simp

/-- A decimal with a sign is read as the number that it writes, unless it is too long. -/
theorem read {text : String} (h : Written p cs q) (sign : Sign sg b)
    (whole : text.toList = sg ++ cs) (short : p ≤ Exact.maxScale) :
    Exact.read text = .ok (if b then -q else q) := by
  obtain ⟨n, mantissa, value⟩ := h.mantissa
  have trimmed : Text.trim text.toList = text.toList := by
    refine Text.trim_of_forall fun c hc => ?_
    rcases List.mem_append.mp (whole ▸ hc) with mark | digit
    · cases sign <;> simp_all [Text.isBlank]
    · exact Text.isBlank_eq_false (mantissa.digit_or_point digit)
  have spelled : Spelled text.toList ⟨b, n, p, 0⟩ := by
    simpa [whole] using Spelled.intro sign mantissa .none
  refine Exact.read_eq_ok.mpr ⟨_, Exact.numeral_eq_ok.mpr ⟨trimmed.symm ▸ spelled, rfl, ?_⟩, ?_⟩
  · simpa [Numeral.scale] using short
  · simp [Numeral.value, Numeral.magnitude, Numeral.scale, Decimal.value, Decimal.tenTo, ← value,
      div_eq_mul_inv]

theorem digits_append (digits : Digits cs n) (stop : Lexer.startsDigit more = false) :
    Lexer.digits (cs ++ more) = (cs, more) := by
  have behind : more.takeWhile Char.isDigit = [] ∧ more.dropWhile Char.isDigit = more := by
    cases more with
    | nil => simp
    | cons c more =>
      have other : c.isDigit = false := stop
      simp [other]
  unfold Lexer.digits Lexer.splitWhile
  rw [List.takeWhile_append_of_pos digits.isDigit, List.dropWhile_append_of_pos digits.isDigit,
    behind.1, behind.2, List.append_nil]

theorem startsDigit (digits : Digits cs n) (more : List Char) :
    Lexer.startsDigit (cs ++ more) = true := by
  obtain ⟨c, cs, rfl⟩ := List.exists_cons_of_ne_nil digits.ne_nil
  exact digits.isDigit c (by simp)

theorem number (h : Written p cs q) : Lexer.number cs = (cs, []) := by
  cases h with
  | whole digits =>
    have all := digits_append digits (rfl : Lexer.startsDigit [] = false)
    rw [List.append_nil] at all
    simp [Lexer.number, all, Lexer.fraction, Lexer.exponent]
  | @point ws n fs k whole fraction =>
    have first := digits_append whole (rfl : Lexer.startsDigit ('.' :: fs) = false)
    have rest := digits_append fraction (rfl : Lexer.startsDigit [] = false)
    have begins := startsDigit fraction []
    rw [List.append_nil] at rest begins
    simp [Lexer.number, first, Lexer.fraction, begins, rest, Lexer.exponent]

/-- A decimal is one token. -/
theorem lexes (h : Written p cs q) : Lexer.Lexes cs [.number (String.ofList cs)] [] := by
  have begins : Lexer.startsDigit cs = true := by
    cases h with
    | whole digits => simpa using startsDigit digits []
    | point whole => exact startsDigit whole _
  cases cs with
  | nil => cases begins
  | cons c r =>
    have digit : c.isDigit = true := begins
    have piece : Lexer.lexeme c r = .token (.number (String.ofList (c :: r))) (c :: r) [] := by
      rw [Lexer.lexeme_of_number (by simp [Lexer.StartsNumber, digit]), Lexer.numberPiece, h.number]
      rfl
    exact .token piece .done

end Written

namespace Exact

def shownFraction (q : Rat) : Nat := q.num.natAbs % q.den * 10 ^ shownPlaces / q.den

/-- The digit of a place stands for the place. -/
theorem digits_digit (place : n < 10) : Digits [digit n] n := by
  have alone := Digits.of_toDigits n
  rwa [Nat.toDigits_of_lt_base place, ← show digit n = Nat.digitChar n from if_pos place] at alone

/-- The whole part of a quotient moves up by the places, and the others come from what is left
over. -/
theorem mul_pow_div (n places : Nat) (positive : 0 < den) :
    n * 10 ^ places / den = n / den * 10 ^ places + n % den * 10 ^ places / den := by
  have split : n * 10 ^ places = n % den * 10 ^ places + n / den * 10 ^ places * den := by
    calc n * 10 ^ places
        = (n % den + den * (n / den)) * 10 ^ places := by rw [Nat.mod_add_div]
      _ = n % den * 10 ^ places + n / den * 10 ^ places * den := by ring
  rw [split, Nat.add_mul_div_right _ _ positive, Nat.add_comm]

/-- The digits of a long division, filled up with zeros, are all places of the quotient. -/
theorem longDivision_spec (places : Nat) (small : rest < den) :
    ∃ zeros, (longDivision den places rest).length + zeros = places ∧
      (∀ c ∈ longDivision den places rest, c.isDigit) ∧
      10 ^ zeros * Nat.ofDigitChars 10 (longDivision den places rest) 0 =
        rest * 10 ^ places / den := by
  induction places generalizing rest with
  | zero => exact ⟨0, rfl, nofun, by simp [longDivision, Nat.div_eq_of_lt small]⟩
  | succ places ih =>
    have positive : 0 < den := by omega
    rw [longDivision]
    split
    · rename_i done
      exact ⟨places + 1, by simp, nofun, by simp [done]⟩
    · have below : rest * 10 / den < 10 := by
        rw [Nat.div_lt_iff_lt_mul positive]
        omega
      obtain ⟨zeros, length, digits, value⟩ := ih (Nat.mod_lt (rest * 10) positive)
      have first := digits_digit below
      refine ⟨zeros, by rw [List.length_cons]; omega, List.forall_mem_cons.mpr
        ⟨first.isDigit _ (List.mem_singleton_self _), digits⟩, ?_⟩
      have power : 10 ^ places =
          10 ^ (longDivision den places (rest * 10 % den)).length * 10 ^ zeros := by
        rw [← pow_add, length]
      rw [pow_succ', ← Nat.mul_assoc, mul_pow_div _ places positive, ← value, power,
        ← List.singleton_append, Nat.ofDigitChars_append, first.value,
        Nat.ofDigitChars_eq_ofDigitChars_zero]
      ring

/-- What is cut off is zeros. -/
theorem exists_zeros (cs : List Char) :
    ∃ zeros, cs.rdropWhile (· == '0') ++ List.replicate zeros '0' = cs := by
  have zeros : cs.rtakeWhile (· == '0') =
      List.replicate (cs.rtakeWhile (· == '0')).length '0' :=
    List.eq_replicate_iff.mpr ⟨rfl, fun c hc => by simpa using List.mem_rtakeWhile_imp hc⟩
  exact ⟨_, by rw [← zeros, List.rdropWhile_append_rtakeWhile]⟩

/-- The digits behind the point, with the zeros that are cut off, are all places. -/
theorem fraction_spec (q : Rat) : (fraction q).length ≤ shownPlaces ∧
    (∀ c ∈ fraction q, c.isDigit) ∧
    (Nat.ofDigitChars 10 (fraction q) 0 : Rat) / 10 ^ (fraction q).length =
      shownFraction q / 10 ^ shownPlaces := by
  obtain ⟨unwritten, places, digits, value⟩ :=
    longDivision_spec shownPlaces (Nat.mod_lt q.num.natAbs q.den_pos)
  obtain ⟨cut, whole⟩ := exists_zeros (longDivision q.den shownPlaces (q.num.natAbs % q.den))
  change fraction q ++ _ = _ at whole
  rw [← whole, List.length_append, List.length_replicate] at places
  rw [← whole, Nat.ofDigitChars_append, Nat.ofDigitChars_replicate_zero] at value
  refine ⟨by omega, fun c hc => digits c (whole ▸ List.mem_append_left _ hc), ?_⟩
  have places : shownPlaces = (fraction q).length + (cut + unwritten) := by omega
  rw [shownFraction, ← value, places, pow_add]
  push_cast
  field_simp
  ring

theorem fraction_getLast? (q : Rat) : (fraction q).getLast? ≠ some '0' := by
  intro last
  have occupied : fraction q ≠ [] := fun empty => by simp [empty] at last
  rw [List.getLast?_eq_some_getLast occupied] at last
  exact List.rdropWhile_last_not _ _ occupied (beq_iff_eq.mpr (Option.some.inj last))

def shown (q : Rat) : Rat := (q.num.natAbs / q.den : Nat) + shownFraction q / 10 ^ shownPlaces

theorem toString_toList (n : Nat) : (toString n).toList = Nat.toDigits 10 n := by
  rw [Nat.toString_eq_ofList_toDigits, String.toList_ofList]

theorem signed_of_nonneg {q : Rat} (nonneg : 0 ≤ q) (text : String) :
    Binary64.signed (q.num < 0) text = text := by
  have sign : ¬q.num < 0 := not_lt.mpr (Rat.num_nonneg.mpr nonneg)
  simp [Binary64.signed, sign]

/-- The text of a number that is not negative and shows a digit is a decimal of what is shown,
without zeros behind it. -/
theorem written_render {q : Rat} (nonneg : 0 ≤ q)
    (shows : q.den ≠ 1 → fraction q = [] → q.num.natAbs / q.den ≠ 0) :
    ∃ p ≤ shownPlaces, Written p (render q).toList (shown q) ∧
      (p ≠ 0 → (render q).toList.getLast? ≠ some '0') := by
  obtain ⟨short, isDigit, value⟩ := fraction_spec q
  have whole := Digits.of_toDigits (q.num.natAbs / q.den)
  have onlyWhole (none : shownFraction q = 0) : shown q = (q.num.natAbs / q.den : Nat) := by
    rw [shown, none]
    simp
  unfold render
  split
  · rename_i integral
    have text : toString q.num = toString (q.num.natAbs / q.den) := by
      rw [integral, Nat.div_one, ← Int.natAbs_of_nonneg (Rat.num_nonneg.mpr nonneg)]
      rfl
    have none : shownFraction q = 0 := by simp [shownFraction, integral, Nat.mod_one]
    refine ⟨0, Nat.zero_le _, ?_, absurd rfl⟩
    rw [text, toString_toList, onlyWhole none]
    exact .whole whole
  · rename_i fractional
    dsimp only
    split
    · rename_i empty
      have none : shownFraction q = 0 := by
        rw [empty] at value
        simpa using value.symm
      refine ⟨0, Nat.zero_le _, ?_, absurd rfl⟩
      rw [if_neg (shows fractional empty), signed_of_nonneg nonneg, toString_toList,
        onlyWhole none]
      exact .whole whole
    · rename_i occupied
      have fraction : Digits (fraction q) _ := ⟨occupied, isDigit, rfl⟩
      have text : (toString (q.num.natAbs / q.den) ++ "." ++
          String.ofList (Exact.fraction q)).toList =
          Nat.toDigits 10 (q.num.natAbs / q.den) ++ '.' :: Exact.fraction q := by
        simp
      rw [signed_of_nonneg nonneg, text, shown, ← value]
      refine ⟨_, short, .point whole fraction, fun _ => ?_⟩
      rw [List.getLast?_append_of_ne_nil _ (by simp), List.getLast?_cons_of_ne_nil occupied]
      exact fraction_getLast? q

theorem shownFraction_of_eq {q : Rat} (fits : 10 ^ shownPlaces = q.den * k) :
    shownFraction q = q.num.natAbs % q.den * k := by
  rw [shownFraction, fits, Nat.mul_left_comm, Nat.mul_div_cancel_left _ q.den_pos]

/-- Nothing is cut off if all digits have their place. -/
theorem shown_of_dvd {q : Rat} (nonneg : 0 ≤ q) (fits : q.den ∣ 10 ^ shownPlaces) :
    shown q = q := by
  obtain ⟨k, fits⟩ := fits
  have positive : 0 < k := Nat.pos_of_ne_zero fun zero => by simp [zero, shownPlaces] at fits
  have power : (10 : Rat) ^ shownPlaces = q.den * k := by exact_mod_cast fits
  have numerator : (q.num.natAbs : Rat) = q.den * (q.num.natAbs / q.den : Nat) +
      (q.num.natAbs % q.den : Nat) := by exact_mod_cast (Nat.div_add_mod _ _).symm
  have quotient : (q.num.natAbs : Rat) / q.den = q := by
    have sign : ((q.num.natAbs : Int) : Rat) = q.num := by
      rw [Int.natAbs_of_nonneg (Rat.num_nonneg.mpr nonneg)]
    rw [← Int.cast_natCast, sign, Rat.num_div_den]
  have hden : (q.den : Rat) ≠ 0 := by exact_mod_cast q.den_nz
  have hk : (k : Rat) ≠ 0 := by exact_mod_cast positive.ne'
  rw [shown, shownFraction_of_eq fits, power]
  calc ((q.num.natAbs / q.den : Nat) : Rat) +
        ((q.num.natAbs % q.den * k : Nat) : Rat) / (q.den * k)
      = (q.den * (q.num.natAbs / q.den : Nat) + (q.num.natAbs % q.den : Nat)) / q.den := by
        push_cast
        field_simp
    _ = q := by rw [← numerator, quotient]

/-- A number that is no integer shows a digit behind the point if all digits have their place. -/
theorem fraction_ne_nil {q : Rat} (fits : q.den ∣ 10 ^ shownPlaces) (fractional : q.den ≠ 1) :
    fraction q ≠ [] := by
  intro empty
  obtain ⟨k, fits⟩ := fits
  obtain ⟨_, _, value⟩ := fraction_spec q
  have none : shownFraction q = 0 := by
    rw [empty] at value
    simpa using value.symm
  rw [shownFraction_of_eq fits, Nat.mul_eq_zero] at none
  rcases none with whole | zero
  · exact fractional (Nat.Coprime.eq_one_of_dvd q.reduced.symm (Nat.dvd_of_mod_eq_zero whole))
  · simp [zero, shownPlaces] at fits

theorem fraction_neg (q : Rat) : fraction (-q) = fraction q := by
  simp [fraction]

/-- The text of a negative number, unless it is too small to show a digit. -/
theorem render_neg {q : Rat} (negative : q < 0)
    (shows : q.den ≠ 1 → fraction q = [] → q.num.natAbs / q.den ≠ 0) :
    render q = "-" ++ render (-q) := by
  have sign : q.num < 0 := Rat.num_neg.mpr negative
  have nonneg : 0 ≤ -q := by linarith
  have signed (text : String) : Binary64.signed (q.num < 0) text = "-" ++ text := by
    simp [Binary64.signed, sign]
  unfold render
  rw [fraction_neg, Rat.den_neg_eq_den, Rat.num_neg_eq_neg_num, Int.natAbs_neg]
  split
  · obtain ⟨n, hn⟩ := Int.eq_negSucc_of_lt_zero sign
    rw [hn]
    rfl
  · rename_i fractional
    dsimp only
    split
    · rename_i empty
      have unsigned := signed_of_nonneg nonneg
      rw [Rat.num_neg_eq_neg_num] at unsigned
      rw [if_neg (shows fractional empty), if_neg (shows fractional empty), signed, unsigned]
    · have unsigned := signed_of_nonneg nonneg
      rw [Rat.num_neg_eq_neg_num] at unsigned
      rw [signed, unsigned]

end Exact
end Reckon
