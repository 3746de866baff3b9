import Reckon.Proofs.Exact.Text
import Reckon.Proofs.Binary64.Arithmetic
import Reckon.Proofs.Decimal.Shortest

/-! Scientific notation is read again as the decimal that it writes. -/
namespace Reckon

open Numeral (Digits Mantissa Sign Signed Power Spelled)

namespace Numeral

theorem Sign.not_blank (h : Sign sg b) (member : c ∈ sg) : Text.isBlank c = false := by
  cases h with
  | none => cases member
  | plus | minus =>
    obtain rfl := List.mem_singleton.mp member
    rfl

theorem Power.not_blank (h : Power ds k) (member : c ∈ ds) : Text.isBlank c = false := by
  cases h with
  | none => cases member
  | mark mark signed =>
    rcases List.mem_cons.mp member with rfl | behind
    · rcases mark with rfl | rfl <;> rfl
    · cases signed with
      | intro sign digits =>
        rcases List.mem_append.mp behind with front | digit
        · exact sign.not_blank front
        · exact Text.isBlank_eq_false (.inl (digits.isDigit c digit))

/-- There are no blanks inside a numeral. -/
theorem Spelled.trim (h : Spelled cs n) : Text.trim cs = cs := by
  refine Text.trim_of_forall fun c hc => ?_
  cases h with
  | intro sign mantissa power =>
    rcases List.mem_append.mp hc with front | rest
    · exact sign.not_blank front
    · rcases List.mem_append.mp rest with digits | behind
      · exact Text.isBlank_eq_false (mantissa.digit_or_point digits)
      · exact power.not_blank behind

theorem signed_toString (k : Int) : Signed (toString k).toList k := by
  cases k with
  | ofNat n =>
    have text : (toString (Int.ofNat n)).toList = [] ++ Nat.toDigits 10 n := Exact.toString_toList n
    rw [text]
    exact .intro .none (.of_toDigits n)
  | negSucc n =>
    have text : (toString (Int.negSucc n)).toList = ['-'] ++ Nat.toDigits 10 (n + 1) := by
      change ("-" ++ toString (n + 1)).toList = _
      rw [String.toList_append, Exact.toString_toList]
      rfl
    rw [text]
    exact .intro .minus (.of_toDigits (n + 1))

/-- Digits with a point behind the first, if there are others. -/
theorem Digits.mantissa (h : Digits cs n) :
    Mantissa (cs.take 1 ++ if cs.length ≤ 1 then [] else '.' :: cs.drop 1) n (cs.length - 1) := by
  split
  · rename_i short
    rw [List.append_nil, List.take_of_length_le short, Nat.sub_eq_zero_of_le short]
    exact .whole h
  · rw [← List.length_drop]
    exact .point (by rwa [List.take_append_drop])

end Numeral

namespace Decimal

/-- The text of a decimal in scientific notation is a numeral. All digits but the first stand behind
the point. -/
theorem spelled_scientific (d : Decimal) (sign : Sign sg b) : Spelled (sg ++ d.scientific.toList)
    ⟨b, d.digits, digitCount d.digits - 1, d.exponent + digitCount d.digits - 1⟩ := by
  have digits := Digits.of_toDigits d.digits
  have text : d.scientific.toList =
      ((Nat.toDigits 10 d.digits).take 1 ++ if (Nat.toDigits 10 d.digits).length ≤ 1 then [] else
        '.' :: (Nat.toDigits 10 d.digits).drop 1) ++
      'e' :: (toString (d.exponent + digitCount d.digits - 1)).toList := by
    unfold scientific digitsOf digitCount
    simp only [Exact.toString_toList, String.toList_append, String.toList_ofList]
    split <;> simp
  rw [text]
  exact .intro sign digits.mantissa (.mark (.inl rfl) (Numeral.signed_toString _))

end Decimal

namespace Exact

theorem sign_signed (negative : Bool) (text : String) : ∃ sg, Sign sg negative ∧
    (Binary64.signed negative text).toList = sg ++ text.toList := by
  cases negative
  · exact ⟨[], .none, rfl⟩
  · exact ⟨['-'], .minus, by simp [Binary64.signed]⟩

/-- A decimal in scientific notation is read as its value. -/
theorem read_scientific {d : Decimal} (exponent : d.exponent.natAbs ≤ maxScale)
    (digits : Decimal.digitCount d.digits ≤ maxScale) (negative : Bool) :
    read (Binary64.signed negative d.scientific) =
      .ok (if negative then -d.value else d.value) := by
  obtain ⟨sg, sign, text⟩ := sign_signed negative d.scientific
  have spelled := d.spelled_scientific sign
  rw [← text] at spelled
  have positive : 0 < Decimal.digitCount d.digits :=
    List.length_pos_of_ne_nil (Digits.of_toDigits d.digits).ne_nil
  have scale : Numeral.scale ⟨negative, d.digits, Decimal.digitCount d.digits - 1,
      d.exponent + Decimal.digitCount d.digits - 1⟩ = d.exponent := by
    dsimp only [Numeral.scale]
    omega
  rw [maxScale] at exponent digits
  refine read_eq_ok.mpr ⟨_, numeral_eq_ok.mpr ⟨spelled.trim.symm ▸ spelled, ?_, ?_⟩, ?_⟩
  · rw [isInt64_iff, minInt64, maxInt64]
    dsimp only
    omega
  · rw [scale]
    exact exponent
  · rw [Numeral.value, Numeral.magnitude, scale]

/-- A finite double in scientific notation is read as the number of its shortest decimal. -/
theorem read_renderScientific (finite : Binary64.ofFloat x = .finite negative m e) :
    read (Binary64.renderScientific x) = .ok (if negative then -(Binary64.decimal m e).value
      else (Binary64.decimal m e).value) := by
  have bounds : (Binary64.decimal m e).exponent.natAbs ≤ maxScale ∧
      Decimal.digitCount (Binary64.decimal m e).digits ≤ maxScale := by
    unfold Binary64.decimal
    split
    · decide
    · rename_i nonzero
      have positive := Nat.pos_of_ne_zero nonzero
      obtain ⟨grid, small⟩ := Binary64.grid_of_finite finite positive
      have bounds := Decimal.shortest_bounds grid positive small
      exact ⟨bounds.1.trans (by decide), bounds.2.trans (by decide)⟩
  rw [Binary64.renderScientific, finite]
  exact read_scientific bounds.1 bounds.2 negative

/-- The doubles that are no numbers are not read. -/
theorem read_renderScientific_of_value (none : (Binary64.ofFloat x).value? = none) :
    read (Binary64.renderScientific x) = .error .refused := by
  rw [Binary64.renderScientific]
  match Binary64.ofFloat x, none with
  | .nan, _ => rfl
  | .infinite false, _ | .infinite true, _ => rfl

/-- A finite double in scientific notation is read as the number that the double is promoted to. -/
theorem read_renderScientific_of_promoted (promoted : ofFloat? x = some q) :
    read (Binary64.renderScientific x) = .ok q := by
  cases same : Binary64.ofFloat x with
  | nan | infinite =>
    rw [ofFloat?, same] at promoted
    cases promoted
  | finite negative m e =>
    rw [ofFloat?, same] at promoted
    rw [read_renderScientific same, Option.some.inj promoted]

end Exact

end Reckon
