import Reckon.Decimal.Numeral
import Mathlib.Data.List.TakeWhile

/-! The grammar of decimal numerals. What is read as a numeral is what the grammar allows, with the
number that the grammar gives it. -/
namespace Reckon.Numeral

structure Digits (cs : List Char) (n : Nat) : Prop where
  ne_nil : cs ≠ []
  isDigit : ∀ c ∈ cs, c.isDigit
  value : Nat.ofDigitChars 10 cs 0 = n

inductive Sign : List Char → Bool → Prop
  | none : Sign [] false
  | plus : Sign ['+'] false
  | minus : Sign ['-'] true

/-- Digits around a point, if there is one, and how many stand behind it. -/
inductive Mantissa : List Char → Nat → Nat → Prop
  | whole : Digits cs n → Mantissa cs n 0
  | point : Digits (whole ++ fraction) n →
      Mantissa (whole ++ '.' :: fraction) n fraction.length

inductive Signed : List Char → Int → Prop
  | intro : Sign sg b → Digits cs n → Signed (sg ++ cs) (if b then -n else n)

inductive Power : List Char → Int → Prop
  | none : Power [] 0
  | mark : e = 'e' ∨ e = 'E' → Signed cs k → Power (e :: cs) k

inductive Spelled : List Char → Numeral → Prop
  | intro : Sign sg b → Mantissa cs n p → Power ds k → Spelled (sg ++ (cs ++ ds)) ⟨b, n, p, k⟩

theorem natural?_eq_some : natural? cs = some n ↔ Digits cs n := by
  unfold natural?
  split
  · rename_i h
    obtain ⟨ne_nil, digits⟩ := h
    exact ⟨fun value => ⟨ne_nil, List.all_eq_true.mp digits, Option.some.inj value⟩,
      fun h => congrArg some h.value⟩
  · rename_i h
    exact ⟨nofun, fun digits => absurd ⟨digits.ne_nil, List.all_eq_true.mpr digits.isDigit⟩ h⟩

section

variable {p : Char → Bool}

theorem splitAt?_of_forall (h : ∀ c ∈ cs, p c = false) : splitAt? p cs = (cs, none) := by
  unfold splitAt?
  rw [List.dropWhile_eq_nil_iff.mpr fun c hc => by simp [h c hc]]

theorem splitAt?_of_mark {front : List Char} (h : ∀ c ∈ front, p c = false) (mark : p c = true)
    (rest : List Char) : splitAt? p (front ++ c :: rest) = (front, some rest) := by
  have front' : ∀ c ∈ front, (!p c) = true := fun c hc => by simp [h c hc]
  unfold splitAt?
  rw [List.dropWhile_append_of_pos front', List.takeWhile_append_of_pos front']
  simp [mark]

/-- A text without a mark, or one that is split at its first mark. -/
theorem splitAt?_cases (p : Char → Bool) (cs : List Char) :
    (splitAt? p cs = (cs, none) ∧ ∀ c ∈ cs, p c = false) ∨
    ∃ front c rest, cs = front ++ c :: rest ∧ p c = true ∧
      splitAt? p cs = (front, some rest) := by
  by_cases none : ∀ c ∈ cs, p c = false
  · exact .inl ⟨splitAt?_of_forall none, none⟩
  · have front : ∀ c ∈ cs.takeWhile fun c => !p c, p c = false := fun c hc => by
      simpa using List.mem_takeWhile_imp hc
    cases behind : cs.dropWhile fun c => !p c with
    | nil => exact absurd (fun c hc => by simpa using List.dropWhile_eq_nil_iff.mp behind c hc) none
    | cons c rest =>
      have mark : p c = true := by
        have first := List.head_dropWhile_not (fun c => !p c) (l := cs) (by simp [behind])
        simpa [behind] using first
      have whole : cs = cs.takeWhile (fun c => !p c) ++ c :: rest := by
        rw [← behind, List.takeWhile_append_dropWhile]
      refine .inr ⟨_, c, rest, whole, mark, ?_⟩
      have split := splitAt?_of_mark front mark rest
      rwa [← whole] at split

end

/-- A digit is no sign, no point and no mark of an exponent. -/
theorem Digits.not_mem (h : Digits cs n) (other : c.isDigit = false) : c ∉ cs :=
  fun member => by simp [h.isDigit c member] at other

theorem Mantissa.digit_or_point (h : Mantissa cs n p) (member : c ∈ cs) :
    c.isDigit ∨ c = '.' := by
  cases h with
  | whole digits => exact .inl (digits.isDigit c member)
  | point digits =>
    rcases List.mem_append.mp member with whole | rest
    · exact .inl (digits.isDigit c (List.mem_append_left _ whole))
    · rcases List.mem_cons.mp rest with rfl | fraction
      · exact .inr rfl
      · exact .inl (digits.isDigit c (List.mem_append_right _ fraction))

theorem Mantissa.not_mem (h : Mantissa cs n p) (other : c.isDigit = false) (apart : c ≠ '.') :
    c ∉ cs := by
  intro member
  rcases h.digit_or_point member with digit | point
  · simp [digit] at other
  · exact apart point

theorem Sign.not_mem (h : Sign sg b) (minus : c ≠ '-') (plus : c ≠ '+') : c ∉ sg := by
  cases h <;> simp [minus, plus]

theorem Sign.sign_append (h : Sign sg b) (minus : '-' ∉ cs) (plus : '+' ∉ cs) :
    sign (sg ++ cs) = (b, cs) := by
  cases h with
  | none =>
    rw [List.nil_append]
    unfold sign
    split
    · simp at minus
    · simp at plus
    · rfl
  | plus | minus => rfl

theorem sign_spec (cs : List Char) : ∃ sg, Sign sg (sign cs).1 ∧ cs = sg ++ (sign cs).2 := by
  unfold sign
  split
  · exact ⟨['-'], .minus, rfl⟩
  · exact ⟨['+'], .plus, rfl⟩
  · exact ⟨[], .none, rfl⟩

theorem integer?_eq (cs : List Char) : integer? cs =
    (natural? (sign cs).2).map fun n : Nat => if (sign cs).1 then -(n : Int) else n := by
  unfold integer?
  rcases sign cs with ⟨b, ds⟩
  dsimp only
  cases natural? ds <;> rfl

theorem integer?_eq_some : integer? cs = some k ↔ Signed cs k := by
  rw [integer?_eq]
  constructor
  · intro h
    obtain ⟨n, digits, rfl⟩ := Option.map_eq_some_iff.mp h
    obtain ⟨sg, hsg, split⟩ := sign_spec cs
    have signed := Signed.intro hsg (natural?_eq_some.mp digits)
    rwa [← split] at signed
  · rintro ⟨hsg, digits⟩
    rw [hsg.sign_append (digits.not_mem rfl) (digits.not_mem rfl), natural?_eq_some.mpr digits]
    rfl

/-- A text around a point, if there is one. -/
theorem mantissa?_of_split (h : splitAt? (· == '.') cs = (whole, fraction)) :
    mantissa? cs = (natural? (whole ++ fraction.getD [])).map
      fun n => (n, (fraction.getD []).length) := by
  rw [mantissa?, h]

theorem mantissa?_eq_some : mantissa? cs = some (n, p) ↔ Mantissa cs n p := by
  constructor
  · intro h
    rcases splitAt?_cases (· == '.') cs with ⟨split, _⟩ | ⟨whole, c, fraction, rfl, mark, split⟩
    · rw [mantissa?_of_split split] at h
      obtain ⟨m, digits, same⟩ := Option.map_eq_some_iff.mp h
      obtain ⟨rfl, rfl⟩ := Prod.mk.inj same
      exact .whole (by simpa using natural?_eq_some.mp digits)
    · obtain rfl : c = '.' := by simpa using mark
      rw [mantissa?_of_split split] at h
      obtain ⟨m, digits, same⟩ := Option.map_eq_some_iff.mp h
      obtain ⟨rfl, rfl⟩ := Prod.mk.inj same
      exact .point (natural?_eq_some.mp digits)
  · have other {cs : List Char} (none : '.' ∉ cs) : ∀ c ∈ cs, (c == '.') = false := by
      intro c hc
      rw [beq_eq_false_iff_ne]
      exact fun point => none (point ▸ hc)
    intro h
    cases h with
    | whole digits =>
      rw [mantissa?_of_split (splitAt?_of_forall (other (digits.not_mem rfl)))]
      simp [natural?_eq_some.mpr digits]
    | point digits =>
      have none := digits.not_mem (c := '.') rfl
      rw [mantissa?_of_split
        (splitAt?_of_mark (other fun h => none (List.mem_append_left _ h)) rfl _)]
      simp [natural?_eq_some.mpr digits]

def isMark (c : Char) : Bool := c == 'e' || c == 'E'

theorem isMark_eq_false {cs : List Char} (small : 'e' ∉ cs) (capital : 'E' ∉ cs)
    (member : c ∈ cs) : isMark c = false := by
  unfold isMark
  rw [Bool.or_eq_false_iff, beq_eq_false_iff_ne, beq_eq_false_iff_ne]
  exact ⟨fun h => small (h ▸ member), fun h => capital (h ▸ member)⟩

/-- A sign and digits before the mark, and an integer behind it, if there is one. -/
theorem read?_eq (h : splitAt? isMark cs = (front, power)) :
    read? cs = (mantissa? (sign front).2).bind fun d =>
      (power.elim (some 0) integer?).map fun k => ⟨(sign front).1, d.1, d.2, k⟩ := by
  have split : splitAt? (fun c => c == 'e' || c == 'E') cs = (front, power) := h
  simp only [read?, split]
  cases mantissa? (sign front).2 with
  | none => rfl
  | some d => cases power.elim (some 0) integer? <;> rfl

theorem read?_of_split (h : splitAt? isMark cs = (front, power)) :
    read? cs = some n ↔ mantissa? (sign front).2 = some (n.digits, n.places) ∧
      power.elim (some 0) integer? = some n.exponent ∧ (sign front).1 = n.negative := by
  rw [read?_eq h, Option.bind_eq_some_iff]
  constructor
  · rintro ⟨d, mantissa, made⟩
    obtain ⟨k, power, rfl⟩ := Option.map_eq_some_iff.mp made
    exact ⟨mantissa, power, rfl⟩
  · rintro ⟨mantissa, power, negative⟩
    exact ⟨_, mantissa, Option.map_eq_some_iff.mpr ⟨_, power, by rw [negative]⟩⟩

/-- A text is read as a numeral if and only if it writes it. -/
theorem read?_eq_some : read? cs = some n ↔ Spelled cs n := by
  constructor
  · intro h
    obtain ⟨b, digits, places, exponent⟩ := n
    rcases splitAt?_cases isMark cs with ⟨split, _⟩ | ⟨front, e, rest, rfl, mark, split⟩
    · obtain ⟨mantissa, power, rfl⟩ := (read?_of_split split).mp h
      obtain rfl : 0 = exponent := Option.some.inj power
      obtain ⟨sg, hsg, whole⟩ := sign_spec cs
      have spelled := Spelled.intro hsg (mantissa?_eq_some.mp mantissa) .none
      rwa [List.append_nil, ← whole] at spelled
    · obtain ⟨mantissa, power, rfl⟩ := (read?_of_split split).mp h
      obtain ⟨sg, hsg, whole⟩ := sign_spec front
      have mark : e = 'e' ∨ e = 'E' := by simpa [isMark] using mark
      have spelled := Spelled.intro hsg (mantissa?_eq_some.mp mantissa)
        (.mark mark (integer?_eq_some.mp power))
      rwa [← List.append_assoc, ← whole] at spelled
  · rintro ⟨hsg, mantissa, power⟩
    rename_i sg b cs n p ds k
    have unmarked : ∀ c ∈ sg ++ cs, isMark c = false := fun c hc => by
      refine isMark_eq_false ?_ ?_ hc <;> rw [List.mem_append, not_or]
      · exact ⟨hsg.not_mem (by decide) (by decide), mantissa.not_mem rfl (by decide)⟩
      · exact ⟨hsg.not_mem (by decide) (by decide), mantissa.not_mem rfl (by decide)⟩
    have front : sign (sg ++ cs) = (b, cs) :=
      hsg.sign_append (mantissa.not_mem rfl (by decide)) (mantissa.not_mem rfl (by decide))
    rw [← List.append_assoc]
    cases power with
    | none =>
      rw [List.append_nil, read?_of_split (splitAt?_of_forall unmarked), front]
      exact ⟨mantissa?_eq_some.mpr mantissa, rfl, rfl⟩
    | mark mark signed =>
      rw [read?_of_split (splitAt?_of_mark unmarked (by simpa [isMark] using mark) _), front]
      exact ⟨mantissa?_eq_some.mpr mantissa, integer?_eq_some.mpr signed, rfl⟩

/-- A text writes one numeral at most. -/
theorem Spelled.unique (h : Spelled cs n) (h' : Spelled cs n') : n = n' :=
  Option.some.inj ((read?_eq_some.mpr h).symm.trans (read?_eq_some.mpr h'))

end Reckon.Numeral
