import Reckon.Proofs.Grammar

/-! What every phrase of the grammar has in common: it takes some tokens off the front, it derives
the same tree whatever follows it, a parenthesis apart, and its parentheses match. Hence a
definition or an assignment is never also the start of another expression. -/
namespace Reckon.Grammar

open Parse

def Balanced (p : List Token) : Prop :=
  ∀ (n : Nat) (ls ms : List Located), 1 ≤ n → ls.map Located.token = p →
    closesBeforeEquals n (ls ++ ms) = true → closesBeforeEquals n ms = true

theorem Balanced.nil : Balanced [] := by
  intro n ls ms _ hp h
  rw [List.map_eq_nil_iff.mp hp] at h
  exact h

theorem Balanced.append (first : Balanced p) (second : Balanced q) : Balanced (p ++ q) := by
  intro n ls ms hn hp h
  obtain ⟨l, m, rfl, hl, hm⟩ := List.map_eq_append_iff.mp hp
  rw [List.append_assoc] at h
  exact second n m ms hn hm (first n l (m ++ ms) hn hl h)

theorem Balanced.token (open_ : t ≠ .symbol .leftParen) (close : t ≠ .symbol .rightParen) :
    Balanced [t] := by
  intro n ls ms hn hp h
  obtain ⟨⟨t', o⟩, rest, rfl, ht, hrest⟩ := List.map_eq_cons_iff.mp hp
  obtain rfl := List.map_eq_nil_iff.mp hrest
  subst ht
  rw [List.cons_append, List.nil_append, closesBeforeEquals.eq_def] at h
  split at h <;> simp_all

/-- Below the outermost list a parenthesis closes one list. -/
theorem closesBeforeEquals_close (o : Nat) (ms : List Located) (hn : 1 ≤ n) :
    closesBeforeEquals (n + 1) (⟨.symbol .rightParen, o⟩ :: ms) = closesBeforeEquals n ms := by
  rw [closesBeforeEquals.eq_def]
  simp [show ¬n = 0 by omega]

/-- The parenthesis that closes the outermost list has to stand before an equals sign. -/
theorem equals_of_closesBeforeEquals
    (h : closesBeforeEquals 1 (⟨.symbol .rightParen, o⟩ :: ms) = true) :
    (ms.map Located.token).head? = some (.symbol .equals) := by
  rw [closesBeforeEquals.eq_def] at h
  simp only [Nat.le_refl, ↓reduceIte] at h
  split at h
  · rfl
  · contradiction

theorem Balanced.parentheses (inner : Balanced p) :
    Balanced (.symbol .leftParen :: p ++ [.symbol .rightParen]) := by
  intro n ls ms hn hp h
  obtain ⟨l, m, rfl, hl, hm⟩ := List.map_eq_append_iff.mp hp
  obtain ⟨⟨t, o⟩, q, rfl, ht, hq⟩ := List.map_eq_cons_iff.mp hl
  obtain ⟨⟨t', o'⟩, q', rfl, ht', hq'⟩ := List.map_eq_cons_iff.mp hm
  obtain rfl := List.map_eq_nil_iff.mp hq'
  simp only at ht ht'
  subst ht ht'
  simp only [List.cons_append, List.append_assoc, List.nil_append, closesBeforeEquals] at h
  have h := inner (n + 1) q _ (by omega) hq h
  rwa [closesBeforeEquals_close o' ms hn] at h

/-- The tokens `p` in front of `us` derive `a`, also with other tokens in place of `us`, unless
these make a call of a name at the end of `p`. -/
structure Front (L : Phrase α) (p : List Token) (a : α) (us : List Token) : Prop where
  nonempty : p ≠ []
  balanced : Balanced p
  derives : ∀ vs, (vs.head? = some (.symbol .leftParen) → us.head? = some (.symbol .leftParen)) →
    L (p ++ vs) a vs

def Begins (L : Phrase α) (ts : List Token) (a : α) (us : List Token) : Prop :=
  ∃ p, ts = p ++ us ∧ Front L p a us

def Regular (L : Phrase α) : Prop := ∀ ⦃ts a us⦄, L ts a us → Begins L ts a us

theorem Begins.length_lt (h : Begins L ts a us) : us.length < ts.length := by
  obtain ⟨p, rfl, front⟩ := h
  have := List.length_pos_iff.mpr front.nonempty
  rw [List.length_append]
  omega

/-- A production that only renames what it derives. -/
theorem Begins.lift (h : Begins L ts a us) (widen : ∀ ⦃ts us⦄, L ts a us → M ts b us) :
    Begins M ts b us := by
  obtain ⟨p, rfl, front⟩ := h
  exact ⟨p, rfl, front.nonempty, front.balanced, fun vs hv => widen (front.derives vs hv)⟩

theorem Begins.token (open_ : t ≠ .symbol .leftParen) (close : t ≠ .symbol .rightParen)
    (make : ∀ vs, (vs.head? = some (.symbol .leftParen) → us.head? = some (.symbol .leftParen)) →
      L (t :: vs) a vs) : Begins L (t :: us) a us :=
  ⟨[t], rfl, by simp, .token open_ close, make⟩

/-- A production that puts one token in front. -/
theorem Begins.cons (h : Begins L ts a us) (open_ : t ≠ .symbol .leftParen)
    (close : t ≠ .symbol .rightParen) (make : ∀ ⦃ts us⦄, L ts a us → M (t :: ts) b us) :
    Begins M (t :: ts) b us := by
  obtain ⟨p, rfl, front⟩ := h
  exact ⟨t :: p, rfl, by simp, (Balanced.token open_ close).append front.balanced,
    fun vs hv => make (front.derives vs hv)⟩

/-- A production that puts one token behind. -/
theorem Begins.snoc (h : Begins L ts a (t :: us)) (open_ : t ≠ .symbol .leftParen)
    (close : t ≠ .symbol .rightParen) (make : ∀ ⦃ts us⦄, L ts a (t :: us) → M ts b us) :
    Begins M ts b us := by
  obtain ⟨p, rfl, front⟩ := h
  refine ⟨p ++ [t], by simp, by simp, front.balanced.append (.token open_ close), fun vs _ => ?_⟩
  rw [List.append_assoc]
  exact make (front.derives _ (by simp))

/-- A production that joins two phrases by a symbol. -/
theorem Begins.join (first : Begins L ts a (.symbol s :: us)) (second : Begins M us b vs)
    (open_ : s ≠ .leftParen) (close : s ≠ .rightParen)
    (make : ∀ ⦃ts us vs⦄, L ts a (.symbol s :: us) → M us b vs → N ts c vs) :
    Begins N ts c vs := by
  obtain ⟨p, rfl, front⟩ := first
  obtain ⟨q, rfl, rest⟩ := second
  have between : Balanced [.symbol s] := .token (by simpa using open_) (by simpa using close)
  refine ⟨p ++ .symbol s :: q, by simp, by simp,
    front.balanced.append (between.append rest.balanced), fun vs hv => ?_⟩
  rw [List.append_assoc]
  exact make (front.derives _ (by simp)) (rest.derives vs hv)

def Plain (operators : List (Symbol × α)) : Prop :=
  ∀ x ∈ operators, x.1 ≠ .leftParen ∧ x.1 ≠ .rightParen ∧ x.1 ≠ .equals

instance (operators : List (Symbol × α)) : Decidable (Plain operators) :=
  inferInstanceAs (Decidable (∀ x ∈ operators, _))

theorem plain_signs : Plain signs := by decide
theorem plain_marks : Plain marks := by decide
theorem plain_products : Plain products := by decide
theorem plain_sums : Plain sums := by decide
theorem plain_conversions : Plain conversions := by decide
theorem plain_comparisons : Plain comparisons := by decide
theorem plain_conjunctions : Plain conjunctions := by decide
theorem plain_exclusions : Plain exclusions := by decide
theorem plain_disjunctions : Plain disjunctions := by decide

theorem Separated.regular (item : Regular L) (open_ : s ≠ .leftParen) (close : s ≠ .rightParen) :
    Regular (Separated s L) := by
  intro ts as us h
  induction h with
  | single h => exact (item h).lift fun _ _ => .single
  | more h _ ih => exact (item h).join ih open_ close fun _ _ _ => .more

theorem Regular.items (item : Regular L) : Regular (Separated .comma L) :=
  Separated.regular item (by decide) (by decide)

/-- The rows of a matrix. -/
theorem Regular.rows (item : Regular L) : Regular (Separated .semicolon (Separated .comma L)) :=
  Separated.regular item.items (by decide) (by decide)

def After (t : Token) (L : Phrase α) : Phrase α :=
  fun ts a us => ∃ rest, ts = t :: rest ∧ L rest a us

def Until (s : Symbol) (L : Phrase α) : Phrase α := fun ts a us => L ts a (.symbol s :: us)

theorem Regular.until (regular : Regular L) (open_ : s ≠ .leftParen) (close : s ≠ .rightParen) :
    Regular (Until s L) :=
  fun _ _ _ h => (regular h).snoc (by simpa using open_) (by simpa using close) fun _ _ => id

theorem Regular.after (regular : Regular L) (open_ : t ≠ .symbol .leftParen)
    (close : t ≠ .symbol .rightParen) : Regular (After t L) := by
  rintro _ a us ⟨rest, rfl, h⟩
  exact (regular h).cons open_ close fun ts _ h => ⟨ts, rfl, h⟩

theorem Regular.group (regular : Regular L) :
    Regular (After (.symbol .leftParen) (Until .rightParen L)) := by
  rintro _ a us ⟨rest, rfl, h⟩
  obtain ⟨p, rfl, front⟩ := regular h
  refine ⟨.symbol .leftParen :: p ++ [.symbol .rightParen], by simp, by simp,
    front.balanced.parentheses, fun vs _ => ⟨p ++ .symbol .rightParen :: vs, by simp, ?_⟩⟩
  exact front.derives _ (by simp)

theorem Enclosed.regular (item : Regular L) :
    Regular (After (.symbol .leftParen) (Enclosed .rightParen L)) := by
  rintro _ as us ⟨rest, rfl, h⟩
  cases h with
  | empty =>
    exact ⟨[.symbol .leftParen, .symbol .rightParen], by simp, by simp,
      Balanced.nil.parentheses, fun vs _ => ⟨_, rfl, .empty⟩⟩
  | items h =>
    refine (item.items.group ⟨_, rfl, h⟩).lift ?_
    rintro _ _ ⟨ts, h, hi⟩
    exact ⟨ts, h, .items hi⟩

theorem Primary.regular (expression : Regular E) : Regular (Primary E) := by
  intro ts e us h
  cases h with
  | number => exact .token (by simp) (by simp) fun _ _ => .number
  | text => exact .token (by simp) (by simp) fun _ _ => .text
  | boolean => exact .token (by simp) (by simp) fun _ _ => .boolean
  | name hn => exact .token (by simp) (by simp) fun _ hv => .name fun h => hn (hv h)
  | call h =>
    refine (Enclosed.regular expression ⟨_, rfl, h⟩).cons (by simp) (by simp) ?_
    rintro _ _ ⟨_, rfl, hc⟩
    exact .call hc
  | group h =>
    refine (expression.group ⟨_, rfl, h⟩).lift ?_
    rintro _ _ ⟨_, rfl, hg⟩
    exact .group hg
  | noElements =>
    exact ⟨[.symbol .leftBracket, .symbol .rightBracket], rfl, by simp,
      (Balanced.token (by simp) (by simp)).append (.token (by simp) (by simp)),
      fun _ _ => .noElements⟩
  | row h =>
    exact (expression.items.until (by decide) (by decide) h).cons (by simp) (by simp)
      fun _ _ => .row
  | rows h several =>
    exact (expression.rows.until (by decide) (by decide) h).cons (by simp) (by simp)
      fun _ _ h => .rows h several

theorem Postfixed.regular (expression : Regular E) : Regular (Postfixed E) := by
  have indices : Regular (Until .rightBracket (Separated .comma E)) :=
    expression.items.until (by decide) (by decide)
  intro ts e us h
  induction h with
  | primary h => exact (Primary.regular expression h).lift fun _ _ => .primary
  | mark _ member ih =>
    obtain ⟨open_, close, _⟩ := plain_marks _ member
    exact ih.snoc (by simpa using open_) (by simpa using close) fun _ _ h => .mark h member
  | index _ h ih => exact ih.join (indices h) (by decide) (by decide) fun _ _ _ => .index

theorem Power.regular (unary : Regular U) (expression : Regular E) : Regular (Power U E) := by
  intro ts e us h
  cases h with
  | base h => exact (Postfixed.regular expression h).lift fun _ _ => .base
  | power hb he =>
    exact (Postfixed.regular expression hb).join (unary he) (by decide) (by decide)
      fun _ _ _ => .power

theorem Signed.regular (unary : Regular U) (expression : Regular E) : Regular (Signed U E) := by
  intro ts e us h
  cases h with
  | sign member h =>
    obtain ⟨open_, close, _⟩ := plain_signs _ member
    exact (unary h).cons (by simpa using open_) (by simpa using close) fun _ _ => .sign member
  | power h => exact (Power.regular unary expression h).lift fun _ _ => .power

theorem Product.regular (unary : Regular U) : Regular (Product U) := by
  intro ts e us h
  induction h with
  | factor h => exact (unary h).lift fun _ _ => .factor
  | operator _ member h ih =>
    obtain ⟨open_, close, _⟩ := plain_products _ member
    exact ih.join (unary h) open_ close fun _ _ _ hl hr => .operator hl member hr
  | @adjacent ts l t us r vs _ starts h ih =>
    obtain ⟨p, rfl, front⟩ := ih
    obtain ⟨q, hq, rest⟩ := unary h
    obtain ⟨t', q, rfl⟩ := List.exists_cons_of_ne_nil rest.nonempty
    obtain ⟨rfl, rfl⟩ := List.cons.inj hq
    refine ⟨p ++ t :: q, by simp, by simp, front.balanced.append rest.balanced, fun vs' hv => ?_⟩
    rw [List.append_assoc]
    exact .adjacent (front.derives _ (by simp)) starts (rest.derives vs' hv)

theorem LeftAssociative.regular (plain : Plain operators) (operand : Regular L) :
    Regular (LeftAssociative operators L) := by
  intro ts e us h
  induction h with
  | operand h => exact (operand h).lift fun _ _ => .operand
  | operator _ member h ih =>
    obtain ⟨open_, close, _⟩ := plain _ member
    exact ih.join (operand h) open_ close fun _ _ _ hl hr => .operator hl member hr

theorem Comparison.regular (operand : Regular L) : Regular (Comparison L) := by
  intro ts e us h
  cases h with
  | operand h => exact (operand h).lift fun _ _ => .operand
  | comparison hl member hr =>
    obtain ⟨open_, close, _⟩ := plain_comparisons _ member
    exact (operand hl).join (operand hr) open_ close fun _ _ _ hl hr => .comparison hl member hr

theorem Conversion.regular (unary : Regular U) : Regular (Conversion U) :=
  LeftAssociative.regular plain_conversions
    (LeftAssociative.regular plain_sums (Product.regular unary))

theorem Disjunction.regular (unary : Regular U) : Regular (Disjunction U) :=
  LeftAssociative.regular plain_disjunctions
    (LeftAssociative.regular plain_exclusions
      (LeftAssociative.regular plain_conjunctions
        (Comparison.regular (Conversion.regular unary))))

theorem Assignment.regular (value : Regular V) (otherwise : Regular O) :
    Regular (Assignment V O) := by
  intro ts e us h
  cases h with
  | assign h =>
    refine ((value.after (by simp) (by simp)) ⟨_, rfl, h⟩).cons (by simp) (by simp) ?_
    rintro _ _ ⟨_, rfl, hv⟩
    exact .assign hv
  | otherwise h => exact (otherwise h).lift fun _ _ => .otherwise

theorem layer_regular (nesting : Nat) :
    Regular (layer nesting).unary ∧ Regular (layer nesting).expression := by
  induction nesting with
  | zero => exact ⟨fun _ _ _ h => h.elim, fun _ _ _ h => h.elim⟩
  | succ nesting ih =>
    have unary := Signed.regular ih.1 ih.2
    exact ⟨unary, Assignment.regular ih.2 (Disjunction.regular unary)⟩

theorem Identifier.regular : Regular Identifier := by
  rintro _ n us ⟨⟩
  exact .token (by simp) (by simp) fun _ _ => .identifier

theorem Definition.regular (expression : Regular E) : Regular (Definition E) := by
  rintro _ _ _ ⟨h, distinct, hb⟩
  rename_i n
  have head := (Enclosed.regular Identifier.regular).after (t := .identifier n)
    (by simp) (by simp) ⟨_, rfl, _, rfl, h⟩
  refine head.join (expression hb) (by decide) (by decide) fun _ _ _ => ?_
  rintro ⟨_, rfl, _, rfl, hp⟩ hb
  exact .define hp distinct hb

theorem Statement.regular (expression : Regular E) : Regular (Statement E) := by
  intro ts e us h
  cases h with
  | definition h => exact (Definition.regular expression h).lift fun _ _ => .definition
  | function h =>
    exact (Definition.regular expression h).cons (by simp) (by simp) fun _ _ => .function
  | expression h => exact (expression h).lift fun _ _ => .expression

theorem Statements.eq_nil (regular : Regular S) (h : Statements S [] es) : es = [] := by
  cases h with
  | none => rfl
  | last h => exact absurd (regular h).length_lt (by simp)
  | next h => exact absurd (regular h).length_lt (by simp)

/-- Where an expression starts with tokens of this kind, an equals sign follows it. -/
def BeforeEquals (P : List Token → Prop) (L : Phrase Expr) : Prop :=
  ∀ ⦃ts e us⦄, L ts e us → P ts → us.head? = some (.symbol .equals)

def LikeDefinition (ts : List Token) : Prop :=
  ∃ ls : List Located, ls.map Located.token = ts ∧ startsDefinition ls = true

def LikeAssignment (ts : List Token) : Prop :=
  ∃ n us, ts = .identifier n :: .symbol .equals :: us

theorem LikeDefinition.cases (h : LikeDefinition ts) :
    (∃ us, ts = .symbol .function :: us) ∨
    ∃ n us, ts = .identifier n :: .symbol .leftParen :: us ∧
      ∃ ls : List Located, ls.map Located.token = us ∧ closesBeforeEquals 1 ls = true := by
  obtain ⟨ls, rfl, h⟩ := h
  unfold startsDefinition at h
  split at h
  · exact .inl ⟨_, rfl⟩
  · exact .inr ⟨_, _, rfl, _, rfl, h⟩
  · contradiction

/-- Looking for the end of an enclosed list finds the symbol that closes it. -/
theorem Enclosed.closes (item : Regular L) (h : Enclosed closing L ts as us)
    (ht : ls.map Located.token = ts) (closes : closesBeforeEquals 1 ls = true) :
    ∃ m : List Located, m.map Located.token = .symbol closing :: us ∧
      closesBeforeEquals 1 m = true := by
  cases h with
  | empty => exact ⟨ls, ht, closes⟩
  | items h =>
    obtain ⟨p, rfl, front⟩ := item.items h
    obtain ⟨l, m, rfl, hl, hm⟩ := List.map_eq_append_iff.mp ht
    exact ⟨m, hm, front.balanced 1 l m (Nat.le_refl 1) hl closes⟩

theorem Primary.beforeEquals_definition (expression : Regular E) :
    BeforeEquals LikeDefinition (Primary E) := by
  intro ts e us h like
  obtain ⟨_, rfl⟩ | ⟨n, rest, rfl, ls, rfl, closes⟩ := like.cases
  · cases h
  · cases h with
    | name hn => exact absurd rfl hn
    | call h =>
      obtain ⟨m, hm, closes⟩ := h.closes expression rfl closes
      obtain ⟨⟨t, o⟩, m, rfl, ht, rfl⟩ := List.map_eq_cons_iff.mp hm
      simp only at ht
      subst ht
      exact equals_of_closesBeforeEquals closes

theorem Primary.beforeEquals_assignment : BeforeEquals LikeAssignment (Primary E) := by
  rintro _ e us h ⟨n, rest, rfl⟩
  cases h with
  | name => rfl

section

variable {P : List Token → Prop}

theorem Postfixed.beforeEquals (primary : BeforeEquals P (Primary E)) :
    BeforeEquals P (Postfixed E) := by
  intro ts e us h like
  induction h with
  | primary h => exact primary h like
  | mark _ member ih =>
    exact absurd (by simpa using ih like) (plain_marks _ member).2.2
  | index _ _ ih => simpa using ih like

theorem Signed.beforeEquals (primary : BeforeEquals P (Primary E))
    (sign : ∀ x ∈ signs, ∀ ts, ¬P (.symbol x.1 :: ts)) : BeforeEquals P (Signed U E) := by
  intro ts e us h like
  cases h with
  | sign member => exact absurd like (sign _ member _)
  | power h =>
    cases h with
    | base h => exact Postfixed.beforeEquals primary h like
    | power h => simpa using Postfixed.beforeEquals primary h like

theorem Product.beforeEquals (unary : BeforeEquals P U) : BeforeEquals P (Product U) := by
  intro ts e us h like
  induction h with
  | factor h => exact unary h like
  | operator _ member _ ih =>
    exact absurd (by simpa using ih like) (plain_products _ member).2.2
  | adjacent _ starts _ ih =>
    obtain rfl : _ = _ := Option.some.inj (ih like)
    contradiction

theorem LeftAssociative.beforeEquals (plain : Plain operators)
    (operand : BeforeEquals P L) : BeforeEquals P (LeftAssociative operators L) := by
  intro ts e us h like
  induction h with
  | operand h => exact operand h like
  | operator _ member _ ih =>
    exact absurd (by simpa using ih like) (plain _ member).2.2

theorem Comparison.beforeEquals (operand : BeforeEquals P L) : BeforeEquals P (Comparison L) := by
  intro ts e us h like
  cases h with
  | operand h => exact operand h like
  | comparison h member =>
    exact absurd (by simpa using operand h like) (plain_comparisons _ member).2.2

theorem Disjunction.beforeEquals (unary : BeforeEquals P U) : BeforeEquals P (Disjunction U) := by
  have conversion : BeforeEquals P (Conversion U) :=
    LeftAssociative.beforeEquals plain_conversions
      (LeftAssociative.beforeEquals plain_sums (Product.beforeEquals unary))
  exact LeftAssociative.beforeEquals plain_disjunctions
    (LeftAssociative.beforeEquals plain_exclusions
      (LeftAssociative.beforeEquals plain_conjunctions (Comparison.beforeEquals conversion)))

end

/-- A disjunction that starts with a name and an equals sign is that name. -/
theorem Disjunction.beforeEquals_assignment :
    BeforeEquals LikeAssignment (Disjunction (Signed U E)) := by
  refine Disjunction.beforeEquals (Signed.beforeEquals Primary.beforeEquals_assignment ?_)
  rintro x member ts ⟨n, us, h⟩
  simp at h

/-- What looks like a definition is no expression unless an equals sign follows the expression. -/
theorem expression_beforeEquals_definition (nesting : Nat) :
    BeforeEquals LikeDefinition (layer nesting).expression := by
  cases nesting with
  | zero => exact fun _ _ _ h => h.elim
  | succ nesting =>
    intro ts e us h like
    cases h with
    | assign =>
      obtain ⟨_, h⟩ | ⟨_, _, h, _⟩ := like.cases <;> simp at h
    | otherwise h =>
      refine Disjunction.beforeEquals (Signed.beforeEquals
        (Primary.beforeEquals_definition (layer_regular nesting).2) ?_) h like
      intro x member ts like
      obtain ⟨_, h⟩ | ⟨_, _, h, _⟩ := like.cases
      · have other : ∀ x ∈ signs, x.1 ≠ .function := by decide
        exact other x member (Token.symbol.inj (List.cons.inj h).1)
      · simp at h

def ends : List Token := .symbol .rightParen :: .symbol .rightBracket :: separators

def LikeEnd (ts : List Token) : Prop := ∃ t us, ts = t :: us ∧ t ∈ ends

theorem Primary.not_end (h : Primary E ts e us) : ¬LikeEnd ts := by
  rintro ⟨t, rest, rfl, member⟩
  cases h <;> simp [ends, separators] at member

theorem expression_beforeEquals_end (nesting : Nat) :
    BeforeEquals LikeEnd (layer nesting).expression := by
  cases nesting with
  | zero => exact fun _ _ _ h => h.elim
  | succ nesting =>
    intro ts e us h like
    cases h with
    | assign =>
      obtain ⟨t, rest, h, member⟩ := like
      obtain ⟨rfl, -⟩ := List.cons.inj h
      simp [ends, separators] at member
    | otherwise h =>
      refine Disjunction.beforeEquals (Signed.beforeEquals
        (fun _ _ _ h like => absurd like h.not_end) ?_) h like
      rintro x member ts ⟨t, rest, h, last⟩
      have other : ∀ x ∈ signs, .symbol x.1 ∉ ends := by decide
      exact other x member ((List.cons.inj h).1 ▸ last)

theorem Statement.not_end (h : Statement (layer nesting).expression ts e us)
    (apart : us.head? ≠ some (.symbol .equals)) : ¬LikeEnd ts := by
  intro like
  cases h with
  | definition h =>
    obtain ⟨t, rest, rfl, member⟩ := like
    cases h
    simp [ends, separators] at member
  | function h =>
    obtain ⟨t, rest, h, member⟩ := like
    obtain ⟨rfl, -⟩ := List.cons.inj h
    simp [ends, separators] at member
  | expression h => exact apart (expression_beforeEquals_end nesting h like)

end Reckon.Grammar
