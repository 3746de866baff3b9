import Reckon.Proofs.Reader.Run

/-! What a run of a reader comes to, whether it succeeds or fails: the cursor has moved over some
tokens and has its depth again, and a mistake is about one of the tokens or about their end. There is
one rule for each primitive reader, and for one reader behind another. -/
namespace Reckon

structure Cursor.Past (c : Cursor) (us : List Located) (d : Cursor) : Prop where
  rest : c.rest = us ++ d.rest
  depth : d.depth = c.depth
  stop : d.stop = c.stop

namespace Cursor

variable {c d d' : Cursor} {us vs : List Located}

theorem Past.refl (c : Cursor) : c.Past [] c := ⟨rfl, rfl, rfl⟩

theorem Past.trans (first : c.Past us d) (second : d.Past vs d') : c.Past (us ++ vs) d' where
  rest := by rw [first.rest, second.rest, List.append_assoc]
  depth := second.depth.trans first.depth
  stop := second.stop.trans first.stop

theorem past_advance (ahead : c.rest = l :: ls) : c.Past [l] c.advance where
  rest := by rw [advance, ahead]; rfl
  depth := rfl
  stop := rfl

theorem offset_of_rest (ahead : c.rest = l :: ls) : c.offset = l.offset := by
  rw [offset, ahead]

theorem rest_of_peek (h : c.peek = some t) : ∃ o ls, c.rest = ⟨t, o⟩ :: ls := by
  obtain ⟨⟨t, o⟩, first, rfl⟩ := Option.map_eq_some_iff.mp h
  obtain ⟨ls, ahead⟩ := List.head?_eq_some_iff.mp first
  exact ⟨o, ls, ahead⟩

end Cursor

def Missing.Occurs (ls : List Located) (stop : Nat) (m : Missing) : Prop :=
  match m.found with
  | some t => ⟨t, m.offset⟩ ∈ ls
  | none => m.offset = stop

def Defect.Occurs (ls : List Located) (stop : Nat) : Defect → Prop
  | parameter m => m.Occurs ls stop
  | repeated _ => True

def Malformed.Occurs (ls : List Located) (stop : Nat) : Malformed → Prop
  | missing m => m.Occurs ls stop
  | trailing found o => ⟨found, o⟩ ∈ ls
  | chainedComparison o =>
    ∃ t op, ⟨t, o⟩ ∈ ls ∧ t.binaryOperator? = some op ∧ op.isComparison = true
  | definition _ defect o => o ∈ ls.map Located.offset ∧ defect.Occurs ls stop
  | tooDeep o => o ∈ ls.map Located.offset ∨ o = stop

theorem Missing.Occurs.offset {m : Missing} (h : m.Occurs ls stop) :
    m.offset ∈ ls.map Located.offset ∨ m.offset = stop := by
  unfold Missing.Occurs at h
  split at h
  · exact .inl (List.mem_map_of_mem h)
  · exact .inr h

/-- A mistake is located at a token, or at the end. -/
theorem Malformed.Occurs.offset {m : Malformed} (h : m.Occurs ls stop) :
    m.offset ∈ ls.map Located.offset ∨ m.offset = stop := by
  cases m with
  | missing m => exact Missing.Occurs.offset h
  | trailing => exact .inl (List.mem_map_of_mem h)
  | chainedComparison =>
    obtain ⟨t, op, member, -⟩ := h
    exact .inl (List.mem_map_of_mem member)
  | definition => exact .inl h.1
  | tooDeep => exact h

namespace Cursor

theorem occurs_missing {c : Cursor} (within : c.rest ⊆ ts) (e : Expected) :
    Missing.Occurs ts c.stop ⟨e, c.peek, c.offset⟩ := by
  rcases c with ⟨_ | ⟨l, rest⟩, depth, stop⟩
  · rfl
  · exact within List.mem_cons_self

theorem offset_mem {c : Cursor} (within : c.rest ⊆ ts) :
    c.offset ∈ ts.map Located.offset ∨ c.offset = c.stop := by
  rcases c with ⟨_ | ⟨l, rest⟩, depth, stop⟩
  · exact .inr rfl
  · exact .inl (List.mem_map_of_mem (within List.mem_cons_self))

end Cursor

namespace Parse

variable {α β : Type} {ts : List Located} {c d : Cursor} {p : Parse α} {f : α → Parse β}
  {Q : List Located → α → Prop} {R : List Located → β → Prop}

/-- The outcome of a reader at a cursor into the tokens: some of them have been taken, and what is
returned suits these, or the mistake occurs somewhere in the tokens. It need not be ahead of the
cursor, since a definition is blamed at its start. -/
def Meets (ts : List Located) (p : Parse α) (c : Cursor) (Q : List Located → α → Prop) : Prop :=
  c.rest ⊆ ts → ∃ us, c.Past us (run p c).2 ∧
    match (run p c).1 with
    | .ok a => Q us a
    | .error m => m.Occurs ts c.stop

def Reads (ts : List Located) (p : Parse α) (Q : List Located → α → Prop) : Prop :=
  ∀ c, Meets ts p c Q

theorem meets_of_ok (h : run p c = (.ok a, d)) (past : c.Past us d) (post : Q us a) :
    Meets ts p c Q := by
  intro _
  rw [h]
  exact ⟨us, past, post⟩

theorem meets_of_error (h : run p c = (.error m, d)) (past : c.Past us d)
    (occurs : c.rest ⊆ ts → m.Occurs ts c.stop) : Meets ts p c Q := by
  intro within
  rw [h]
  exact ⟨us, past, occurs within⟩

theorem Meets.pure (h : Q [] a) : Meets ts (Pure.pure a) c Q := meets_of_ok rfl (.refl c) h

theorem Meets.missing (e : Expected) : Meets ts (missing e : Parse α) c Q :=
  meets_of_error rfl (.refl c) fun within => Cursor.occurs_missing within e

theorem Meets.tooDeep : Meets ts (tooDeep : Parse α) c Q :=
  meets_of_error rfl (.refl c) Cursor.offset_mem

theorem Meets.mono {Q' : List Located → α → Prop} (h : Meets ts p c Q)
    (weaker : ∀ us a d, c.Past us d → Q us a → Q' us a) : Meets ts p c Q' := by
  intro within
  obtain ⟨us, past, post⟩ := h within
  refine ⟨us, past, ?_⟩
  split at post
  · exact weaker us _ _ past post
  · exact post

/-- What runs as another reader does behind some tokens has its outcome. -/
theorem meets_of_run {q : Parse α} (same : run q c = run p d) (past : c.Past us d)
    (h : Meets ts p d fun vs => Q (us ++ vs)) : Meets ts q c Q := by
  intro within
  have behind : d.rest ⊆ ts := fun l hl => within (past.rest ▸ List.mem_append_right us hl)
  obtain ⟨vs, further, post⟩ := h behind
  rw [same, ← past.stop]
  exact ⟨us ++ vs, past.trans further, post⟩

/-- The second reader goes on behind the tokens of the first. -/
theorem Meets.bind (first : Meets ts p c Q)
    (second : ∀ us a d, c.Past us d → Q us a → Meets ts (f a) d fun vs => R (us ++ vs)) :
    Meets ts (p >>= f) c R := by
  intro within
  obtain ⟨us, past, post⟩ := first within
  rcases h : run p c with ⟨m | a, d⟩ <;> rw [h] at past post
  · exact meets_of_error (run_bind_of_error h) past (fun _ => post) within
  · exact meets_of_run (run_bind_of_ok h) past (second us a d past post) within

/-- What a reader returns is made into something that suits the same tokens. -/
theorem Meets.map {g : α → β} (first : Meets ts p c Q)
    (made : ∀ us a d, c.Past us d → Q us a → R us (g a)) :
    Meets ts (p >>= fun a => Pure.pure (g a)) c R :=
  first.bind fun us a d past post => .pure (by simpa using made us a d past post)

section Primitives

theorem Meets.offset {f : Nat → Parse α} (h : Meets ts (f c.offset) c Q) :
    Meets ts (offset >>= f) c Q := meets_of_run (run_offset_bind f c) (.refl c) h

theorem Meets.peek {f : Option Token → Parse α} (h : Meets ts (f c.peek) c Q) :
    Meets ts (peek >>= f) c Q := meets_of_run (run_bind_of_ok rfl) (.refl c) h

theorem Meets.peekOperator {f : Option BinaryOperator → Parse α}
    (h : Meets ts (f (c.peek.bind Token.binaryOperator?)) c Q) : Meets ts (peekOperator >>= f) c Q :=
  meets_of_run (c.peek_eq_head ▸ run_peekOperator_bind f c) (.refl c) h

theorem Meets.peekComparison {f : Option BinaryOperator → Parse α}
    (h : Meets ts (f ((c.peek.bind Token.binaryOperator?).filter BinaryOperator.isComparison)) c Q) :
    Meets ts (peekComparison >>= f) c Q :=
  meets_of_run (c.peek_eq_head ▸ run_peekComparison_bind f c) (.refl c) h

theorem Meets.ahead {f : List Located → Parse α} (h : Meets ts (f c.rest) c Q) :
    Meets ts (ahead >>= f) c Q := meets_of_run (run_ahead_bind f c) (.refl c) h

theorem Meets.advance {f : Unit → Parse α} (here : c.rest = l :: ls)
    (h : Meets ts (f ()) c.advance fun vs => Q (l :: vs)) : Meets ts (advance >>= f) c Q :=
  meets_of_run (run_advance_bind f c) (Cursor.past_advance here) h

/-- A symbol that is accepted is taken. -/
theorem Meets.accept {s : Symbol} {f : Bool → Parse α}
    (taken : ∀ o ls, c.rest = ⟨.symbol s, o⟩ :: ls →
      Meets ts (f true) c.advance fun vs => Q (⟨.symbol s, o⟩ :: vs))
    (other : c.peek ≠ some (.symbol s) → Meets ts (f false) c Q) : Meets ts (accept s >>= f) c Q := by
  by_cases next : c.peek = some (.symbol s)
  · obtain ⟨o, ls, here⟩ := Cursor.rest_of_peek next
    refine meets_of_run ?_ (Cursor.past_advance here) (taken o ls here)
    rw [run_accept_bind, if_pos (c.peek_eq_head ▸ next)]
  · refine meets_of_run ?_ (.refl c) (other next)
    rw [run_accept_bind, if_neg (c.peek_eq_head ▸ next)]

/-- A symbol that is expected is taken, or it is missing. -/
theorem Meets.expect {s : Symbol} {f : Unit → Parse α}
    (taken : ∀ o ls, c.rest = ⟨.symbol s, o⟩ :: ls →
      Meets ts (f ()) c.advance fun vs => Q (⟨.symbol s, o⟩ :: vs)) : Meets ts (expect s >>= f) c Q := by
  by_cases next : c.peek = some (.symbol s)
  · obtain ⟨o, ls, here⟩ := Cursor.rest_of_peek next
    refine meets_of_run ?_ (Cursor.past_advance here) (taken o ls here)
    rw [run_expect_bind, if_pos (c.peek_eq_head ▸ next)]
  · refine meets_of_error (m := .missing ⟨.symbol s, c.peek, c.offset⟩) ?_ (.refl c)
      fun within => Cursor.occurs_missing within _
    rw [run_expect_bind, if_neg (c.peek_eq_head ▸ next)]

end Primitives

theorem Reads.identifier : Reads ts identifier fun us _ => us ≠ [] := by
  intro c
  refine .peek ?_
  split
  · rename_i name next
    obtain ⟨o, ls, here⟩ := Cursor.rest_of_peek next
    exact .advance here (.pure (List.cons_ne_nil _ _))
  · exact .missing _

/-- One level deeper there is the same to read, and the level is left again. -/
theorem Reads.nested (h : Reads ts p Q) : Reads ts (nested p) Q := by
  intro c within
  rw [run_nested]
  split
  · -- The depth goes up for the reader inside, which restores it, and down again behind it.
    obtain ⟨us, past, post⟩ := h { c with depth := c.depth + 1 } within
    refine ⟨us, ⟨past.rest, ?_, past.stop⟩, post⟩
    exact congrArg (· - 1) past.depth
  · exact ⟨[], .refl c, Cursor.offset_mem within⟩

inductive Each (Q : List Located → α → Prop) : List Located → List α → Prop
  | nil : Each Q us []
  | item : Q us a → Each Q vs as → Each Q (us ++ vs) (a :: as)
  | skip : Each Q us as → Each Q (l :: us) as

theorem Each.skips (us : List Located) (h : Each Q vs as) : Each Q (us ++ vs) as := by
  induction us with
  | nil => exact h
  | cons l us ih => exact .skip ih

theorem Reads.commaItems (item : Reads ts p Q) (closing : Symbol) (turns : List Located) :
    Reads ts (commaItems p closing turns) fun us as => us ≠ [] ∧ Each Q us as := by
  induction turns with
  | nil => exact fun c => .missing _
  | cons t turns ih =>
    intro c
    refine .accept (fun o ls here => ?_) fun _ => ?_
    · exact (item _).bind fun us a d _ first => (ih d).map fun vs as _ _ others =>
        ⟨List.cons_ne_nil _ _, .skip (.item first others.2)⟩
    · exact .accept (fun o ls here => .pure ⟨List.cons_ne_nil _ _, .nil⟩) fun _ => .missing _

theorem Reads.commaSeparated (item : Reads ts p Q) (closing : Symbol) :
    Reads ts (commaSeparated p closing) fun us as => us ≠ [] ∧ Each Q us as := by
  intro c
  refine .accept (fun o ls here => .pure ⟨List.cons_ne_nil _ _, .nil⟩) fun _ => ?_
  exact (item c).bind fun us a d _ first => .ahead <|
    (Reads.commaItems item closing d.rest d).map fun vs as _ _ others =>
      ⟨List.append_ne_nil_of_right_ne_nil us others.1, .item first others.2⟩

end Parse
end Reckon
