import Reckon.Proofs.Operation.Broadcast

/-! Transposition of matrices. Every cell moves to the place with its positions exchanged, and none
is lost, since the dimensions are asked for first and a ragged array has none. -/
namespace Reckon.Value

def IsMatrix (rows cells : Nat) (v : Value) : Prop :=
  ∃ items, v = array items ∧ items.length = rows ∧
    ∀ row ∈ items, ∃ elements, row = array elements ∧ elements.length = cells

def ofColumns (rows : List Value) (count : Nat) : Value :=
  array ((List.range count).map (column rows))

section

variable {v w : Value} {rows : List Value} {P Q : Value → Prop}

/-! ## What decides a transposition -/

theorem transpose_of_error (fails : v.dimensions = .error e) : v.transpose = .error e := by
  simp [transpose, fails, bind, Except.bind]

theorem transpose_of_flat (dims : v.dimensions = .ok ds) (flat : ds.length < 2) :
    v.transpose = .ok v := by
  match ds with
  | [] | [_] => simp [transpose, dims, bind, Except.bind, pure, Except.pure]
  | _ :: _ :: _ =>
    simp only [List.length_cons] at flat
    omega

theorem transpose_of_matrix (dims : (array rows).dimensions = .ok [r, c]) :
    (array rows).transpose = .ok (ofColumns rows c) := by
  simp [transpose, ofColumns, items?, dims, bind, Except.bind, pure, Except.pure]

theorem transpose_of_deep (dims : v.dimensions = .ok ds) (deep : 2 < ds.length) :
    v.transpose = .error (.dimensions "transpose" (.tooMany ds.length)) := by
  match ds with
  | [] | [_] | [_, _] => simp at deep
  | _ :: _ :: _ :: _ =>
    simp [transpose, dims, bind, Except.bind, throw, throwThe, MonadExceptOf.throw]

/-! ## Cells -/

/-- Where no element is left out, those that are kept stand where they stood. -/
theorem getElem?_filterMap {f : α → Option β} {xs : List α}
    (total : ∀ x ∈ xs, ∃ y, f x = some y) (i : Nat) :
    (xs.filterMap f)[i]? = xs[i]?.bind f := by
  induction xs generalizing i with
  | nil => simp
  | cons x xs ih =>
    obtain ⟨⟨y, found⟩, others⟩ := List.forall_mem_cons.mp total
    rw [List.filterMap_cons_some found]
    cases i with
    | zero => simp [found]
    | succ i => simpa using ih others i

theorem Full.isMatrix (h : Full P [r, c] v) : IsMatrix r c v := by
  obtain ⟨items, rfl, length, -, each⟩ := h.exists_items
  refine ⟨items, rfl, length, fun row member => ?_⟩
  obtain ⟨cells, same, cells', -⟩ := (each row member).exists_items
  exact ⟨cells, same, cells'⟩

/-- Matrices of one size with the same cells are the same. -/
theorem IsMatrix.ext (hv : IsMatrix r c v) (hw : IsMatrix r c w)
    (same : ∀ i j, v.at? [i, j] = w.at? [i, j]) : v = w := by
  obtain ⟨rows, rfl, length, each⟩ := hv
  obtain ⟨rows', rfl, length', each'⟩ := hw
  congr 1
  apply List.ext_getElem (length.trans length'.symm)
  intro i inside inside'
  obtain ⟨cells, row, -⟩ := each rows[i] (List.getElem_mem inside)
  obtain ⟨cells', row', -⟩ := each' rows'[i] (List.getElem_mem inside')
  rw [row, row']
  congr 1
  apply List.ext_getElem?
  intro j
  simpa [at?, items?, inside, inside', row, row'] using same i j

/-- A column has the cells of that position in all rows. -/
theorem at?_column (total : ∀ row ∈ rows, ∃ v, row.items?.bind (·[j]?) = some v) (i : Nat) :
    (column rows j).at? [i] = (array rows).at? [i, j] := by
  change ((rows.filterMap fun row => row.items?.bind (·[j]?))[i]?.bind fun cell => cell.at? []) =
    rows[i]?.bind fun row => (row.items?.bind (·[j]?)).bind fun cell => cell.at? []
  rw [getElem?_filterMap total, Option.bind_assoc]

/-- No row has a cell beyond the last. -/
theorem at?_beyond (h : Full P [r, c] (array rows)) (i : Nat) (beyond : c ≤ j) :
    (array rows).at? [i, j] = none := by
  obtain ⟨_, ⟨⟩, -, each⟩ := h.isMatrix
  cases found : rows[i]? with
  | none => simp [at?, items?, found]
  | some row =>
    obtain ⟨cells, rfl, rfl⟩ := each row (List.mem_of_getElem? found)
    simp [at?, items?, found, beyond]

/-- What stands in a place of the transposed matrix stood in the place with exchanged positions. -/
theorem at?_ofColumns (h : Full P [r, c] (array rows)) (i j : Nat) :
    (ofColumns rows c).at? [j, i] = (array rows).at? [i, j] := by
  by_cases inside : j < c
  · have total : ∀ row ∈ rows, ∃ v, row.items?.bind (·[j]?) = some v := by
      obtain ⟨_, ⟨⟩, -, -, each⟩ := h.exists_items
      intro row member
      obtain ⟨v, found, -⟩ := (each row member).cell inside
      exact ⟨v, found⟩
    rw [← at?_column total i]
    simp [ofColumns, at?, items?, inside]
  · rw [at?_beyond h i (Nat.le_of_not_lt inside)]
    simp [ofColumns, at?, items?, inside]

/-- The columns have one cell from each row. -/
theorem Full.columns (h : Full P [r, c] (Value.array rows)) :
    ∀ line ∈ (List.range c).map (Value.column rows), Full P [r] line := by
  obtain ⟨_, ⟨⟩, rfl, none, each⟩ := h.exists_items
  have occupied : rows ≠ [] := fun empty => by simp [empty] at none
  intro line member
  obtain ⟨j, inside, rfl⟩ := List.mem_map.mp member
  exact .column each (List.mem_range.mp inside) occupied

theorem Full.isMatrix_ofColumns (h : Full P [r, c] (Value.array rows)) :
    IsMatrix c r (ofColumns rows c) := by
  refine ⟨_, rfl, by simp, fun line member => ?_⟩
  obtain ⟨cells, same, length, -⟩ := (h.columns line member).exists_items
  exact ⟨cells, same, length⟩

/-- Without columns the shape of the rows is lost. -/
theorem Full.ofColumns (h : Full P [r, c] (Value.array rows)) (occupied : 1 ≤ c) :
    Full P [c, r] (ofColumns rows c) :=
  .array (by simp) (fun none => absurd none (Nat.ne_of_gt occupied)) h.columns

/-- A matrix with exchanged positions, which is found again by transposing that. -/
theorem transpose_matrix (dims : v.dimensions = .ok [r, c]) :
    ∃ w, v.transpose = .ok w ∧ IsMatrix c r w ∧ (∀ i j, w.at? [j, i] = v.at? [i, j]) ∧
      (1 ≤ c → w.dimensions = .ok [c, r] ∧ w.transpose = .ok v) := by
  have full := dimensions_eq_ok.mp dims
  obtain ⟨rows, rfl, -⟩ := full.isMatrix
  have exchanged := at?_ofColumns full
  refine ⟨_, transpose_of_matrix dims, full.isMatrix_ofColumns, exchanged, fun occupied => ?_⟩
  have full' := full.ofColumns occupied
  refine ⟨full'.dimensions, (transpose_of_matrix full'.dimensions).trans ?_⟩
  apply congrArg Except.ok
  apply full'.isMatrix_ofColumns.ext full.isMatrix
  intro i j
  exact (at?_ofColumns full' j i).trans (exchanged i j)

/-- A transposition fails on values without dimensions and on those with more than two. -/
theorem transpose_fails_iff : (∃ e, v.transpose = .error e) ↔
    (∃ e, v.dimensions = .error e) ∨ ∃ ds, v.dimensions = .ok ds ∧ 2 < ds.length := by
  cases dims : v.dimensions with
  | error e => exact iff_of_true ⟨e, transpose_of_error dims⟩ (.inl ⟨e, rfl⟩)
  | ok ds =>
    by_cases deep : 2 < ds.length
    · exact iff_of_true ⟨_, transpose_of_deep dims deep⟩ (.inr ⟨ds, rfl, deep⟩)
    · have made : ∃ w, v.transpose = .ok w := by
        match ds with
        | [] | [_] => exact ⟨v, transpose_of_flat dims (by simp)⟩
        | [_, _] =>
          obtain ⟨w, made, -⟩ := transpose_matrix dims
          exact ⟨w, made⟩
        | _ :: _ :: _ :: _ => simp at deep
      obtain ⟨w, made⟩ := made
      simp [made, deep]

/-- A value has dimensions exactly if it is a full array of these, and otherwise rows that do not
fit. It can be transposed exactly if it has at most two. Scalars and vectors stay, and a matrix
becomes one with every cell in the place with exchanged positions, of which the first is found again
unless it has no columns. -/
theorem transpose_full (v : Value) :
    (∀ ds, v.dimensions = .ok ds ↔ Full (fun _ => True) ds v) ∧
    ((∀ ds, ¬Full (fun _ => True) ds v) →
      ∃ mismatch, v.dimensions = .error (.dimensions "size" mismatch)) ∧
    ((∃ e, v.transpose = .error e) ↔
      (∃ e, v.dimensions = .error e) ∨ ∃ ds, v.dimensions = .ok ds ∧ 2 < ds.length) ∧
    (∀ ds, v.dimensions = .ok ds → ds.length < 2 → v.transpose = .ok v) ∧
    ∀ r c, v.dimensions = .ok [r, c] →
      ∃ w, v.transpose = .ok w ∧ IsMatrix c r w ∧ (∀ i j, w.at? [j, i] = v.at? [i, j]) ∧
        (1 ≤ c → w.dimensions = .ok [c, r] ∧ w.transpose = .ok v) := by
  refine ⟨fun ds => dimensions_eq_ok, fun ragged => ?_, transpose_fails_iff,
    fun ds => transpose_of_flat, fun r c => transpose_matrix⟩
  cases dims : v.dimensions with
  | ok ds => exact absurd (dimensions_eq_ok.mp dims) (ragged ds)
  | error e =>
    obtain ⟨first, other, rfl⟩ := dimensions_fault v dims
    exact ⟨_, rfl⟩

/-- Two rows of three cells, of which one is a text, and rows of different lengths. -/
theorem transpose_full_rows :
    let v : Value := .array [.array [.number 1, .text "a", .boolean true],
      .array [.exact 2, .number 3, .text ""]]
    let ragged : Value := .array [.array [.number 1], .array [], .number 2]
    (v.dimensions = .ok [2, 3] ∧ 1 ≤ 3 ∧ ∃ w, v.transpose = .ok w ∧ IsMatrix 3 2 w ∧
      w.at? [1, 0] = some (.text "a") ∧ w.dimensions = .ok [3, 2] ∧ w.transpose = .ok v) ∧
    ((∀ ds, ¬Full (fun _ => True) ds ragged) ∧ (∃ e, ragged.transpose = .error e) ∧
      ∃ mismatch, ragged.dimensions = .error (.dimensions "size" mismatch)) := by
  intro v ragged
  have dims : v.dimensions = .ok [2, 3] := rfl
  obtain ⟨w, made, matrix, cells, back⟩ := (transpose_full v).2.2.2.2 2 3 dims
  obtain ⟨dims', again⟩ := back (by decide)
  obtain ⟨full, fault, fails, -⟩ := transpose_full ragged
  have unfit : ragged.dimensions = .error (.dimensions "size" (.rows [1] [0])) := rfl
  have none (ds : List Nat) : ¬Full (fun _ => True) ds ragged := by
    intro whole
    cases unfit.symm.trans ((full ds).mpr whole)
  exact ⟨⟨dims, by decide, w, made, matrix, cells 0 1, dims', again⟩, none,
    fails.mpr (.inl ⟨_, unfit⟩), fault none⟩

end

end Reckon.Value
