import Mathlib.Algebra.Group.Nat.Defs
import Mathlib.Data.List.Basic
import Mathlib.Data.List.Pairwise
import TomitaParser.Lib.Codec
/-! # Sparse matrix

Rows of values with their columns, and for each row the place where it starts. Values come in by
ascending row and column. -/

namespace TomitaParser

/-- `std::lower_bound` over the places from `first` to `last` of a list. -/
def lowerBound (xs : List ℕ) (first last key : ℕ) : ℕ :=
  first + ((xs.drop first).take (last - first)).findIdx fun x => decide (key ≤ x)

/-- `TSparseMatrix`. -/
structure SparseMatrix (T : Type) where
  values : List T := []
  rowIndex : List ℕ := [0]
  columnIndex : List ℕ := []

namespace SparseMatrix
variable {T : Type}

/-- `Add`. The row and the column are words. -/
def add (m : SparseMatrix T) (row column : ℕ) (value : T) : SparseMatrix T :=
  let newRows := ui32 (row + 1)
  let rowIndex := m.rowIndex ++
    List.replicate (newRows + 1 - m.rowIndex.length) (m.rowIndex.getLastD 0)
  { values := m.values ++ [value],
    columnIndex := m.columnIndex ++ [column],
    rowIndex := rowIndex.set (rowIndex.length - 1) (ui32 (m.values.length + 1)) }

/-- `Get`. -/
def get (m : SparseMatrix T) (row column : ℕ) : Option T :=
  match m.rowIndex[row]?, m.rowIndex[ui32 (row + 1)]? with
  | some first, some last => m.values[lowerBound m.columnIndex first last column]?
  | _, _ => none

/-- The order of the entries. -/
def Precedes (a b : ℕ × ℕ × T) : Prop := a.1 < b.1 ∨ a.1 = b.1 ∧ a.2.1 < b.2.1

/-- The number of entries in the rows before `row`. -/
def entriesBefore (entries : List (ℕ × ℕ × T)) (row : ℕ) : ℕ := entries.countP fun e =>
    decide (e.1 < row)

/-- The rows up to the last one with an entry. -/
def rowCount (entries : List (ℕ × ℕ × T)) : ℕ := (entries.getLast?.map fun e => e.1 + 1).getD 0

/-- A matrix holds some entries, added in this order. -/
structure Represents (m : SparseMatrix T) (entries : List (ℕ × ℕ × T)) : Prop where
  values : m.values = entries.map fun e => e.2.2
  columns : m.columnIndex = entries.map fun e => e.2.1
  rows : m.rowIndex = (List.range (rowCount entries + 1)).map (entriesBefore entries)
  ordered : entries.Pairwise Precedes

theorem represents_nil : Represents ({} : SparseMatrix T) [] :=
  ⟨rfl, rfl, rfl, List.Pairwise.nil⟩

theorem Represents.row_lt {m : SparseMatrix T} {entries : List (ℕ × ℕ × T)}
    (h : m.Represents entries) : ∀ e ∈ entries, e.1 < rowCount entries := by
  intro e he
  rcases List.eq_nil_or_concat entries with rfl | ⟨front, last, rfl⟩
  · simp at he
  · have hordered := h.ordered
    simp only [List.concat_eq_append] at he hordered ⊢
    have hcount : rowCount (front ++ [last]) = last.1 + 1 := by simp [rowCount]
    rw [hcount]
    rw [List.pairwise_append] at hordered
    rcases List.mem_append.mp he with hfront | hlast
    · have := hordered.2.2 e hfront last (by simp)
      unfold Precedes at this
      omega
    · rw [List.mem_singleton.mp hlast]
      omega

theorem rowCount_le {entries : List (ℕ × ℕ × T)} {rows : ℕ} (h : ∀ e ∈ entries, e.1 < rows) :
    rowCount entries ≤ rows := by
  unfold rowCount
  cases hlast : entries.getLast? with
  | none => exact Nat.zero_le _
  | some e => exact h e (List.mem_of_getLast? hlast)

theorem entriesBefore_all {entries : List (ℕ × ℕ × T)} {row : ℕ} (h : ∀ e ∈ entries, e.1 < row) :
    entriesBefore entries row = entries.length := by
  unfold entriesBefore
  rw [List.countP_eq_length]
  intro e he
  simpa using h e he

/-- A new entry comes after the others. -/
theorem Represents.add {m : SparseMatrix T} {entries : List (ℕ × ℕ × T)} (h : m.Represents entries)
    {row column : ℕ} {value : T} (hafter : ∀ e ∈ entries, Precedes e (row, column, value))
    (hrow : row + 1 < 2 ^ 32) (hcount : entries.length + 1 < 2 ^ 32) :
    (m.add row column value).Represents (entries ++ [(row, column, value)]) := by
  have hle : rowCount entries ≤ row + 1 := by
    rcases List.eq_nil_or_concat entries with rfl | ⟨front, last, rfl⟩
    · exact Nat.zero_le _
    · have := hafter last (by simp)
      simp only [Precedes] at this
      simp only [rowCount, List.concat_eq_append, List.getLast?_append, List.getLast?_singleton,
        Option.some_or, Option.map_some, Option.getD_some]
      omega
  have hlength : m.rowIndex.length = rowCount entries + 1 := by
    rw [h.rows, List.length_map, List.length_range]
  have hback : m.rowIndex.getLastD 0 = entries.length := by
    have hlast : m.rowIndex.getLast? = some (entriesBefore entries (rowCount entries)) := by
      rw [h.rows, List.range_succ, List.map_append]
      simp
    rw [List.getLastD_eq_getLast?, hlast, Option.getD_some, entriesBefore_all h.row_lt]
  have hnew : rowCount (entries ++ [(row, column, value)]) = row + 1 := by simp [rowCount]
  constructor
  · simp [SparseMatrix.add, h.values]
  · simp [SparseMatrix.add, h.columns]
  · rw [hnew]
    simp only [SparseMatrix.add, ui32_of_lt hrow, hback, hlength]
    apply List.ext_getElem?
    intro r
    have hpadded : (m.rowIndex ++ List.replicate (row + 1 + 1 - (rowCount entries + 1))
        entries.length).length = row + 2 := by
      rw [List.length_append, List.length_replicate, hlength]
      omega
    rw [List.getElem?_set, hpadded]
    by_cases hr : row + 2 - 1 = r
    · subst hr
      have hall : entriesBefore (entries ++ [(row, column, value)]) (row + 1) =
          entries.length + 1 := by
        rw [entriesBefore_all]
        · simp
        · intro e he
          rcases List.mem_append.mp he with he | he
          · have := h.row_lt e he
            omega
          · rw [List.mem_singleton.mp he]
            exact Nat.lt_succ_self row
      have hvalues : m.values.length = entries.length := by rw [h.values, List.length_map]
      rw [if_pos rfl, if_pos (by omega), hvalues, ui32_of_lt hcount]
      simp only [List.getElem?_map, Nat.add_one_sub_one]
      rw [List.getElem?_range (by omega), Option.map_some, hall]
    · rw [if_neg hr, List.getElem?_map]
      by_cases hlt : r < row + 1
      · rw [List.getElem?_range (by omega), Option.map_some]
        have hsame : entriesBefore (entries ++ [(row, column, value)]) r =
            entriesBefore entries r := by
          simp only [entriesBefore, List.countP_append, List.countP_cons, List.countP_nil]
          have : ¬row < r := by omega
          simp [this]
        rw [hsame]
        by_cases hold : r < rowCount entries + 1
        · rw [List.getElem?_append_left (by omega), h.rows, List.getElem?_map,
            List.getElem?_range hold, Option.map_some]
        · rw [List.getElem?_append_right (by omega), List.getElem?_replicate, if_pos (by omega),
            entriesBefore_all]
          intro e he
          have := h.row_lt e he
          omega
      · have hout : row + 2 ≤ r := by omega
        rw [List.getElem?_eq_none (by rw [hpadded]; exact hout),
          List.getElem?_eq_none (by rw [List.length_range]; omega), Option.map_none]
  · rw [List.pairwise_append]
    exact ⟨h.ordered, List.pairwise_singleton _ _, by simpa using hafter⟩

theorem lt_countP_iff {α : Type} {p : α → Bool} {xs : List α}
    (h : xs.Pairwise fun a b => p b = true → p a = true) {i : ℕ} {x : α} (hx : xs[i]? = some x) :
    p x = true ↔ i < xs.countP p := by
  induction xs generalizing i with
  | nil => simp at hx
  | cons y ys ih =>
    rw [List.pairwise_cons] at h
    rw [List.countP_cons]
    cases i with
    | zero =>
      simp only [List.getElem?_cons_zero, Option.some.injEq] at hx
      subst hx
      by_cases hy : p y = true
      · simp [hy]
      · have hnone : ys.countP p = 0 := by
          rw [List.countP_eq_zero]
          intro z hz hpz
          exact hy (h.1 z hz hpz)
        simp [hy, hnone]
    | succ i =>
      rw [List.getElem?_cons_succ] at hx
      rw [ih h.2 hx]
      by_cases hy : p y = true
      · simp [hy]
      · have hnone : ys.countP p = 0 := by
          rw [List.countP_eq_zero]
          intro z hz hpz
          exact hy (h.1 z hz hpz)
        simp [hy, hnone]

/-- The value of an entry is found at its row and column. -/
theorem Represents.get {m : SparseMatrix T} {entries : List (ℕ × ℕ × T)} (h : m.Represents entries)
    {row column : ℕ} {value : T} (hmem : (row, column, value) ∈ entries)
    (hrow : row + 1 < 2 ^ 32) : m.get row column = some value := by
  obtain ⟨i, hi⟩ := List.getElem?_of_mem hmem
  have hlt : row < rowCount entries := h.row_lt _ hmem
  have hfirst : m.rowIndex[row]? = some (entriesBefore entries row) := by
    rw [h.rows, List.getElem?_map, List.getElem?_range (by omega), Option.map_some]
  have hlast : m.rowIndex[row + 1]? = some (entriesBefore entries (row + 1)) := by
    rw [h.rows, List.getElem?_map, List.getElem?_range (by omega), Option.map_some]
  have hsplit : ∀ r j e, entries[j]? = some e → (e.1 < r ↔ j < entriesBefore entries r) := by
    intro r j e he
    have := @lt_countP_iff _ (fun e : ℕ × ℕ × T => decide (e.1 < r)) entries (by
      apply h.ordered.imp
      intro a b hab hb
      simp only [decide_eq_true_eq] at hb ⊢
      unfold Precedes at hab
      omega) j e he
    rw [decide_eq_true_eq] at this
    exact this
  have hge : entriesBefore entries row ≤ i := by
    have := hsplit row i _ hi
    simp only [Nat.lt_irrefl, false_iff] at this
    omega
  have hle : i < entriesBefore entries (row + 1) := by
    have := hsplit (row + 1) i _ hi
    simpa using this
  have hbound : lowerBound m.columnIndex (entriesBefore entries row)
      (entriesBefore entries (row + 1)) column = i := by
    have hcolumns : ∀ j, j < entriesBefore entries (row + 1) - entriesBefore entries row →
        ((m.columnIndex.drop (entriesBefore entries row)).take
          (entriesBefore entries (row + 1) - entriesBefore entries row))[j]? =
        entries[entriesBefore entries row + j]?.map fun e => e.2.1 := by
      intro j hj
      rw [List.getElem?_take_of_lt hj, List.getElem?_drop, h.columns, List.getElem?_map]
    have hindex := hcolumns (i - entriesBefore entries row) (by omega)
    rw [Nat.add_sub_cancel' hge, hi, Option.map_some, List.getElem?_eq_some_iff] at hindex
    obtain ⟨hin, hcolumn⟩ := hindex
    have hfind := (List.findIdx_eq (p := fun x => decide (column ≤ x)) hin).mpr (by
      refine ⟨by simp [hcolumn], fun j hj => ?_⟩
      have hj' := hcolumns j (by omega)
      rw [List.getElem?_eq_getElem (by omega)] at hj'
      have hex : ∃ e, entries[entriesBefore entries row + j]? = some e := by
        apply Option.isSome_iff_exists.mp
        cases hopt : entries[entriesBefore entries row + j]? with
        | some e => rfl
        | none =>
          rw [hopt] at hj'
          cases hj'
      obtain ⟨e, he⟩ := hex
      rw [he, Option.map_some, Option.some.injEq] at hj'
      rw [hj']
      have hnot := (hsplit row _ e he).not.mpr (by omega)
      have hbefore : Precedes e (row, column, value) := by
        have hlt : entriesBefore entries row + j < i := by omega
        obtain ⟨h1, he'⟩ := List.getElem?_eq_some_iff.mp he
        obtain ⟨h2, hi'⟩ := List.getElem?_eq_some_iff.mp hi
        have := List.pairwise_iff_getElem.mp h.ordered _ _ h1 h2 hlt
        rwa [he', hi'] at this
      unfold Precedes at hbefore
      simp only [decide_eq_false_iff_not]
      simp only at hbefore
      omega)
    rw [lowerBound, hfind]
    omega
  rw [SparseMatrix.get, ui32_of_lt hrow, hfirst, hlast]
  simp only [hbound, h.values, List.getElem?_map, hi, Option.map_some]

end SparseMatrix
end TomitaParser
