import TomitaParser.Glr.CompactTable
/-! # Compaction loses nothing

What each cell of a raw table becomes, and that a compact table answers for every cell as the raw
one does, also after it was saved and loaded. -/

namespace TomitaParser
open Gzt

/-- The bit of a place. -/
def bitAt (mask : List ℕ) (index : ℕ) : Bool :=
  (mask.getD (index >>> 3) 0).testBit (index &&& 7)

theorem shiftRight_three (n : ℕ) : n >>> 3 = n / 8 := Nat.shiftRight_eq_div_pow n 3

theorem and_seven (n : ℕ) : n &&& 7 = n % 8 := Nat.and_two_pow_sub_one_eq_mod n 3

theorem length_setBit (mask : List ℕ) (index : ℕ) :
    (CompactTable.setBit mask index).length = mask.length := by
  rw [CompactTable.setBit, List.length_modify]

theorem bitAt_setBit {mask : List ℕ} {index : ℕ} (h : index < 8 * mask.length) (other : ℕ) :
    bitAt (CompactTable.setBit mask index) other =
      (bitAt mask other || decide (index = other)) := by
  simp only [bitAt, CompactTable.setBit, shiftRight_three, and_seven, List.getD_eq_getElem?_getD,
    List.getElem?_modify]
  by_cases hbyte : index / 8 = other / 8
  · have hlt : other / 8 < mask.length := by omega
    simp only [hbyte, if_true, List.getElem?_eq_getElem hlt, Option.map_eq_map, Option.map_some,
      Option.getD_some, Nat.testBit_or, Nat.one_shiftLeft, Nat.testBit_two_pow]
    congr 1
    rw [decide_eq_decide]
    omega
  · have hne : index ≠ other := by
      rintro rfl
      exact hbyte rfl
    simp [hbyte, hne]

theorem setBit_lt {mask : List ℕ} {index : ℕ} (h : ∀ b ∈ mask, b < 2 ^ 8) :
    ∀ b ∈ CompactTable.setBit mask index, b < 2 ^ 8 := by
  intro b hb
  obtain ⟨k, hk⟩ := List.getElem?_of_mem hb
  rw [CompactTable.setBit, List.getElem?_modify] at hk
  simp only [Option.map_eq_map, Option.map_eq_some_iff] at hk
  obtain ⟨old, hold, rfl⟩ := hk
  have hlt := h old (List.mem_of_getElem? hold)
  by_cases hbyte : index >>> 3 = k
  · rw [if_pos hbyte, and_seven, Nat.one_shiftLeft]
    apply Nat.or_lt_two_pow hlt
    apply Nat.pow_lt_pow_right (by decide)
    omega
  · rw [if_neg hbyte]
    exact hlt

theorem isEmptyCell_eq {Agr : Type} (t : CompactTable Agr) (row column : ℕ) :
    t.isEmptyCell row column = !bitAt t.mask (row * t.columns + column) := by
  simp only [CompactTable.isEmptyCell, bitAt, Nat.one_shiftLeft, Nat.and_two_pow]
  cases (t.mask.getD ((row * t.columns + column) >>> 3) 0).testBit
    ((row * t.columns + column) &&& 7) with
  | false => simp
  | true => simp

namespace CompactCell

theorem and_noGoto {n : ℕ} (h : n < 2 ^ 32) : n &&& noGoto = n / 2 * 2 := by
  have hnoGoto : noGoto = (2 ^ 31 - 1) * 2 := by decide
  have hpow : n / 2 < 2 ^ 31 := by omega
  calc n &&& noGoto = (n &&& noGoto) / 2 * 2 + (n &&& noGoto) % 2 := by omega
    _ = n / 2 * 2 := by
      have hmod : (n &&& noGoto) % 2 = 0 := by
        rw [← Nat.and_one_is_mod, Nat.and_assoc]
        have : noGoto &&& 1 = 0 := by decide
        rw [this, Nat.and_zero]
      have hdiv : (n &&& noGoto) / 2 = n / 2 := by
        rw [Nat.and_div_two, hnoGoto, Nat.mul_div_cancel _ (by decide)]
        exact Nat.and_two_pow_sub_one_of_lt_two_pow hpow
      rw [hmod, hdiv, Nat.add_zero]

theorem or_one_div_two (n : ℕ) : (n ||| 1) / 2 = n / 2 := by
  rw [Nat.or_div_two]
  exact Nat.or_zero _

theorem gotoWord_lt (gotoLine : Option ℕ) : gotoWord gotoLine < 2 ^ 32 := by
  cases gotoLine with
  | some line => exact ui32_lt _
  | none => decide

theorem make_shiftGoto_lt (shift : Bool) (gotoLine : Option ℕ) (rulesIndex : ℕ) :
    (make shift gotoLine rulesIndex).shiftGoto < 2 ^ 32 := by
  cases shift with
  | false => exact gotoWord_lt gotoLine
  | true => exact Nat.or_lt_two_pow (gotoWord_lt gotoLine) (by decide)

theorem make_shiftGoto_div (shift : Bool) (gotoLine : Option ℕ) (rulesIndex : ℕ) :
    (make shift gotoLine rulesIndex).shiftGoto / 2 = gotoWord gotoLine / 2 := by
  cases shift with
  | false => rfl
  | true => exact or_one_div_two _

theorem make_gotoLine (shift : Bool) {gotoLine : Option ℕ} (rulesIndex : ℕ)
    (h : ∀ line ∈ gotoLine, line < 2 ^ 31 - 1) :
    (if (make shift gotoLine rulesIndex).hasGotoLine then
      some (make shift gotoLine rulesIndex).getGotoLine else none) = gotoLine := by
  rw [hasGotoLine, getGotoLine, and_noGoto (make_shiftGoto_lt _ _ _), Nat.shiftRight_eq_div_pow,
    Nat.pow_one, make_shiftGoto_div]
  cases gotoLine with
  | none => rfl
  | some line =>
    have hline := h line rfl
    have hword : gotoWord (some line) / 2 = line := by
      rw [gotoWord, Nat.shiftLeft_eq, ui32_of_lt (by omega)]
      omega
    have hne : line * 2 ≠ noGoto := by
      simp only [noGoto]
      omega
    simp [hword, hne]

end CompactCell

namespace CompactTable
open SparseMatrix

abbrev Place := (ℕ × ℕ) × SlrCell

/-- The cells that are not empty. -/
def filled (cells : List Place) : List Place := cells.filter fun p => !p.2.isEmpty

/-- The number of references to rules. -/
def references (cells : List Place) : ℕ := (cells.map fun p => p.2.reduceRules.length).sum

/-- A word stands for a cell: it holds the only rule of the cell, or the place of a complex cell,
whose set of rules is held in the storage. -/
inductive Encodes (complexCells : List CompactCell) (holders : Multiset (ℕ × Finset ℕ))
    (cell : SlrCell) (value : ℕ) : Prop
  | simple (rule : ℕ) (hcell : cell = ⟨false, none, [rule]⟩) (hvalue : value = 2 * rule)
  | complex (k index : ℕ) (hvalue : value = 2 * k + 1)
    (hcell : complexCells[k]? = some (CompactCell.make cell.shift cell.gotoLine index))
    (hholder : (index, cell.reduceRules.toFinset) ∈ holders)

theorem Encodes.mono {complexCells more : List CompactCell} {holders : Multiset (ℕ × Finset ℕ)}
    {cell : SlrCell} {value : ℕ} (h : Encodes complexCells holders cell value)
    (holder : ℕ × Finset ℕ) : Encodes (complexCells ++ more) (holder ::ₘ holders) cell value := by
  cases h with
  | simple rule hcell hvalue => exact .simple rule hcell hvalue
  | complex k index hvalue hcell hholder =>
    refine .complex k index hvalue ?_ (Multiset.mem_cons_of_mem hholder)
    rw [List.getElem?_append_left (List.getElem?_eq_some_iff.mp hcell).1]
    exact hcell

/-- The bits and the matrix after some cells. -/
structure PackedCells (columns bytes : ℕ) (cells : List Place) (s : Compaction)
    (entries : List (ℕ × ℕ × ℕ)) : Prop where
  mask_length : s.mask.length = bytes
  mask_lt : ∀ b ∈ s.mask, b < 2 ^ 8
  bits : ∀ index, bitAt s.mask index = true ↔
    ∃ p ∈ filled cells, p.1.1 * columns + p.1.2 = index
  matrix : s.simpleCells.Represents entries
  places : entries.map (fun e => (e.1, e.2.1)) = (filled cells).map Prod.fst
  words : ∀ e ∈ entries, e.2.1 < 2 ^ 32 ∧ e.2.2 < 2 ^ 32

/-- The complex cells and the sets of rules after some cells. -/
structure PackedRules (cells : List Place) (s : Compaction) (holders : Multiset (ℕ × Finset ℕ)) :
    Prop where
  wellFormed : s.ruleIndexStorage.WellFormed
  owned : s.ruleIndexStorage.Owned holders
  complex_lt : ∀ c ∈ s.complexCells, c.shiftGoto < 2 ^ 32 ∧ c.rulesIndex < 2 ^ 32
  complex_length : s.complexCells.length ≤ (filled cells).length
  items_length : s.ruleIndexStorage.items.length ≤ references cells
  items_le : ∀ i ∈ s.ruleIndexStorage.items, i ≤ maxIndex
  sets_length : 2 * s.ruleIndexStorage.itemSets.length ≤ 2 + references cells
  sets_size : s.ruleIndexStorage.totalSetsSize ≤ references cells

/-- The invariant of the loops. -/
structure Packed (columns bytes : ℕ) (cells : List Place) (s : Compaction)
    (entries : List (ℕ × ℕ × ℕ)) (holders : Multiset (ℕ × Finset ℕ)) : Prop where
  packedCells : PackedCells columns bytes cells s entries
  packedRules : PackedRules cells s holders
  encodes : ∀ p ∈ filled cells, ∃ value, (p.1.1, p.1.2, value) ∈ entries ∧
    Encodes s.complexCells holders p.2 value

theorem checkIndexOverflow_of_le {index : ℕ} (h : index ≤ maxIndex) :
    checkIndexOverflow index = some () := if_neg (by omega)

theorem maxIndex_eq : maxIndex = 2 ^ 31 - 1 := by decide

theorem mapM_getRuleIndex {rules : List ℕ} (h : ∀ rule ∈ rules, rule ≤ maxIndex) :
    rules.mapM getRuleIndex = some rules := by
  have hmax := maxIndex_eq
  have hone : ∀ rule ≤ maxIndex, getRuleIndex rule = some rule := by
    intro rule hrule
    simp [getRuleIndex, checkIndexOverflow_of_le hrule, ui32_of_lt (show rule < 2 ^ 32 by omega)]
  induction rules with
  | nil => rfl
  | cons rule rules ih =>
    rw [List.mapM_cons, hone rule (h rule List.mem_cons_self),
      ih fun other hother => h other (List.mem_cons_of_mem _ hother)]
    rfl

theorem index_lt {b : CompactStorageBuilder ℕ} {index : ℕ} {items : Finset ℕ}
    (h : b.Denotes index items) (hitems : 2 * b.items.length < 2 ^ 32)
    (hsets : 2 * b.itemSets.length + 1 < 2 ^ 32) : index < 2 ^ 32 := by
  have hvalid := h.valid
  by_cases hsingle : CompactStorageBuilder.isSingleItem index = true
  · rw [if_pos hsingle] at hvalid
    omega
  · rw [if_neg hsingle] at hvalid
    obtain ⟨set, hset⟩ := Option.isSome_iff_exists.mp hvalid
    rw [CompactStorageBuilder.slotItems, Option.map_eq_some_iff] at hset
    obtain ⟨_, hslot, -⟩ := hset
    have := (List.getElem?_eq_some_iff.mp hslot).1
    omega

theorem filled_append (cells : List Place) (p : Place) :
    filled (cells ++ [p]) = if p.2.isEmpty then filled cells else filled cells ++ [p] := by
  rw [filled, List.filter_append]
  cases hp : p.2.isEmpty with
  | true => simp [hp, filled]
  | false => simp [hp, filled]

theorem references_append (cells : List Place) (p : Place) :
    references (cells ++ [p]) = references cells + p.2.reduceRules.length := by
  simp [references]

theorem references_of_isEmpty {cell : SlrCell} (h : cell.isEmpty = true) :
    cell.reduceRules.length = 0 := by
  simp only [SlrCell.isEmpty, Bool.and_eq_true, List.isEmpty_iff] at h
  rw [h.2, List.length_nil]

/-- What a cell must be to come next. -/
structure Fitting (columns bytes : ℕ) (cells : List Place) (p : Place) : Prop where
  after : ∀ q ∈ cells, q.1.1 < p.1.1 ∨ q.1.1 = p.1.1 ∧ q.1.2 < p.1.2
  row_lt : p.1.1 + 1 < 2 ^ 32
  column_lt : p.1.2 < 2 ^ 32
  bit_lt : p.1.1 * columns + p.1.2 < 8 * bytes
  rules_le : ∀ rule ∈ p.2.reduceRules, rule ≤ maxIndex
  filled_le : (filled (cells ++ [p])).length ≤ maxIndex
  references_le : references (cells ++ [p]) ≤ maxIndex

/-- A filled cell sets its bit and enters its word. -/
theorem PackedCells.fill {columns bytes : ℕ} {cells : List Place} {s s' : Compaction}
    {entries : List (ℕ × ℕ × ℕ)} (h : PackedCells columns bytes cells s entries) {p : Place}
    (hp : Fitting columns bytes cells p) (hfilled : p.2.isEmpty = false) {value : ℕ}
    (hvalue : value < 2 ^ 32) (hmask : s'.mask = setBit s.mask (p.1.1 * columns + p.1.2))
    (hmatrix : s'.simpleCells = s.simpleCells.add (ui32 p.1.1) (ui32 p.1.2) value) :
    PackedCells columns bytes (cells ++ [p]) s' (entries ++ [(p.1.1, p.1.2, value)]) := by
  have happend : filled (cells ++ [p]) = filled cells ++ [p] := by
    rw [filled_append, hfilled]
    rfl
  have hrow := hp.row_lt
  have hmax := maxIndex_eq
  have hlength : entries.length + 1 ≤ maxIndex := by
    have hcount := hp.filled_le
    have hplaces := congrArg List.length h.places
    rw [happend, List.length_append, List.length_singleton] at hcount
    rw [List.length_map, List.length_map] at hplaces
    omega
  constructor
  · rw [hmask, length_setBit, h.mask_length]
  · rw [hmask]
    exact setBit_lt h.mask_lt
  · intro index
    rw [hmask, bitAt_setBit (by rw [h.mask_length]; exact hp.bit_lt), Bool.or_eq_true, h.bits index,
      decide_eq_true_eq, happend]
    simp only [List.mem_append, List.mem_singleton, or_and_right, exists_or, exists_eq_left]
  · rw [hmatrix, ui32_of_lt (by omega), ui32_of_lt hp.column_lt]
    apply h.matrix.add
    · intro e he
      have hmem : (e.1, e.2.1) ∈ (filled cells).map Prod.fst := by
        rw [← h.places]
        exact List.mem_map_of_mem he
      obtain ⟨q, hq, heq⟩ := List.mem_map.mp hmem
      have := hp.after q (List.mem_of_mem_filter hq)
      rw [heq] at this
      exact this
    · exact hrow
    · omega
  · rw [happend, List.map_append, List.map_append, h.places]
    rfl
  · intro e he
    rcases List.mem_append.mp he with he | he
    · exact h.words e he
    · rw [List.mem_singleton.mp he]
      exact ⟨hp.column_lt, hvalue⟩

/-- An empty cell changes nothing. -/
theorem Packed.skip {columns bytes : ℕ} {cells : List Place} {s : Compaction}
    {entries : List (ℕ × ℕ × ℕ)} {holders : Multiset (ℕ × Finset ℕ)}
    (h : Packed columns bytes cells s entries holders) {p : Place} (hp : p.2.isEmpty = true) :
    Packed columns bytes (cells ++ [p]) s entries holders := by
  have hfilled : filled (cells ++ [p]) = filled cells := by rw [filled_append, if_pos hp]
  have hreferences : references (cells ++ [p]) = references cells := by
    rw [references_append, references_of_isEmpty hp, Nat.add_zero]
  obtain ⟨hcells, hrules, hencodes⟩ := h
  constructor
  · constructor
    · exact hcells.mask_length
    · exact hcells.mask_lt
    · rw [hfilled]
      exact hcells.bits
    · exact hcells.matrix
    · rw [hfilled]
      exact hcells.places
    · exact hcells.words
  · constructor
    · exact hrules.wellFormed
    · exact hrules.owned
    · exact hrules.complex_lt
    · rw [hfilled]
      exact hrules.complex_length
    · rw [hreferences]
      exact hrules.items_length
    · exact hrules.items_le
    · rw [hreferences]
      exact hrules.sets_length
    · rw [hreferences]
      exact hrules.sets_size
  · rw [hfilled]
    exact hencodes

/-- A cell whose only action is one rule goes into the matrix as it is. -/
theorem Packed.simple {columns bytes : ℕ} {cells : List Place} {s : Compaction}
    {entries : List (ℕ × ℕ × ℕ)} {holders : Multiset (ℕ × Finset ℕ)}
    (h : Packed columns bytes cells s entries holders) {row column rule : ℕ}
    (hp : Fitting columns bytes cells ((row, column), ⟨false, none, [rule]⟩)) :
    Packed columns bytes (cells ++ [((row, column), ⟨false, none, [rule]⟩)])
      { s with mask := setBit s.mask (row * columns + column),
               simpleCells := s.simpleCells.add (ui32 row) (ui32 column) (ui32 (rule <<< 1)) }
      (entries ++ [(row, column, 2 * rule)]) holders := by
  have hmax := maxIndex_eq
  have hrule : rule ≤ maxIndex := hp.rules_le rule List.mem_cons_self
  have hword : ui32 (rule <<< 1) = 2 * rule := by
    rw [Nat.shiftLeft_eq, ui32_of_lt (by omega)]
    omega
  have happend : filled (cells ++ [((row, column), ⟨false, none, [rule]⟩)]) =
      filled cells ++ [((row, column), ⟨false, none, [rule]⟩)] := filled_append _ _
  have hreferences := references_append cells ((row, column), ⟨false, none, [rule]⟩)
  simp only [List.length_singleton] at hreferences
  obtain ⟨hcells, hrules, hencodes⟩ := h
  refine ⟨hcells.fill hp rfl (by omega) rfl (by rw [hword]), ?_, ?_⟩
  · constructor
    · exact hrules.wellFormed
    · exact hrules.owned
    · exact hrules.complex_lt
    · rw [happend, List.length_append]
      exact le_trans hrules.complex_length (Nat.le_add_right _ _)
    · rw [hreferences]
      exact le_trans hrules.items_length (Nat.le_add_right _ _)
    · exact hrules.items_le
    · rw [hreferences]
      exact le_trans hrules.sets_length (by omega)
    · rw [hreferences]
      exact le_trans hrules.sets_size (Nat.le_add_right _ _)
  · intro q hq
    rw [happend] at hq
    rcases List.mem_append.mp hq with hq | hq
    · obtain ⟨value, hmem, hencodes'⟩ := hencodes q hq
      exact ⟨value, List.mem_append_left _ hmem, hencodes'⟩
    · rw [List.mem_singleton.mp hq]
      exact ⟨2 * rule, by simp, .simple rule rfl rfl⟩

/-- Any other cell is a complex one, and its set of rules goes into the storage. -/
theorem Packed.complex {columns bytes : ℕ} {cells : List Place} {s : Compaction}
    {entries : List (ℕ × ℕ × ℕ)} {holders : Multiset (ℕ × Finset ℕ)} (hash : List ℕ → ℕ)
    (h : Packed columns bytes cells s entries holders) {row column : ℕ} {cell : SlrCell}
    (hp : Fitting columns bytes cells ((row, column), cell)) (hfilled : cell.isEmpty = false) :
    let r := s.ruleIndexStorage.addRange hash true cell.reduceRules
    Packed columns bytes (cells ++ [((row, column), cell)])
      { mask := setBit s.mask (row * columns + column),
        ruleIndexStorage := r.1,
        simpleCells := s.simpleCells.add (ui32 row) (ui32 column)
          (ui32 ((s.complexCells.length <<< 1) + 1)),
        complexCells := s.complexCells ++
          [CompactCell.make cell.shift cell.gotoLine (ui32 r.2)] }
      (entries ++ [(row, column, 2 * s.complexCells.length + 1)])
      ((r.2, cell.reduceRules.toFinset) ::ₘ holders) := by
  have hmax := maxIndex_eq
  have happend : filled (cells ++ [((row, column), cell)]) = filled cells ++
    [((row, column), cell)] := by
    rw [filled_append]
    exact if_neg (by simp [hfilled])
  have hreferences := references_append cells ((row, column), cell)
  simp only at hreferences
  have hle := hp.references_le
  have hcount := hp.filled_le
  rw [happend, List.length_append, List.length_singleton] at hcount
  obtain ⟨hcells, hrules, hencodes⟩ := h
  have hcomplex := hrules.complex_length
  have hword : ui32 ((s.complexCells.length <<< 1) + 1) = 2 * s.complexCells.length + 1 := by
    rw [Nat.shiftLeft_eq, ui32_of_lt (by omega)]
    omega
  obtain ⟨hwell, howned⟩ := @CompactStorageBuilder.addRange_spec _ _ hash true _ _ hrules.wellFormed
    hrules.owned cell.reduceRules
  obtain ⟨hitems, hsets, hsize, hmem⟩ := @CompactStorageBuilder.addRange_growth _ _ hash true
    s.ruleIndexStorage cell.reduceRules
  have hitems' := hrules.items_length
  have hsets' := hrules.sets_length
  have hsize' := hrules.sets_size
  intro r
  have hindex : r.2 < 2 ^ 32 := by
    apply index_lt (howned.denotes _ (Multiset.mem_cons_self _ _))
    · omega
    · omega
  refine ⟨hcells.fill hp hfilled (by omega) rfl (by rw [hword]), ?_, ?_⟩
  · constructor
    · exact hwell
    · exact howned
    · intro c hc
      rcases List.mem_append.mp hc with hc | hc
      · exact hrules.complex_lt c hc
      · rw [List.mem_singleton.mp hc]
        exact ⟨CompactCell.make_shiftGoto_lt _ _ _, ui32_lt _⟩
    · rw [happend, List.length_append, List.length_append]
      exact Nat.add_le_add_right hcomplex 1
    · rw [hreferences]
      exact le_trans hitems (Nat.add_le_add_right hitems' _)
    · intro i hi
      rcases hmem i hi with hi | hi
      · exact hrules.items_le i hi
      · exact hp.rules_le i hi
    · rw [hreferences]
      exact le_trans hsets (by omega)
    · rw [hreferences]
      exact le_trans hsize (Nat.add_le_add_right hsize' _)
  · intro q hq
    rw [happend] at hq
    rcases List.mem_append.mp hq with hq | hq
    · obtain ⟨value, hmem, hencodes'⟩ := hencodes q hq
      exact ⟨value, List.mem_append_left _ hmem, hencodes'.mono _⟩
    · rw [List.mem_singleton.mp hq]
      refine ⟨2 * s.complexCells.length + 1, by simp, ?_⟩
      refine .complex s.complexCells.length r.2 rfl ?_ (Multiset.mem_cons_self _ _)
      rw [List.getElem?_append_right (Nat.le_refl _), Nat.sub_self, ui32_of_lt hindex]
      rfl

theorem compactCell_packed {columns bytes : ℕ} {cells : List Place} {s : Compaction}
    {entries : List (ℕ × ℕ × ℕ)} {holders : Multiset (ℕ × Finset ℕ)} (hash : List ℕ → ℕ)
    (h : Packed columns bytes cells s entries holders) {p : Place}
    (hp : Fitting columns bytes cells p) :
    ∃ s' entries' holders', compactCell hash columns s p = some s' ∧
      Packed columns bytes (cells ++ [p]) s' entries' holders' := by
  obtain ⟨⟨row, column⟩, cell⟩ := p
  cases hempty : cell.isEmpty with
  | true =>
    refine ⟨s, entries, holders, ?_, h.skip hempty⟩
    rw [compactCell, if_pos hempty]
  | false =>
    rw [compactCell, if_neg (by simp [hempty])]
    split
    · rename_i rule hrules haction
      obtain ⟨shift, gotoLine, reduceRules⟩ := cell
      simp only [Bool.and_eq_true, Bool.not_eq_true', Option.isNone_iff_eq_none] at hrules haction
      obtain ⟨rfl, rfl⟩ := haction
      subst hrules
      have hle := hp.rules_le rule List.mem_cons_self
      have hmax := maxIndex_eq
      have hindex : getRuleIndex rule = some rule := by
        simp [getRuleIndex, checkIndexOverflow_of_le hle, ui32_of_lt (show rule < 2 ^ 32 by omega)]
      rw [hindex]
      exact ⟨_, _, _, rfl, h.simple hp⟩
    · rw [mapM_getRuleIndex hp.rules_le]
      exact ⟨_, _, _, rfl, h.complex hash hp hempty⟩

theorem foldlM_packed {columns bytes : ℕ} (hash : List ℕ → ℕ) (rest : List Place)
    {cells : List Place}
    {s : Compaction} {entries : List (ℕ × ℕ × ℕ)} {holders : Multiset (ℕ × Finset ℕ)}
    (h : Packed columns bytes cells s entries holders)
    (hfit : ∀ front p back, rest = front ++ p :: back →
      Fitting columns bytes (cells ++ front) p) :
    ∃ s' entries' holders', rest.foldlM (compactCell hash columns) s = some s' ∧
      Packed columns bytes (cells ++ rest) s' entries' holders' := by
  induction rest generalizing cells s entries holders with
  | nil =>
    refine ⟨s, entries, holders, rfl, ?_⟩
    rwa [List.append_nil]
  | cons p rest ih =>
    have hp := hfit [] p rest rfl
    rw [List.append_nil] at hp
    obtain ⟨s', entries', holders', hcell, hpacked⟩ := compactCell_packed hash h hp
    obtain ⟨s'', entries'', holders'', hrun, hpacked'⟩ := ih hpacked (by
      intro front q back hrest
      have := hfit (p :: front) q back (by rw [hrest]; rfl)
      rwa [List.append_assoc])
    refine ⟨s'', entries'', holders'', ?_, ?_⟩
    · rw [List.foldlM_cons, hcell]
      exact hrun
    · rwa [List.append_assoc] at hpacked'

theorem mem_places_iff {lines : List (List SlrCell)} {row column : ℕ} {cell : SlrCell} :
    ((row, column), cell) ∈ places lines ↔
      ∃ cells, lines[row]? = some cells ∧ cells[column]? = some cell := by
  simp only [places, List.mem_flatMap, List.mem_map, Prod.mk.injEq, Prod.exists,
    List.mem_zipIdx_iff_getElem?]
  constructor
  · rintro ⟨line, i, hline, c, j, hcell, ⟨rfl, rfl⟩, rfl⟩
    exact ⟨line, hline, hcell⟩
  · rintro ⟨line, hline, hcell⟩
    exact ⟨line, row, hline, cell, column, hcell, ⟨rfl, rfl⟩, rfl⟩

theorem zipIdx_ordered {α : Type} (xs : List α) : xs.zipIdx.Pairwise fun a b => a.2 < b.2 := by
  rw [List.pairwise_iff_getElem]
  intro i j hi hj hij
  simpa using hij

theorem places_ordered (lines : List (List SlrCell)) :
    (places lines).Pairwise fun p q => p.1.1 < q.1.1 ∨ p.1.1 = q.1.1 ∧ p.1.2 < q.1.2 := by
  rw [places, List.pairwise_flatMap]
  constructor
  · intro line _
    rw [List.pairwise_map]
    apply (zipIdx_ordered line.1).imp
    intro a b hab
    exact .inr ⟨rfl, hab⟩
  · apply (zipIdx_ordered lines).imp
    intro a b hab p hp q hq
    obtain ⟨_, _, rfl⟩ := List.mem_map.mp hp
    obtain ⟨_, _, rfl⟩ := List.mem_map.mp hq
    exact .inl hab

theorem filled_length_le {cells front back : List Place} (h : cells = front ++ back) :
    (filled front).length ≤ (filled cells).length := by
  rw [h, filled, filled, List.filter_append, List.length_append]
  exact Nat.le_add_right _ _

theorem references_le {cells front back : List Place} (h : cells = front ++ back) :
    references front ≤ references cells := by
  rw [h, references, references, List.map_append, List.sum_append]
  exact Nat.le_add_right _ _

/-- A raw table as it is built: lines of one length, rules that are there, goto lines below the
reserved one, and counts that fit into the words of the compact table. -/
structure Fits {Agr : Type} (T : GlrTable Agr) (columns : ℕ) : Prop where
  columns_pos : 0 < columns
  rectangular : ∀ line ∈ T.rows, line.length = columns
  gotoLine_lt : ∀ line ∈ T.rows, ∀ cell ∈ line, ∀ goto ∈ cell.gotoLine, goto < 2 ^ 31 - 1
  rules_lt : ∀ line ∈ T.rows, ∀ cell ∈ line, ∀ rule ∈ cell.reduceRules, rule < T.ruleInfos.length
  ruleInfos_le : T.ruleInfos.length ≤ maxIndex + 1
  filled_le : (filled (places T.rows)).length ≤ maxIndex
  references_le : references (places T.rows) ≤ maxIndex
  rows_lt : T.rows.length + 1 < 2 ^ 32
  columns_lt : columns < 2 ^ 32
  mask_lt : (T.rows.length * columns - 1) / 8 + 1 < 2 ^ 32

/-- A compact table answers as the raw one. The word of an empty cell is never asked for. -/
structure Represents {Agr : Type} (t : CompactTable Agr) (T : GlrTable Agr) : Prop where
  ruleInfos : t.ruleInfos = T.ruleInfos
  empty : ∀ row column cells cell, T.rows[row]? = some cells → cells[column]? = some cell →
    t.isEmptyCell row column = cell.isEmpty
  filled : ∀ row column cells cell, T.rows[row]? = some cells → cells[column]? = some cell →
    cell.isEmpty = false → ∃ encoded, t.getEncodedCell row column = some encoded ∧
      t.getGotoLine encoded = cell.gotoLine ∧
      (t.cellRules encoded).toFinset = cell.reduceRules.toFinset

theorem Fits.fitting {Agr : Type} {T : GlrTable Agr} {columns : ℕ} (h : Fits T columns)
    {front back : List Place} {p : Place} (hplaces : places T.rows = front ++ p :: back) :
    Fitting columns ((T.rows.length * columns - 1) / 8 + 1) front p := by
  have hmem : p ∈ places T.rows := by rw [hplaces]; simp
  obtain ⟨⟨row, column⟩, cell⟩ := p
  obtain ⟨line, hline, hcell⟩ := mem_places_iff.mp hmem
  have hline' := List.mem_of_getElem? hline
  have hcell' := List.mem_of_getElem? hcell
  have hrow := (List.getElem?_eq_some_iff.mp hline).1
  have hcolumn := (List.getElem?_eq_some_iff.mp hcell).1
  rw [h.rectangular line hline'] at hcolumn
  have hrows := h.rows_lt
  have hcolumns := h.columns_lt
  have hsplit : places T.rows = (front ++ [((row, column), cell)]) ++ back := by
    rw [hplaces, List.append_assoc]
    rfl
  constructor
  · intro q hq
    have hordered := places_ordered T.rows
    rw [hplaces, List.pairwise_append] at hordered
    exact hordered.2.2 q hq _ List.mem_cons_self
  · simp only
    omega
  · simp only
    omega
  · simp only
    have hlt : row * columns + column < T.rows.length * columns := by
      calc row * columns + column < row * columns + columns := Nat.add_lt_add_left hcolumn _
        _ = (row + 1) * columns := by rw [Nat.add_mul, Nat.one_mul]
        _ ≤ T.rows.length * columns := Nat.mul_le_mul_right _ hrow
    omega
  · intro rule hrule
    have := h.rules_lt line hline' cell hcell' rule hrule
    have := h.ruleInfos_le
    omega
  · exact le_trans (filled_length_le hsplit) h.filled_le
  · exact le_trans (CompactTable.references_le hsplit) h.references_le

theorem start_packed (columns bytes : ℕ) (hash : List ℕ → ℕ) :
    Packed columns bytes []
      ⟨List.replicate bytes 0, {}, [], CompactStorageBuilder.create hash true⟩ [] 0 := by
  obtain ⟨hitems, hsets, htotal⟩ := @CompactStorageBuilder.create_growth ℕ _ hash true
  have hzero : ∀ b ∈ List.replicate bytes 0, b = 0 := fun b hb => (List.mem_replicate.mp hb).2
  refine ⟨⟨List.length_replicate, ?_, ?_, represents_nil, rfl, by simp⟩,
    ⟨?_, ?_, by simp, ?_, ?_, ?_,
    ?_, ?_⟩, by simp [filled]⟩
  · intro b hb
    rw [hzero b hb]
    decide
  · intro index
    simp [bitAt, filled]
  · exact CompactStorageBuilder.create_wellFormed hash true
  · constructor
    · simp
    · simp
  · exact Nat.zero_le _
  · simp only [hitems]
    exact Nat.zero_le _
  · simp [hitems]
  · simp only
    omega
  · simp only [htotal]
    exact Nat.zero_le _

theorem protectedSize_valid {n : ℕ} (h : n < 2 ^ 32) : protectedSize.valid n :=
  ⟨Codec.hashed_valid h, decide_eq_true (by omega)⟩

theorem protectedList_valid {α : Type} {a : Codec α} {xs : List α} (hlength : xs.length < 2 ^ 32)
    (h : ∀ x ∈ xs, a.valid x) : (protectedList a).valid xs :=
  ⟨protectedSize_valid hlength, hlength, h⟩

theorem PackedCells.entries_length {columns bytes : ℕ} {cells : List Place} {s : Compaction}
    {entries : List (ℕ × ℕ × ℕ)} (h : PackedCells columns bytes cells s entries) :
    entries.length = (filled cells).length := by
  have := congrArg List.length h.places
  rwa [List.length_map, List.length_map] at this

/-- The matrix is saved as it is. -/
theorem PackedCells.matrix_valid {columns bytes rows : ℕ} {cells : List Place} {s : Compaction}
    {entries : List (ℕ × ℕ × ℕ)} (h : PackedCells columns bytes cells s entries)
    (hcount : (filled cells).length ≤ maxIndex) (hrows : rows + 1 < 2 ^ 32)
    (hcells : ∀ p ∈ cells, p.1.1 < rows) : SparseMatrix.codec.valid s.simpleCells := by
  have hmax := maxIndex_eq
  have hlength := h.entries_length
  have hentries : ∀ e ∈ entries, e.1 < rows := by
    intro e he
    have hmem : (e.1, e.2.1) ∈ (filled cells).map Prod.fst := by
      rw [← h.places]
      exact List.mem_map_of_mem he
    obtain ⟨q, hq, heq⟩ := List.mem_map.mp hmem
    have := hcells q (List.mem_of_mem_filter hq)
    rwa [heq] at this
  have hrowCount := rowCount_le hentries
  refine ⟨protectedList_valid ?_ ?_, protectedList_valid ?_ ?_, protectedList_valid ?_ ?_⟩
  · simp only [h.matrix.values, List.length_map]
    omega
  · intro value hvalue
    simp only [h.matrix.values] at hvalue
    obtain ⟨e, he, rfl⟩ := List.mem_map.mp hvalue
    exact (h.words e he).2
  · simp only [h.matrix.rows, List.length_map, List.length_range]
    omega
  · intro first hfirst
    simp only [h.matrix.rows] at hfirst
    obtain ⟨row, _, rfl⟩ := List.mem_map.mp hfirst
    have hle : entriesBefore entries row ≤ entries.length := List.countP_le_length
    show entriesBefore entries row < 2 ^ 32
    omega
  · simp only [h.matrix.columns, List.length_map]
    omega
  · intro column hcolumn
    simp only [h.matrix.columns] at hcolumn
    obtain ⟨e, he, rfl⟩ := List.mem_map.mp hcolumn
    exact (h.words e he).1

theorem codec_valid {Agr : Type} {agreement : Codec Agr} {t : CompactTable Agr}
    (hrows : t.rows < 2 ^ 32) (hcolumns : t.columns < 2 ^ 32)
    (hinfos : t.ruleInfos.length < 2 ^ 32)
    (hinfo : ∀ I ∈ t.ruleInfos, (RuleInfo.codec agreement).valid I)
    (hmask : t.mask.length < 2 ^ 32) (hbytes : ∀ b ∈ t.mask, b < 2 ^ 8)
    (hcells : SparseMatrix.codec.valid t.simpleCells) (hcomplex : t.complexCells.length < 2 ^ 32)
    (hwords : ∀ c ∈ t.complexCells, c.shiftGoto < 2 ^ 32 ∧ c.rulesIndex < 2 ^ 32)
    (hstorage : CompactStorage.codec.valid t.ruleIndexStorage) :
    (CompactTable.codec agreement).valid t :=
  ⟨protectedSize_valid hrows, protectedSize_valid hcolumns, protectedList_valid hinfos hinfo,
    protectedList_valid hmask hbytes, hcells, protectedList_valid hcomplex hwords, hstorage⟩

/-- The word of a cell is read back. -/
theorem Encodes.read {Agr : Type} {t : CompactTable Agr} {b : CompactStorageBuilder ℕ}
    {holders : Multiset (ℕ × Finset ℕ)} {cell : SlrCell} {value : ℕ}
    (h : Encodes t.complexCells holders cell value) (howned : b.Owned holders)
    (hget : ∀ index items, b.Denotes index items →
      ∀ i, i ∈ t.ruleIndexStorage.get index ↔ i ∈ items)
    (hgoto : ∀ goto ∈ cell.gotoLine, goto < 2 ^ 31 - 1) :
    t.getGotoLine value = cell.gotoLine ∧
      (t.cellRules value).toFinset = cell.reduceRules.toFinset := by
  cases h with
  | simple rule hcell hvalue =>
    have hsimple : isSimpleCell value = true := by
      rw [isSimpleCell, Nat.and_one_is_mod, hvalue, Nat.mul_mod_right]
      rfl
    have hdecode : decodeIndex value = rule := by
      rw [decodeIndex, Nat.shiftRight_eq_div_pow, hvalue]
      omega
    rw [getGotoLine, cellRules, if_pos hsimple, if_pos hsimple, getSimpleCellRule, hdecode, hcell]
    exact ⟨rfl, rfl⟩
  | complex k index hvalue hcell hholder =>
    have hsimple : isSimpleCell value = false := by
      rw [isSimpleCell, Nat.and_one_is_mod, hvalue, beq_eq_false_iff_ne]
      omega
    have hdecode : decodeIndex value = k := by
      rw [decodeIndex, Nat.shiftRight_eq_div_pow, hvalue]
      omega
    rw [getGotoLine, cellRules, hsimple, iterComplexCellRules, hdecode, hcell]
    simp only [Bool.false_eq_true, if_false, Option.bind_some]
    refine ⟨CompactCell.make_gotoLine _ _ hgoto, ?_⟩
    ext i
    rw [List.mem_toFinset]
    exact hget index _ (howned.denotes _ hholder) i

theorem storage_valid_empty : CompactStorage.codec.valid {} := by
  have hempty : (Codec.list Codec.word).valid [] := ⟨by decide, by simp⟩
  exact ⟨⟨hempty, hempty, hempty⟩, rfl⟩

theorem matrix_valid_empty : SparseMatrix.codec.valid {} := by
  have hempty : (protectedList Codec.word).valid [] := protectedList_valid (by decide) (by simp)
  refine ⟨hempty, protectedList_valid (by decide) ?_, hempty⟩
  intro first hfirst
  rw [List.mem_singleton.mp hfirst]
  show 0 < 2 ^ 32
  decide

theorem place_unique {columns row column row' column' : ℕ} (hcolumn : column < columns)
    (hcolumn' : column' < columns) (h : row' * columns + column' = row * columns + column) :
    row = row' ∧ column = column' := by
  have hdiv := congrArg (· / columns) h
  have hmod := congrArg (· % columns) h
  have hpos : 0 < columns := by omega
  simp only [Nat.mul_comm _ columns, Nat.mul_add_div hpos, Nat.div_eq_of_lt hcolumn,
    Nat.div_eq_of_lt hcolumn', Nat.add_zero] at hdiv
  simp only [Nat.mul_comm _ columns, Nat.mul_add_mod, Nat.mod_eq_of_lt hcolumn,
    Nat.mod_eq_of_lt hcolumn'] at hmod
  exact ⟨hdiv.symm, hmod.symm⟩

/-- A raw table that fits is compacted, the compact table answers as the raw one, and it can be
saved. -/
theorem compact_spec {Agr : Type} (hash : List ℕ → ℕ) {T : GlrTable Agr} {columns : ℕ}
    (h : Fits T columns) : ∃ t, compact hash T = some t ∧ t.Represents T ∧
      ∀ agreement : Codec Agr, (∀ I ∈ T.ruleInfos, (RuleInfo.codec agreement).valid I) →
        (codec agreement).valid t := by
  have hmax := maxIndex_eq
  have hinfos : T.ruleInfos.length < 2 ^ 32 := by
    have := h.ruleInfos_le
    omega
  cases hrows : T.rows with
  | nil =>
    refine ⟨{ ruleInfos := T.ruleInfos }, by rw [compact, hrows], ⟨rfl, ?_, ?_⟩, ?_⟩
    · intro row column line cell hline
      simp [hrows] at hline
    · intro row column line cell hline
      simp [hrows] at hline
    · intro agreement hinfo
      have hzero : 0 < 2 ^ 32 := by decide
      exact codec_valid hzero hzero hinfos hinfo hzero (by simp) matrix_valid_empty hzero (by simp)
        storage_valid_empty
  | cons line lines =>
    have hcolumns : line.length = columns := h.rectangular line (by rw [hrows]; simp)
    obtain ⟨s, entries, holders, hrun, hpacked⟩ := foldlM_packed hash (places T.rows)
      (start_packed columns ((T.rows.length * columns - 1) / 8 + 1) hash)
      (fun front p back hsplit => h.fitting hsplit)
    rw [List.nil_append] at hpacked
    obtain ⟨hcells, hrules, hencodes⟩ := hpacked
    have hreferences := h.references_le
    have hfilled := h.filled_le
    have hitems := hrules.items_length
    have hsets := hrules.sets_length
    have hsize := hrules.sets_size
    have hcomplex := hrules.complex_length
    obtain ⟨storage, hsaved, hvalid, hget⟩ := CompactStorageBuilder.toStorage_spec hrules.wellFormed
      (by omega) (by omega) (by omega) (by
        intro i hi
        have := hrules.items_le i hi
        omega)
    obtain ⟨bytes, hsave, hload⟩ := CompactStorage.codec.load_save storage hvalid
    have hload' := hload []
    rw [List.append_nil] at hload'
    refine ⟨⟨T.ruleInfos, T.rows.length, columns, s.mask, s.simpleCells, s.complexCells, storage⟩,
      ?_, ⟨rfl, ?_, ?_⟩, ?_⟩
    · unfold compact
      split
      · rename_i hnil
        rw [hrows] at hnil
        cases hnil
      · rename_i first others hcons
        rw [hrows] at hcons
        cases hcons
        simp only [hcolumns, hrun, Option.bind_eq_bind, Option.bind_some, hsaved, hsave, hload',
          checkIndexOverflow_of_le (le_trans hcomplex hfilled)]
        rfl
    · intro row column line cell hline hcell
      have hcolumn := (List.getElem?_eq_some_iff.mp hcell).1
      rw [h.rectangular line (List.mem_of_getElem? hline)] at hcolumn
      rw [isEmptyCell_eq]
      have hbit : bitAt s.mask (row * columns + column) = true ↔ cell.isEmpty = false := by
        rw [hcells.bits]
        constructor
        · rintro ⟨⟨⟨row', column'⟩, cell'⟩, hp, hplace⟩
          simp only [filled, List.mem_filter, Bool.not_eq_true'] at hp
          obtain ⟨line', hline', hcell'⟩ := mem_places_iff.mp hp.1
          have hcolumn' := (List.getElem?_eq_some_iff.mp hcell').1
          rw [h.rectangular line' (List.mem_of_getElem? hline')] at hcolumn'
          obtain ⟨rfl, rfl⟩ := place_unique hcolumn hcolumn' hplace
          rw [hline, Option.some.injEq] at hline'
          subst hline'
          rw [hcell, Option.some.injEq] at hcell'
          rw [hcell']
          exact hp.2
        · intro hempty
          refine ⟨((row, column), cell), ?_, rfl⟩
          simp only [filled, List.mem_filter, hempty, Bool.not_false, and_true]
          exact mem_places_iff.mpr ⟨line, hline, hcell⟩
      cases hempty : cell.isEmpty with
      | true =>
        rw [hempty] at hbit
        simpa using hbit
      | false => simpa using hbit.mpr hempty
    · intro row column line cell hline hcell hempty
      have hmem : ((row, column), cell) ∈ filled (places T.rows) := by
        simp only [filled, List.mem_filter, hempty, Bool.not_false, and_true]
        exact mem_places_iff.mpr ⟨line, hline, hcell⟩
      obtain ⟨value, hentry, hencoded⟩ := hencodes _ hmem
      have hrow := (List.getElem?_eq_some_iff.mp hline).1
      have hrowsLt := h.rows_lt
      refine ⟨value, hcells.matrix.get hentry (by omega), ?_⟩
      exact hencoded.read hrules.owned hget
        (h.gotoLine_lt line (List.mem_of_getElem? hline) cell (List.mem_of_getElem? hcell))
    · intro agreement hinfo
      have hrowsLt := h.rows_lt
      have hmask := h.mask_lt
      apply codec_valid (by simp only; omega) h.columns_lt hinfos hinfo
        (by simp only [hcells.mask_length]; exact hmask) hcells.mask_lt _ (by simp only; omega)
        hrules.complex_lt hvalid
      apply hcells.matrix_valid hfilled hrowsLt
      rintro ⟨⟨row, column⟩, cell⟩ hp
      obtain ⟨line, hline, -⟩ := mem_places_iff.mp hp
      exact (List.getElem?_eq_some_iff.mp hline).1

/-- Compaction loses nothing: for every cell the compact table, and the one that is loaded after it
was saved, answer as the raw table. -/
theorem compact_save_load {Agr : Type} (hash : List ℕ → ℕ) (agreement : Codec Agr)
    {T : GlrTable Agr} {columns : ℕ} (h : Fits T columns)
    (hinfo : ∀ I ∈ T.ruleInfos, (RuleInfo.codec agreement).valid I) :
    ∃ t bytes, compact hash T = some t ∧ t.Represents T ∧ (codec agreement).save t = some bytes ∧
      ∀ rest, ∃ loaded, (codec agreement).load (bytes ++ rest) = some (loaded, rest) ∧
        loaded.Represents T := by
  obtain ⟨t, hcompact, hrepresents, hvalid⟩ := compact_spec hash h
  obtain ⟨bytes, hsave, hload⟩ := (codec agreement).load_save t (hvalid agreement hinfo)
  refine ⟨t, bytes, hcompact, hrepresents, hsave, ?_⟩
  intro rest
  exact ⟨t, hload rest, hrepresents⟩

theorem ruleInfo_valid {Agr : Type} {agreement : Codec Agr} {I : RuleInfo Agr}
    (horiginal : I.originalRuleNo < 2 ^ 32) (hlength : I.ruleLength < 2 ^ 32)
    (hleft : I.leftPart < 2 ^ 32) (hmain : I.synMainItemNo < 2 ^ 32)
    (hcount : I.ruleAgreement.length < 2 ^ 32) (hagr : ∀ a ∈ I.ruleAgreement, agreement.valid a) :
    (RuleInfo.codec agreement).valid I :=
  ⟨horiginal, hlength, hleft, hmain, hcount, hagr⟩

/-- A table with an empty line in front, a shift, a goto, and two cells with the same two rules. -/
def sampleTable : GlrTable ℕ where
  ruleInfos := [⟨0, 2, 1, 0, []⟩, ⟨1, 1, 1, 0, [7]⟩]
  rows := [[{}, {}, {}],
    [{ shift := true, gotoLine := some 2 }, { reduceRules := [1] }, { reduceRules := [0, 1] }],
    [{ gotoLine := some 0, reduceRules := [1, 0] }, {}, { gotoLine := some 1 }]]

theorem sampleTable_save_load : ∃ t bytes, compact List.sum sampleTable = some t ∧
    t.Represents sampleTable ∧ (codec Codec.byte).save t = some bytes ∧
    ∀ rest, ∃ loaded, (codec Codec.byte).load (bytes ++ rest) = some (loaded, rest) ∧
      loaded.Represents sampleTable := by
  have hfits : Fits sampleTable 3 := by
    constructor <;> decide
  apply compact_save_load List.sum Codec.byte hfits
  intro I hI
  simp only [sampleTable, List.mem_cons, List.not_mem_nil, or_false] at hI
  obtain rfl | rfl := hI
  · apply ruleInfo_valid <;> simp
  · apply ruleInfo_valid <;> simp [Codec.byte]

end CompactTable
end TomitaParser
