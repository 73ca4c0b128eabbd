import TomitaParser.Glr.Compaction
import TomitaParser.Trie.RootSpans
/-! # Runs over the compact table

The parser reads the compact table, by its bits, its words and its store of rules. What it does over
the table that was compacted, saved and loaded is what it would do over the raw one. -/

set_option linter.unusedSectionVars false

namespace TomitaParser
open OrderedSet LoopRun TrieHolder

/-- The parser cannot tell the tables apart: shift flags are not read, and rules are inserted into a
set. -/
structure SameActions {Agr : Type*} (T T' : GlrTable Agr) : Prop where
  ruleInfos : T'.ruleInfos = T.ruleInfos
  gotoLine : ∀ row column, (T'.cell row column).gotoLine = (T.cell row column).gotoLine
  reduceRules : ∀ row column r,
    r ∈ (T'.cell row column).reduceRules ↔ r ∈ (T.cell row column).reduceRules

theorem PendingReduction.lt_total : Total PendingReduction.lt := by
  constructor
  · intro a
    simp [PendingReduction.lt]
  · intro a b c hab hbc
    unfold PendingReduction.lt at *
    split_ifs at * <;> simp only [decide_eq_true_eq] at * <;> omega
  · rintro ⟨s, v, r⟩ ⟨s', v', r'⟩ ⟨hab, hba⟩
    unfold PendingReduction.lt at *
    simp only [PendingReduction.mk.injEq]
    split_ifs at * <;> simp only [decide_eq_false_iff_not] at * <;> omega

section Runs
variable {σ Agr Item : Type*} [Inhabited Item]
variable {cfg : ParserConfig σ Agr Item} {T : GlrTable Agr}

theorem SameActions.ruleInfo (h : SameActions cfg.table T) (r : ℕ) :
    T.ruleInfo r = cfg.table.ruleInfo r := by
  rw [GlrTable.ruleInfo, h.ruleInfos, GlrTable.ruleInfo]

section Steps
variable (h : SameActions cfg.table T) (symbols : List ℕ)
include h

theorem actorSymbol_sameActions (v : ℕ) (p : GlrParser σ Item) (a : ℕ) :
    actorSymbol { cfg with table := T } v p a = actorSymbol cfg v p a := by
  have hset : insertAll PendingReduction.lt (reductionsFor
      (T.cell (p.stateNode v).stateNo a).reduceRules (p.stateNode v).symbolChildren v)
        p.pendingReductions = insertAll PendingReduction.lt (reductionsFor
          (cfg.table.cell (p.stateNode v).stateNo a).reduceRules (p.stateNode v).symbolChildren v)
            p.pendingReductions := by
    refine PendingReduction.lt_total.insertAll_congr (fun x => ?_) _
    rw [mem_reductionsFor, mem_reductionsFor, h.reduceRules]
  simp only [actorSymbol, h.gotoLine, hset]

theorem actor_sameActions (p : GlrParser σ Item) :
    actor { cfg with table := T } symbols p = actor cfg symbols p := by
  have hsymbol : actorSymbol { cfg with table := T } = actorSymbol cfg := by
    funext v p a
    exact actorSymbol_sameActions h v p a
  rw [actor, hsymbol, actor]

theorem enterItem_sameActions (f : FoundReduction) (item : Item) (leftPart gotoLine newNode : ℕ)
    (p : GlrParser σ Item) :
    enterItem { cfg with table := T } symbols f item leftPart gotoLine newNode p =
      enterItem cfg symbols f item leftPart gotoLine newNode p := by
  have hset : ∀ s reductions, insertAll PendingReduction.lt (symbols.flatMap fun a =>
      reductionsFor (T.cell gotoLine a).reduceRules [s] newNode) reductions =
        insertAll PendingReduction.lt (symbols.flatMap fun a =>
          reductionsFor (cfg.table.cell gotoLine a).reduceRules [s] newNode) reductions := by
    intro s reductions
    refine PendingReduction.lt_total.insertAll_congr (fun x => ?_) reductions
    simp only [List.mem_flatMap, mem_reductionsFor, h.reduceRules]
  unfold enterItem
  dsimp only
  rw [hset]
  rfl

theorem reduceOnePath_sameActions (reduceRule : ℕ) (path : List ℕ) (p : GlrParser σ Item) :
    reduceOnePath { cfg with table := T } symbols reduceRule path p =
      reduceOnePath cfg symbols reduceRule path p := by
  unfold reduceOnePath
  simp only [h.ruleInfo, h.gotoLine, enterItem_sameActions h]
  rfl

theorem reducer_sameActions (fuel : ℕ) (p : GlrParser σ Item) :
    reducer { cfg with table := T } fuel symbols p = reducer cfg fuel symbols p := by
  have hstep : ∀ reduceRule, dfsStep { cfg with table := T } symbols reduceRule =
      dfsStep cfg symbols reduceRule := by
    intro reduceRule
    funext s
    simp only [dfsStep, h.ruleInfo, reduceOnePath_sameActions h]
  simp only [reducer, hstep]

theorem parseSymbol_sameActions (fuel : ℕ) (start : Bool) (p : GlrParser σ Item) :
    parseSymbol { cfg with table := T } fuel symbols start p = parseSymbol cfg fuel symbols start p
    := by
  have hstep : closureStep { cfg with table := T } fuel symbols = closureStep cfg fuel symbols := by
    funext p
    simp only [closureStep, actor_sameActions h, reducer_sameActions h]
  rw [parseSymbol, hstep]
  rfl

end Steps

theorem parseWords_sameActions (h : SameActions cfg.table T) (endOfStream fuel : ℕ)
    (starts : List ℕ) (words : List (List ℕ)) : ∀ (wordNo : ℕ) (p : GlrParser σ Item),
      parseWords { cfg with table := T } endOfStream fuel starts wordNo words p =
        parseWords cfg endOfStream fuel starts wordNo words p := by
  induction words with
  | nil => exact fun _ _ => rfl
  | cons word words ih =>
    intro wordNo p
    simp only [parseWords, parseSymbol_sameActions h, ih]

end Runs

namespace CompactTable
variable {Agr : Type}

/-- What the parser reads of a cell. -/
def readCell (t : CompactTable Agr) (row column : ℕ) : SlrCell :=
  if t.isEmptyCell row column then {}
  else match t.getEncodedCell row column with
    | some encoded => { gotoLine := t.getGotoLine encoded, reduceRules := t.cellRules encoded }
    | none => {}

/-- The table that the parser sees. -/
def view (t : CompactTable Agr) : GlrTable Agr where
  ruleInfos := t.ruleInfos
  rows := (List.range t.rows).map fun row => (List.range t.columns).map fun column =>
    t.readCell row column

theorem view_cell (t : CompactTable Agr) (row column : ℕ) :
    t.view.cell row column =
      if row < t.rows ∧ column < t.columns then t.readCell row column else {} := by
  simp only [GlrTable.cell, view, List.getD_eq_getElem?_getD, List.getElem?_map]
  by_cases hrow : row < t.rows
  · by_cases hcolumn : column < t.columns
    · simp [hrow, hcolumn]
    · simp [hrow, hcolumn]
  · simp [hrow]

theorem cell_of_line {T : GlrTable Agr} {row column : ℕ} {row' : List SlrCell}
    (h : T.rows[row]? = some row') : T.cell row column = row'[column]?.getD {} := by
  rw [GlrTable.cell, List.getD_eq_getElem?_getD, List.getD_eq_getElem?_getD, h, Option.getD_some]

/-- A table that answers as the raw one has the same actions. -/
theorem Represents.sameActions {t : CompactTable Agr} {T : GlrTable Agr} (h : t.Represents T)
    (hrows : t.rows = T.rows.length) (hcolumns : ∀ line ∈ T.rows, line.length = t.columns) :
    SameActions T t.view := by
  have hcell : ∀ row column, (t.view.cell row column).gotoLine = (T.cell row column).gotoLine ∧
      ∀ r, r ∈ (t.view.cell row column).reduceRules ↔ r ∈ (T.cell row column).reduceRules := by
    intro row column
    rw [view_cell]
    by_cases hrow : row < T.rows.length
    · have hline : T.rows[row]? = some T.rows[row] := List.getElem?_eq_getElem hrow
      have hlength := hcolumns _ (List.getElem_mem hrow)
      by_cases hcolumn : column < t.columns
      · have hget : T.rows[row][column]? = some T.rows[row][column] :=
          List.getElem?_eq_getElem (hlength ▸ hcolumn)
        have hraw : T.cell row column = T.rows[row][column] := by
          rw [cell_of_line hline, hget, Option.getD_some]
        rw [if_pos ⟨hrows ▸ hrow, hcolumn⟩, readCell, h.empty _ _ _ _ hline hget, hraw]
        cases hempty : (T.rows[row][column]).isEmpty with
        | true =>
          simp only [SlrCell.isEmpty, Bool.and_eq_true, Option.isNone_iff_eq_none,
            List.isEmpty_iff] at hempty
          simp [hempty]
        | false =>
          obtain ⟨encoded, hencoded, hgoto, hrules⟩ := h.filled _ _ _ _ hline hget hempty
          rw [hencoded]
          refine ⟨hgoto, fun r => ?_⟩
          rw [← List.mem_toFinset, ← List.mem_toFinset]
          exact hrules ▸ Iff.rfl
      · have hnone : T.rows[row][column]? = none := List.getElem?_eq_none (by omega)
        have hraw : T.cell row column = {} := by
          rw [cell_of_line hline, hnone, Option.getD_none]
        rw [if_neg (by omega), hraw]
        exact ⟨rfl, fun _ => Iff.rfl⟩
    · have hnone : T.rows[row]? = none := List.getElem?_eq_none (by omega)
      have hraw : T.cell row column = {} := by
        rw [GlrTable.cell, @List.getD_eq_getElem?_getD _ T.rows, hnone, Option.getD_none,
          List.getD_nil]
      rw [if_neg (by omega), hraw]
      exact ⟨rfl, fun _ => Iff.rfl⟩
  exact ⟨h.ruleInfos, fun row column => (hcell row column).1,
    fun row column => (hcell row column).2⟩

theorem compact_size (hash : List ℕ → ℕ) {T : GlrTable Agr} {columns : ℕ} (hfits : Fits T columns)
    {t : CompactTable Agr} (h : compact hash T = some t) :
    t.rows = T.rows.length ∧ ∀ line ∈ T.rows, line.length = t.columns := by
  unfold compact at h
  cases hrows : T.rows with
  | nil =>
    rw [hrows] at h
    cases h
    exact ⟨rfl, fun line hline => absurd hline List.not_mem_nil⟩
  | cons line lines =>
    have hline : line.length = columns := hfits.rectangular line (by rw [hrows]; simp)
    rw [hrows] at h
    simp only [bind, Option.bind_eq_some_iff] at h
    obtain ⟨_, _, _, _, _, _, ⟨_, _⟩, _, _, _, h⟩ := h
    cases h
    refine ⟨rfl, fun line' hline' => ?_⟩
    rw [hfits.rectangular line' (by rw [hrows]; exact hline')]
    exact hline.symm

end CompactTable

theorem length_foldl {α β : Type*} {f : List α → β → List α}
    (h : ∀ line b, (f line b).length = line.length) (bs : List β) :
    ∀ line, (bs.foldl f line).length = line.length := by
  induction bs with
  | nil => exact fun _ => rfl
  | cons b bs ih => exact fun line => (ih _).trans (h line b)

section Built
variable {G : WorkGrammar}

theorem length_addShift (C : CollectionSet) (i : ℕ) (line : List SlrCell) (it : LrItem) :
    (addShift G C i line it).length = line.length := by
  unfold addShift
  split_ifs
  · cases C.getGotoValue it.getSymbolNo i with
    | none => rfl
    | some nextState => exact List.length_modify ..
  · rfl

theorem length_addReductions (followSets : Saturation.Family ℕ) (ruleNo : WorkRule → ℕ)
    (line : List SlrCell) (it : LrItem) :
    (addReductions G followSets ruleNo line it).length = line.length := by
  unfold addReductions
  split_ifs
  · exact length_foldl (fun _ _ => List.length_modify ..) _ _
  · rfl

theorem length_addGoto (C : CollectionSet) (i : ℕ) (line : List SlrCell) (symbolNo : ℕ) :
    (addGoto G C i line symbolNo).length = line.length := by
  unfold addGoto
  split_ifs
  · cases C.getGotoValue symbolNo i with
    | none => rfl
    | some nextState => exact List.length_modify ..
  · rfl

theorem length_buildLine (C : CollectionSet) (followSets : Saturation.Family ℕ)
    (ruleNo : WorkRule → ℕ) (i : ℕ) :
    (buildLine G C followSets ruleNo i).length = G.symbolCount := by
  rw [buildLine, length_foldl (length_addGoto C i), length_foldl fun line it =>
    (length_addReductions _ _ _ _).trans (length_addShift C i line it), List.length_replicate]

end Built

namespace EncodedGrammar
variable {σ Item Agr : Type} [Inhabited Item] (G : EncodedGrammar) (agreements : List (List Agr))
variable (factory : InputItemFactory σ Agr Item) (options : ParserOptions)

/-- The counts of the parsing table fit into the words of the compact one. -/
structure TableSizes : Prop where
  symbols_lt : G.augmentedGrammar.symbolCount < 2 ^ 32
  rules_le : (G.parserConfig agreements factory options).table.ruleInfos.length ≤
    maxIndex + 1
  states_lt : (G.parserConfig agreements factory options).table.rows.length < 2 ^ 31 - 1
  filled_le : (CompactTable.filled (CompactTable.places
    (G.parserConfig agreements factory options).table.rows)).length ≤ maxIndex
  references_le : CompactTable.references (CompactTable.places
    (G.parserConfig agreements factory options).table.rows) ≤ maxIndex
  mask_lt : ((G.parserConfig agreements factory options).table.rows.length *
    G.augmentedGrammar.symbolCount - 1) / 8 + 1 < 2 ^ 32

variable {G agreements factory options}

theorem getRuleInfo_lt {R : WorkRule} (hR : R ∈ G.augmentedGrammar.encodedRules) :
    getRuleInfo (G.parserConfig agreements factory options).table.ruleInfos R <
      (G.parserConfig agreements factory options).table.ruleInfos.length := by
  refine List.findIdx_lt_length_of_exists ⟨_, List.mem_map_of_mem (List.mem_map_of_mem
    ((mem_sortedRules G.augmentedGrammar_wellFormed).mpr hR)), ?_⟩
  dsimp only
  split_ifs <;> simp [RuleInfo.init]

/-- What the table is built from makes it fit, up to its counts. -/
theorem TableSizes.fits (h : G.TableSizes agreements factory options) :
    CompactTable.Fits (G.parserConfig agreements factory options).table
      G.augmentedGrammar.symbolCount := by
  have htable := G.parserConfig_tableFor agreements factory options
  have hC := computeCollection_automaton G.augmentedGrammar_wellFormed.toNumbered
  have hstates : (G.parserConfig agreements factory options).table.rows.length =
      (computeCollection G.augmentedGrammar).itemSets.length := by
    rw [parserConfig, GlrTable.swapRuleAgreements, buildGlrTable, List.length_map,
      List.length_range]
  have hcell : ∀ line ∈ (G.parserConfig agreements factory options).table.rows, ∀ cell ∈ line,
      ∃ row column, (G.parserConfig agreements factory options).table.cell row column = cell := by
    intro line hline cell hcell
    obtain ⟨row, hrow⟩ := List.mem_iff_getElem?.mp hline
    obtain ⟨column, hcolumn⟩ := List.mem_iff_getElem?.mp hcell
    refine ⟨row, column, ?_⟩
    rw [CompactTable.cell_of_line hrow, hcolumn, Option.getD_some]
  constructor
  · rw [augmentedGrammar_symbolCount]
    omega
  · intro line hline
    obtain ⟨i, _, rfl⟩ := List.mem_map.mp hline
    exact length_buildLine _ _ _ _
  · intro line hline cell hmem goto hgoto
    obtain ⟨row, column, rfl⟩ := hcell line hline cell hmem
    rw [htable.gotoLine] at hgoto
    have hlt := hC.goto_lt _ _ _ hgoto
    have := h.states_lt
    omega
  · intro line hline cell hmem rule hrule
    obtain ⟨row, column, rfl⟩ := hcell line hline cell hmem
    obtain ⟨R, hR, _, _, _, rfl⟩ := (htable.reduce _ _ _).mp hrule
    exact getRuleInfo_lt hR
  · exact h.rules_le
  · exact h.filled_le
  · exact h.references_le
  · have := h.states_lt
    omega
  · exact h.symbols_lt
  · exact h.mask_lt

end EncodedGrammar

theorem process_sameActions {σ Agr Item : Type*} [Inhabited Item] {cfg : ParserConfig σ Agr Item}
    {T : GlrTable Agr} (h : SameActions cfg.table T) (G : WorkGrammar) (A : TrieHolder) (fuel : ℕ)
    (words : List (List ℕ)) (heap : σ) :
    process { cfg with table := T } G A fuel words heap = process cfg G A fuel words heap := by
  rw [process, process, applyGlrParsing, applyGlrParsing, parseWords_sameActions h]

section Loaded
variable {σ Item Agr : Type} [Inhabited Item] (hash : List ℕ → ℕ) (agreement : Codec Agr)
variable (G : EncodedGrammar) (agreements : List (List Agr)) (factory : InputItemFactory σ Agr Item)
variable (options : ParserOptions)

theorem exists_loaded (hsizes : G.TableSizes agreements factory options)
    (hinfo : ∀ I ∈ (G.parserConfig agreements factory options).table.ruleInfos,
      (RuleInfo.codec agreement).valid I) :
    ∃ t bytes,
      CompactTable.compact hash (G.parserConfig agreements factory options).table = some t ∧
      (CompactTable.codec agreement).save t = some bytes ∧
      ∀ rest, ∃ loaded, (CompactTable.codec agreement).load (bytes ++ rest) = some (loaded, rest) ∧
        SameActions (G.parserConfig agreements factory options).table loaded.view := by
  obtain ⟨t, hcompact, hrepresents, hvalid⟩ := CompactTable.compact_spec hash hsizes.fits
  obtain ⟨bytes, hsave, hload⟩ :=
    (CompactTable.codec agreement).load_save t (hvalid agreement hinfo)
  obtain ⟨hrows, hcolumns⟩ := CompactTable.compact_size hash hsizes.fits hcompact
  exact ⟨t, bytes, hcompact, hsave, fun rest =>
    ⟨t, hload rest, hrepresents.sameActions hrows hcolumns⟩⟩

/-- A grammar that was compiled to a file parses as it would without: compaction, saving and loading
its table succeed, and over the loaded table every run of every input ends as over the raw one. -/
theorem process_loaded (hsizes : G.TableSizes agreements factory options)
    (hinfo : ∀ I ∈ (G.parserConfig agreements factory options).table.ruleInfos,
      (RuleInfo.codec agreement).valid I) :
    ∃ t bytes,
      CompactTable.compact hash (G.parserConfig agreements factory options).table = some t ∧
      (CompactTable.codec agreement).save t = some bytes ∧
      ∀ rest, ∃ loaded, (CompactTable.codec agreement).load (bytes ++ rest) = some (loaded, rest) ∧
        ∀ A fuel words heap,
          process { G.parserConfig agreements factory options with table := loaded.view }
              G.augmentedGrammar A fuel words heap =
            process (G.parserConfig agreements factory options) G.augmentedGrammar A fuel words
              heap := by
  obtain ⟨t, bytes, hcompact, hsave, hload⟩ :=
    exists_loaded hash agreement G agreements factory options hsizes hinfo
  refine ⟨t, bytes, hcompact, hsave, fun rest => ?_⟩
  obtain ⟨loaded, hloaded, hsame⟩ := hload rest
  exact ⟨loaded, hloaded, fun A fuel words heap =>
    process_sameActions hsame _ A fuel words heap⟩

end Loaded

/-- Agreements that hold nothing. -/
def unitCodec : Codec Unit := Codec.byte.via (fun _ => 0) (fun _ => ()) fun _ => rfl

theorem tableSizes_oneWord :
    oneWordGrammar.TableSizes [[()], []] acceptAllFactory { robust := true } := by
  constructor <;> decide

theorem ruleInfo_valid_oneWord : ∀ I ∈ (oneWordGrammar.parserConfig [[()], []] acceptAllFactory
    { robust := true }).table.ruleInfos, (RuleInfo.codec unitCodec).valid I := by
  have hwords : ∀ I ∈ (oneWordGrammar.parserConfig [[()], []] acceptAllFactory
      { robust := true }).table.ruleInfos, I.originalRuleNo < 2 ^ 32 ∧ I.ruleLength < 2 ^ 32 ∧
        I.leftPart < 2 ^ 32 ∧ I.synMainItemNo < 2 ^ 32 ∧ I.ruleAgreement.length < 2 ^ 32 := by
    decide
  intro I hI
  obtain ⟨h₁, h₂, h₃, h₄, h₅⟩ := hwords I hI
  exact CompactTable.ruleInfo_valid h₁ h₂ h₃ h₄ h₅ fun _ _ => Nat.two_pow_pos 8

theorem process_loaded_oneWord :
    ∃ bytes loaded, (CompactTable.codec unitCodec).load bytes = some (loaded, []) ∧
      ∀ fuel words,
        process { oneWordGrammar.parserConfig [[()], []] acceptAllFactory { robust := true } with
              table := loaded.view } oneWordGrammar.augmentedGrammar oneWordTrie fuel words () =
          process (oneWordGrammar.parserConfig [[()], []] acceptAllFactory { robust := true })
            oneWordGrammar.augmentedGrammar oneWordTrie fuel words () := by
  obtain ⟨t, bytes, _, _, hload⟩ := process_loaded List.sum unitCodec oneWordGrammar [[()], []]
    acceptAllFactory { robust := true } tableSizes_oneWord ruleInfo_valid_oneWord
  obtain ⟨loaded, hloaded, hprocess⟩ := hload []
  rw [List.append_nil] at hloaded
  exact ⟨bytes, loaded, hloaded, fun fuel words => hprocess oneWordTrie fuel words ()⟩

end TomitaParser
