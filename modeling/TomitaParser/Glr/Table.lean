import TomitaParser.Glr.Collection
import TomitaParser.Grammar.FirstFollow
/-! # The SLR parsing table -/

namespace TomitaParser
open OrderedSet Saturation

/-- `CGLRRuleInfo`. -/
structure RuleInfo (Agr : Type*) where
  originalRuleNo : ℕ
  ruleLength : ℕ
  leftPart : ℕ
  synMainItemNo : ℕ
  ruleAgreement : List Agr
deriving DecidableEq, Repr

def RuleInfo.init {Agr : Type*} (R : WorkRule) : RuleInfo Agr where
  originalRuleNo := R.originalRuleNo
  ruleLength := R.rightPart.items.length
  leftPart := R.leftPart
  synMainItemNo := R.rightPart.synMainItemNo
  ruleAgreement := []

/-- `CSLRCell`: no goto line is the value `-1`; rules are positions in the rule informations. -/
structure SlrCell where
  shift : Bool := false
  gotoLine : Option ℕ := none
  reduceRules : List ℕ := []
deriving DecidableEq, Repr

/-- The parsing table before compaction. -/
structure GlrTable (Agr : Type*) where
  ruleInfos : List (RuleInfo Agr)
  rows : List (List SlrCell)
deriving Repr

namespace GlrTable
variable {Agr : Type*}

def ruleInfo (T : GlrTable Agr) (r : ℕ) : RuleInfo Agr := T.ruleInfos.getD r ⟨0, 0, 0, 0, []⟩

def cell (T : GlrTable Agr) (row column : ℕ) : SlrCell := (T.rows.getD row []).getD column {}

end GlrTable

/-- The rules in the order of their numbers. -/
def sortedRules (G : WorkGrammar) : List WorkRule :=
  insertAll (fun a b => decide (a.originalRuleNo < b.originalRuleNo)) G.encodedRules []

def buildRuleInfo {Agr : Type*} (G : WorkGrammar) : List (RuleInfo Agr) :=
  (sortedRules G).map RuleInfo.init

/-- `GetRuleInfo`: the lower bound of the rule's number. -/
def getRuleInfo {Agr : Type*} (ruleInfos : List (RuleInfo Agr)) (R : WorkRule) : ℕ :=
  ruleInfos.findIdx fun I => !decide (I.originalRuleNo < R.originalRuleNo)

/-- The shift that one item brings into a table line. -/
def addShift (G : WorkGrammar) (C : CollectionSet) (i : ℕ) (line : List SlrCell) (it : LrItem) :
    List SlrCell :=
  if !it.isFinished && !G.isMeta it.getSymbolNo then
    match C.getGotoValue it.getSymbolNo i with
    | none => line
    | some nextState => line.modify it.getSymbolNo fun c =>
        if c.gotoLine ≠ some nextState then { c with shift := true, gotoLine := some nextState }
        else c
  else line

/-- The reductions that one item brings into a table line. -/
def addReductions (G : WorkGrammar) (followSets : Family ℕ) (ruleNo : WorkRule → ℕ)
    (line : List SlrCell) (it : LrItem) : List SlrCell :=
  if it.isFinished && it.rule.leftPart != G.getNewRoot then
    (followSets.get it.rule.leftPart).foldl (fun line a =>
      line.modify a fun c => { c with reduceRules := c.reduceRules ++ [ruleNo it.rule] }) line
  else line

/-- The goto line of a non-terminal. -/
def addGoto (G : WorkGrammar) (C : CollectionSet) (i : ℕ) (line : List SlrCell) (symbolNo : ℕ) :
    List SlrCell :=
  if G.isMeta symbolNo then
    match C.getGotoValue symbolNo i with
    | none => line
    | some nextState => line.modify symbolNo fun c => { c with gotoLine := some nextState }
  else line

def buildLine (G : WorkGrammar) (C : CollectionSet) (followSets : Family ℕ) (ruleNo : WorkRule → ℕ)
    (i : ℕ) : List SlrCell :=
  (List.range G.symbolCount).foldl (addGoto G C i)
    ((C.itemSet i).foldl
      (fun line it => addReductions G followSets ruleNo (addShift G C i line it) it)
      (List.replicate G.symbolCount {}))

/-- `BuildGLRTable`, up to the compaction of the cells. -/
def buildGlrTable {Agr : Type*} (G : WorkGrammar) : GlrTable Agr :=
  let ruleInfos := buildRuleInfo G
  let C := computeCollection G
  let followSets := G.buildFollowSet
  { ruleInfos
    rows := (List.range C.itemSets.length).map
      (buildLine G C followSets (getRuleInfo ruleInfos)) }

/-- `SwapRuleAgreements`: each rule takes the agreements of its number, if there are any. -/
def GlrTable.swapRuleAgreements {Agr : Type*} (T : GlrTable Agr) (agreements : List (List Agr)) :
    GlrTable Agr :=
  { T with ruleInfos := T.ruleInfos.map fun I =>
      let A := agreements.getD I.originalRuleNo []
      if A.isEmpty then I else { I with ruleAgreement := A } }

variable {G : WorkGrammar}

theorem mem_sortedRules (hG : G.WellFormed) {R : WorkRule} :
    R ∈ sortedRules G ↔ R ∈ G.encodedRules := by
  have h : R ∈ sortedRules G ↔ R ∈ G.encodedRules ∨ R ∈ [] := by
    refine mem_insertAll fun a ha b hb he => ?_
    have hb : b ∈ G.encodedRules := hb.elim id fun h => absurd h List.not_mem_nil
    simp only [Equivalent, decide_eq_false_iff_not] at he
    exact hG.ruleNo_inj b hb a ha (by omega)
  simpa using h

theorem sortedRules_pairwise (G : WorkGrammar) :
    (sortedRules G).Pairwise (fun a b => a.originalRuleNo < b.originalRuleNo) := by
  have h : (sortedRules G).Pairwise
      (fun a b => decide (a.originalRuleNo < b.originalRuleNo) = true) := by
    refine pairwise_insertAll (fun a b c hab hbc => ?_) List.Pairwise.nil
    simp only [decide_eq_true_eq] at hab hbc ⊢
    omega
  exact h.imp fun h => of_decide_eq_true h

private theorem findIdx_lowerBound {l : List WorkRule}
    (h : l.Pairwise (fun a b => a.originalRuleNo < b.originalRuleNo)) {k : ℕ} {R : WorkRule}
    (hk : l[k]? = some R) :
    l.findIdx (fun a => !decide (a.originalRuleNo < R.originalRuleNo)) = k := by
  obtain ⟨hlt, hR⟩ := List.getElem?_eq_some_iff.mp hk
  refine (List.findIdx_eq hlt).mpr ⟨by simp [hR], fun j hj => ?_⟩
  have := List.pairwise_iff_getElem.mp h j k (by omega) hlt hj
  rw [hR] at this
  simpa using this

theorem getRuleInfo_spec {Agr : Type*} (hG : G.WellFormed) {R : WorkRule}
    (hR : R ∈ G.encodedRules) :
    (sortedRules G)[getRuleInfo (@buildRuleInfo Agr G) R]? = some R := by
  obtain ⟨k, hk⟩ := List.mem_iff_getElem?.mp ((mem_sortedRules hG).mpr hR)
  have hidx : getRuleInfo (@buildRuleInfo Agr G) R = k := by
    rw [getRuleInfo, buildRuleInfo, List.findIdx_map]
    exact findIdx_lowerBound (sortedRules_pairwise G) hk
  rw [hidx]
  exact hk

private def lineCell (line : List SlrCell) (X : ℕ) : SlrCell := line.getD X {}

private theorem lineCell_modify (line : List SlrCell) (j X : ℕ) (f : SlrCell → SlrCell) :
    lineCell (line.modify j f) X =
      if j = X ∧ X < line.length then f (lineCell line X) else lineCell line X := by
  simp only [lineCell, List.getD_eq_getElem?_getD, List.getElem?_modify]
  by_cases h : j = X
  · subst h
    by_cases hlt : j < line.length
    · simp [hlt]
    · simp [hlt]
  · simp [h]

private theorem lineCell_of_le {line : List SlrCell} {X : ℕ} (h : line.length ≤ X) :
    lineCell line X = {} := List.getD_eq_default _ _ h

section Line

variable (G) (C : CollectionSet) (followSets : Family ℕ) (ruleNo : WorkRule → ℕ) (i : ℕ)

/-- The reductions the items `done` ask for on the symbol `a`. -/
private def Asks (done : List LrItem) (a r : ℕ) : Prop :=
  ∃ it ∈ done, it.isFinished = true ∧ it.rule.leftPart ≠ G.getNewRoot ∧
    a ∈ followSets.get it.rule.leftPart ∧ r = ruleNo it.rule

/-- A line built from the items `done`. -/
private structure LineInv (done : List LrItem) (line : List SlrCell) : Prop where
  length : line.length = G.symbolCount
  goto_or : ∀ X, (lineCell line X).gotoLine = none ∨
    (lineCell line X).gotoLine = C.getGotoValue X i
  goto_done : ∀ it ∈ done, ∀ X, it.NextIs X → G.isMeta X = false → X < G.symbolCount →
    (lineCell line X).gotoLine = C.getGotoValue X i
  reduce : ∀ a r, a < G.symbolCount →
    (r ∈ (lineCell line a).reduceRules ↔ Asks G followSets ruleNo done a r)

variable {G C followSets ruleNo i}

private theorem addShift_spec (line : List SlrCell) (it : LrItem) :
    (addShift G C i line it).length = line.length ∧
      (∀ X, (lineCell (addShift G C i line it) X).reduceRules = (lineCell line X).reduceRules) ∧
      (∀ X, (lineCell (addShift G C i line it) X).gotoLine = (lineCell line X).gotoLine ∨
        (lineCell (addShift G C i line it) X).gotoLine = C.getGotoValue X i) ∧
      (∀ X, it.NextIs X → G.isMeta X = false → X < line.length →
        ((lineCell line X).gotoLine = none ∨ (lineCell line X).gotoLine = C.getGotoValue X i) →
        (lineCell (addShift G C i line it) X).gotoLine = C.getGotoValue X i) := by
  unfold addShift
  split_ifs with hc
  · cases hgoto : C.getGotoValue it.getSymbolNo i with
    | none =>
      refine ⟨rfl, fun _ => rfl, fun _ => Or.inl rfl, ?_⟩
      rintro X ⟨_, rfl⟩ _ _ (h | h)
      · rw [h, hgoto]
      · exact h
    | some next =>
      refine ⟨List.length_modify .., ?_, ?_, ?_⟩
      · intro X
        dsimp only
        rw [lineCell_modify]
        split_ifs <;> rfl
      · intro X
        dsimp only
        rw [lineCell_modify]
        split_ifs with h1 h2
        · rw [← h1.1, hgoto]
          exact Or.inr rfl
        · exact Or.inl rfl
        · exact Or.inl rfl
      · rintro X ⟨_, rfl⟩ _ hlt _
        dsimp only
        rw [lineCell_modify, if_pos ⟨rfl, hlt⟩, hgoto]
        split_ifs with h2
        · rfl
        · simpa using h2
  · refine ⟨rfl, fun _ => rfl, fun _ => Or.inl rfl, ?_⟩
    rintro X ⟨hf, rfl⟩ hm _ _
    simp [hf, hm] at hc

private theorem foldl_addReduction_spec (as : List ℕ) (no : ℕ) (line : List SlrCell) :
    (as.foldl (fun line a => line.modify a fun c =>
        { c with reduceRules := c.reduceRules ++ [no] }) line).length = line.length ∧
      ∀ X, (lineCell (as.foldl (fun line a => line.modify a fun c =>
          { c with reduceRules := c.reduceRules ++ [no] }) line) X).gotoLine =
            (lineCell line X).gotoLine ∧
        (X < line.length → ∀ r, r ∈ (lineCell (as.foldl (fun line a => line.modify a fun c =>
          { c with reduceRules := c.reduceRules ++ [no] }) line) X).reduceRules ↔
            r ∈ (lineCell line X).reduceRules ∨ (X ∈ as ∧ r = no)) := by
  induction as generalizing line with
  | nil => simp
  | cons a as ih =>
    obtain ⟨hlen, hcell⟩ := ih (line.modify a fun c =>
      { c with reduceRules := c.reduceRules ++ [no] })
    rw [List.length_modify] at hlen hcell
    refine ⟨hlen, fun X => ⟨?_, fun hX r => ?_⟩⟩
    · rw [List.foldl_cons, (hcell X).1, lineCell_modify]
      split_ifs <;> rfl
    · rw [List.foldl_cons, (hcell X).2 hX r, lineCell_modify]
      by_cases ha : a = X
      · subst ha
        rw [if_pos ⟨rfl, hX⟩]
        simp only [List.mem_append, List.mem_cons, true_or, true_and]
        tauto
      · rw [if_neg (fun h => ha h.1)]
        simp only [List.mem_cons, Ne.symm ha, false_or]

private theorem addReductions_spec (line : List SlrCell) (it : LrItem) :
    (addReductions G followSets ruleNo line it).length = line.length ∧
      (∀ X, (lineCell (addReductions G followSets ruleNo line it) X).gotoLine =
        (lineCell line X).gotoLine) ∧
      (∀ X, X < line.length →
        ∀ r, r ∈ (lineCell (addReductions G followSets ruleNo line it) X).reduceRules ↔
          r ∈ (lineCell line X).reduceRules ∨ Asks G followSets ruleNo [it] X r) := by
  unfold addReductions Asks
  split_ifs with hc
  · simp only [Bool.and_eq_true, bne_iff_ne, ne_eq] at hc
    obtain ⟨hlen, hcell⟩ := foldl_addReduction_spec (followSets.get it.rule.leftPart)
      (ruleNo it.rule) line
    refine ⟨hlen, fun X => (hcell X).1, fun X hX r => ?_⟩
    rw [(hcell X).2 hX r]
    simp [hc.1, hc.2]
  · refine ⟨rfl, fun _ => rfl, fun X _ r => ?_⟩
    simp only [Bool.and_eq_true, bne_iff_ne, ne_eq, not_and, not_not] at hc
    simp only [List.mem_singleton, exists_eq_left]
    constructor
    · exact Or.inl
    · rintro (h | ⟨hf, hne, _⟩)
      · exact h
      · exact absurd (hc hf) hne

private theorem LineInv.step {done : List LrItem} {line : List SlrCell} (it : LrItem)
    (h : LineInv G C followSets ruleNo i done line) :
    LineInv G C followSets ruleNo i (done ++ [it])
      (addReductions G followSets ruleNo (addShift G C i line it) it) := by
  obtain ⟨hlen, hred, hor, hnew⟩ := @addShift_spec G C i line it
  obtain ⟨hlen', hgoto', hred'⟩ :=
    @addReductions_spec G followSets ruleNo (addShift G C i line it) it
  refine ⟨by rw [hlen', hlen, h.length], ?_, ?_, ?_⟩
  · intro X
    rw [hgoto' X]
    rcases hor X with he | he
    · rw [he]
      exact h.goto_or X
    · exact Or.inr he
  · intro it' hit' X hn hm hX
    rw [hgoto' X]
    rcases List.mem_append.mp hit' with hit' | hit'
    · have hold := h.goto_done it' hit' X hn hm hX
      rcases hor X with he | he
      · rw [he, hold]
      · exact he
    · rw [List.mem_singleton.mp hit'] at hn
      exact hnew X hn hm (by rw [h.length]; exact hX) (h.goto_or X)
  · intro a r ha
    have ha' : a < (addShift G C i line it).length := by rw [hlen, h.length]; exact ha
    rw [hred' a ha' r, hred a, h.reduce a r ha]
    simp only [Asks, List.mem_append, List.mem_singleton]
    constructor
    · rintro (⟨it', hit', h⟩ | ⟨it', hit', h⟩)
      · exact ⟨it', Or.inl hit', h⟩
      · exact ⟨it', Or.inr hit', h⟩
    · rintro ⟨it', hit' | hit', h⟩
      · exact Or.inl ⟨it', hit', h⟩
      · exact Or.inr ⟨it', hit', h⟩

private theorem LineInv.foldl {done its : List LrItem} {line : List SlrCell}
    (h : LineInv G C followSets ruleNo i done line) :
    LineInv G C followSets ruleNo i (done ++ its)
      (its.foldl (fun line it => addReductions G followSets ruleNo (addShift G C i line it) it)
        line) := by
  induction its generalizing done line with
  | nil => simpa using h
  | cons it its ih => simpa using ih (h.step it)

private theorem foldl_addGoto_spec (Xs : List ℕ) (line : List SlrCell) :
    (Xs.foldl (addGoto G C i) line).length = line.length ∧
      (∀ X, (lineCell (Xs.foldl (addGoto G C i) line) X).reduceRules =
        (lineCell line X).reduceRules) ∧
      (∀ X, G.isMeta X = false → (lineCell (Xs.foldl (addGoto G C i) line) X).gotoLine =
        (lineCell line X).gotoLine) ∧
      ((∀ X, (lineCell line X).gotoLine = none ∨
          (lineCell line X).gotoLine = C.getGotoValue X i) →
        ∀ X, X < line.length → G.isMeta X = true →
          X ∈ Xs ∨ (lineCell line X).gotoLine = C.getGotoValue X i →
          (lineCell (Xs.foldl (addGoto G C i) line) X).gotoLine = C.getGotoValue X i) := by
  induction Xs generalizing line with
  | nil => simp
  | cons Y Xs ih =>
    obtain ⟨hlen, hred, hterm, hmeta⟩ := ih (addGoto G C i line Y)
    have hstep : (addGoto G C i line Y).length = line.length ∧
        (∀ X, (lineCell (addGoto G C i line Y) X).reduceRules = (lineCell line X).reduceRules) ∧
        (∀ X, (lineCell (addGoto G C i line Y) X).gotoLine = (lineCell line X).gotoLine ∨
          (X = Y ∧ G.isMeta X = true ∧
            (lineCell (addGoto G C i line Y) X).gotoLine = C.getGotoValue X i)) ∧
        (Y < line.length → G.isMeta Y = true →
          (lineCell line Y).gotoLine = none ∨ (lineCell line Y).gotoLine = C.getGotoValue Y i →
          (lineCell (addGoto G C i line Y) Y).gotoLine = C.getGotoValue Y i) := by
      unfold addGoto
      split_ifs with hm
      · cases hgoto : C.getGotoValue Y i with
        | none =>
          exact ⟨rfl, fun _ => rfl, fun _ => Or.inl rfl, fun _ _ h => by simpa using h⟩
        | some next =>
          refine ⟨List.length_modify .., ?_, ?_, ?_⟩
          · intro X
            dsimp only
            rw [lineCell_modify]
            split_ifs <;> rfl
          · intro X
            dsimp only
            rw [lineCell_modify]
            split_ifs with h1
            · refine Or.inr ⟨h1.1.symm, h1.1 ▸ hm, ?_⟩
              rw [← h1.1, hgoto]
            · exact Or.inl rfl
          · intro hY _ _
            dsimp only
            rw [lineCell_modify, if_pos ⟨rfl, hY⟩]
      · exact ⟨rfl, fun _ => rfl, fun _ => Or.inl rfl, fun _ h => absurd h hm⟩
    obtain ⟨slen, sred, sor, snew⟩ := hstep
    refine ⟨hlen.trans slen, fun X => (hred X).trans (sred X), ?_, ?_⟩
    · intro X hX
      rw [List.foldl_cons, hterm X hX]
      rcases sor X with h | ⟨_, hm, _⟩
      · exact h
      · rw [hX] at hm
        cases hm
    · intro hor X hX hm hcase
      have hor' : ∀ X, (lineCell (addGoto G C i line Y) X).gotoLine = none ∨
          (lineCell (addGoto G C i line Y) X).gotoLine = C.getGotoValue X i := by
        intro X
        rcases sor X with h | ⟨_, _, h⟩
        · rw [h]
          exact hor X
        · exact Or.inr h
      refine hmeta hor' X (by rw [slen]; exact hX) hm ?_
      rcases hcase with hcase | hcase
      · rcases List.mem_cons.mp hcase with rfl | hcase
        · exact Or.inr (snew hX hm (hor X))
        · exact Or.inl hcase
      · rcases sor X with h | ⟨_, _, h⟩
        · exact Or.inr (h.trans hcase)
        · exact Or.inr h

end Line

/-- The rule information carries the rule's own data. -/
structure RuleInfo.Matches {Agr : Type*} (I : RuleInfo Agr) (R : WorkRule) : Prop where
  originalRuleNo : I.originalRuleNo = R.originalRuleNo
  ruleLength : I.ruleLength = R.rightPart.items.length
  leftPart : I.leftPart = R.leftPart
  synMainItemNo : I.synMainItemNo = R.rightPart.synMainItemNo

/-- The table of a grammar and its collection: transitions in the goto lines, and a reduction where
a finished item meets a symbol that may follow it. -/
structure TableFor {Agr : Type*} (G : WorkGrammar) (C : CollectionSet) (T : GlrTable Agr) :
    Prop where
  gotoLine : ∀ q X, (T.cell q X).gotoLine = C.getGotoValue X q
  reduce : ∀ q a r, r ∈ (T.cell q a).reduceRules ↔ ∃ R ∈ G.encodedRules,
    R.leftPart ≠ G.getNewRoot ∧ ⟨R, R.rightPart.items.length⟩ ∈ C.itemSet q ∧
      a ∈ G.buildFollowSet.get R.leftPart ∧ r = getRuleInfo T.ruleInfos R
  info : ∀ R ∈ G.encodedRules, (T.ruleInfo (getRuleInfo T.ruleInfos R)).Matches R

private theorem buildLine_spec (hG : G.WellFormed) {C : CollectionSet} (hC : Automaton G C)
    (ruleNo : WorkRule → ℕ) (q : ℕ) :
    (∀ X, (lineCell (buildLine G C G.buildFollowSet ruleNo q) X).gotoLine =
        C.getGotoValue X q) ∧
      ∀ a r, r ∈ (lineCell (buildLine G C G.buildFollowSet ruleNo q) a).reduceRules ↔
        Asks G G.buildFollowSet ruleNo (C.itemSet q) a r := by
  have hbase : LineInv G C G.buildFollowSet ruleNo q [] (List.replicate G.symbolCount {}) := by
    have hempty : ∀ X, lineCell (List.replicate G.symbolCount {}) X = {} := by
      intro X
      simp only [lineCell, List.getD_eq_getElem?_getD, List.getElem?_replicate]
      split_ifs <;> rfl
    refine ⟨List.length_replicate, ?_, fun _ h => absurd h List.not_mem_nil, ?_⟩
    · intro X
      rw [hempty X]
      exact Or.inl rfl
    · intro a r _
      rw [hempty a]
      simp [Asks]
  have hitems : LineInv G C G.buildFollowSet ruleNo q ([] ++ C.itemSet q) _ := hbase.foldl
  rw [List.nil_append] at hitems
  obtain ⟨hlen, hred, hterm, hmeta⟩ := @foldl_addGoto_spec G C q (List.range G.symbolCount)
    ((C.itemSet q).foldl (fun line it =>
      addReductions G G.buildFollowSet ruleNo (addShift G C q line it) it)
      (List.replicate G.symbolCount {}))
  rw [hitems.length] at hlen hmeta
  have hlt : ∀ X q', C.getGotoValue X q = some q' → X < G.symbolCount := by
    intro X q' hgoto
    obtain ⟨it, hit, hf, hX⟩ := hC.goto_from q X q' hgoto
    have hv := hC.valid q it hit
    rw [← hX]
    exact hG.right_lt _ hv.1 _ (hv.getSymbolNo_mem hf)
  refine ⟨fun X => ?_, fun a r => ?_⟩
  · by_cases hX : X < G.symbolCount
    · cases hm : G.isMeta X with
      | true => exact hmeta hitems.goto_or X hX hm (Or.inl (List.mem_range.mpr hX))
      | false =>
        refine (hterm X hm).trans ?_
        cases hgoto : C.getGotoValue X q with
        | none => simpa [hgoto] using hitems.goto_or X
        | some q' =>
          obtain ⟨it, hit, hn⟩ := hC.goto_from q X q' hgoto
          rw [hitems.goto_done it hit X hn hm hX, hgoto]
    · rw [buildLine, lineCell_of_le (by rw [hlen]; exact not_lt.mp hX)]
      cases hgoto : C.getGotoValue X q with
      | none => rfl
      | some q' => exact absurd (hlt X q' hgoto) hX
  · by_cases ha : a < G.symbolCount
    · rw [buildLine, hred a]
      exact hitems.reduce a r ha
    · rw [buildLine, lineCell_of_le (by rw [hlen]; exact not_lt.mp ha)]
      simp only [List.not_mem_nil, false_iff]
      rintro ⟨it, _, _, _, hfollow, _⟩
      exact ha ((WorkGrammar.buildFollowSet_saturated hG.toEncoded).2 _ a hfollow)

theorem buildGlrTable_tableFor {Agr : Type*} (hG : G.WellFormed) :
    TableFor G (computeCollection G) (@buildGlrTable Agr G) := by
  have hC := computeCollection_automaton hG.toNumbered
  have hcell : ∀ q X, q < (computeCollection G).itemSets.length →
      (@buildGlrTable Agr G).cell q X =
        lineCell (buildLine G (computeCollection G) G.buildFollowSet
          (getRuleInfo (@buildRuleInfo Agr G)) q) X := by
    intro q X hq
    have hrow : (@buildGlrTable Agr G).rows.getD q [] =
        buildLine G (computeCollection G) G.buildFollowSet
          (getRuleInfo (@buildRuleInfo Agr G)) q := by
      simp [buildGlrTable, List.getD_eq_getElem?_getD, hq]
    rw [GlrTable.cell, hrow]
    rfl
  have hcell' : ∀ q X, ¬ q < (computeCollection G).itemSets.length →
      (@buildGlrTable Agr G).cell q X = {} := by
    intro q X hq
    have hrow : (@buildGlrTable Agr G).rows.getD q [] = [] :=
      List.getD_eq_default _ _ (by simpa [buildGlrTable] using hq)
    rw [GlrTable.cell, hrow]
    rfl
  have hempty : ∀ q, ¬ q < (computeCollection G).itemSets.length →
      (computeCollection G).itemSet q = [] := by
    intro q hq
    exact List.getD_eq_default _ _ (not_lt.mp hq)
  refine ⟨fun q X => ?_, fun q a r => ?_, fun R hR => ?_⟩
  · by_cases hq : q < (computeCollection G).itemSets.length
    · rw [hcell q X hq]
      exact (buildLine_spec hG hC _ q).1 X
    · rw [hcell' q X hq]
      cases hgoto : (computeCollection G).getGotoValue X q with
      | none => rfl
      | some q' =>
        obtain ⟨it, hit, _⟩ := hC.goto_from q X q' hgoto
        rw [hempty q hq] at hit
        exact absurd hit List.not_mem_nil
  · by_cases hq : q < (computeCollection G).itemSets.length
    · rw [hcell q a hq, (buildLine_spec hG hC _ q).2 a r]
      constructor
      · rintro ⟨it, hit, hf, hleft, hfollow, rfl⟩
        refine ⟨it.rule, (hC.valid q it hit).1, hleft, ?_, hfollow, rfl⟩
        have hdot : it.rule.rightPart.items.length = it.dotSymbolNo := by
          simpa [LrItem.isFinished] using hf
        rw [hdot]
        exact hit
      · rintro ⟨R, _, hleft, hit, hfollow, rfl⟩
        exact ⟨⟨R, R.rightPart.items.length⟩, hit, by simp [LrItem.isFinished], hleft, hfollow, rfl⟩
    · rw [hcell' q a hq, hempty q hq]
      simp
  · have h := @getRuleInfo_spec G Agr hG R hR
    show ((@buildGlrTable Agr G).ruleInfo (getRuleInfo (@buildRuleInfo Agr G) R)).Matches R
    generalize getRuleInfo (@buildRuleInfo Agr G) R = k at h
    have hinfo : (@buildGlrTable Agr G).ruleInfo k = RuleInfo.init R := by
      simp [GlrTable.ruleInfo, buildGlrTable, buildRuleInfo, List.getD_eq_getElem?_getD, h]
    rw [hinfo]
    exact ⟨rfl, rfl, rfl, rfl⟩

theorem TableFor.swapRuleAgreements {Agr : Type*} {C : CollectionSet} {T : GlrTable Agr}
    (h : TableFor G C T) (agreements : List (List Agr)) :
    TableFor G C (T.swapRuleAgreements agreements) := by
  have hno : ∀ R, getRuleInfo (T.swapRuleAgreements agreements).ruleInfos R =
      getRuleInfo T.ruleInfos R := by
    intro R
    simp only [getRuleInfo, GlrTable.swapRuleAgreements, List.findIdx_map]
    congr 1
    funext I
    simp only [Function.comp_apply]
    split_ifs <;> rfl
  refine ⟨h.gotoLine, fun q a r => ?_, fun R hR => ?_⟩
  · simp only [hno]
    exact h.reduce q a r
  · rw [hno]
    have hm := h.info R hR
    generalize getRuleInfo T.ruleInfos R = k at hm
    simp only [GlrTable.ruleInfo, List.getD_eq_getElem?_getD] at hm ⊢
    simp only [GlrTable.swapRuleAgreements, List.getElem?_map]
    cases hk : T.ruleInfos[k]? with
    | none => simpa [hk] using hm
    | some I =>
      rw [hk] at hm
      simp only [Option.map_some, Option.getD_some] at hm ⊢
      split_ifs
      · exact hm
      · exact ⟨hm.originalRuleNo, hm.ruleLength, hm.leftPart, hm.synMainItemNo⟩

end TomitaParser
