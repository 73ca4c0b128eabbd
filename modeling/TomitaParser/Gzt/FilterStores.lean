import Mathlib.Data.Finset.Sort
import TomitaParser.Gzt.ArticleFilter
/-! # Growth of the stores of filters

The stores behind a filter share equal sets and never change one, so a filter means the same however
many filters come later. -/

namespace TomitaParser.Gzt
open OrderedSet

namespace CompactStorageBuilder
variable {T : Type*}

/-- Items and sets stay where they are. -/
structure Grows (b b' : CompactStorageBuilder T) : Prop where
  items : b.items <+: b'.items
  slots : ∀ slot set, b.slotItems slot = some set → b'.slotItems slot = some set

/-- An index of an item, or of a set that is there. -/
def Known (b : CompactStorageBuilder T) (index : ℕ) : Prop :=
  isSingleItem index = true ∨ (b.slotItems (index / 2)).isSome = true

section Grows
variable {b b' b'' : CompactStorageBuilder T}

theorem Grows.refl (b : CompactStorageBuilder T) : Grows b b :=
  ⟨List.prefix_refl _, fun _ _ h => h⟩

theorem Grows.trans (h : Grows b b') (h' : Grows b' b'') : Grows b b'' :=
  ⟨h.items.trans h'.items, fun slot set hset => h'.slots slot set (h.slots slot set hset)⟩

theorem Grows.known (h : Grows b b') {index : ℕ} (hindex : b.Known index) : b'.Known index := by
  rcases hindex with hsingle | hslot
  · exact .inl hsingle
  · obtain ⟨set, hset⟩ := Option.isSome_iff_exists.mp hslot
    exact .inr (by rw [h.slots _ set hset]; rfl)

theorem Grows.members (h : Grows b b') {index : ℕ} (hindex : b.Known index) :
    b'.members index = b.members index := by
  unfold CompactStorageBuilder.members
  rcases hindex with hsingle | hslot
  · rw [if_pos hsingle, if_pos hsingle]
  · obtain ⟨set, hset⟩ := Option.isSome_iff_exists.mp hslot
    rw [hset, h.slots _ set hset]

theorem Grows.getItem [DecidableEq T] (h : Grows b b') {index : ℕ} {item : T}
    (hitem : b.getItem index = some item) : b'.getItem index = some item := by
  obtain ⟨more, hmore⟩ := h.items
  unfold CompactStorageBuilder.getItem at hitem ⊢
  rw [← hmore, List.getElem?_append_left (List.getElem?_eq_some_iff.mp hitem).1, hitem]

theorem known_empty (h : b.slotItems 0 = some []) : b.Known emptySetIndex :=
  .inr (by simp [emptySetIndex, h])

end Grows

/-- Slot 0 is the empty set, and sets are ordered sets of indices of items. -/
structure Tidy [DecidableEq T] (b : CompactStorageBuilder T) : Prop where
  empty : b.slotItems 0 = some []
  sorted : ∀ slot set, b.slotItems slot = some set → set.Pairwise (natLt · · = true)
  single : ∀ slot set, b.slotItems slot = some set → ∀ i ∈ set, isSingleItem i = true
  index : ∀ item i, b.itemIndex.lookup item = some i → isSingleItem i = true

section Tidy
variable [DecidableEq T] {b : CompactStorageBuilder T} {hash : List ℕ → ℕ}

theorem WellFormed.tidy (hb : b.WellFormed) : b.Tidy where
  empty := hb.empty
  sorted := fun slot set hset => (hb.sets slot set hset).sorted
  single := fun slot set hset i hi => ((hb.sets slot set hset).single i hi).1
  index := fun item i hi => ((hb.index item i).mp hi).1

theorem Tidy.members_sorted (hb : b.Tidy) (index : ℕ) :
    (b.members index).Pairwise (natLt · · = true) := by
  unfold members
  split
  · exact List.pairwise_singleton _ _
  · cases hset : b.slotItems (index / 2) with
    | none => exact List.Pairwise.nil
    | some set => exact hb.sorted _ set hset

theorem Tidy.members_single (hb : b.Tidy) {index i : ℕ} (hi : i ∈ b.members index) :
    isSingleItem i = true := by
  unfold members at hi
  split at hi
  · rename_i hsingle
    rwa [List.mem_singleton.mp hi]
  · cases hset : b.slotItems (index / 2) with
    | none => simp [hset] at hi
    | some set =>
      rw [hset] at hi
      exact hb.single _ set hset i hi

theorem Tidy.members_empty (hb : b.Tidy) : b.members emptySetIndex = [] := by
  simp [members, emptySetIndex, isSingleItem, hb.empty]

theorem add_tidy (hb : b.Tidy) (item : T) :
    (b.add item).1.Tidy ∧ Grows b (b.add item).1 ∧ isSingleItem (b.add item).2 = true := by
  unfold add
  cases hlookup : b.itemIndex.lookup item with
  | some i => exact ⟨hb, Grows.refl b, hb.index item i hlookup⟩
  | none =>
    have hsingle : isSingleItem (toItemIndex b.items.length) = true := by
      simp [isSingleItem, toItemIndex]
    refine ⟨⟨hb.empty, hb.sorted, hb.single, ?_⟩, ⟨List.prefix_append _ _, fun _ _ h => h⟩, hsingle⟩
    intro other i hi
    simp only [List.lookup_append] at hi
    cases hother : b.itemIndex.lookup other with
    | some j =>
      rw [hother, Option.some_or, Option.some.injEq] at hi
      subst hi
      exact hb.index other j hother
    | none =>
      rw [hother, Option.none_or, List.lookup_cons] at hi
      split at hi
      · rw [Option.some.injEq] at hi
        exact hi ▸ hsingle
      · simp at hi

/-- A set gets an index, and every other set stays. -/
theorem addSetOrSingle_tidy (hb : b.Tidy) {set : List ℕ} (hsorted : set.Pairwise (natLt · · = true))
    (hset : ∀ i ∈ set, isSingleItem i = true) :
    let r := b.addSetOrSingle hash true set
    r.1.Tidy ∧ Grows b r.1 ∧ r.1.Known r.2 ∧ r.1.members r.2 = set := by
  unfold addSetOrSingle
  split
  · rename_i i
    have hsingle := hset i (List.mem_singleton_self i)
    exact ⟨hb, Grows.refl b, .inl hsingle, by rw [members, if_pos hsingle]⟩
  · unfold addSet
    by_cases hempty : set = []
    · rw [if_pos hempty, hempty]
      exact ⟨hb, Grows.refl b, known_empty hb.empty, hb.members_empty⟩
    · rw [if_neg hempty]
      have hspec : SlotFor b set (b.indexatorAdd hash true ⟨set, 0⟩) := indexatorAdd_spec b set
      generalize b.indexatorAdd hash true ⟨set, 0⟩ = r at hspec
      have hslots : (r.1.modifySet r.2 addRef).slotItems = r.1.slotItems :=
        slotItems_modifySet_of_items r.2 fun _ => rfl
      refine ⟨⟨?_, ?_, ?_, ?_⟩, ⟨?_, ?_⟩, ?_, ?_⟩
      · rw [hslots]
        exact hspec.keeps 0 [] hb.empty
      · intro slot other hother
        rw [hslots] at hother
        rcases hspec.only slot other hother with hold | rfl
        · exact hb.sorted slot other hold
        · exact hsorted
      · intro slot other hother
        rw [hslots] at hother
        rcases hspec.only slot other hother with hold | rfl
        · exact hb.single slot other hold
        · exact hset
      · intro item i hi
        apply hb.index item i
        rw [← hspec.itemIndex]
        exact hi
      · show b.items <+: r.1.items
        rw [hspec.items]
      · rw [hslots]
        exact hspec.keeps
      · refine .inr ?_
        rw [toSetIndex_div, hslots, hspec.slot]
        rfl
      · rw [members, isSingleItem_toSetIndex, toSetIndex_div, hslots, hspec.slot]
        rfl

/-- The union that `merge` builds. -/
theorem merge_tidy (hb : b.Tidy) (indices : List ℕ) :
    let r := b.merge hash true indices
    r.1.Tidy ∧ Grows b r.1 ∧ r.1.Known r.2 ∧
      ∀ i, i ∈ r.1.members r.2 ↔ ∃ index ∈ indices, i ∈ b.members index := by
  have hfold : ∀ set : List ℕ, set.Pairwise (natLt · · = true) →
      (∀ i ∈ set, isSingleItem i = true) →
      let all := indices.foldl (fun set index =>
        if isSingleItem index then insertBy natLt index set
        else insertAll natLt (b.getItemSet index).items set) set
      all.Pairwise (natLt · · = true) ∧ (∀ i ∈ all, isSingleItem i = true) ∧
        ∀ i, i ∈ all ↔ i ∈ set ∨ ∃ index ∈ indices, i ∈ b.members index := by
    induction indices with
    | nil => exact fun set hsorted hset => ⟨hsorted, hset, by simp⟩
    | cons index indices ih =>
      intro set hsorted hset
      have hstep : (if isSingleItem index then insertBy natLt index set
          else insertAll natLt (b.getItemSet index).items set) =
          insertAll natLt (b.members index) set := by
        by_cases hsingle : isSingleItem index = true
        · rw [if_pos hsingle, members, if_pos hsingle]
          rfl
        · rw [if_neg hsingle, members_of_set (by simpa using hsingle)]
      rw [List.foldl_cons, hstep]
      obtain ⟨hsorted', hset', hmem⟩ := ih (insertAll natLt (b.members index) set)
        (pairwise_insertAll natLt_trans hsorted) (by
          intro i hi
          rw [mem_insertAll_natLt] at hi
          exact hi.elim hb.members_single (hset i))
      refine ⟨hsorted', hset', ?_⟩
      intro i
      rw [hmem i, mem_insertAll_natLt]
      simp only [List.mem_cons, exists_eq_or_imp]
      tauto
  obtain ⟨hsorted, hset, hmem⟩ := hfold [] List.Pairwise.nil (by simp)
  obtain ⟨htidy, hgrows, hknown, hmembers⟩ := @addSetOrSingle_tidy T _ b hash hb _ hsorted hset
  refine ⟨htidy, hgrows, hknown, ?_⟩
  intro i
  simp only [merge] at hmembers ⊢
  rw [hmembers, hmem i]
  simp

end Tidy

end CompactStorageBuilder

/-- The seven sets that the data of a filter stands for. -/
structure FilterSets where
  allowedGrams : Finset ℕ := ∅
  forbiddenGrams : Finset ℕ := ∅
  allowedCases : Finset ℕ := ∅
  forbiddenCases : Finset ℕ := ∅
  allowedLangs : Finset ℕ := ∅
  forbiddenLangs : Finset ℕ := ∅
  agreements : Finset ℕ := ∅
deriving DecidableEq

def FilterSets.union (s t : FilterSets) : FilterSets where
  allowedGrams := s.allowedGrams ∪ t.allowedGrams
  forbiddenGrams := s.forbiddenGrams ∪ t.forbiddenGrams
  allowedCases := s.allowedCases ∪ t.allowedCases
  forbiddenCases := s.forbiddenCases ∪ t.forbiddenCases
  allowedLangs := s.allowedLangs ∪ t.allowedLangs
  forbiddenLangs := s.forbiddenLangs ∪ t.forbiddenLangs
  agreements := s.agreements ∪ t.agreements

theorem FilterSets.union_self (s : FilterSets) : s.union s = s := by
  simp [union]

theorem FilterSets.empty_union (s : FilterSets) : ({} : FilterSets).union s = s := by
  simp [union]

/-- The data of a key without options. -/
def emptyFilterData : FilterData :=
  let none := CompactStorageBuilder.emptySetIndex
  ⟨none, none, none, none, none, none, none⟩

namespace ArticleFilterBuilder
open CompactStorageBuilder

def dataSets (b : ArticleFilterBuilder) (d : FilterData) : FilterSets where
  allowedGrams := (b.wordGrammems.members d.allowedGramIndex).toFinset
  forbiddenGrams := (b.wordGrammems.members d.forbiddenGramIndex).toFinset
  allowedCases := (b.wordCases.members d.allowedCaseIndex).toFinset
  forbiddenCases := (b.wordCases.members d.forbiddenCaseIndex).toFinset
  allowedLangs := (b.wordLanguages.members d.allowedLangIndex).toFinset
  forbiddenLangs := (b.wordLanguages.members d.forbiddenLangIndex).toFinset
  agreements := (b.agreements.members d.agrIndex).toFinset

/-- The sets of a filter data. -/
def setsOf (b : ArticleFilterBuilder) (dataIndex : ℕ) : FilterSets :=
  b.dataSets (b.getFilterData dataIndex)

/-- What seven sets of indices ask of a phrase. -/
def constraintsOf (b : ArticleFilterBuilder) (s : FilterSets) : PhraseWords.Constraints :=
  b.constraints (s.allowedGrams.sort (· ≤ ·)) (s.forbiddenGrams.sort (· ≤ ·))
    (s.allowedCases.sort (· ≤ ·)) (s.forbiddenCases.sort (· ≤ ·)) (s.allowedLangs.sort (· ≤ ·))
    (s.forbiddenLangs.sort (· ≤ ·)) (s.agreements.sort (· ≤ ·))

/-- The indices of a filter data are known. -/
structure KnownData (b : ArticleFilterBuilder) (d : FilterData) : Prop where
  allowedGram : b.wordGrammems.Known d.allowedGramIndex
  forbiddenGram : b.wordGrammems.Known d.forbiddenGramIndex
  allowedCase : b.wordCases.Known d.allowedCaseIndex
  forbiddenCase : b.wordCases.Known d.forbiddenCaseIndex
  allowedLang : b.wordLanguages.Known d.allowedLangIndex
  forbiddenLang : b.wordLanguages.Known d.forbiddenLangIndex
  agr : b.agreements.Known d.agrIndex

/-- The stores share sets, and filter data are stored once. -/
structure Ready (b : ArticleFilterBuilder) : Prop where
  wordGrammems : b.wordGrammems.Tidy
  wordCases : b.wordCases.Tidy
  wordLanguages : b.wordLanguages.Tidy
  agreements : b.agreements.Tidy
  filterData : b.filterData.WellFormed
  known : ∀ d ∈ b.filterData.items, b.KnownData d

/-- The stores grow. -/
structure Extends (b b' : ArticleFilterBuilder) : Prop where
  wordGrammems : Grows b.wordGrammems b'.wordGrammems
  wordCases : Grows b.wordCases b'.wordCases
  wordLanguages : Grows b.wordLanguages b'.wordLanguages
  agreements : Grows b.agreements b'.agreements
  filterData : Grows b.filterData b'.filterData
  emptyFilterDataIndex : b'.emptyFilterDataIndex = b.emptyFilterDataIndex

/-- The stores grow, and the articles stay as they are. -/
structure Builds (b b' : ArticleFilterBuilder) : Prop extends Extends b b' where
  filteredArticles : b'.filteredArticles = b.filteredArticles
  simpleArticles : b'.simpleArticles = b.simpleArticles

/-- An index of a filter data that is there. -/
def HasData (b : ArticleFilterBuilder) (dataIndex : ℕ) : Prop :=
  isSingleItem dataIndex = true ∧ dataIndex / 2 < b.filterData.items.length

section Extends
variable {b b' b'' : ArticleFilterBuilder}

theorem Extends.refl (b : ArticleFilterBuilder) : Extends b b :=
  ⟨Grows.refl _, Grows.refl _, Grows.refl _, Grows.refl _, Grows.refl _, rfl⟩

theorem Builds.refl (b : ArticleFilterBuilder) : Builds b b := ⟨Extends.refl b, rfl, rfl⟩

theorem Extends.trans (h : Extends b b') (h' : Extends b' b'') : Extends b b'' where
  wordGrammems := h.wordGrammems.trans h'.wordGrammems
  wordCases := h.wordCases.trans h'.wordCases
  wordLanguages := h.wordLanguages.trans h'.wordLanguages
  agreements := h.agreements.trans h'.agreements
  filterData := h.filterData.trans h'.filterData
  emptyFilterDataIndex := h'.emptyFilterDataIndex.trans h.emptyFilterDataIndex

theorem Builds.trans (h : Builds b b') (h' : Builds b' b'') : Builds b b'' where
  toExtends := h.toExtends.trans h'.toExtends
  filteredArticles := h'.filteredArticles.trans h.filteredArticles
  simpleArticles := h'.simpleArticles.trans h.simpleArticles

theorem KnownData.mono (hg : Grows b.wordGrammems b'.wordGrammems)
    (hc : Grows b.wordCases b'.wordCases) (hl : Grows b.wordLanguages b'.wordLanguages)
    (ha : Grows b.agreements b'.agreements) {d : FilterData} (h : b.KnownData d) :
    b'.KnownData d :=
  ⟨hg.known h.allowedGram, hg.known h.forbiddenGram, hc.known h.allowedCase,
    hc.known h.forbiddenCase, hl.known h.allowedLang, hl.known h.forbiddenLang, ha.known h.agr⟩

theorem Extends.knownData (h : Extends b b') {d : FilterData} (hd : b.KnownData d) :
    b'.KnownData d :=
  hd.mono h.wordGrammems h.wordCases h.wordLanguages h.agreements

theorem Extends.dataSets (h : Extends b b') {d : FilterData} (hd : b.KnownData d) :
    b'.dataSets d = b.dataSets d := by
  simp only [ArticleFilterBuilder.dataSets, h.wordGrammems.members hd.allowedGram,
    h.wordGrammems.members hd.forbiddenGram, h.wordCases.members hd.allowedCase,
    h.wordCases.members hd.forbiddenCase, h.wordLanguages.members hd.allowedLang,
    h.wordLanguages.members hd.forbiddenLang, h.agreements.members hd.agr]

theorem Extends.hasData (h : Extends b b') {dataIndex : ℕ} (hd : b.HasData dataIndex) :
    b'.HasData dataIndex :=
  ⟨hd.1, lt_of_lt_of_le hd.2 h.filterData.items.length_le⟩

theorem getItem_of_hasData {dataIndex : ℕ} (hd : b.HasData dataIndex) :
    b.filterData.getItem dataIndex = some (b.getFilterData dataIndex) := by
  rw [getFilterData, CompactStorageBuilder.getItem, List.getElem?_eq_getElem hd.2, Option.getD_some]

theorem Ready.knownData (hb : b.Ready) {dataIndex : ℕ} (hd : b.HasData dataIndex) :
    b.KnownData (b.getFilterData dataIndex) :=
  hb.known _ (List.mem_of_getElem? (getItem_of_hasData hd))

theorem Extends.setsOf (h : Extends b b') (hb : b.Ready) {dataIndex : ℕ}
    (hd : b.HasData dataIndex) :
    b'.setsOf dataIndex = b.setsOf dataIndex := by
  have hsame : b'.getFilterData dataIndex = b.getFilterData dataIndex := by
    rw [getFilterData, h.filterData.getItem (getItem_of_hasData hd), Option.getD_some]
  rw [ArticleFilterBuilder.setsOf, hsame, h.dataSets (hb.knownData hd)]
  rfl

end Extends

section Building
variable {params : FilterParams} {b : ArticleFilterBuilder}

theorem Ready.grow {b' : ArticleFilterBuilder} (hb : b.Ready) (h : Extends b b')
    (hgrammems : b'.wordGrammems.Tidy) (hcases : b'.wordCases.Tidy)
    (hlanguages : b'.wordLanguages.Tidy) (hagreements : b'.agreements.Tidy)
    (hdata : b'.filterData = b.filterData) : b'.Ready := by
  refine ⟨hgrammems, hcases, hlanguages, hagreements, hdata ▸ hb.filterData, ?_⟩
  intro d hd
  rw [hdata] at hd
  exact h.knownData (hb.known d hd)

theorem addWordValues_tidy {V W : Type} [DecidableEq V]
    (store : W → CompactStorageBuilder V → CompactStorageBuilder V × ℕ) (m : List (ℕ × W))
    (values : CompactStorageBuilder V) {words : CompactStorageBuilder SingleWordFilter}
    (hwords : words.Tidy) :
    (addWordValues store m values words).2.1.Tidy ∧
      Grows words (addWordValues store m values words).2.1 := by
  induction m generalizing values words with
  | nil => exact ⟨hwords, Grows.refl words⟩
  | cons entry m ih =>
    obtain ⟨hadded, hgrows, -⟩ := add_tidy hwords ⟨entry.1, (store entry.2 values).2⟩
    obtain ⟨htidy, hgrows'⟩ := ih (store entry.2 values).1 hadded
    exact ⟨htidy, hgrows.trans hgrows'⟩

theorem addWords_tidy {V W : Type} [DecidableEq V]
    (store : W → CompactStorageBuilder V → CompactStorageBuilder V × ℕ) (m : List (ℕ × W))
    (values : CompactStorageBuilder V) {words : CompactStorageBuilder SingleWordFilter}
    (hwords : words.Tidy) :
    let r := addWords params store m values words
    r.2.1.Tidy ∧ Grows words r.2.1 ∧ r.2.1.Known r.2.2 := by
  obtain ⟨htidy, hgrows⟩ := addWordValues_tidy store m values hwords
  obtain ⟨htidy', hgrows', hknown, -⟩ :=
    @merge_tidy _ _ _ params.hash htidy (addWordValues store m values words).2.2
  exact ⟨htidy', hgrows.trans hgrows', hknown⟩

theorem addWordGrams_spec (hb : b.Ready) (m : List (ℕ × List GramBits)) :
    let r := addWordGrams params m b
    r.1.Ready ∧ Builds b r.1 ∧ r.1.wordGrammems.Known r.2 := by
  obtain ⟨htidy, hgrows, hknown⟩ := @addWords_tidy params _ _ _
    (fun grams s => s.addRange params.hash true grams) m b.grammems b.wordGrammems hb.wordGrammems
  have hextends : Builds b (addWordGrams params m b).1 :=
    ⟨⟨hgrows, Grows.refl _, Grows.refl _, Grows.refl _, Grows.refl _, rfl⟩, rfl, rfl⟩
  exact ⟨hb.grow hextends.toExtends htidy hb.wordCases hb.wordLanguages hb.agreements rfl,
    hextends, hknown⟩

theorem addWordLangs_spec (hb : b.Ready) (m : List (ℕ × Finset ℕ)) :
    let r := addWordLangs params m b
    r.1.Ready ∧ Builds b r.1 ∧ r.1.wordLanguages.Known r.2 := by
  obtain ⟨htidy, hgrows, hknown⟩ := @addWords_tidy params _ _ _
    (fun mask s => s.add mask) m b.langMasks b.wordLanguages hb.wordLanguages
  have hextends : Builds b (addWordLangs params m b).1 :=
    ⟨⟨Grows.refl _, Grows.refl _, hgrows, Grows.refl _, Grows.refl _, rfl⟩, rfl, rfl⟩
  exact ⟨hb.grow hextends.toExtends hb.wordGrammems hb.wordCases htidy hb.agreements rfl,
    hextends, hknown⟩

theorem addWordCases_spec (hb : b.Ready) (masks : List ℕ)
    (m : List (ℕ × List CapitalizationType)) :
    let r := addWordCases params masks m b
    r.1.Ready ∧ Builds b r.1 ∧ r.1.wordCases.Known r.2 := by
  obtain ⟨htidy, hgrows, hknown⟩ := @addWords_tidy params _ _ _
    (fun cases s => s.addRange params.hash true cases)
    (m.map fun c => (c.1, c.2.map fun type =>
      if type = .exact then exactCase (masks.getD c.1 0) else ⟨type, 0⟩))
    b.capitalizations b.wordCases hb.wordCases
  have hextends : Builds b (addWordCases params masks m b).1 :=
    ⟨⟨Grows.refl _, hgrows, Grows.refl _, Grows.refl _, Grows.refl _, rfl⟩, rfl, rfl⟩
  exact ⟨hb.grow hextends.toExtends hb.wordGrammems htidy hb.wordLanguages hb.agreements
    rfl, hextends,
    hknown⟩

theorem addAgreements_spec {n : ℕ} {agr : List AgrOption} (hb : b.Ready)
    {r : ArticleFilterBuilder × List ℕ} (h : addAgreements params n agr b = some r) :
    r.1.Ready ∧ Builds b r.1 := by
  induction agr generalizing b r with
  | nil =>
    simp only [addAgreements, Option.some.injEq] at h
    subst h
    exact ⟨hb, Builds.refl b⟩
  | cons agr rest ih =>
    rw [addAgreements] at h
    cases hwords : collectWordIndexes agr.words n with
    | none => simp [hwords] at h
    | some words =>
      simp only [hwords, Option.bind_eq_bind, Option.bind_some] at h
      split at h
      · cases hrest : addAgreements params n rest b with
        | none => simp [hrest] at h
        | some r' =>
          simp only [hrest, Option.bind_some, Option.pure_def, Option.some.injEq] at h
          subst h
          obtain ⟨hready, hextends⟩ := ih hb hrest
          exact ⟨hready, hextends⟩
      · obtain ⟨hadded, hgrows, -⟩ := add_tidy hb.agreements
          ⟨(b.gleicheWords.addRange params.hash true words).2,
            agr.types.foldl (fun mask type => mask ∪ params.gleicheMask (type % 100)) ∅⟩
        generalize hnext : ({ b with
            gleicheWords := (b.gleicheWords.addRange params.hash true words).1
            agreements := (b.agreements.add
              ⟨(b.gleicheWords.addRange params.hash true words).2,
                agr.types.foldl (fun mask type => mask ∪ params.gleicheMask (type % 100)) ∅⟩).1 } :
          ArticleFilterBuilder) = next at h
        have hextends : Builds b next := by
          subst hnext
          exact ⟨⟨Grows.refl _, Grows.refl _, Grows.refl _, hgrows, Grows.refl _, rfl⟩, rfl, rfl⟩
        have hready : next.Ready := by
          subst hnext
          exact hb.grow hextends.toExtends hb.wordGrammems hb.wordCases hb.wordLanguages hadded rfl
        cases hrest : addAgreements params n rest next with
        | none => simp [hrest] at h
        | some r' =>
          simp only [hrest, Option.bind_some, Option.pure_def, Option.some.injEq] at h
          subst h
          obtain ⟨hready', hextends'⟩ := ih hready hrest
          exact ⟨hready', hextends.trans hextends'⟩

theorem makeAgrFilter_spec {n : ℕ} {agr : List AgrOption} (hb : b.Ready)
    {r : ArticleFilterBuilder × ℕ} (h : makeAgrFilter params agr n b = some r) :
    r.1.Ready ∧ Builds b r.1 ∧ r.1.agreements.Known r.2 := by
  unfold makeAgrFilter at h
  cases hagr : addAgreements params n agr b with
  | none => simp [hagr] at h
  | some r' =>
    simp only [hagr, Option.bind_eq_bind, Option.bind_some, Option.pure_def,
      Option.some.injEq] at h
    subst h
    obtain ⟨hready, hextends⟩ := addAgreements_spec hb hagr
    obtain ⟨htidy, hgrows, hknown, -⟩ := @merge_tidy _ _ _ params.hash hready.agreements r'.2
    have hextends' : Builds r'.1 { r'.1 with agreements :=
        (r'.1.agreements.merge params.hash true r'.2).1 } :=
      ⟨⟨Grows.refl _, Grows.refl _, Grows.refl _, hgrows, Grows.refl _, rfl⟩, rfl, rfl⟩
    exact ⟨hready.grow hextends'.toExtends hready.wordGrammems hready.wordCases hready.wordLanguages
      htidy rfl,
      hextends.trans hextends', hknown⟩

theorem addData_spec (hb : b.Ready) {d : FilterData} (hd : b.KnownData d) :
    let r := b.filterData.add d
    let b' := { b with filterData := r.1 }
    b'.Ready ∧ Builds b b' ∧ b'.HasData r.2 ∧ b'.getFilterData r.2 = d := by
  have hadded := add_spec hb.filterData d
  intro r b'
  have hextends : Builds b b' :=
    ⟨⟨Grows.refl _, Grows.refl _, Grows.refl _, Grows.refl _,
      ⟨hadded.items, fun slot set hset => by rw [hadded.slotItems]; exact hset⟩, rfl⟩, rfl, rfl⟩
  have hmem : ∀ d' ∈ r.1.items, d' ∈ b.filterData.items ∨ d' = d := by
    show ∀ d' ∈ (b.filterData.add d).1.items, d' ∈ b.filterData.items ∨ d' = d
    unfold CompactStorageBuilder.add
    cases b.filterData.itemIndex.lookup d with
    | some i => exact fun d' h => .inl h
    | none => exact fun d' h => by simpa using h
  refine ⟨⟨hb.wordGrammems, hb.wordCases, hb.wordLanguages, hb.agreements, hadded.wellFormed, ?_⟩,
    hextends, ⟨hadded.single, (List.getElem?_eq_some_iff.mp hadded.item).1⟩, ?_⟩
  · intro d' hd'
    apply hextends.knownData
    rcases hmem d' hd' with hold | rfl
    · exact hb.known d' hold
    · exact hd
  · show (r.1.getItem r.2).getD _ = d
    rw [CompactStorageBuilder.getItem, hadded.item, Option.getD_some]

theorem addFilterData_spec {key : SearchKey} {masks : List ℕ} {n : ℕ} (hb : b.Ready)
    {r : ArticleFilterBuilder × ℕ} (h : addFilterData params key masks n b = some r) :
    r.1.Ready ∧ Builds b r.1 ∧ r.1.HasData r.2 := by
  unfold addFilterData at h
  simp only [Option.bind_eq_bind, Option.bind_eq_some_iff, Option.pure_def, Option.some.injEq] at h
  obtain ⟨grams, -, langs, -, cases, -, agr, hagr, rfl⟩ := h
  obtain ⟨h1, e1, k1⟩ := @addWordGrams_spec params b hb grams.1
  obtain ⟨h2, e2, k2⟩ := @addWordGrams_spec params _ h1 grams.2
  obtain ⟨h3, e3, k3⟩ := @addWordLangs_spec params _ h2 langs.1
  obtain ⟨h4, e4, k4⟩ := @addWordLangs_spec params _ h3 langs.2
  obtain ⟨h5, e5, k5⟩ := @addWordCases_spec params _ h4 masks cases.1
  obtain ⟨h6, e6, k6⟩ := @addWordCases_spec params _ h5 masks cases.2
  obtain ⟨h7, e7, k7⟩ := makeAgrFilter_spec h6 hagr
  -- an index stays known in all later steps
  have e67 := e6.trans e7
  have e47 := e5.trans e67
  have e37 := e4.trans e47
  have e27 := e3.trans e37
  obtain ⟨hready, hextends, hhas, -⟩ := addData_spec (d := ⟨_, _, _, _, _, _, agr.2⟩) h7
    ⟨(e2.trans e27).wordGrammems.known k1, e27.wordGrammems.known k2, e67.wordCases.known k5,
      e7.wordCases.known k6, e37.wordLanguages.known k3, e47.wordLanguages.known k4, k7⟩
  exact ⟨hready, ((e1.trans (e2.trans e27))).trans hextends, hhas⟩

theorem merge_pair {V : Type} [DecidableEq V] {s : CompactStorageBuilder V} (hs : s.Tidy)
    (hash : List ℕ → ℕ) (i j : ℕ) :
    let r := s.merge hash true [i, j]
    r.1.Tidy ∧ Grows s r.1 ∧ r.1.Known r.2 ∧
      (r.1.members r.2).toFinset = (s.members i).toFinset ∪ (s.members j).toFinset := by
  obtain ⟨htidy, hgrows, hknown, hmem⟩ := @merge_tidy V _ s hash hs [i, j]
  refine ⟨htidy, hgrows, hknown, ?_⟩
  ext x
  simp [hmem]

/-- Merged filters ask what both of them ask. -/
theorem mergeFilters_spec (hb : b.Ready) {f₁ f₂ : ArticleFilter} (h₁ : b.HasData f₁.dataIndex)
    (h₂ : b.HasData f₂.dataIndex) :
    let r := mergeFilters params b f₁ f₂
    r.1.Ready ∧ Builds b r.1 ∧ r.1.HasData r.2.dataIndex ∧ r.2.articleId = f₁.articleId ∧
      r.1.setsOf r.2.dataIndex = (b.setsOf f₁.dataIndex).union (b.setsOf f₂.dataIndex) := by
  have hd₁ := hb.knownData h₁
  have hd₂ := hb.knownData h₂
  unfold mergeFilters
  generalize hf₁ : b.getFilterData f₁.dataIndex = d₁ at hd₁ ⊢
  generalize hf₂ : b.getFilterData f₂.dataIndex = d₂ at hd₂ ⊢
  obtain ⟨t1, g1, k1, m1⟩ := merge_pair hb.wordGrammems params.hash d₁.allowedGramIndex
    d₂.allowedGramIndex
  obtain ⟨t2, g2, k2, m2⟩ := merge_pair t1 params.hash d₁.forbiddenGramIndex d₂.forbiddenGramIndex
  obtain ⟨t3, g3, k3, m3⟩ := merge_pair hb.wordCases params.hash d₁.allowedCaseIndex
    d₂.allowedCaseIndex
  obtain ⟨t4, g4, k4, m4⟩ := merge_pair t3 params.hash d₁.forbiddenCaseIndex d₂.forbiddenCaseIndex
  obtain ⟨t5, g5, k5, m5⟩ := merge_pair hb.wordLanguages params.hash d₁.allowedLangIndex
    d₂.allowedLangIndex
  obtain ⟨t6, g6, k6, m6⟩ := merge_pair t5 params.hash d₁.forbiddenLangIndex d₂.forbiddenLangIndex
  obtain ⟨t7, g7, k7, m7⟩ := merge_pair hb.agreements params.hash d₁.agrIndex d₂.agrIndex
  rw [g1.members hd₁.forbiddenGram, g1.members hd₂.forbiddenGram] at m2
  rw [g3.members hd₁.forbiddenCase, g3.members hd₂.forbiddenCase] at m4
  rw [g5.members hd₁.forbiddenLang, g5.members hd₂.forbiddenLang] at m6
  rw [← g2.members k1] at m1
  rw [← g4.members k3] at m3
  rw [← g6.members k5] at m5
  simp only
  generalize b.wordGrammems.merge params.hash true [d₁.allowedGramIndex, d₂.allowedGramIndex] =
    allowedGram at *
  generalize allowedGram.1.merge params.hash true [d₁.forbiddenGramIndex, d₂.forbiddenGramIndex] =
    forbiddenGram at *
  generalize b.wordCases.merge params.hash true [d₁.allowedCaseIndex, d₂.allowedCaseIndex] =
    allowedCase at *
  generalize allowedCase.1.merge params.hash true [d₁.forbiddenCaseIndex, d₂.forbiddenCaseIndex] =
    forbiddenCase at *
  generalize b.wordLanguages.merge params.hash true [d₁.allowedLangIndex, d₂.allowedLangIndex] =
    allowedLang at *
  generalize allowedLang.1.merge params.hash true [d₁.forbiddenLangIndex, d₂.forbiddenLangIndex] =
    forbiddenLang at *
  generalize b.agreements.merge params.hash true [d₁.agrIndex, d₂.agrIndex] = agr at *
  let next : ArticleFilterBuilder := { b with
    wordGrammems := forbiddenGram.1
    wordCases := forbiddenCase.1
    wordLanguages := forbiddenLang.1
    agreements := agr.1 }
  have hextends : Builds b next :=
    ⟨⟨g1.trans g2, g3.trans g4, g5.trans g6, g7, Grows.refl _, rfl⟩, rfl, rfl⟩
  have hnext : next.Ready := hb.grow hextends.toExtends t2 t4 t6 t7 rfl
  obtain ⟨hready, hextends', hhas, hget⟩ := @addData_spec next hnext
    ⟨allowedGram.2, forbiddenGram.2, allowedCase.2, forbiddenCase.2, allowedLang.2,
      forbiddenLang.2, agr.2⟩
    ⟨g2.known k1, k2, g4.known k3, k4, g6.known k5, k6, k7⟩
  refine ⟨hready, hextends.trans hextends', hhas, trivial, ?_⟩
  rw [setsOf, hget, setsOf, setsOf, hf₁, hf₂]
  simp only [dataSets, FilterSets.union, m1, m2, m3, m4, m5, m6, m7]

/-- The filter data of a key without options is at its place. -/
def EmptyData (b : ArticleFilterBuilder) : Prop :=
  b.HasData b.emptyFilterDataIndex ∧ b.getFilterData b.emptyFilterDataIndex = emptyFilterData

theorem EmptyData.extends {b' : ArticleFilterBuilder} (h : b.EmptyData) (he : Extends b b') :
    b'.EmptyData := by
  rw [EmptyData, he.emptyFilterDataIndex]
  refine ⟨he.hasData h.1, ?_⟩
  rw [getFilterData, he.filterData.getItem (getItem_of_hasData h.1), Option.getD_some, h.2]

theorem Ready.eq_of_getFilterData (hb : b.Ready) {i j : ℕ} (hi : b.HasData i) (hj : b.HasData j)
    (h : b.getFilterData i = b.getFilterData j) : i = j := by
  have hlookup := fun k (hk : b.HasData k) =>
    (hb.filterData.index (b.getFilterData k) k).mpr ⟨hk.1, getItem_of_hasData hk⟩
  have hsame := hlookup i hi
  rw [h, hlookup j hj, Option.some.injEq] at hsame
  exact hsame.symm

theorem isEmptyFilter_iff (hb : b.Ready) (he : b.EmptyData) {dataIndex : ℕ}
    (hd : b.HasData dataIndex) :
    b.isEmptyFilter dataIndex = true ↔ b.getFilterData dataIndex = emptyFilterData := by
  rw [isEmptyFilter, beq_iff_eq]
  constructor
  · rintro rfl
    exact he.2
  · intro h
    exact hb.eq_of_getFilterData hd he.1 (h.trans he.2.symm)

theorem setsOf_of_empty (hb : b.Ready) {dataIndex : ℕ}
    (h : b.getFilterData dataIndex = emptyFilterData) : b.setsOf dataIndex = {} := by
  rw [setsOf, h]
  simp [dataSets, emptyFilterData, hb.wordGrammems.members_empty, hb.wordCases.members_empty,
    hb.wordLanguages.members_empty, hb.agreements.members_empty]

theorem sort_members {V : Type} [DecidableEq V] {s : CompactStorageBuilder V} (hs : s.Tidy)
    (index : ℕ) : (s.members index).toFinset.sort (· ≤ ·) = s.members index := by
  have hlt : (s.members index).Pairwise (· < ·) := by
    have := hs.members_sorted index
    simpa [natLt] using this
  rw [List.toFinset_sort]
  · exact hlt.imp le_of_lt
  · exact hlt.imp ne_of_lt

theorem filterConstraints_eq (hb : b.Ready) (dataIndex : ℕ) :
    b.filterConstraints dataIndex = b.constraintsOf (b.setsOf dataIndex) := by
  simp only [filterConstraints, constraintsOf, setsOf, dataSets, sort_members hb.wordGrammems,
    sort_members hb.wordCases, sort_members hb.wordLanguages, sort_members hb.agreements]

theorem constraintsOf_empty : b.constraintsOf {} = {} := by
  simp [constraintsOf, constraints, wordValues]

theorem merge_nil {V : Type} [DecidableEq V] (s : CompactStorageBuilder V) (hash : List ℕ → ℕ) :
    s.merge hash true [] = (s, emptySetIndex) := by
  simp [merge, addSetOrSingle, addSet]

theorem addWords_nil {V W : Type} [DecidableEq V]
    (store : W → CompactStorageBuilder V → CompactStorageBuilder V × ℕ)
    (values : CompactStorageBuilder V) (words : CompactStorageBuilder SingleWordFilter) :
    addWords params store [] values words = (values, words, emptySetIndex) := by
  simp [addWords, addWordValues, merge_nil]

theorem addFilterData_noOptions (b : ArticleFilterBuilder) (masks : List ℕ) (n : ℕ) :
    addFilterData params {} masks n b =
      some ({ b with filterData := (b.filterData.add emptyFilterData).1 },
        (b.filterData.add emptyFilterData).2) := by
  simp only [addFilterData, collectOptions, makeAgrFilter, addAgreements, Option.bind_eq_bind,
    Option.bind_some, addWordGrams, addWordLangs, addWordCases, List.map_nil, addWords_nil,
      merge_nil,
    Option.pure_def]
  rfl

theorem create_ready : (create params).Ready ∧ (create params).EmptyData := by
  let base : ArticleFilterBuilder := {
    grammems := CompactStorageBuilder.create params.hash true
    wordGrammems := CompactStorageBuilder.create params.hash true
    langMasks := CompactStorageBuilder.create params.hash true
    wordLanguages := CompactStorageBuilder.create params.hash true
    capitalizations := CompactStorageBuilder.create params.hash true
    wordCases := CompactStorageBuilder.create params.hash true
    gleicheWords := CompactStorageBuilder.create params.hash true
    agreements := CompactStorageBuilder.create params.hash true
    filterData := CompactStorageBuilder.create params.hash true
    filteredArticles := { base := CompactStorageBuilder.create params.hash false }
    simpleArticles := CompactStorageBuilder.create params.hash false
    emptyFilterDataIndex := 0 }
  have hnone : (CompactStorageBuilder.create params.hash true :
      CompactStorageBuilder FilterData).items = [] := by
    have : SlotFor ({} : CompactStorageBuilder FilterData) []
        (indexatorAdd params.hash true {} ⟨[], 0⟩) := indexatorAdd_spec {} []
    exact this.items
  have hbase : base.Ready := by
    refine ⟨(create_wellFormed _ _).tidy, (create_wellFormed _ _).tidy,
      (create_wellFormed _ _).tidy, (create_wellFormed _ _).tidy, create_wellFormed _ _, ?_⟩
    intro d hd
    rw [hnone] at hd
    exact absurd hd List.not_mem_nil
  have hknown : base.KnownData emptyFilterData :=
    ⟨known_empty hbase.wordGrammems.empty, known_empty hbase.wordGrammems.empty,
      known_empty hbase.wordCases.empty, known_empty hbase.wordCases.empty,
      known_empty hbase.wordLanguages.empty, known_empty hbase.wordLanguages.empty,
      known_empty hbase.agreements.empty⟩
  obtain ⟨hready, hextends, hhas, hget⟩ := addData_spec hbase hknown
  have hcreate : create params = { base with
      filterData := (base.filterData.add emptyFilterData).1
      emptyFilterDataIndex := (base.filterData.add emptyFilterData).2 } := by
    rw [create]
    simp only [addFilterData_noOptions]
    rfl
  rw [hcreate]
  refine ⟨⟨hready.wordGrammems, hready.wordCases, hready.wordLanguages, hready.agreements,
    hready.filterData, ?_⟩, hhas, hget⟩
  intro d hd
  have h := hready.known d hd
  exact ⟨h.allowedGram, h.forbiddenGram, h.allowedCase, h.forbiddenCase, h.allowedLang,
    h.forbiddenLang, h.agr⟩

end Building
end ArticleFilterBuilder
end TomitaParser.Gzt
