import TomitaParser.Gzt.FilterStores
/-! # Filters of phrases

Each phrase has an index of the filters of its articles. A set of filters belongs to one phrase, and
holds at most one filter of an article. -/

namespace TomitaParser.Gzt
open OrderedSet CompactStorageBuilder

/-- The filters of an index: for each article the data of its filter. -/
structure FiltersOf (base : CompactStorageBuilder ArticleFilter) (members : List ℕ)
    (data : ℕ → Option ℕ) : Prop where
  sorted : members.Pairwise (natLt · · = true)
  single : ∀ i ∈ members, isSingleItem i = true ∧ i / 2 < base.items.length
  mem : ∀ a d, data a = some d ↔ ∃ i ∈ members, base.items[i / 2]? = some ⟨a, d⟩
  one : ∀ i ∈ members, ∀ j ∈ members, ∀ f g, base.items[i / 2]? = some f →
    base.items[j / 2]? = some g → f.articleId = g.articleId → i = j

/-- The filters of all phrases. -/
structure FiltersReady (s : FilterStorage) (index : ℕ → Option ℕ) (data : ℕ → ℕ → Option ℕ) :
    Prop where
  noIndex : s.base.itemIndex = []
  empty : s.base.slotItems 0 = some []
  counts : ∀ slot, s.base.refCount slot ≤ 1
  table : ∀ d, ∀ entry ∈ s.filterIndex.getD d [],
    isSingleItem entry.2 = true ∧ s.base.items[entry.2 / 2]? = some ⟨entry.1, d⟩
  valid : ∀ q i, index q = some i → isSingleItem i = true ∨ (s.base.slotItems (i / 2)).isSome = true
  apart : ∀ q q' i, index q = some i → index q' = some i → isSingleItem i = false →
    i ≠ emptySetIndex → q = q'
  filters : ∀ q i, index q = some i → FiltersOf s.base (s.base.members i) (data q)

section Basic
variable {base base' : CompactStorageBuilder ArticleFilter} {members : List ℕ}
  {data : ℕ → Option ℕ}

theorem FiltersOf.nil (base : CompactStorageBuilder ArticleFilter) :
    FiltersOf base [] fun _ => none :=
  ⟨List.Pairwise.nil, by simp, by simp, by simp⟩

theorem FiltersOf.mono (h : FiltersOf base members data) (hitems : base.items <+: base'.items) :
    FiltersOf base' members data := by
  have hsame : ∀ i ∈ members, base'.items[i / 2]? = base.items[i / 2]? := by
    intro i hi
    obtain ⟨more, hmore⟩ := hitems
    rw [← hmore, List.getElem?_append_left (h.single i hi).2]
  refine ⟨h.sorted, ?_, ?_, ?_⟩
  · exact fun i hi => ⟨(h.single i hi).1, lt_of_lt_of_le (h.single i hi).2 hitems.length_le⟩
  · intro a d
    rw [h.mem a d]
    apply exists_congr
    intro i
    apply and_congr_right
    intro hi
    rw [hsame i hi]
  · intro i hi j hj f g hf hg
    rw [hsame i hi] at hf
    rw [hsame j hj] at hg
    exact h.one i hi j hj f g hf hg

/-- The filter of an article becomes another one. -/
theorem FiltersOf.update (h : FiltersOf base members data) {a d i : ℕ}
    (hsingle : isSingleItem i = true) (hi : base.items[i / 2]? = some ⟨a, d⟩)
    {kept : List ℕ} (hsorted : kept.Pairwise (natLt · · = true))
    (hkept : ∀ j, j ∈ kept ↔ j ∈ members ∧ ∀ f, base.items[j / 2]? = some f → f.articleId ≠ a) :
    FiltersOf base (insertBy natLt i kept) (Function.update data a (some d)) := by
  have hlt : i / 2 < base.items.length := (List.getElem?_eq_some_iff.mp hi).1
  refine ⟨pairwise_insertBy natLt_trans hsorted, ?_, ?_, ?_⟩
  · intro j hj
    rw [mem_insertBy_natLt] at hj
    rcases hj with rfl | hj
    · exact ⟨hsingle, hlt⟩
    · exact h.single j ((hkept j).mp hj).1
  · intro a' d'
    simp only [mem_insertBy_natLt, or_and_right, exists_or, exists_eq_left, hi, Option.some.injEq,
      ArticleFilter.mk.injEq]
    by_cases ha : a' = a
    · subst ha
      rw [Function.update_self, Option.some.injEq]
      constructor
      · intro hd
        exact .inl ⟨rfl, hd⟩
      · rintro (⟨-, hd⟩ | ⟨j, hj, hitem⟩)
        · exact hd
        · exact absurd rfl (((hkept j).mp hj).2 _ hitem)
    · rw [Function.update_of_ne ha, h.mem a' d']
      constructor
      · rintro ⟨j, hj, hitem⟩
        refine .inr ⟨j, (hkept j).mpr ⟨hj, ?_⟩, hitem⟩
        intro f hf
        rw [hitem, Option.some.injEq] at hf
        subst hf
        exact ha
      · rintro (⟨rfl, -⟩ | ⟨j, hj, hitem⟩)
        · exact absurd rfl ha
        · exact ⟨j, ((hkept j).mp hj).1, hitem⟩
  · intro j hj k hk f g hf hg hsame
    rw [mem_insertBy_natLt] at hj hk
    rcases hj with rfl | hj
    · rcases hk with rfl | hk
      · rfl
      · rw [hi, Option.some.injEq] at hf
        subst hf
        exact absurd hsame.symm (((hkept k).mp hk).2 g hg)
    · rcases hk with rfl | hk
      · rw [hi, Option.some.injEq] at hg
        subst hg
        exact absurd hsame (((hkept j).mp hj).2 f hf)
      · exact h.one j ((hkept j).mp hj).1 k ((hkept k).mp hk).1 f g hf hg hsame

theorem FiltersOf.insert (h : FiltersOf base members data) {a d i : ℕ}
    (hsingle : isSingleItem i = true) (hi : base.items[i / 2]? = some ⟨a, d⟩) (ha : data a = none) :
    FiltersOf base (insertBy natLt i members) (Function.update data a (some d)) := by
  refine h.update hsingle hi h.sorted ?_
  intro j
  refine ⟨fun hj => ⟨hj, ?_⟩, fun hj => hj.1⟩
  rintro ⟨a', d'⟩ hf rfl
  have := (h.mem a' d').mpr ⟨j, hj, hf⟩
  rw [ha] at this
  cases this

theorem FiltersOf.replace (h : FiltersOf base members data) {a d d' i old : ℕ}
    (hsingle : isSingleItem i = true) (hi : base.items[i / 2]? = some ⟨a, d⟩)
    (hold : old ∈ members) (hitem : base.items[old / 2]? = some ⟨a, d'⟩) :
    FiltersOf base (insertBy natLt i (members.filter (· ≠ old)))
      (Function.update data a (some d)) := by
  refine h.update hsingle hi (h.sorted.filter _) ?_
  intro j
  rw [List.mem_filter, decide_eq_true_eq]
  apply and_congr_right
  intro hj
  constructor
  · rintro hne f hf ha
    exact hne (h.one j hj old hold f _ hf hitem ha)
  · rintro hne rfl
    exact hne _ hitem rfl

end Basic

section Storage
variable {s : FilterStorage} {index : ℕ → Option ℕ} {data : ℕ → ℕ → Option ℕ}

/-- What `FilterStorage.add` does: the filter is stored, and nothing else changes. -/
structure FilterAdded (s : FilterStorage) (item : ArticleFilter)
    (r : FilterStorage × ℕ) : Prop where
  items : s.base.items <+: r.1.base.items
  itemSets : r.1.base.itemSets = s.base.itemSets
  single : isSingleItem r.2 = true
  item : r.1.base.items[r.2 / 2]? = some item

theorem FiltersReady.slotItems_congr {s' : FilterStorage}
    (h : s'.base.itemSets = s.base.itemSets) : s'.base.slotItems = s.base.slotItems := by
  funext slot
  rw [slotItems, slotItems, h]

theorem FilterAdded.getItem {item : ArticleFilter} {r : FilterStorage × ℕ}
    (h : FilterAdded s item r) {i : ℕ} {f : ArticleFilter} (hf : s.base.items[i / 2]? = some f) :
    r.1.base.items[i / 2]? = some f := by
  obtain ⟨more, hmore⟩ := h.items
  rw [← hmore, List.getElem?_append_left (List.getElem?_eq_some_iff.mp hf).1, hf]

theorem FilterAdded.members_eq {item : ArticleFilter} {r : FilterStorage × ℕ}
    (h : FilterAdded s item r) (i : ℕ) : r.1.base.members i = s.base.members i := by
  rw [members, members, FiltersReady.slotItems_congr h.itemSets]

theorem FiltersReady.grow (h : FiltersReady s index data) {s' : FilterStorage}
    (hitems : s.base.items <+: s'.base.items) (hsets : s'.base.itemSets = s.base.itemSets)
    (hindex : s'.base.itemIndex = s.base.itemIndex)
    (htable : ∀ d, ∀ entry ∈ s'.filterIndex.getD d [],
      isSingleItem entry.2 = true ∧ s'.base.items[entry.2 / 2]? = some ⟨entry.1, d⟩) :
    FiltersReady s' index data := by
  have hslots : s'.base.slotItems = s.base.slotItems := FiltersReady.slotItems_congr hsets
  refine ⟨hindex.trans h.noIndex, ?_, ?_, htable, ?_, h.apart, ?_⟩
  · rw [hslots]
    exact h.empty
  · intro slot
    have := h.counts slot
    simpa only [refCount, hsets] using this
  · rw [hslots]
    exact h.valid
  · intro q i hi
    have hmembers : s'.base.members i = s.base.members i := by
      rw [members, members, hslots]
    rw [hmembers]
    exact (h.filters q i hi).mono hitems

theorem mem_modify_append {α : Type} {l : List (List α)} {d : ℕ} {x : α} (hd : d < l.length)
    (d' : ℕ) (entry : α) :
    entry ∈ (l.modify d (· ++ [x])).getD d' [] ↔ entry ∈ l.getD d' [] ∨ d = d' ∧ entry = x := by
  rw [List.getD_eq_getElem?_getD, List.getD_eq_getElem?_getD, List.getElem?_modify]
  by_cases hsame : d = d'
  · subst hsame
    rw [List.getElem?_eq_getElem hd]
    simp
  · simp [hsame]

theorem pushBackSingle_spec (h : FiltersReady s index data) {item : ArticleFilter}
    (hlength : item.dataIndex < s.filterIndex.length) :
    FiltersReady (s.pushBackSingle item).1 index data ∧
      FilterAdded s item (s.pushBackSingle item) := by
  have hitem : (s.base.items ++ [item])[toItemIndex s.base.items.length / 2]? = some item := by
    simp [toItemIndex]
  have hsingle : isSingleItem (toItemIndex s.base.items.length) = true := by
    simp [isSingleItem, toItemIndex]
  refine ⟨h.grow (List.prefix_append _ _) rfl rfl ?_, List.prefix_append _ _, rfl, hsingle, hitem⟩
  intro d entry hentry
  rcases (mem_modify_append hlength d entry).mp hentry with hmem | ⟨rfl, rfl⟩
  · obtain ⟨h1, h2⟩ := h.table d entry hmem
    refine ⟨h1, ?_⟩
    show (s.base.items ++ [item])[entry.2 / 2]? = _
    rw [List.getElem?_append_left (List.getElem?_eq_some_iff.mp h2).1, h2]
  · exact ⟨hsingle, hitem⟩

theorem FilterStorage.add_spec (h : FiltersReady s index data) (item : ArticleFilter) :
    FiltersReady (s.add item).1 index data ∧ FilterAdded s item (s.add item) := by
  unfold add
  split
  · rename_i hlength
    have hgrown : FiltersReady ⟨s.base, s.filterIndex ++
        List.replicate (item.dataIndex + 1 - s.filterIndex.length) []⟩ index data := by
      refine h.grow (List.prefix_refl _) rfl rfl ?_
      intro d entry hentry
      apply h.table d entry
      simp only [List.getD_eq_getElem?_getD, List.getElem?_append] at hentry ⊢
      split at hentry
      · exact hentry
      · rw [List.getElem?_replicate] at hentry
        split at hentry <;> simp at hentry
    have hpush := @pushBackSingle_spec _ index data hgrown item (by simp; omega)
    exact ⟨hpush.1, hpush.2.items, hpush.2.itemSets, hpush.2.single, hpush.2.item⟩
  · rename_i hlength
    split
    · rename_i last hlast
      split
      · rename_i hsame
        obtain ⟨h1, h2⟩ := h.table item.dataIndex last (List.mem_of_getLast? hlast)
        rw [hsame] at h2
        exact ⟨h, List.prefix_refl _, rfl, h1, h2⟩
      · exact pushBackSingle_spec h (by omega)
    · exact pushBackSingle_spec h (by omega)

/-- A phrase gets the index of a single filter, or of none. -/
theorem FiltersReady.setIndex (h : FiltersReady s index data) (q : ℕ) {i : ℕ} {m : ℕ → Option ℕ}
    (hi : isSingleItem i = true ∨ i = emptySetIndex) (hm : FiltersOf s.base (s.base.members i) m) :
    FiltersReady s (Function.update index q (some i)) (Function.update data q m) := by
  refine ⟨h.noIndex, h.empty, h.counts, h.table, ?_, ?_, ?_⟩
  · intro q' j hj
    by_cases hq : q' = q
    · subst hq
      rw [Function.update_self, Option.some.injEq] at hj
      subst hj
      rcases hi with hi | rfl
      · exact .inl hi
      · exact .inr (by simp [emptySetIndex, h.empty])
    · rw [Function.update_of_ne hq] at hj
      exact h.valid q' j hj
  · intro q' q'' j hj hj' hset hne
    have hother : ∀ p, Function.update index q (some i) p = some j → p ≠ q ∧ index p = some j := by
      intro p hp
      by_cases hq : p = q
      · subst hq
        rw [Function.update_self, Option.some.injEq] at hp
        subst hp
        rcases hi with hi | rfl
        · rw [hi] at hset
          cases hset
        · exact absurd rfl hne
      · rw [Function.update_of_ne hq] at hp
        exact ⟨hq, hp⟩
    exact h.apart q' q'' j (hother q' hj).2 (hother q'' hj').2 hset hne
  · intro q' j hj
    by_cases hq : q' = q
    · subst hq
      rw [Function.update_self, Option.some.injEq] at hj
      subst hj
      rw [Function.update_self]
      exact hm
    · rw [Function.update_of_ne hq] at hj ⊢
      exact h.filters q' j hj

/-- A phrase gets a set of its own. -/
theorem FiltersReady.addSet (h : FiltersReady s index data) (q : ℕ) (hash : List ℕ → ℕ)
    {set : List ℕ} (hset : set ≠ []) {m : ℕ → Option ℕ} (hm : FiltersOf s.base set m) :
    let r := s.base.addSet hash false set
    FiltersReady ⟨r.1, s.filterIndex⟩ (Function.update index q (some r.2))
      (Function.update data q m) := by
  have hr : s.base.addSet hash false set =
      (({ s.base with itemSets := s.base.itemSets ++ [⟨set, 0⟩] } :
        CompactStorageBuilder ArticleFilter).modifySet s.base.itemSets.length addRef,
        toSetIndex s.base.itemSets.length) := by
    rw [CompactStorageBuilder.addSet, if_neg hset]
    rfl
  rw [hr]
  have hspec := slotFor_append s.base set s.base.index
  generalize hgrown : ({ s.base with itemSets := s.base.itemSets ++ [⟨set, 0⟩] } :
    CompactStorageBuilder ArticleFilter) = grown
  have hspec : SlotFor s.base set (grown, s.base.itemSets.length) := by
    rw [← hgrown]
    exact hspec
  have hslots : (grown.modifySet s.base.itemSets.length addRef).slotItems = grown.slotItems :=
    slotItems_modifySet_of_items _ fun _ => rfl
  have hnone : s.base.slotItems s.base.itemSets.length = none := by
    rw [slotItems, List.getElem?_eq_none (le_refl _)]
    rfl
  have hitems : s.base.items <+: (grown.modifySet s.base.itemSets.length addRef).items := by
    show s.base.items <+: grown.items
    rw [hspec.items]
  intro r
  have hkeeps : ∀ j, isSingleItem j = true ∨ (s.base.slotItems (j / 2)).isSome = true →
      r.1.members j = s.base.members j := by
    intro j hj
    exact (Grows.mk hitems fun slot other hother => by
      rw [hslots]
      exact hspec.keeps slot other hother).members hj
  refine ⟨?_, ?_, ?_, ?_, ?_, ?_, ?_⟩
  · show grown.itemIndex = []
    rw [hspec.itemIndex]
    exact h.noIndex
  · show (grown.modifySet _ addRef).slotItems 0 = some []
    rw [hslots]
    exact hspec.keeps 0 [] h.empty
  · intro slot
    show (grown.modifySet _ addRef).refCount slot ≤ 1
    rw [refCount_modifySet]
    by_cases hsame : s.base.itemSets.length = slot
    · subst hsame
      rw [if_pos rfl, ← hgrown]
      simp [addRef]
    · rw [if_neg hsame, hspec.refCount]
      exact h.counts slot
  · intro d entry hentry
    obtain ⟨h1, h2⟩ := h.table d entry hentry
    refine ⟨h1, ?_⟩
    show grown.items[entry.2 / 2]? = _
    rw [hspec.items]
    exact h2
  · intro q' j hj
    by_cases hq : q' = q
    · subst hq
      rw [Function.update_self, Option.some.injEq] at hj
      subst hj
      refine .inr ?_
      show ((grown.modifySet _ addRef).slotItems _).isSome = true
      rw [toSetIndex_div, hslots, hspec.slot]
      rfl
    · rw [Function.update_of_ne hq] at hj
      rcases h.valid q' j hj with hsingle | hsome
      · exact .inl hsingle
      · obtain ⟨other, hother⟩ := Option.isSome_iff_exists.mp hsome
        refine .inr ?_
        show ((grown.modifySet _ addRef).slotItems _).isSome = true
        rw [hslots, hspec.keeps _ _ hother]
        rfl
  · -- the new slot is nobody else's
    have hfresh : ∀ p, p ≠ q → index p ≠ some (toSetIndex s.base.itemSets.length) := by
      intro p _ hp
      rcases h.valid p _ hp with hsingle | hsome
      · simp at hsingle
      · rw [toSetIndex_div, hnone] at hsome
        cases hsome
    intro q' q'' j hj hj' hsetj hne
    by_cases hq : q' = q
    · by_cases hq' : q'' = q
      · rw [hq, hq']
      · subst hq
        rw [Function.update_self, Option.some.injEq] at hj
        rw [Function.update_of_ne hq', ← hj] at hj'
        exact absurd hj' (hfresh q'' hq')
    · by_cases hq' : q'' = q
      · subst hq'
        rw [Function.update_self, Option.some.injEq] at hj'
        rw [Function.update_of_ne hq, ← hj'] at hj
        exact absurd hj (hfresh q' hq)
      · rw [Function.update_of_ne hq] at hj
        rw [Function.update_of_ne hq'] at hj'
        exact h.apart q' q'' j hj hj' hsetj hne
  · intro q' j hj
    by_cases hq : q' = q
    · subst hq
      rw [Function.update_self, Option.some.injEq] at hj
      subst hj
      have hmembers : r.1.members r.2 = set := by
        show (grown.modifySet _ addRef).members (toSetIndex _) = set
        rw [members, isSingleItem_toSetIndex, toSetIndex_div, hslots, hspec.slot]
        rfl
      rw [Function.update_self, hmembers]
      exact hm.mono hitems
    · rw [Function.update_of_ne hq] at hj ⊢
      rw [hkeeps j (h.valid q' j hj)]
      exact (h.filters q' j hj).mono hitems

/-- The set of a phrase is changed in place. -/
theorem FiltersReady.replaceSet (h : FiltersReady s index data) {q i : ℕ} (hq : index q = some i)
    (hsingle : isSingleItem i = false) (hne : i ≠ emptySetIndex) (f : List ℕ → List ℕ)
    {m : ℕ → Option ℕ} (hm : FiltersOf s.base (f (s.base.members i)) m) :
    FiltersReady ⟨s.base.modifySet (i / 2) fun set => { set with items := f set.items },
      s.filterIndex⟩ index (Function.update data q m) := by
  generalize hnew : (s.base.modifySet (i / 2) fun set => { set with items := f set.items }) = new
  have hpos : i / 2 ≠ 0 := by
    simp only [isSingleItem, beq_eq_false_iff_ne, emptySetIndex] at hsingle hne
    omega
  have hitems : new.items = s.base.items := by
    rw [← hnew]
    rfl
  have hrefs : new.refCount = s.base.refCount := by
    funext slot
    rw [← hnew, refCount_modifySet]
    split
    · rfl
    · rfl
  have hothers : ∀ slot, slot ≠ i / 2 → new.slotItems slot = s.base.slotItems slot := by
    intro slot hslot
    rw [← hnew, slotItems_modifySet, if_neg (Ne.symm hslot)]
  have hsome := (h.valid q i hq).resolve_left (by simp [hsingle])
  obtain ⟨old, hold⟩ := Option.isSome_iff_exists.mp hsome
  have hslot : new.slotItems (i / 2) = some (f old) := by
    rw [← hnew, slotItems_modifySet, if_pos rfl]
    simp only [slotItems, Option.map_eq_some_iff] at hold
    obtain ⟨set, hset, rfl⟩ := hold
    rw [hset]
    rfl
  have hmembers : s.base.members i = old := by
    rw [members, hsingle, hold]
    rfl
  refine ⟨?_, ?_, ?_, ?_, ?_, h.apart, ?_⟩
  · show new.itemIndex = []
    rw [← hnew]
    exact h.noIndex
  · rw [hothers 0 (Ne.symm hpos)]
    exact h.empty
  · rw [hrefs]
    exact h.counts
  · rw [hitems]
    exact h.table
  · intro q' j hj
    rcases h.valid q' j hj with hj1 | hj1
    · exact .inl hj1
    · refine .inr ?_
      by_cases hslotj : j / 2 = i / 2
      · rw [hslotj, hslot]
        rfl
      · rw [hothers _ hslotj]
        exact hj1
  · intro q' j hj
    by_cases hqq : q' = q
    · subst hqq
      rw [hq, Option.some.injEq] at hj
      subst hj
      rw [Function.update_self]
      have hmem : new.members i = f old := by
        rw [members, hsingle, hslot]
        rfl
      rw [hmem, ← hmembers]
      exact hm.mono (hitems ▸ List.prefix_refl _)
    · rw [Function.update_of_ne hqq]
      have hmem : new.members j = s.base.members j := by
        by_cases hj1 : isSingleItem j = true
        · rw [members, members, if_pos hj1, if_pos hj1]
        · have hslotj : j / 2 ≠ i / 2 := by
            intro heq
            have hji : j = i := by
              simp only [isSingleItem, beq_iff_eq, beq_eq_false_iff_ne] at hj1 hsingle
              omega
            subst hji
            exact hqq (h.apart q' q j hj hq hsingle hne)
          rw [members, members, if_neg hj1, if_neg hj1, hothers _ hslotj]
      rw [hmem]
      exact (h.filters q' j hj).mono (hitems ▸ List.prefix_refl _)

end Storage
end TomitaParser.Gzt
