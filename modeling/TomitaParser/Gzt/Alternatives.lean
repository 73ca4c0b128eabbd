import Mathlib.Algebra.GroupWithZero.Nat
import TomitaParser.Gzt.BucketFilters
/-! # Keys of one article

The keys of an article on a phrase, one after the other, and the filter that its bucket ends with.
-/

namespace TomitaParser.Gzt
open OrderedSet CompactStorageBuilder

namespace ArticleFilterBuilder

section AddFilterTo
variable {params : FilterParams} {b : ArticleFilterBuilder} {index : ℕ → Option ℕ}
  {data : ℕ → ℕ → Option ℕ}

theorem Ready.setArticles (hb : b.Ready) (f : FilterStorage) (s : CompactStorageBuilder ℕ) :
    ({ b with filteredArticles := f, simpleArticles := s } : ArticleFilterBuilder).Ready := by
  refine ⟨hb.wordGrammems, hb.wordCases, hb.wordLanguages, hb.agreements, hb.filterData, ?_⟩
  intro d hd
  have h := hb.known d hd
  exact ⟨h.allowedGram, h.forbiddenGram, h.allowedCase, h.forbiddenCase, h.allowedLang,
    h.forbiddenLang, h.agr⟩

theorem Extends.setArticles {b' : ArticleFilterBuilder} (h : Extends b b') (f : FilterStorage)
    (s : CompactStorageBuilder ℕ) :
    Extends b { b' with filteredArticles := f, simpleArticles := s } :=
  ⟨h.wordGrammems, h.wordCases, h.wordLanguages, h.agreements, h.filterData,
    h.emptyFilterDataIndex⟩

/-- The sets of an article's filter after one more key. -/
def joinSets (old : Option FilterSets) (sets : FilterSets) : FilterSets :=
  match old with
  | none => sets
  | some s => s.union sets

/-- What adding a filter to a phrase comes to: the article's filter asks what it asked before and
what the new filter asks. -/
structure FilterJoined (b : ArticleFilterBuilder) (index : ℕ → Option ℕ) (data : ℕ → ℕ → Option ℕ)
    (q : ℕ) (item : ArticleFilter) (r : ArticleFilterBuilder × ℕ) (d : ℕ) : Prop where
  ready : r.1.Ready
  extends' : Extends b r.1
  simpleArticles : r.1.simpleArticles = b.simpleArticles
  hasData : r.1.HasData d
  filters : FiltersReady r.1.filteredArticles (Function.update index q (some r.2))
    (Function.update data q (Function.update (data q) item.articleId (some d)))
  sets : r.1.setsOf d =
    joinSets ((data q item.articleId).map b.setsOf) (b.setsOf item.dataIndex)

theorem FilterJoined.mk' {b b' : ArticleFilterBuilder} {q : ℕ} {item : ArticleFilter} {i d : ℕ}
    {s : FilterStorage} (hready : b'.Ready) (hextends : Builds b b') (hd : b'.HasData d)
    (hs : FiltersReady s (Function.update index q (some i))
      (Function.update data q (Function.update (data q) item.articleId (some d))))
    (hsets : b'.setsOf d = joinSets ((data q item.articleId).map b.setsOf)
    (b.setsOf item.dataIndex)) :
    FilterJoined b index data q item ({ b' with filteredArticles := s }, i) d :=
  ⟨hready.setArticles s b'.simpleArticles, hextends.toExtends.setArticles s b'.simpleArticles,
    hextends.simpleArticles, hd, hs, hsets⟩

theorem replaceMember_spec (hf : FiltersReady b.filteredArticles index data) {q i : ℕ}
    (hq : index q = some i) (hsingle : isSingleItem i = false) (hne : i ≠ emptySetIndex)
    (old : Option ℕ) (new : ℕ) {m : ℕ → Option ℕ}
    (hm : FiltersOf b.filteredArticles.base (insertBy natLt new
      ((b.filteredArticles.base.members i).filter fun j => decide (some j ≠ old))) m) :
    ∃ s, b.replaceMember params i old new = ({ b with filteredArticles := s }, i) ∧
      FiltersReady s (Function.update index q (some i)) (Function.update data q m) := by
  have hcount : ¬ 1 < (b.filteredArticles.base.getItemSet i).refCount := by
    rw [getItemSet_refCount]
    exact not_lt.mpr (hf.counts _)
  have hindex : Function.update index q (some i) = index := by
    rw [← hq, Function.update_eq_self]
  rw [members_of_set hsingle] at hm
  rw [hindex]
  refine ⟨_, ?_, hf.replaceSet hq hsingle hne (fun _ => insertBy natLt new
    ((b.filteredArticles.base.getItemSet i).items.filter fun j => decide (some j ≠ old))) hm⟩
  rw [replaceMember, onFilters]
  simp only [if_neg hcount]

variable (hb : b.Ready) (hf : FiltersReady b.filteredArticles index data)
  (hdata : ∀ q a d, data q a = some d → b.HasData d)
include hb hf

theorem addFilterTo_empty {q : ℕ} (hq : index q = some emptySetIndex) {item : ArticleFilter}
    (hitem : b.HasData item.dataIndex) :
    FilterJoined b index data q item (b.addFilterTo params emptySetIndex item) item.dataIndex := by
  have hnone : b.filteredArticles.base.members emptySetIndex = [] := by
    simp [members, emptySetIndex, isSingleItem, hf.empty]
  have hfilters := hf.filters q _ hq
  rw [hnone] at hfilters
  have ha : data q item.articleId = none := by
    cases hd : data q item.articleId with
    | none => rfl
    | some d =>
      obtain ⟨i, hi, -⟩ := (hfilters.mem _ d).mp hd
      exact absurd hi List.not_mem_nil
  obtain ⟨hf', hadded⟩ := FilterStorage.add_spec hf item
  rw [addFilterTo, if_pos rfl]
  refine FilterJoined.mk' hb (Builds.refl b) hitem ?_ ?_
  · apply hf'.setIndex q (.inl hadded.single)
    rw [members, if_pos hadded.single]
    exact (hfilters.mono hadded.items).insert hadded.single hadded.item ha
  · rw [ha]
    rfl

include hdata

/-- The filter of the article is there: nothing changes, or the merged filter takes its place. -/
theorem addFilterTo_single {q i : ℕ} (hq : index q = some i) (hsingle : isSingleItem i = true)
    {item : ArticleFilter} (hitem : b.HasData item.dataIndex) :
    ∃ d, FilterJoined b index data q item (b.addFilterTo params i item) d := by
  have hmembers : b.filteredArticles.base.members i = [i] := by rw [members, if_pos hsingle]
  have hfilters := hf.filters q i hq
  rw [hmembers] at hfilters
  have hlt := (hfilters.single i (List.mem_singleton_self i)).2
  obtain ⟨⟨a, d⟩, hget⟩ : ∃ f, b.filteredArticles.base.items[i / 2]? = some f :=
    ⟨_, List.getElem?_eq_getElem hlt⟩
  have hold : data q a = some d := (hfilters.mem a d).mpr ⟨i, List.mem_singleton_self i, hget⟩
  have hne : i ≠ emptySetIndex := by
    rintro rfl
    simp [emptySetIndex, isSingleItem] at hsingle
  rw [addFilterTo, if_neg hne, if_pos hsingle, CompactStorageBuilder.getItem, hget]
  simp only
  by_cases ha : a = item.articleId
  · subst ha
    rw [if_pos rfl]
    by_cases heq : (⟨item.articleId, d⟩ : ArticleFilter) = item
    · rw [if_pos heq]
      have hd : item.dataIndex = d := by rw [← heq]
      refine ⟨d, hb, Extends.refl b, rfl, hd ▸ hitem, ?_, ?_⟩
      · rw [← hq, ← hold, Function.update_eq_self, Function.update_eq_self,
          Function.update_eq_self]
        exact hf
      · rw [hold, hd]
        exact (FilterSets.union_self _).symm
    · rw [if_neg heq]
      obtain ⟨hready, hbuilds, hhas, harticle, hsets⟩ := @mergeFilters_spec params b hb
        ⟨item.articleId, d⟩ item (hdata q _ d hold) hitem
      generalize mergeFilters params b ⟨item.articleId, d⟩ item = merged at *
      rw [← hbuilds.filteredArticles] at hf hfilters hget
      obtain ⟨hf', hadded⟩ := FilterStorage.add_spec hf merged.2
      refine ⟨merged.2.dataIndex, FilterJoined.mk' hready hbuilds hhas ?_ ?_⟩
      · apply hf'.setIndex q (.inl hadded.single)
        rw [members, if_pos hadded.single]
        have hnew : merged.2 = ⟨item.articleId, merged.2.dataIndex⟩ := by
          rw [← harticle]
        have hreplaced := (hfilters.mono hadded.items).replace hadded.single
          (hadded.item.trans (congrArg some hnew)) (List.mem_singleton_self i)
          (hadded.getItem hget)
        have hfilter : [i].filter (· ≠ i) = [] := by simp
        rw [hfilter] at hreplaced
        exact hreplaced
      · rw [hsets, hold]
        rfl
  · rw [if_neg ha]
    have hnone : data q item.articleId = none := by
      cases hd : data q item.articleId with
      | none => rfl
      | some d' =>
        obtain ⟨j, hj, hjitem⟩ := (hfilters.mem _ d').mp hd
        rw [List.mem_singleton.mp hj, hget, Option.some.injEq, ArticleFilter.mk.injEq] at hjitem
        exact absurd hjitem.1 ha
    obtain ⟨hf', hadded⟩ := FilterStorage.add_spec hf item
    have hinsert := (hfilters.mono hadded.items).insert hadded.single hadded.item hnone
    have hpair : insertBy natLt (b.filteredArticles.add item).2 [i] ≠ [] := by
      intro hnil
      have : (b.filteredArticles.add item).2 ∈
          insertBy natLt (b.filteredArticles.add item).2 [i] := by simp
      rw [hnil] at this
      exact absurd this List.not_mem_nil
    have hjoined := FilterJoined.mk' hb (Builds.refl b) hitem
      (hf'.addSet q params.hash hpair hinsert) (by rw [hnone]; rfl)
    exact ⟨item.dataIndex, hjoined⟩

/-- The filters of a phrase are a set. -/
theorem addFilterTo_set {q i : ℕ} (hq : index q = some i) (hsingle : isSingleItem i = false)
    (hne : i ≠ emptySetIndex) {item : ArticleFilter} (hitem : b.HasData item.dataIndex) :
    ∃ d, FilterJoined b index data q item (b.addFilterTo params i item) d := by
  have hfilters := hf.filters q i hq
  have hmembers := members_of_set (b := b.filteredArticles.base) hsingle
  have hindex : Function.update index q (some i) = index := by
    rw [← hq, Function.update_eq_self]
  rw [addFilterTo, if_neg hne, hsingle, if_neg Bool.false_ne_true, ← hmembers]
  simp only
  split
  · rename_i old hfind
    have hmem := List.mem_of_find?_eq_some hfind
    have harticle := List.find?_some hfind
    simp only [beq_iff_eq, Option.map_eq_some_iff] at harticle
    obtain ⟨⟨a, d⟩, hget, rfl⟩ := harticle
    have hget' : b.filteredArticles.base.items[old / 2]? = some ⟨item.articleId, d⟩ := hget
    have hold : data q item.articleId = some d := (hfilters.mem _ d).mpr ⟨old, hmem, hget'⟩
    rw [hget]
    simp only
    by_cases heq : (⟨item.articleId, d⟩ : ArticleFilter) = item
    · rw [if_pos heq]
      have hd : item.dataIndex = d := by rw [← heq]
      refine ⟨d, hb, Extends.refl b, rfl, hd ▸ hitem, ?_, ?_⟩
      · rw [hindex, ← hold, Function.update_eq_self, Function.update_eq_self]
        exact hf
      · rw [hold, hd]
        exact (FilterSets.union_self _).symm
    · rw [if_neg heq]
      obtain ⟨hready, hbuilds, hhas, harticle, hsets⟩ := @mergeFilters_spec params b hb
        ⟨item.articleId, d⟩ item (hdata q _ d hold) hitem
      generalize mergeFilters params b ⟨item.articleId, d⟩ item = merged at *
      rw [← hbuilds.filteredArticles] at hf hfilters hget' hmem
      obtain ⟨hf', hadded⟩ := FilterStorage.add_spec hf merged.2
      have hsame := hadded.members_eq i
      have hnew : merged.2 = ⟨item.articleId, merged.2.dataIndex⟩ := by
        rw [← harticle]
      have hreplaced := (hfilters.mono hadded.items).replace hadded.single
        (hadded.item.trans (congrArg some hnew)) hmem (hadded.getItem hget')
      have hfilter : (fun j : ℕ => decide (some j ≠ some old)) = fun j => decide (j ≠ old) := by
        funext j
        simp
      rw [← hsame, ← hfilter] at hreplaced
      obtain ⟨s, hs, hready'⟩ := @replaceMember_spec params (merged.1.addFilter merged.2).1 index
        data hf' q i hq hsingle hne _ _ _ hreplaced
      have hjoined := FilterJoined.mk' hready hbuilds hhas hready' (by rw [hsets, hold]; rfl)
      exact ⟨merged.2.dataIndex, hs ▸ hjoined⟩
  · rename_i hfind
    have hnone : data q item.articleId = none := by
      cases hd : data q item.articleId with
      | none => rfl
      | some d =>
        obtain ⟨j, hj, hjitem⟩ := (hfilters.mem _ d).mp hd
        have := List.find?_eq_none.mp hfind j hj
        rw [CompactStorageBuilder.getItem, hjitem] at this
        simp at this
    obtain ⟨hf', hadded⟩ := FilterStorage.add_spec hf item
    have hsame := hadded.members_eq i
    have hinsert := (hfilters.mono hadded.items).insert hadded.single hadded.item hnone
    have hfilter : ((b.filteredArticles.base.members i).filter fun j =>
        decide (some j ≠ none)) = b.filteredArticles.base.members i := by
      simp
    rw [← hfilter, ← hsame] at hinsert
    obtain ⟨s, hs, hready'⟩ := @replaceMember_spec params (b.addFilter item).1 index data hf' q i hq
      hsingle hne _ _ _ hinsert
    have hjoined := FilterJoined.mk' hb (Builds.refl b) hitem hready' (by rw [hnone]; rfl)
    exact ⟨item.dataIndex, hs ▸ hjoined⟩

end AddFilterTo

theorem removeArticleFilters_eq {params : FilterParams} {b : ArticleFilterBuilder}
    (h : b.filteredArticles.base.itemIndex = []) (i articleId : ℕ) :
    b.removeArticleFilters params i articleId = (b, i) := by
  unfold removeArticleFilters
  split
  · simp [onFilters, CompactStorageBuilder.removeFrom, h]
  · rfl

end ArticleFilterBuilder

/-- A key that is added for an article on a phrase. -/
structure Addition where
  phrase : ℕ
  key : SearchKey
  capitalization : List ℕ := []
  articleId : ℕ

/-- The filter data of an added key. -/
structure AddedKey where
  phrase : ℕ
  articleId : ℕ
  dataIndex : ℕ
deriving DecidableEq, Repr

/-- A builder with the buckets of the phrases, and the keys so far. -/
structure BuilderRun where
  builder : ArticleFilterBuilder
  buckets : ℕ → Option ArticleBucket := fun _ => none
  added : List AddedKey := []

namespace BuilderRun
variable (params : FilterParams) (phraseLength : ℕ → ℕ)

/-- `AddToTrie`: a new phrase gets a bucket, a known one has its bucket changed. -/
def addToTrie (r : BuilderRun) (a : Addition) : Option BuilderRun := do
  let data ← r.builder.addFilterData params a.key a.capitalization (phraseLength a.phrase)
  let next ← match r.buckets a.phrase with
    | none => r.builder.add params a.key a.capitalization a.articleId (phraseLength a.phrase)
    | some bucket =>
      r.builder.addTo params bucket a.key a.capitalization a.articleId (phraseLength a.phrase)
  return ⟨next.1, Function.update r.buckets a.phrase (some next.2),
    r.added ++ [⟨a.phrase, a.articleId, data.2⟩]⟩

/-- A sequence of keys that is added to a new builder. -/
def run (additions : List Addition) : Option BuilderRun :=
  additions.foldlM (addToTrie params phraseLength) ⟨ArticleFilterBuilder.create params,
    fun _ => none, []⟩

/-- The filter data of the keys of an article on a phrase, in the order of addition. -/
def keysOf (r : BuilderRun) (q a : ℕ) : List ℕ :=
  (r.added.filter fun k => decide (k.phrase = q ∧ k.articleId = a)).map (·.dataIndex)

variable (tables : MatchTables) (correctIndex : ℕ → ℕ)

/-- A filter data accepts a reading of a phrase. -/
def accepts (r : BuilderRun) (dataIndex : ℕ) (p : PhraseWords) : Bool :=
  (PhraseWords.matchConstraints tables correctIndex (r.builder.filterConstraints dataIndex)
    p.resetGrammems).1

/-- The filter data of some keys accept a reading together: what any of them asks is checked. -/
def acceptTogether (r : BuilderRun) (keys : List ℕ) (p : PhraseWords) : Bool :=
  (PhraseWords.matchConstraints tables correctIndex
    (r.builder.constraintsOf ((keys.map r.builder.setsOf).foldl FilterSets.union {}))
    p.resetGrammems).1

/-- An article of a bucket matches a reading. -/
def Matches (r : BuilderRun) (bucket : ArticleBucket) (a : ℕ) (p : PhraseWords) : Prop :=
  a ∈ r.builder.simpleArticles.get bucket.simpleIndex ∨
    ∃ f ∈ r.builder.filteredArticles.base.get bucket.filterIndex,
      f.articleId = a ∧ r.accepts tables correctIndex f.dataIndex p = true

/-- The articles of the two lists of a bucket. -/
def articles (r : BuilderRun) (bucket : ArticleBucket) : List ℕ :=
  r.builder.simpleArticles.get bucket.simpleIndex ++
    (r.builder.filteredArticles.base.get bucket.filterIndex).map (·.articleId)

/-- A match with the filter of some sets reads no agreement behind the end of the storage. -/
def ReadsStored (r : BuilderRun) (sets : FilterSets) (p : PhraseWords) : Prop :=
  PhraseWords.grammemsPass correctIndex (r.builder.constraintsOf sets) p.resetGrammems = true →
    ∀ i ∈ sets.agreements, (r.builder.agreements.getItem i).isSome = true

/-- The sets of some keys joined. -/
def joinedSets (r : BuilderRun) (keys : List ℕ) : FilterSets :=
  (keys.map r.builder.setsOf).foldl FilterSets.union {}

/-- The keys of an article are alternatives on a reading: the first one has no options, or all of
them have options, and together they accept what one of them accepts. The match with each of them
and with all of them together is defined. -/
def KeysAgree (r : BuilderRun) (keys : List ℕ) (p : PhraseWords) : Prop :=
  (∀ k ∈ keys, r.ReadsStored correctIndex (r.builder.setsOf k) p) ∧
  ∀ first ∈ keys.head?, r.builder.isEmptyFilter first = true ∨
    (∀ k ∈ keys, r.builder.isEmptyFilter k = false) ∧
      r.ReadsStored correctIndex (r.joinedSets keys) p ∧
      (r.acceptTogether tables correctIndex keys p = true ↔
        ∃ k ∈ keys, r.accepts tables correctIndex k p = true)

/-- The keys of an article are alternatives in a bucket, and the article is there once. Every match
that this speaks of is defined. -/
structure ArticleAlternatives (r : BuilderRun) (bucket : ArticleBucket) (keys : List ℕ) (a : ℕ)
    (p : PhraseWords) : Prop where
  matches_iff : r.Matches tables correctIndex bucket a p ↔
    ∃ k ∈ keys, r.accepts tables correctIndex k p = true
  once : (r.articles bucket).count a ≤ 1
  keys_stored : ∀ k ∈ keys, r.ReadsStored correctIndex (r.builder.setsOf k) p
  filters_stored : ∀ f ∈ r.builder.filteredArticles.base.get bucket.filterIndex, f.articleId = a →
    r.ReadsStored correctIndex (r.builder.setsOf f.dataIndex) p

section Invariant

/-- The sets of the filter of an article after its keys: they are joined up to the first key without
options. -/
def keySets (b : ArticleFilterBuilder) (keys : List ℕ) : Option FilterSets :=
  let joined := keys.takeWhile fun k => !b.isEmptyFilter k
  if joined = [] then none else some ((joined.map b.setsOf).foldl FilterSets.union {})

/-- The articles of a phrase that have a key without options. -/
def simpleSet (r : BuilderRun) (q : ℕ) : Finset ℕ :=
  ((r.added.filter fun k => decide (k.phrase = q) && r.builder.isEmptyFilter k.dataIndex).map
    (·.articleId)).toFinset

def filterIndex (r : BuilderRun) (q : ℕ) : Option ℕ := (r.buckets q).map (·.filterIndex)

def simpleIndex (r : BuilderRun) (q : ℕ) : ℕ :=
  ((r.buckets q).map (·.simpleIndex)).getD emptySetIndex

/-- The holders of the sets of simple articles: one for each phrase. -/
def holders (r : BuilderRun) (phrases : Finset ℕ) : Multiset (ℕ × Finset ℕ) :=
  phrases.val.map fun q => (r.simpleIndex q, r.simpleSet q)

/-- The invariant of a run. -/
structure RunReady (r : BuilderRun) (phrases : Finset ℕ) (data : ℕ → ℕ → Option ℕ) : Prop where
  ready : r.builder.Ready
  emptyData : r.builder.EmptyData
  added : ∀ k ∈ r.added, r.builder.HasData k.dataIndex
  hasData : ∀ q a d, data q a = some d → r.builder.HasData d
  filters : FiltersReady r.builder.filteredArticles r.filterIndex data
  sets : ∀ q a, (data q a).map r.builder.setsOf = keySets r.builder (r.keysOf q a)
  simple : r.builder.simpleArticles.WellFormed
  known : ∀ q, q ∈ phrases ↔ (r.buckets q).isSome = true
  owned : r.builder.simpleArticles.Owned (r.holders phrases)
  noKeys : ∀ k ∈ r.added, k.phrase ∈ phrases

variable {b b' : ArticleFilterBuilder} {r : BuilderRun} {phrases : Finset ℕ}
  {data : ℕ → ℕ → Option ℕ}

theorem isEmptyFilter_extends (h : ArticleFilterBuilder.Extends b b') (d : ℕ) :
    b'.isEmptyFilter d = b.isEmptyFilter d := by
  rw [ArticleFilterBuilder.isEmptyFilter, h.emptyFilterDataIndex]
  rfl

theorem keySets_extends (h : ArticleFilterBuilder.Extends b b') (hb : b.Ready) {keys : List ℕ}
    (hkeys : ∀ k ∈ keys, b.HasData k) : keySets b' keys = keySets b keys := by
  have hempty : (fun k => !b'.isEmptyFilter k) = fun k => !b.isEmptyFilter k := by
    funext k
    rw [isEmptyFilter_extends h]
  have hmap : (keys.takeWhile fun k => !b.isEmptyFilter k).map b'.setsOf =
      (keys.takeWhile fun k => !b.isEmptyFilter k).map b.setsOf := by
    apply List.map_congr_left
    intro k hk
    exact h.setsOf hb (hkeys k ((List.takeWhile_sublist _).subset hk))
  simp only [keySets, hempty, hmap]

theorem takeWhile_all {α : Type} {f : α → Bool} {l : List α} (h : ∀ x ∈ l, f x = true) :
    l.takeWhile f = l := by
  induction l with
  | nil => rfl
  | cons x l ih =>
    rw [List.takeWhile_cons, if_pos (h x List.mem_cons_self),
      ih fun y hy => h y (List.mem_cons_of_mem _ hy)]

theorem takeWhile_append_of_all {α : Type} {f : α → Bool} {l : List α} (h : ∀ x ∈ l, f x = true)
    (l' : List α) : (l ++ l').takeWhile f = l ++ l'.takeWhile f := by
  induction l with
  | nil => rfl
  | cons x l ih =>
    rw [List.cons_append, List.takeWhile_cons, if_pos (h x List.mem_cons_self),
      ih fun y hy => h y (List.mem_cons_of_mem _ hy)]
    rfl

theorem takeWhile_append_of_not {α : Type} {f : α → Bool} {l : List α} (h : ∃ x ∈ l, f x = false)
    (l' : List α) : (l ++ l').takeWhile f = l.takeWhile f := by
  induction l with
  | nil => simp at h
  | cons x l ih =>
    rw [List.cons_append, List.takeWhile_cons, List.takeWhile_cons]
    by_cases hx : f x = true
    · rw [if_pos hx, if_pos hx]
      obtain ⟨y, hy, hfy⟩ := h
      rcases List.mem_cons.mp hy with rfl | hy
      · rw [hx] at hfy
        cases hfy
      · rw [ih ⟨y, hy, hfy⟩]
    · rw [if_neg hx, if_neg hx]

theorem keySets_append_of_empty {keys : List ℕ} (d : ℕ)
    (h : (∃ k ∈ keys, b.isEmptyFilter k = true) ∨ b.isEmptyFilter d = true) :
    keySets b (keys ++ [d]) = keySets b keys := by
  have hjoined : (keys ++ [d]).takeWhile (fun k => !b.isEmptyFilter k) =
      keys.takeWhile fun k => !b.isEmptyFilter k := by
    by_cases hsome : ∃ k ∈ keys, b.isEmptyFilter k = true
    · apply takeWhile_append_of_not
      obtain ⟨k, hk, hempty⟩ := hsome
      exact ⟨k, hk, by rw [hempty]; rfl⟩
    · have hall : ∀ k ∈ keys, (!b.isEmptyFilter k) = true := by
        intro k hk
        have hne : ¬ b.isEmptyFilter k = true := fun hempty => hsome ⟨k, hk, hempty⟩
        simpa using hne
      have hd := h.resolve_left hsome
      rw [takeWhile_append_of_all hall, takeWhile_all hall]
      simp [hd]
  simp only [keySets, hjoined]

theorem keySets_append {keys : List ℕ} {d : ℕ} (hkeys : ∀ k ∈ keys, b.isEmptyFilter k = false)
    (hd : b.isEmptyFilter d = false) :
    keySets b (keys ++ [d]) =
      some (ArticleFilterBuilder.joinSets (keySets b keys) (b.setsOf d)) := by
  have hall : ∀ k ∈ keys, (!b.isEmptyFilter k) = true := by
    intro k hk
    rw [hkeys k hk]
    rfl
  have hlast : [d].takeWhile (fun k => !b.isEmptyFilter k) = [d] := by simp [hd]
  simp only [keySets, takeWhile_append_of_all hall, takeWhile_all hall, hlast]
  rw [if_neg (by simp), List.map_append, List.foldl_append]
  by_cases hnil : keys = []
  · subst hnil
    simp [ArticleFilterBuilder.joinSets, FilterSets.empty_union]
  · rw [if_neg hnil]
    rfl

theorem keysOf_append (b : ArticleFilterBuilder) (buckets : ℕ → Option ArticleBucket)
    (added : List AddedKey) (k : AddedKey) (q a : ℕ) :
    keysOf ⟨b, buckets, added ++ [k]⟩ q a =
      if k.phrase = q ∧ k.articleId = a then keysOf ⟨b, buckets, added⟩ q a ++ [k.dataIndex]
      else keysOf ⟨b, buckets, added⟩ q a := by
  simp only [keysOf, List.filter_append, List.map_append]
  split
  · rename_i h
    simp [h]
  · rename_i h
    simp [h]

theorem mem_simpleSet (r : BuilderRun) (q a : ℕ) :
    a ∈ r.simpleSet q ↔ ∃ d ∈ r.keysOf q a, r.builder.isEmptyFilter d = true := by
  simp only [simpleSet, keysOf, List.mem_toFinset, List.mem_map, List.mem_filter, Bool.and_eq_true,
    decide_eq_true_eq]
  constructor
  · rintro ⟨k, ⟨hk, hq, hempty⟩, ha⟩
    exact ⟨k.dataIndex, ⟨k, ⟨hk, hq, ha⟩, rfl⟩, hempty⟩
  · rintro ⟨-, ⟨k, ⟨hk, hq, ha⟩, rfl⟩, hempty⟩
    exact ⟨k, ⟨hk, hq, hempty⟩, ha⟩

theorem simpleSet_append (b : ArticleFilterBuilder) (buckets : ℕ → Option ArticleBucket)
    (added : List AddedKey) (k : AddedKey) (q : ℕ) :
    simpleSet ⟨b, buckets, added ++ [k]⟩ q =
      if k.phrase = q ∧ b.isEmptyFilter k.dataIndex = true then
        insert k.articleId (simpleSet ⟨b, buckets, added⟩ q)
      else simpleSet ⟨b, buckets, added⟩ q := by
  ext a
  simp only [simpleSet, List.filter_append, List.map_append, List.toFinset_append, Finset.mem_union]
  split
  · rename_i h
    simp [h, or_comm]
  · rename_i h
    have hnone : [k].filter
      (fun k => decide (k.phrase = q) && b.isEmptyFilter k.dataIndex) = [] := by
      simpa [List.filter_cons] using h
    rw [hnone]
    simp

/-- The stores of filter data have grown. -/
theorem RunReady.builds (h : RunReady r phrases data)
    (hready : b'.Ready) (hbuilds : ArticleFilterBuilder.Builds r.builder b') :
    RunReady ⟨b', r.buckets, r.added⟩ phrases data := by
  have hextends := hbuilds.toExtends
  have hkeys : ∀ q a, ∀ k ∈ r.keysOf q a, r.builder.HasData k := by
    intro q a k hk
    simp only [keysOf, List.mem_map, List.mem_filter] at hk
    obtain ⟨k', ⟨hmem, -⟩, rfl⟩ := hk
    exact h.added k' hmem
  have hsimple : ∀ q, simpleSet ⟨b', r.buckets, r.added⟩ q = r.simpleSet q := by
    intro q
    have hempty : b'.isEmptyFilter = r.builder.isEmptyFilter :=
      funext fun d => isEmptyFilter_extends hextends d
    simp only [simpleSet, hempty]
  refine ⟨hready, h.emptyData.extends hextends, ?_, ?_, ?_, ?_, ?_, h.known, ?_, h.noKeys⟩
  · exact fun k hk => hextends.hasData (h.added k hk)
  · exact fun q a d hd => hextends.hasData (h.hasData q a d hd)
  · show FiltersReady b'.filteredArticles r.filterIndex data
    rw [hbuilds.filteredArticles]
    exact h.filters
  · intro q a
    show (data q a).map b'.setsOf = keySets b' (r.keysOf q a)
    rw [keySets_extends hextends h.ready (hkeys q a), ← h.sets q a]
    cases hd : data q a with
    | none => rfl
    | some d => exact congrArg some (hextends.setsOf h.ready (h.hasData q a d hd))
  · show b'.simpleArticles.WellFormed
    rw [hbuilds.simpleArticles]
    exact h.simple
  · show b'.simpleArticles.Owned _
    rw [hbuilds.simpleArticles]
    simp only [holders, hsimple]
    exact h.owned

/-- A phrase that is not known yet may have the empty bucket. -/
theorem RunReady.openPhrase (h : RunReady r phrases data) {q : ℕ} (hq : r.buckets q = none) :
    RunReady ⟨r.builder, Function.update r.buckets q (some ⟨emptySetIndex, emptySetIndex⟩), r.added⟩
      (insert q phrases) (Function.update data q fun _ => none) := by
  have hfresh : q ∉ phrases := by
    rw [h.known, hq]
    simp
  have hkeys : ∀ a, r.keysOf q a = [] := by
    intro a
    rw [keysOf, List.map_eq_nil_iff, List.filter_eq_nil_iff]
    intro k hk
    rw [decide_eq_true_eq]
    rintro ⟨rfl, -⟩
    exact hfresh (h.noKeys k hk)
  have hindex : filterIndex ⟨r.builder, Function.update r.buckets q
      (some ⟨emptySetIndex, emptySetIndex⟩), r.added⟩ =
      Function.update r.filterIndex q (some emptySetIndex) := by
    funext p
    by_cases hp : p = q
    · subst hp
      simp [filterIndex]
    · simp [filterIndex, Function.update_of_ne hp]
  refine ⟨h.ready, h.emptyData, h.added, ?_, ?_, ?_, h.simple, ?_, ?_, ?_⟩
  · intro p a d hd
    by_cases hp : p = q
    · subst hp
      rw [Function.update_self] at hd
      cases hd
    · rw [Function.update_of_ne hp] at hd
      exact h.hasData p a d hd
  · rw [hindex]
    apply h.filters.setIndex q (.inr rfl)
    have hmembers : r.builder.filteredArticles.base.members emptySetIndex = [] := by
      simp [members, emptySetIndex, isSingleItem, h.filters.empty]
    rw [hmembers]
    exact FiltersOf.nil _
  · intro p a
    show _ = keySets r.builder (r.keysOf p a)
    by_cases hp : p = q
    · subst hp
      rw [Function.update_self, hkeys a]
      rfl
    · rw [Function.update_of_ne hp]
      exact h.sets p a
  · intro p
    rw [Finset.mem_insert, h.known p]
    by_cases hp : p = q
    · subst hp
      simp
    · simp [hp]
  · have hempty : simpleSet r q = ∅ := by
      rw [Finset.eq_empty_iff_forall_notMem]
      intro a ha
      rw [mem_simpleSet, hkeys a] at ha
      simp at ha
    rw [holders, Finset.insert_val_of_notMem hfresh, Multiset.map_cons]
    have hrest : phrases.val.map (fun p => (simpleIndex ⟨r.builder, Function.update r.buckets q
        (some ⟨emptySetIndex, emptySetIndex⟩), r.added⟩ p, r.simpleSet p)) =
        r.holders phrases := by
      apply Multiset.map_congr rfl
      intro p hp
      have hne : p ≠ q := by
        rintro rfl
        exact hfresh hp
      simp [simpleIndex, Function.update_of_ne hne]
    have hhead : simpleIndex ⟨r.builder, Function.update r.buckets q
        (some ⟨emptySetIndex, emptySetIndex⟩), r.added⟩ q = emptySetIndex := by
      simp [simpleIndex]
    show r.builder.simpleArticles.Owned ((_, r.simpleSet q) ::ₘ
      phrases.val.map (fun p => (_, r.simpleSet p)))
    rw [hrest, hhead, hempty]
    exact h.owned.cons_empty h.simple
  · intro k hk
    exact Finset.mem_insert_of_mem (h.noKeys k hk)

theorem holders_cons {q : ℕ} (hq : q ∈ phrases) (r : BuilderRun) :
    r.holders phrases = (r.simpleIndex q, r.simpleSet q) ::ₘ
      (phrases.val.erase q).map fun p => (r.simpleIndex p, r.simpleSet p) := by
  have hcons := congrArg (Multiset.map fun p => (r.simpleIndex p, r.simpleSet p))
    (Multiset.cons_erase hq)
  rw [Multiset.map_cons] at hcons
  exact hcons.symm

theorem holders_congr {r r' : BuilderRun} {q : ℕ}
    (hindex : ∀ p, p ≠ q → r'.simpleIndex p = r.simpleIndex p)
    (hset : ∀ p, p ≠ q → r'.simpleSet p = r.simpleSet p) :
    (phrases.val.erase q).map (fun p => (r'.simpleIndex p, r'.simpleSet p)) =
      (phrases.val.erase q).map fun p => (r.simpleIndex p, r.simpleSet p) := by
  apply Multiset.map_congr rfl
  intro p hp
  have hne : p ≠ q := (Multiset.Nodup.mem_erase_iff phrases.nodup).mp hp |>.1
  rw [hindex p hne, hset p hne]

variable {params : FilterParams} {q a d : ℕ} {bucket : ArticleBucket}

/-- A key without options: the article becomes a simple one, and its filter stays. -/
theorem RunReady.addSimple (h : RunReady r phrases data) (hbucket : r.buckets q = some bucket)
    (hd : r.builder.HasData d) (hempty : r.builder.isEmptyFilter d = true) :
    let simple := r.builder.simpleArticles.addTo params.hash false bucket.simpleIndex a
    RunReady ⟨{ r.builder with simpleArticles := simple.1 },
      Function.update r.buckets q (some ⟨simple.2, bucket.filterIndex⟩),
      r.added ++ [⟨q, a, d⟩]⟩ phrases data := by
  intro simple
  generalize hr' : (⟨{ r.builder with simpleArticles := simple.1 },
      Function.update r.buckets q (some ⟨simple.2, bucket.filterIndex⟩),
      r.added ++ [⟨q, a, d⟩]⟩ : BuilderRun) = r'
  have hq : q ∈ phrases := by
    rw [h.known, hbucket]
    rfl
  have hextends : ArticleFilterBuilder.Extends r.builder r'.builder := by
    rw [← hr']
    exact (ArticleFilterBuilder.Extends.refl r.builder).setArticles
      r.builder.filteredArticles simple.1
  have hindex : r'.filterIndex = r.filterIndex := by
    rw [← hr']
    funext p
    by_cases hp : p = q
    · subst hp
      simp [filterIndex, hbucket]
    · simp [filterIndex, Function.update_of_ne hp]
  have hset : ∀ p, r'.simpleSet p = if q = p then insert a (r.simpleSet p) else r.simpleSet p := by
    intro p
    rw [← hr', simpleSet_append]
    simp only [show ({ r.builder with simpleArticles := simple.1 } :
      ArticleFilterBuilder).isEmptyFilter d = true from hempty, and_true]
    rfl
  have howned := h.owned
  rw [holders_cons hq, show r.simpleIndex q = bucket.simpleIndex by
    simp [simpleIndex, hbucket]] at howned
  obtain ⟨hwell, howned'⟩ := @addTo_spec _ _ params.hash false _ _ h.simple _ _ howned a
  have hkeys : ∀ p c, keySets r'.builder (r'.keysOf p c) = keySets r.builder (r.keysOf p c) := by
    intro p c
    rw [← hr', keysOf_append]
    split
    · exact keySets_append_of_empty d (.inr hempty)
    · rfl
  refine ⟨?_, h.emptyData.extends hextends, ?_, ?_, ?_, ?_, ?_, ?_, ?_, ?_⟩
  · rw [← hr']
    exact h.ready.setArticles r.builder.filteredArticles simple.1
  · rw [← hr']
    intro k hk
    rcases List.mem_append.mp hk with hk | hk
    · exact h.added k hk
    · rw [List.mem_singleton.mp hk]
      exact hd
  · rw [← hr']
    exact h.hasData
  · rw [hindex, ← hr']
    exact h.filters
  · intro p c
    rw [hkeys p c, ← hr']
    exact h.sets p c
  · rw [← hr']
    exact hwell
  · intro p
    rw [h.known p, ← hr']
    by_cases hp : p = q
    · subst hp
      simp [hbucket]
    · simp [Function.update_of_ne hp]
  · rw [holders_cons hq, hset q, if_pos rfl, @holders_congr phrases r r' q]
    · rw [← hr']
      simp only [simpleIndex, Function.update_self, Option.map_some, Option.getD_some]
      exact howned'
    · intro p hp
      rw [← hr']
      simp [simpleIndex, Function.update_of_ne hp]
    · intro p hp
      rw [hset p, if_neg (Ne.symm hp)]
  · rw [← hr']
    intro k hk
    rcases List.mem_append.mp hk with hk | hk
    · exact h.noKeys k hk
    · rw [List.mem_singleton.mp hk]
      exact hq

theorem RunReady.skip (h : RunReady r phrases data) (hq : q ∈ phrases) (hd : r.builder.HasData d)
    (hoptions : r.builder.isEmptyFilter d = false) (ha : a ∈ r.simpleSet q) :
    RunReady ⟨r.builder, r.buckets, r.added ++ [⟨q, a, d⟩]⟩ phrases data := by
  refine ⟨h.ready, h.emptyData, ?_, h.hasData, h.filters, ?_, h.simple, h.known, ?_, ?_⟩
  · intro k hk
    rcases List.mem_append.mp hk with hk | hk
    · exact h.added k hk
    · rw [List.mem_singleton.mp hk]
      exact hd
  · intro p c
    rw [keysOf_append]
    split
    · rename_i hsame
      obtain ⟨rfl, rfl⟩ := hsame
      rw [keySets_append_of_empty d (.inl ((mem_simpleSet r q a).mp ha))]
      exact h.sets q a
    · exact h.sets p c
  · have hset : ∀ p, simpleSet ⟨r.builder, r.buckets, r.added ++ [⟨q, a, d⟩]⟩ p =
      r.simpleSet p := by
      intro p
      rw [simpleSet_append]
      simp [hoptions]
    simp only [holders, hset]
    exact h.owned
  · intro k hk
    rcases List.mem_append.mp hk with hk | hk
    · exact h.noKeys k hk
    · rw [List.mem_singleton.mp hk]
      exact hq

/-- A key with options is joined to the filter of its article. -/
theorem RunReady.join (h : RunReady r phrases data) (hbucket : r.buckets q = some bucket)
    (hd : r.builder.HasData d) (hoptions : r.builder.isEmptyFilter d = false)
    (ha : a ∉ r.simpleSet q) :
    let next := r.builder.addFilterTo params bucket.filterIndex ⟨a, d⟩
    ∃ data', RunReady ⟨next.1,
      Function.update r.buckets q (some ⟨bucket.simpleIndex, next.2⟩),
      r.added ++ [⟨q, a, d⟩]⟩ phrases data' := by
  intro next
  have hq : q ∈ phrases := by
    rw [h.known, hbucket]
    rfl
  have hindex : r.filterIndex q = some bucket.filterIndex := by rw [filterIndex, hbucket]; rfl
  obtain ⟨d', hjoined⟩ : ∃ d', ArticleFilterBuilder.FilterJoined r.builder r.filterIndex data q
      ⟨a, d⟩ next d' := by
    by_cases hempty : bucket.filterIndex = emptySetIndex
    · rw [hempty] at hindex
      refine ⟨d, ?_⟩
      show ArticleFilterBuilder.FilterJoined _ _ _ _ _
        (r.builder.addFilterTo params bucket.filterIndex ⟨a, d⟩) _
      rw [hempty]
      exact ArticleFilterBuilder.addFilterTo_empty h.ready h.filters hindex hd
    · by_cases hsingle : isSingleItem bucket.filterIndex = true
      · exact ArticleFilterBuilder.addFilterTo_single h.ready h.filters h.hasData hindex hsingle hd
      · exact ArticleFilterBuilder.addFilterTo_set h.ready h.filters h.hasData hindex
          (by simpa using hsingle) hempty hd
  have hextends := hjoined.extends'
  have hempty : next.1.isEmptyFilter = r.builder.isEmptyFilter :=
    funext fun d => isEmptyFilter_extends hextends d
  generalize hr' : (⟨next.1, Function.update r.buckets q (some ⟨bucket.simpleIndex, next.2⟩),
      r.added ++ [⟨q, a, d⟩]⟩ : BuilderRun) = r'
  have hhas : ∀ p c, ∀ k ∈ r.keysOf p c, r.builder.HasData k := by
    intro p c k hk
    simp only [keysOf, List.mem_map, List.mem_filter] at hk
    obtain ⟨k', ⟨hmem, -⟩, rfl⟩ := hk
    exact h.added k' hmem
  have hnone : ∀ k ∈ r.keysOf q a, next.1.isEmptyFilter k = false := by
    intro k hk
    rw [hempty]
    rw [mem_simpleSet] at ha
    have hne : ¬ r.builder.isEmptyFilter k = true := fun hk' => ha ⟨k, hk, hk'⟩
    simpa using hne
  have hset : ∀ p, r'.simpleSet p = r.simpleSet p := by
    intro p
    rw [← hr', simpleSet_append]
    simp only [hempty, hoptions, Bool.false_eq_true, and_false, if_false]
    simp only [simpleSet, hempty]
  refine ⟨Function.update data q (Function.update (data q) a (some d')), ?_, ?_, ?_, ?_, ?_, ?_, ?_,
    ?_, ?_, ?_⟩
  · rw [← hr']
    exact hjoined.ready
  · rw [← hr']
    exact h.emptyData.extends hextends
  · rw [← hr']
    intro k hk
    rcases List.mem_append.mp hk with hk | hk
    · exact hextends.hasData (h.added k hk)
    · rw [List.mem_singleton.mp hk]
      exact hextends.hasData hd
  · rw [← hr']
    intro p c e he
    by_cases hp : p = q
    · subst hp
      rw [Function.update_self] at he
      by_cases hc : c = a
      · subst hc
        rw [Function.update_self, Option.some.injEq] at he
        exact he ▸ hjoined.hasData
      · rw [Function.update_of_ne hc] at he
        exact hextends.hasData (h.hasData p c e he)
    · rw [Function.update_of_ne hp] at he
      exact hextends.hasData (h.hasData p c e he)
  · have hindex' : r'.filterIndex = Function.update r.filterIndex q (some next.2) := by
      rw [← hr']
      funext p
      by_cases hp : p = q
      · subst hp
        simp [filterIndex]
      · simp [filterIndex, Function.update_of_ne hp]
    rw [hindex', ← hr']
    exact hjoined.filters
  · intro p c
    have hold : ∀ p c, (data p c).map next.1.setsOf = keySets next.1 (r.keysOf p c) := by
      intro p c
      rw [keySets_extends hextends h.ready (hhas p c), ← h.sets p c]
      cases hdc : data p c with
      | none => rfl
      | some e => exact congrArg some (hextends.setsOf h.ready (h.hasData p c e hdc))
    rw [← hr', keysOf_append]
    by_cases hsame : q = p ∧ a = c
    · obtain ⟨rfl, rfl⟩ := hsame
      rw [if_pos ⟨rfl, rfl⟩, Function.update_self, Function.update_self]
      have happend := keySets_append hnone (show next.1.isEmptyFilter d = false by
        rw [hempty]
        exact hoptions)
      show some (next.1.setsOf d') = keySets next.1 (r.keysOf q a ++ [d])
      rw [happend, hjoined.sets, ← hold q a, hextends.setsOf h.ready hd]
      congr 2
      cases hdc : data q a with
      | none => rfl
      | some e => exact congrArg some (hextends.setsOf h.ready (h.hasData q a e hdc)).symm
    · rw [if_neg hsame]
      have hdata : Function.update data q (Function.update (data q) a (some d')) p c =
        data p c := by
        by_cases hp : p = q
        · subst hp
          have hc : c ≠ a := fun hc => hsame ⟨rfl, hc.symm⟩
          rw [Function.update_self, Function.update_of_ne hc]
        · rw [Function.update_of_ne hp]
      rw [hdata]
      exact hold p c
  · rw [← hr']
    show next.1.simpleArticles.WellFormed
    rw [hjoined.simpleArticles]
    exact h.simple
  · intro p
    rw [h.known p, ← hr']
    by_cases hp : p = q
    · subst hp
      simp [hbucket]
    · simp [Function.update_of_ne hp]
  · have hsimple : ∀ p, r'.simpleIndex p = r.simpleIndex p := by
      intro p
      rw [← hr']
      by_cases hp : p = q
      · subst hp
        simp [simpleIndex, hbucket]
      · simp [simpleIndex, Function.update_of_ne hp]
    have hbuilder : r'.builder.simpleArticles = r.builder.simpleArticles := by
      rw [← hr']
      exact hjoined.simpleArticles
    rw [hbuilder]
    simp only [holders, hset, hsimple]
    exact h.owned
  · rw [← hr']
    intro k hk
    rcases List.mem_append.mp hk with hk | hk
    · exact h.noKeys k hk
    · rw [List.mem_singleton.mp hk]
      exact hq

/-- A key that is added to a phrase with a bucket. -/
theorem RunReady.addTo {key : SearchKey} {masks : List ℕ} {n : ℕ}
    (h : RunReady r phrases data) (hbucket : r.buckets q = some bucket)
    (hdata : r.builder.addFilterData params key masks n = some (b, d)) :
    ∃ next data', r.builder.addTo params bucket key masks a n = some next ∧
      RunReady ⟨next.1, Function.update r.buckets q (some next.2), r.added ++ [⟨q, a, d⟩]⟩ phrases
        data' := by
  obtain ⟨hready, hbuilds, hd⟩ := ArticleFilterBuilder.addFilterData_spec h.ready hdata
  have hgrown := h.builds hready hbuilds
  have hq : q ∈ phrases := by
    rw [h.known, hbucket]
    rfl
  rw [ArticleFilterBuilder.addTo, hdata]
  simp only [Option.bind_eq_bind, Option.bind_some, Option.pure_def]
  by_cases hempty : b.isEmptyFilter d = true
  · rw [if_pos hempty]
    simp only [ArticleFilterBuilder.removeArticleFilters_eq (b := { b with simpleArticles :=
      (b.simpleArticles.addTo params.hash false bucket.simpleIndex a).1 })
      hgrown.filters.noIndex]
    exact ⟨_, data, rfl, hgrown.addSimple hbucket hd hempty⟩
  · rw [if_neg hempty]
    have hoptions : b.isEmptyFilter d = false := by simpa using hempty
    have hdenotes : b.simpleArticles.Denotes bucket.simpleIndex
      (simpleSet ⟨b, r.buckets, r.added⟩ q) := by
      have howned := hgrown.owned
      rw [holders_cons hq, show simpleIndex ⟨b, r.buckets, r.added⟩ q = bucket.simpleIndex by
        simp [simpleIndex, hbucket]] at howned
      exact howned.denotes _ (Multiset.mem_cons_self _ _)
    have hmem := hasItemAt_iff hgrown.simple hdenotes a
    by_cases ha : a ∈ simpleSet ⟨b, r.buckets, r.added⟩ q
    · rw [if_pos (hmem.mpr ha)]
      have hsame : Function.update r.buckets q (some bucket) = r.buckets := by
        rw [← hbucket, Function.update_eq_self]
      refine ⟨_, data, rfl, ?_⟩
      rw [hsame]
      exact hgrown.skip hq hd hoptions ha
    · rw [if_neg fun hcontains => ha (hmem.mp hcontains)]
      obtain ⟨data', hjoined⟩ := @RunReady.join ⟨b, r.buckets, r.added⟩ phrases data params q a d
        bucket hgrown hbucket hd hoptions ha
      exact ⟨_, data', rfl, hjoined⟩

theorem add_eq_addTo {key : SearchKey} {masks : List ℕ} {n : ℕ} (h : RunReady r phrases data) :
    r.builder.add params key masks a n =
      r.builder.addTo params ⟨emptySetIndex, emptySetIndex⟩ key masks a n := by
  rw [ArticleFilterBuilder.add, ArticleFilterBuilder.addTo]
  cases hdata : r.builder.addFilterData params key masks n with
  | none => rfl
  | some added =>
    obtain ⟨b, d⟩ := added
    obtain ⟨hready, hbuilds, -⟩ := ArticleFilterBuilder.addFilterData_spec h.ready hdata
    have hgrown := h.builds hready hbuilds
    simp only [Option.bind_eq_bind, Option.bind_some, Option.pure_def]
    by_cases hempty : b.isEmptyFilter d = true
    · rw [if_pos hempty, if_pos hempty]
      have hadd : b.simpleArticles.addTo params.hash false emptySetIndex a =
        b.simpleArticles.add a := by
        rw [CompactStorageBuilder.addTo]
        simp
      rw [hadd]
      simp only [ArticleFilterBuilder.removeArticleFilters_eq (b := { b with simpleArticles :=
        (b.simpleArticles.add a).1 }) hgrown.filters.noIndex]
    · rw [if_neg hempty, if_neg hempty]
      have hnot : ¬ b.simpleArticles.hasItemAt emptySetIndex a = true := by
        rw [hasItemAt_iff hgrown.simple hgrown.simple.denotes_empty a]
        simp
      rw [if_neg hnot, ArticleFilterBuilder.addFilterTo, if_pos rfl]

theorem RunReady.addToTrie {phraseLength : ℕ → ℕ} {r' : BuilderRun} {addition : Addition}
    (h : RunReady r phrases data) (hr' : r.addToTrie params phraseLength addition = some r') :
    ∃ phrases' data', RunReady r' phrases' data' := by
  rw [BuilderRun.addToTrie, Option.bind_eq_bind, Option.bind_eq_some_iff] at hr'
  obtain ⟨⟨b, d⟩, hdata, hr'⟩ := hr'
  cases hbucket : r.buckets addition.phrase with
  | none =>
    obtain ⟨next, data', hnext, hready⟩ := @RunReady.addTo _ _ _ _ params addition.phrase
      addition.articleId d ⟨emptySetIndex, emptySetIndex⟩ addition.key addition.capitalization
      (phraseLength addition.phrase) (h.openPhrase hbucket) (by simp) hdata
    simp only [hbucket, add_eq_addTo h, Option.bind_eq_bind, Option.pure_def] at hr'
    simp only at hnext
    rw [hnext, Option.bind_some, Option.some.injEq] at hr'
    subst hr'
    rw [Function.update_idem] at hready
    exact ⟨_, data', hready⟩
  | some bucket =>
    obtain ⟨next, data', hnext, hready⟩ := @RunReady.addTo _ _ _ _ params addition.phrase
      addition.articleId d bucket addition.key addition.capitalization
      (phraseLength addition.phrase) h hbucket hdata
    simp only [hbucket, Option.bind_eq_bind, Option.pure_def] at hr'
    rw [hnext, Option.bind_some, Option.some.injEq] at hr'
    subst hr'
    exact ⟨phrases, data', hready⟩

theorem create_runReady : RunReady ⟨ArticleFilterBuilder.create params, fun _ => none, []⟩ ∅
    fun _ _ => none := by
  obtain ⟨hready, hempty⟩ := @ArticleFilterBuilder.create_ready params
  have hfilters : (ArticleFilterBuilder.create params).filteredArticles =
      { base := CompactStorageBuilder.create params.hash false } := by
    rw [ArticleFilterBuilder.create]
    simp only [ArticleFilterBuilder.addFilterData_noOptions]
  have hsimple : (ArticleFilterBuilder.create params).simpleArticles =
      CompactStorageBuilder.create params.hash false := by
    rw [ArticleFilterBuilder.create]
    simp only [ArticleFilterBuilder.addFilterData_noOptions]
  refine ⟨hready, hempty, by simp, by simp, ?_, ?_, ?_, by simp, ?_, by simp⟩
  · show FiltersReady (ArticleFilterBuilder.create params).filteredArticles _ _
    rw [hfilters]
    refine ⟨rfl, (create_wellFormed _ _).empty, ?_, by simp, by simp [filterIndex],
      by simp [filterIndex], by simp [filterIndex]⟩
    intro slot
    simp only [CompactStorageBuilder.create, indexatorAdd, Bool.false_eq_true, if_false, refCount]
    rcases slot with _ | slot <;> simp
  · intro q a
    rfl
  · rw [hsimple]
    exact create_wellFormed _ _
  · exact ⟨by simp [holders], by simp [holders]⟩

theorem run_ready {phraseLength : ℕ → ℕ} {additions : List Addition}
    (h : run params phraseLength additions = some r) :
    ∃ phrases data, RunReady r phrases data := by
  have hrun : ∀ (additions : List Addition) (r r' : BuilderRun) (phrases : Finset ℕ)
      (data : ℕ → ℕ → Option ℕ), RunReady r phrases data →
      additions.foldlM (BuilderRun.addToTrie params phraseLength) r = some r' →
      ∃ phrases data, RunReady r' phrases data := by
    intro additions
    induction additions with
    | nil =>
      intro r r' phrases data hready hr'
      rw [List.foldlM_nil, Option.pure_def, Option.some.injEq] at hr'
      subst hr'
      exact ⟨phrases, data, hready⟩
    | cons addition additions ih =>
      intro r r' phrases data hready hr'
      rw [List.foldlM_cons, Option.bind_eq_bind, Option.bind_eq_some_iff] at hr'
      obtain ⟨next, hnext, hr'⟩ := hr'
      obtain ⟨phrases', data', hready'⟩ := hready.addToTrie hnext
      exact ih next r' phrases' data' hready' hr'
  exact hrun additions _ r ∅ _ create_runReady h

end Invariant

section Buckets
variable {r : BuilderRun} {phrases : Finset ℕ} {data : ℕ → ℕ → Option ℕ} {q : ℕ}
  {bucket : ArticleBucket}

theorem get_eq_filterMap {T : Type*} [DecidableEq T] (b : CompactStorageBuilder T) (index : ℕ) :
    b.get index = (b.members index).filterMap b.getItem := by
  by_cases h : isSingleItem index = true
  · rw [CompactStorageBuilder.get, members, if_pos h, if_pos h]
    cases hitem : b.getItem index <;> simp [hitem]
  · rw [CompactStorageBuilder.get, if_neg h, members_of_set (by simpa using h)]

theorem mem_simple (h : RunReady r phrases data) (hbucket : r.buckets q = some bucket) (a : ℕ) :
    a ∈ r.builder.simpleArticles.get bucket.simpleIndex ↔
      ∃ k ∈ r.keysOf q a, r.builder.isEmptyFilter k = true := by
  have hq : q ∈ phrases := by
    rw [h.known, hbucket]
    rfl
  have howned := h.owned
  rw [holders_cons hq] at howned
  have hdenotes := howned.denotes _ (Multiset.mem_cons_self _ _)
  have hindex : r.simpleIndex q = bucket.simpleIndex := by simp [simpleIndex, hbucket]
  rw [hindex] at hdenotes
  rw [mem_get, ← hdenotes.holds a, mem_simpleSet]

theorem nodup_simple (h : RunReady r phrases data) (hbucket : r.buckets q = some bucket) :
    (r.builder.simpleArticles.get bucket.simpleIndex).Nodup := by
  have hq : q ∈ phrases := by
    rw [h.known, hbucket]
    rfl
  have howned := h.owned
  rw [holders_cons hq, show r.simpleIndex q = bucket.simpleIndex by
    simp [simpleIndex, hbucket]] at howned
  have hset := h.simple.members_single (howned.denotes _ (Multiset.mem_cons_self _ _))
  rw [get_eq_filterMap, List.Nodup, List.pairwise_filterMap]
  refine List.Pairwise.imp_of_mem ?_ hset.sorted
  intro i j hi hj hlt x hx y hy hxy
  subst hxy
  have hlookup := (h.simple.index x i).mpr ⟨(hset.single i hi).1, hx⟩
  have heq := h.simple.eq_index hlookup (hset.single j hj).1 hy
  simp only [natLt, decide_eq_true_eq] at hlt
  omega

theorem filtersOf_bucket (h : RunReady r phrases data) (hbucket : r.buckets q = some bucket) :
    FiltersOf r.builder.filteredArticles.base
      (r.builder.filteredArticles.base.members bucket.filterIndex) (data q) :=
  h.filters.filters q bucket.filterIndex (by simp [filterIndex, hbucket])

theorem mem_filters (h : RunReady r phrases data) (hbucket : r.buckets q = some bucket) (a d : ℕ) :
    (⟨a, d⟩ : ArticleFilter) ∈ r.builder.filteredArticles.base.get bucket.filterIndex ↔
      data q a = some d := by
  rw [mem_get, (filtersOf_bucket h hbucket).mem a d]

theorem nodup_filters (h : RunReady r phrases data) (hbucket : r.buckets q = some bucket) :
    ((r.builder.filteredArticles.base.get bucket.filterIndex).map (·.articleId)).Nodup := by
  have hfilters := filtersOf_bucket h hbucket
  rw [get_eq_filterMap, List.Nodup, List.pairwise_map, List.pairwise_filterMap]
  refine List.Pairwise.imp_of_mem ?_ hfilters.sorted
  intro i j hi hj hlt f hf g hg hsame
  have heq := hfilters.one i hi j hj f g hf hg hsame
  simp only [natLt, decide_eq_true_eq] at hlt
  omega

theorem mem_articles_filters (h : RunReady r phrases data) (hbucket : r.buckets q = some bucket)
    (a : ℕ) : a ∈ (r.builder.filteredArticles.base.get bucket.filterIndex).map (·.articleId) ↔
      (data q a).isSome = true := by
  rw [List.mem_map, Option.isSome_iff_exists]
  constructor
  · rintro ⟨⟨a', d⟩, hmem, rfl⟩
    exact ⟨d, (mem_filters h hbucket a' d).mp hmem⟩
  · rintro ⟨d, hd⟩
    exact ⟨⟨a, d⟩, (mem_filters h hbucket a d).mpr hd, rfl⟩

theorem count_articles_le_one (h : RunReady r phrases data) (hbucket : r.buckets q = some bucket)
    (a : ℕ) : (r.articles bucket).count a ≤ 1 ↔
      ¬ ((∃ k ∈ r.keysOf q a, r.builder.isEmptyFilter k = true) ∧ (data q a).isSome = true) := by
  rw [articles, List.count_append, ← mem_simple h hbucket a, ← mem_articles_filters h hbucket a,
    ← List.count_pos_iff, ← List.count_pos_iff]
  have h1 := List.nodup_iff_count_le_one.mp (nodup_simple h hbucket) a
  have h2 := List.nodup_iff_count_le_one.mp (nodup_filters h hbucket) a
  omega

variable (tables : MatchTables) (correctIndex : ℕ → ℕ) (p : PhraseWords)

theorem accepts_of_empty (h : RunReady r phrases data) {d : ℕ} (hd : r.builder.HasData d)
    (hempty : r.builder.isEmptyFilter d = true) : r.accepts tables correctIndex d p = true := by
  have hdata := (ArticleFilterBuilder.isEmptyFilter_iff h.ready h.emptyData hd).mp hempty
  rw [accepts, ArticleFilterBuilder.filterConstraints_eq h.ready,
    ArticleFilterBuilder.setsOf_of_empty h.ready hdata, ArticleFilterBuilder.constraintsOf_empty]
  rfl

theorem matches_iff (h : RunReady r phrases data) (hbucket : r.buckets q = some bucket) (a : ℕ) :
    r.Matches tables correctIndex bucket a p ↔
      (∃ k ∈ r.keysOf q a, r.builder.isEmptyFilter k = true) ∨
        ∃ d, data q a = some d ∧ r.accepts tables correctIndex d p = true := by
  rw [Matches, mem_simple h hbucket]
  apply or_congr_right
  constructor
  · rintro ⟨⟨a', d⟩, hmem, rfl, haccepts⟩
    exact ⟨d, (mem_filters h hbucket a' d).mp hmem, haccepts⟩
  · rintro ⟨d, hd, haccepts⟩
    exact ⟨⟨a, d⟩, (mem_filters h hbucket a d).mpr hd, rfl, haccepts⟩

/-- The filter of an article in a bucket, if it has one, is that of its data. -/
theorem filters_stored_iff (h : RunReady r phrases data) (hbucket : r.buckets q = some bucket)
    (a : ℕ) : (∀ f ∈ r.builder.filteredArticles.base.get bucket.filterIndex, f.articleId = a →
        r.ReadsStored correctIndex (r.builder.setsOf f.dataIndex) p) ↔
      ∀ d, data q a = some d → r.ReadsStored correctIndex (r.builder.setsOf d) p := by
  constructor
  · intro hall d hd
    exact hall ⟨a, d⟩ ((mem_filters h hbucket a d).mpr hd) rfl
  · rintro hall ⟨a', d⟩ hf rfl
    exact hall d ((mem_filters h hbucket a' d).mp hf)

/-- The keys of one article. -/
theorem article_iff (h : RunReady r phrases data) (hbucket : r.buckets q = some bucket) (a : ℕ) :
    r.ArticleAlternatives tables correctIndex bucket (r.keysOf q a) a p ↔
      r.KeysAgree tables correctIndex (r.keysOf q a) p := by
  have hparts : r.ArticleAlternatives tables correctIndex bucket (r.keysOf q a) a p ↔
      (∀ k ∈ r.keysOf q a, r.ReadsStored correctIndex (r.builder.setsOf k) p) ∧
      ((r.Matches tables correctIndex bucket a p ↔
          ∃ k ∈ r.keysOf q a, r.accepts tables correctIndex k p = true) ∧
        (r.articles bucket).count a ≤ 1) ∧
      ∀ d, data q a = some d → r.ReadsStored correctIndex (r.builder.setsOf d) p := by
    rw [← filters_stored_iff correctIndex p h hbucket a]
    constructor
    · rintro ⟨hmatches, honce, hkeys, hfilters⟩
      exact ⟨hkeys, ⟨hmatches, honce⟩, hfilters⟩
    · rintro ⟨hkeys, ⟨hmatches, honce⟩, hfilters⟩
      exact ⟨hmatches, honce, hkeys, hfilters⟩
  rw [hparts, KeysAgree]
  apply and_congr_right
  intro _
  have hhas : ∀ k ∈ r.keysOf q a, r.builder.HasData k := by
    intro k hk
    simp only [keysOf, List.mem_map, List.mem_filter] at hk
    obtain ⟨k', ⟨hmem, -⟩, rfl⟩ := hk
    exact h.added k' hmem
  have hsets := h.sets q a
  rw [matches_iff tables correctIndex p h hbucket, count_articles_le_one h hbucket]
  generalize r.keysOf q a = keys at hhas hsets ⊢
  cases keys with
  | nil =>
    have hnone : data q a = none := Option.map_eq_none_iff.mp hsets
    simp [hnone]
  | cons first rest =>
    have hhead : ∀ P : ℕ → Prop, (∀ k ∈ (first :: rest).head?, P k) ↔ P first := by
      intro P
      simp
    rw [hhead]
    by_cases hfirst : r.builder.isEmptyFilter first = true
    · -- the article is a simple one from its first key on
      have hnone : data q a = none := by
        rw [keySets, List.takeWhile_cons] at hsets
        simp only [hfirst, Bool.not_true, Bool.false_eq_true, if_false, if_true] at hsets
        exact Option.map_eq_none_iff.mp hsets
      have hexists : ∃ k ∈ first :: rest, r.builder.isEmptyFilter k = true :=
        ⟨first, List.mem_cons_self, hfirst⟩
      have haccepts : ∃ k ∈ first :: rest, r.accepts tables correctIndex k p = true :=
        ⟨first, List.mem_cons_self,
          accepts_of_empty tables correctIndex p h (hhas _ List.mem_cons_self) hfirst⟩
      simp only [hexists, haccepts, hnone, hfirst, true_or, Option.isSome_none,
        Bool.false_eq_true, and_false, not_false_eq_true, and_self, reduceCtorEq, false_implies,
        implies_true]
    · have hfirst' : r.builder.isEmptyFilter first = false := by simpa using hfirst
      have hjoined : ∃ d, data q a = some d := by
        simp only [keySets, List.takeWhile_cons, hfirst', Bool.not_false, if_true, reduceCtorEq,
          if_false] at hsets
        obtain ⟨d, hd, -⟩ := Option.map_eq_some_iff.mp hsets
        exact ⟨d, hd⟩
      obtain ⟨d, hd⟩ := hjoined
      by_cases hall : ∀ k ∈ first :: rest, r.builder.isEmptyFilter k = false
      · have hnot : ¬ ∃ k ∈ first :: rest, r.builder.isEmptyFilter k = true := by
          rintro ⟨k, hk, hempty⟩
          rw [hall k hk] at hempty
          cases hempty
        rw [hd, Option.map_some, keySets, takeWhile_all fun k hk => by rw [hall k hk]; rfl,
          if_neg (by simp), Option.some.injEq] at hsets
        have htogether : r.accepts tables correctIndex d p =
            r.acceptTogether tables correctIndex (first :: rest) p := by
          rw [accepts, acceptTogether, ArticleFilterBuilder.filterConstraints_eq h.ready, hsets]
        simp only [hnot, hd, Option.some.injEq, exists_eq_left', htogether, false_or, false_and,
          not_false_eq_true, and_true, hfirst', Bool.false_eq_true, forall_eq']
        rw [hsets]
        constructor
        · exact fun hboth => ⟨hall, hboth.2, hboth.1⟩
        · exact fun hiff => ⟨hiff.2.2, hiff.2.1⟩
      · -- a key without options comes too late
        have hexists : ∃ k ∈ first :: rest, r.builder.isEmptyFilter k = true := by
          by_contra hnot
          apply hall
          intro k hk
          have hne : ¬ r.builder.isEmptyFilter k = true := fun hempty => hnot ⟨k, hk, hempty⟩
          simpa using hne
        constructor
        · rintro ⟨⟨-, hcount⟩, -⟩
          exact absurd ⟨hexists, by rw [hd]; rfl⟩ hcount
        · rintro (hempty | ⟨hoptions, -⟩)
          · exact absurd hempty hfirst
          · exact absurd hoptions hall

end Buckets

def sampleParams : FilterParams := ⟨List.sum, fun _ => ∅⟩

def sampleTables : MatchTables where
  isLower := fun _ => true
  isUpper := fun _ => false
  isDigit := fun _ => false
  strongNormalize := fun g _ => g
  isAgreed := fun _ _ => true

def gramKey (gram : ℕ) : SearchKey := { gram := [{ words := [1], allow := [{gram}] }] }

/-- Article 7 has a key for each of two grammems, article 8 has a key for a grammem and a plain one.
-/
def sampleAdditions : List Addition :=
  [⟨0, gramKey 1, [], 7⟩, ⟨0, gramKey 2, [], 7⟩, ⟨0, gramKey 1, [], 8⟩, ⟨0, {}, [], 8⟩]

/-- A word with the first grammem. -/
def sampleReading : PhraseWords where
  input := [{ exactForm := "x", original := ['x'] }]
  wordCount := 1
  words := [{ lemma? := some { text := "x", grammems := [{1}] } }]

def sampleRun : Option BuilderRun := run sampleParams (fun _ => 1) sampleAdditions

theorem sampleRun_isSome : sampleRun.isSome = true := by decide +kernel

def sampleBucket : ArticleBucket := ⟨0, 3⟩

end BuilderRun
end TomitaParser.Gzt
