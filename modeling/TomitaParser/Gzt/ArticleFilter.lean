import Mathlib.Data.Finset.Lattice.Basic
import TomitaParser.Gzt.CompactStorage
import TomitaParser.Gzt.FilterMatch
/-! # Building of filters

How the options of a key become a filter, and how the filters of the articles of a phrase are kept
in its bucket. -/

namespace TomitaParser.Gzt
open OrderedSet

/-- An option of a key that allows and forbids values for some words, numbered from 1. -/
structure WordOption (V : Type) where
  words : List ℕ := []
  allow : List V := []
  forbid : List V := []

/-- `TGleicheFilter`. -/
structure AgrOption where
  words : List ℕ := []
  types : List ℕ := []

/-- The options of a `TSearchKey`. -/
structure SearchKey where
  gram : List (WordOption GramBits) := []
  lang : List (WordOption ℕ) := []
  case : List (WordOption CapitalizationType) := []
  agr : List AgrOption := []

/-- `CollectWordIndexes`. A word index is a byte, so the loop over all words of a phrase of 256
words does not end. -/
def collectWordIndexes (words : List ℕ) (phraseLength : ℕ) : Option (List ℕ) :=
  if words = [] then if phraseLength < 256 then some (List.range phraseLength) else none
  else some (insertAll natLt
    ((words.filter fun w => decide (0 < w ∧ w ≤ phraseLength)).map fun w => (w - 1) % 256) [])

/-- A map by words, in their order. The value of a word changes, from `init` if it has none. -/
def updateWord {V : Type} (init : V) (f : V → V) (word : ℕ) : List (ℕ × V) → List (ℕ × V)
  | [] => [(word, f init)]
  | (w, v) :: rest =>
    if word < w then (word, f init) :: (w, v) :: rest
    else if word = w then (w, f v) :: rest
    else (w, v) :: updateWord init f word rest

def updateWords {V : Type} (init : V) (f : V → V) (words : List ℕ) (m : List (ℕ × V)) :
    List (ℕ × V) :=
  words.foldl (fun m word => updateWord init f word m) m

/-- `CollectGramBitSets`. -/
def collectGramBitSets (grams : List GramBits) (words : List ℕ) (m : List (ℕ × List GramBits)) :
    List (ℕ × List GramBits) :=
  if grams = [] then m else updateWords [] (· ++ grams) words m

/-- `CollectLangMask`. -/
def collectLangMask (langs : List ℕ) (words : List ℕ) (m : List (ℕ × Finset ℕ)) :
    List (ℕ × Finset ℕ) :=
  if langs = [] then m else updateWords ∅ (· ∪ langs.toFinset) words m

/-- `CollectCapitalizations`. -/
def collectCapitalizations (cases : List CapitalizationType) (words : List ℕ)
    (m : List (ℕ × List CapitalizationType)) : List (ℕ × List CapitalizationType) :=
  if cases = [] then m else updateWords [] (· ∪ cases) words m

/-- The values that some options allow and forbid, word by word. -/
def collectOptions {V W : Type} (collect : List V → List ℕ → List (ℕ × W) → List (ℕ × W))
    (phraseLength : ℕ) : List (WordOption V) → List (ℕ × W) → List (ℕ × W) →
    Option (List (ℕ × W) × List (ℕ × W))
  | [], allowed, forbidden => some (allowed, forbidden)
  | o :: options, allowed, forbidden => do
    let words ← collectWordIndexes o.words phraseLength
    collectOptions collect phraseLength options (collect o.allow words allowed)
      (collect o.forbid words forbidden)

/-- `TSingleWordFilter`. -/
structure SingleWordFilter where
  word : ℕ
  index : ℕ
deriving DecidableEq, Repr

/-- `TAgr`. -/
structure Agr where
  wordsIndex : ℕ
  gleicheTypes : Finset ℕ
deriving DecidableEq

/-- `TFilterData`. -/
structure FilterData where
  allowedGramIndex : ℕ
  forbiddenGramIndex : ℕ
  allowedCaseIndex : ℕ
  forbiddenCaseIndex : ℕ
  allowedLangIndex : ℕ
  forbiddenLangIndex : ℕ
  agrIndex : ℕ
deriving DecidableEq, Repr

/-- `TFilter`. -/
structure ArticleFilter where
  articleId : ℕ
  dataIndex : ℕ
deriving DecidableEq, Repr

/-- `TArticleBucket`. -/
structure ArticleBucket where
  simpleIndex : ℕ
  filterIndex : ℕ
deriving DecidableEq, Repr

/-- `TFilterStorageBuilder`: a storage of filters that has an index of its own. -/
structure FilterStorage where
  base : CompactStorageBuilder ArticleFilter := {}
  /-- For each filter data the articles that have it, with the indices of their filters. -/
  filterIndex : List (List (ℕ × ℕ)) := []

/-- `TArticleFilterBuilder`. -/
structure ArticleFilterBuilder where
  grammems : CompactStorageBuilder GramBits
  wordGrammems : CompactStorageBuilder SingleWordFilter
  langMasks : CompactStorageBuilder (Finset ℕ)
  wordLanguages : CompactStorageBuilder SingleWordFilter
  capitalizations : CompactStorageBuilder Capitalization
  wordCases : CompactStorageBuilder SingleWordFilter
  gleicheWords : CompactStorageBuilder ℕ
  agreements : CompactStorageBuilder Agr
  filterData : CompactStorageBuilder FilterData
  filteredArticles : FilterStorage
  simpleArticles : CompactStorageBuilder ℕ
  emptyFilterDataIndex : ℕ

/-- The masks of agreement types (`GleicheTypeToMask`), and the hash of a set of indices. -/
structure FilterParams where
  hash : List ℕ → ℕ
  gleicheMask : ℕ → Finset ℕ

namespace ArticleFilterBuilder
open CompactStorageBuilder
variable (params : FilterParams)

/-- The loop of `AddWordGrams`, `AddWordLangs` and `AddWordCases`: the values of a word are stored,
then the word with the index of its values. -/
def addWordValues {V W : Type} [DecidableEq V]
    (store : W → CompactStorageBuilder V → CompactStorageBuilder V × ℕ) :
    List (ℕ × W) → CompactStorageBuilder V → CompactStorageBuilder SingleWordFilter →
    CompactStorageBuilder V × CompactStorageBuilder SingleWordFilter × List ℕ
  | [], values, words => (values, words, [])
  | (word, w) :: rest, values, words =>
    let stored := store w values
    let added := words.add ⟨word, stored.2⟩
    let r := addWordValues store rest stored.1 added.1
    (r.1, r.2.1, added.2 :: r.2.2)

/-- The loop and the merge of the indices of the words. -/
def addWords {V W : Type} [DecidableEq V]
    (store : W → CompactStorageBuilder V → CompactStorageBuilder V × ℕ) (m : List (ℕ × W))
    (values : CompactStorageBuilder V) (words : CompactStorageBuilder SingleWordFilter) :
    CompactStorageBuilder V × CompactStorageBuilder SingleWordFilter × ℕ :=
  let r := addWordValues store m values words
  let merged := r.2.1.merge params.hash true r.2.2
  (r.1, merged.1, merged.2)

/-- `AddWordGrams`. -/
def addWordGrams (m : List (ℕ × List GramBits)) (b : ArticleFilterBuilder) :
    ArticleFilterBuilder × ℕ :=
  let r := addWords params (fun grams s => s.addRange params.hash true grams) m b.grammems
    b.wordGrammems
  ({ b with grammems := r.1, wordGrammems := r.2.1 }, r.2.2)

/-- `AddWordLangs`. -/
def addWordLangs (m : List (ℕ × Finset ℕ)) (b : ArticleFilterBuilder) : ArticleFilterBuilder × ℕ :=
  let r := addWords params (fun mask s => s.add mask) m b.langMasks b.wordLanguages
  ({ b with langMasks := r.1, wordLanguages := r.2.1 }, r.2.2)

/-- The exact case of a word of the key becomes the case that the word has. -/
def exactCase (mask : ℕ) : Capitalization :=
  if mask = 0 then ⟨.lower, 0⟩
  else if mask = 1 then ⟨.title, 0⟩
  else if mask = 2 ^ 64 - 1 then ⟨.upper, 0⟩
  else ⟨.exact, mask⟩

/-- `AddWordCases`. -/
def addWordCases (capitalizationMasks : List ℕ) (m : List (ℕ × List CapitalizationType))
    (b : ArticleFilterBuilder) : ArticleFilterBuilder × ℕ :=
  let m := m.map fun c => (c.1, c.2.map fun type =>
    if type = .exact then exactCase (capitalizationMasks.getD c.1 0) else ⟨type, 0⟩)
  let r := addWords params (fun cases s => s.addRange params.hash true cases) m b.capitalizations
    b.wordCases
  ({ b with capitalizations := r.1, wordCases := r.2.1 }, r.2.2)

/-- The loop of `MakeAgrFilter`. An agreement that is ignored keeps the index 0. -/
def addAgreements (phraseLength : ℕ) : List AgrOption → ArticleFilterBuilder →
    Option (ArticleFilterBuilder × List ℕ)
  | [], b => some (b, [])
  | agr :: rest, b => do
    let words ← collectWordIndexes agr.words phraseLength
    if words.length < 2 then
      let r ← addAgreements phraseLength rest b
      return (r.1, 0 :: r.2)
    else
      let stored := b.gleicheWords.addRange params.hash true words
      let mask := agr.types.foldl (fun mask type => mask ∪ params.gleicheMask (type % 100)) ∅
      let added := b.agreements.add ⟨stored.2, mask⟩
      let r ← addAgreements phraseLength rest
        { b with gleicheWords := stored.1, agreements := added.1 }
      return (r.1, added.2 :: r.2)

/-- `MakeAgrFilter`. -/
def makeAgrFilter (agr : List AgrOption) (phraseLength : ℕ) (b : ArticleFilterBuilder) :
    Option (ArticleFilterBuilder × ℕ) := do
  let r ← addAgreements params phraseLength agr b
  let merged := r.1.agreements.merge params.hash true r.2
  return ({ r.1 with agreements := merged.1 }, merged.2)

/-- `AddFilterData`. -/
def addFilterData (key : SearchKey) (capitalization : List ℕ) (phraseLength : ℕ)
    (b : ArticleFilterBuilder) : Option (ArticleFilterBuilder × ℕ) := do
  let grams ← collectOptions collectGramBitSets phraseLength key.gram [] []
  let allowedGram := addWordGrams params grams.1 b
  let forbiddenGram := addWordGrams params grams.2 allowedGram.1
  let langs ← collectOptions collectLangMask phraseLength key.lang [] []
  let allowedLang := addWordLangs params langs.1 forbiddenGram.1
  let forbiddenLang := addWordLangs params langs.2 allowedLang.1
  let cases ← collectOptions collectCapitalizations phraseLength key.case [] []
  let allowedCase := addWordCases params capitalization cases.1 forbiddenLang.1
  let forbiddenCase := addWordCases params capitalization cases.2 allowedCase.1
  let agr ← makeAgrFilter params key.agr phraseLength forbiddenCase.1
  let added := agr.1.filterData.add {
    allowedGramIndex := allowedGram.2
    forbiddenGramIndex := forbiddenGram.2
    allowedCaseIndex := allowedCase.2
    forbiddenCaseIndex := forbiddenCase.2
    allowedLangIndex := allowedLang.2
    forbiddenLangIndex := forbiddenLang.2
    agrIndex := agr.2 }
  return ({ agr.1 with filterData := added.1 }, added.2)

/-- The constructor: the filter data of a key without options comes first. -/
def create : ArticleFilterBuilder :=
  let b : ArticleFilterBuilder := {
    grammems := CompactStorageBuilder.create params.hash true
    wordGrammems := CompactStorageBuilder.create params.hash true
    langMasks := CompactStorageBuilder.create params.hash true
    wordLanguages := CompactStorageBuilder.create params.hash true
    capitalizations := CompactStorageBuilder.create params.hash true
    wordCases := CompactStorageBuilder.create params.hash true
    gleicheWords := CompactStorageBuilder.create params.hash true
    agreements := CompactStorageBuilder.create params.hash true
    filterData := CompactStorageBuilder.create params.hash true
    filteredArticles := { base := CompactStorageBuilder.create params.hash false }
    simpleArticles := CompactStorageBuilder.create params.hash false
    emptyFilterDataIndex := 0 }
  match addFilterData params {} [] 0 b with
  | some r => { r.1 with emptyFilterDataIndex := r.2 }
  | none => b

def isEmptyFilter (b : ArticleFilterBuilder) (dataIndex : ℕ) : Bool :=
  dataIndex == b.emptyFilterDataIndex

end ArticleFilterBuilder

namespace FilterStorage
open CompactStorageBuilder

/-- `PushBackSingle`. The index of items of the base is left as it is. -/
def pushBackSingle (s : FilterStorage) (item : ArticleFilter) : FilterStorage × ℕ :=
  let index := toItemIndex s.base.items.length
  (⟨{ s.base with items := s.base.items ++ [item] },
    s.filterIndex.modify item.dataIndex (· ++ [(item.articleId, index)])⟩, index)

/-- `Add`: only the last article of a filter data is looked at. -/
def add (s : FilterStorage) (item : ArticleFilter) : FilterStorage × ℕ :=
  if s.filterIndex.length ≤ item.dataIndex then
    let missing := List.replicate (item.dataIndex + 1 - s.filterIndex.length) []
    pushBackSingle { s with filterIndex := s.filterIndex ++ missing } item
  else
    match (s.filterIndex.getD item.dataIndex []).getLast? with
    | some last => if last.1 = item.articleId then (s, last.2) else pushBackSingle s item
    | none => pushBackSingle s item

end FilterStorage

namespace ArticleFilterBuilder
open CompactStorageBuilder
variable (params : FilterParams)

/-- The data of a filter. -/
def getFilterData (b : ArticleFilterBuilder) (dataIndex : ℕ) : FilterData :=
  (b.filterData.getItem dataIndex).getD ⟨0, 0, 0, 0, 0, 0, 0⟩

/-- `MergeFilters`. -/
def mergeFilters (b : ArticleFilterBuilder) (f₁ f₂ : ArticleFilter) :
    ArticleFilterBuilder × ArticleFilter :=
  let d₁ := b.getFilterData f₁.dataIndex
  let d₂ := b.getFilterData f₂.dataIndex
  let h := params.hash
  let allowedGram := b.wordGrammems.merge h true [d₁.allowedGramIndex, d₂.allowedGramIndex]
  let forbiddenGram :=
    allowedGram.1.merge h true [d₁.forbiddenGramIndex, d₂.forbiddenGramIndex]
  let allowedCase := b.wordCases.merge h true [d₁.allowedCaseIndex, d₂.allowedCaseIndex]
  let forbiddenCase :=
    allowedCase.1.merge h true [d₁.forbiddenCaseIndex, d₂.forbiddenCaseIndex]
  let allowedLang := b.wordLanguages.merge h true [d₁.allowedLangIndex, d₂.allowedLangIndex]
  let forbiddenLang :=
    allowedLang.1.merge h true [d₁.forbiddenLangIndex, d₂.forbiddenLangIndex]
  let agr := b.agreements.merge h true [d₁.agrIndex, d₂.agrIndex]
  let added := b.filterData.add {
    allowedGramIndex := allowedGram.2
    forbiddenGramIndex := forbiddenGram.2
    allowedCaseIndex := allowedCase.2
    forbiddenCaseIndex := forbiddenCase.2
    allowedLangIndex := allowedLang.2
    forbiddenLangIndex := forbiddenLang.2
    agrIndex := agr.2 }
  ({ b with wordGrammems := forbiddenGram.1, wordCases := forbiddenCase.1,
            wordLanguages := forbiddenLang.1, agreements := agr.1, filterData := added.1 },
    ⟨f₁.articleId, added.2⟩)

def addFilter (b : ArticleFilterBuilder) (item : ArticleFilter) : ArticleFilterBuilder × ℕ :=
  let r := b.filteredArticles.add item
  ({ b with filteredArticles := r.1 }, r.2)

/-- An operation of the base storage of filters. -/
def onFilters (b : ArticleFilterBuilder)
    (op : CompactStorageBuilder ArticleFilter → CompactStorageBuilder ArticleFilter × ℕ) :
    ArticleFilterBuilder × ℕ :=
  let r := op b.filteredArticles.base
  ({ b with filteredArticles := { b.filteredArticles with base := r.1 } }, r.2)

/-- A member of a set is replaced, in place if nobody else holds the set. -/
def replaceMember (b : ArticleFilterBuilder) (index : ℕ) (old : Option ℕ) (new : ℕ) :
    ArticleFilterBuilder × ℕ :=
  b.onFilters fun base =>
    let existing := base.getItemSet index
    let kept := existing.items.filter fun i => decide (some i ≠ old)
    if 1 < existing.refCount then
      (base.modifySet (index / 2) release).addSet params.hash false (insertBy natLt new kept)
    else
      (base.modifySet (index / 2) fun set => { set with items := insertBy natLt new kept }, index)

/-- `TFilterStorageBuilder::AddTo`. -/
def addFilterTo (b : ArticleFilterBuilder) (index : ℕ) (item : ArticleFilter) :
    ArticleFilterBuilder × ℕ :=
  if index = emptySetIndex then b.addFilter item
  else if isSingleItem index then
    match b.filteredArticles.base.getItem index with
    | some existing =>
      -- a filter of the same article is merged
      if existing.articleId = item.articleId then
        if existing = item then (b, index)
        else
          let merged := b.mergeFilters params existing item
          merged.1.addFilter merged.2
      else
        let added := b.addFilter item
        added.1.onFilters fun base =>
          base.addSet params.hash false (insertBy natLt added.2 (insertBy natLt index []))
    | none => (b, index)
  else
    let members := (b.filteredArticles.base.getItemSet index).items
    match members.find? fun i =>
        ((b.filteredArticles.base.getItem i).map (·.articleId)) == some item.articleId with
    | some old =>
      match b.filteredArticles.base.getItem old with
      | some existing =>
        if existing = item then (b, index)
        else
          let merged := b.mergeFilters params existing item
          let added := merged.1.addFilter merged.2
          added.1.replaceMember params index (some old) added.2
      | none => (b, index)
    | none =>
      let added := b.addFilter item
      added.1.replaceMember params index none added.2

/-- `RemoveArticleFilters`. -/
def removeArticleFilters (b : ArticleFilterBuilder) (filterIndex articleId : ℕ) :
    ArticleFilterBuilder × ℕ :=
  match (b.filteredArticles.base.get filterIndex).find? fun f => f.articleId == articleId with
  | some f => b.onFilters fun base => base.removeFrom params.hash false filterIndex f
  | none => (b, filterIndex)

/-- `Add`. -/
def add (b : ArticleFilterBuilder) (key : SearchKey) (capitalization : List ℕ)
    (articleId phraseLength : ℕ) : Option (ArticleFilterBuilder × ArticleBucket) := do
  let (b, dataIndex) ← b.addFilterData params key capitalization phraseLength
  if b.isEmptyFilter dataIndex then
    let simple := b.simpleArticles.add articleId
    return ({ b with simpleArticles := simple.1 }, ⟨simple.2, emptySetIndex⟩)
  else
    let (b, filterIndex) := b.addFilter ⟨articleId, dataIndex⟩
    return (b, ⟨emptySetIndex, filterIndex⟩)

/-- `AddTo`. -/
def addTo (b : ArticleFilterBuilder) (bucket : ArticleBucket) (key : SearchKey)
    (capitalization : List ℕ) (articleId phraseLength : ℕ) :
    Option (ArticleFilterBuilder × ArticleBucket) := do
  let (b, dataIndex) ← b.addFilterData params key capitalization phraseLength
  if b.isEmptyFilter dataIndex then
    let simple := b.simpleArticles.addTo params.hash false bucket.simpleIndex articleId
    -- the filters of this article are not needed any more
    let b := { b with simpleArticles := simple.1 }
    let (b, filterIndex) := b.removeArticleFilters params bucket.filterIndex articleId
    return (b, ⟨simple.2, filterIndex⟩)
  else if b.simpleArticles.hasItemAt bucket.simpleIndex articleId then return (b, bucket)
  else
    let (b, filterIndex) := b.addFilterTo params bucket.filterIndex ⟨articleId, dataIndex⟩
    return (b, ⟨bucket.simpleIndex, filterIndex⟩)

/-- The values of the words that some indices of word filters stand for. -/
def wordValues {V : Type} [DecidableEq V] (words : CompactStorageBuilder SingleWordFilter)
    (values : CompactStorageBuilder V) (members : List ℕ) : List (ℕ × List V) :=
  (members.filterMap words.getItem).map fun w => (w.word, values.get w.index)

/-- The constraints of seven sets of indices. The storage reads its items without a check of the
index; an index of no item is left out here. -/
def constraints (b : ArticleFilterBuilder) (allowedGrams forbiddenGrams allowedCases forbiddenCases
    allowedLangs forbiddenLangs agreements : List ℕ) : PhraseWords.Constraints where
  allowedGrams := wordValues b.wordGrammems b.grammems allowedGrams
  forbiddenGrams := wordValues b.wordGrammems b.grammems forbiddenGrams
  allowedCases := wordValues b.wordCases b.capitalizations allowedCases
  forbiddenCases := wordValues b.wordCases b.capitalizations forbiddenCases
  allowedLangs := wordValues b.wordLanguages b.langMasks allowedLangs
  forbiddenLangs := wordValues b.wordLanguages b.langMasks forbiddenLangs
  agreements := (agreements.filterMap b.agreements.getItem).map fun a =>
    (b.gleicheWords.get a.wordsIndex, a.gleicheTypes)

/-- The constraints of a filter. -/
def filterConstraints (b : ArticleFilterBuilder) (dataIndex : ℕ) : PhraseWords.Constraints :=
  let d := b.getFilterData dataIndex
  b.constraints (b.wordGrammems.members d.allowedGramIndex)
    (b.wordGrammems.members d.forbiddenGramIndex) (b.wordCases.members d.allowedCaseIndex)
    (b.wordCases.members d.forbiddenCaseIndex) (b.wordLanguages.members d.allowedLangIndex)
    (b.wordLanguages.members d.forbiddenLangIndex) (b.agreements.members d.agrIndex)

end ArticleFilterBuilder
end TomitaParser.Gzt
