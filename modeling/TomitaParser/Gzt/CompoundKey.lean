import Mathlib.Algebra.GroupWithZero.Nat
import TomitaParser.Gzt.ArticleFilter
import TomitaParser.Gzt.HomoformRemoval
import TomitaParser.Gzt.SearchTree
/-! # Keys with references to articles

A key of plain words and articles becomes a sequence of elements, one for a run of plain words. The
options of the key name its words, and the filter numbers the words that were found. -/

namespace TomitaParser.Gzt

/-- `TKeyWordInfo`: a plain word, or an article that is named as `$name`. -/
structure KeyWord where
  id : ℕ
  isArticle : Bool := false
deriving DecidableEq, Repr

/-- An element of a compound article. A run of plain words is a fake article. -/
inductive CompoundElement where
  | words (ids : List ℕ)
  | article (id : ℕ)
deriving DecidableEq, Repr

/-- `AddFakeArticle` for the words since the last article, if there are any. -/
def CompoundElement.run (ids : List ℕ) : List CompoundElement :=
  if ids = [] then [] else [.words ids]

/-- The loop of `BuildCompoundArticle`, with the plain words since the last article. -/
def buildCompoundLoop : List ℕ → List KeyWord → List CompoundElement
  | plain, [] => CompoundElement.run plain
  | plain, word :: rest =>
    if word.isArticle then
      CompoundElement.run plain ++ .article word.id :: buildCompoundLoop [] rest
    else buildCompoundLoop (plain ++ [word.id]) rest

/-- `BuildCompoundArticle`. -/
def buildCompoundArticle (words : List KeyWord) : List CompoundElement := buildCompoundLoop [] words

/-- The words of the input that an element found: some words of the input stand for the words of a
run, and an article may be found on any number of words. -/
def CompoundElement.Finds : CompoundElement → List LinkedWord → Prop
  | .words ids, found =>
    Branch.fullSize found = ids.length ∧ ∀ w ∈ found, 0 < w.multitokenSize
  | .article _, found => found ≠ []

instance (e : CompoundElement) (found : List LinkedWord) : Decidable (e.Finds found) := by
  cases e <;> unfold CompoundElement.Finds <;> infer_instance

/-- The loop over all words ends, for an option that names none. -/
def Readable (words : List KeyWord) (named : List ℕ) : Prop :=
  named = [] → (buildCompoundArticle words).length < 256

instance (words : List KeyWord) (named : List ℕ) : Decidable (Readable words named) := by
  unfold Readable
  infer_instance

/-- The numbers of an option give a word of the phrase: they count elements, in a byte. -/
def NumbersWord (words : List KeyWord) (named : List ℕ) (p : ℕ) : Prop :=
  if named = [] then p < (buildCompoundArticle words).length
  else ∃ word ∈ named,
    0 < word ∧ word ≤ (buildCompoundArticle words).length ∧ p = (word - 1) % 256

instance (words : List KeyWord) (named : List ℕ) (p : ℕ) :
    Decidable (NumbersWord words named p) := by
  unfold NumbersWord
  infer_instance

/-- A found phrase of a key: what each of its elements found, one after the other. -/
structure FoundPhrase (words : List KeyWord) where
  found : List (List LinkedWord)
  finds : List.Forall₂ CompoundElement.Finds (buildCompoundArticle words) found
  masked : ∀ w ∈ found.flatten, w.word.Masked

/-- The numbers of the words of the input that the words of an element matched. -/
def CompoundElement.positions (offset : ℕ) (found : List LinkedWord) :
    CompoundElement → List (List ℕ)
  | .words ids => (List.range ids.length).map fun i =>
      [offset + correctIndex (@Branch.copyTo Unit ⟨[], found⟩).2 i]
  | .article _ => [List.range' offset found.length]

/-- For each word of the key the numbers of the words of the input that it matched. -/
def keyWordPositions : ℕ → List CompoundElement → List (List LinkedWord) → List (List ℕ)
  | offset, e :: elements, found :: rest =>
    e.positions offset found ++ keyWordPositions (offset + found.length) elements rest
  | _, _, _ => []

namespace FoundPhrase
variable {words : List KeyWord}

/-- The branch of the compound trie: the words of the elements are appended with their grammems, and
each of them stands for one word (`CopyAndAppend`). -/
def branch (phrase : FoundPhrase words) : Branch Unit where
  tails := []
  words := phrase.found.flatten.map fun w => ⟨w.word.saveGrammems, 1⟩

def size (phrase : FoundPhrase words) : ℕ := phrase.found.flatten.length

def positions (phrase : FoundPhrase words) : List (List ℕ) :=
  keyWordPositions 0 (buildCompoundArticle words) phrase.found

/-- The words of the input that an option speaks of: the ones that its words of the key matched, or
all if it names none. -/
def namedPositions (phrase : FoundPhrase words) (named : List ℕ) : List ℕ :=
  if named = [] then List.range phrase.size
  else (named.filter (0 < ·)).flatMap fun word => phrase.positions.getD (word - 1) []

/-- The numbers of some options mean the same in the key and in the phrase. Each word that an option
names has a number there that the option gives, and no option gives the number of a word that
another one names and it does not. -/
def NumbersFit (phrase : FoundPhrase words) (numbers : List (List ℕ)) : Prop :=
  ∀ named ∈ numbers, Readable words named → ∀ p ∈ phrase.namedPositions named,
    NumbersWord words named p ∧ ∀ named' ∈ numbers, Readable words named' →
      NumbersWord words named' p → p ∈ phrase.namedPositions named'

end FoundPhrase

/-- The words that each option of a key names. -/
def SearchKey.namedWords (key : SearchKey) : List (List ℕ) :=
  key.gram.map (·.words) ++ key.case.map (·.words) ++ key.lang.map (·.words) ++
    key.agr.map (·.words)

theorem mem_collectWordIndexes {named indexes : List ℕ} {n : ℕ}
    (h : collectWordIndexes named n = some indexes) (hnamed : named ≠ []) (p : ℕ) :
    p ∈ indexes ↔ ∃ word ∈ named, 0 < word ∧ word ≤ n ∧ p = (word - 1) % 256 := by
  rw [collectWordIndexes, if_neg hnamed, Option.some.injEq] at h
  subst h
  rw [OrderedSet.mem_insertAll_natLt]
  simp only [List.mem_map, List.mem_filter, decide_eq_true_eq, List.not_mem_nil, or_false]
  constructor
  · rintro ⟨word, ⟨hmem, hpos, hle⟩, rfl⟩
    exact ⟨word, hmem, hpos, hle, rfl⟩
  · rintro ⟨word, hmem, hpos, hle, rfl⟩
    exact ⟨word, ⟨hmem, hpos, hle⟩, rfl⟩

end TomitaParser.Gzt
