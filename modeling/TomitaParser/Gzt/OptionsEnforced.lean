import TomitaParser.Gzt.AgrFilter
import TomitaParser.Gzt.CompoundKey
import TomitaParser.Gzt.ExactCase
import TomitaParser.Gzt.MatchChecks
import TomitaParser.Gzt.OptionValues
/-! # Options of a compound key

The options of a key name words of the key, and a filter checks words of the phrase. A phrase that
the filter accepts has every option enforced on the words that it names where the numbers of the
words mean the same in the key and in the phrase.
-/

namespace TomitaParser.Gzt

/-- What `AddFilterData` stores for the options of a key. An agreement of one word or none is
ignored. -/
def SearchKey.constraints (params : FilterParams) (masks : List ℕ) (phraseLength : ℕ)
    (key : SearchKey) : Option PhraseWords.Constraints := do
  let grams ← collectOptions collectGramBitSets phraseLength key.gram [] []
  let langs ← collectOptions collectLangMask phraseLength key.lang [] []
  let cases ← collectOptions collectCapitalizations phraseLength key.case [] []
  let agreements ← key.agr.mapM fun o =>
    (collectWordIndexes o.words phraseLength).map fun words => (words, o.mask params)
  return {
    allowedGrams := grams.1
    forbiddenGrams := grams.2
    allowedCases := cases.1.map fun c => (c.1, storedCases masks c.1 c.2)
    forbiddenCases := cases.2.map fun c => (c.1, storedCases masks c.1 c.2)
    allowedLangs := langs.1.map fun l => (l.1, [l.2])
    forbiddenLangs := langs.2.map fun l => (l.1, [l.2])
    agreements := agreements.filter fun a => decide (2 ≤ a.1.length) }

theorem exists_of_mapM {α β : Type} {f : α → Option β} {l : List α} {l' : List β}
    (h : l.mapM f = some l') {a : α} (ha : a ∈ l) : ∃ b ∈ l', f a = some b := by
  induction l generalizing l' with
  | nil => cases ha
  | cons x l ih =>
    rw [List.mapM_cons, Option.bind_eq_bind, Option.bind_eq_some_iff] at h
    obtain ⟨y, hy, hrest⟩ := h
    rw [Option.bind_eq_bind, Option.bind_eq_some_iff] at hrest
    obtain ⟨ys, hys, heq⟩ := hrest
    rw [Option.pure_def, Option.some.injEq] at heq
    subst heq
    rcases List.mem_cons.mp ha with rfl | ha
    · exact ⟨y, List.mem_cons_self, hy⟩
    · obtain ⟨b, hb, hfa⟩ := ih hys ha
      exact ⟨b, List.mem_cons_of_mem _ hb, hfa⟩

namespace PhraseWords

/-- Each word with its values is there, the values in any order. -/
def EntriesWithin {V : Type} (l l' : List (ℕ × List V)) : Prop :=
  ∀ f ∈ l, ∃ f' ∈ l', f'.1 = f.1 ∧ ∀ v, v ∈ f'.2 ↔ v ∈ f.2

/-- A filter asks at least for these constraints, in any order. The storage sorts by index, an
ignored agreement stands for the first one that was stored, and keys of one article are merged. -/
structure Constraints.Within (c c' : Constraints) : Prop where
  allowedGrams : EntriesWithin c.allowedGrams c'.allowedGrams
  forbiddenGrams : EntriesWithin c.forbiddenGrams c'.forbiddenGrams
  allowedCases : EntriesWithin c.allowedCases c'.allowedCases
  forbiddenCases : EntriesWithin c.forbiddenCases c'.forbiddenCases
  allowedLangs : EntriesWithin c.allowedLangs c'.allowedLangs
  forbiddenLangs : EntriesWithin c.forbiddenLangs c'.forbiddenLangs
  agreements : ∀ a ∈ c.agreements, ∃ a' ∈ c'.agreements, a'.1.Perm a.1 ∧ a'.2 = a.2

theorem EntriesWithin.refl {V : Type} (l : List (ℕ × List V)) : EntriesWithin l l :=
  fun f hf => ⟨f, hf, rfl, fun _ => Iff.rfl⟩

theorem Constraints.Within.refl (c : Constraints) : c.Within c :=
  ⟨EntriesWithin.refl _, EntriesWithin.refl _, EntriesWithin.refl _, EntriesWithin.refl _,
    EntriesWithin.refl _, EntriesWithin.refl _, fun a ha => ⟨a, ha, List.Perm.refl _, rfl⟩⟩

end PhraseWords

namespace FoundPhrase
open PhraseWords OrderedSet
variable {words : List KeyWord} (phrase : FoundPhrase words)
variable (params : FilterParams) (masks : List ℕ) (tables : MatchTables)

/-- The found words as the matcher gets them. -/
def phraseWords (input : List Token) (wordCount : ℕ) : PhraseWords :=
  ⟨input, wordCount, phrase.branch.copyTo.1⟩

/-- The options of a key hold on the words that they name, as far as the mask of homoforms goes. What
the options of one kind allow for a word are alternatives. Words that the key has as they are
written have no grammems and no language. -/
structure OptionsHold (key : SearchKey) (p q : PhraseWords) : Prop where
  allowedGrams : ∀ o ∈ key.gram, o.allow ≠ [] → ∀ i ∈ phrase.namedPositions o.words,
    (q.word i).exactWordFromKey = false → (q.word i).HasForm ∧
      ∀ g ∈ (q.word i).homoforms, g.2 < InputWord.maxHomoformCount →
        ∃ o' ∈ key.gram, i ∈ phrase.namedPositions o'.words ∧ ∃ v ∈ o'.allow, v ⊆ g.1
  forbiddenGrams : ∀ o ∈ key.gram, o.forbid ≠ [] → ∀ i ∈ phrase.namedPositions o.words,
    (q.word i).exactWordFromKey = false → (q.word i).HasForm ∧
      ∀ g ∈ (q.word i).homoforms, g.2 < InputWord.maxHomoformCount → ∀ v ∈ o.forbid, ¬v ⊆ g.1
  allowedLangs : ∀ o ∈ key.lang, o.allow ≠ [] → ∀ i ∈ phrase.namedPositions o.words,
    (q.word i).isLemma = true → ∃ o' ∈ key.lang, i ∈ phrase.namedPositions o'.words ∧
      q.getLanguage i ∈ o'.allow
  forbiddenLangs : ∀ o ∈ key.lang, ∀ i ∈ phrase.namedPositions o.words,
    (q.word i).isLemma = true → q.getLanguage i ∉ o.forbid
  allowedCases : ∀ o ∈ key.case, o.allow ≠ [] → ∀ i ∈ phrase.namedPositions o.words,
    ∃ o' ∈ key.case, i ∈ phrase.namedPositions o'.words ∧ ∃ v ∈ storedCases masks i o'.allow,
      checkSingleWordCapitalization tables true q i v = true
  forbiddenCases : ∀ o ∈ key.case, ∀ i ∈ phrase.namedPositions o.words,
    ∀ v ∈ storedCases masks i o.forbid, checkSingleWordCapitalization tables false q i v = false
  agreements : ∀ o ∈ key.agr, ∃ named : List ℕ, named.Nodup ∧
    (∀ i ∈ phrase.namedPositions o.words, i ∈ named) ∧
      (2 ≤ named.length → ∃ r, Narrows p r ∧
        (checkSingleAgreement tables id named (o.mask params) r).1 = true)

/-- The options of a key hold on every input on which a filter that asks for them accepts the phrase.
-/
def Enforced (key : SearchKey) : Prop :=
  ∀ c, key.constraints params masks (buildCompoundArticle words).length = some c →
    ∀ c', c.Within c' → ∀ input wordCount,
      let r := matchConstraints tables (correctIndex phrase.branch.copyTo.2) c'
        (phrase.phraseWords input wordCount)
      r.1 = true →
        phrase.OptionsHold params masks tables key (phrase.phraseWords input wordCount) r.2

variable {phrase}

theorem correctIndex_branch (phrase : FoundPhrase words) :
    correctIndex phrase.branch.copyTo.2 = id := by
  have htable : phrase.branch.copyTo.2 = [] := by
    rw [Branch.copyTo_single]
    intro w hw
    simp only [branch, List.mem_map] at hw
    obtain ⟨-, -, rfl⟩ := hw
    rfl
  rw [htable]
  funext index
  rw [correctIndex, if_pos rfl, id]

theorem masked_word (phrase : FoundPhrase words) (input : List Token) (wordCount i : ℕ) :
    ((phrase.phraseWords input wordCount).word i).Masked := by
  have hwords : (phrase.phraseWords input wordCount).words =
      phrase.found.flatten.map fun w => w.word.saveGrammems := by
    rw [phraseWords, Branch.copyTo_single]
    · simp only [branch, List.map_map]
      rfl
    · intro w hw
      simp only [branch, List.mem_map] at hw
      obtain ⟨-, -, rfl⟩ := hw
      rfl
  rw [PhraseWords.word, hwords, List.getD_eq_getElem?_getD, List.getElem?_map]
  cases hw : phrase.found.flatten[i]? with
  | none => exact Finset.empty_subset _
  | some w => exact phrase.masked w (List.mem_of_getElem? hw)

theorem readable_iff (words : List KeyWord) (named : List ℕ) : Readable words named ↔
    (collectWordIndexes named (buildCompoundArticle words).length).isSome = true := by
  unfold Readable collectWordIndexes
  by_cases hnamed : named = []
  · by_cases hcount : (buildCompoundArticle words).length < 256 <;> simp [hnamed, hcount]
  · simp [hnamed]

theorem applies_iff {named : List ℕ} (h : Readable words named) {i : ℕ} :
    Applies (buildCompoundArticle words).length named i ↔ NumbersWord words named i := by
  unfold Applies NumbersWord
  obtain ⟨indexes, hindexes⟩ := Option.isSome_iff_exists.mp ((readable_iff words named).mp h)
  rw [hindexes]
  simp only [Option.some.injEq, exists_eq_left']
  by_cases hnamed : named = []
  · rw [collectWordIndexes, if_pos hnamed, if_pos (h hnamed), Option.some.injEq] at hindexes
    rw [if_pos hnamed, ← hindexes, List.mem_range]
  · rw [if_neg hnamed]
    exact mem_collectWordIndexes hindexes hnamed i

theorem nodup_collectWordIndexes {named indexes : List ℕ} {n : ℕ}
    (h : collectWordIndexes named n = some indexes) : indexes.Nodup := by
  unfold collectWordIndexes at h
  split_ifs at h
  · rw [Option.some.injEq] at h
    rw [← h]
    exact List.nodup_range
  · rw [Option.some.injEq] at h
    rw [← h]
    have hsorted : (insertAll natLt
        ((named.filter fun w => decide (0 < w ∧ w ≤ n)).map fun w => (w - 1) % 256) []).Pairwise
          (natLt · · = true) := pairwise_insertAll natLt_trans List.Pairwise.nil
    exact hsorted.imp fun hlt heq => by simp [heq, natLt] at hlt

/-- A phrase that a filter of the key accepts has every option of the key enforced on the words that
the option names, if the numbers of the options mean the same in the key and in the phrase. -/
theorem enforced_of_numbersFit {key : SearchKey} {numbers : List (List ℕ)}
    (hfit : phrase.NumbersFit numbers) (hnumbers : ∀ named ∈ key.namedWords, named ∈ numbers) :
    phrase.Enforced params masks tables key := by
  intro c hc c' hwithin input wordCount r haccepted
  have hchecked := matchConstraints_checked haccepted
  rw [correctIndex_branch phrase] at hchecked
  have hq : r.2 = (matchConstraints tables id c' (phrase.phraseWords input wordCount)).2 := by
    show (matchConstraints tables (correctIndex phrase.branch.copyTo.2) c' _).2 = _
    rw [correctIndex_branch phrase]
  rw [← hq] at hchecked
  generalize r.2 = q at hchecked ⊢
  have hmasked := masked_word phrase input wordCount
  unfold SearchKey.constraints at hc
  simp only [Option.bind_eq_bind, Option.bind_eq_some_iff, Option.pure_def,
    Option.some.injEq] at hc
  obtain ⟨grams, hgrams, langs, hlangs, cases, hcases, agreements, hagreements, rfl⟩ := hc
  obtain ⟨hgram₁, hgram₂⟩ := collectOptions_collected collectGramBitSets_collects hgrams
  obtain ⟨hlang₁, hlang₂⟩ := collectOptions_collected collectLangMask_collects hlangs
  obtain ⟨hcase₁, hcase₂⟩ := collectOptions_collected collectCapitalizations_collects hcases
  have hgram : ∀ o ∈ key.gram, o.words ∈ numbers := by
    intro o ho
    apply hnumbers
    simp only [SearchKey.namedWords, List.mem_append, List.mem_map]
    exact Or.inl (Or.inl (Or.inl ⟨o, ho, rfl⟩))
  have hcase : ∀ o ∈ key.case, o.words ∈ numbers := by
    intro o ho
    apply hnumbers
    simp only [SearchKey.namedWords, List.mem_append, List.mem_map]
    exact Or.inl (Or.inl (Or.inr ⟨o, ho, rfl⟩))
  have hlang : ∀ o ∈ key.lang, o.words ∈ numbers := by
    intro o ho
    apply hnumbers
    simp only [SearchKey.namedWords, List.mem_append, List.mem_map]
    exact Or.inl (Or.inr ⟨o, ho, rfl⟩)
  have hagr : ∀ o ∈ key.agr, o.words ∈ numbers := by
    intro o ho
    apply hnumbers
    simp only [SearchKey.namedWords, List.mem_append, List.mem_map]
    exact Or.inr ⟨o, ho, rfl⟩
  -- an option is applied to the words that it names, and no other one is applied to them
  have happlies {named : List ℕ} (hmem : named ∈ numbers)
      (hsettled : (collectWordIndexes named (buildCompoundArticle words).length).isSome = true)
      {i : ℕ} (hi : i ∈ phrase.namedPositions named) :
      Applies (buildCompoundArticle words).length named i := by
    have hread := (readable_iff words named).mpr hsettled
    exact (applies_iff hread).mpr (hfit named hmem hread i hi).1
  have hnames {named named' : List ℕ} (hmem : named ∈ numbers)
      (hsettled : (collectWordIndexes named (buildCompoundArticle words).length).isSome = true)
      {i : ℕ} (hi : i ∈ phrase.namedPositions named) (hmem' : named' ∈ numbers)
      (h : Applies (buildCompoundArticle words).length named' i) :
      i ∈ phrase.namedPositions named' := by
    have hread' : Readable words named' := by
      obtain ⟨indexes, hindexes, -⟩ := h
      rw [readable_iff, hindexes]
      rfl
    exact (hfit named hmem ((readable_iff words named).mpr hsettled) i hi).2 named' hmem' hread'
      ((applies_iff hread').mp h)
  refine ⟨?_, ?_, ?_, ?_, ?_, ?_, ?_⟩
  · intro o ho hne i hi hexact
    obtain ⟨w, hw, hstored⟩ := hgram₁.stored o ho hne i
      (happlies (hgram o ho) (hgram₁.settled o ho) hi)
    obtain ⟨f, hf, hword, hvalues⟩ := hwithin.allowedGrams (i, w) hw
    obtain ⟨v, hv⟩ := List.exists_mem_of_ne_nil _ hne
    have hne' : f.2 ≠ [] := List.ne_nil_of_mem ((hvalues v).mpr (hstored v hv))
    have hpassed := hchecked.allowedGrams f hf hne'
    rw [hword] at hpassed
    obtain ⟨hleft, hgrammems⟩ := hpassed hexact (hmasked i)
    refine ⟨hleft, ?_⟩
    intro g hg hlt
    obtain ⟨v', hv', hsub⟩ := hgrammems g hg hlt
    rcases hgram₁.only i w hw v' ((hvalues v').mp hv') with ⟨o', ho', hallow, hother⟩ | hnone
    · exact ⟨o', ho', hnames (hgram o ho) (hgram₁.settled o ho) hi (hgram o' ho') hother, v',
        hallow, hsub⟩
    · simp at hnone
  · intro o ho hne i hi hexact
    obtain ⟨w, hw, hstored⟩ := hgram₂.stored o ho hne i
      (happlies (hgram o ho) (hgram₂.settled o ho) hi)
    obtain ⟨f, hf, hword, hvalues⟩ := hwithin.forbiddenGrams (i, w) hw
    obtain ⟨v, hv⟩ := List.exists_mem_of_ne_nil _ hne
    have hne' : f.2 ≠ [] := List.ne_nil_of_mem ((hvalues v).mpr (hstored v hv))
    have hpassed := hchecked.forbiddenGrams f hf hne'
    rw [hword] at hpassed
    obtain ⟨hleft, hgrammems⟩ := hpassed hexact (hmasked i)
    refine ⟨hleft, ?_⟩
    intro g hg hlt v' hv'
    exact hgrammems g hg hlt v' ((hvalues v').mpr (hstored v' hv'))
  · intro o ho hne i hi hlemma
    obtain ⟨w, hw, -⟩ := hlang₁.stored o ho hne i
      (happlies (hlang o ho) (hlang₁.settled o ho) hi)
    obtain ⟨f, hf, hword, hvalues⟩ := hwithin.allowedLangs (i, [w])
      (List.mem_map.mpr ⟨(i, w), hw, rfl⟩)
    have hpassed := hchecked.allowedLangs f hf
    rw [hword] at hpassed
    obtain ⟨mask, hmask, hin⟩ := hpassed hlemma
    obtain rfl := List.mem_singleton.mp ((hvalues mask).mp hmask)
    rcases hlang₁.only i mask hw _ hin with ⟨o', ho', hallow, hother⟩ | hnone
    · exact ⟨o', ho', hnames (hlang o ho) (hlang₁.settled o ho) hi (hlang o' ho') hother, hallow⟩
    · simp at hnone
  · intro o ho i hi hlemma hforbid
    obtain ⟨w, hw, hstored⟩ := hlang₂.stored o ho (List.ne_nil_of_mem hforbid) i
      (happlies (hlang o ho) (hlang₂.settled o ho) hi)
    obtain ⟨f, hf, hword, hvalues⟩ := hwithin.forbiddenLangs (i, [w])
      (List.mem_map.mpr ⟨(i, w), hw, rfl⟩)
    have hpassed := hchecked.forbiddenLangs f hf
    rw [hword] at hpassed
    exact hpassed hlemma w ((hvalues w).mpr (List.mem_singleton_self w)) (hstored _ hforbid)
  · intro o ho hne i hi
    obtain ⟨w, hw, -⟩ := hcase₁.stored o ho hne i
      (happlies (hcase o ho) (hcase₁.settled o ho) hi)
    obtain ⟨f, hf, hword, hvalues⟩ := hwithin.allowedCases (i, storedCases masks i w)
      (List.mem_map.mpr ⟨(i, w), hw, rfl⟩)
    obtain ⟨v, hv, hcheck⟩ := hchecked.allowedCases f hf
    rw [hword] at hcheck
    obtain ⟨type, htype, rfl⟩ := List.mem_map.mp ((hvalues v).mp hv)
    rcases hcase₁.only i w hw type htype with ⟨o', ho', hallow, hother⟩ | hnone
    · exact ⟨o', ho', hnames (hcase o ho) (hcase₁.settled o ho) hi (hcase o' ho') hother, _,
        List.mem_map.mpr ⟨type, hallow, rfl⟩, hcheck⟩
    · simp at hnone
  · intro o ho i hi v hv
    obtain ⟨type, htype, rfl⟩ := List.mem_map.mp hv
    obtain ⟨w, hw, hstored⟩ := hcase₂.stored o ho (List.ne_nil_of_mem htype) i
      (happlies (hcase o ho) (hcase₂.settled o ho) hi)
    obtain ⟨f, hf, hword, hvalues⟩ := hwithin.forbiddenCases (i, storedCases masks i w)
      (List.mem_map.mpr ⟨(i, w), hw, rfl⟩)
    have hcheck := hchecked.forbiddenCases f hf _
      ((hvalues _).mpr (List.mem_map.mpr ⟨type, hstored type htype, rfl⟩))
    rw [hword] at hcheck
    exact hcheck
  · intro o ho
    obtain ⟨a, ha, hmap⟩ := exists_of_mapM hagreements ho
    obtain ⟨indexes, hindexes, rfl⟩ := Option.map_eq_some_iff.mp hmap
    have hsettled : (collectWordIndexes o.words (buildCompoundArticle words).length).isSome =
        true := by
      rw [hindexes]
      rfl
    have hmem : ∀ i ∈ phrase.namedPositions o.words, i ∈ indexes := by
      intro i hi
      obtain ⟨indexes', hindexes', hi'⟩ := happlies (hagr o ho) hsettled hi
      rw [hindexes, Option.some.injEq] at hindexes'
      rwa [hindexes']
    by_cases hlength : 2 ≤ indexes.length
    · obtain ⟨a, hmatched, hperm, hmask⟩ := hwithin.agreements (indexes, o.mask params)
        (List.mem_filter.mpr ⟨ha, decide_eq_true hlength⟩)
      obtain ⟨r, hr, hcheck⟩ := hchecked.agreements a hmatched
      rw [hmask] at hcheck
      refine ⟨a.1, hperm.nodup_iff.mpr (nodup_collectWordIndexes hindexes), ?_, ?_⟩
      · intro i hi
        rw [hperm.mem_iff]
        exact hmem i hi
      · exact fun _ => ⟨r, hr, hcheck⟩
    · exact ⟨indexes, nodup_collectWordIndexes hindexes, hmem, fun h => absurd h hlength⟩

section Letters

/-- An input with one letter. -/
def letterAt (i : ℕ) (c : Char) : List Token :=
  List.replicate i ⟨"", [], []⟩ ++ [⟨"", [c], []⟩]

theorem getOriginalString_letterAt (ws : List InputWord) (i : ℕ) (c : Char) (j : ℕ) :
    PhraseWords.getOriginalString ⟨letterAt i c, 0, ws⟩ j = if j = i then [c] else [] := by
  have hpos : PhraseWords.pos ⟨letterAt i c, 0, ws⟩ = 0 := Nat.zero_sub _
  rw [getOriginalString, hpos, Nat.zero_add]
  simp only [letterAt]
  rcases lt_trichotomy j i with hlt | rfl | hgt
  · rw [List.getElem?_append_left (by simpa using hlt), List.getElem?_replicate, if_pos hlt,
      if_neg (Nat.ne_of_lt hlt)]
    rfl
  · rw [List.getElem?_append_right (by simp), List.length_replicate, Nat.sub_self, if_pos rfl]
    rfl
  · rw [List.getElem?_eq_none (by simp; omega), if_neg (Nat.ne_of_gt hgt)]
    rfl

/-- Two options that allow capitalizations. -/
def twoCases (first second : List ℕ) (a b : CapitalizationType) : SearchKey :=
  { case := [{ words := first, allow := [a] }, { words := second, allow := [b] }] }

theorem constraints_twoCases {first second indexes indexes' : List ℕ} {a b : CapitalizationType}
    {n : ℕ} (h : collectWordIndexes first n = some indexes)
    (h' : collectWordIndexes second n = some indexes') :
    (twoCases first second a b).constraints params masks n = some {
      allowedCases := (collectCapitalizations [b] indexes' (collectCapitalizations [a] indexes
        [])).map fun c => (c.1, storedCases masks c.1 c.2) } := by
  simp [SearchKey.constraints, twoCases, collectOptions, h, h', collectCapitalizations]

theorem matchConstraints_cases (l : List (ℕ × List Capitalization)) (p : PhraseWords) :
    matchConstraints tables id { allowedCases := l } p =
      (checkCapitalization tables id true l p, p) := by
  simp [matchConstraints, filterGrammems, checkAgreements, checkLanguage, checkCapitalization]

/-- A word without letters has every capitalization. -/
theorem check_of_empty {p : PhraseWords} {i : ℕ} (h : p.getOriginalString i = [])
    (c : Capitalization) : checkSingleWordCapitalization tables true p i c = true := by
  obtain ⟨type, mask⟩ := c
  cases type <;>
    simp [checkSingleWordCapitalization, isMaskCase, isLowerCase, isTitleCase, isUpperCase, h,
      maskCase]

theorem check_upper {p : PhraseWords} {i : ℕ} {c : Char} (h : p.getOriginalString i = [c]) :
    checkSingleWordCapitalization tables true p i ⟨.upper, 0⟩ = !tables.isLower c := by
  simp [checkSingleWordCapitalization, isUpperCase, h]

theorem check_lower {p : PhraseWords} {i : ℕ} {c : Char} (h : p.getOriginalString i = [c]) :
    checkSingleWordCapitalization tables true p i ⟨.lower, 0⟩ = !tables.isUpper c := by
  simp [checkSingleWordCapitalization, isLowerCase, h]

/-- A phrase with one letter in it passes where the word of the letter may be in capitals. -/
theorem checkCapitalization_letterAt {m : List (ℕ × List CapitalizationType)} {i : ℕ} {c : Char}
    (ws : List InputWord) (hne : ∀ k ∈ m, k.2 ≠ [])
    (hletter : ∀ k ∈ m, k.1 = i → .upper ∈ k.2 ∧ tables.isLower c = false) :
    checkCapitalization tables id true (m.map fun k => (k.1, storedCases masks k.1 k.2))
      ⟨letterAt i c, 0, ws⟩ = true := by
  rw [checkCapitalization, List.all_eq_true]
  intro k' hk'
  obtain ⟨k, hk, rfl⟩ := List.mem_map.mp hk'
  rw [beq_iff_eq, List.any_eq_true]
  have horiginal := getOriginalString_letterAt ws i c k.1
  by_cases hi : k.1 = i
  · obtain ⟨hupper, hlower⟩ := hletter k hk hi
    rw [if_pos hi] at horiginal
    refine ⟨⟨.upper, 0⟩, List.mem_map.mpr ⟨.upper, hupper, rfl⟩, ?_⟩
    rw [id, check_upper tables horiginal, hlower]
    rfl
  · obtain ⟨type, htype⟩ := List.exists_mem_of_ne_nil _ (hne k hk)
    rw [if_neg hi] at horiginal
    exact ⟨_, List.mem_map.mpr ⟨type, htype, rfl⟩, check_of_empty tables horiginal _⟩

theorem collectCapitalizations_single (a : CapitalizationType) (indexes : List ℕ)
    (m : List (ℕ × List CapitalizationType)) :
    collectCapitalizations [a] indexes m = updateWords [] (· ∪ [a]) indexes m :=
  if_neg (List.cons_ne_nil a [])

/-- Words that get a capitalization have one. -/
theorem ne_nil_of_mem_collected {a b : CapitalizationType} {indexes indexes' : List ℕ} :
    ∀ k ∈ collectCapitalizations [b] indexes' (collectCapitalizations [a] indexes []),
      k.2 ≠ [] := by
  have hadd (c : CapitalizationType) (w : List CapitalizationType) : w ∪ [c] ≠ [] :=
    List.ne_nil_of_mem (List.mem_union_right w (List.mem_singleton_self c))
  rw [collectCapitalizations_single, collectCapitalizations_single]
  apply forall_mem_updateWords (P := fun w => w ≠ []) (hadd b)
  exact forall_mem_updateWords (P := fun w => w ≠ []) (hadd a) _ (by simp)

/-- A word that an option names and does not give a number for is not checked: its letter may be
small although capitals are asked for. -/
theorem numbersWord_of_enforced {named : List ℕ} (hread : Readable words named) {i : ℕ}
    (hi : i ∈ phrase.namedPositions named) {c : Char} (hc : tables.isLower c = true)
    (h : phrase.Enforced params masks tables (twoCases named named .upper .upper)) :
    NumbersWord words named i := by
  by_contra hnot
  obtain ⟨indexes, hindexes⟩ := Option.isSome_iff_exists.mp ((readable_iff words named).mp hread)
  have hpass := h _ (constraints_twoCases params masks hindexes hindexes) _
    (Constraints.Within.refl _) (letterAt i c) 0
  rw [correctIndex_branch, matchConstraints_cases] at hpass
  have hnone : ∀ k ∈ collectCapitalizations [.upper] indexes
      (collectCapitalizations [.upper] indexes []), k.1 = i →
        CapitalizationType.upper ∈ k.2 ∧ tables.isLower c = false := by
    intro k hk hki
    obtain ⟨type, htype⟩ := List.exists_mem_of_ne_nil _ (ne_nil_of_mem_collected k hk)
    exfalso
    apply hnot
    rw [← applies_iff hread]
    refine ⟨indexes, hindexes, ?_⟩
    rw [← hki]
    rcases collectCapitalizations_collects.only _ _ _ _ _ _ hk htype with ⟨-, hmem⟩ | ⟨w, hw, hv⟩
    · exact hmem
    · rcases collectCapitalizations_collects.only _ _ _ _ _ _ hw hv with ⟨-, hmem⟩ | ⟨w, hw, -⟩
      · exact hmem
      · cases hw
  have hholds := hpass (checkCapitalization_letterAt masks tables _ ne_nil_of_mem_collected hnone)
  obtain ⟨o, ho, -, v, hv, hcheck⟩ := hholds.allowedCases ⟨named, [.upper], []⟩
    List.mem_cons_self (List.cons_ne_nil _ _) i hi
  have hv' : v = ⟨.upper, 0⟩ := by
    simp only [twoCases, List.mem_cons, List.not_mem_nil, or_false, or_self] at ho
    subst ho
    simpa [storedCases] using hv
  have horiginal := getOriginalString_letterAt phrase.branch.copyTo.1 i c i
  rw [if_pos rfl] at horiginal
  rw [hv', phraseWords, check_upper tables horiginal, hc] at hcheck
  cases hcheck

/-- A word that an option names, and that another one gives the number of without naming it, may
have what the other one allows. -/
theorem named_of_enforced {named named' : List ℕ} (hread : Readable words named)
    (hread' : Readable words named') {i : ℕ} (hi : i ∈ phrase.namedPositions named)
    (hword' : NumbersWord words named' i) {d : Char} (hd : tables.isUpper d = true)
    (hd' : tables.isLower d = false)
    (h : phrase.Enforced params masks tables (twoCases named' named .upper .lower)) :
    i ∈ phrase.namedPositions named' := by
  by_contra hnot
  obtain ⟨indexes, hindexes⟩ := Option.isSome_iff_exists.mp ((readable_iff words named).mp hread)
  obtain ⟨indexes', hindexes', hmem'⟩ := (applies_iff hread').mpr hword'
  have hpass := h _ (constraints_twoCases params masks hindexes' hindexes) _
    (Constraints.Within.refl _) (letterAt i d) 0
  rw [correctIndex_branch, matchConstraints_cases] at hpass
  have hupper : ∀ k ∈ collectCapitalizations [.lower] indexes
      (collectCapitalizations [.upper] indexes' []), k.1 = i →
        CapitalizationType.upper ∈ k.2 ∧ tables.isLower d = false := by
    intro k hk hki
    refine ⟨?_, hd'⟩
    obtain ⟨w, hw, hstored⟩ := collectCapitalizations_collects.stored [.upper] indexes' [] i
      (List.cons_ne_nil _ _) hmem'
    obtain ⟨w', hw', hkeeps⟩ := collectCapitalizations_collects.keeps [.lower] indexes _ i w hw
    have hsorted : (collectCapitalizations [.lower] indexes
        (collectCapitalizations [.upper] indexes' [])).Pairwise (·.1 < ·.1) := by
      rw [collectCapitalizations_single, collectCapitalizations_single]
      exact pairwise_updateWords _ (pairwise_updateWords _ List.Pairwise.nil)
    have hnodup : ((collectCapitalizations [.lower] indexes
        (collectCapitalizations [.upper] indexes' [])).map Prod.fst).Nodup :=
      List.pairwise_map.mpr (hsorted.imp fun hlt => Nat.ne_of_lt hlt)
    obtain rfl : k = (i, w') := List.inj_on_of_nodup_map hnodup hk hw' hki
    exact hkeeps _ (hstored _ (List.mem_singleton_self _))
  have hholds := hpass (checkCapitalization_letterAt masks tables _ ne_nil_of_mem_collected hupper)
  obtain ⟨o, ho, hio, v, hv, hcheck⟩ := hholds.allowedCases ⟨named, [.lower], []⟩
    (List.mem_cons_of_mem _ List.mem_cons_self) (List.cons_ne_nil _ _) i hi
  have hv' : v = ⟨.lower, 0⟩ := by
    simp only [twoCases, List.mem_cons, List.not_mem_nil, or_false] at ho
    rcases ho with rfl | rfl
    · exact absurd hio hnot
    · simpa [storedCases] using hv
  have horiginal := getOriginalString_letterAt phrase.branch.copyTo.1 i d i
  rw [if_pos rfl] at horiginal
  rw [hv', phraseWords, check_lower tables horiginal, hd] at hcheck
  cases hcheck

end Letters

end FoundPhrase

/-- The key `$a $b`. -/
def shiftedKey : List KeyWord := [⟨7, true⟩, ⟨8, true⟩]

def shiftedWord (grammems : List GramBits) : InputWord :=
  { lemma? := some { text := "x", grammems := grammems } }

/-- The grammem 1 is allowed for the second word of the key. -/
def shiftedOptions : SearchKey := { gram := [{ words := [2], allow := [{1}] }] }

/-- Both articles are found on one word. -/
def alignedPhrase : FoundPhrase shiftedKey where
  found := [[⟨shiftedWord [∅], 1⟩], [⟨shiftedWord [∅, {1}], 1⟩]]
  finds := by decide
  masked := by
    simp [shiftedWord, InputWord.Masked]

/-- The first article is found on two words. The second one has not the grammem 1. -/
def shiftedPhrase : FoundPhrase shiftedKey where
  found := [[⟨shiftedWord [∅], 1⟩, ⟨shiftedWord [{1}], 1⟩], [⟨shiftedWord [∅], 1⟩]]
  finds := by decide
  masked := by
    simp [shiftedWord, InputWord.Masked]

end TomitaParser.Gzt
