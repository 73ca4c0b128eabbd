import TomitaParser.Gzt.ArticleIter
/-! # Found articles one by one

A search that is left and resumed goes over the same list of found articles: each filter is checked
on the words as they were chosen, and nothing that one check removes is seen by another. -/

namespace TomitaParser.Gzt

namespace PhraseWords

theorem resetGrammems_removeGrammems (p : PhraseWords) (index : ℕ) (remove : GramBits → Bool) :
    (p.removeGrammems index remove).resetGrammems = p.resetGrammems := by
  have hwords : (p.words.modify index (·.removeGrammems remove)).map (·.restoreGrammems) =
      p.words.map (·.restoreGrammems) := by
    apply List.ext_getElem?
    intro i
    simp only [List.getElem?_map, List.getElem?_modify]
    cases p.words[i]? with
    | none => rfl
    | some w =>
      by_cases h : index = i
      · simp only [h, if_true]
        rfl
      · simp only [if_neg h]
        rfl
  simp only [resetGrammems, removeGrammems, hwords]

theorem resetGrammems_filterGrammems (correctIndex : ℕ → ℕ) (allow : Bool)
    (filters : List (ℕ × List GramBits)) (p : PhraseWords) :
    (filterGrammems correctIndex allow filters p).2.resetGrammems = p.resetGrammems := by
  induction filters generalizing p with
  | nil => rfl
  | cons f rest ih =>
    simp only [filterGrammems]
    split
    · exact ih p
    · split
      · rw [ih, resetGrammems_removeGrammems]
      · exact resetGrammems_removeGrammems p _ _

variable (tables : MatchTables) (correctIndex : ℕ → ℕ)

theorem resetGrammems_removeDisagreed (types : Finset ℕ) (agreed : List GramBits) (words : List ℕ)
    (p : PhraseWords) :
    (removeDisagreed tables correctIndex types agreed words p).2.resetGrammems =
    p.resetGrammems := by
  induction words generalizing p with
  | nil => rfl
  | cons word rest ih =>
    simp only [removeDisagreed]
    split
    · exact ih p
    · split
      · rw [ih, resetGrammems_removeGrammems]
      · exact resetGrammems_removeGrammems p _ _

theorem resetGrammems_checkSingleAgreement (words : List ℕ) (types : Finset ℕ) (p : PhraseWords) :
    (checkSingleAgreement tables correctIndex words types p).2.resetGrammems = p.resetGrammems := by
  unfold checkSingleAgreement
  dsimp only
  split
  · rfl
  · split
    · rfl
    · exact resetGrammems_removeDisagreed tables correctIndex types _ words p

theorem resetGrammems_checkAgreements (agreements : List (List ℕ × Finset ℕ)) (p : PhraseWords) :
    (checkAgreements tables correctIndex agreements p).2.resetGrammems = p.resetGrammems := by
  induction agreements generalizing p with
  | nil => rfl
  | cons a rest ih =>
    simp only [checkAgreements]
    split
    · rw [ih, resetGrammems_checkSingleAgreement]
    · exact resetGrammems_checkSingleAgreement tables correctIndex a.1 a.2 p

theorem resetGrammems_matchConstraints (c : Constraints) (p : PhraseWords) :
    (matchConstraints tables correctIndex c p).2.resetGrammems = p.resetGrammems := by
  have hforbidden := resetGrammems_filterGrammems correctIndex false c.forbiddenGrams p
  have hallowed := resetGrammems_filterGrammems correctIndex true c.allowedGrams
    (filterGrammems correctIndex false c.forbiddenGrams p).2
  have hagreed := resetGrammems_checkAgreements tables correctIndex c.agreements
    (filterGrammems correctIndex true c.allowedGrams
      (filterGrammems correctIndex false c.forbiddenGrams p).2).2
  unfold matchConstraints
  dsimp only
  split
  · exact hforbidden
  · split
    · rw [hallowed, hforbidden]
    · split
      · rw [hagreed, hallowed, hforbidden]
      · rw [hagreed, hallowed, hforbidden]

theorem resetGrammems_resetGrammems (p : PhraseWords) :
    p.resetGrammems.resetGrammems = p.resetGrammems := by
  simp [resetGrammems, InputWord.restoreGrammems]

theorem resetGrammems_fresh {p : PhraseWords}
    (h : ∀ w ∈ p.words, w.badHomoforms = w.initialBadHomoforms) : p.resetGrammems = p := by
  have hwords : p.words.map (·.restoreGrammems) = p.words.map id := by
    apply List.map_congr_left
    intro w hw
    have hw' := h w hw
    cases w
    cases hw'
    rfl
  rw [resetGrammems, hwords, List.map_id]

end PhraseWords

theorem GztTrie.resetGrammems_matchFilter (trie : GztTrie) (f : ArticleFilter) (p : PhraseWords)
    (indexTable : List ℕ) : (trie.matchFilter f p indexTable).2.resetGrammems = p.resetGrammems :=
  PhraseWords.resetGrammems_matchConstraints _ _ _ p

/-- A call of `ResetFoundArticle`: an article and the words with the homoforms that are left. -/
abbrev Hit := ℕ × PhraseWords

/-- The first hit that ends the search, and the hits after it. -/
def firstFound {C : Type} (reset : ℕ → PhraseWords → C → Bool × C) : List Hit → C →
    Bool × List Hit × C
  | [], c => (false, [], c)
  | hit :: rest, c =>
    let r := reset hit.1 hit.2 c
    if r.1 then (true, rest, r.2) else firstFound reset rest r.2

section FirstFound
variable {C : Type} (reset : ℕ → PhraseWords → C → Bool × C)

theorem firstFound_append (a b : List Hit) (c : C) : firstFound reset (a ++ b) c =
    let r := firstFound reset a c
    if r.1 then (true, r.2.1 ++ b, r.2.2) else firstFound reset b r.2.2 := by
  induction a generalizing c with
  | nil => rfl
  | cons hit rest ih =>
    simp only [List.cons_append, firstFound]
    by_cases h : (reset hit.1 hit.2 c).1 = true
    · simp only [if_pos h, if_true]
    · simp only [if_neg h]
      exact ih _

theorem left_of_not_found (hits : List Hit) (c : C) (h : (firstFound reset hits c).1 = false) :
    (firstFound reset hits c).2.1 = [] := by
  induction hits generalizing c with
  | nil => rfl
  | cons hit rest ih =>
    simp only [firstFound] at h ⊢
    cases hfound : (reset hit.1 hit.2 c).1 with
    | true =>
      rw [hfound, if_pos rfl] at h
      cases h
    | false =>
      rw [hfound, if_neg Bool.false_ne_true] at h
      rw [if_neg Bool.false_ne_true]
      exact ih _ h

end FirstFound

namespace PhraseCursor
variable {C : Type} (trie : GztTrie) (reset : ℕ → PhraseWords → C → Bool × C)

/-- The hits of some filters on a phrase. -/
def filterHits (indexTable : List ℕ) (phrase : PhraseWords) (filters : List ArticleFilter) :
    List Hit :=
  filters.filterMap fun f =>
    let m := trie.matchFilter f phrase.resetGrammems indexTable
    if m.1 then some (f.articleId, m.2) else none

/-- The hits that a cursor has still to come to. -/
def hits (s : PhraseCursor) : List Hit :=
  s.simpleArticles.map (fun id => (id, s.phrase.resetGrammems)) ++
    filterHits trie s.indexTable s.phrase s.filters

theorem simpleLoop_hits (phrase : PhraseWords) (articles : List ℕ) (c : C) :
    firstFound reset (articles.map fun id => (id, phrase)) c =
      ((simpleLoop reset phrase articles c).1,
        (simpleLoop reset phrase articles c).2.1.map (fun id => (id, phrase)),
        (simpleLoop reset phrase articles c).2.2) := by
  induction articles generalizing c with
  | nil => rfl
  | cons id rest ih =>
    simp only [List.map_cons, firstFound, simpleLoop]
    cases h : (reset id phrase c).1 with
    | true => rfl
    | false => exact ih _

theorem filterHits_congr (indexTable : List ℕ) {p q : PhraseWords}
    (h : q.resetGrammems = p.resetGrammems) (filters : List ArticleFilter) :
    filterHits trie indexTable q filters = filterHits trie indexTable p filters := by
  simp only [filterHits, h]

theorem filterLoop_hits (indexTable : List ℕ) (phrase : PhraseWords) (filters : List ArticleFilter)
    (c : C) :
    let r := filterLoop trie reset indexTable phrase filters c
    firstFound reset (filterHits trie indexTable phrase filters) c =
      (r.1, filterHits trie indexTable r.2.1.1 r.2.1.2, r.2.2) ∧
    r.2.1.1.resetGrammems = phrase.resetGrammems := by
  intro r
  induction filters generalizing phrase c with
  | nil => exact ⟨rfl, rfl⟩
  | cons f rest ih =>
    have hsame : (trie.matchFilter f phrase.resetGrammems indexTable).2.resetGrammems =
        phrase.resetGrammems := by
      rw [trie.resetGrammems_matchFilter, PhraseWords.resetGrammems_resetGrammems]
    have hrest := filterHits_congr trie indexTable hsame rest
    have hcons : filterHits trie indexTable phrase (f :: rest) =
        (if (trie.matchFilter f phrase.resetGrammems indexTable).1 then
          [(f.articleId, (trie.matchFilter f phrase.resetGrammems indexTable).2)] else []) ++
          filterHits trie indexTable phrase rest := by
      simp only [filterHits, List.filterMap_cons]
      cases (trie.matchFilter f phrase.resetGrammems indexTable).1 <;> rfl
    show firstFound reset (filterHits trie indexTable phrase (f :: rest)) c =
      ((filterLoop trie reset indexTable phrase (f :: rest) c).1, _, _) ∧ _
    simp only [r, filterLoop, hcons]
    cases hmatch : (trie.matchFilter f phrase.resetGrammems indexTable).1 with
    | false =>
      obtain ⟨hfirst, hreset⟩ := ih (trie.matchFilter f phrase.resetGrammems indexTable).2 c
      rw [hrest] at hfirst
      simp only [Bool.false_eq_true, if_false, List.nil_append]
      exact ⟨hfirst, hreset.trans hsame⟩
    | true =>
      simp only [if_true, List.cons_append, List.nil_append, firstFound]
      cases hfound : (reset f.articleId
          (trie.matchFilter f phrase.resetGrammems indexTable).2 c).1 with
      | true => exact ⟨by simp only [if_true, hrest], hsame⟩
      | false =>
        obtain ⟨hfirst, hreset⟩ := ih (trie.matchFilter f phrase.resetGrammems indexTable).2
          (reset f.articleId (trie.matchFilter f phrase.resetGrammems indexTable).2 c).2
        rw [hrest] at hfirst
        simp only [Bool.false_eq_true, if_false]
        exact ⟨hfirst, hreset.trans hsame⟩

theorem findNextHere_hits (s : PhraseCursor) (c : C) :
    let r := s.findNextHere trie reset c
    firstFound reset (s.hits trie) c = (r.1, r.2.1.hits trie, r.2.2) := by
  intro r
  have hsimple := simpleLoop_hits reset s.phrase.resetGrammems s.simpleArticles c
  have hleft := left_of_not_found reset
    (s.simpleArticles.map fun id => (id, s.phrase.resetGrammems)) c
  have hfilter := (filterLoop_hits trie reset s.indexTable s.phrase.resetGrammems s.filters
    (simpleLoop reset s.phrase.resetGrammems s.simpleArticles c).2.2).1
  have hreset := filterHits_congr trie s.indexTable s.phrase.resetGrammems_resetGrammems s.filters
  rw [hits, firstFound_append]
  rw [hsimple] at hleft ⊢
  simp only [r, findNextHere, findNextInSimpleArticles, findNextInFilters]
  by_cases hfound : (simpleLoop reset s.phrase.resetGrammems s.simpleArticles c).1 = true
  · simp only [hfound, if_true, hits, PhraseWords.resetGrammems_resetGrammems, hreset]
  · have hnil := hleft (Bool.not_eq_true _ ▸ hfound)
    simp only [List.map_eq_nil_iff] at hnil
    rw [hreset] at hfilter
    simp only [if_neg hfound, hfilter, hits, hnil, List.map_nil, List.nil_append]

end PhraseCursor

namespace PhraseSearch
variable {C : Type} (trie : GztTrie) (reset : ℕ → PhraseWords → C → Bool × C)

/-- The hits of a branch that ends at a word. -/
def branchHits (input : List Token) (wordCount : ℕ) (b : Branch ArticleBucket) : List Hit :=
  ((PhraseCursor.ofBranch trie input wordCount b).map (·.hits trie)).getD []

theorem reading_of_mem_hits {s : PhraseCursor} {hit : Hit} (h : hit ∈ s.hits trie) :
    hit.2.resetGrammems = s.phrase.resetGrammems := by
  rcases List.mem_append.mp h with h | h
  · obtain ⟨id, -, rfl⟩ := List.mem_map.mp h
    exact s.phrase.resetGrammems_resetGrammems
  · obtain ⟨f, -, hf⟩ := List.mem_filterMap.mp h
    dsimp only at hf
    split at hf
    · cases hf
      rw [trie.resetGrammems_matchFilter, PhraseWords.resetGrammems_resetGrammems]
    · cases hf

theorem reading_of_mem_branchHits {input : List Token} {wordCount : ℕ} {b : Branch ArticleBucket}
    {hit : Hit} (h : hit ∈ branchHits trie input wordCount b) :
    hit.2.resetGrammems = (⟨input, wordCount, b.copyTo.1⟩ : PhraseWords).resetGrammems := by
  unfold branchHits at h
  cases hbranch : PhraseCursor.ofBranch trie input wordCount b with
  | none =>
    rw [hbranch] at h
    cases h
  | some found =>
    rw [hbranch] at h
    obtain ⟨bucket, -, rfl⟩ := Option.map_eq_some_iff.mp hbranch
    exact reading_of_mem_hits trie h

/-- The hits of the words that are not read. -/
def unreadHits (input : List Token) : List Token → ℕ → SearchTree → List Hit
  | [], _, _ => []
  | token :: unread, wordCount, tree =>
    let tree := tree.takeNextWord trie token
    tree.branches.flatMap (branchHits trie input (wordCount + 1)) ++
      unreadHits input unread (wordCount + 1) tree

/-- The hits at the current word that a search has still to come to. -/
def hitsHere (s : PhraseSearch) : List Hit :=
  s.cursor.hits trie ++ s.branchQueue.flatMap (branchHits trie s.input s.wordCount)

/-- All hits that a search has still to come to. -/
def hits (s : PhraseSearch) : List Hit :=
  s.hitsHere trie ++ unreadHits trie s.input s.unread s.wordCount s.tree

theorem findNextLoop_hits (input : List Token) (wordCount : ℕ)
    (queue : List (Branch ArticleBucket)) (cursor : PhraseCursor) (c : C)
    (hcursor : cursor.hits trie = []) :
    let r := findNextLoop trie reset input wordCount queue cursor c
    firstFound reset (queue.flatMap (branchHits trie input wordCount)) c =
      (r.1, r.2.1.2.hits trie ++ r.2.1.1.flatMap (branchHits trie input wordCount), r.2.2) := by
  intro r
  induction queue generalizing cursor c with
  | nil => simp only [r, findNextLoop, hcursor, List.flatMap_nil, List.append_nil, firstFound]
  | cons b rest ih =>
    show firstFound reset _ c =
      ((findNextLoop trie reset input wordCount (b :: rest) cursor c).1, _, _)
    simp only [r, List.flatMap_cons, findNextLoop]
    cases hbranch : PhraseCursor.ofBranch trie input wordCount b with
    | none =>
      have hnil : branchHits trie input wordCount b = [] := by
        rw [branchHits, hbranch]
        rfl
      rw [hnil, List.nil_append]
      exact ih cursor c hcursor
    | some found =>
      have hhits : branchHits trie input wordCount b = found.hits trie := by
        rw [branchHits, hbranch]
        rfl
      have hhere := PhraseCursor.findNextHere_hits trie reset found c
      have hleft := left_of_not_found reset (found.hits trie) c
      rw [hhits, firstFound_append]
      rw [hhere] at hleft ⊢
      by_cases h : (found.findNextHere trie reset c).1 = true
      · simp only [h, if_true]
      · simp only [if_neg h]
        exact ih _ _ (hleft (Bool.not_eq_true _ ▸ h))

theorem findNext_hits (s : PhraseSearch) (c : C) (hcursor : s.cursor.hits trie = []) :
    let r := s.findNext trie reset c
    firstFound reset (s.hitsHere trie) c = (r.1, r.2.1.hitsHere trie, r.2.2) := by
  intro r
  rw [hitsHere, hcursor, List.nil_append]
  exact findNextLoop_hits trie reset s.input s.wordCount s.branchQueue s.cursor c hcursor

theorem findNextAtWord_hits (s : PhraseSearch) (c : C) :
    let r := s.findNextAtWord trie reset c
    firstFound reset (s.hitsHere trie) c = (r.1, r.2.1.hitsHere trie, r.2.2) := by
  intro r
  have hhere := PhraseCursor.findNextHere_hits trie reset s.cursor c
  have hleft := left_of_not_found reset (s.cursor.hits trie) c
  simp only [r, findNextAtWord]
  rw [hhere] at hleft
  by_cases h : (s.cursor.findNextHere trie reset c).1 = true
  · rw [hitsHere, firstFound_append, hhere]
    simp only [h, if_true]
    rfl
  · have hcursor : (s.cursor.findNextHere trie reset c).2.1.hits trie = [] :=
      hleft (Bool.not_eq_true _ ▸ h)
    let s' : PhraseSearch := { s with cursor := (s.cursor.findNextHere trie reset c).2.1 }
    have hnext := findNext_hits trie reset s' (s.cursor.findNextHere trie reset c).2.2 hcursor
    have hqueue : s'.hitsHere trie =
        s.branchQueue.flatMap (branchHits trie s.input s.wordCount) := by
      rw [hitsHere, show s'.cursor.hits trie = [] from hcursor, List.nil_append]
    rw [hitsHere, firstFound_append, hhere]
    simp only [if_neg h]
    rw [← hqueue]
    exact hnext

theorem findNextAtWord_frame (s : PhraseSearch) (c : C) :
    let r := (s.findNextAtWord trie reset c).2.1
    r.input = s.input ∧ r.unread = s.unread ∧ r.wordCount = s.wordCount ∧ r.tree = s.tree := by
  intro r
  simp only [r, findNextAtWord]
  split
  · exact ⟨rfl, rfl, rfl, rfl⟩
  · exact ⟨rfl, rfl, rfl, rfl⟩

theorem mem_hitsHere {s : PhraseSearch} {hit : Hit} (h : hit ∈ s.hitsHere trie)
    (hcursor : s.cursor.hits trie = []) :
    hit.2.input = s.input ∧ hit.2.wordCount = s.wordCount := by
  rw [hitsHere, hcursor, List.nil_append] at h
  obtain ⟨b, -, hhit⟩ := List.mem_flatMap.mp h
  have hreading := reading_of_mem_branchHits trie hhit
  exact ⟨(PhraseWords.mk.inj hreading).1, (PhraseWords.mk.inj hreading).2.1⟩

end PhraseSearch
end TomitaParser.Gzt
