import Mathlib.Data.List.Induction
import TomitaParser.Lib.Tiling
import TomitaParser.Rusie.PeriodAmbiguity
/-! # The words that the parser reads

`CreateWordIndexes`: of the multiwords with the requested articles the best ones that do not overlap
take the place of their words. -/

namespace TomitaParser.Rusie
open Tiling
variable {Article : Type}

/-- `SWordHomonymNum`: an original word or a multiword, by its number. -/
structure WordHomonymNum where
  wordNum : ℕ
  homNum : ℤ := -1
  isOriginalWord : Bool := true
deriving DecidableEq

/-- A word that is made of others, or the word for the end of the sentence. -/
structure MultiWord (Article : Type) where
  firstWord : ℕ
  lastWord : ℕ
  isMultiWord : Bool
  hasArticle : Article → Bool

/-- `CWordVector`: the multiwords lie in the sentence, the end word behind it. -/
structure WordVector (Article : Type) where
  originalWordsCount : ℕ
  multiWords : List (MultiWord Article)
  endWord : WordHomonymNum
  inside : ∀ m ∈ multiWords, m.isMultiWord = true →
    m.firstWord ≤ m.lastWord ∧ m.lastWord < originalWordsCount
  outside : ∀ m ∈ multiWords, m.isMultiWord = false →
    m.firstWord = originalWordsCount ∧ m.lastWord = originalWordsCount

/-- What is asked of a word here: its source pair and whether it is an original word. -/
structure WordView where
  firstWord : ℕ
  lastWord : ℕ
  isOriginalWord : Bool

namespace WordVector
variable (words : WordVector Article)

/-- `GetWord`. The source pair of an original word is the word itself. -/
def getWord (wh : WordHomonymNum) : WordView :=
  if wh.isOriginalWord then ⟨wh.wordNum, wh.wordNum, true⟩
  else
    match words.multiWords[wh.wordNum]? with
    | some m => ⟨m.firstWord, m.lastWord, !m.isMultiWord⟩
    | none => ⟨wh.wordNum, wh.wordNum, true⟩

def initWordIndexes : List WordHomonymNum :=
  (List.range words.originalWordsCount).map fun i => { wordNum := i }

/-- The multiwords with one of the articles, by their numbers. -/
def multiWordsOccurrences (Item : Type) (artPointers : List Article) : List (Occurrence Item) :=
  words.multiWords.zipIdx.filterMap fun (m, i) =>
    if artPointers.any m.hasArticle then some ⟨m.firstWord, m.lastWord + 1, i, none⟩ else none

/-- The loop for the ends `k1` and `k2` from an index on. -/
def findEnds (multiWord : WordView) :
    ℕ → List WordHomonymNum → Option ℕ → Option ℕ × Option ℕ
  | _, [], k1 => (k1, none)
  | i, wh :: rest, k1 =>
    let w := words.getWord wh
    match if w.isOriginalWord ∧ w.firstWord = multiWord.firstWord then some i else k1 with
    | none => findEnds multiWord (i + 1) rest none
    | some k1 =>
      if !w.isOriginalWord then (some k1, none)
      else if w.firstWord = multiWord.lastWord then (some k1, some i)
      else findEnds multiWord (i + 1) rest (some k1)

/-- Erases from the last of so many places back to the first. -/
def eraseDown (k1 : ℕ) : ℕ → List WordHomonymNum → List WordHomonymNum
  | 0, indexes => indexes
  | count + 1, indexes => eraseDown k1 count (indexes.eraseIdx (k1 + count))

def substituteByMultiWord (wh : WordHomonymNum) (indexes : List WordHomonymNum) :
    List WordHomonymNum :=
  match words.findEnds (words.getWord wh) 0 indexes none with
  | (some k1, some k2) => (eraseDown k1 (k2 + 1 - k1) indexes).insertIdx k1 wh
  | (some k1, none) => indexes.insertIdx k1 wh
  | (none, _) => indexes

/-- `CreateWordIndexes`, once the articles have been searched for. -/
def createWordIndexes {Item Group : Type} (ops : WeightGroup Item Group)
    (sort : List (Occurrence Item) → List (Occurrence Item)) (artPointers : List Article)
    (addEndOfStreamSymbol : Bool) : List WordHomonymNum :=
  let occurrences := solveAmbiguity ops (sort (words.multiWordsOccurrences Item artPointers))
  let indexes := occurrences.foldl
    (fun indexes o =>
      words.substituteByMultiWord { wordNum := o.grammarRuleNo, isOriginalWord := false } indexes)
    words.initWordIndexes
  if addEndOfStreamSymbol then indexes ++ [words.endWord] else indexes

/-- The words that an element stands for. -/
def span (wh : WordHomonymNum) : ℕ × ℕ :=
  ((words.getWord wh).firstWord, (words.getWord wh).lastWord + 1)

variable {words}

theorem span_of_original {wh : WordHomonymNum} (h : wh.isOriginalWord = true) :
    words.span wh = (wh.wordNum, wh.wordNum + 1) := by
  rw [span, getWord, if_pos h]

theorem findEnds_of_ne {multiWord : WordView} {before : List WordHomonymNum}
    (h : ∀ wh ∈ before, (words.getWord wh).firstWord ≠ multiWord.firstWord) (i : ℕ)
    (rest : List WordHomonymNum) :
    words.findEnds multiWord i (before ++ rest) none =
      words.findEnds multiWord (i + before.length) rest none := by
  induction before generalizing i with
  | nil => rfl
  | cons wh before ih =>
    have hne := h wh List.mem_cons_self
    rw [List.cons_append, findEnds]
    simp only [hne, and_false, if_false]
    rw [ih (fun wh' hwh' => h wh' (List.mem_cons_of_mem wh hwh')), List.length_cons]
    congr 1
    omega

/-- Within the words of a multiword the loop goes on to the last of them. -/
theorem findEnds_originals {multiWord : WordView} {c : ℕ} {mid : List WordHomonymNum}
    (htiles : Tiles words.span c mid (multiWord.lastWord + 1)) (hne : mid ≠ [])
    (horiginal : ∀ wh ∈ mid, wh.isOriginalWord = true) {i k : ℕ} {k1 : Option ℕ}
    (hk1 : c = multiWord.firstWord ∧ i = k ∨ multiWord.firstWord < c ∧ k1 = some k)
    (after : List WordHomonymNum) :
    words.findEnds multiWord i (mid ++ after) k1 = (some k, some (i + mid.length - 1)) := by
  induction mid generalizing c i k1 with
  | nil => exact absurd rfl hne
  | cons wh mid ih =>
    have hwh := horiginal wh List.mem_cons_self
    obtain ⟨hfirst, -, hrest⟩ := htiles
    rw [span_of_original hwh] at hfirst hrest
    simp only at hfirst hrest
    have hview : words.getWord wh = ⟨wh.wordNum, wh.wordNum, true⟩ := by
      rw [getWord, if_pos hwh]
    have hstart : (if wh.wordNum = multiWord.firstWord then some i else k1) = some k := by
      rcases hk1 with ⟨hc, rfl⟩ | ⟨hlt, rfl⟩
      · rw [if_pos (by omega)]
      · rw [if_neg (by omega)]
    rw [List.cons_append, findEnds]
    simp only [hview, true_and, hstart, Bool.not_true, Bool.false_eq_true, if_false]
    by_cases hlast : wh.wordNum = multiWord.lastWord
    · have hnil : mid = [] := by
        cases mid with
        | nil => rfl
        | cons wh' mid' =>
          have hle := hrest.2.2.le
          have hlt := hrest.2.1
          omega
      rw [if_pos hlast, hnil]
      simp
    · rw [if_neg hlast]
      have hmid : mid ≠ [] := by
        rintro rfl
        have hend : wh.wordNum + 1 = multiWord.lastWord + 1 := hrest
        omega
      rw [ih hrest hmid (fun wh' hwh' => horiginal wh' (List.mem_cons_of_mem wh hwh'))
        (Or.inr ⟨by rcases hk1 with ⟨hc, -⟩ | ⟨hlt, -⟩ <;> omega, rfl⟩), List.length_cons]
      congr 2
      omega

theorem eraseDown_append (before mid after : List WordHomonymNum) :
    eraseDown before.length mid.length (before ++ (mid ++ after)) = before ++ after := by
  induction mid using List.reverseRecOn generalizing after with
  | nil => rfl
  | append_singleton mid wh ih =>
    rw [List.length_append, List.length_singleton, eraseDown, List.append_assoc, ← List.append_assoc,
      ← List.length_append, List.eraseIdx_append_of_length_le (le_refl _), Nat.sub_self,
      List.singleton_append, List.eraseIdx_cons_zero, List.append_assoc, ih]

theorem insertIdx_append (before after : List WordHomonymNum) (wh : WordHomonymNum) :
    (before ++ after).insertIdx before.length wh = before ++ wh :: after := by
  induction before with
  | nil => rfl
  | cons x before ih => rw [List.cons_append, List.length_cons, List.insertIdx_succ_cons, ih]; rfl

/-- No multiword of the indexes has a word in common with some words. -/
def Free (words : WordVector Article) (indexes : List WordHomonymNum) (first second : ℕ) : Prop :=
  ∀ wh ∈ indexes, wh.isOriginalWord = false →
    (words.span wh).2 ≤ first ∨ second ≤ (words.span wh).1

/-- Where no other multiword is, the words of a multiword make place for it. -/
theorem substituteByMultiWord_eq {wh : WordHomonymNum} {lo hi : ℕ} {indexes : List WordHomonymNum}
    (htiles : Tiles words.span lo indexes hi) (hlo : lo ≤ (words.span wh).1)
    (hproper : (words.span wh).1 < (words.span wh).2) (hhi : (words.span wh).2 ≤ hi)
    (hfree : Free words indexes (words.span wh).1 (words.span wh).2) :
    ∃ before mid after, indexes = before ++ (mid ++ after) ∧
      words.substituteByMultiWord wh indexes = before ++ wh :: after ∧
      Tiles words.span lo (before ++ wh :: after) hi := by
  have hcut : ∀ cut, cut = (words.span wh).1 ∨ cut = (words.span wh).2 → ∀ x ∈ indexes,
      ¬ ((words.span x).1 < cut ∧ cut < (words.span x).2) := by
    intro cut hcut x hx hover
    cases horiginal : x.isOriginalWord with
    | true =>
      rw [span_of_original horiginal] at hover
      simp only at hover
      omega
    | false =>
      have := hfree x hx horiginal
      omega
  obtain ⟨before, rest, rfl, hbefore, hrest⟩ := htiles.split hlo (by omega)
    (hcut _ (Or.inl rfl))
  obtain ⟨mid, after, rfl, hmid, hafter⟩ := hrest.split (by omega) hhi fun x hx =>
    hcut _ (Or.inr rfl) x (List.mem_append_right _ hx)
  have horiginal : ∀ x ∈ mid, x.isOriginalWord = true := by
    intro x hx
    by_contra hx'
    have hbounds := hmid.bounds hx
    have := hfree x (by simp [hx]) (by simpa using hx')
    omega
  have hne : mid ≠ [] := by
    rintro rfl
    have hend : (words.span wh).1 = (words.span wh).2 := hmid
    omega
  have hpos := List.length_pos_iff.mpr hne
  refine ⟨before, mid, after, rfl, ?_, tiles_append.mpr ⟨_, hbefore, rfl, hproper, hafter⟩⟩
  have hskip : ∀ x ∈ before, (words.getWord x).firstWord ≠ (words.getWord wh).firstWord := by
    intro x hx
    have hbounds := hbefore.bounds hx
    simp only [span] at hbounds
    omega
  rw [substituteByMultiWord, findEnds_of_ne hskip,
    findEnds_originals hmid hne horiginal (Or.inl ⟨rfl, rfl⟩)]
  simp only [Nat.zero_add]
  rw [show before.length + mid.length - 1 + 1 - before.length = mid.length by omega,
    eraseDown_append, insertIdx_append]

/-- The element for a multiword. -/
def multi (i : ℕ) : WordHomonymNum := { wordNum := i, isOriginalWord := false }

/-- A multiword with a requested article, by its number. -/
def Requested (words : WordVector Article) (artPointers : List Article) (i : ℕ)
    (m : MultiWord Article) : Prop :=
  words.multiWords[i]? = some m ∧ ∃ a ∈ artPointers, m.hasArticle a = true

theorem mem_multiWordsOccurrences {Item : Type} {artPointers : List Article} {o : Occurrence Item}
    (h : o ∈ words.multiWordsOccurrences Item artPointers) :
    ∃ m, Requested words artPointers o.grammarRuleNo m ∧ o.first = m.firstWord ∧
      o.second = m.lastWord + 1 ∧ words.span (multi o.grammarRuleNo) = (o.first, o.second) := by
  obtain ⟨⟨m, i⟩, hm, ho⟩ := List.mem_filterMap.mp h
  have hget := List.mem_zipIdx_iff_getElem?.mp hm
  simp only at ho hget
  split_ifs at ho with hany
  obtain rfl := Option.some.inj ho
  refine ⟨m, ⟨hget, List.any_eq_true.mp hany⟩, rfl, rfl, ?_⟩
  simp [span, getWord, multi, hget]

theorem multiWordsOccurrences_proper {Item : Type} {artPointers : List Article}
    {o : Occurrence Item} (h : o ∈ words.multiWordsOccurrences Item artPointers) :
    o.first < o.second := by
  obtain ⟨m, ⟨hm, -⟩, hfirst, hsecond, -⟩ := mem_multiWordsOccurrences h
  have hmem := List.mem_of_getElem? hm
  cases hmulti : m.isMultiWord with
  | true =>
    have := words.inside m hmem hmulti
    omega
  | false =>
    have := words.outside m hmem hmulti
    omega

theorem initWordIndexes_tiles (words : WordVector Article) :
    Tiles words.span 0 words.initWordIndexes words.originalWordsCount := by
  have hrun : ∀ count lo, Tiles words.span lo
      ((List.range' lo count).map fun i => ({ wordNum := i } : WordHomonymNum)) (lo + count) := by
    intro count
    induction count with
    | zero => exact fun lo => rfl
    | succ count ih =>
      intro lo
      have hspan : words.span { wordNum := lo } = (lo, lo + 1) := span_of_original rfl
      have hrest := ih (lo + 1)
      rw [show lo + 1 + count = lo + (count + 1) by omega] at hrest
      rw [List.range'_succ, List.map_cons, Tiles, hspan]
      exact ⟨rfl, by simp only; omega, hrest⟩
  have := hrun words.originalWordsCount 0
  rwa [Nat.zero_add, ← List.range_eq_range'] at this

/-- What holds after the substitution of some occurrences. -/
structure Substituted {Item : Type} (words : WordVector Article) (artPointers : List Article)
    (done : List (Occurrence Item)) (indexes : List WordHomonymNum) : Prop where
  tiles : Tiles words.span 0 indexes words.originalWordsCount
  multi : ∀ wh ∈ indexes, wh.isOriginalWord = false → ∃ o ∈ done,
    wh = multi o.grammarRuleNo ∧ ∃ m, Requested words artPointers o.grammarRuleNo m ∧
      m.isMultiWord = true

theorem Substituted.step {Item : Type} {artPointers : List Article} {done : List (Occurrence Item)}
    {indexes : List WordHomonymNum} (h : Substituted words artPointers done indexes)
    {o : Occurrence Item} (ho : o ∈ words.multiWordsOccurrences Item artPointers)
    (hdone : ∀ x ∈ done, x ∈ words.multiWordsOccurrences Item artPointers)
    (hfree : ∀ x ∈ done, x.second ≤ o.first ∨ o.second ≤ x.first) :
    Substituted words artPointers (done ++ [o])
      (words.substituteByMultiWord (WordVector.multi o.grammarRuleNo) indexes) := by
  obtain ⟨m, hm, hfirst, hsecond, hspan⟩ := mem_multiWordsOccurrences ho
  have hproper := multiWordsOccurrences_proper ho
  have hmem := List.mem_of_getElem? hm.1
  cases hmulti : m.isMultiWord with
  | true =>
    have hinside := words.inside m hmem hmulti
    have hspans : Free words indexes (words.span (WordVector.multi o.grammarRuleNo)).1
        (words.span (WordVector.multi o.grammarRuleNo)).2 := by
      intro wh hwh horiginal
      obtain ⟨x, hx, rfl, -⟩ := h.multi wh hwh horiginal
      obtain ⟨-, -, -, -, hspanx⟩ := mem_multiWordsOccurrences (hdone x hx)
      rw [hspan, hspanx]
      exact hfree x hx
    obtain ⟨before, mid, after, rfl, heq, htiles⟩ := substituteByMultiWord_eq h.tiles (Nat.zero_le _)
      (by rw [hspan]; exact hproper) (by rw [hspan]; simp only; omega) hspans
    rw [heq]
    refine ⟨htiles, fun wh hwh horiginal => ?_⟩
    rcases List.mem_append.mp hwh with hwh | hwh
    · obtain ⟨x, hx, hrest⟩ := h.multi wh (List.mem_append_left _ hwh) horiginal
      exact ⟨x, List.mem_append_left _ hx, hrest⟩
    · rcases List.mem_cons.mp hwh with rfl | hwh
      · exact ⟨o, by simp, rfl, m, hm, hmulti⟩
      · obtain ⟨x, hx, hrest⟩ := h.multi wh
          (List.mem_append_right _ (List.mem_append_right _ hwh)) horiginal
        exact ⟨x, List.mem_append_left _ hx, hrest⟩
  | false =>
    -- the word for the end of the sentence begins where no element does
    have houtside := words.outside m hmem hmulti
    have hskip : ∀ wh ∈ indexes, (words.getWord wh).firstWord ≠
        (words.getWord (WordVector.multi o.grammarRuleNo)).firstWord := by
      intro wh hwh heq
      have hbounds := h.tiles.bounds hwh
      have hend := congrArg Prod.fst hspan
      simp only [span] at hbounds hend
      omega
    have hnone := findEnds_of_ne hskip 0 []
    rw [List.append_nil, findEnds] at hnone
    rw [substituteByMultiWord, hnone]
    refine ⟨h.tiles, fun wh hwh horiginal => ?_⟩
    obtain ⟨x, hx, hrest⟩ := h.multi wh hwh horiginal
    exact ⟨x, List.mem_append_left _ hx, hrest⟩

theorem Substituted.run {Item : Type} {artPointers : List Article}
    {done rest : List (Occurrence Item)} {indexes : List WordHomonymNum}
    (h : Substituted words artPointers done indexes)
    (hoccurrences : ∀ o ∈ done ++ rest, o ∈ words.multiWordsOccurrences Item artPointers)
    (hnon : NonOverlapping (done ++ rest)) :
    Substituted words artPointers (done ++ rest) (rest.foldl
      (fun indexes o => words.substituteByMultiWord (WordVector.multi o.grammarRuleNo) indexes)
      indexes) := by
  induction rest generalizing done indexes with
  | nil => rwa [List.append_nil]
  | cons o rest ih =>
    have hstep := h.step (hoccurrences o (by simp))
      (fun x hx => hoccurrences x (List.mem_append_left _ hx))
      (fun x hx => (List.pairwise_append.mp hnon).2.2 x hx o List.mem_cons_self)
    have happend : done ++ o :: rest = (done ++ [o]) ++ rest := by simp
    rw [happend] at hoccurrences hnon ⊢
    exact ih hstep hoccurrences hnon

/-- The elements follow each other and cover every original word once, and each is an original word or
a multiword that carries one of the requested articles. -/
theorem createWordIndexes_tiles {Item Group : Type} (words : WordVector Article)
    (ops : WeightGroup Item Group) (sort : List (Occurrence Item) → List (Occurrence Item))
    (hsort : ∀ occurrences, SortedAs occurrences (sort occurrences)) (artPointers : List Article) :
    ∃ indexes, words.createWordIndexes ops sort artPointers false = indexes ∧
      words.createWordIndexes ops sort artPointers true = indexes ++ [words.endWord] ∧
      Tiles words.span 0 indexes words.originalWordsCount ∧
      indexes.flatMap (places words.span) = List.range words.originalWordsCount ∧
      ∀ wh ∈ indexes, wh.isOriginalWord = true ∧ wh.wordNum < words.originalWordsCount ∨
        wh.isOriginalWord = false ∧ ∃ m, Requested words artPointers wh.wordNum m ∧
          m.isMultiWord = true := by
  have hsorted := hsort (words.multiWordsOccurrences Item artPointers)
  have hsecond : (sort (words.multiWordsOccurrences Item artPointers)).Pairwise
      fun x y => x.second ≤ y.second := by
    apply hsorted.sorted.imp
    intro x y h
    unfold sortByRightBorder at h
    split_ifs at h with heq <;> simp only [decide_eq_false_iff_not] at h <;> omega
  obtain ⟨s, hs, -⟩ := @solveAmbiguity_spec Item Group ops _
    (fun o ho => multiWordsOccurrences_proper (hsorted.perm.subset ho)) hsecond
  have hnon : NonOverlapping
      (solveAmbiguity ops (sort (words.multiWordsOccurrences Item artPointers))) :=
    ((List.reverse_perm _).pairwise_iff fun hxy => hxy.symm).mp hs.nonOverlapping
  have hmem : ∀ o ∈ solveAmbiguity ops (sort (words.multiWordsOccurrences Item artPointers)),
      o ∈ words.multiWordsOccurrences Item artPointers := by
    intro o ho
    have hsub := hs.sublist.subset (List.mem_reverse.mpr ho)
    exact hsorted.perm.subset (List.mem_reverse.mp hsub)
  have hstart : Substituted words artPointers ([] : List (Occurrence Item))
      words.initWordIndexes := by
    refine ⟨words.initWordIndexes_tiles, fun wh hwh horiginal => ?_⟩
    obtain ⟨i, -, rfl⟩ := List.mem_map.mp hwh
    simp at horiginal
  have hrun := @Substituted.run Article words Item artPointers [] (solveAmbiguity ops _) _ hstart
    hmem hnon
  refine ⟨_, rfl, rfl, hrun.tiles, hrun.tiles.flatMap_places.trans ?_, fun wh hwh => ?_⟩
  · rw [Nat.sub_zero, List.range_eq_range']
  · cases horiginal : wh.isOriginalWord with
    | true =>
      have hbounds := hrun.tiles.bounds hwh
      rw [span_of_original horiginal] at hbounds
      exact Or.inl ⟨rfl, by simp only at hbounds; omega⟩
    | false =>
      obtain ⟨o, -, rfl, hrequested⟩ := hrun.multi wh hwh horiginal
      exact Or.inr ⟨rfl, hrequested⟩

/-- Three words with two nested multiwords, and the word for the end of the sentence. -/
def nestedMultiWords : WordVector Unit where
  originalWordsCount := 3
  multiWords := [⟨3, 3, false, fun _ => false⟩, ⟨0, 1, true, fun _ => true⟩,
    ⟨1, 1, true, fun _ => true⟩]
  endWord := { wordNum := 0, homNum := 0, isOriginalWord := false }
  inside := by decide
  outside := by decide

/-- A stable sort by the right borders. -/
def sortOccurrences {Item : Type} (occurrences : List (Occurrence Item)) :
    List (Occurrence Item) :=
  occurrences.mergeSort fun x y => !sortByRightBorder y x

theorem sortOccurrences_sortedAs {Item : Type} (occurrences : List (Occurrence Item)) :
    SortedAs occurrences (sortOccurrences occurrences) := by
  refine ⟨List.mergeSort_perm _ _, (List.pairwise_mergeSort ?_ ?_ _).imp fun h => by simpa using h⟩
  · intro x y z hxy hyz
    simp only [sortByRightBorder, Bool.not_eq_true'] at *
    split_ifs at * <;> simp only [decide_eq_false_iff_not] at * <;> omega
  · intro x y
    simp only [sortByRightBorder, Bool.or_eq_true, Bool.not_eq_true']
    split_ifs <;> simp only [decide_eq_false_iff_not] <;> omega

/-- The longer multiword takes the place of its words. -/
theorem createWordIndexes_tiles_nested :
    ∃ indexes, nestedMultiWords.createWordIndexes weightless sortOccurrences [()] false = indexes ∧
      indexes.flatMap (places nestedMultiWords.span) = [0, 1, 2] := by
  obtain ⟨indexes, heq, -, -, hplaces, -⟩ :=
    createWordIndexes_tiles nestedMultiWords weightless sortOccurrences
      sortOccurrences_sortedAs [()]
  exact ⟨indexes, heq, hplaces⟩

end WordVector
end TomitaParser.Rusie
