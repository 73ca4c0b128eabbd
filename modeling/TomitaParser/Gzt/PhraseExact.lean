import Mathlib.Data.List.Forall2
import TomitaParser.Gzt.SearchSteps
/-! # Which phrases are found

The branches in progress after a word are the ways to read the words up to it along the trie. The
hits are then the readings of adjacent words that are keys, with the articles of the key whose
filter accepts the reading. -/

namespace TomitaParser.Gzt

namespace Trie
variable {Data : Type}

/-- The keys that go on after some symbols. -/
def tailsAlong (trie : Trie Data) (ids : List ℕ) : Trie Data := ids.foldl tails trie

/-- The data of a key. -/
def find (trie : Trie Data) (ids : List ℕ) : Option Data :=
  (trie.find? fun entry => entry.1 = ids).map Prod.snd

theorem tailsAlong_append (trie : Trie Data) (a b : List ℕ) :
    trie.tailsAlong (a ++ b) = (trie.tailsAlong a).tailsAlong b := by
  rw [tailsAlong, List.foldl_append]
  rfl

theorem findTails_eq_some {trie tails : Trie Data} {id : ℕ} :
    trie.findTails id = some tails ↔ tails = trie.tails id ∧ tails ≠ [] := by
  unfold findTails
  split
  · rename_i h
    constructor
    · intro hnone
      cases hnone
    · rintro ⟨rfl, hne⟩
      exact absurd h hne
  · rename_i h
    constructor
    · intro hsome
      cases hsome
      exact ⟨rfl, h⟩
    · rintro ⟨rfl, -⟩
      rfl

theorem tailsAlong_nil (ids : List ℕ) : tailsAlong ([] : Trie Data) ids = [] := by
  induction ids with
  | nil => rfl
  | cons id ids ih => exact ih

theorem find_tails (trie : Trie Data) (id : ℕ) (ids : List ℕ) :
    (trie.tails id).find ids = trie.find (id :: ids) := by
  induction trie with
  | nil => rfl
  | cons entry trie ih =>
    obtain ⟨key, data⟩ := entry
    simp only [find, tails] at ih ⊢
    rw [List.filterMap_cons, List.find?_cons]
    cases key with
    | nil => simpa using ih
    | cons first rest =>
      by_cases hfirst : first = id
      · by_cases hrest : rest = ids
        · simp [hfirst, hrest]
        · simpa [hfirst, hrest] using ih
      · simpa [hfirst] using ih

theorem findEmpty_tailsAlong (trie : Trie Data) (ids : List ℕ) :
    (trie.tailsAlong ids).findEmpty = trie.find ids := by
  induction ids generalizing trie with
  | nil => rfl
  | cons id ids ih => exact (ih (trie.tails id)).trans (trie.find_tails id ids)

theorem tailsAlong_ne_nil {trie : Trie Data} {ids : List ℕ} {data : Data}
    (h : trie.find ids = some data) : trie.tailsAlong ids ≠ [] := by
  intro hnil
  rw [← findEmpty_tailsAlong, hnil] at h
  cases h

theorem mem_of_find {trie : Trie Data} {ids : List ℕ} {data : Data}
    (h : trie.find ids = some data) : (ids, data) ∈ trie := by
  obtain ⟨entry, hentry, rfl⟩ := Option.map_eq_some_iff.mp h
  have hkey : entry.1 = ids := by simpa using List.find?_some hentry
  rw [← hkey]
  exact List.mem_of_find?_eq_some hentry

end Trie

namespace GztTrie
variable (trie : GztTrie)

/-- The id and the word under which a word of the input is looked for. -/
inductive Reading (token : Token) : ℕ → InputWord → Prop
  | homoform {l : Lemma} {id : ℕ} (hl : l ∈ token.lemmas)
      (hid : WordId.checkAndForce false (trie.findWordId l.text) = some id) :
      Reading token id { lemma? := some l }
  | exactForm {id : ℕ}
      (hid : WordId.checkAndForce true (trie.findWordId token.exactForm) = some id) :
      Reading token id {}
  /-- The exact form is also a lemma, if no lemma has the same id. -/
  | exactFormAsLemma {id : ℕ}
      (hlemmas : ∀ l ∈ token.lemmas, trie.findWordId l.text ≠ trie.findWordId token.exactForm)
      (hid : WordId.checkAndForce false (trie.findWordId token.exactForm) = some id) :
      Reading token id {}
  | anyLemma {l : Lemma} (hany : trie.metaAnyWordId ≠ 0) (hl : l ∈ token.lemmas) :
      Reading token trie.metaAnyWordId (InputWord.anyWord (some l))
  | anyWord (hany : trie.metaAnyWordId ≠ 0) (hlemmas : token.lemmas = []) :
      Reading token trie.metaAnyWordId (InputWord.anyWord none)

/-- An article of a bucket accepts a phrase, and what is then left of the phrase. -/
def Accepts (bucket : ArticleBucket) (p : PhraseWords) (a : ℕ) (q : PhraseWords) : Prop :=
  (a ∈ trie.iterSimple bucket ∧ q = p) ∨
    ∃ f ∈ trie.iterFiltered bucket, f.articleId = a ∧ (trie.matchFilter f p []).1 = true ∧
      q = (trie.matchFilter f p []).2

/-- Adjacent words from `first` on can be read as a key with an article that accepts the reading. -/
def MatchesOn (input : List Token) (a first : ℕ) (q : PhraseWords) : Prop :=
  ∃ (before here after : List Token) (readings : List (ℕ × InputWord)) (bucket : ArticleBucket),
    input = before ++ (here ++ after) ∧ before.length = first ∧ here ≠ [] ∧
      List.Forall₂ (fun token r => trie.Reading token r.1 r.2) here readings ∧
      trie.phraseTrie.find (readings.map Prod.fst) = some bucket ∧
      trie.Accepts bucket ⟨input, first + here.length, readings.map Prod.snd⟩ a q

/-- The ids under which `TryAppendPlainWordId` looks for a word. -/
def plainReadings (doLemma doExact : Bool) (id : ℕ) (word : InputWord) : List (ℕ × InputWord) :=
  if id ≠ 0 then
    (if doExact then (WordId.checkAndForce true id).toList.map (·, word) else []) ++
      (if doLemma then (WordId.checkAndForce false id).toList.map (·, word) else [])
  else []

/-- The readings of a word, in the order of `TakeNextWord`. -/
def readings (token : Token) : List (ℕ × InputWord) :=
  let exactFormId := trie.findWordId token.exactForm
  let hasSameLemma := token.lemmas.any fun l =>
    decide (exactFormId ≠ 0 ∧ trie.findWordId l.text = exactFormId)
  token.lemmas.flatMap (fun l =>
      plainReadings true false (trie.findWordId l.text) { lemma? := some l }) ++
    plainReadings (!hasSameLemma) true exactFormId {} ++
    (if trie.metaAnyWordId ≠ 0 then
      if token.lemmas.isEmpty then [(trie.metaAnyWordId, InputWord.anyWord none)]
      else token.lemmas.map fun l => (trie.metaAnyWordId, InputWord.anyWord (some l))
    else [])

theorem checkAndForce_zero (exact : Bool) : WordId.checkAndForce exact 0 = none := by
  cases exact <;> rfl

theorem mem_plainReadings (doLemma doExact : Bool) (id : ℕ) (word : InputWord)
    (r : ℕ × InputWord) : r ∈ plainReadings doLemma doExact id word ↔
      r.2 = word ∧ ((doExact = true ∧ WordId.checkAndForce true id = some r.1) ∨
        (doLemma = true ∧ WordId.checkAndForce false id = some r.1)) := by
  obtain ⟨n, w⟩ := r
  by_cases hid : id = 0
  · simp [plainReadings, hid, checkAndForce_zero]
  · cases doLemma <;> cases doExact <;> simp [plainReadings, hid, Option.mem_toList] <;> grind

/-- The list of readings is complete. -/
theorem mem_readings (token : Token) (r : ℕ × InputWord) :
    r ∈ trie.readings token ↔ trie.Reading token r.1 r.2 := by
  obtain ⟨id, word⟩ := r
  simp only [readings, List.mem_append, List.mem_flatMap, mem_plainReadings]
  constructor
  · rintro ((⟨l, hl, rfl, hid⟩ | ⟨rfl, hid⟩) | hany)
    · rcases hid with ⟨hfalse, -⟩ | ⟨-, hid⟩
      · cases hfalse
      · exact Reading.homoform hl hid
    · rcases hid with ⟨-, hid⟩ | ⟨hsame, hid⟩
      · exact Reading.exactForm hid
      · apply Reading.exactFormAsLemma _ hid
        intro l hl heq
        rw [Bool.not_eq_true', List.any_eq_false] at hsame
        have hne : trie.findWordId token.exactForm ≠ 0 := by
          intro hzero
          rw [hzero, checkAndForce_zero] at hid
          cases hid
        exact hsame l hl (decide_eq_true ⟨hne, heq⟩)
    · by_cases hmeta : trie.metaAnyWordId ≠ 0
      · rw [if_pos hmeta] at hany
        split at hany
        · rename_i hlemmas
          cases List.mem_singleton.mp hany
          exact Reading.anyWord hmeta (List.isEmpty_iff.mp hlemmas)
        · obtain ⟨l, hl, heq⟩ := List.mem_map.mp hany
          cases heq
          exact Reading.anyLemma hmeta hl
      · rw [if_neg hmeta] at hany
        cases hany
  · intro h
    cases h with
    | homoform hl hid => exact Or.inl (Or.inl ⟨_, hl, rfl, Or.inr ⟨trivial, hid⟩⟩)
    | exactForm hid => exact Or.inl (Or.inr ⟨rfl, Or.inl ⟨trivial, hid⟩⟩)
    | exactFormAsLemma hlemmas hid =>
      refine Or.inl (Or.inr ⟨rfl, Or.inr ⟨?_, hid⟩⟩)
      rw [Bool.not_eq_true', List.any_eq_false]
      intro l hl hsame
      exact hlemmas l hl (of_decide_eq_true hsame).2
    | anyLemma hmeta hl =>
      rename_i l
      refine Or.inr ?_
      have hne : ¬ token.lemmas.isEmpty = true := by
        intro hempty
        rw [List.isEmpty_iff.mp hempty] at hl
        cases hl
      rw [if_pos hmeta, if_neg hne]
      exact List.mem_map_of_mem hl
    | anyWord hmeta hlemmas =>
      refine Or.inr ?_
      rw [if_pos hmeta, hlemmas]
      exact List.mem_singleton_self _

/-- A branch that goes on with a reading. -/
def extend (r : ℕ × InputWord) (b : Branch ArticleBucket) : Option (Branch ArticleBucket) :=
  (b.tails.findTails r.1).map fun tails => ⟨tails, b.words ++ [⟨r.2, 1⟩]⟩

def root : Branch ArticleBucket := ⟨trie.phraseTrie, []⟩

/-- All branches that go on with a word. -/
def extendAll (branches : List (Branch ArticleBucket)) (token : Token) :
    List (Branch ArticleBucket) :=
  (trie.readings token).flatMap fun r => (branches ++ [trie.root]).filterMap (extend r)

/-- The branches in progress after some words. -/
def branchesAfter (tokens : List Token) : List (Branch ArticleBucket) :=
  tokens.foldl trie.extendAll []

/-- The branch of some readings. -/
def branchOf (readings : List (ℕ × InputWord)) : Branch ArticleBucket :=
  ⟨trie.phraseTrie.tailsAlong (readings.map Prod.fst), readings.map fun r => ⟨r.2, 1⟩⟩

theorem extend_branchOf (readings : List (ℕ × InputWord)) (r : ℕ × InputWord)
    (b : Branch ArticleBucket) : extend r (trie.branchOf readings) = some b ↔
      b = trie.branchOf (readings ++ [r]) ∧ b.tails ≠ [] := by
  have hnext : trie.branchOf (readings ++ [r]) =
      ⟨(trie.branchOf readings).tails.tails r.1, (trie.branchOf readings).words ++ [⟨r.2, 1⟩]⟩ := by
    simp only [branchOf, List.map_append, List.map_cons, List.map_nil, Trie.tailsAlong_append]
    rfl
  rw [extend, Option.map_eq_some_iff, hnext]
  constructor
  · rintro ⟨tails, htails, rfl⟩
    obtain ⟨rfl, hne⟩ := Trie.findTails_eq_some.mp htails
    exact ⟨rfl, hne⟩
  · rintro ⟨rfl, hne⟩
    exact ⟨_, Trie.findTails_eq_some.mpr ⟨rfl, hne⟩, rfl⟩

theorem forall₂_concat {α β : Type} {R : α → β → Prop} {as : List α} {bs : List β} {a : α} {b : β} :
    List.Forall₂ R (as ++ [a]) (bs ++ [b]) ↔ List.Forall₂ R as bs ∧ R a b := by
  rw [← List.forall₂_reverse_iff, List.reverse_append, List.reverse_append]
  simp only [List.reverse_cons, List.reverse_nil, List.nil_append, List.cons_append,
    List.forall₂_cons, List.forall₂_reverse_iff]
  exact and_comm

/-- The branches in progress are the ways to read the last words along the trie. -/
theorem mem_branchesAfter (tokens : List Token) (b : Branch ArticleBucket) :
    b ∈ trie.branchesAfter tokens ↔
      ∃ (before here : List Token) (readings : List (ℕ × InputWord)),
        tokens = before ++ here ∧ here ≠ [] ∧
          List.Forall₂ (fun token r => trie.Reading token r.1 r.2) here readings ∧
          b = trie.branchOf readings ∧ b.tails ≠ [] := by
  induction tokens using List.reverseRecOn generalizing b with
  | nil =>
    constructor
    · intro h
      cases h
    · rintro ⟨before, here, readings, htokens, hne, -⟩
      exact absurd (List.append_eq_nil_iff.mp htokens.symm).2 hne
  | append_singleton tokens token ih =>
    have hroot : trie.root = trie.branchOf [] := rfl
    have hlast : trie.branchesAfter (tokens ++ [token]) =
        trie.extendAll (trie.branchesAfter tokens) token := by
      rw [branchesAfter, List.foldl_append]
      rfl
    rw [hlast, extendAll]
    simp only [List.mem_flatMap, List.mem_filterMap, List.mem_append, List.mem_singleton]
    constructor
    · rintro ⟨r, hr, b₀, hb₀ | rfl, hextend⟩
      · obtain ⟨before, here, readings, rfl, hne, hall, rfl, -⟩ := (ih b₀).mp hb₀
        obtain ⟨hb, htails⟩ := (trie.extend_branchOf readings r b).mp hextend
        exact ⟨before, here ++ [token], readings ++ [r], by simp, by simp,
          forall₂_concat.mpr ⟨hall, (trie.mem_readings token r).mp hr⟩, hb, htails⟩
      · rw [hroot] at hextend
        obtain ⟨hb, htails⟩ := (trie.extend_branchOf [] r b).mp hextend
        exact ⟨tokens, [token], [r], rfl, by simp,
          List.Forall₂.cons ((trie.mem_readings token r).mp hr) List.Forall₂.nil, hb, htails⟩
    · rintro ⟨before, here, readings, htokens, hne, hall, rfl, htails⟩
      rcases List.eq_nil_or_concat' here with rfl | ⟨here', last, rfl⟩
      · exact absurd rfl hne
      · rcases List.eq_nil_or_concat' readings with rfl | ⟨readings', r, rfl⟩
        · exact absurd hall.length_eq (by simp)
        · rw [← List.append_assoc] at htokens
          obtain ⟨rfl, hword⟩ := List.append_inj' htokens rfl
          cases hword
          obtain ⟨hall', hr⟩ := forall₂_concat.mp hall
          refine ⟨r, (trie.mem_readings token r).mpr hr, trie.branchOf readings', ?_,
            (trie.extend_branchOf readings' r _).mpr ⟨rfl, htails⟩⟩
          by_cases hnil : here' = []
          · subst hnil
            cases hall'
            exact Or.inr rfl
          · refine Or.inl ((ih _).mpr ⟨before, here', readings', rfl, hnil, hall', rfl, ?_⟩)
            intro hempty
            apply htails
            have hlong : (trie.branchOf (readings' ++ [r])).tails =
                (trie.branchOf readings').tails.tails r.1 := by
              simp only [branchOf, List.map_append, List.map_cons, List.map_nil,
                Trie.tailsAlong_append]
              rfl
            rw [hlong, hempty]
            rfl

end GztTrie

namespace SearchTree

theorem tryAppendId_eq (doLemma doExact : Bool) (t : SearchTree) (id : ℕ) (word : InputWord) :
    t.tryAppendId doLemma doExact id word =
      (GztTrie.plainReadings doLemma doExact id word).foldl (fun t r =>
        t.tryAppendWord r.1 r.2) t := by
  unfold tryAppendId GztTrie.plainReadings tryAppendPlainWordId tryAppendAs
  by_cases hid : id ≠ 0
  · rw [if_pos hid, if_pos hid, List.foldl_append]
    cases doExact <;> cases doLemma <;> cases WordId.checkAndForce true id <;>
      cases WordId.checkAndForce false id <;> rfl
  · rw [if_neg hid, if_neg hid]
    rfl

theorem takeNextWord_eq (trie : GztTrie) (token : Token) (t : SearchTree) :
    t.takeNextWord trie token = ((trie.readings token).foldl (fun t r => t.tryAppendWord r.1 r.2)
      (t.appendRoot trie.phraseTrie)).switchNextState := by
  have hmeta : ∀ t : SearchTree, t.tryAppendMetaAnyWord trie token =
      (if trie.metaAnyWordId ≠ 0 then
        if token.lemmas.isEmpty then [(trie.metaAnyWordId, InputWord.anyWord none)]
        else token.lemmas.map fun l => (trie.metaAnyWordId, InputWord.anyWord (some l))
      else []).foldl (fun t r => t.tryAppendWord r.1 r.2) t := by
    intro t
    unfold tryAppendMetaAnyWord
    split
    · split
      · rfl
      · rw [List.foldl_map]
    · rfl
  simp only [takeNextWord, hmeta, tryAppendId_eq, GztTrie.readings, List.foldl_append,
    List.foldl_flatMap]

/-- Without too many branches none is dropped. -/
theorem tryAppendWord_eq (branches next : List (Branch ArticleBucket)) (r : ℕ × InputWord)
    (h : (next ++ branches.filterMap (GztTrie.extend r)).length ≤ maxBranches) :
    (⟨branches, next⟩ : SearchTree).tryAppendWord r.1 r.2 =
      ⟨branches, next ++ branches.filterMap (GztTrie.extend r)⟩ := by
  have hloop : ∀ (l all next : List (Branch ArticleBucket)),
      (next ++ l.filterMap (GztTrie.extend r)).length ≤ maxBranches →
      l.foldl (tryAppendTo r.1 r.2) (⟨all, next⟩ : SearchTree) =
      ⟨all, next ++ l.filterMap (GztTrie.extend r)⟩ := by
    intro l all
    induction l with
    | nil =>
      intro next _
      simp
    | cons b l ih =>
      intro next hnext
      rw [List.foldl_cons]
      rw [List.filterMap_cons] at hnext ⊢
      cases htails : b.tails.findTails r.1 with
      | none =>
        have hextend : GztTrie.extend r b = none := by rw [GztTrie.extend, htails]; rfl
        rw [hextend] at hnext ⊢
        rw [tryAppendTo_none htails]
        exact ih next hnext
      | some tails =>
        have hextend : GztTrie.extend r b = some ⟨tails, b.words ++ [⟨r.2, 1⟩]⟩ := by
          rw [GztTrie.extend, htails]
          rfl
        rw [hextend] at hnext ⊢
        have hsmall : ¬ maxBranches < next.length := by
          rw [List.length_append] at hnext
          omega
        have hadd : (⟨all, next⟩ : SearchTree).addNextStateNewBranch b tails r.2 =
            ⟨all, next ++ [⟨tails, b.words ++ [⟨r.2, 1⟩]⟩]⟩ := by
          simp only [addNextStateNewBranch, if_neg hsmall]
        have hrest := ih (next ++ [⟨tails, b.words ++ [⟨r.2, 1⟩]⟩]) (by
          rw [List.append_assoc]
          exact hnext)
        rw [tryAppendTo_some htails]
        simp only [hadd, hrest, List.append_assoc, List.cons_append, List.nil_append]
  rw [tryAppendWord]
  exact hloop branches branches next h

theorem foldl_tryAppendWord (branches next : List (Branch ArticleBucket))
    (readings : List (ℕ × InputWord))
    (h : (next ++ readings.flatMap fun r => branches.filterMap (GztTrie.extend r)).length ≤
      maxBranches) :
    readings.foldl (fun t r => t.tryAppendWord r.1 r.2) (⟨branches, next⟩ : SearchTree) =
      ⟨branches, next ++ readings.flatMap fun r => branches.filterMap (GztTrie.extend r)⟩ := by
  induction readings generalizing next with
  | nil => simp
  | cons r readings ih =>
    rw [List.flatMap_cons, ← List.append_assoc] at h ⊢
    rw [List.foldl_cons, tryAppendWord_eq branches next r, ih _ h]
    rw [List.length_append] at h
    omega

theorem takeNextWord_branches (trie : GztTrie) (token : Token)
    (branches : List (Branch ArticleBucket))
    (h : (trie.extendAll branches token).length ≤ maxBranches) :
    (⟨branches, []⟩ : SearchTree).takeNextWord trie token =
    ⟨trie.extendAll branches token, []⟩ := by
  have hall := foldl_tryAppendWord (branches ++ [trie.root]) [] (trie.readings token)
    (by rw [List.nil_append]; exact h)
  rw [takeNextWord_eq]
  exact congrArg switchNextState hall

end SearchTree

namespace GztTrie
variable {trie : GztTrie}

theorem Reading.fresh {token : Token} {id : ℕ} {word : InputWord} (h : trie.Reading token id word) :
    word.badHomoforms = word.initialBadHomoforms := by
  cases h <;> rfl

theorem fresh_readings {here : List Token} {readings : List (ℕ × InputWord)}
    (h : List.Forall₂ (fun token r => trie.Reading token r.1 r.2) here readings) :
    ∀ r ∈ readings, r.2.badHomoforms = r.2.initialBadHomoforms := by
  induction h with
  | nil => simp
  | cons hfirst _ ih =>
    intro r hr
    rcases List.mem_cons.mp hr with rfl | hr
    · exact hfirst.fresh
    · exact ih r hr

theorem Accepts.resetGrammems {bucket : ArticleBucket} {p q : PhraseWords} {a : ℕ}
    (h : trie.Accepts bucket p a q) : q.resetGrammems = p.resetGrammems := by
  rcases h with ⟨-, rfl⟩ | ⟨f, -, -, -, rfl⟩
  · rfl
  · exact trie.resetGrammems_matchFilter f p []

/-- The hits of a branch are the articles of its key that accept the reading. -/
theorem mem_branchHits (input : List Token) (wordCount : ℕ) {readings : List (ℕ × InputWord)}
    (hfresh : ∀ r ∈ readings, r.2.badHomoforms = r.2.initialBadHomoforms) (hit : Hit) :
    hit ∈ PhraseSearch.branchHits trie input wordCount (trie.branchOf readings) ↔
      ∃ bucket, trie.phraseTrie.find (readings.map Prod.fst) = some bucket ∧
        trie.Accepts bucket ⟨input, wordCount, readings.map Prod.snd⟩ hit.1 hit.2 := by
  obtain ⟨a, q⟩ := hit
  have hfinal : (trie.branchOf readings).getFinalData =
      trie.phraseTrie.find (readings.map Prod.fst) := Trie.findEmpty_tailsAlong _ _
  have hcopy : (trie.branchOf readings).copyTo = (readings.map Prod.snd, []) := by
    rw [Branch.copyTo_single]
    · simp [branchOf, Function.comp_def]
    · intro w hw
      obtain ⟨r, -, rfl⟩ := List.mem_map.mp hw
      rfl
  have hreset : (⟨input, wordCount, readings.map Prod.snd⟩ : PhraseWords).resetGrammems =
      ⟨input, wordCount, readings.map Prod.snd⟩ := by
    apply PhraseWords.resetGrammems_fresh
    intro w hw
    obtain ⟨r, hr, rfl⟩ := List.mem_map.mp hw
    exact hfresh r hr
  unfold PhraseSearch.branchHits PhraseCursor.ofBranch
  rw [hfinal, hcopy]
  cases hbucket : trie.phraseTrie.find (readings.map Prod.fst) with
  | none => simp
  | some bucket =>
    simp only [Option.map_some, Option.getD_some, PhraseCursor.hits,
      PhraseCursor.filterHits, hreset,
      List.mem_append, List.mem_map, List.mem_filterMap, Option.some.injEq, Prod.mk.injEq,
      exists_eq_left', Accepts]
    apply or_congr
    · constructor
      · rintro ⟨id, hid, rfl, rfl⟩
        exact ⟨hid, rfl⟩
      · rintro ⟨hid, rfl⟩
        exact ⟨a, hid, rfl, rfl⟩
    · apply exists_congr
      intro f
      apply and_congr_right
      intro _
      split
      · rename_i hmatch
        simp only [Option.some.injEq, Prod.mk.injEq, hmatch, true_and]
        exact and_congr_right fun _ => eq_comm
      · rename_i hmatch
        simp [hmatch]

/-- No more branches than `MAX_BRANCHES` are ever pending. -/
def FewBranches (trie : GztTrie) (input : List Token) : Prop :=
  ∀ tokens, tokens <+: input → (trie.branchesAfter tokens).length ≤ SearchTree.maxBranches

/-- The hits of the words that are not read, word by word. -/
theorem mem_unreadHits (input before unread : List Token)
    (hfew : trie.FewBranches (before ++ unread)) (hit : Hit) :
    hit ∈ PhraseSearch.unreadHits trie input unread before.length ⟨trie.branchesAfter before, []⟩ ↔
      ∃ (tokens after : List Token) (token : Token), unread = tokens ++ token :: after ∧
        ∃ b ∈ trie.branchesAfter (before ++ (tokens ++ [token])),
          hit ∈ PhraseSearch.branchHits trie input (before.length + (tokens.length + 1)) b := by
  induction unread generalizing before with
  | nil => simp [PhraseSearch.unreadHits]
  | cons first unread ih =>
    have hnext : trie.branchesAfter (before ++ [first]) =
        trie.extendAll (trie.branchesAfter before) first := by
      rw [branchesAfter, List.foldl_append]
      rfl
    have hprefix : before ++ [first] <+: before ++ first :: unread :=
      ⟨unread, by simp⟩
    have hlength := hfew _ hprefix
    rw [hnext] at hlength
    have hrest := ih (before ++ [first]) (by
      rw [List.append_assoc]
      exact hfew)
    rw [PhraseSearch.unreadHits, SearchTree.takeNextWord_branches trie first _ hlength, ← hnext]
    rw [List.length_append, List.length_singleton] at hrest
    rw [List.mem_append, hrest, List.mem_flatMap]
    constructor
    · rintro (⟨b, hb, hhit⟩ | ⟨tokens, after, token, rfl, b, hb, hhit⟩)
      · exact ⟨[], unread, first, rfl, b, hb, hhit⟩
      · refine ⟨first :: tokens, after, token, rfl, b, ?_, ?_⟩
        · rw [List.append_assoc] at hb
          exact hb
        · rw [show before.length + ((first :: tokens).length + 1) =
            before.length + 1 + (tokens.length + 1) by
              simp only [List.length_cons]
              omega]
          exact hhit
    · rintro ⟨tokens, after, token, hunread, b, hb, hhit⟩
      cases tokens with
      | nil =>
        cases hunread
        exact Or.inl ⟨b, hb, hhit⟩
      | cons first' tokens =>
        cases hunread
        refine Or.inr ⟨tokens, after, token, rfl, b, ?_, ?_⟩
        · rw [List.append_assoc]
          exact hb
        · rw [show before.length + 1 + (tokens.length + 1) =
            before.length + ((first :: tokens).length + 1) by
              simp only [List.length_cons]
              omega]
          exact hhit

/-- The phrase search finds the readings that are keys, and nothing else. -/
theorem mem_hits (input : List Token) (hfew : trie.FewBranches input) (hit : Hit) :
    hit ∈ (SearchWork.initial trie input).hits ↔ ∃ first,
      trie.MatchesOn input hit.1 first hit.2 := by
  have hunread := @mem_unreadHits trie input [] input hfew hit
  show hit ∈ PhraseSearch.unreadHits trie input input 0 {} ↔ _
  rw [show PhraseSearch.unreadHits trie input input 0 {} =
    PhraseSearch.unreadHits trie input input ([] : List Token).length ⟨trie.branchesAfter [], []⟩
    from rfl, hunread]
  constructor
  · rintro ⟨tokens, after, token, hinput, b, hb, hhit⟩
    obtain ⟨before, here, readings, htokens, hne, hall, rfl, -⟩ :=
      (trie.mem_branchesAfter _ b).mp hb
    obtain ⟨bucket, hbucket, haccepts⟩ :=
      (mem_branchHits input _ (fresh_readings hall) hit).mp hhit
    have hcount : ([] : List Token).length + (tokens.length + 1) = before.length + here.length := by
      have := congrArg List.length htokens
      simp only [List.nil_append, List.length_append, List.length_singleton] at this
      simpa using this
    rw [hcount] at haccepts
    refine ⟨before.length, before, here, after, readings, bucket, ?_, rfl, hne, hall,
      hbucket, haccepts⟩
    rw [hinput, ← List.append_assoc, ← htokens]
    simp
  · rintro ⟨first, before, here, after, readings, bucket, hinput, rfl, hne, hall, hbucket, haccepts⟩
    rcases List.eq_nil_or_concat' here with rfl | ⟨here', last, rfl⟩
    · exact absurd rfl hne
    · refine ⟨before ++ here', after, last, by rw [hinput]; simp, trie.branchOf readings, ?_, ?_⟩
      · exact (trie.mem_branchesAfter _ _).mpr ⟨before, here' ++ [last], readings, by simp, hne,
          hall, rfl,
          Trie.tailsAlong_ne_nil hbucket⟩
      · rw [show ([] : List Token).length + ((before ++ here').length + 1) =
          before.length + (here' ++ [last]).length by
            simp only [List.length_append, List.length_nil, List.length_singleton]
            omega]
        exact (mem_branchHits input _ (fresh_readings hall) hit).mpr ⟨bucket, hbucket, haccepts⟩

/-- No key is compound, so that no article is fake. -/
structure PhraseOnly (trie : GztTrie) : Prop where
  compound : trie.compoundTrie = []
  simple : ∀ key ∈ trie.phraseTrie, ∀ a ∈ trie.iterSimple key.2, isFakeArticle a = false
  filtered : ∀ key ∈ trie.phraseTrie, ∀ f ∈ trie.iterFiltered key.2,
    isFakeArticle f.articleId = false

theorem PhraseOnly.real {input : List Token} (h : trie.PhraseOnly) {a first : ℕ} {q : PhraseWords}
    (hmatches : trie.MatchesOn input a first q) : isFakeArticle a = false := by
  obtain ⟨before, here, after, readings, bucket, -, -, -, -, hbucket, haccepts⟩ := hmatches
  have hkey := Trie.mem_of_find hbucket
  rcases haccepts with ⟨ha, -⟩ | ⟨f, hf, rfl, -⟩
  · exact h.simple _ hkey a ha
  · exact h.filtered _ hkey f hf

theorem ticks_hits (hcompound : trie.compoundTrie = []) (input : List Token) (hits : List Hit)
    (hreal : ∀ hit ∈ hits, isFakeArticle hit.1 = false) (tree : CompoundTree) (next now : ℕ)
    (hbranches : tree.branches = []) :
    ∃ last, SearchWork.Ticks trie hits.length ⟨input, hits, [], tree, next, now⟩
      (hits.map fun hit => ⟨hit.1, hit.2, false⟩) last ∧ last.tick trie = none := by
  induction hits generalizing tree now with
  | nil =>
    refine ⟨_, SearchWork.Ticks.refl _, ?_⟩
    simp only [SearchWork.tick, hbranches, List.getElem?_nil]
  | cons hit hits ih =>
    have hfake := hreal hit List.mem_cons_self
    have helement : trie.isCompoundElement hit.1 = false := by
      rw [isCompoundElement, hcompound]
      rfl
    let tree' : CompoundTree := { tree with article := some ⟨hit.1, hit.2, false⟩ }
    have htick : (⟨input, hit :: hits, [], tree, next, now⟩ : SearchWork).tick trie =
        some (true, ⟨input, hits, [], tree', next, hit.2.wordCount⟩) := by
      simp only [SearchWork.tick, hbranches, List.getElem?_nil, SearchWork.takeHit, helement, hfake,
        Bool.false_eq_true, if_false, tree']
    obtain ⟨last, hticks, hlast⟩ := ih (fun hit' hmem => hreal hit' (List.mem_cons_of_mem _ hmem))
      tree' hit.2.wordCount hbranches
    exact ⟨last, SearchWork.Ticks.step htick hticks, hlast⟩

theorem yields_iff_hits (hphrases : trie.PhraseOnly) (input : List Token)
    (hfew : trie.FewBranches input) (found : List FoundArticle) :
    ArticleIter.Yields trie input found ↔
      found = (SearchWork.initial trie input).hits.map fun hit => ⟨hit.1, hit.2, false⟩ := by
  have hreal : ∀ hit ∈ (SearchWork.initial trie input).hits, isFakeArticle hit.1 = false := by
    intro hit hhit
    obtain ⟨first, hmatches⟩ := (mem_hits input hfew hit).mp hhit
    exact hphrases.real hmatches
  obtain ⟨last, hticks, hlast⟩ := ticks_hits hphrases.compound input
    (SearchWork.initial trie input).hits hreal {} 0 0 rfl
  rw [yields_iff_ticks]
  constructor
  · rintro ⟨k, last', hticks', hlast'⟩
    obtain ⟨m, rest, -, hfound, hm⟩ := hticks'.rest hticks hlast
    cases hm with
    | refl => rw [hfound, List.append_nil]
    | step hstep _ =>
      rw [hlast'] at hstep
      cases hstep
  · rintro rfl
    exact ⟨_, last, hticks, hlast⟩

theorem mem_found_iff (input : List Token) (hfew : trie.FewBranches input) (x : FoundArticle) :
    x ∈ (SearchWork.initial trie input).hits.map (fun hit => ⟨hit.1, hit.2, false⟩) ↔
      x.isCompound = false ∧ ∃ first, trie.MatchesOn input x.articleId first x.words := by
  rw [List.mem_map]
  constructor
  · rintro ⟨hit, hhit, rfl⟩
    exact ⟨rfl, (mem_hits input hfew hit).mp hhit⟩
  · rintro ⟨hcompound, hmatches⟩
    refine ⟨(x.articleId, x.words), (mem_hits input hfew _).mpr hmatches, ?_⟩
    cases x
    cases hcompound
    rfl

theorem MatchesOn.pos {input : List Token} {a first : ℕ} {q : PhraseWords}
    (h : trie.MatchesOn input a first q) (hkeys : ∀ key ∈ trie.phraseTrie, key.1.length ≤ 255) :
    q.pos = first := by
  obtain ⟨before, here, after, readings, bucket, -, -, -, hall, hbucket, haccepts⟩ := h
  have hreset := haccepts.resetGrammems
  have hwords := congrArg List.length (PhraseWords.mk.inj hreset).2.2
  have hcount : q.wordCount = first + here.length := (PhraseWords.mk.inj hreset).2.1
  have hlength := hall.length_eq
  have hshort := hkeys _ (Trie.mem_of_find hbucket)
  simp only [List.length_map] at hwords hshort
  rw [PhraseWords.pos, hcount, hwords, Nat.mod_eq_of_lt (by omega)]
  omega

/-- The phrase search is exact if no key is longer than a reverse word number can tell. -/
theorem phraseSearch_exact (trie : GztTrie) (input : List Token) (hphrases : trie.PhraseOnly)
    (hfew : trie.FewBranches input) (hkeys : ∀ key ∈ trie.phraseTrie, key.1.length ≤ 255) :
    ∃ found, ArticleIter.Yields trie input found ∧ ∀ x, x ∈ found ↔
      x.isCompound = false ∧ trie.MatchesOn input x.articleId x.words.pos x.words := by
  refine ⟨_, (yields_iff_hits hphrases input hfew _).mpr rfl, ?_⟩
  intro x
  rw [mem_found_iff input hfew]
  apply and_congr_right
  intro _
  constructor
  · rintro ⟨first, hmatches⟩
    rw [hmatches.pos hkeys]
    exact hmatches
  · intro hmatches
    exact ⟨_, hmatches⟩

/-- One simple article, for the key of so many times the same word. -/
def repeatedTrie (count : ℕ) : GztTrie where
  wordTrie _ := some 5
  phraseTrie := [(List.replicate count 5, ⟨0, 1⟩)]
  articleFilter := ⟨{}, {}, {}, {}, {}, {}, {}, {}, {}, {}, { items := [7] }, 0⟩
  tables := ⟨fun _ => false, fun _ => false, fun _ => false, fun g _ => g, fun _ _ => true⟩

def repeatedWord : Token := ⟨"a", ['a'], []⟩

theorem repeatedTrie_exactForm (count : ℕ) :
    WordId.checkAndForce true ((repeatedTrie count).findWordId repeatedWord.exactForm) =
      some 5 := by
  show WordId.checkAndForce true 5 = some 5
  decide

theorem repeatedTrie_readings (count : ℕ) : (repeatedTrie count).readings repeatedWord =
    [(5, {})] := by
  have hlemma : WordId.checkAndForce false 5 = none := by decide
  have hexact : WordId.checkAndForce true 5 = some 5 := by decide
  simp [readings, repeatedWord, plainReadings, findWordId, repeatedTrie, hlemma, hexact]

theorem repeatedTrie_iterSimple (count : ℕ) : (repeatedTrie count).iterSimple ⟨0, 1⟩ = [7] := by
  simp [iterSimple, repeatedTrie, CompactStorageBuilder.get, CompactStorageBuilder.isSingleItem,
    CompactStorageBuilder.getItem]

theorem repeatedTrie_iterFiltered (count : ℕ) : (repeatedTrie count).iterFiltered ⟨0, 1⟩ = [] := by
  simp [iterFiltered, repeatedTrie, CompactStorageBuilder.get, CompactStorageBuilder.isSingleItem,
    CompactStorageBuilder.getItemSet]

theorem repeatedTrie_phraseOnly (count : ℕ) : (repeatedTrie count).PhraseOnly where
  compound := rfl
  simple := by
    intro key hkey a ha
    cases List.mem_singleton.mp hkey
    rw [repeatedTrie_iterSimple] at ha
    cases List.mem_singleton.mp ha
    rfl
  filtered := by
    intro key hkey f hf
    cases List.mem_singleton.mp hkey
    rw [repeatedTrie_iterFiltered] at hf
    cases hf

theorem fewBranches_replicate {token : Token} (hreadings : (trie.readings token).length = 1)
    (words : ℕ) (h : words ≤ SearchTree.maxBranches) :
    trie.FewBranches (List.replicate words token) := by
  obtain ⟨r, hr⟩ := List.length_eq_one_iff.mp hreadings
  -- each word adds one branch at most
  have hlength : ∀ n, (trie.branchesAfter (List.replicate n token)).length ≤ n := by
    intro n
    induction n with
    | zero => exact le_rfl
    | succ n ih =>
      rw [List.replicate_succ', branchesAfter, List.foldl_append]
      show (trie.extendAll _ token).length ≤ n + 1
      rw [extendAll, hr, List.flatMap_cons, List.flatMap_nil, List.append_nil]
      refine (List.length_filterMap_le _ _).trans ?_
      rw [List.length_append, List.length_singleton]
      exact Nat.succ_le_succ ih
  intro tokens htokens
  have hle := htokens.length_le
  rw [List.length_replicate] at hle
  rw [List.prefix_iff_eq_take.mp htokens, List.take_replicate, Nat.min_eq_left hle]
  exact (hlength tokens.length).trans (hle.trans h)

theorem repeatedTrie_fewBranches (count words : ℕ) (h : words ≤ SearchTree.maxBranches) :
    (repeatedTrie count).FewBranches (List.replicate words repeatedWord) :=
  fewBranches_replicate (by rw [repeatedTrie_readings]; rfl) words h

theorem repeatedTrie_matchesOn (count : ℕ) (h : 0 < count) :
    (repeatedTrie count).MatchesOn (List.replicate count repeatedWord) 7 0
      ⟨List.replicate count repeatedWord, count, List.replicate count {}⟩ := by
  have hall : ∀ n, List.Forall₂ (fun token r => (repeatedTrie count).Reading token r.1 r.2)
      (List.replicate n repeatedWord) (List.replicate n (5, {})) := by
    intro n
    induction n with
    | zero => exact List.Forall₂.nil
    | succ n ih => exact List.Forall₂.cons (Reading.exactForm (repeatedTrie_exactForm count)) ih
  refine ⟨[], List.replicate count repeatedWord, [], List.replicate count (5, {}),
    ⟨0, 1⟩, by simp, rfl,
    ?_, hall count, ?_, Or.inl ⟨?_, ?_⟩⟩
  · simpa using h.ne'
  · simp [Trie.find, repeatedTrie]
  · rw [repeatedTrie_iterSimple]
    exact List.mem_singleton_self 7
  · simp

theorem phraseSearch_exact_repeatedTrie :
    ∃ found, ArticleIter.Yields (repeatedTrie 2) (List.replicate 2 repeatedWord) found ∧
      ∀ x, x ∈ found ↔ x.isCompound = false ∧
        (repeatedTrie 2).MatchesOn (List.replicate 2 repeatedWord) x.articleId x.words.pos
          x.words :=
  phraseSearch_exact (repeatedTrie 2) (List.replicate 2 repeatedWord) (repeatedTrie_phraseOnly 2)
    (repeatedTrie_fewBranches 2 2 (by decide)) (by
      intro key hkey
      cases List.mem_singleton.mp hkey
      decide)

/-- A key of 256 words is found behind its words. -/
theorem repeatedTrie_not_exact :
    (repeatedTrie 256).PhraseOnly ∧
      (repeatedTrie 256).FewBranches (List.replicate 256 repeatedWord) ∧
      ¬ ∃ found, ArticleIter.Yields (repeatedTrie 256) (List.replicate 256 repeatedWord) found ∧
        ∀ x, x ∈ found ↔ x.isCompound = false ∧
          (repeatedTrie 256).MatchesOn (List.replicate 256 repeatedWord) x.articleId x.words.pos
            x.words := by
  have hphrases := repeatedTrie_phraseOnly 256
  have hfew := repeatedTrie_fewBranches 256 256 (by decide)
  refine ⟨hphrases, hfew, ?_⟩
  rintro ⟨found, hyields, hexact⟩
  let x : FoundArticle :=
    ⟨7, ⟨List.replicate 256 repeatedWord, 256, List.replicate 256 {}⟩, false⟩
  have hx : x ∈ found := by
    rw [(yields_iff_hits hphrases _ hfew found).mp hyields]
    exact (mem_found_iff _ hfew x).mpr ⟨rfl, 0, repeatedTrie_matchesOn 256 (by decide)⟩
  obtain ⟨-, before, here, after, readings, bucket, hinput, hfirst, hne, -⟩ := (hexact x).mp hx
  have hpos : x.words.pos = 256 := by
    rw [PhraseWords.pos, List.length_replicate]
    rfl
  have hlength := congrArg List.length hinput
  have hhere := List.length_pos_iff.mpr hne
  simp only [List.length_replicate, List.length_append] at hlength
  omega

end GztTrie
end TomitaParser.Gzt
