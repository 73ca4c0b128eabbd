import TomitaParser.Gzt.PhraseExact
/-! # Compound articles on spans

A compound article stands on adjacent spans on which the articles of one of its keys are found. A
search tree of compound keys has a branch for each way to begin a key, and an article that is found
makes the branches that end where it begins go on. -/

namespace TomitaParser.Gzt

/-- An article on the words from `first` up to `last`. -/
structure ArticleSpan where
  articleId : ℕ
  first : ℕ
  last : ℕ
deriving DecidableEq

/-- The span on which an article is shown. -/
def FoundArticle.span (x : FoundArticle) : ArticleSpan :=
  ⟨x.articleId, x.words.pos, x.words.pos + x.words.words.length⟩

/-- Spans that follow each other. -/
def Adjacent : List ArticleSpan → ℕ → ℕ → Prop
  | [], first, last => first = last
  | s :: rest, first, last => s.first = first ∧ Adjacent rest s.last last

theorem adjacent_concat (chain : List ArticleSpan) (s : ArticleSpan) (first last : ℕ) :
    Adjacent (chain ++ [s]) first last ↔ Adjacent chain first s.first ∧ s.last = last := by
  induction chain generalizing first with
  | nil => exact and_congr_left fun _ => eq_comm
  | cons x chain ih =>
    simp only [List.cons_append, Adjacent, ih, and_assoc]

/-- The articles of a bucket of the compound trie. -/
inductive FoundOn (trie : GztTrie) (phrases : ArticleSpan → Prop) : ArticleSpan → Prop
  | phrase {s : ArticleSpan} (h : phrases s) : FoundOn trie phrases s
  | compound {s : ArticleSpan} {chain : List ArticleSpan} {bucket : ArticleBucket}
      (hchain : ∀ x ∈ chain, FoundOn trie phrases x) (hadjacent : Adjacent chain s.first s.last)
      (hne : chain ≠ [])
      (hkey : trie.compoundTrie.find (chain.map (·.articleId)) = some bucket)
      (ha : s.articleId ∈ trie.iterSimple bucket) : FoundOn trie phrases s

/-- A compound article stands on the words of the articles of a key. -/
def CompoundOn (trie : GztTrie) (phrases : ArticleSpan → Prop) (s : ArticleSpan) : Prop :=
  ∃ (chain : List ArticleSpan) (bucket : ArticleBucket), (∀ x ∈ chain, FoundOn trie phrases x) ∧
    Adjacent chain s.first s.last ∧ chain ≠ [] ∧
    trie.compoundTrie.find (chain.map (·.articleId)) = some bucket ∧
    s.articleId ∈ trie.iterSimple bucket

theorem CompoundOn.foundOn {trie : GztTrie} {phrases : ArticleSpan → Prop} {s : ArticleSpan}
    (h : CompoundOn trie phrases s) : FoundOn trie phrases s := by
  obtain ⟨chain, bucket, hchain, hadjacent, hne, hkey, ha⟩ := h
  exact FoundOn.compound hchain hadjacent hne hkey ha

namespace CompoundTree

/-- A branch that goes on with an article. -/
def extend (id : ℕ) (words : List InputWord) (source : Branch ArticleBucket) :
    Option (Branch ArticleBucket) :=
  (source.tails.findTails id).map fun tails => ⟨tails, source.words ++ words.map (⟨·, 1⟩)⟩

/-- The tree with more branches that end at a position. -/
def appendAll (t : CompoundTree) (added : List (Branch ArticleBucket)) (last : ℕ) : CompoundTree :=
  { t with branches := t.branches ++ added,
           positionIndex := fun p =>
             if p = last then t.positionIndex p ++ List.range' t.branches.length added.length
             else t.positionIndex p }

theorem tryAppendTo_eq (source : Branch ArticleBucket) (id : ℕ) (words : List InputWord) (last : ℕ)
    (t : CompoundTree) :
    t.tryAppendTo source id words last = t.appendAll (extend id words source).toList last := by
  unfold tryAppendTo extend appendAll
  cases source.tails.findTails id with
  | none =>
    simp only [Option.map_none, Option.toList_none, List.append_nil, List.length_nil,
      List.range'_zero, ite_self]
  | some tails => rfl

theorem appendAll_appendAll (t : CompoundTree) (a b : List (Branch ArticleBucket)) (last : ℕ) :
    (t.appendAll a last).appendAll b last = t.appendAll (a ++ b) last := by
  unfold appendAll
  simp only [List.append_assoc, List.length_append]
  congr 1
  funext p
  split
  · rw [List.append_assoc, ← List.range'_append_1]
  · rfl

/-- The branches that an article goes on: the root, and those that end where it begins. -/
def sources (trie : GztTrie) (t : CompoundTree) (first : ℕ) : List (Branch ArticleBucket) :=
  ⟨trie.compoundTrie, []⟩ :: (t.positionIndex first).filterMap (t.branches[·]?)

theorem foldl_tryAppendTo (id : ℕ) (words : List InputWord) (last : ℕ)
    (sources : List (Branch ArticleBucket)) (t : CompoundTree) :
    sources.foldl (fun t s => t.tryAppendTo s id words last) t =
      t.appendAll (sources.filterMap (extend id words)) last := by
  induction sources generalizing t with
  | nil =>
    simp only [List.foldl_nil, List.filterMap_nil, appendAll, List.append_nil, List.length_nil,
      List.range'_zero, ite_self]
  | cons s rest ih =>
    rw [List.foldl_cons, ih, tryAppendTo_eq, appendAll_appendAll, List.filterMap_cons]
    cases extend id words s <;> rfl

/-- All branches that go on are added at once. -/
theorem tryAppendSequence_eq (trie : GztTrie) (id : ℕ) {words : List InputWord} (first : ℕ)
    {t : CompoundTree} (hwords : words ≠ [])
    (hindex : ∀ k ∈ t.positionIndex first, k < t.branches.length) :
    t.tryAppendSequence trie id words first =
      t.appendAll ((t.sources trie first).filterMap (extend id words)) (first + words.length) := by
  have hlast : first ≠ first + words.length := by
    have := List.length_pos_iff.mpr hwords
    omega
  -- the branches that are there keep their places while others are added behind them
  have hloop : ∀ (indices : List ℕ) (added : List (Branch ArticleBucket)),
      (∀ k ∈ indices, k < t.branches.length) →
      indices.foldl (tryAppendAt id words (first + words.length))
        (t.appendAll added (first + words.length)) =
      (indices.filterMap (t.branches[·]?)).foldl
        (fun t s => t.tryAppendTo s id words (first + words.length))
        (t.appendAll added (first + words.length)) := by
    intro indices
    induction indices with
    | nil =>
      intro added _
      rfl
    | cons k indices ih =>
      intro added hk
      have hlt := hk k List.mem_cons_self
      have hplace : (t.appendAll added (first + words.length)).branches[k]? = t.branches[k]? :=
        List.getElem?_append_left hlt
      rw [List.foldl_cons, List.filterMap_cons, tryAppendAt, hplace]
      cases hb : t.branches[k]? with
      | none => exact ih added fun k' hk' => hk k' (List.mem_cons_of_mem _ hk')
      | some b =>
        simp only [List.foldl_cons, tryAppendTo_eq, appendAll_appendAll]
        simp only [← tryAppendTo_eq] at ih ⊢
        exact ih _ fun k' hk' => hk k' (List.mem_cons_of_mem _ hk')
  have hstart : (t.tryAppendTo ⟨trie.compoundTrie, []⟩ id words
    (first + words.length)).positionIndex
      first = t.positionIndex first := by
    rw [tryAppendTo_eq]
    exact if_neg hlast
  unfold tryAppendSequence
  dsimp only
  rw [hstart, tryAppendTo_eq, hloop _ _ hindex, ← tryAppendTo_eq, sources, ← foldl_tryAppendTo,
    List.foldl_cons]

theorem appendAll_branches_left {t : CompoundTree} {added : List (Branch ArticleBucket)}
    {last k : ℕ}
    (hk : k < t.branches.length) : (t.appendAll added last).branches[k]? = t.branches[k]? :=
  List.getElem?_append_left hk

theorem mem_positionIndex_appendAll {t : CompoundTree} {added : List (Branch ArticleBucket)}
    {last k : ℕ} (hk : k < t.branches.length) (p : ℕ) :
    k ∈ (t.appendAll added last).positionIndex p ↔ k ∈ t.positionIndex p := by
  simp only [appendAll]
  split
  · rw [List.mem_append, List.mem_range'_1]
    constructor
    · rintro (h | h)
      · exact h
      · omega
    · exact Or.inl
  · rfl

end CompoundTree

section Trees
variable (trie : GztTrie) (phrases : ArticleSpan → Prop)

/-- A branch stands on found articles that follow each other. -/
structure BranchOn (b : Branch ArticleBucket) (chain : List ArticleSpan)
    (first last : ℕ) : Prop where
  found : ∀ x ∈ chain, FoundOn trie phrases x
  adjacent : Adjacent chain first last
  ne : chain ≠ []
  tails : b.tails = trie.compoundTrie.tailsAlong (chain.map (·.articleId))
  length : first + b.words.length = last
  single : ∀ w ∈ b.words, w.multitokenSize = 1

/-- The branches of a tree when `now` words are read and `next` branches are taken from the queue.
-/
structure TreeReady (now next : ℕ) (t : CompoundTree) : Prop where
  branch : ∀ k b, t.branches[k]? = some b → ∃ chain first last,
    BranchOn trie phrases b chain first last ∧ k ∈ t.positionIndex last ∧ last ≤ now ∧
      (next ≤ k → last = now)
  unique : ∀ k p q, k ∈ t.positionIndex p → k ∈ t.positionIndex q → p = q
  lt : ∀ k p, k ∈ t.positionIndex p → k < t.branches.length

/-- A branch for some ids on a span. -/
def HasBranch (t : CompoundTree) (ids : List ℕ) (first last : ℕ) : Prop :=
  ∃ k b, t.branches[k]? = some b ∧ b.tails = trie.compoundTrie.tailsAlong ids ∧
    first + b.words.length = last ∧ k ∈ t.positionIndex last

/-- An article goes on all branches that end where it begins. -/
structure GoesOn (t : CompoundTree) (now : ℕ) (s : ArticleSpan) : Prop where
  lt : s.first < s.last
  le : s.last ≤ now
  branch : ∀ ids first, HasBranch trie t ids first s.first ∨ ids = [] ∧ first = s.first →
    trie.compoundTrie.tailsAlong (ids ++ [s.articleId]) ≠ [] →
    HasBranch trie t (ids ++ [s.articleId]) first s.last

variable {trie phrases}

/-- The branches that an article adds. -/
theorem mem_extensions {t : CompoundTree} {now next : ℕ} (h : TreeReady trie phrases now next t)
    {s : ArticleSpan} (hs : FoundOn trie phrases s) {words : List InputWord}
    (hwords : s.first + words.length = s.last) {b : Branch ArticleBucket}
    (hb : b ∈ (t.sources trie s.first).filterMap (CompoundTree.extend s.articleId words)) :
    ∃ chain first, BranchOn trie phrases b chain first s.last := by
  obtain ⟨source, hsource, hextend⟩ := List.mem_filterMap.mp hb
  obtain ⟨tails, htails, rfl⟩ := Option.map_eq_some_iff.mp hextend
  obtain ⟨rfl, -⟩ := Trie.findTails_eq_some.mp htails
  rcases List.mem_cons.mp hsource with rfl | hsource
  · refine ⟨[s], s.first, ?_⟩
    constructor
    case found =>
      intro x hx
      cases List.mem_singleton.mp hx
      exact hs
    case adjacent => exact ⟨rfl, rfl⟩
    case ne => exact List.cons_ne_nil _ _
    case tails => rfl
    case length => simpa using hwords
    case single => simp
  · obtain ⟨k, hk, hbranch⟩ := List.mem_filterMap.mp hsource
    obtain ⟨chain, first, last, hon, hposition, -, -⟩ := h.branch k source hbranch
    have hlast := h.unique k last s.first hposition hk
    refine ⟨chain ++ [s], first, ?_⟩
    constructor
    case found =>
      intro x hx
      rcases List.mem_append.mp hx with hx | hx
      · exact hon.found x hx
      · cases List.mem_singleton.mp hx
        exact hs
    case adjacent =>
      exact (adjacent_concat chain s first s.last).mpr ⟨hlast ▸ hon.adjacent, rfl⟩
    case ne => simp
    case tails =>
      rw [List.map_append, Trie.tailsAlong_append, ← hon.tails]
      rfl
    case length =>
      have := hon.length
      simp only [List.length_append, List.length_map]
      omega
    case single =>
      intro w hw
      rcases List.mem_append.mp hw with hw | hw
      · exact hon.single w hw
      · obtain ⟨word, -, rfl⟩ := List.mem_map.mp hw
        rfl

theorem TreeReady.appendAll {t : CompoundTree} {now next : ℕ}
    (h : TreeReady trie phrases now next t)
    {added : List (Branch ArticleBucket)}
    (hadded : ∀ b ∈ added, ∃ chain first, BranchOn trie phrases b chain first now) :
    TreeReady trie phrases now next (t.appendAll added now) := by
  constructor
  case branch =>
    intro k b hb
    by_cases hk : k < t.branches.length
    · rw [CompoundTree.appendAll_branches_left hk] at hb
      obtain ⟨chain, first, last, hon, hposition, hle, hnow⟩ := h.branch k b hb
      exact ⟨chain, first, last, hon,
        (CompoundTree.mem_positionIndex_appendAll hk last).mpr hposition, hle, hnow⟩
    · have hnew : added[k - t.branches.length]? = some b := by
        rw [← hb]
        exact (List.getElem?_append_right (not_lt.mp hk)).symm
      obtain ⟨chain, first, hon⟩ := hadded b (List.mem_of_getElem? hnew)
      have hlength := (List.getElem?_eq_some_iff.mp hnew).1
      refine ⟨chain, first, now, hon, ?_, le_rfl, fun _ => rfl⟩
      simp only [CompoundTree.appendAll, if_true, List.mem_append, List.mem_range'_1]
      exact Or.inr (by omega)
  case unique =>
    intro k p q hp hq
    by_cases hk : k < t.branches.length
    · rw [CompoundTree.mem_positionIndex_appendAll hk] at hp hq
      exact h.unique k p q hp hq
    · have hnow : ∀ p, k ∈ (t.appendAll added now).positionIndex p → p = now := by
        intro p hp
        by_contra hne
        simp only [CompoundTree.appendAll, if_neg hne] at hp
        exact hk (h.lt k p hp)
      rw [hnow p hp, hnow q hq]
  case lt =>
    intro k p hp
    simp only [CompoundTree.appendAll] at hp ⊢
    rw [List.length_append]
    split at hp
    · rcases List.mem_append.mp hp with hp | hp
      · exact (h.lt k p hp).trans_le (Nat.le_add_right _ _)
      · rw [List.mem_range'_1] at hp
        exact hp.2
    · exact (h.lt k p hp).trans_le (Nat.le_add_right _ _)

theorem hasBranch_appendAll_iff {t : CompoundTree} {now next : ℕ}
    (h : TreeReady trie phrases now next t) (added : List (Branch ArticleBucket)) {ids : List ℕ}
    {first last : ℕ} (hlast : last ≠ now) :
    HasBranch trie (t.appendAll added now) ids first last ↔ HasBranch trie t ids first last := by
  constructor
  · rintro ⟨k, b, hb, htails, hlength, hk⟩
    simp only [CompoundTree.appendAll, if_neg hlast] at hk
    rw [CompoundTree.appendAll_branches_left (h.lt k last hk)] at hb
    exact ⟨k, b, hb, htails, hlength, hk⟩
  · rintro ⟨k, b, hb, htails, hlength, hk⟩
    have hlt := h.lt k last hk
    refine ⟨k, b, ?_, htails, hlength, (CompoundTree.mem_positionIndex_appendAll hlt last).mpr hk⟩
    rw [CompoundTree.appendAll_branches_left hlt]
    exact hb

theorem HasBranch.appendAll {t : CompoundTree} {now next : ℕ}
    (h : TreeReady trie phrases now next t) (added : List (Branch ArticleBucket)) {ids : List ℕ}
    {first last : ℕ} (hbranch : HasBranch trie t ids first last) :
    HasBranch trie (t.appendAll added now) ids first last := by
  obtain ⟨k, b, hb, htails, hlength, hk⟩ := hbranch
  have hlt := h.lt k last hk
  refine ⟨k, b, ?_, htails, hlength, (CompoundTree.mem_positionIndex_appendAll hlt last).mpr hk⟩
  rw [CompoundTree.appendAll_branches_left hlt]
  exact hb

theorem GoesOn.appendAll {t : CompoundTree} {now next : ℕ} (h : TreeReady trie phrases now next t)
    (added : List (Branch ArticleBucket)) {s : ArticleSpan} (hs : GoesOn trie t now s) :
    GoesOn trie (t.appendAll added now) now s := by
  refine ⟨hs.lt, hs.le, ?_⟩
  intro ids first hbranch htails
  have hne : s.first ≠ now := by
    have := hs.lt
    have := hs.le
    omega
  rw [hasBranch_appendAll_iff h added hne] at hbranch
  exact (hs.branch ids first hbranch htails).appendAll h added

/-- An article that is appended goes on all branches. -/
theorem goesOn_extensions {t : CompoundTree} {now next : ℕ} (h : TreeReady trie phrases now next t)
    {s : ArticleSpan} {words : List InputWord} (hwords : s.first + words.length = s.last)
    (hne : words ≠ []) (hnow : s.last = now) :
    GoesOn trie (t.appendAll ((t.sources trie s.first).filterMap
      (CompoundTree.extend s.articleId words)) now) now s := by
  have hlength := List.length_pos_iff.mpr hne
  have hlt : s.first < s.last := by omega
  refine ⟨hlt, hnow.le, ?_⟩
  intro ids first hbranch htails
  rw [hasBranch_appendAll_iff h _ (by omega)] at hbranch
  -- the branch, or the root, is among the sources
  have hsource : ∃ source ∈ t.sources trie s.first,
      source.tails = trie.compoundTrie.tailsAlong ids ∧ first + source.words.length = s.first := by
    rcases hbranch with ⟨k, b, hb, hb', hfirst, hk⟩ | ⟨rfl, rfl⟩
    · refine ⟨b, List.mem_cons_of_mem _ (List.mem_filterMap.mpr ⟨k, hk, hb⟩), hb', hfirst⟩
    · exact ⟨_, List.mem_cons_self, rfl, rfl⟩
  obtain ⟨source, hsource, hids, hfirst⟩ := hsource
  have hnext : trie.compoundTrie.tailsAlong (ids ++ [s.articleId]) =
      source.tails.tails s.articleId := by
    rw [Trie.tailsAlong_append, hids]
    rfl
  rw [hnext] at htails
  have hextend : CompoundTree.extend s.articleId words source = some
      ⟨source.tails.tails s.articleId, source.words ++ words.map (⟨·, 1⟩)⟩ := by
    rw [CompoundTree.extend, Trie.findTails_eq_some.mpr ⟨rfl, htails⟩]
    rfl
  have hmem := List.mem_filterMap.mpr ⟨source, hsource, hextend⟩
  obtain ⟨i, hi⟩ := List.mem_iff_getElem?.mp hmem
  have hlt' := (List.getElem?_eq_some_iff.mp hi).1
  refine ⟨t.branches.length + i,
    ⟨source.tails.tails s.articleId, source.words ++ words.map (⟨·, 1⟩)⟩, ?_, hnext.symm, ?_, ?_⟩
  · show (t.branches ++ _)[t.branches.length + i]? = _
    rw [List.getElem?_append_right (Nat.le_add_right _ _), Nat.add_sub_cancel_left]
    exact hi
  · simp only [List.length_append, List.length_map]
    omega
  · simp only [CompoundTree.appendAll, hnow, if_true, List.mem_append, List.mem_range'_1]
    exact Or.inr (by omega)

theorem hasBranch_of_chain {t : CompoundTree} {now : ℕ} (chain : List ArticleSpan) {first last : ℕ}
    (hne : chain ≠ []) (hchain : ∀ s ∈ chain, GoesOn trie t now s)
    (hadjacent : Adjacent chain first last)
    (htails : trie.compoundTrie.tailsAlong (chain.map (·.articleId)) ≠ []) :
    HasBranch trie t (chain.map (·.articleId)) first last := by
  induction chain using List.reverseRecOn generalizing last with
  | nil => exact absurd rfl hne
  | append_singleton chain s ih =>
    obtain ⟨hbefore, rfl⟩ := (adjacent_concat chain s first last).mp hadjacent
    rw [List.map_append, List.map_singleton] at htails ⊢
    refine (hchain s (by simp)).branch _ _ ?_ htails
    by_cases hnil : chain = []
    · subst hnil
      exact Or.inr ⟨rfl, hbefore⟩
    · refine Or.inl (ih hnil (fun x hx => hchain x (List.mem_append_left _ hx)) hbefore ?_)
      intro hempty
      apply htails
      rw [Trie.tailsAlong_append, hempty]
      exact Trie.tailsAlong_nil _

end Trees
end TomitaParser.Gzt
