import TomitaParser.Gzt.CompoundSpans
/-! # Which compound articles are found

As long as no compound article has more words than a byte can tell, each step keeps the branches
complete: what is found on a span has gone on all branches that end before it. -/

namespace TomitaParser.Gzt

/-- The span of a hit. -/
def hitSpan (hit : Hit) : ArticleSpan :=
  ⟨hit.1, hit.2.wordCount - hit.2.words.length, hit.2.wordCount⟩

/-- An article that the phrase search finds. -/
def PhraseOn (trie : GztTrie) (input : List Token) (s : ArticleSpan) : Prop :=
  ∃ hit ∈ (SearchWork.initial trie input).hits, hitSpan hit = s

/-- A hit has words, and not more than are read. -/
structure HitFits (hit : Hit) : Prop where
  ne : hit.2.words ≠ []
  le : hit.2.words.length ≤ hit.2.wordCount

theorem hitSpan_length {hit : Hit} (h : HitFits hit) :
    (hitSpan hit).first + hit.2.words.length = (hitSpan hit).last := by
  have := h.le
  simp only [hitSpan]
  omega

theorem pos_eq_of_short {hit : Hit} (h : hit.2.words.length ≤ 255) :
    hit.2.pos = (hitSpan hit).first := by
  rw [PhraseWords.pos, Nat.mod_eq_of_lt (by omega)]
  rfl

theorem span_eq_hitSpan {hit : Hit} (hfits : HitFits hit) (h : hit.2.words.length ≤ 255)
    (isCompound : Bool) : (⟨hit.1, hit.2, isCompound⟩ : FoundArticle).span = hitSpan hit := by
  have hlength := hitSpan_length hfits
  simp only [FoundArticle.span, pos_eq_of_short h, hlength]
  rfl

section Steps
variable (trie : GztTrie) (phrases : ArticleSpan → Prop)

/-- A tree keeps its branches at their places. -/
structure TreeGrows (t t' : CompoundTree) : Prop where
  le : t.branches.length ≤ t'.branches.length
  branch : ∀ k < t.branches.length, t'.branches[k]? = t.branches[k]?
  position : ∀ k < t.branches.length, ∀ p, k ∈ t'.positionIndex p ↔ k ∈ t.positionIndex p

/-- An article is shown, and goes on if it is an element. -/
structure CompoundSettled (shown : List FoundArticle) (registered : List ArticleSpan)
    (s : ArticleSpan) : Prop where
  isShown : ∃ x ∈ shown, x.isCompound = true ∧ x.span = s
  element : trie.isCompoundElement s.articleId = true → s ∈ registered

/-- The search with the hits that are taken, the articles that are shown and the articles that have
been appended to the branches. -/
structure SearchReady (w : SearchWork) (taken : List Hit) (shown : List FoundArticle)
    (registered : List ArticleSpan) : Prop where
  tree : TreeReady trie phrases w.now w.next w.tree
  next_le : w.next ≤ w.tree.branches.length
  goesOn : ∀ s ∈ registered, GoesOn trie w.tree w.now s
  pending : ∀ hit ∈ w.pending,
    HitFits hit ∧ hit.2.wordCount = w.now ∧ CompoundOn trie phrases (hitSpan hit)
  /-- The branches taken from the queue have shown their articles, or are about to. -/
  processed : ∀ k < w.next, ∀ b, w.tree.branches[k]? = some b →
    ∀ bucket, b.getFinalData = some bucket → ∀ s : ArticleSpan,
      s.articleId ∈ trie.iterSimple bucket →
      s.first + b.words.length = s.last → k ∈ w.tree.positionIndex s.last →
      CompoundSettled trie shown registered s ∨ ∃ hit ∈ w.pending, hitSpan hit = s
  /-- The list of found articles counts while the compound search is not done. -/
  found : w.pending = [] ∧ w.tree.branches.length ≤ w.next ∨
    ∀ hit : Hit, HitFits hit → hit.2.wordCount = w.now →
      (hit.1, hit.2.words.length) ∈ w.tree.foundArticles → CompoundSettled trie shown registered
        (hitSpan hit)
  taken : ∀ hit ∈ taken, trie.isCompoundElement hit.1 = true → hitSpan hit ∈ registered
  shown : ∀ x ∈ shown, x.isCompound = true → CompoundOn trie phrases x.span

/-- No compound article up to the words that are read is too long. -/
def ShortUpTo (now : ℕ) : Prop :=
  ∀ s, CompoundOn trie phrases s → s.last ≤ now → s.last ≤ s.first + 255

variable {trie phrases}

theorem TreeGrows.refl (t : CompoundTree) : TreeGrows t t :=
  ⟨le_rfl, fun _ _ => rfl, fun _ _ _ => Iff.rfl⟩

theorem CompoundSettled.mono {shown shown' : List FoundArticle}
    {registered registered' : List ArticleSpan}
    {s : ArticleSpan} (h : CompoundSettled trie shown registered s) (hshown : shown ⊆ shown')
    (hregistered : registered ⊆ registered') : CompoundSettled trie shown' registered' s := by
  obtain ⟨x, hx, hcompound, hspan⟩ := h.isShown
  exact ⟨⟨x, hshown hx, hcompound, hspan⟩, fun helement => hregistered (h.element helement)⟩

theorem TreeReady.congr {now next : ℕ} {t t' : CompoundTree} (h : TreeReady trie phrases now next t)
    (hbranches : t'.branches = t.branches) (hindex : t'.positionIndex = t.positionIndex) :
    TreeReady trie phrases now next t' := by
  constructor
  · rw [hbranches, hindex]
    exact h.branch
  · rw [hindex]
    exact h.unique
  · rw [hbranches, hindex]
    exact h.lt

theorem GoesOn.congr {now : ℕ} {t t' : CompoundTree} {s : ArticleSpan} (h : GoesOn trie t now s)
    (hbranches : t'.branches = t.branches) (hindex : t'.positionIndex = t.positionIndex) :
    GoesOn trie t' now s := by
  constructor
  · exact h.lt
  · exact h.le
  · unfold HasBranch
    rw [hbranches, hindex]
    exact h.branch

theorem TreeReady.later {now now' next : ℕ} {t : CompoundTree}
    (h : TreeReady trie phrases now next t) (hle : now ≤ now') (hnext : t.branches.length ≤ next) :
    TreeReady trie phrases now' next t := by
  refine ⟨?_, h.unique, h.lt⟩
  intro k b hb
  obtain ⟨chain, first, last, hon, hposition, hlast, -⟩ := h.branch k b hb
  have hk := (List.getElem?_eq_some_iff.mp hb).1
  exact ⟨chain, first, last, hon, hposition, hlast.trans hle, fun h => by omega⟩

/-- What it takes to append an article to the branches. -/
theorem tryAppendArticle_spec {now next : ℕ} {t : CompoundTree}
    (h : TreeReady trie phrases now next t) {hit : Hit} (hfits : HitFits hit)
    (hshort : hit.2.words.length ≤ 255) (hnow : hit.2.wordCount = now)
    (hfound : FoundOn trie phrases (hitSpan hit)) :
    TreeReady trie phrases now next (t.tryAppendArticle trie hit.1 hit.2) ∧
      TreeGrows t (t.tryAppendArticle trie hit.1 hit.2) ∧
      (t.tryAppendArticle trie hit.1 hit.2).foundArticles = t.foundArticles ∧
      GoesOn trie (t.tryAppendArticle trie hit.1 hit.2) now (hitSpan hit) ∧
      ∀ s, GoesOn trie t now s → GoesOn trie (t.tryAppendArticle trie hit.1 hit.2) now s := by
  let words := hit.2.words.map (·.saveGrammems)
  have hlength : words.length = hit.2.words.length := List.length_map _
  have hne : words ≠ [] := by simpa [words] using hfits.ne
  have hspan : (hitSpan hit).first + words.length = (hitSpan hit).last := by
    rw [hlength]
    exact hitSpan_length hfits
  have hlast : (hitSpan hit).last = now := hnow
  have happend : t.tryAppendArticle trie hit.1 hit.2 =
      t.appendAll ((t.sources trie (hitSpan hit).first).filterMap
        (CompoundTree.extend (hitSpan hit).articleId words)) now := by
    rw [CompoundTree.tryAppendArticle, pos_eq_of_short hshort,
      CompoundTree.tryAppendSequence_eq trie hit.1 _ hne (fun k hk => h.lt k _ hk), hspan, hlast]
    rfl
  rw [happend]
  refine ⟨h.appendAll ?_, ?_, rfl, goesOn_extensions h hspan hne hlast,
    fun s hs => hs.appendAll h _⟩
  · intro b hb
    rw [← hlast]
    exact mem_extensions h hfound hspan hb
  · constructor
    · simp [CompoundTree.appendAll]
    · exact fun k hk => CompoundTree.appendAll_branches_left hk
    · exact fun k hk p => CompoundTree.mem_positionIndex_appendAll hk p

theorem SearchReady.processed_mono {w : SearchWork} {taken : List Hit}
    {shown shown' : List FoundArticle}
    {registered registered' : List ArticleSpan}
    (h : SearchReady trie phrases w taken shown registered)
    {t' : CompoundTree} (hgrows : TreeGrows w.tree t') (hshown : shown ⊆ shown')
    (hregistered : registered ⊆ registered') {pending' : List Hit}
    (hpending : ∀ hit ∈ w.pending,
      CompoundSettled trie shown' registered' (hitSpan hit) ∨ hit ∈ pending') :
    ∀ k < w.next, ∀ b, t'.branches[k]? = some b →
      ∀ bucket, b.getFinalData = some bucket → ∀ s : ArticleSpan,
        s.articleId ∈ trie.iterSimple bucket → s.first + b.words.length = s.last →
        k ∈ t'.positionIndex s.last →
        CompoundSettled trie shown' registered' s ∨ ∃ hit ∈ pending', hitSpan hit = s := by
  intro k hk b hb bucket hbucket s hs hlength hposition
  have hlt := hk.trans_le h.next_le
  rw [hgrows.branch k hlt] at hb
  rw [hgrows.position k hlt] at hposition
  rcases h.processed k hk b hb bucket hbucket s hs hlength hposition with hsettled |
    ⟨hit, hhit, rfl⟩
  · exact Or.inl (hsettled.mono hshown hregistered)
  · rcases hpending hit hhit with hsettled | hhit
    · exact Or.inl hsettled
    · exact Or.inr ⟨hit, hhit, rfl⟩

/-- Compound keys have no filters and give no fake articles. -/
structure PlainCompounds (trie : GztTrie) : Prop where
  unfiltered : ∀ key ∈ trie.compoundTrie, trie.iterFiltered key.2 = []
  real : ∀ key ∈ trie.compoundTrie, ∀ a ∈ trie.iterSimple key.2, isFakeArticle a = false

theorem PlainCompounds.not_fake (h : PlainCompounds trie) {s : ArticleSpan}
    (hs : CompoundOn trie phrases s) : isFakeArticle s.articleId = false := by
  obtain ⟨chain, bucket, -, -, -, hkey, ha⟩ := hs
  exact h.real _ (Trie.mem_of_find hkey) _ ha

/-- An article of a compound branch that is found once more changes nothing. -/
theorem SearchReady.skip {w : SearchWork} {taken : List Hit} {shown : List FoundArticle}
    {registered : List ArticleSpan} (h : SearchReady trie phrases w taken shown registered)
    {hit : Hit}
    {pending : List Hit} (hpending : w.pending = hit :: pending)
    (hfound : (hit.1, hit.2.words.length) ∈ w.tree.foundArticles) :
    SearchReady trie phrases { w with pending := pending } taken shown registered := by
  have hmem : hit ∈ w.pending := by
    rw [hpending]
    exact List.mem_cons_self
  obtain ⟨hfits, hnow, -⟩ := h.pending hit hmem
  have hlist : ∀ hit : Hit, HitFits hit → hit.2.wordCount = w.now →
      (hit.1, hit.2.words.length) ∈ w.tree.foundArticles →
      CompoundSettled trie shown registered (hitSpan hit) := by
    rcases h.found with ⟨hnil, -⟩ | hlist
    · rw [hpending] at hnil
      cases hnil
    · exact hlist
  have hsettled := hlist hit hfits hnow hfound
  constructor
  case tree => exact h.tree
  case next_le => exact h.next_le
  case goesOn => exact h.goesOn
  case pending =>
    intro hit' hmem'
    exact h.pending hit' (by rw [hpending]; exact List.mem_cons_of_mem _ hmem')
  case processed =>
    apply h.processed_mono (TreeGrows.refl w.tree) (List.Subset.refl _) (List.Subset.refl _)
    intro hit' hmem'
    rw [hpending] at hmem'
    rcases List.mem_cons.mp hmem' with rfl | hmem'
    · exact Or.inl hsettled
    · exact Or.inr hmem'
  case found => exact Or.inr hlist
  case taken => exact h.taken
  case shown => exact h.shown

/-- What `ResetFoundArticle` does with a new article of a compound branch. -/
theorem resetFoundArticle_spec {now next : ℕ} {t : CompoundTree}
    (h : TreeReady trie phrases now next t) {registered : List ArticleSpan}
    (hgoes : ∀ s ∈ registered, GoesOn trie t now s) {hit : Hit} (hfits : HitFits hit)
    (hshort : hit.2.words.length ≤ 255) (hnow : hit.2.wordCount = now)
    (hcompound : FoundOn trie phrases (hitSpan hit)) (hreal : isFakeArticle hit.1 = false)
    (hnew : (hit.1, hit.2.words.length) ∉ t.foundArticles) :
    ∃ t' registered', t.resetFoundArticle trie hit.1 hit.2 = (true, t') ∧
      t'.article = some ⟨hit.1, hit.2, true⟩ ∧
      t'.foundArticles = t.foundArticles ++ [(hit.1, hit.2.words.length)] ∧
      TreeReady trie phrases now next t' ∧ TreeGrows t t' ∧ registered ⊆ registered' ∧
      (trie.isCompoundElement hit.1 = true → hitSpan hit ∈ registered') ∧
      ∀ s ∈ registered', GoesOn trie t' now s := by
  let t₁ : CompoundTree :=
    { t with foundArticles := t.foundArticles ++ [(hit.1, hit.2.words.length)] }
  have hcontains : ¬ t.foundArticles.contains (hit.1, hit.2.words.length) = true := by
    simpa using hnew
  by_cases helement : trie.isCompoundElement hit.1 = true
  · let t₂ := t₁.tryAppendArticle trie hit.1 hit.2
    have hready₁ : TreeReady trie phrases now next t₁ := h.congr rfl rfl
    obtain ⟨hready, hgrows, hfound, hspan, hold⟩ :=
      tryAppendArticle_spec hready₁ hfits hshort hnow hcompound
    refine ⟨{ t₂ with article := some ⟨hit.1, hit.2, true⟩ }, hitSpan hit :: registered, ?_,
      rfl, hfound,
      hready.congr rfl rfl, ⟨hgrows.le, hgrows.branch, hgrows.position⟩, List.subset_cons_self _ _,
      fun _ => List.mem_cons_self, ?_⟩
    · rw [CompoundTree.resetFoundArticle, if_neg hcontains]
      simp only [if_pos helement, hreal, Bool.false_eq_true, if_false]
      rfl
    · intro s hs
      rcases List.mem_cons.mp hs with rfl | hs
      · exact hspan.congr rfl rfl
      · exact (hold s ((hgoes s hs).congr rfl rfl)).congr rfl rfl
  · refine ⟨{ t₁ with article := some ⟨hit.1, hit.2, true⟩ }, registered, ?_, rfl, rfl,
      h.congr rfl rfl,
      ⟨le_rfl, fun _ _ => rfl, fun _ _ _ => Iff.rfl⟩, List.Subset.refl _,
      fun htrue => absurd htrue helement,
      fun s hs => (hgoes s hs).congr rfl rfl⟩
    rw [CompoundTree.resetFoundArticle, if_neg hcontains]
    simp only [if_neg helement, hreal, Bool.false_eq_true, if_false]
    rfl

theorem SearchReady.pop {w w' : SearchWork} {taken : List Hit} {shown : List FoundArticle}
    {registered : List ArticleSpan} {isShown : Bool}
    (h : SearchReady trie phrases w taken shown registered) (hplain : PlainCompounds trie)
    (hshort : ShortUpTo trie phrases w.now) {hit : Hit} {pending : List Hit}
    (hpending : w.pending = hit :: pending) (htick : w.tick trie = some (isShown, w')) :
    w'.hits = w.hits ∧ ∃ registered',
      SearchReady trie phrases w' taken (shown ++ w'.shown isShown) registered' := by
  have hmem : hit ∈ w.pending := by
    rw [hpending]
    exact List.mem_cons_self
  obtain ⟨hfits, hnow, hcompound⟩ := h.pending hit hmem
  have hstep : w.tick trie = some ((w.tree.resetFoundArticle trie hit.1 hit.2).1,
      { w with pending := pending, tree := (w.tree.resetFoundArticle trie hit.1 hit.2).2 }) := by
    simp only [SearchWork.tick, hpending]
  rw [hstep] at htick
  by_cases hold : (hit.1, hit.2.words.length) ∈ w.tree.foundArticles
  · have hskip : w.tree.resetFoundArticle trie hit.1 hit.2 = (false, w.tree) := by
      rw [CompoundTree.resetFoundArticle, if_pos (by simpa using hold)]
    rw [hskip] at htick
    cases htick
    refine ⟨rfl, registered, ?_⟩
    rw [SearchWork.shown, if_neg Bool.false_ne_true, List.append_nil]
    exact h.skip hpending hold
  · have hlength := hshort (hitSpan hit) hcompound hnow.le
    have hsmall : hit.2.words.length ≤ 255 := by
      have := hfits.le
      simp only [hitSpan] at hlength
      omega
    obtain ⟨t', registered', hreset, harticle, hfound, hready, hgrows, hsub, helement, hgoes⟩ :=
      resetFoundArticle_spec h.tree h.goesOn hfits hsmall hnow hcompound.foundOn
        (hplain.not_fake hcompound) hold
    rw [hreset] at htick
    cases htick
    have hshown : SearchWork.shown { w with pending := pending, tree := t' } true =
        [⟨hit.1, hit.2, true⟩] := by
      rw [SearchWork.shown, if_pos rfl, harticle]
      rfl
    have hspan := span_eq_hitSpan hfits hsmall true
    have hsettled : CompoundSettled trie (shown ++ [⟨hit.1, hit.2, true⟩]) registered'
        (hitSpan hit) :=
      ⟨⟨_, List.mem_append_right _ (List.mem_singleton_self _), rfl, hspan⟩, helement⟩
    refine ⟨rfl, registered', ?_⟩
    rw [hshown]
    constructor
    case tree => exact hready
    case next_le => exact h.next_le.trans hgrows.le
    case goesOn => exact hgoes
    case pending =>
      intro hit' hmem'
      exact h.pending hit' (by rw [hpending]; exact List.mem_cons_of_mem _ hmem')
    case processed =>
      apply h.processed_mono hgrows (List.subset_append_left _ _) hsub
      intro hit' hmem'
      rw [hpending] at hmem'
      rcases List.mem_cons.mp hmem' with rfl | hmem'
      · exact Or.inl hsettled
      · exact Or.inr hmem'
    case found =>
      refine Or.inr fun hit' hfits' hnow' hfound' => ?_
      rw [hfound] at hfound'
      rcases List.mem_append.mp hfound' with hfound' | hfound'
      · rcases h.found with ⟨hnil, -⟩ | hlist
        · rw [hpending] at hnil
          cases hnil
        · exact (hlist hit' hfits' hnow' hfound').mono (List.subset_append_left _ _) hsub
      · obtain ⟨hid, hwords⟩ := Prod.mk.inj (List.mem_singleton.mp hfound')
        have hsame : hitSpan hit' = hitSpan hit := by
          have hnow'' : hit'.2.wordCount = hit.2.wordCount := hnow'.trans hnow.symm
          simp only [hitSpan, hid, hwords, hnow'']
        rw [hsame]
        exact hsettled
    case taken => exact fun hit' hmem' he => hsub (h.taken hit' hmem' he)
    case shown =>
      intro x hx hxc
      rcases List.mem_append.mp hx with hx | hx
      · exact h.shown x hx hxc
      · cases List.mem_singleton.mp hx
        rw [hspan]
        exact hcompound

theorem mem_compoundHits (hplain : PlainCompounds trie) (input : List Token) (now : ℕ)
    {b : Branch ArticleBucket} {chain : List ArticleSpan} {first last : ℕ}
    (hon : BranchOn trie phrases b chain first last) {hit : Hit} :
    hit ∈ PhraseSearch.branchHits trie input now b ↔
      ∃ bucket, b.getFinalData = some bucket ∧ hit.1 ∈ trie.iterSimple bucket ∧
        hit.2 = (⟨input, now, b.copyTo.1⟩ : PhraseWords).resetGrammems := by
  unfold PhraseSearch.branchHits PhraseCursor.ofBranch
  cases hbucket : b.getFinalData with
  | none => simp
  | some bucket =>
    have hkey : trie.compoundTrie.find (chain.map (·.articleId)) = some bucket := by
      rw [← Trie.findEmpty_tailsAlong, ← hon.tails]
      exact hbucket
    have hfilters := hplain.unfiltered _ (Trie.mem_of_find hkey)
    simp only at hfilters
    obtain ⟨a, q⟩ := hit
    simp only [Option.map_some, Option.getD_some, PhraseCursor.hits, hfilters,
      PhraseCursor.filterHits,
      List.filterMap_nil, List.append_nil, List.mem_map, Prod.mk.injEq, Option.some.injEq,
      exists_eq_left']
    constructor
    · rintro ⟨id, hid, rfl, rfl⟩
      exact ⟨hid, rfl⟩
    · rintro ⟨hid, rfl⟩
      exact ⟨a, hid, rfl, rfl⟩

theorem adjacent_le {chain : List ArticleSpan} {first last : ℕ}
    (hchain : ∀ s ∈ chain, s.first < s.last) (h : Adjacent chain first last) : first ≤ last := by
  induction chain generalizing first with
  | nil => exact le_of_eq h
  | cons s chain ih =>
    have hs := hchain s List.mem_cons_self
    have hrest := ih (fun x hx => hchain x (List.mem_cons_of_mem _ hx)) h.2
    have := h.1
    omega

theorem adjacent_lt {chain : List ArticleSpan} {first last : ℕ}
    (hchain : ∀ s ∈ chain, s.first < s.last) (hne : chain ≠ []) (h : Adjacent chain first last) :
    first < last := by
  cases chain with
  | nil => exact absurd rfl hne
  | cons s chain =>
    have hs := hchain s List.mem_cons_self
    have hrest := adjacent_le (fun x hx => hchain x (List.mem_cons_of_mem _ hx)) h.2
    have := h.1
    omega

theorem SearchReady.loadBranch {w w' : SearchWork} {taken : List Hit} {shown : List FoundArticle}
    {registered : List ArticleSpan} {isShown : Bool}
    (h : SearchReady trie phrases w taken shown registered) (hplain : PlainCompounds trie)
    (hspans : ∀ s, FoundOn trie phrases s → s.first < s.last)
    (hpending : w.pending = []) {b : Branch ArticleBucket}
    (hb : w.tree.branches[w.next]? = some b) (htick : w.tick trie = some (isShown, w')) :
    w'.hits = w.hits ∧ SearchReady trie phrases w' taken (shown ++ w'.shown isShown)
      registered := by
  have hstep : w.tick trie = some (false,
      { w with pending := PhraseSearch.branchHits trie w.input w.now b, next := w.next + 1 }) := by
    simp only [SearchWork.tick, hpending, hb]
  rw [hstep] at htick
  cases htick
  obtain ⟨chain, first, last, hon, hposition, -, hnow⟩ := h.tree.branch w.next b hb
  have hnow := hnow le_rfl
  subst hnow
  have hlt := adjacent_lt (fun s hs => hspans s (hon.found s hs)) hon.ne hon.adjacent
  have hcopy : b.copyTo.1.length = b.words.length := by
    rw [Branch.copyTo_single hon.single, List.length_map]
  have hnext := (List.getElem?_eq_some_iff.mp hb).1
  -- a hit of the branch stands on the span of the branch
  have hspan : ∀ hit ∈ PhraseSearch.branchHits trie w.input w.now b,
      HitFits hit ∧ hit.2.wordCount = w.now ∧ (hitSpan hit).first = first := by
    intro hit hhit
    obtain ⟨bucket, -, -, hwords⟩ := (mem_compoundHits hplain w.input w.now hon).mp hhit
    have hlength : hit.2.words.length = b.words.length := by
      rw [hwords, ← hcopy]
      exact List.length_map _
    have hcount : hit.2.wordCount = w.now := by
      rw [hwords]
      rfl
    have hsum := hon.length
    refine ⟨⟨?_, by omega⟩, hcount, ?_⟩
    · apply List.ne_nil_of_length_pos
      omega
    · simp only [hitSpan]
      omega
  refine ⟨rfl, ?_⟩
  rw [SearchWork.shown, if_neg Bool.false_ne_true, List.append_nil]
  constructor
  case tree =>
    refine ⟨?_, h.tree.unique, h.tree.lt⟩
    intro k b' hb'
    obtain ⟨chain', first', last', hon', hposition', hle', hnow'⟩ := h.tree.branch k b' hb'
    exact ⟨chain', first', last', hon', hposition', hle',
      fun hk => hnow' ((Nat.le_succ w.next).trans hk)⟩
  case next_le => exact hnext
  case goesOn => exact h.goesOn
  case pending =>
    intro hit hhit
    obtain ⟨hfits, hcount, hfirst⟩ := hspan hit hhit
    obtain ⟨bucket, hbucket, ha, -⟩ := (mem_compoundHits hplain w.input w.now hon).mp hhit
    refine ⟨hfits, hcount, chain, bucket, hon.found, ?_, hon.ne, ?_, ha⟩
    · rw [hfirst, show (hitSpan hit).last = w.now from hcount]
      exact hon.adjacent
    · rw [← Trie.findEmpty_tailsAlong, ← hon.tails]
      exact hbucket
  case processed =>
    intro k hk b' hb' bucket hbucket s hs hlength hplace
    by_cases hlast : k = w.next
    · subst hlast
      have hsame : b' = b := by
        have := hb'.symm.trans hb
        cases this
        rfl
      subst hsame
      have hend := h.tree.unique w.next s.last w.now hplace hposition
      refine Or.inr ⟨(s.articleId, (⟨w.input, w.now, b'.copyTo.1⟩ : PhraseWords).resetGrammems),
        (mem_compoundHits hplain w.input w.now hon).mpr ⟨bucket, hbucket, hs, rfl⟩, ?_⟩
      have hwords : (PhraseWords.resetGrammems ⟨w.input, w.now, b'.copyTo.1⟩).words.length =
          b'.words.length := by
        rw [← hcopy]
        exact List.length_map _
      obtain ⟨a, i, j⟩ := s
      simp only at hlength hend
      simp only [hitSpan, hwords, ArticleSpan.mk.injEq, true_and]
      exact ⟨by show w.now - _ = _; omega, hend.symm⟩
    · have hk' : k < w.next + 1 := hk
      rcases h.processed k (by omega) b' hb' bucket hbucket s hs hlength hplace with
        hsettled | ⟨hit, hhit, -⟩
      · exact Or.inl hsettled
      · rw [hpending] at hhit
        cases hhit
  case found =>
    rcases h.found with ⟨-, hle⟩ | hlist
    · omega
    · exact Or.inr hlist
  case taken => exact h.taken
  case shown => exact h.shown

/-- A hit of the phrase search that can be taken. -/
structure HitReady (trie : GztTrie) (phrases : ArticleSpan → Prop) (now : ℕ)
    (hit : Hit) : Prop where
  fits : HitFits hit
  short : trie.isCompoundElement hit.1 = true → hit.2.words.length ≤ 255
  le : now ≤ hit.2.wordCount
  found : phrases (hitSpan hit)

theorem SearchReady.takeHit {w : SearchWork} {taken : List Hit} {shown : List FoundArticle}
    {registered : List ArticleSpan} (h : SearchReady trie phrases w taken shown registered)
    (hpending : w.pending = []) (hnext : w.tree.branches.length ≤ w.next) {hit : Hit}
    (hhit : HitReady trie phrases w.now hit) (hits : List Hit) :
    ∃ registered', SearchReady trie phrases (w.takeHit trie hit hits).2 (taken ++ [hit])
      (shown ++ (w.takeHit trie hit hits).2.shown (w.takeHit trie hit hits).1) registered' := by
  have hlater := h.tree.later hhit.le hnext
  have hgoes : ∀ s ∈ registered, GoesOn trie w.tree hit.2.wordCount s := fun s hs =>
    ⟨(h.goesOn s hs).lt, (h.goesOn s hs).le.trans hhit.le, (h.goesOn s hs).branch⟩
  -- the tree after the hit, whether or not it is an element
  have htree : ∃ t' registered',
      (if trie.isCompoundElement hit.1 then w.tree.takeNextArticle trie hit.1 hit.2
        else w.tree) = t' ∧
      TreeReady trie phrases hit.2.wordCount w.next t' ∧ TreeGrows w.tree t' ∧
      registered ⊆ registered' ∧ (trie.isCompoundElement hit.1 = true → hitSpan hit ∈ registered') ∧
      (∀ s ∈ registered', GoesOn trie t' hit.2.wordCount s) ∧
      (t'.branches.length ≤ w.next ∨ t'.foundArticles = []) := by
    by_cases helement : trie.isCompoundElement hit.1 = true
    · let t₁ : CompoundTree := { w.tree with foundArticles := [] }
      have hready₁ : TreeReady trie phrases hit.2.wordCount w.next t₁ := hlater.congr rfl rfl
      obtain ⟨hready, hgrows, hfound, hspan, hold⟩ := tryAppendArticle_spec hready₁ hhit.fits
        (hhit.short helement) rfl (FoundOn.phrase hhit.found)
      refine ⟨_, hitSpan hit :: registered, if_pos helement, hready,
        ⟨hgrows.le, hgrows.branch, hgrows.position⟩, List.subset_cons_self _ _,
        fun _ => List.mem_cons_self, ?_, Or.inr hfound⟩
      intro s hs
      rcases List.mem_cons.mp hs with rfl | hs
      · exact hspan
      · exact hold s ((hgoes s hs).congr rfl rfl)
    · exact ⟨w.tree, registered, if_neg helement, hlater, TreeGrows.refl _, List.Subset.refl _,
        fun htrue => absurd htrue helement, hgoes, Or.inl hnext⟩
  obtain ⟨t', registered', ht', hready, hgrows, hsub, helement, hgoes', hfound⟩ := htree
  have hall : ∀ (article : Option FoundArticle) (shown' : List FoundArticle), shown ⊆ shown' →
      (∀ x ∈ shown', x.isCompound = true → x ∈ shown) →
      SearchReady trie phrases { w with hits := hits, now := hit.2.wordCount,
                                        tree := { t' with article := article } }
        (taken ++ [hit]) shown' registered' := by
    intro article shown' hshown hnew
    constructor
    case tree => exact hready.congr rfl rfl
    case next_le => exact h.next_le.trans hgrows.le
    case goesOn => exact fun s hs => (hgoes' s hs).congr rfl rfl
    case pending =>
      intro hit' hmem
      rw [show w.pending = [] from hpending] at hmem
      cases hmem
    case processed =>
      apply h.processed_mono ⟨hgrows.le, hgrows.branch, hgrows.position⟩ hshown hsub
      intro hit' hmem
      exact Or.inr hmem
    case found =>
      rcases hfound with hle | hnil
      · exact Or.inl ⟨hpending, hle⟩
      · refine Or.inr fun hit' _ _ hmem => ?_
        rw [show ({ t' with article := article } : CompoundTree).foundArticles = [] from
          hnil] at hmem
        cases hmem
    case taken =>
      intro hit' hmem he
      rcases List.mem_append.mp hmem with hmem | hmem
      · exact hsub (h.taken hit' hmem he)
      · cases List.mem_singleton.mp hmem
        exact helement he
    case shown => exact fun x hx hxc => h.shown x (hnew x hx hxc) hxc
  refine ⟨registered', ?_⟩
  simp only [SearchWork.takeHit, ht']
  by_cases hfake : isFakeArticle hit.1 = true
  · simp only [if_pos hfake, SearchWork.shown, Bool.false_eq_true, if_false, List.append_nil]
    exact hall t'.article shown (List.Subset.refl _) fun x hx _ => hx
  · simp only [if_neg hfake, SearchWork.shown, if_true, Option.toList_some]
    apply hall _ _ (List.subset_append_left _ _)
    intro x hx hxc
    rcases List.mem_append.mp hx with hx | hx
    · exact hx
    · cases List.mem_singleton.mp hx
      cases hxc

/-- Hits come in the order in which their phrases end. -/
structure HitsOrdered (w : SearchWork) : Prop where
  pending : ∀ hit ∈ w.pending, hit.2.wordCount = w.now
  hits : ∀ hit ∈ w.hits, w.now ≤ hit.2.wordCount
  sorted : w.hits.Pairwise fun a b => a.2.wordCount ≤ b.2.wordCount

theorem tick_cases {w w' : SearchWork} {isShown : Bool} (h : w.tick trie = some (isShown, w')) :
    (∃ hit pending, w.pending = hit :: pending ∧
      (isShown, w') = ((w.tree.resetFoundArticle trie hit.1 hit.2).1,
        { w with pending := pending, tree := (w.tree.resetFoundArticle trie hit.1 hit.2).2 })) ∨
    (∃ b, w.pending = [] ∧ w.tree.branches[w.next]? = some b ∧
      (isShown, w') = (false,
        { w with pending := PhraseSearch.branchHits trie w.input w.now b, next := w.next + 1 })) ∨
    ∃ hit hits, w.pending = [] ∧ w.tree.branches[w.next]? = none ∧ w.hits = hit :: hits ∧
      (isShown, w') = w.takeHit trie hit hits := by
  unfold SearchWork.tick at h
  split at h
  · rename_i hit pending hpending
    cases h
    exact Or.inl ⟨hit, pending, hpending, rfl⟩
  · rename_i hpending
    split at h
    · rename_i b hb
      cases h
      exact Or.inr (Or.inl ⟨b, hpending, hb, rfl⟩)
    · rename_i hb
      split at h
      · cases h
      · rename_i hit hits hhits
        exact Or.inr (Or.inr ⟨hit, hits, hpending, hb, hhits, (Option.some.inj h).symm⟩)

theorem takeHit_hits (w : SearchWork) (hit : Hit) (hits : List Hit) :
    (w.takeHit trie hit hits).2.hits = hits ∧
      (w.takeHit trie hit hits).2.pending = w.pending ∧
      (w.takeHit trie hit hits).2.now = hit.2.wordCount := by
  unfold SearchWork.takeHit
  dsimp only
  split <;> exact ⟨rfl, rfl, rfl⟩

theorem HitsOrdered.step {w w' : SearchWork} {isShown : Bool} (h : HitsOrdered w)
    (htick : w.tick trie = some (isShown, w')) : HitsOrdered w' ∧ w.now ≤ w'.now := by
  rcases tick_cases htick with ⟨hit, pending, hpending, hw⟩ | ⟨b, hpending, hb, hw⟩ |
    ⟨hit, hits, hpending, hb, hhits, hw⟩
  · cases hw
    exact ⟨⟨fun hit' hmem => h.pending hit' (by rw [hpending]; exact List.mem_cons_of_mem _ hmem),
      h.hits, h.sorted⟩, le_rfl⟩
  · cases hw
    refine ⟨⟨?_, h.hits, h.sorted⟩, le_rfl⟩
    intro hit hmem
    exact (PhraseWords.mk.inj (PhraseSearch.reading_of_mem_branchHits trie hmem)).2.1
  · have hw' : w' = (w.takeHit trie hit hits).2 := congrArg Prod.snd hw
    obtain ⟨hleft, hpending', hnow⟩ := @takeHit_hits trie w hit hits
    have hsorted := h.sorted
    rw [hhits, List.pairwise_cons] at hsorted
    rw [hw']
    refine ⟨⟨?_, ?_, ?_⟩, ?_⟩
    · rw [hpending', hpending]
      simp
    · rw [hleft, hnow]
      exact hsorted.1
    · rw [hleft]
      exact hsorted.2
    · rw [hnow]
      exact h.hits hit (by rw [hhits]; exact List.mem_cons_self)

theorem article_of_resetFoundArticle {id : ℕ} {phrase : PhraseWords} {t : CompoundTree}
    (h : (t.resetFoundArticle trie id phrase).1 = true) :
    (t.resetFoundArticle trie id phrase).2.article = some ⟨id, phrase, true⟩ := by
  unfold CompoundTree.resetFoundArticle at h ⊢
  dsimp only at h ⊢
  split at h
  · cases h
  · rename_i hnew
    rw [if_neg hnew]
    split at h
    · cases h
    · rename_i hreal
      rw [if_neg hreal]

theorem compound_shown {w w' : SearchWork} {isShown : Bool}
    (htick : w.tick trie = some (isShown, w'))
    {x : FoundArticle} (hx : x ∈ w'.shown isShown) (hcompound : x.isCompound = true) :
    ∃ hit ∈ w.pending, x = ⟨hit.1, hit.2, true⟩ ∧ w'.now = w.now := by
  have hshown : isShown = true := by
    by_contra hne
    rw [SearchWork.shown, if_neg hne] at hx
    cases hx
  subst hshown
  rw [SearchWork.shown, if_pos rfl, Option.mem_toList] at hx
  rcases tick_cases htick with ⟨hit, pending, hpending, hw⟩ | ⟨b, -, -, hw⟩ |
    ⟨hit, hits, -, -, -, hw⟩
  · obtain ⟨htrue, rfl⟩ := Prod.mk.inj hw
    have harticle := article_of_resetFoundArticle htrue.symm
    have hmem : hit ∈ w.pending := by
      rw [hpending]
      exact List.mem_cons_self
    exact ⟨hit, hmem, Option.some.inj (hx.symm.trans harticle), rfl⟩
  · cases hw
  · unfold SearchWork.takeHit at hw
    dsimp only at hw
    split at hw
    · cases hw
    · cases hw
      cases hx
      cases hcompound

theorem HitsOrdered.shown_now {w w' : SearchWork} {isShown : Bool} (h : HitsOrdered w)
    (htick : w.tick trie = some (isShown, w')) {x : FoundArticle} (hx : x ∈ w'.shown isShown)
    (hcompound : x.isCompound = true) : x.words.wordCount = w'.now := by
  obtain ⟨hit, hmem, rfl, hnow⟩ := compound_shown htick hx hcompound
  rw [hnow]
  exact h.pending hit hmem

theorem HitsOrdered.now_le {k : ℕ} {w last : SearchWork} {found : List FoundArticle}
    (h : HitsOrdered w) (hticks : SearchWork.Ticks trie k w found last) :
    ∀ x ∈ found, x.isCompound = true → w.now ≤ x.words.wordCount := by
  induction hticks with
  | refl => simp
  | step htick _ ih =>
    intro x hx hcompound
    obtain ⟨hordered, hle⟩ := h.step htick
    rcases List.mem_append.mp hx with hx | hx
    · exact hle.trans (h.shown_now htick hx hcompound).ge
    · exact hle.trans (ih hordered x hx hcompound)

/-- The hits that are left can be taken when their turn comes. -/
structure HitsReady (trie : GztTrie) (phrases : ArticleSpan → Prop) (hits : List Hit) : Prop where
  fits : ∀ hit ∈ hits, HitFits hit
  short : ∀ hit ∈ hits, trie.isCompoundElement hit.1 = true → hit.2.words.length ≤ 255
  found : ∀ hit ∈ hits, phrases (hitSpan hit)

theorem SearchReady.step {w w' : SearchWork} {taken : List Hit} {shown : List FoundArticle}
    {registered : List ArticleSpan} {isShown : Bool}
    (h : SearchReady trie phrases w taken shown registered) (hplain : PlainCompounds trie)
    (hspans : ∀ s, FoundOn trie phrases s → s.first < s.last) (hordered : HitsOrdered w)
    (hready : HitsReady trie phrases w.hits) (hshort : ShortUpTo trie phrases w.now)
    (htick : w.tick trie = some (isShown, w')) :
    ∃ taken' registered', SearchReady trie phrases w' taken' (shown ++ w'.shown isShown)
      registered' ∧
      taken' ++ w'.hits = taken ++ w.hits := by
  rcases tick_cases htick with ⟨hit, pending, hpending, -⟩ | ⟨b, hpending, hb, -⟩ |
    ⟨hit, hits, hpending, hb, hhits, hw⟩
  · obtain ⟨hleft, registered', hnext⟩ := h.pop hplain hshort hpending htick
    exact ⟨taken, registered', hnext, by rw [hleft]⟩
  · obtain ⟨hleft, hnext⟩ := h.loadBranch hplain hspans hpending hb htick
    exact ⟨taken, registered, hnext, by rw [hleft]⟩
  · have hmem : hit ∈ w.hits := by
      rw [hhits]
      exact List.mem_cons_self
    obtain ⟨registered', hnext⟩ := h.takeHit hpending (List.getElem?_eq_none_iff.mp hb)
      ⟨hready.fits hit hmem, hready.short hit hmem, hordered.hits hit hmem, hready.found hit hmem⟩
      hits
    have hleft := (@takeHit_hits trie w hit hits).1
    have hfirst : isShown = (w.takeHit trie hit hits).1 := congrArg Prod.fst hw
    have hsecond : w' = (w.takeHit trie hit hits).2 := congrArg Prod.snd hw
    rw [hfirst, hsecond]
    exact ⟨taken ++ [hit], registered', hnext, by rw [hleft, hhits, List.append_assoc]; rfl⟩

theorem HitsReady.step {w w' : SearchWork} {isShown : Bool} (h : HitsReady trie phrases w.hits)
    (htick : w.tick trie = some (isShown, w')) : HitsReady trie phrases w'.hits := by
  rcases tick_cases htick with ⟨hit, pending, hpending, hw⟩ | ⟨b, hpending, hb, hw⟩ |
    ⟨hit, hits, hpending, hb, hhits, hw⟩
  · cases hw
    exact h
  · cases hw
    exact h
  · have hw' : w' = (w.takeHit trie hit hits).2 := congrArg Prod.snd hw
    have hsub : ∀ hit' ∈ w'.hits, hit' ∈ w.hits := by
      intro hit' hmem
      rw [hw', (takeHit_hits w hit hits).1] at hmem
      rw [hhits]
      exact List.mem_cons_of_mem _ hmem
    exact ⟨fun x hx => h.fits x (hsub x hx), fun x hx => h.short x (hsub x hx),
      fun x hx => h.found x (hsub x hx)⟩

theorem SearchReady.run {k : ℕ} {w last : SearchWork} {found : List FoundArticle}
    (hticks : SearchWork.Ticks trie k w found last) {taken : List Hit} {shown : List FoundArticle}
    {registered : List ArticleSpan} (h : SearchReady trie phrases w taken shown registered)
    (hplain : PlainCompounds trie) (hspans : ∀ s, FoundOn trie phrases s → s.first < s.last)
    (hordered : HitsOrdered w) (hready : HitsReady trie phrases w.hits)
    (hshort : ∀ now, ShortUpTo trie phrases now) :
    ∃ taken' registered', SearchReady trie phrases last taken' (shown ++ found) registered' ∧
      taken' ++ last.hits = taken ++ w.hits := by
  induction hticks generalizing taken shown registered with
  | refl => exact ⟨taken, registered, by rw [List.append_nil]; exact h, rfl⟩
  | step htick _ ih =>
    obtain ⟨taken', registered', hnext, hleft⟩ := h.step hplain hspans hordered hready
      (hshort _) htick
    obtain ⟨taken'', registered'', hlast, hleft'⟩ :=
      ih hnext (hordered.step htick).1 (hready.step htick)
    rw [List.append_assoc] at hlast
    exact ⟨taken'', registered'', hlast, hleft'.trans hleft⟩

theorem tick_eq_none {w : SearchWork} (h : w.tick trie = none) :
    w.pending = [] ∧ w.tree.branches.length ≤ w.next ∧ w.hits = [] := by
  unfold SearchWork.tick at h
  split at h
  · cases h
  · rename_i hpending
    split at h
    · cases h
    · rename_i hb
      split at h
      · rename_i hhits
        exact ⟨hpending, List.getElem?_eq_none_iff.mp hb, hhits⟩
      · cases h

/-- When the search is over, every element has gone on and every compound article is shown. -/
theorem SearchReady.complete {w : SearchWork} {taken : List Hit} {shown : List FoundArticle}
    {registered : List ArticleSpan} (h : SearchReady trie phrases w taken shown registered)
    (hend : w.tick trie = none) (hphrases : ∀ s, phrases s → ∃ hit ∈ taken, hitSpan hit = s) :
    (∀ s, FoundOn trie phrases s → trie.isCompoundElement s.articleId = true → s ∈ registered) ∧
      ∀ s, CompoundOn trie phrases s → CompoundSettled trie shown registered s := by
  obtain ⟨hpending, hnext, -⟩ := tick_eq_none hend
  have hcompound : ∀ (s : ArticleSpan) (chain : List ArticleSpan) (bucket : ArticleBucket),
      (∀ x ∈ chain, trie.isCompoundElement x.articleId = true → x ∈ registered) →
      Adjacent chain s.first s.last → chain ≠ [] →
      trie.compoundTrie.find (chain.map (·.articleId)) = some bucket →
      s.articleId ∈ trie.iterSimple bucket → CompoundSettled trie shown registered s := by
    intro s chain bucket hchain hadjacent hne hkey ha
    have helement : ∀ x ∈ chain, trie.isCompoundElement x.articleId = true := by
      intro x hx
      rw [GztTrie.isCompoundElement, List.any_eq_true]
      exact ⟨_, Trie.mem_of_find hkey, by simpa using ⟨x, hx, rfl⟩⟩
    obtain ⟨k, b, hb, htails, hlength, hk⟩ := hasBranch_of_chain chain hne
      (fun x hx => h.goesOn x (hchain x hx (helement x hx))) hadjacent (Trie.tailsAlong_ne_nil hkey)
    have hbucket : b.getFinalData = some bucket := by
      rw [Branch.getFinalData, htails, Trie.findEmpty_tailsAlong]
      exact hkey
    have hlt := h.tree.lt k s.last hk
    rcases h.processed k (hlt.trans_le hnext) b hb bucket hbucket s ha hlength hk with
      hsettled | ⟨hit, hhit, -⟩
    · exact hsettled
    · rw [hpending] at hhit
      cases hhit
  have hfound : ∀ s, FoundOn trie phrases s → trie.isCompoundElement s.articleId = true →
      s ∈ registered := by
    intro s hs
    induction hs with
    | phrase hphrase =>
      intro helement
      obtain ⟨hit, hhit, rfl⟩ := hphrases _ hphrase
      exact h.taken hit hhit helement
    | compound hchain hadjacent hne hkey ha ih =>
      intro helement
      exact (hcompound _ _ _ ih hadjacent hne hkey ha).element helement
  refine ⟨hfound, ?_⟩
  rintro s ⟨chain, bucket, hchain, hadjacent, hne, hkey, ha⟩
  exact hcompound s chain bucket (fun x hx => hfound x (hchain x hx)) hadjacent hne hkey ha

theorem foundArticles_tryAppendTo (source : Branch ArticleBucket) (id : ℕ) (words : List InputWord)
    (last : ℕ) (t : CompoundTree) :
    (t.tryAppendTo source id words last).foundArticles = t.foundArticles := by
  unfold CompoundTree.tryAppendTo
  split <;> rfl

theorem foundArticles_tryAppendArticle (id : ℕ) (phrase : PhraseWords) (t : CompoundTree) :
    (t.tryAppendArticle trie id phrase).foundArticles = t.foundArticles := by
  have hloop : ∀ (words : List InputWord) (last : ℕ) (indices : List ℕ) (t : CompoundTree),
      (indices.foldl (CompoundTree.tryAppendAt id words last) t).foundArticles =
        t.foundArticles := by
    intro words last indices
    induction indices with
    | nil =>
      intro t
      rfl
    | cons k indices ih =>
      intro t
      rw [List.foldl_cons, ih]
      unfold CompoundTree.tryAppendAt
      split
      · rfl
      · exact foundArticles_tryAppendTo _ _ _ _ _
  unfold CompoundTree.tryAppendArticle CompoundTree.tryAppendSequence
  dsimp only
  rw [hloop, foundArticles_tryAppendTo]

theorem foundArticles_resetFoundArticle (id : ℕ) (phrase : PhraseWords) (t : CompoundTree) :
    (t.resetFoundArticle trie id phrase).2.foundArticles =
      if (id, phrase.words.length) ∈ t.foundArticles then t.foundArticles
      else t.foundArticles ++ [(id, phrase.words.length)] := by
  unfold CompoundTree.resetFoundArticle
  dsimp only
  by_cases h : (id, phrase.words.length) ∈ t.foundArticles
  · rw [if_pos (by simpa using h), if_pos h]
  · rw [if_neg (by simpa using h), if_neg h]
    by_cases helement : trie.isCompoundElement id = true
    · simp only [if_pos helement]
      split
      · exact foundArticles_tryAppendArticle _ _ _
      · exact foundArticles_tryAppendArticle _ _ _
    · simp only [if_neg helement]
      split <;> rfl

/-- The articles of compound keys. -/
def compoundArticles (trie : GztTrie) : List ℕ := trie.compoundTrie.flatMap fun key =>
    trie.iterSimple key.2

/-- What the list of found articles can hold. -/
def possibleArticles (trie : GztTrie) : List (ℕ × ℕ) :=
  (compoundArticles trie).flatMap fun a => (List.range 256).map fun n => (a, n)

/-- Found articles are listed once. -/
structure FoundBounded (trie : GztTrie) (w : SearchWork) : Prop where
  nodup : w.tree.foundArticles.Nodup
  possible : w.tree.foundArticles ⊆ possibleArticles trie

theorem FoundBounded.length_le {w : SearchWork} (h : FoundBounded trie w) :
    w.tree.foundArticles.length ≤ (possibleArticles trie).length :=
  (List.subperm_of_subset h.nodup h.possible).length_le

theorem mem_possibleArticles {hit : Hit}
    (hcompound : CompoundOn trie phrases (hitSpan hit)) (hshort : hit.2.words.length ≤ 255) :
    (hit.1, hit.2.words.length) ∈ possibleArticles trie := by
  obtain ⟨chain, bucket, -, -, -, hkey, ha⟩ := hcompound
  refine List.mem_flatMap.mpr ⟨hit.1, List.mem_flatMap.mpr ⟨_, Trie.mem_of_find hkey, ha⟩, ?_⟩
  exact List.mem_map_of_mem (List.mem_range.mpr (by omega))

theorem SearchReady.short {w : SearchWork} {taken : List Hit} {shown : List FoundArticle}
    {registered : List ArticleSpan} (h : SearchReady trie phrases w taken shown registered)
    (hshort : ShortUpTo trie phrases w.now) {hit : Hit} (hmem : hit ∈ w.pending) :
    hit.2.words.length ≤ 255 := by
  obtain ⟨hfits, hnow, hcompound⟩ := h.pending hit hmem
  have hlength := hshort (hitSpan hit) hcompound hnow.le
  have := hfits.le
  simp only [hitSpan] at hlength
  omega

/-- A step takes a hit, finds a new article, takes a branch or an article of the branch. -/
theorem SearchReady.step_bounded {w w' : SearchWork} {taken : List Hit} {shown : List FoundArticle}
    {registered : List ArticleSpan} {isShown : Bool}
    (h : SearchReady trie phrases w taken shown registered) (hbounded : FoundBounded trie w)
    (hshort : ShortUpTo trie phrases w.now) (htick : w.tick trie = some (isShown, w')) :
    FoundBounded trie w' ∧
      (w'.hits.length < w.hits.length ∨ w'.hits = w.hits ∧
        (w.tree.foundArticles.length < w'.tree.foundArticles.length ∨
          w'.tree.foundArticles = w.tree.foundArticles ∧
            (w'.tree.branches.length - w'.next < w.tree.branches.length - w.next ∨
              w'.tree.branches = w.tree.branches ∧ w'.next = w.next ∧
                w'.pending.length < w.pending.length))) := by
  rcases tick_cases htick with ⟨hit, pending, hpending, hw⟩ | ⟨b, hpending, hb, hw⟩ |
    ⟨hit, hits, hpending, hb, hhits, hw⟩
  · have hmem : hit ∈ w.pending := by
      rw [hpending]
      exact List.mem_cons_self
    have hfound := @foundArticles_resetFoundArticle trie hit.1 hit.2 w.tree
    by_cases hold : (hit.1, hit.2.words.length) ∈ w.tree.foundArticles
    · have hskip : w.tree.resetFoundArticle trie hit.1 hit.2 = (false, w.tree) := by
        rw [CompoundTree.resetFoundArticle, if_pos (by simpa using hold)]
      rw [hskip] at hw
      cases hw
      exact ⟨⟨hbounded.nodup, hbounded.possible⟩,
        Or.inr ⟨rfl, Or.inr ⟨rfl, Or.inr ⟨rfl, rfl, by rw [hpending]; exact Nat.lt_succ_self _⟩⟩⟩⟩
    · rw [if_neg hold] at hfound
      cases hw
      refine ⟨⟨?_, ?_⟩, Or.inr ⟨rfl, Or.inl ?_⟩⟩
      · rw [show _ = _ from hfound]
        exact List.nodup_append.mpr ⟨hbounded.nodup, List.nodup_singleton _, by
          intro p hp q hq hpq
          cases List.mem_singleton.mp hq
          exact hold (hpq ▸ hp)⟩
      · rw [show _ = _ from hfound]
        intro p hp
        rcases List.mem_append.mp hp with hp | hp
        · exact hbounded.possible hp
        · cases List.mem_singleton.mp hp
          exact mem_possibleArticles (h.pending hit hmem).2.2
            (h.short hshort hmem)
      · rw [show _ = _ from hfound, List.length_append]
        exact Nat.lt_succ_self _
  · cases hw
    have hlt := (List.getElem?_eq_some_iff.mp hb).1
    exact ⟨⟨hbounded.nodup, hbounded.possible⟩,
      Or.inr ⟨rfl, Or.inr ⟨rfl, Or.inl (by dsimp only; omega)⟩⟩⟩
  · have hw' : w' = (w.takeHit trie hit hits).2 := congrArg Prod.snd hw
    have hleft := (@takeHit_hits trie w hit hits).1
    have hfound : (w.takeHit trie hit hits).2.tree.foundArticles = w.tree.foundArticles ∨
        (w.takeHit trie hit hits).2.tree.foundArticles = [] := by
      unfold SearchWork.takeHit
      dsimp only
      by_cases helement : trie.isCompoundElement hit.1 = true
      · simp only [if_pos helement]
        right
        split <;> exact foundArticles_tryAppendArticle _ _ _
      · simp only [if_neg helement]
        left
        split <;> rfl
    rw [hw']
    refine ⟨?_, Or.inl ?_⟩
    · rcases hfound with hfound | hfound
      · exact ⟨by rw [hfound]; exact hbounded.nodup, by rw [hfound]; exact hbounded.possible⟩
      · exact ⟨by rw [hfound]; exact List.nodup_nil, by rw [hfound]; exact List.nil_subset _⟩
    · rw [hleft, hhits]
      exact Nat.lt_succ_self _

theorem SearchReady.ends {w : SearchWork} {taken : List Hit} {shown : List FoundArticle}
    {registered : List ArticleSpan} (h : SearchReady trie phrases w taken shown registered)
    (hplain : PlainCompounds trie) (hspans : ∀ s, FoundOn trie phrases s → s.first < s.last)
    (hordered : HitsOrdered w) (hready : HitsReady trie phrases w.hits)
    (hshort : ∀ now, ShortUpTo trie phrases now) (hbounded : FoundBounded trie w) :
    ∃ k found last, SearchWork.Ticks trie k w found last ∧ last.tick trie = none := by
  cases htick : w.tick trie with
  | none => exact ⟨0, [], w, SearchWork.Ticks.refl w, htick⟩
  | some r =>
    obtain ⟨taken', registered', hnext, -⟩ := h.step hplain hspans hordered hready (hshort _) htick
    obtain ⟨hbounded', hless⟩ := h.step_bounded hbounded (hshort _) htick
    obtain ⟨k, found, last, hticks, hend⟩ := hnext.ends hplain hspans (hordered.step htick).1
      (hready.step htick) hshort hbounded'
    exact ⟨k + 1, _, last, SearchWork.Ticks.step htick hticks, hend⟩
termination_by (w.hits.length, (possibleArticles trie).length - w.tree.foundArticles.length,
  w.tree.branches.length - w.next, w.pending.length)
decreasing_by
  have hle := hbounded'.length_le
  simp only [Prod.lex_def]
  rcases hless with hless | ⟨hhits, hless | ⟨hfound, hless | ⟨hbranches, hnext, hless⟩⟩⟩
  · exact Or.inl hless
  · exact Or.inr ⟨by rw [hhits], Or.inl (by omega)⟩
  · exact Or.inr ⟨by rw [hhits], Or.inr ⟨by rw [hfound], Or.inl hless⟩⟩
  · exact Or.inr ⟨by rw [hhits], Or.inr ⟨by rw [hfound], Or.inr ⟨by rw [hbranches, hnext], hless⟩⟩⟩

end Steps

section PhraseHits
variable {trie : GztTrie}

theorem mem_keepShort {dropLen : ℕ} {b : Branch ArticleBucket}
    (branches : List (Branch ArticleBucket))
    (survive : ℕ) (h : b ∈ SearchTree.keepShort dropLen survive branches) : b ∈ branches := by
  induction branches generalizing survive with
  | nil => exact h
  | cons first rest ih =>
    unfold SearchTree.keepShort at h
    split at h
    · split at h
      · exact List.mem_cons_of_mem _ (ih 0 h)
      · rcases List.mem_cons.mp h with rfl | h
        · exact List.mem_cons_self
        · exact List.mem_cons_of_mem _ (ih _ h)
    · rcases List.mem_cons.mp h with rfl | h
      · exact List.mem_cons_self
      · exact List.mem_cons_of_mem _ (ih _ h)

/-- New branches go on older ones, also when some are dropped. -/
theorem mem_tryAppendWord {t : SearchTree} {id : ℕ} {word : InputWord} {b : Branch ArticleBucket}
    (h : b ∈ (t.tryAppendWord id word).nextBranches) :
    b ∈ t.nextBranches ∨ ∃ parent ∈ t.branches, GztTrie.extend (id, word) parent = some b := by
  have hloop : ∀ (parents : List (Branch ArticleBucket)) (t : SearchTree),
      b ∈ (parents.foldl (SearchTree.tryAppendTo id word) t).nextBranches →
      b ∈ t.nextBranches ∨ ∃ parent ∈ parents, GztTrie.extend (id, word) parent = some b := by
    intro parents
    induction parents with
    | nil => exact fun t h => Or.inl h
    | cons parent parents ih =>
      intro t h
      rw [List.foldl_cons] at h
      rcases ih _ h with h | ⟨parent', hparent', hextend⟩
      · cases htails : parent.tails.findTails id with
        | none =>
          rw [SearchTree.tryAppendTo_none htails] at h
          exact Or.inl h
        | some tails =>
          rw [SearchTree.tryAppendTo_some htails] at h
          unfold SearchTree.addNextStateNewBranch at h
          dsimp only at h
          rcases List.mem_append.mp h with h | h
          · left
            split at h
            · exact mem_keepShort _ _ h
            · exact h
          · right
            refine ⟨parent, List.mem_cons_self, ?_⟩
            rw [GztTrie.extend, htails, List.mem_singleton.mp h]
            rfl
      · exact Or.inr ⟨parent', List.mem_cons_of_mem _ hparent', hextend⟩
  exact hloop t.branches t h

theorem branches_tryAppendWord (t : SearchTree) (id : ℕ) (word : InputWord) :
    (t.tryAppendWord id word).branches = t.branches := by
  have hloop : ∀ (parents : List (Branch ArticleBucket)) (t : SearchTree),
      (parents.foldl (SearchTree.tryAppendTo id word) t).branches = t.branches := by
    intro parents
    induction parents with
    | nil => exact fun t => rfl
    | cons parent parents ih =>
      intro t
      rw [List.foldl_cons, ih]
      cases htails : parent.tails.findTails id with
      | none => rw [SearchTree.tryAppendTo_none htails]
      | some tails =>
        rw [SearchTree.tryAppendTo_some htails]
        rfl
  exact hloop t.branches t

/-- A branch that stands on some of the last words. -/
def OnWords (trie : GztTrie) (count : ℕ) (b : Branch ArticleBucket) : Prop :=
  ∃ readings : List (ℕ × InputWord),
    b = trie.branchOf readings ∧ readings ≠ [] ∧ readings.length ≤ count

theorem takeNextWord_onWords {count : ℕ} (token : Token) {t : SearchTree}
    (hbranches : ∀ b ∈ t.branches, OnWords trie count b) (hnext : t.nextBranches = []) :
    (∀ b ∈ (t.takeNextWord trie token).branches, OnWords trie (count + 1) b) ∧
      (t.takeNextWord trie token).nextBranches = [] := by
  have hloop : ∀ (readings : List (ℕ × InputWord)) (t : SearchTree),
      (∀ b ∈ t.branches, b = trie.root ∨ OnWords trie count b) →
      (∀ b ∈ t.nextBranches, OnWords trie (count + 1) b) →
      ∀ b ∈ (readings.foldl (fun t r => t.tryAppendWord r.1 r.2) t).nextBranches,
        OnWords trie (count + 1) b := by
    intro readings
    induction readings with
    | nil => exact fun t _ h => h
    | cons r readings ih =>
      intro t hbranches hnext
      rw [List.foldl_cons]
      apply ih
      · rw [branches_tryAppendWord]
        exact hbranches
      · intro b hb
        rcases mem_tryAppendWord hb with hb | ⟨parent, hparent, hextend⟩
        · exact hnext b hb
        · rcases hbranches parent hparent with rfl | ⟨before, rfl, -, hlength⟩
          · have hroot : trie.root = trie.branchOf [] := rfl
            rw [hroot] at hextend
            obtain ⟨rfl, -⟩ := (trie.extend_branchOf [] _ b).mp hextend
            exact ⟨[(r.1, r.2)], rfl, by simp, by simp⟩
          · obtain ⟨rfl, -⟩ := (trie.extend_branchOf before _ b).mp hextend
            refine ⟨before ++ [(r.1, r.2)], rfl, by simp, ?_⟩
            rw [List.length_append]
            exact Nat.succ_le_succ hlength
  rw [SearchTree.takeNextWord_eq]
  refine ⟨hloop _ _ ?_ ?_, rfl⟩
  · intro b hb
    rcases List.mem_append.mp hb with hb | hb
    · exact Or.inr (hbranches b hb)
    · exact Or.inl (List.mem_singleton.mp hb)
  · rw [show (t.appendRoot trie.phraseTrie).nextBranches = [] from hnext]
    simp

/-- A hit stands on words that are read, and has as many words as a key. -/
theorem hit_of_branch {input : List Token} {count : ℕ} {b : Branch ArticleBucket}
    (hb : OnWords trie count b) {hit : Hit} (h : hit ∈ PhraseSearch.branchHits trie input count b) :
    HitFits hit ∧ hit.2.wordCount = count ∧
      ∃ key ∈ trie.phraseTrie, key.1.length = hit.2.words.length := by
  obtain ⟨readings, rfl, hne, hle⟩ := hb
  have hreading := PhraseWords.mk.inj (PhraseSearch.reading_of_mem_branchHits trie h)
  have hcopy : (trie.branchOf readings).copyTo.1.length = readings.length := by
    rw [Branch.copyTo_single]
    · simp [GztTrie.branchOf]
    · intro w hw
      obtain ⟨r, -, rfl⟩ := List.mem_map.mp hw
      rfl
  have hwords : hit.2.words.length = readings.length := by
    rw [← hcopy]
    have := congrArg List.length hreading.2.2
    simpa using this
  have hcount : hit.2.wordCount = count := hreading.2.1
  have hpos := List.length_pos_iff.mpr hne
  have hkey : ∃ bucket, trie.phraseTrie.find (readings.map Prod.fst) = some bucket := by
    unfold PhraseSearch.branchHits PhraseCursor.ofBranch at h
    rw [show (trie.branchOf readings).getFinalData = trie.phraseTrie.find
      (readings.map Prod.fst) from
      Trie.findEmpty_tailsAlong _ _] at h
    cases hfind : trie.phraseTrie.find (readings.map Prod.fst) with
    | none =>
      rw [hfind] at h
      cases h
    | some bucket => exact ⟨bucket, rfl⟩
  obtain ⟨bucket, hkey⟩ := hkey
  refine ⟨⟨?_, by omega⟩, hcount, _, Trie.mem_of_find hkey, ?_⟩
  · apply List.ne_nil_of_length_pos
    omega
  · rw [List.length_map, hwords]

theorem unreadHits_ready (input unread : List Token) (count : ℕ) {t : SearchTree}
    (hbranches : ∀ b ∈ t.branches, OnWords trie count b) (hnext : t.nextBranches = []) :
    (∀ hit ∈ PhraseSearch.unreadHits trie input unread count t,
      HitFits hit ∧ count < hit.2.wordCount ∧
        ∃ key ∈ trie.phraseTrie, key.1.length = hit.2.words.length) ∧
      (PhraseSearch.unreadHits trie input unread count t).Pairwise
        fun a b => a.2.wordCount ≤ b.2.wordCount := by
  induction unread generalizing count t with
  | nil => exact ⟨by simp [PhraseSearch.unreadHits], List.Pairwise.nil⟩
  | cons token unread ih =>
    obtain ⟨hbranches', hnext'⟩ := takeNextWord_onWords token hbranches hnext
    obtain ⟨hrest, hsorted⟩ := ih (count + 1) hbranches' hnext'
    have hhere : ∀ hit ∈ (t.takeNextWord trie token).branches.flatMap
        (PhraseSearch.branchHits trie input (count + 1)),
        HitFits hit ∧ hit.2.wordCount = count + 1 ∧
          ∃ key ∈ trie.phraseTrie, key.1.length = hit.2.words.length := by
      intro hit hmem
      obtain ⟨b, hb, hhit⟩ := List.mem_flatMap.mp hmem
      exact hit_of_branch (hbranches' b hb) hhit
    unfold PhraseSearch.unreadHits
    dsimp only
    constructor
    · intro hit hmem
      rcases List.mem_append.mp hmem with hmem | hmem
      · obtain ⟨hfits, hcount, hkey⟩ := hhere hit hmem
        exact ⟨hfits, by omega, hkey⟩
      · obtain ⟨hfits, hcount, hkey⟩ := hrest hit hmem
        exact ⟨hfits, by omega, hkey⟩
    · rw [List.pairwise_append]
      refine ⟨List.pairwise_iff_forall_sublist.mpr ?_, hsorted, ?_⟩
      · intro a b hsub
        have ha := hhere a (hsub.subset (by simp))
        have hb := hhere b (hsub.subset (by simp))
        omega
      · intro a ha b hb
        have := (hhere a ha).2.1
        have := (hrest b hb).2.1
        omega

end PhraseHits

section Exact
variable {trie : GztTrie} {input : List Token}

/-- The iterator ends, and shows compound articles on the spans on which they stand and no others.
-/
def CompoundsExact (trie : GztTrie) (input : List Token) : Prop :=
  ∃ found, ArticleIter.Yields trie input found ∧
    ∀ s, (∃ x ∈ found, x.isCompound = true ∧ x.span = s) ↔ CompoundOn trie (PhraseOn trie input) s

theorem initial_ready (trie : GztTrie) (input : List Token) :
    (∀ hit ∈ (SearchWork.initial trie input).hits, HitFits hit ∧ 0 < hit.2.wordCount ∧
      ∃ key ∈ trie.phraseTrie, key.1.length = hit.2.words.length) ∧
    HitsOrdered (SearchWork.initial trie input) := by
  obtain ⟨hhits, hsorted⟩ := @unreadHits_ready trie input input 0 {} (by simp) rfl
  exact ⟨hhits, by simp [SearchWork.initial], fun hit _ => Nat.zero_le _, hsorted⟩

theorem searchReady_initial (phrases : ArticleSpan → Prop) :
    SearchReady trie phrases (SearchWork.initial trie input) [] [] [] := by
  constructor
  case tree => exact ⟨by simp [SearchWork.initial], by simp [SearchWork.initial],
    by simp [SearchWork.initial]⟩
  case next_le => exact Nat.zero_le _
  case goesOn => simp
  case pending => simp [SearchWork.initial]
  case processed =>
    intro k hk
    exact absurd hk (Nat.not_lt_zero k)
  case found => exact Or.inl ⟨rfl, le_rfl⟩
  case taken => simp
  case shown => simp

theorem hitsReady_initial (hkeys : ∀ key ∈ trie.phraseTrie, key.1.length ≤ 255) :
    HitsReady trie (PhraseOn trie input) (SearchWork.initial trie input).hits := by
  obtain ⟨hhits, -⟩ := initial_ready trie input
  refine ⟨fun hit hmem => (hhits hit hmem).1, fun hit hmem _ => ?_, fun hit hmem =>
    ⟨hit, hmem, rfl⟩⟩
  obtain ⟨-, -, key, hkey, hlength⟩ := hhits hit hmem
  rw [← hlength]
  exact hkeys key hkey

theorem foundOn_lt {s : ArticleSpan} (h : FoundOn trie (PhraseOn trie input) s) :
    s.first < s.last := by
  induction h with
  | phrase hphrase =>
    obtain ⟨hit, hmem, rfl⟩ := hphrase
    have hfits := ((initial_ready trie input).1 hit hmem).1
    have hlength := hitSpan_length hfits
    have := List.length_pos_iff.mpr hfits.ne
    omega
  | compound hchain hadjacent hne hkey ha ih => exact adjacent_lt ih hne hadjacent

theorem compoundsExact_of_short (hplain : PlainCompounds trie)
    (hkeys : ∀ key ∈ trie.phraseTrie, key.1.length ≤ 255)
    (hshort : ∀ s, CompoundOn trie (PhraseOn trie input) s → s.last ≤ s.first + 255) :
    CompoundsExact trie input := by
  have hready := @searchReady_initial trie input (PhraseOn trie input)
  have hordered := (initial_ready trie input).2
  have hhits := @hitsReady_initial trie input hkeys
  have hspans : ∀ s, FoundOn trie (PhraseOn trie input) s → s.first < s.last := fun s => foundOn_lt
  have hshort' : ∀ now, ShortUpTo trie (PhraseOn trie input) now := fun _ s hs _ => hshort s hs
  obtain ⟨k, found, last, hticks, hend⟩ := hready.ends hplain hspans hordered hhits hshort'
    ⟨List.nodup_nil, List.nil_subset _⟩
  obtain ⟨taken, registered, hlast, hleft⟩ :=
    SearchReady.run hticks hready hplain hspans hordered hhits hshort'
  rw [(tick_eq_none hend).2.2, List.append_nil, List.nil_append] at hleft
  have hcomplete := (hlast.complete hend (by
    intro s hs
    rw [hleft]
    exact hs)).2
  refine ⟨found, (yields_iff_ticks input found).mpr ⟨k, last, hticks, hend⟩, ?_⟩
  intro s
  constructor
  · rintro ⟨x, hx, hcompound, rfl⟩
    exact hlast.shown x hx hcompound
  · intro hs
    exact (hcomplete s hs).isShown

theorem ShortUpTo.mono {phrases : ArticleSpan → Prop} {now now' : ℕ}
    (h : ShortUpTo trie phrases now') (hle : now ≤ now') : ShortUpTo trie phrases now :=
  fun s hs hlast => h s hs (hlast.trans hle)

theorem SearchReady.shown_last {k : ℕ} {w last : SearchWork} {found : List FoundArticle}
    (hticks : SearchWork.Ticks trie k w found last) {phrases : ArticleSpan → Prop}
    {taken : List Hit}
    {shown : List FoundArticle} {registered : List ArticleSpan}
    (h : SearchReady trie phrases w taken shown registered) (hplain : PlainCompounds trie)
    (hspans : ∀ s, FoundOn trie phrases s → s.first < s.last) (hordered : HitsOrdered w)
    (hready : HitsReady trie phrases w.hits) {x : FoundArticle} (hx : x ∈ found)
    (hcompound : x.isCompound = true) (hshort : ShortUpTo trie phrases x.words.wordCount) :
    x.span.last = x.words.wordCount := by
  induction hticks generalizing taken shown registered with
  | refl => cases hx
  | @step n w w' w'' isShown found htick hrest ih =>
    obtain ⟨hordered', hle⟩ := hordered.step htick
    have hnow : w'.now ≤ x.words.wordCount := by
      rcases List.mem_append.mp hx with hx | hx
      · exact (hordered.shown_now htick hx hcompound).ge
      · exact hordered'.now_le hrest x hx hcompound
    have hshort' := hshort.mono (hle.trans hnow)
    rcases List.mem_append.mp hx with hx | hx
    · obtain ⟨hit, hmem, rfl, -⟩ := compound_shown htick hx hcompound
      rw [span_eq_hitSpan (h.pending hit hmem).1 (h.short hshort' hmem)]
      rfl
    · obtain ⟨taken', registered', hnext, -⟩ :=
        h.step hplain hspans hordered hready hshort' htick
      exact ih hnext hordered' (hready.step htick) hx

theorem short_of_compoundsExact (hplain : PlainCompounds trie)
    (hkeys : ∀ key ∈ trie.phraseTrie, key.1.length ≤ 255) (h : CompoundsExact trie input) :
    ∀ s, CompoundOn trie (PhraseOn trie input) s → s.last ≤ s.first + 255 := by
  obtain ⟨found, hyields, hexact⟩ := h
  obtain ⟨k, last, hticks, -⟩ := (yields_iff_ticks input found).mp hyields
  -- the first end of a span that is too long is never reached with the right position
  have hend : ∀ n s, s.last = n → CompoundOn trie (PhraseOn trie input) s →
      s.last ≤ s.first + 255 := by
    intro n
    induction n using Nat.strong_induction_on with
    | _ n ih =>
      rintro s rfl hs
      by_contra hlong
      obtain ⟨x, hx, hcompound, rfl⟩ := (hexact s).mpr hs
      have hlast : x.span.last = x.words.pos + x.words.words.length := rfl
      have hfirst : x.span.first = x.words.wordCount - x.words.words.length % 256 := rfl
      have hpos : x.words.pos = x.span.first := rfl
      have hmod := Nat.mod_lt x.words.words.length (show 0 < 256 by omega)
      have hcount : x.words.wordCount < x.span.last := by omega
      have hshort : ShortUpTo trie (PhraseOn trie input) x.words.wordCount :=
        fun s' hs' hle => ih s'.last (hle.trans_lt hcount) s' rfl hs'
      have hright := SearchReady.shown_last hticks
        (@searchReady_initial trie input (PhraseOn trie input)) hplain
        (fun s => foundOn_lt) (initial_ready trie input).2 (hitsReady_initial hkeys) hx
          hcompound hshort
      omega
  exact fun s hs => hend s.last s rfl hs

/-- The compound search is exact if and only if no compound article has more words than a reverse
word number can tell. -/
theorem compoundsExact_iff (trie : GztTrie) (input : List Token) (hplain : PlainCompounds trie)
    (hkeys : ∀ key ∈ trie.phraseTrie, key.1.length ≤ 255) :
    CompoundsExact trie input ↔
      ∀ s, CompoundOn trie (PhraseOn trie input) s → s.last ≤ s.first + 255 :=
  ⟨short_of_compoundsExact hplain hkeys, compoundsExact_of_short hplain hkeys⟩

/-- The article 7 for a word, and the article 8 with the keys `$7` and `$8 $7`. -/
def recursiveTrie : GztTrie where
  wordTrie _ := some 5
  phraseTrie := [([5], ⟨0, 1⟩)]
  compoundTrie := [([7], ⟨2, 1⟩), ([8, 7], ⟨2, 1⟩)]
  articleFilter := ⟨{}, {}, {}, {}, {}, {}, {}, {}, {}, {}, { items := [7, 8] }, 0⟩
  tables := ⟨fun _ => false, fun _ => false, fun _ => false, fun g _ => g, fun _ _ => true⟩

theorem recursiveTrie_iterSimple : recursiveTrie.iterSimple ⟨0, 1⟩ = [7] ∧
    recursiveTrie.iterSimple ⟨2, 1⟩ = [8] := by
  simp [GztTrie.iterSimple, recursiveTrie, CompactStorageBuilder.get,
    CompactStorageBuilder.isSingleItem, CompactStorageBuilder.getItem]

theorem recursiveTrie_plain : PlainCompounds recursiveTrie := by
  have hbucket : ∀ key ∈ recursiveTrie.compoundTrie, key.2 = ⟨2, 1⟩ := by
    simp [recursiveTrie]
  constructor
  · intro key hkey
    rw [hbucket key hkey]
    simp [GztTrie.iterFiltered, recursiveTrie, CompactStorageBuilder.get,
      CompactStorageBuilder.isSingleItem, CompactStorageBuilder.getItemSet]
  · intro key hkey a ha
    rw [hbucket key hkey, recursiveTrie_iterSimple.2] at ha
    cases List.mem_singleton.mp ha
    rfl

theorem recursiveTrie_keys : ∀ key ∈ recursiveTrie.phraseTrie, key.1.length ≤ 255 := by
  simp [recursiveTrie]

theorem compoundsExact_iff_recursiveTrie :
    CompoundsExact recursiveTrie [GztTrie.repeatedWord, GztTrie.repeatedWord] ↔
      ∀ s, CompoundOn recursiveTrie
          (PhraseOn recursiveTrie [GztTrie.repeatedWord, GztTrie.repeatedWord]) s →
        s.last ≤ s.first + 255 :=
  compoundsExact_iff recursiveTrie [GztTrie.repeatedWord, GztTrie.repeatedWord]
    recursiveTrie_plain recursiveTrie_keys

theorem recursiveTrie_phraseOn (n i : ℕ) (hn : n ≤ SearchTree.maxBranches) (hi : i < n) :
    PhraseOn recursiveTrie (List.replicate n GztTrie.repeatedWord) ⟨7, i, i + 1⟩ := by
  have hexact : WordId.checkAndForce true 5 = some 5 := by decide
  have hlemma : WordId.checkAndForce false 5 = none := by decide
  have hreadings : (recursiveTrie.readings GztTrie.repeatedWord).length = 1 := by
    simp [GztTrie.readings, GztTrie.repeatedWord, GztTrie.plainReadings, GztTrie.findWordId,
      recursiveTrie,
      hexact, hlemma]
  have hfew := GztTrie.fewBranches_replicate hreadings n hn
  refine ⟨(7, ⟨List.replicate n GztTrie.repeatedWord, i + 1, [{}]⟩), ?_, rfl⟩
  refine (GztTrie.mem_hits _ hfew _).mpr ⟨i, List.replicate i GztTrie.repeatedWord,
    [GztTrie.repeatedWord],
    List.replicate (n - i - 1) GztTrie.repeatedWord, [(5, {})], ⟨0, 1⟩, ?_, List.length_replicate,
    List.cons_ne_nil _ _, List.Forall₂.cons (GztTrie.Reading.exactForm hexact) List.Forall₂.nil, ?_,
    Or.inl ⟨?_, rfl⟩⟩
  · rw [show [GztTrie.repeatedWord] = List.replicate 1 GztTrie.repeatedWord from
      rfl, List.replicate_append_replicate,
      List.replicate_append_replicate]
    congr 1
    omega
  · simp [Trie.find, recursiveTrie]
  · rw [recursiveTrie_iterSimple.1]
    exact List.mem_singleton_self 7

theorem recursiveTrie_compoundOn (n m : ℕ) (hn : n ≤ SearchTree.maxBranches) (hm : m < n) :
    CompoundOn recursiveTrie (PhraseOn recursiveTrie (List.replicate n GztTrie.repeatedWord))
      ⟨8, 0, m + 1⟩ := by
  have hphrase : ∀ i < n, FoundOn recursiveTrie
      (PhraseOn recursiveTrie (List.replicate n GztTrie.repeatedWord)) ⟨7, i, i + 1⟩ :=
    fun i hi => FoundOn.phrase (recursiveTrie_phraseOn n i hn hi)
  induction m with
  | zero =>
    refine ⟨[⟨7, 0, 1⟩], ⟨2, 1⟩, ?_, ⟨rfl, rfl⟩, List.cons_ne_nil _ _, ?_, ?_⟩
    · simpa using hphrase 0 hm
    · simp [Trie.find, recursiveTrie]
    · rw [recursiveTrie_iterSimple.2]
      exact List.mem_singleton_self 8
  | succ m ih =>
    refine ⟨[⟨8, 0, m + 1⟩, ⟨7, m + 1, m + 2⟩], ⟨2, 1⟩, ?_, ⟨rfl, rfl, rfl⟩,
      List.cons_ne_nil _ _, ?_, ?_⟩
    · simpa using ⟨(ih (by omega)).foundOn, hphrase (m + 1) hm⟩
    · simp [Trie.find, recursiveTrie]
    · rw [recursiveTrie_iterSimple.2]
      exact List.mem_singleton_self 8

/-- On 256 words the compound article is not shown on all of them. -/
theorem recursiveTrie_not_exact :
    ¬ CompoundsExact recursiveTrie (List.replicate 256 GztTrie.repeatedWord) := by
  intro h
  have hshort := short_of_compoundsExact recursiveTrie_plain recursiveTrie_keys h ⟨8, 0, 256⟩
    (recursiveTrie_compoundOn 256 255 (by decide) (by decide))
  simp only at hshort
  omega

end Exact
end TomitaParser.Gzt
