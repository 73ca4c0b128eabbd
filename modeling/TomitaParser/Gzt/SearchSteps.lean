import TomitaParser.Gzt.PhraseHits
/-! # Steps of the search

The iterator is a sequence of small steps over the hits of the phrase search: an article of a
compound branch is found, a compound branch is taken from the queue, or the next hit is taken when
nothing is left of the compound search. -/

namespace TomitaParser.Gzt

/-- What is left of a search. -/
structure SearchWork where
  input : List Token
  /-- The hits of the phrase search. -/
  hits : List Hit
  /-- The hits of the compound branch that was taken last. -/
  pending : List Hit
  tree : CompoundTree
  next : ℕ
  /-- The number of words read at the last hit. -/
  now : ℕ

namespace SearchWork
variable (trie : GztTrie)

/-- A hit of the phrase search is taken. -/
def takeHit (w : SearchWork) (hit : Hit) (hits : List Hit) : Bool × SearchWork :=
  let tree := if trie.isCompoundElement hit.1 then w.tree.takeNextArticle trie hit.1 hit.2
    else w.tree
  if isFakeArticle hit.1 then (false, { w with hits := hits, tree := tree, now := hit.2.wordCount })
  else
    let tree := { tree with article := some ⟨hit.1, hit.2, false⟩ }
    (true, { w with hits := hits, tree := tree, now := hit.2.wordCount })

/-- One step, and whether an article is shown after it. -/
def tick (w : SearchWork) : Option (Bool × SearchWork) :=
  match w.pending with
  | hit :: pending =>
    let r := w.tree.resetFoundArticle trie hit.1 hit.2
    some (r.1, { w with pending := pending, tree := r.2 })
  | [] =>
    match w.tree.branches[w.next]? with
    | some b =>
      some (false, { w with pending := PhraseSearch.branchHits trie w.input w.now b,
                            next := w.next + 1 })
    | none =>
      match w.hits with
      | [] => none
      | hit :: hits => some (w.takeHit trie hit hits)

/-- The article that is shown. -/
def shown (w : SearchWork) (isShown : Bool) : List FoundArticle :=
  if isShown then w.tree.article.toList else []

/-- So many steps with the articles that they show. -/
inductive Ticks : ℕ → SearchWork → List FoundArticle → SearchWork → Prop
  | refl (w : SearchWork) : Ticks 0 w [] w
  | step {n : ℕ} {w w' w'' : SearchWork} {isShown : Bool} {found : List FoundArticle}
      (h : w.tick trie = some (isShown, w')) (hrest : Ticks n w' found w'') :
      Ticks (n + 1) w (w'.shown isShown ++ found) w''

variable {trie}

theorem Ticks.trans {n m : ℕ} {a b c : SearchWork} {l l' : List FoundArticle}
    (h : Ticks trie n a l b) (h' : Ticks trie m b l' c) : Ticks trie (n + m) a (l ++ l') c := by
  induction h with
  | refl => rwa [Nat.zero_add]
  | step hstep _ ih =>
    rw [Nat.add_right_comm, List.append_assoc]
    exact Ticks.step hstep (ih h')

theorem Ticks.one {w w' : SearchWork} {isShown : Bool} (h : w.tick trie = some (isShown, w')) :
    Ticks trie 1 w (w'.shown isShown) w' := by
  have hone := Ticks.step h (Ticks.refl w')
  rwa [List.append_nil] at hone

theorem Ticks.rest {n m : ℕ} {w w' last : SearchWork} {l l' : List FoundArticle}
    (h : Ticks trie n w l w') (hall : Ticks trie m w l' last) (hlast : last.tick trie = none) :
    ∃ k rest, m = n + k ∧ l' = l ++ rest ∧ Ticks trie k w' rest last := by
  induction h generalizing m l' with
  | refl => exact ⟨m, l', (Nat.zero_add m).symm, rfl, hall⟩
  | step hstep _ ih =>
    cases hall with
    | refl =>
      rw [hstep] at hlast
      cases hlast
    | step hstep' hrest =>
      rw [hstep] at hstep'
      cases hstep'
      obtain ⟨k, rest, rfl, rfl, hk⟩ := ih hrest
      exact ⟨k, rest, by omega, (List.append_assoc _ _ _).symm, hk⟩

end SearchWork

section Steps
open SearchWork
variable {trie : GztTrie}

/-- Nothing is left of a compound search. -/
structure CompoundSearch.Exhausted (trie : GztTrie) (c : CompoundSearch) : Prop where
  hits : c.cursor.hits trie = []
  next : c.tree.branches.length ≤ c.next

/-- The work of a compound search before some hits. -/
def CompoundSearch.work (trie : GztTrie) (c : CompoundSearch) (input : List Token) (hits : List Hit)
    (now : ℕ) : SearchWork :=
  ⟨input, hits, c.cursor.hits trie, c.tree, c.next, now⟩

/-- A part of the search took these steps, or did not end in the number of steps that it was given.
-/
def Follows (trie : GztTrie) (fuel : ℕ) (before after : CompoundSearch) (w w' : SearchWork)
    (found : Bool) : Prop :=
  (after.outOfFuel = true ∧ (before.outOfFuel = true ∨ ∃ n l u, fuel ≤ n ∧ Ticks trie n w l u)) ∨
    after.outOfFuel = before.outOfFuel ∧
      ∃ n, Ticks trie n w (w'.shown found) w' ∧ (found = true → 0 < n)

theorem Follows.prepend {fuel n₀ : ℕ} {before middle after : CompoundSearch}
    {w u w' : SearchWork} {found : Bool} (hout : middle.outOfFuel = before.outOfFuel)
    (hticks : Ticks trie n₀ w [] u) (h : Follows trie fuel middle after u w' found) :
    Follows trie (fuel + n₀) before after w w' found := by
  rcases h with ⟨hafter, hmiddle⟩ | ⟨hafter, n, hn, hpos⟩
  · refine Or.inl ⟨hafter, ?_⟩
    rcases hmiddle with hmiddle | ⟨n, l, v, hle, hn⟩
    · exact Or.inl (hout ▸ hmiddle)
    · exact Or.inr ⟨n₀ + n, _, v, by omega, hticks.trans hn⟩
  · refine Or.inr ⟨hafter.trans hout, n₀ + n, hticks.trans hn, fun h => ?_⟩
    have := hpos h
    omega

theorem Follows.weaken {fuel fuel' : ℕ} {before after : CompoundSearch} {w w' : SearchWork}
    {found : Bool} (hle : fuel' ≤ fuel) (h : Follows trie fuel before after w w' found) :
    Follows trie fuel' before after w w' found := by
  rcases h with ⟨hafter, hbefore⟩ | hgood
  · refine Or.inl ⟨hafter, hbefore.imp_right ?_⟩
    rintro ⟨n, l, u, hn, hticks⟩
    exact ⟨n, l, u, hle.trans hn, hticks⟩
  · exact Or.inr hgood

theorem Follows.append {fuel : ℕ} {before middle after : CompoundSearch} {w u w' : SearchWork}
    {found : Bool} (h : Follows trie fuel before middle w u false)
    (h' : Follows trie fuel middle after u w' found) :
    Follows trie fuel before after w w' found := by
  rcases h with ⟨hmiddle, hbefore⟩ | ⟨hmiddle, n, hn, -⟩
  · rcases h' with ⟨hafter, -⟩ | ⟨hafter, -⟩
    · exact Or.inl ⟨hafter, hbefore⟩
    · exact Or.inl ⟨hafter.trans hmiddle, hbefore⟩
  · exact (h'.prepend hmiddle hn).weaken (Nat.le_add_right fuel n)

/-- The hits of a compound phrase. -/
theorem ticks_firstFound (input : List Token) (hits pending : List Hit) (tree : CompoundTree)
    (next now : ℕ) :
    let r := firstFound (CompoundTree.resetFoundArticle trie) pending tree
    let w' : SearchWork := ⟨input, hits, r.2.1, r.2.2, next, now⟩
    ∃ n, Ticks trie n ⟨input, hits, pending, tree, next, now⟩ (w'.shown r.1) w' ∧
      (r.1 = true → 0 < n) := by
  intro r w'
  induction pending generalizing tree with
  | nil => exact ⟨0, Ticks.refl _, fun h => by cases h⟩
  | cons hit pending ih =>
    have htick : (⟨input, hits, hit :: pending, tree, next, now⟩ : SearchWork).tick trie =
        some ((CompoundTree.resetFoundArticle trie hit.1 hit.2 tree).1,
          ⟨input, hits, pending, (CompoundTree.resetFoundArticle trie hit.1 hit.2 tree).2, next,
            now⟩) := rfl
    by_cases h : (CompoundTree.resetFoundArticle trie hit.1 hit.2 tree).1 = true
    · have hr : r = (true, pending, (CompoundTree.resetFoundArticle trie hit.1 hit.2 tree).2) := by
        simp only [r, firstFound, if_pos h]
      refine ⟨1, ?_, fun _ => Nat.one_pos⟩
      have hone := Ticks.one htick
      rw [h] at hone
      simp only [w', hr]
      exact hone
    · have hr : r = firstFound (CompoundTree.resetFoundArticle trie) pending
          (CompoundTree.resetFoundArticle trie hit.1 hit.2 tree).2 := by
        simp only [r, firstFound, if_neg h]
      obtain ⟨n, hn, hpos⟩ := ih (CompoundTree.resetFoundArticle trie hit.1 hit.2 tree).2
      have hstep := Ticks.step htick hn
      rw [Bool.not_eq_true] at h
      rw [h] at hstep
      simp only [w', hr]
      exact ⟨n + 1, hstep, fun _ => Nat.succ_pos n⟩

theorem ticks_findNextHere (c : CompoundSearch) (input : List Token) (hits : List Hit) (now : ℕ) :
    let r := c.cursor.findNextHere trie (CompoundTree.resetFoundArticle trie) c.tree
    let c' : CompoundSearch := { c with tree := r.2.2, cursor := r.2.1 }
    ∃ n, Ticks trie n (c.work trie input hits now) ((c'.work trie input hits now).shown r.1)
      (c'.work trie input hits now) ∧ (r.1 = true → 0 < n) := by
  have hfound := PhraseCursor.findNextHere_hits trie (CompoundTree.resetFoundArticle trie)
    c.cursor c.tree
  have hticks := @ticks_firstFound trie input hits (c.cursor.hits trie) c.tree c.next now
  rw [hfound] at hticks
  exact hticks

theorem cursor_left_of_not_found {C : Type} (reset : ℕ → PhraseWords → C → Bool × C)
    (cursor : PhraseCursor) (c : C) (h : (cursor.findNextHere trie reset c).1 = false) :
    (cursor.findNextHere trie reset c).2.1.hits trie = [] := by
  have hleft := left_of_not_found reset (cursor.hits trie) c
  rw [PhraseCursor.findNextHere_hits trie reset cursor c] at hleft
  exact hleft h

theorem findNext_skip {input : List Token} {now : ℕ} (fuel : ℕ) {c : CompoundSearch}
    {b : Branch ArticleBucket} (hb : c.tree.branches[c.next]? = some b)
    (hbranch : PhraseCursor.ofBranch trie input now b = none) :
    c.findNext trie input now (fuel + 1) =
      CompoundSearch.findNext trie input now fuel { c with next := c.next + 1 } := by
  simp only [CompoundSearch.findNext, hb, hbranch]

theorem findNext_take {input : List Token} {now : ℕ} (fuel : ℕ) {c : CompoundSearch}
    {b : Branch ArticleBucket} (hb : c.tree.branches[c.next]? = some b) {found : PhraseCursor}
    (hbranch : PhraseCursor.ofBranch trie input now b = some found) :
    c.findNext trie input now (fuel + 1) =
      let r := found.findNextHere trie (CompoundTree.resetFoundArticle trie) c.tree
      let c' : CompoundSearch := { c with tree := r.2.2, next := c.next + 1, cursor := r.2.1 }
      if r.1 then (true, c') else CompoundSearch.findNext trie input now fuel c' := by
  simp only [CompoundSearch.findNext, hb, hbranch]

theorem tick_branch {input : List Token} {hits : List Hit} {now : ℕ} {c : CompoundSearch}
    {b : Branch ArticleBucket} (hb : c.tree.branches[c.next]? = some b)
    (hcursor : c.cursor.hits trie = []) :
    Ticks trie 1 (c.work trie input hits now) []
      ⟨input, hits, PhraseSearch.branchHits trie input now b, c.tree, c.next + 1, now⟩ := by
  have htick : (c.work trie input hits now).tick trie = some (false,
      ⟨input, hits, PhraseSearch.branchHits trie input now b, c.tree, c.next + 1, now⟩) := by
    simp only [SearchWork.tick, CompoundSearch.work, hcursor, hb]
  exact Ticks.one htick

theorem findNext_follows (input : List Token) (hits : List Hit) (now fuel : ℕ) (c : CompoundSearch)
    (hcursor : c.cursor.hits trie = []) :
    let r := c.findNext trie input now fuel
    Follows trie fuel c r.2 (c.work trie input hits now) (r.2.work trie input hits now) r.1 ∧
      (r.1 = false → r.2.outOfFuel = true ∨ r.2.Exhausted trie) := by
  intro r
  induction fuel generalizing c with
  | zero =>
    exact ⟨Or.inl ⟨rfl, Or.inr ⟨0, [], _, le_rfl, Ticks.refl _⟩⟩, fun _ => Or.inl rfl⟩
  | succ fuel ih =>
    cases hb : c.tree.branches[c.next]? with
    | none =>
      have hnext := List.getElem?_eq_none_iff.mp hb
      simp only [r, CompoundSearch.findNext, hb]
      exact ⟨Or.inr ⟨rfl, 0, Ticks.refl _, fun h => by cases h⟩,
        fun _ => Or.inr ⟨hcursor, hnext⟩⟩
    | some b =>
      have htick := @tick_branch trie input hits now c b hb hcursor
      cases hbranch : PhraseCursor.ofBranch trie input now b with
      | none =>
        let c' : CompoundSearch := { c with next := c.next + 1 }
        have hnil : PhraseSearch.branchHits trie input now b = c'.cursor.hits trie := by
          rw [PhraseSearch.branchHits, hbranch]
          exact hcursor.symm
        rw [hnil] at htick
        obtain ⟨hfollows, hrest⟩ := ih c' hcursor
        simp only [r, findNext_skip fuel hb hbranch]
        exact ⟨@Follows.prepend trie _ _ c c' _ _ _ _ _ rfl htick hfollows, hrest⟩
      | some found =>
        have hhits : PhraseSearch.branchHits trie input now b = found.hits trie := by
          rw [PhraseSearch.branchHits, hbranch]
          rfl
        rw [hhits] at htick
        let c₁ : CompoundSearch := { c with next := c.next + 1, cursor := found }
        let q := found.findNextHere trie (CompoundTree.resetFoundArticle trie) c.tree
        let c' : CompoundSearch := { c with tree := q.2.2, next := c.next + 1, cursor := q.2.1 }
        obtain ⟨n, hn, -⟩ := @ticks_findNextHere trie c₁ input hits now
        have hticks := htick.trans hn
        by_cases h : q.1 = true
        · have hr : r = (true, c') := by
            simp only [r, findNext_take fuel hb hbranch]
            exact if_pos h
          rw [hr]
          refine ⟨Or.inr ⟨rfl, 1 + n, ?_, fun _ => by omega⟩, fun hfalse => by cases hfalse⟩
          rw [show (c₁.cursor.findNextHere trie (CompoundTree.resetFoundArticle trie)
            c₁.tree).1 = true
            from h] at hticks
          exact hticks
        · have hleft : c'.cursor.hits trie = [] :=
            cursor_left_of_not_found (CompoundTree.resetFoundArticle trie) found c.tree
              (Bool.not_eq_true _ ▸ h)
          have hr : r = c'.findNext trie input now fuel := by
            simp only [r, findNext_take fuel hb hbranch]
            exact if_neg h
          obtain ⟨hfollows, hrest⟩ := ih c' hleft
          rw [hr]
          rw [show (c₁.cursor.findNextHere trie (CompoundTree.resetFoundArticle trie)
            c₁.tree).1 = false
            from Bool.not_eq_true _ ▸ h] at hticks
          exact ⟨(@Follows.prepend trie _ _ c c' _ _ _ _ _ rfl hticks hfollows).weaken
            (by omega), hrest⟩

theorem compounds_follow (input : List Token) (hits : List Hit) (now fuel : ℕ)
    (c : CompoundSearch) :
    let r := c.findNextAtWord trie input now fuel
    Follows trie fuel c r.2 (c.work trie input hits now) (r.2.work trie input hits now) r.1 ∧
      (r.1 = false → r.2.outOfFuel = true ∨ r.2.Exhausted trie) := by
  intro r
  let q := c.cursor.findNextHere trie (CompoundTree.resetFoundArticle trie) c.tree
  let c' : CompoundSearch := { c with tree := q.2.2, cursor := q.2.1 }
  obtain ⟨n, hn, hpos⟩ := @ticks_findNextHere trie c input hits now
  by_cases h : q.1 = true
  · have hr : r = (true, c') := if_pos h
    rw [show (c.cursor.findNextHere trie (CompoundTree.resetFoundArticle trie) c.tree).1 = true
      from h] at hn hpos
    rw [hr]
    exact ⟨Or.inr ⟨rfl, n, hn, hpos⟩, fun hfalse => by cases hfalse⟩
  · have hr : r = c'.findNext trie input now fuel := if_neg h
    have hleft : c'.cursor.hits trie = [] :=
      cursor_left_of_not_found (CompoundTree.resetFoundArticle trie) c.cursor c.tree
        (Bool.not_eq_true _ ▸ h)
    obtain ⟨hfollows, hrest⟩ := findNext_follows input hits now fuel c' hleft
    rw [show (c.cursor.findNextHere trie (CompoundTree.resetFoundArticle trie) c.tree).1 = false
      from Bool.not_eq_true _ ▸ h] at hn
    rw [hr]
    exact ⟨(@Follows.prepend trie _ _ c c' _ _ _ _ _ rfl hn hfollows).weaken (by omega), hrest⟩

theorem outOfFuel_findNext (input : List Token) (now fuel : ℕ) (c : CompoundSearch)
    (h : c.outOfFuel = true) : (c.findNext trie input now fuel).2.outOfFuel = true := by
  induction fuel generalizing c with
  | zero => rfl
  | succ fuel ih =>
    unfold CompoundSearch.findNext
    split
    · exact h
    · split
      · exact ih _ h
      · dsimp only
        split
        · exact h
        · exact ih _ h

theorem outOfFuel_resetFoundArticle (fuel id : ℕ) (phrase : PhraseWords) (c : CompoundSearch)
    (h : c.outOfFuel = true) : (resetFoundArticle trie fuel id phrase c).2.outOfFuel = true := by
  unfold resetFoundArticle
  dsimp only
  split
  · split
    · exact outOfFuel_findNext _ _ _ _ h
    · exact h
  · split
    · exact h
    · exact h

theorem tick_hit {input : List Token} {now : ℕ} {c : CompoundSearch} (hc : c.Exhausted trie)
    (hit : Hit) (hits : List Hit) : (c.work trie input (hit :: hits) now).tick trie =
      some ((c.work trie input (hit :: hits) now).takeHit trie hit hits) := by
  have hnone : c.tree.branches[c.next]? = none := List.getElem?_eq_none_iff.mpr hc.next
  simp only [SearchWork.tick, CompoundSearch.work, hc.hits, hnone]

theorem resetFoundArticle_follows (fuel : ℕ) {hit : Hit} (hits : List Hit) (now : ℕ)
    {c : CompoundSearch} (hc : c.Exhausted trie) :
    let r := resetFoundArticle trie fuel hit.1 hit.2 c
    Follows trie fuel c r.2 (c.work trie hit.2.input (hit :: hits) now)
        (r.2.work trie hit.2.input hits hit.2.wordCount) r.1 ∧
      (r.1 = false → r.2.outOfFuel = true ∨ r.2.Exhausted trie) := by
  intro r
  have htick := @tick_hit trie hit.2.input now c hc hit hits
  by_cases hfake : isFakeArticle hit.1 = true
  · by_cases helement : trie.isCompoundElement hit.1 = true
    · let c' : CompoundSearch := { c with tree := c.tree.takeNextArticle trie hit.1 hit.2 }
      have hr : r = c'.findNext trie hit.2.input hit.2.wordCount fuel := by
        simp only [r, resetFoundArticle, if_pos hfake, if_pos helement]
        rfl
      have htake : (c.work trie hit.2.input (hit :: hits) now).takeHit trie hit hits =
          (false, c'.work trie hit.2.input hits hit.2.wordCount) := by
        simp only [SearchWork.takeHit, if_pos hfake, if_pos helement]
        rfl
      rw [htake] at htick
      obtain ⟨hfollows, hrest⟩ := findNext_follows hit.2.input hits hit.2.wordCount fuel c' hc.hits
      rw [hr]
      exact ⟨(@Follows.prepend trie _ _ c c' _ _ _ _ _ rfl (Ticks.one htick) hfollows).weaken
        (by omega),
        hrest⟩
    · have hr : r = (false, c) := by
        simp only [r, resetFoundArticle, if_pos hfake, if_neg helement]
      have htake : (c.work trie hit.2.input (hit :: hits) now).takeHit trie hit hits =
          (false, c.work trie hit.2.input hits hit.2.wordCount) := by
        simp only [SearchWork.takeHit, if_pos hfake, if_neg helement]
        rfl
      rw [htake] at htick
      rw [hr]
      exact ⟨Or.inr ⟨rfl, 1, Ticks.one htick, fun _ => Nat.one_pos⟩, fun _ => Or.inr hc⟩
  · have hr : r.1 = true := by
      simp only [r, resetFoundArticle, if_neg hfake]
    have htake : (c.work trie hit.2.input (hit :: hits) now).takeHit trie hit hits =
        (true, r.2.work trie hit.2.input hits hit.2.wordCount) := by
      simp only [SearchWork.takeHit, if_neg hfake, r, resetFoundArticle]
      by_cases helement : trie.isCompoundElement hit.1 = true
      · simp only [if_pos helement]
        rfl
      · simp only [if_neg helement]
        rfl
    have hout : r.2.outOfFuel = c.outOfFuel := by
      simp only [r, resetFoundArticle, if_neg hfake]
      split <;> rfl
    rw [htake] at htick
    rw [hr]
    exact ⟨Or.inr ⟨hout, 1, Ticks.one htick, fun _ => Nat.one_pos⟩, fun hfalse => by cases hfalse⟩

/-- The hits at one word, before other hits. -/
theorem firstFound_follows (fuel : ℕ) (input : List Token) (hits tail : List Hit)
    (now wordCount : ℕ)
    (c : CompoundSearch)
    (hhits : ∀ hit ∈ hits, hit.2.input = input ∧ hit.2.wordCount = wordCount)
    (hc : c.outOfFuel = true ∨ c.Exhausted trie) :
    let r := firstFound (resetFoundArticle trie fuel) hits c
    ∃ now', (r.1 = true → now' = wordCount) ∧
      Follows trie fuel c r.2.2 (c.work trie input (hits ++ tail) now)
        (r.2.2.work trie input (r.2.1 ++ tail) now') r.1 ∧
      (r.1 = false → r.2.2.outOfFuel = true ∨ r.2.2.Exhausted trie) := by
  intro r
  induction hits generalizing c now with
  | nil =>
    have hsame : Follows trie fuel c c (c.work trie input tail now) (c.work trie input tail now)
        false := Or.inr ⟨rfl, 0, Ticks.refl _, fun h => by cases h⟩
    exact ⟨now, fun h => absurd h Bool.false_ne_true, hsame, fun _ => hc⟩
  | cons hit rest ih =>
    obtain ⟨hinput, hcount⟩ := hhits hit List.mem_cons_self
    let q := resetFoundArticle trie fuel hit.1 hit.2 c
    have hfirst : Follows trie fuel c q.2 (c.work trie input (hit :: rest ++ tail) now)
          (q.2.work trie input (rest ++ tail) wordCount) q.1 ∧
        (q.1 = false → q.2.outOfFuel = true ∨ q.2.Exhausted trie) := by
      rcases hc with hout | hexhausted
      · have hq := @outOfFuel_resetFoundArticle trie fuel hit.1 hit.2 c hout
        exact ⟨Or.inl ⟨hq, Or.inl hout⟩, fun _ => Or.inl hq⟩
      · have hreset := @resetFoundArticle_follows trie fuel hit (rest ++ tail) now c hexhausted
        rw [hinput, hcount] at hreset
        exact hreset
    by_cases h : q.1 = true
    · have hr : r = (true, rest, q.2) := if_pos h
      rw [hr]
      rw [h] at hfirst
      exact ⟨wordCount, fun _ => rfl, hfirst.1, fun hfalse => by cases hfalse⟩
    · have hr : r = firstFound (resetFoundArticle trie fuel) rest q.2 := if_neg h
      rw [Bool.not_eq_true] at h
      rw [h] at hfirst
      obtain ⟨now', hnow, hfollows, hrest⟩ := ih wordCount q.2
        (fun hit' hmem => hhits hit' (List.mem_cons_of_mem _ hmem)) (hfirst.2 rfl)
      rw [hr]
      exact ⟨now', hnow, hfirst.1.append hfollows, hrest⟩

/-- The work that an iterator has left. Its position counts as long as the compound search is not
done. -/
structure ArticleIter.HasWork (trie : GztTrie) (s : ArticleIter) (w : SearchWork) : Prop where
  work : ∃ now, w = s.compounds.work trie s.phrases.input (s.phrases.hits trie) now ∧
    (now = s.phrases.wordCount ∨ s.compounds.Exhausted trie)
  /-- The phrases that are found end at the current word. -/
  here : ∀ hit ∈ s.phrases.hitsHere trie,
    hit.2.input = s.phrases.input ∧ hit.2.wordCount = s.phrases.wordCount

/-- A position of the iterator is left: the next one shows an article, or the search is over. -/
def ArticleIter.Moves (trie : GztTrie) (fuel : ℕ) (before : CompoundSearch) (w : SearchWork)
    (s : ArticleIter) : Prop :=
  (s.compounds.outOfFuel = true ∧
      (before.outOfFuel = true ∨ ∃ n l u, fuel ≤ n ∧ Ticks trie n w l u)) ∨
    s.compounds.outOfFuel = before.outOfFuel ∧
      (s.ok = true → ∃ n w', 0 < n ∧ Ticks trie n w s.compounds.tree.article.toList w' ∧
        s.HasWork trie w') ∧
      (s.ok = false → ∃ n w', Ticks trie n w [] w' ∧ w'.tick trie = none)

theorem ArticleIter.Moves.prepend {fuel : ℕ} {before middle : CompoundSearch} {w u : SearchWork}
    {s : ArticleIter} (h : Follows trie fuel before middle w u false)
    (hmoves : s.Moves trie fuel middle u) : s.Moves trie fuel before w := by
  rcases h with ⟨hmiddle, hbefore⟩ | ⟨hmiddle, n₀, hn₀, -⟩
  · rcases hmoves with ⟨hlast, -⟩ | ⟨hlast, -⟩
    · exact Or.inl ⟨hlast, hbefore⟩
    · exact Or.inl ⟨hlast.trans hmiddle, hbefore⟩
  · rcases hmoves with ⟨hlast, hbefore⟩ | ⟨hlast, hshown, hover⟩
    · refine Or.inl ⟨hlast, ?_⟩
      rcases hbefore with hbefore | ⟨n, l, v, hle, hn⟩
      · exact Or.inl (hmiddle ▸ hbefore)
      · exact Or.inr ⟨n₀ + n, _, v, by omega, hn₀.trans hn⟩
    · refine Or.inr ⟨hlast.trans hmiddle, fun hok => ?_, fun hok => ?_⟩
      · obtain ⟨n, w', hpos, hn, hwork⟩ := hshown hok
        exact ⟨n₀ + n, w', by omega, hn₀.trans hn, hwork⟩
      · obtain ⟨n, w', hn, hend⟩ := hover hok
        exact ⟨n₀ + n, w', hn₀.trans hn, hend⟩

theorem mem_left_of_firstFound {C : Type} (reset : ℕ → PhraseWords → C → Bool × C)
    {hits : List Hit} {c : C} {hit : Hit} (h : hit ∈ (firstFound reset hits c).2.1) :
    hit ∈ hits := by
  induction hits generalizing c with
  | nil => exact h
  | cons first rest ih =>
    unfold firstFound at h
    dsimp only at h
    split at h
    · exact List.mem_cons_of_mem _ h
    · exact List.mem_cons_of_mem _ (ih h)

/-- The words that are not read are gone through. -/
theorem findNextInWords_moves (fuel : ℕ) (unread : List Token) (s : PhraseSearch)
    (c : CompoundSearch) (now : ℕ) (hcursor : s.cursor.hits trie = [])
    (hc : c.outOfFuel = true ∨ c.Exhausted trie) :
    let r := PhraseSearch.findNextInWords trie (resetFoundArticle trie fuel) unread s c
    ArticleIter.Moves trie fuel c
      (c.work trie s.input (PhraseSearch.unreadHits trie s.input unread s.wordCount s.tree) now)
      ⟨r.2.1, r.2.2, r.1⟩ := by
  intro r
  induction unread generalizing s c now with
  | nil =>
    rcases hc with hout | hexhausted
    · exact Or.inl ⟨hout, Or.inl hout⟩
    · refine Or.inr ⟨rfl, fun hok => absurd hok Bool.false_ne_true, fun _ =>
        ⟨0, _, Ticks.refl _, ?_⟩⟩
      have hnone : c.tree.branches[c.next]? = none :=
        List.getElem?_eq_none_iff.mpr hexhausted.next
      simp only [SearchWork.tick, CompoundSearch.work, hexhausted.hits, hnone,
        PhraseSearch.unreadHits]
  | cons token unread ih =>
    let s' := s.takeNextWord trie token unread
    let q := s'.findNext trie (resetFoundArticle trie fuel) c
    have hcursor' : s'.cursor.hits trie = [] := hcursor
    have hnext : firstFound (resetFoundArticle trie fuel) (s'.hitsHere trie) c =
        (q.1, q.2.1.hitsHere trie, q.2.2) :=
      PhraseSearch.findNext_hits trie (resetFoundArticle trie fuel) s' c hcursor'
    have hhere : s'.hitsHere trie = (s.tree.takeNextWord trie token).branches.flatMap
        (PhraseSearch.branchHits trie s.input (s.wordCount + 1)) := by
      rw [PhraseSearch.hitsHere, hcursor', List.nil_append]
      rfl
    have hfollows := firstFound_follows fuel s.input (s'.hitsHere trie)
      (PhraseSearch.unreadHits trie s.input unread (s.wordCount + 1) s'.tree) now
      (s.wordCount + 1) c (fun hit hmem => PhraseSearch.mem_hitsHere trie hmem hcursor') hc
    rw [hnext] at hfollows
    have hunread : PhraseSearch.unreadHits trie s.input (token :: unread) s.wordCount s.tree =
        s'.hitsHere trie ++
          PhraseSearch.unreadHits trie s.input unread (s.wordCount + 1) s'.tree := by
      rw [PhraseSearch.unreadHits, hhere]
      rfl
    rw [hunread]
    obtain ⟨now', hnow, hfollows, hrest⟩ := hfollows
    by_cases h : q.1 = true
    · have hr : r = q := if_pos h
      rw [hr]
      dsimp only at hfollows hnow
      rw [h] at hfollows
      rcases hfollows with hbad | ⟨hout, n, hn, hpos⟩
      · exact Or.inl hbad
      · refine Or.inr ⟨hout, fun _ => ?_, fun hok => by rw [h] at hok; cases hok⟩
        refine ⟨n, _, hpos rfl, hn, ⟨now', rfl, Or.inl (hnow h)⟩, ?_⟩
        intro hit hmem
        have hleft : hit ∈ (firstFound (resetFoundArticle trie fuel) (s'.hitsHere trie) c).2.1 := by
          rw [hnext]
          exact hmem
        exact PhraseSearch.mem_hitsHere trie (s := s')
          (mem_left_of_firstFound (resetFoundArticle trie fuel) hleft) hcursor'
    · have hr : r = PhraseSearch.findNextInWords trie (resetFoundArticle trie fuel) unread q.2.1
          q.2.2 := if_neg h
      rw [Bool.not_eq_true] at h
      have hleft := left_of_not_found (resetFoundArticle trie fuel) (s'.hitsHere trie) c
      rw [hnext] at hleft
      have hnil : q.2.1.hitsHere trie = [] := hleft h
      have hmoves := ih q.2.1 q.2.2 now' (List.append_eq_nil_iff.mp hnil).1 (hrest h)
      dsimp only at hfollows
      rw [h, hnil, List.nil_append] at hfollows
      rw [hr]
      exact ArticleIter.Moves.prepend hfollows hmoves

/-- A compound search that is done stays as it is. -/
theorem exhausted_follows (input : List Token) (hits : List Hit) (now wordCount fuel : ℕ)
    {c : CompoundSearch} (hc : c.Exhausted trie) :
    let r := c.findNextAtWord trie input wordCount fuel
    r.1 = false ∧
      Follows trie fuel c r.2 (c.work trie input hits now) (r.2.work trie input hits now) false ∧
      (r.2.outOfFuel = true ∨ r.2.Exhausted trie) := by
  intro r
  let q := c.cursor.findNextHere trie (CompoundTree.resetFoundArticle trie) c.tree
  have hq : (false, [], c.tree) = (q.1, q.2.1.hits trie, q.2.2) := by
    rw [← PhraseCursor.findNextHere_hits trie (CompoundTree.resetFoundArticle trie) c.cursor c.tree,
      hc.hits]
    rfl
  obtain ⟨hfound, hleft⟩ := Prod.mk.inj hq
  obtain ⟨hhits, htree⟩ := Prod.mk.inj hleft
  let c' : CompoundSearch := { c with tree := q.2.2, cursor := q.2.1 }
  have hr : r = c'.findNext trie input wordCount fuel :=
    if_neg (by rw [← hfound]; exact Bool.false_ne_true)
  have hwork : c'.work trie input hits now = c.work trie input hits now := by
    simp only [CompoundSearch.work, c', ← htree, ← hhits, hc.hits]
  have hnone : c'.tree.branches[c'.next]? = none := by
    rw [show c'.tree = c.tree from htree.symm]
    exact List.getElem?_eq_none_iff.mpr hc.next
  rw [hr]
  cases fuel with
  | zero =>
    exact ⟨rfl, Or.inl ⟨rfl, Or.inr ⟨0, [], _, le_rfl, Ticks.refl _⟩⟩, Or.inl rfl⟩
  | succ fuel =>
    simp only [CompoundSearch.findNext, hnone]
    refine ⟨trivial, Or.inr ⟨rfl, 0, ?_, fun h => absurd h Bool.false_ne_true⟩,
      Or.inr ⟨hhits.symm, ?_⟩⟩
    · rw [hwork]
      exact Ticks.refl _
    · exact List.getElem?_eq_none_iff.mp hnone

theorem findNext_moves (fuel : ℕ) {s : ArticleIter} {w : SearchWork} (hok : s.ok = true)
    (hwork : s.HasWork trie w) : (s.findNext trie fuel).Moves trie fuel s.compounds w := by
  obtain ⟨⟨now, rfl, hnow⟩, hhere⟩ := hwork
  let r := s.compounds.findNextAtWord trie s.phrases.input s.phrases.wordCount fuel
  have hcompounds : Follows trie fuel s.compounds r.2
        (s.compounds.work trie s.phrases.input (s.phrases.hits trie) now)
        (r.2.work trie s.phrases.input (s.phrases.hits trie) now) r.1 ∧
      (r.1 = true → now = s.phrases.wordCount) ∧
      (r.1 = false → r.2.outOfFuel = true ∨ r.2.Exhausted trie) := by
    rcases hnow with rfl | hexhausted
    · have hfollow := @compounds_follow trie s.phrases.input (s.phrases.hits trie)
        s.phrases.wordCount fuel s.compounds
      exact ⟨hfollow.1, fun _ => rfl, hfollow.2⟩
    · obtain ⟨hfound, hfollows, hrest⟩ := exhausted_follows s.phrases.input
        (s.phrases.hits trie) now
        s.phrases.wordCount fuel hexhausted
      refine ⟨?_, fun h => ?_, fun _ => hrest⟩
      · rw [show r.1 = false from hfound]
        exact hfollows
      · rw [show r.1 = false from hfound] at h
        cases h
  obtain ⟨hfollows, hposition, hrest⟩ := hcompounds
  by_cases hfound : r.1 = true
  · have hnext : s.findNext trie fuel = { s with compounds := r.2 } := if_pos hfound
    rw [hnext]
    rw [hfound] at hfollows
    rcases hfollows with hbad | ⟨hout, n, hn, hpos⟩
    · exact Or.inl hbad
    · refine Or.inr ⟨hout,
        fun _ => ⟨n, _, hpos rfl, hn, ⟨now, rfl, Or.inl (hposition hfound)⟩, hhere⟩,
        fun hfalse => ?_⟩
      rw [show ({ s with compounds := r.2 } : ArticleIter).ok = s.ok from rfl, hok] at hfalse
      cases hfalse
  · rw [Bool.not_eq_true] at hfound
    rw [hfound] at hfollows
    apply ArticleIter.Moves.prepend hfollows
    let q := s.phrases.findNextAtWord trie (resetFoundArticle trie fuel) r.2
    have hhits := PhraseSearch.findNextAtWord_hits trie (resetFoundArticle trie fuel) s.phrases r.2
    have hleft := left_of_not_found (resetFoundArticle trie fuel) (s.phrases.hitsHere trie) r.2
    obtain ⟨hinput, hunread, hcount, htree⟩ :=
      PhraseSearch.findNextAtWord_frame trie (resetFoundArticle trie fuel) s.phrases r.2
    have hfirst := firstFound_follows fuel s.phrases.input (s.phrases.hitsHere trie)
      (PhraseSearch.unreadHits trie s.phrases.input s.phrases.unread s.phrases.wordCount
        s.phrases.tree) now s.phrases.wordCount r.2 hhere (hrest hfound)
    rw [hhits] at hfirst hleft
    obtain ⟨now', hnow', hfirst, hrest'⟩ := hfirst
    dsimp only at hfirst hnow' hleft hrest'
    have hbranch : s.findNext trie fuel =
        if q.1 then { s with phrases := q.2.1, compounds := q.2.2 }
        else ArticleIter.findNextInWords trie fuel
          { s with phrases := q.2.1, compounds := q.2.2 } :=
      if_neg (by rw [show (s.compounds.findNextAtWord trie s.phrases.input s.phrases.wordCount
        fuel).1 = false from hfound]; exact Bool.false_ne_true)
    rw [hbranch]
    by_cases h : q.1 = true
    · rw [if_pos h]
      rw [show (s.phrases.findNextAtWord trie (resetFoundArticle trie fuel) r.2).1 = true from h]
        at hfirst
      rcases hfirst with hbad | ⟨hout, n, hn, hpos⟩
      · exact Or.inl hbad
      · refine Or.inr ⟨hout, fun _ => ⟨n, _, hpos rfl, hn, ⟨now', ?_, Or.inl ?_⟩, ?_⟩,
          fun hfalse => ?_⟩
        · show _ = q.2.2.work trie q.2.1.input (q.2.1.hits trie) now'
          rw [PhraseSearch.hits, show q.2.1.input = s.phrases.input from hinput,
            show q.2.1.unread = s.phrases.unread from hunread,
            show q.2.1.wordCount = s.phrases.wordCount from hcount,
            show q.2.1.tree = s.phrases.tree from htree]
        · rw [hnow' h]
          exact hcount.symm
        · intro hit hmem
          have hmem' : hit ∈ (firstFound (resetFoundArticle trie fuel) (s.phrases.hitsHere trie)
              r.2).2.1 := by
            rw [hhits]
            exact hmem
          have hold := hhere hit (mem_left_of_firstFound (resetFoundArticle trie fuel) hmem')
          exact ⟨hold.1.trans hinput.symm, hold.2.trans hcount.symm⟩
        · rw [show ({ s with phrases := q.2.1, compounds := q.2.2 } : ArticleIter).ok =
            s.ok from rfl,
            hok] at hfalse
          cases hfalse
    · rw [if_neg h]
      rw [Bool.not_eq_true] at h
      rw [show (s.phrases.findNextAtWord trie (resetFoundArticle trie fuel) r.2).1 = false from h]
        at hfirst
      have hnil : q.2.1.hitsHere trie = [] := hleft h
      rw [show (s.phrases.findNextAtWord trie (resetFoundArticle trie fuel)
        r.2).2.1.hitsHere trie = []
        from hnil, List.nil_append] at hfirst
      have hmoves := findNextInWords_moves fuel q.2.1.unread q.2.1 q.2.2 now'
        (List.append_eq_nil_iff.mp hnil).1 (hrest' h)
      rw [show q.2.1.input = s.phrases.input from hinput,
        show q.2.1.wordCount = s.phrases.wordCount from hcount,
        show q.2.1.tree = s.phrases.tree from htree,
        show q.2.1.unread = s.phrases.unread from hunread] at hmoves
      refine ArticleIter.Moves.prepend hfirst ?_
      rw [ArticleIter.findNextInWords, show ({ s with phrases := q.2.1, compounds := q.2.2 } :
        ArticleIter).phrases.unread = s.phrases.unread from hunread]
      exact hmoves

theorem outOfFuel_firstFound (fuel : ℕ) (hits : List Hit) (c : CompoundSearch)
    (h : c.outOfFuel = true) :
    (firstFound (resetFoundArticle trie fuel) hits c).2.2.outOfFuel = true := by
  induction hits generalizing c with
  | nil => exact h
  | cons hit rest ih =>
    have hreset := @outOfFuel_resetFoundArticle trie fuel hit.1 hit.2 c h
    unfold firstFound
    dsimp only
    split
    · exact hreset
    · exact ih _ hreset

theorem outOfFuel_findNextInWords (fuel : ℕ) (unread : List Token) (s : PhraseSearch)
    (c : CompoundSearch) (hcursor : s.cursor.hits trie = []) (h : c.outOfFuel = true) :
    (PhraseSearch.findNextInWords trie (resetFoundArticle trie fuel) unread s c).2.2.outOfFuel =
      true := by
  have hmoves := @findNextInWords_moves trie fuel unread s c 0 hcursor (Or.inl h)
  rcases hmoves with ⟨hout, -⟩ | ⟨hout, -⟩
  · exact hout
  · exact hout.trans h

theorem outOfFuel_articleIter (fuel : ℕ) (s : ArticleIter) (h : s.compounds.outOfFuel = true) :
    (s.findNext trie fuel).compounds.outOfFuel = true := by
  have hcompounds : (s.compounds.findNextAtWord trie s.phrases.input s.phrases.wordCount
      fuel).2.outOfFuel = true := by
    unfold CompoundSearch.findNextAtWord
    dsimp only
    split
    · exact h
    · exact outOfFuel_findNext _ _ _ _ h
  have hphrases := @outOfFuel_firstFound trie fuel (s.phrases.hitsHere trie) _ hcompounds
  have hleft := left_of_not_found (resetFoundArticle trie fuel) (s.phrases.hitsHere trie)
    (s.compounds.findNextAtWord trie s.phrases.input s.phrases.wordCount fuel).2
  rw [PhraseSearch.findNextAtWord_hits] at hphrases hleft
  unfold ArticleIter.findNext
  dsimp only
  split
  · exact hcompounds
  · split
    · exact hphrases
    · rename_i hfound
      have hnil := hleft (Bool.not_eq_true _ ▸ hfound)
      exact outOfFuel_findNextInWords fuel _ _ _ (List.append_eq_nil_iff.mp hnil).1 hphrases

theorem outOfFuel_articles (fuel n : ℕ) (s : ArticleIter) (h : s.compounds.outOfFuel = true) :
    (ArticleIter.articles trie fuel n s).2.compounds.outOfFuel = true := by
  induction n generalizing s with
  | zero => exact h
  | succ n ih =>
    unfold ArticleIter.articles
    split
    · exact ih _ (outOfFuel_articleIter fuel s h)
    · exact h

theorem ticks_of_articles (fuel n : ℕ) {s : ArticleIter} {before : CompoundSearch} {w : SearchWork}
    (hmoves : s.Moves trie fuel before w)
    (hok : (ArticleIter.articles trie fuel n s).2.ok = false)
    (hout : (ArticleIter.articles trie fuel n s).2.compounds.outOfFuel = false) :
    ∃ k last, Ticks trie k w (ArticleIter.articles trie fuel n s).1 last ∧ last.tick trie =
      none := by
  induction n generalizing s before w with
  | zero =>
    rcases hmoves with ⟨hbad, -⟩ | ⟨-, -, hover⟩
    · rw [show s.compounds.outOfFuel = false from hout] at hbad
      cases hbad
    · exact hover hok
  | succ n ih =>
    have hgood : s.compounds.outOfFuel = false := by
      rw [← Bool.not_eq_true]
      intro hbad
      rw [outOfFuel_articles fuel (n + 1) s hbad] at hout
      cases hout
    rcases hmoves with ⟨hbad, -⟩ | ⟨-, hshown, hover⟩
    · rw [hgood] at hbad
      cases hbad
    · unfold ArticleIter.articles at hok hout ⊢
      by_cases h : s.ok = true
      · rw [if_pos h] at hok hout ⊢
        obtain ⟨k, w', -, hk, hwork⟩ := hshown h
        obtain ⟨k', last, hk', hlast⟩ := ih (findNext_moves fuel h hwork) hok hout
        exact ⟨k + k', last, hk.trans hk', hlast⟩
      · rw [if_neg h]
        exact hover (Bool.not_eq_true _ ▸ h)

/-- With more fuel than steps the iterator ends. -/
theorem articles_of_ticks (fuel k : ℕ) {s : ArticleIter} {before : CompoundSearch}
    {w last : SearchWork}
    {found : List FoundArticle} (hmoves : s.Moves trie fuel before w)
    (hbefore : before.outOfFuel = false) (hticks : Ticks trie k w found last)
    (hlast : last.tick trie = none) (hfuel : k < fuel) :
    ∃ n, (ArticleIter.articles trie fuel n s).1 = found ∧
      (ArticleIter.articles trie fuel n s).2.ok = false ∧
      (ArticleIter.articles trie fuel n s).2.compounds.outOfFuel = false := by
  induction k using Nat.strong_induction_on generalizing s before w found with
  | _ k ih =>
    rcases hmoves with ⟨-, hbad⟩ | ⟨hout, hshown, hover⟩
    · rcases hbad with hbad | ⟨n, l, u, hle, hn⟩
      · rw [hbefore] at hbad
        cases hbad
      · obtain ⟨m, rest, rfl, -, -⟩ := hn.rest hticks hlast
        omega
    · rw [hbefore] at hout
      by_cases h : s.ok = true
      · obtain ⟨n, w', hpos, hn, hwork⟩ := hshown h
        obtain ⟨m, rest, rfl, rfl, hm⟩ := hn.rest hticks hlast
        obtain ⟨i, hfound, hok, hfuel'⟩ := ih m (by omega) (findNext_moves fuel h hwork) hout hm
          (by omega)
        refine ⟨i + 1, ?_⟩
        unfold ArticleIter.articles
        rw [if_pos h]
        exact ⟨congrArg (s.compounds.tree.article.toList ++ ·) hfound, hok, hfuel'⟩
      · rw [Bool.not_eq_true] at h
        obtain ⟨n, w', hn, hend⟩ := hover h
        obtain ⟨m, rest, -, rfl, hm⟩ := hn.rest hticks hlast
        cases hm with
        | refl => exact ⟨0, rfl, h, hout⟩
        | step hstep _ =>
          rw [hend] at hstep
          cases hstep

/-- The work of a search that has not begun. -/
def SearchWork.initial (trie : GztTrie) (input : List Token) : SearchWork :=
  ⟨input, PhraseSearch.unreadHits trie input input 0 {}, [], {}, 0, 0⟩

theorem yields_iff_ticks (input : List Token) (found : List FoundArticle) :
    ArticleIter.Yields trie input found ↔
      ∃ k last, Ticks trie k (SearchWork.initial trie input) found last ∧ last.tick trie =
        none := by
  let c : CompoundSearch := { cursor := { phrase := ⟨input, 0, []⟩ } }
  have hexhausted : c.Exhausted trie := ⟨rfl, le_rfl⟩
  have hmoves : ∀ fuel, (ArticleIter.start trie fuel input).Moves trie fuel c
      (SearchWork.initial trie input) := fun fuel =>
    findNextInWords_moves fuel input (PhraseSearch.start input) c 0 rfl (Or.inr hexhausted)
  constructor
  · rintro ⟨fuel, n, rfl, hok, hout⟩
    exact ticks_of_articles fuel n (hmoves fuel) hok hout
  · rintro ⟨k, last, hticks, hlast⟩
    obtain ⟨n, hn⟩ := articles_of_ticks (k + 1) k (hmoves (k + 1)) rfl hticks hlast
      (Nat.lt_succ_self k)
    exact ⟨k + 1, n, hn⟩

end Steps
end TomitaParser.Gzt
