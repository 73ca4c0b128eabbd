import Mathlib.Data.Set.Insert
import TomitaParser.Glr.Collection
/-! # The canonical LR(0) collection -/

namespace TomitaParser
open OrderedSet LoopRun

/-- The closure of a set of items: with an item, the rules of the symbol after its dot. -/
inductive ItemClosure (G : WorkGrammar) (K : Set LrItem) : LrItem → Prop
  | kernel {it : LrItem} : it ∈ K → ItemClosure G K it
  | rule {it : LrItem} {R : WorkRule} : ItemClosure G K it → R ∈ G.encodedRules →
      it.NextIs R.leftPart → ItemClosure G K ⟨R, 0⟩

/-- The closed set of a set of items. -/
def closureOf (G : WorkGrammar) (K : Set LrItem) : Set LrItem := {it | ItemClosure G K it}

/-- The items that can move over `X`, moved. -/
def movedOver (S : Set LrItem) (X : ℕ) : Set LrItem :=
  {it | ∃ it' ∈ S, it'.NextIs X ∧ it = it'.advance}

/-- The canonical collection: the closed start item, and what the moves over the symbols other
than the end of the stream lead to. -/
inductive Canonical (G : WorkGrammar) (start : LrItem) : Set LrItem → Prop
  | start : Canonical G start (closureOf G {start})
  | goto {S : Set LrItem} {X : ℕ} : Canonical G start S → X ≠ G.getEndOfStreamSymbol →
      (∃ it ∈ S, it.NextIs X) → Canonical G start (closureOf G (movedOver S X))

/-- The set an item set lists. -/
def ItemSet.items (S : ItemSet) : Set LrItem := {it | it ∈ S}

variable {G : WorkGrammar}

theorem IsClosure.items_eq {kernel S : ItemSet} (h : IsClosure G kernel S) :
    S.items = closureOf G kernel.items := by
  ext it
  constructor
  · intro hit
    apply h.least (ItemClosure G kernel.items) (fun _ hk => .kernel hk) _ it hit
    intro it' hit' R hR hn
    exact .rule hit' hR hn
  · intro hit
    induction hit with
    | kernel hk => exact h.kernel_sub _ hk
    | rule _ hR hn ih => exact h.closed _ ih _ hR hn

theorem nextItemSet_items (hG : G.Numbered) {S : ItemSet} (hS : ∀ it ∈ S, it.Valid G) (X : ℕ) :
    (nextItemSet S X).items = movedOver S.items X := by
  ext it
  exact mem_nextItemSet hG hS

theorem closeItemSet_next_items (hG : G.Numbered) {S : ItemSet} (hS : ∀ it ∈ S, it.Valid G)
    (X : ℕ) : (closeItemSet G (nextItemSet S X)).items = closureOf G (movedOver S.items X) := by
  rw [(nextItemSet_isClosure hG hS X).items_eq, nextItemSet_items hG hS]

theorem closeItemSet_start_items (hG : G.Numbered) :
    (closeItemSet G (startKernel G)).items = closureOf G (startKernel G).items :=
  (closeItemSet_isClosure hG startKernel_valid startKernel_sorted).items_eq

theorem Reached.canonical (hG : G.Numbered) {start : LrItem}
    (hstart : (startKernel G).items = {start}) {S : ItemSet} (h : Reached G S) :
    Canonical G start S.items := by
  induction h with
  | start =>
    rw [closeItemSet_start_items hG, hstart]
    exact .start
  | @next S X hS hX ih =>
    obtain ⟨hne, it, hit, hn⟩ := mem_nextSymbols.mp hX
    rw [closeItemSet_next_items hG (hS.isState hG).valid]
    exact .goto ih hne ⟨it, hit, hn⟩

theorem CollectInv.state_of_canonical (hG : G.Numbered) {C : CollectionSet}
    (h : CollectInv G C.itemSets.length C) {start : LrItem}
    (hstart : (startKernel G).items = {start}) {S : Set LrItem} (hS : Canonical G start S) :
    ∃ i, i < C.itemSets.length ∧ (C.itemSet i).items = S := by
  induction hS with
  | start =>
    refine ⟨0, (List.getElem?_eq_some_iff.mp h.start).1, ?_⟩
    rw [itemSet_eq_of_getElem? h.start, closeItemSet_start_items hG, hstart]
  | @goto S X _ hne hn ih =>
    obtain ⟨i, hi, rfl⟩ := ih
    have hX : X ∈ nextSymbols G (C.itemSet i) := mem_nextSymbols.mpr ⟨hne, hn⟩
    obtain ⟨k, hk⟩ := h.goto_complete i hi X hX
    have hat := (h.goto_sound X i k hk).2
    have hvalid := (h.state hG _ (List.mem_of_getElem? (getElem?_of_lt hi))).valid
    refine ⟨k, (List.getElem?_eq_some_iff.mp hat).1, ?_⟩
    rw [itemSet_eq_of_getElem? hat, closeItemSet_next_items hG hvalid]

/-- What makes a collection with its transitions the canonical one. -/
structure IsCanonical (G : WorkGrammar) (start : LrItem) (C : CollectionSet) : Prop where
  different : ∀ i j, i < j → j < C.itemSets.length →
    (C.itemSet i).items ≠ (C.itemSet j).items
  closed : ∀ i, ∀ it ∈ C.itemSet i, ∀ B, it.NextIs B → G.isMeta B = true →
    ∀ R ∈ G.encodedRules, R.leftPart = B → ⟨R, 0⟩ ∈ C.itemSet i
  states : ∀ S, Canonical G start S ↔ ∃ i, i < C.itemSets.length ∧ (C.itemSet i).items = S
  goto_defined : ∀ X i, (∃ k, C.getGotoValue X i = some k) ↔
    X ≠ G.getEndOfStreamSymbol ∧ ∃ it ∈ C.itemSet i, it.NextIs X
  goto_names : ∀ X i k, C.getGotoValue X i = some k →
    k < C.itemSets.length ∧ (C.itemSet k).items = closureOf G (movedOver (C.itemSet i).items X)
  before_dot : ∀ k, k < C.itemSets.length → k ≠ 0 → ∃ X, ∀ it ∈ C.itemSet k,
    0 < it.dotSymbolNo → it.rule.rightPart.items[it.dotSymbolNo - 1]? = some X

theorem CollectInv.different (hG : G.Numbered) {n : ℕ} {C : CollectionSet}
    (h : CollectInv G n C) {i j : ℕ} (hij : i < j) (hj : j < C.itemSets.length) :
    (C.itemSet i).items ≠ (C.itemSet j).items := by
  intro heq
  have hi : i < C.itemSets.length := hij.trans hj
  have hsorted {k : ℕ} (hk : k < C.itemSets.length) :=
    (h.state hG _ (List.mem_of_getElem? (getElem?_of_lt hk))).sorted
  have hsame : C.itemSet i = C.itemSet j := by
    apply eq_of_toFinset_eq (hsorted hi) (hsorted hj)
    ext it
    simp only [List.mem_toFinset]
    exact Set.ext_iff.mp heq it
  rw [CollectionSet.itemSet, CollectionSet.itemSet, List.getD_eq_getElem _ _ hi,
    List.getD_eq_getElem _ _ hj] at hsame
  have := (List.Nodup.getElem_inj_iff h.nodup).mp hsame
  omega

theorem Reached.before_dot (hG : G.Numbered) {S : ItemSet} (h : Reached G S) :
    S = closeItemSet G (startKernel G) ∨ ∃ X, ∀ it ∈ S, 0 < it.dotSymbolNo →
      it.rule.rightPart.items[it.dotSymbolNo - 1]? = some X := by
  cases h with
  | start => exact Or.inl rfl
  | @next S X hS hX =>
    right
    use X
    intro it hit hdot
    have hvalid := (hS.isState hG).valid
    rcases (nextItemSet_isClosure hG hvalid X).origin it hit with hk | ⟨hz, _⟩
    · obtain ⟨it', hit', hn, rfl⟩ := (mem_nextItemSet hG hvalid).mp hk
      have hlt := (hvalid it' hit').dot_lt hn.1
      have hX := hn.2
      rw [LrItem.getSymbolNo, List.getD_eq_getElem _ _ hlt] at hX
      simp only [LrItem.advance, Nat.add_sub_cancel]
      rw [List.getElem?_eq_getElem hlt, hX]
    · omega

theorem computeCollection_isCanonical (hG : G.Numbered) {start : LrItem}
    (hstart : (startKernel G).items = {start}) : IsCanonical G start (computeCollection G) := by
  have h := computeCollection_inv hG
  have hC := computeCollection_automaton hG
  generalize computeCollection G = C at h hC
  constructor
  · intro i j hij hj
    exact h.different hG hij hj
  · intro i it hit B hn _ R hR hleft
    rw [← hleft] at hn
    exact hC.closed i it hit R hR hn
  · intro S
    constructor
    · intro hS
      exact h.state_of_canonical hG hstart hS
    · rintro ⟨i, hi, rfl⟩
      exact (h.reached _ (List.mem_of_getElem? (getElem?_of_lt hi))).canonical hG hstart
  · intro X i
    constructor
    · rintro ⟨k, hk⟩
      exact ⟨hC.goto_ne_endOfStream i X k hk, hC.goto_from i X k hk⟩
    · rintro ⟨hne, it, hit, hn⟩
      exact hC.goto_exists i it hit X hn hne
  · intro X i k hk
    obtain ⟨_, hlt, hc⟩ := goto_closure hG h hk
    refine ⟨hlt, ?_⟩
    rw [hc.items_eq, nextItemSet_items hG (hC.valid i)]
  · intro k hk hne
    rcases (h.reached _ (List.mem_of_getElem? (getElem?_of_lt hk))).before_dot hG with heq | hX
    · have h0 := (List.getElem?_eq_some_iff.mp h.start).1
      rw [← itemSet_eq_of_getElem? h.start] at heq
      exact absurd (congrArg ItemSet.items heq.symm) (h.different hG (Nat.pos_of_ne_zero hne) hk)
    · exact hX

theorem closeItem_valid {s : ItemSet × List ℕ} (hs : ∀ it ∈ s.1, it.Valid G) (it : LrItem) :
    ∀ it' ∈ (closeItem G s it).1, it'.Valid G := by
  unfold closeItem
  split_ifs
  · intro it' hit'
    rcases mem_of_mem_addToItemSet hit' with h | ⟨hdot, hR, _⟩
    · exact hs it' h
    · exact ⟨hR, by omega⟩
  · exact hs

theorem closeWalk_ends {s : ItemSet × List ℕ} (hs : ∀ it ∈ s.1, it.Valid G) :
    ∃ last, EndsAt (closeWalkStep G) (s, none) (closePass G s, last) := by
  have hstep (w : (ItemSet × List ℕ) × Option LrItem) (hw : ∀ it ∈ w.1.1, it.Valid G) :
      (closeWalkStep G w).Spec (fun w' => (∀ it ∈ w'.1.1, it.Valid G) ∧
        (unvisited G w'.2).card < (unvisited G w.2).card) (fun b _ => b = true) := by
    unfold closeWalkStep
    cases hfind : w.1.1.find? fun it => w.2.all (LrItem.lt · it) with
    | none => rfl
    | some it =>
      have hv := hw it (List.mem_of_find?_eq_some hfind)
      have hlast := List.find?_some hfind
      exact ⟨closeItem_valid hw it, card_unvisited_lt hv hlast⟩
  have hdone : (runLoop (closeWalkStep G) false ((allItems G).length + 1) (s, none)).1 = true :=
    runLoop_post_of_measure (fun w => (unvisited G w.2).card) _ (fun b _ => b = true)
      hstep _ (s, none) hs (Nat.lt_succ_of_le (card_unvisited_le _))
  exact ⟨_, endsAt_of_done hdone⟩

/-- Computing the collection comes to an end, with every closure it asks for. -/
structure CollectionEnds (G : WorkGrammar) : Prop where
  compute : ∃ i, EndsAt (collectStep G) (⟨[closeItemSet G (startKernel G)], []⟩, 0)
    (computeCollection G, i)
  close : ∀ kernel : ItemSet, (∀ it ∈ kernel, it.Valid G) →
    kernel.Pairwise (LrItem.lt · · = true) →
      ∃ added, EndsAt (closeStep G) (kernel, []) (closeItemSet G kernel, added)
  pass : ∀ s : ItemSet × List ℕ, (∀ it ∈ s.1, it.Valid G) →
    ∃ last, EndsAt (closeWalkStep G) (s, none) (closePass G s, last)

theorem computeCollection_ends (hG : G.Numbered) : CollectionEnds G := by
  constructor
  · exact ⟨_, endsAt_of_done (collectLoop_spec hG (Nat.lt_succ_self _)).1⟩
  · intro kernel hvalid hsorted
    exact ⟨_, endsAt_of_done (closeLoop_spec hG hvalid hsorted (Nat.lt_succ_self _)).1⟩
  · intro s hs
    exact closeWalk_ends hs

theorem startKernel_items (hG : G.Numbered) {ruleNo : ℕ}
    (hA : (G.augmented ruleNo).Numbered) :
    (startKernel (G.augmented ruleNo)).items = {⟨G.newRootRule ruleNo, 0⟩} := by
  ext it
  constructor
  · intro hit
    obtain ⟨hdot, hleft⟩ := startKernel_dot it hit
    have hR := (startKernel_valid it hit).1
    rw [WorkGrammar.augmented_getNewRoot] at hleft
    rcases (WorkGrammar.mem_augmented_rules hG.toEncoded).mp hR with h | h
    · cases it
      simp_all
    · have := hG.left_lt _ h
      omega
  · rintro rfl
    have hleft : (G.newRootRule ruleNo).leftPart = (G.augmented ruleNo).getNewRoot := by
      rw [WorkGrammar.augmented_getNewRoot, WorkGrammar.newRootRule]
    show _ ∈ startKernel _
    rw [startKernel, ← hleft]
    apply mem_addToItemSet hA (fun _ h => absurd h List.not_mem_nil)
    exact (WorkGrammar.mem_augmented_rules hG.toEncoded).mpr (Or.inl rfl)

/-- `CLRCollectionSet::Compute` ends with the canonical collection of the augmented grammar. -/
theorem augmented_collection_canonical (G : WorkGrammar) (ruleNo : ℕ) (hG : G.Numbered)
    (hroot : G.getCountOfRoots = 1) (hno : ∀ R ∈ G.encodedRules, R.originalRuleNo ≠ ruleNo) :
    CollectionEnds (G.augmented ruleNo) ∧
      IsCanonical (G.augmented ruleNo) ⟨G.newRootRule ruleNo, 0⟩
        (computeCollection (G.augmented ruleNo)) := by
  have hA := hG.augmented hroot hno
  exact ⟨computeCollection_ends hA, computeCollection_isCanonical hA (startKernel_items hG hA)⟩

/-- The grammar with the rules `S → S a` and `S → a`. -/
def leftRecursive : WorkGrammar where
  uniqueGrammarItems := [{ type := .siMeta, itemStrId := "S" },
    { type := .siString, itemStrId := "a", grammarRoot := false }]
  encodedRules := [⟨0, 0, ⟨[0, 1], 0⟩⟩, ⟨1, 0, ⟨[1], 0⟩⟩]

theorem augmented_collection_canonical_leftRecursive :
    CollectionEnds (leftRecursive.augmented 2) ∧
      IsCanonical (leftRecursive.augmented 2) ⟨leftRecursive.newRootRule 2, 0⟩
        (computeCollection (leftRecursive.augmented 2)) :=
  augmented_collection_canonical leftRecursive 2
    ⟨⟨by decide, by decide, by decide⟩, by decide⟩ (by decide) (by decide)

end TomitaParser
