import Mathlib.Data.Finset.Powerset
import Mathlib.Data.List.Infix
import TomitaParser.Glr.ItemSets
/-! # The LR(0) collection of item sets -/

namespace TomitaParser
open OrderedSet LoopRun

/-- Equality of item sets, element by element. -/
def itemSetEq (a b : ItemSet) : Bool :=
  a.length == b.length && (a.zip b).all fun p => p.1.eq p.2

/-- The items of a set that can move over `X`, moved. -/
def nextItemSet (itemSet : ItemSet) (X : ℕ) : ItemSet :=
  insertAll LrItem.lt
    ((itemSet.filter fun it => !it.isFinished && it.getSymbolNo == X).map LrItem.advance) []

/-- The symbols some item can move over, in order; the end of the stream is never moved over. -/
def nextSymbols (G : WorkGrammar) (itemSet : ItemSet) : List ℕ :=
  insertAll natLt
    ((itemSet.filter fun it => !it.isFinished && it.getSymbolNo != G.getEndOfStreamSymbol).map
      LrItem.getSymbolNo) []

/-- `CLRCollectionSet`; the goto function is keyed by symbol and state. -/
structure CollectionSet where
  itemSets : List ItemSet
  gotoFunction : List ((ℕ × ℕ) × ℕ)
deriving Repr

namespace CollectionSet

def itemSet (C : CollectionSet) (stateNo : ℕ) : ItemSet := C.itemSets.getD stateNo []

def getGotoValue (C : CollectionSet) (symbolNo stateNo : ℕ) : Option ℕ :=
  C.gotoFunction.lookup (symbolNo, stateNo)

end CollectionSet

/-- The transition of state `i` over `X`: to the set already present, or to a new last one. -/
def addTransition (G : WorkGrammar) (i : ℕ) (C : CollectionSet) (X : ℕ) : CollectionSet :=
  let newItemSet := closeItemSet G (nextItemSet (C.itemSet i) X)
  let newStateNo := C.itemSets.findIdx (itemSetEq · newItemSet)
  { itemSets :=
      if newStateNo < C.itemSets.length then C.itemSets else C.itemSets ++ [newItemSet]
    gotoFunction := ((X, i), newStateNo) :: C.gotoFunction }

def collectStep (G : WorkGrammar) (s : CollectionSet × ℕ) : LoopStep (CollectionSet × ℕ) Bool :=
  if s.2 < s.1.itemSets.length then
    .next ((nextSymbols G (s.1.itemSet s.2)).foldl (addTransition G s.2) s.1, s.2 + 1)
  else .exit true s

/-- The rules of the new root, dot in front. -/
def startKernel (G : WorkGrammar) : ItemSet := addToItemSet G [] G.getNewRoot

/-- `CLRCollectionSet::Compute`; there are no more item sets than sets of items. -/
def computeCollection (G : WorkGrammar) : CollectionSet :=
  (runLoop (collectStep G) false (2 ^ (allItems G).length + 1)
    (⟨[closeItemSet G (startKernel G)], []⟩, 0)).2.1

variable {G : WorkGrammar}

theorem mem_nextItemSet {itemSet : ItemSet} (hG : G.Numbered)
    (hvalid : ∀ it ∈ itemSet, it.Valid G) {X : ℕ} {it : LrItem} :
    it ∈ nextItemSet itemSet X ↔ ∃ it' ∈ itemSet, it'.NextIs X ∧ it = it'.advance := by
  have hmem {a : LrItem} : a ∈ (itemSet.filter fun it =>
      !it.isFinished && it.getSymbolNo == X).map LrItem.advance ↔
      ∃ it' ∈ itemSet, it'.NextIs X ∧ a = it'.advance := by
    simp only [List.mem_map, List.mem_filter, Bool.and_eq_true, Bool.not_eq_true', beq_iff_eq,
      LrItem.NextIs]
    exact ⟨fun ⟨b, ⟨hb, h⟩, he⟩ => ⟨b, hb, h, he.symm⟩, fun ⟨b, hb, h, he⟩ => ⟨b, ⟨hb, h⟩, he.symm⟩⟩
  have hnew {a : LrItem} (ha : ∃ it' ∈ itemSet, it'.NextIs X ∧ a = it'.advance) : a.Valid G := by
    obtain ⟨b, hb, hn, rfl⟩ := ha
    exact (hvalid b hb).advance hn.1
  have hins : it ∈ nextItemSet itemSet X ↔ _ ∨ it ∈ [] := mem_insertAll fun a ha b hb he =>
    LrItem.eq_of_equiv hG (hnew (hmem.mp ha))
      (hnew (hmem.mp (hb.elim id fun h => absurd h List.not_mem_nil))) he
  rw [hins, hmem]
  simp

theorem nextItemSet_sorted (itemSet : ItemSet) (X : ℕ) :
    (nextItemSet itemSet X).Pairwise (LrItem.lt · · = true) :=
  pairwise_insertAll LrItem.lt_trans List.Pairwise.nil

theorem mem_nextSymbols {itemSet : ItemSet} {X : ℕ} :
    X ∈ nextSymbols G itemSet ↔
      X ≠ G.getEndOfStreamSymbol ∧ ∃ it ∈ itemSet, it.NextIs X := by
  simp only [nextSymbols, mem_insertAll_natLt, List.mem_map, List.mem_filter, Bool.and_eq_true,
    Bool.not_eq_true', bne_iff_ne, List.not_mem_nil, or_false, LrItem.NextIs]
  constructor
  · rintro ⟨it, ⟨hit, hf, hne⟩, rfl⟩
    exact ⟨hne, it, hit, hf, rfl⟩
  · rintro ⟨hne, it, hit, hf, rfl⟩
    exact ⟨it, ⟨hit, hf, hne⟩, rfl⟩

theorem itemSetEq_eq (hG : G.Numbered) {a b : ItemSet} (ha : ∀ it ∈ a, it.Valid G)
    (hb : ∀ it ∈ b, it.Valid G) (h : itemSetEq a b = true) : a = b := by
  simp only [itemSetEq, Bool.and_eq_true, beq_iff_eq] at h
  obtain ⟨hlen, hall⟩ := h
  induction a generalizing b with
  | nil => exact (List.length_eq_zero_iff.mp hlen.symm).symm
  | cons x a ih =>
    cases b with
    | nil => simp at hlen
    | cons y b =>
      simp only [List.zip_cons_cons, List.all_cons, Bool.and_eq_true] at hall
      have hxy := LrItem.eq_of_eq hG (ha x List.mem_cons_self) (hb y List.mem_cons_self) hall.1
      have hab := ih (fun it h => ha it (List.mem_cons_of_mem x h))
        (fun it h => hb it (List.mem_cons_of_mem y h)) (by simpa using hlen) hall.2
      rw [hxy, hab]

theorem itemSetEq_refl (a : ItemSet) : itemSetEq a a = true := by
  simp only [itemSetEq, beq_self_eq_true, Bool.true_and, List.all_eq_true]
  intro p hp
  obtain ⟨i, hi, rfl⟩ := List.mem_iff_getElem.mp hp
  simp [LrItem.eq]

theorem startKernel_valid : ∀ it ∈ startKernel G, it.Valid G := by
  intro it hit
  rcases mem_of_mem_addToItemSet hit with h | ⟨hdot, hR, _⟩
  · exact absurd h List.not_mem_nil
  · exact ⟨hR, by omega⟩

theorem startKernel_sorted : (startKernel G).Pairwise (LrItem.lt · · = true) :=
  pairwise_insertAll LrItem.lt_trans List.Pairwise.nil

theorem startKernel_dot : ∀ it ∈ startKernel G, it.dotSymbolNo = 0 ∧
    it.rule.leftPart = G.getNewRoot := by
  intro it hit
  rcases mem_of_mem_addToItemSet hit with h | ⟨hdot, _, hleft⟩
  · exact absurd h List.not_mem_nil
  · exact ⟨hdot, hleft⟩

/-- An item set of the collection: the start set, or a set whose kernel items have moved. -/
def IsState (G : WorkGrammar) (S : ItemSet) : Prop :=
  ∃ kernel, IsClosure G kernel S ∧
    (kernel = startKernel G ∨ kernel ≠ [] ∧ ∀ it ∈ kernel, 0 < it.dotSymbolNo)

theorem isState_start (hG : G.Numbered) : IsState G (closeItemSet G (startKernel G)) :=
  ⟨_, closeItemSet_isClosure hG startKernel_valid startKernel_sorted, Or.inl rfl⟩

theorem nextItemSet_isClosure (hG : G.Numbered) {S : ItemSet} (hS : ∀ it ∈ S, it.Valid G)
    (X : ℕ) : IsClosure G (nextItemSet S X) (closeItemSet G (nextItemSet S X)) := by
  refine closeItemSet_isClosure hG ?_ (nextItemSet_sorted S X)
  intro it hit
  obtain ⟨it', hit', hn, rfl⟩ := (mem_nextItemSet hG hS).mp hit
  exact (hS it' hit').advance hn.1

theorem isState_next (hG : G.Numbered) {S : ItemSet} (hS : ∀ it ∈ S, it.Valid G) {X : ℕ}
    (hX : X ∈ nextSymbols G S) : IsState G (closeItemSet G (nextItemSet S X)) := by
  refine ⟨_, nextItemSet_isClosure hG hS X, Or.inr ⟨?_, ?_⟩⟩
  · obtain ⟨_, it, hit, hn⟩ := mem_nextSymbols.mp hX
    exact List.ne_nil_of_mem ((mem_nextItemSet hG hS).mpr ⟨it, hit, hn, rfl⟩)
  · intro it hit
    obtain ⟨it', _, _, rfl⟩ := (mem_nextItemSet hG hS).mp hit
    exact Nat.succ_pos _

/-- The item sets that transitions lead to from the start set. -/
inductive Reached (G : WorkGrammar) : ItemSet → Prop
  | start : Reached G (closeItemSet G (startKernel G))
  | next {S : ItemSet} {X : ℕ} : Reached G S → X ∈ nextSymbols G S →
      Reached G (closeItemSet G (nextItemSet S X))

theorem IsState.valid {S : ItemSet} (h : IsState G S) : ∀ it ∈ S, it.Valid G := by
  obtain ⟨_, hc, _⟩ := h
  exact hc.valid

theorem Reached.isState (hG : G.Numbered) {S : ItemSet} (h : Reached G S) : IsState G S := by
  induction h with
  | start => exact isState_start hG
  | next _ hX ih => exact isState_next hG ih.valid hX

/-- What the collection keeps while the states before `i` have all their transitions. -/
structure CollectInv (G : WorkGrammar) (i : ℕ) (C : CollectionSet) : Prop where
  start : C.itemSets[0]? = some (closeItemSet G (startKernel G))
  reached : ∀ S ∈ C.itemSets, Reached G S
  nodup : C.itemSets.Nodup
  goto_sound : ∀ X j k, ((X, j), k) ∈ C.gotoFunction →
    X ∈ nextSymbols G (C.itemSet j) ∧
      C.itemSets[k]? = some (closeItemSet G (nextItemSet (C.itemSet j) X))
  goto_complete : ∀ j, j < i → ∀ X ∈ nextSymbols G (C.itemSet j),
    ∃ k, ((X, j), k) ∈ C.gotoFunction

theorem CollectInv.state (hG : G.Numbered) {i : ℕ} {C : CollectionSet} (h : CollectInv G i C) :
    ∀ S ∈ C.itemSets, IsState G S :=
  fun S hS => (h.reached S hS).isState hG

/-- States are only added at the end and transitions only added. -/
structure CollectGrows (C D : CollectionSet) : Prop where
  itemSets : C.itemSets <+: D.itemSets
  gotos : ∀ e ∈ C.gotoFunction, e ∈ D.gotoFunction

theorem CollectGrows.refl (C : CollectionSet) : CollectGrows C C :=
  ⟨List.prefix_rfl, fun _ h => h⟩

theorem CollectGrows.trans {C D E : CollectionSet} (h₁ : CollectGrows C D)
    (h₂ : CollectGrows D E) : CollectGrows C E :=
  ⟨h₁.itemSets.trans h₂.itemSets, fun e h => h₂.gotos e (h₁.gotos e h)⟩

theorem CollectGrows.getElem? {C D : CollectionSet} (h : CollectGrows C D) {k : ℕ} {S : ItemSet}
    (hk : C.itemSets[k]? = some S) : D.itemSets[k]? = some S := by
  obtain ⟨t, ht⟩ := h.itemSets
  rw [← ht, List.getElem?_append_left (List.getElem?_eq_some_iff.mp hk).1]
  exact hk

theorem itemSet_eq_of_getElem? {C : CollectionSet} {k : ℕ} {S : ItemSet}
    (hk : C.itemSets[k]? = some S) : C.itemSet k = S := by
  rw [CollectionSet.itemSet, List.getD_eq_getElem?_getD, hk, Option.getD_some]

theorem getElem?_of_lt {C : CollectionSet} {k : ℕ} (hk : k < C.itemSets.length) :
    C.itemSets[k]? = some (C.itemSet k) := by
  rw [CollectionSet.itemSet, List.getD_eq_getElem _ _ hk, List.getElem?_eq_getElem hk]

theorem CollectGrows.itemSet {C D : CollectionSet} (h : CollectGrows C D) {j : ℕ}
    (hj : j < C.itemSets.length) : D.itemSet j = C.itemSet j :=
  itemSet_eq_of_getElem? (h.getElem? (getElem?_of_lt hj))

theorem lt_of_mem_nextSymbols {C : CollectionSet} {j X : ℕ}
    (h : X ∈ nextSymbols G (C.itemSet j)) : j < C.itemSets.length := by
  by_contra hj
  obtain ⟨_, it, hit, _⟩ := mem_nextSymbols.mp h
  rw [CollectionSet.itemSet, List.getD_eq_default _ _ (not_lt.mp hj)] at hit
  exact absurd hit List.not_mem_nil

theorem addTransition_spec (hG : G.Numbered) {i : ℕ} {C : CollectionSet} {X : ℕ}
    (h : CollectInv G i C) (hX : X ∈ nextSymbols G (C.itemSet i)) :
    CollectInv G i (addTransition G i C X) ∧ CollectGrows C (addTransition G i C X) ∧
      ∃ k, ((X, i), k) ∈ (addTransition G i C X).gotoFunction := by
  have hi := lt_of_mem_nextSymbols hX
  have hnew : Reached G (closeItemSet G (nextItemSet (C.itemSet i) X)) :=
    .next (h.reached _ (List.mem_of_getElem? (getElem?_of_lt hi))) hX
  -- whether the set was present or not, the state found holds it
  have hkey : CollectGrows C (addTransition G i C X) ∧
      (addTransition G i C X).itemSets.Nodup ∧
      (∀ S ∈ (addTransition G i C X).itemSets, Reached G S) ∧
      (addTransition G i C X).itemSets[C.itemSets.findIdx
        (itemSetEq · (closeItemSet G (nextItemSet (C.itemSet i) X)))]? =
          some (closeItemSet G (nextItemSet (C.itemSet i) X)) := by
    simp only [addTransition]
    split_ifs with hfound
    · refine ⟨⟨List.prefix_rfl, fun e he => List.mem_cons_of_mem _ he⟩, h.nodup, h.reached, ?_⟩
      rw [List.getElem?_eq_getElem hfound]
      have heq := List.findIdx_getElem (w := hfound)
      rw [itemSetEq_eq hG (h.state hG _ (List.getElem_mem hfound)).valid
        (hnew.isState hG).valid heq]
    · have hlen := Nat.le_antisymm List.findIdx_le_length (not_lt.mp hfound)
      have hall := List.findIdx_eq_length.mp hlen
      have hnotin : closeItemSet G (nextItemSet (C.itemSet i) X) ∉ C.itemSets := by
        intro hmem
        have := hall _ hmem
        rw [itemSetEq_refl] at this
        cases this
      refine ⟨⟨List.prefix_append _ _, fun e he => List.mem_cons_of_mem _ he⟩, ?_, ?_, ?_⟩
      · refine List.nodup_append.mpr ⟨h.nodup, List.nodup_singleton _, ?_⟩
        intro a ha b hb hab
        rw [List.mem_singleton.mp hb] at hab
        exact hnotin (hab ▸ ha)
      · intro S hS
        rcases List.mem_append.mp hS with hS | hS
        · exact h.reached S hS
        · rw [List.mem_singleton.mp hS]
          exact hnew
      · rw [hlen, List.getElem?_append_right (le_refl _)]
        simp
  obtain ⟨hgrows, hnodup, hstates, hat⟩ := hkey
  refine ⟨⟨hgrows.getElem? h.start, hstates, hnodup, ?_, ?_⟩, hgrows, _, List.mem_cons_self⟩
  · intro Y j k hmem
    rcases List.mem_cons.mp hmem with he | hmem
    · simp only [Prod.mk.injEq] at he
      obtain ⟨⟨rfl, rfl⟩, rfl⟩ := he
      rw [hgrows.itemSet hi]
      exact ⟨hX, hat⟩
    · obtain ⟨hY, hk⟩ := h.goto_sound Y j k hmem
      rw [hgrows.itemSet (lt_of_mem_nextSymbols hY)]
      exact ⟨hY, hgrows.getElem? hk⟩
  · intro j hj Y hY
    rw [hgrows.itemSet (by omega)] at hY
    obtain ⟨k, hk⟩ := h.goto_complete j hj Y hY
    exact ⟨k, hgrows.gotos _ hk⟩

theorem foldl_addTransition_spec (hG : G.Numbered) {i : ℕ} (Xs : List ℕ) {C : CollectionSet}
    (h : CollectInv G i C) (hXs : ∀ X ∈ Xs, X ∈ nextSymbols G (C.itemSet i)) :
    CollectInv G i (Xs.foldl (addTransition G i) C) ∧
      CollectGrows C (Xs.foldl (addTransition G i) C) ∧
      ∀ X ∈ Xs, ∃ k, ((X, i), k) ∈ (Xs.foldl (addTransition G i) C).gotoFunction := by
  induction Xs generalizing C with
  | nil => exact ⟨h, CollectGrows.refl C, fun _ h => absurd h List.not_mem_nil⟩
  | cons X Xs ih =>
    have hX := hXs X List.mem_cons_self
    have hi := lt_of_mem_nextSymbols hX
    obtain ⟨hinv, hgrows, k, hk⟩ := addTransition_spec hG h hX
    obtain ⟨hinv', hgrows', hcov⟩ := ih hinv fun Y hY => by
      rw [hgrows.itemSet hi]
      exact hXs Y (List.mem_cons_of_mem X hY)
    refine ⟨hinv', hgrows.trans hgrows', fun Y hY => ?_⟩
    rcases List.mem_cons.mp hY with rfl | hY
    · exact ⟨k, hgrows'.gotos _ hk⟩
    · exact hcov Y hY

theorem eq_of_toFinset_eq {a b : ItemSet} (ha : a.Pairwise (LrItem.lt · · = true))
    (hb : b.Pairwise (LrItem.lt · · = true)) (h : a.toFinset = b.toFinset) : a = b := by
  have hne {l : ItemSet} (hl : l.Pairwise (LrItem.lt · · = true)) : l.Nodup :=
    hl.imp fun {x y} hxy he => by
      rw [he, LrItem.lt_irrefl] at hxy
      cases hxy
  have hperm : a.Perm b :=
    List.perm_of_nodup_nodup_toFinset_eq (hne ha) (hne hb) h
  refine hperm.eq_of_pairwise ?_ ha hb
  intro x y _ _ hxy hyx
  have := LrItem.lt_trans x y x hxy hyx
  rw [LrItem.lt_irrefl] at this
  cases this

theorem IsState.sorted {S : ItemSet} (h : IsState G S) :
    S.Pairwise (LrItem.lt · · = true) := by
  obtain ⟨_, hc, _⟩ := h
  exact hc.sorted

theorem length_le_pow {sets : List ItemSet} (hnodup : sets.Nodup)
    (hstate : ∀ S ∈ sets, IsState G S) : sets.length ≤ 2 ^ (allItems G).length := by
  have hinj : (sets.map List.toFinset).Nodup := by
    refine List.Nodup.map_on ?_ hnodup
    intro a ha b hb hab
    exact eq_of_toFinset_eq (hstate a ha).sorted (hstate b hb).sorted hab
  have hsub : (sets.map List.toFinset).toFinset ⊆ (allItems G).toFinset.powerset := by
    intro s hs
    obtain ⟨S, hS, rfl⟩ := List.mem_map.mp (List.mem_toFinset.mp hs)
    refine Finset.mem_powerset.mpr fun it hit => ?_
    exact List.mem_toFinset.mpr (mem_allItems ((hstate S hS).valid it (List.mem_toFinset.mp hit)))
  calc sets.length = (sets.map List.toFinset).toFinset.card := by
        rw [List.toFinset_card_of_nodup hinj, List.length_map]
    _ ≤ (allItems G).toFinset.powerset.card := Finset.card_le_card hsub
    _ = 2 ^ (allItems G).toFinset.card := Finset.card_powerset _
    _ ≤ 2 ^ (allItems G).length :=
        Nat.pow_le_pow_right (by omega) (List.toFinset_card_le _)

/-- The loop ends by itself, with every transition of every state. -/
theorem collectLoop_spec (hG : G.Numbered) {fuel : ℕ} (hfuel : 2 ^ (allItems G).length < fuel) :
    (runLoop (collectStep G) false fuel (⟨[closeItemSet G (startKernel G)], []⟩, 0)).1 = true ∧
      CollectInv G
        (runLoop (collectStep G) false fuel
          (⟨[closeItemSet G (startKernel G)], []⟩, 0)).2.1.itemSets.length
        (runLoop (collectStep G) false fuel (⟨[closeItemSet G (startKernel G)], []⟩, 0)).2.1 := by
  have hinit : CollectInv G 0 ⟨[closeItemSet G (startKernel G)], []⟩ := by
    refine ⟨rfl, ?_, List.nodup_singleton _, fun _ _ _ h => absurd h List.not_mem_nil, ?_⟩
    · intro S hS
      rw [List.mem_singleton.mp hS]
      exact .start
    · intro j hj
      omega
  refine runLoop_post_of_measure (fun s : CollectionSet × ℕ => 2 ^ (allItems G).length - s.2)
    (fun s => CollectInv G s.2 s.1)
    (fun b s => b = true ∧ CollectInv G s.1.itemSets.length s.1) ?_ _
    (_, 0) hinit ?_
  · rintro ⟨C, i⟩ h
    unfold collectStep
    dsimp only at h ⊢
    split_ifs with hi
    · obtain ⟨hinv, hgrows, hcov⟩ := foldl_addTransition_spec hG _ h fun X hX => hX
      have hbound := length_le_pow h.nodup (h.state hG)
      refine ⟨⟨hinv.start, hinv.reached, hinv.nodup, hinv.goto_sound, ?_⟩, by dsimp only; omega⟩
      intro j hj X hX
      rcases Nat.lt_succ_iff_lt_or_eq.mp hj with hj | rfl
      · exact hinv.goto_complete j hj X hX
      · rw [hgrows.itemSet hi] at hX
        exact hcov X hX
    · refine ⟨rfl, h.start, h.reached, h.nodup, h.goto_sound, ?_⟩
      intro j hj X hX
      exact h.goto_complete j (by dsimp only at hj; omega) X hX
  · exact Nat.lt_of_le_of_lt (Nat.sub_le _ _) hfuel

theorem computeCollection_inv (hG : G.Numbered) :
    CollectInv G (computeCollection G).itemSets.length (computeCollection G) :=
  (collectLoop_spec hG (Nat.lt_succ_self _)).2

private theorem mem_of_lookup {v : ℕ} {k' : ℕ × ℕ} {l : List ((ℕ × ℕ) × ℕ)}
    (h : l.lookup k' = some v) : (k', v) ∈ l := by
  obtain ⟨l₁, l₂, rfl, _⟩ := List.lookup_eq_some_iff.mp h
  simp

private theorem exists_lookup_of_mem {k' : ℕ × ℕ} {v : ℕ} {l : List ((ℕ × ℕ) × ℕ)}
    (h : (k', v) ∈ l) : ∃ w, l.lookup k' = some w := by
  cases hl : l.lookup k' with
  | some w => exact ⟨w, rfl⟩
  | none =>
    have := List.lookup_eq_none_iff.mp hl _ h
    simp at this

/-- The facts about states and transitions that parsing rests on. -/
structure Automaton (G : WorkGrammar) (C : CollectionSet) : Prop where
  valid : ∀ q, ∀ it ∈ C.itemSet q, it.Valid G
  start_item : ∀ R ∈ G.encodedRules, R.leftPart = G.getNewRoot → ⟨R, 0⟩ ∈ C.itemSet 0
  start_least : ∀ P : LrItem → Prop,
    (∀ R ∈ G.encodedRules, R.leftPart = G.getNewRoot → P ⟨R, 0⟩) →
    (∀ it, P it → ∀ R ∈ G.encodedRules, it.NextIs R.leftPart → P ⟨R, 0⟩) → ∀ it ∈ C.itemSet 0, P it
  closed : ∀ q, ∀ it ∈ C.itemSet q, ∀ R ∈ G.encodedRules, it.NextIs R.leftPart →
    ⟨R, 0⟩ ∈ C.itemSet q
  origin : ∀ q, ∀ it ∈ C.itemSet q, it.dotSymbolNo = 0 → it.rule.leftPart ≠ G.getNewRoot →
    ∃ it' ∈ C.itemSet q, it'.NextIs it.rule.leftPart
  goto_exists : ∀ q, ∀ it ∈ C.itemSet q, ∀ X, it.NextIs X → X ≠ G.getEndOfStreamSymbol →
    ∃ q', C.getGotoValue X q = some q'
  goto_lt : ∀ q X q', C.getGotoValue X q = some q' → q' < C.itemSets.length
  goto_ne_endOfStream : ∀ q X q', C.getGotoValue X q = some q' → X ≠ G.getEndOfStreamSymbol
  goto_from : ∀ q X q', C.getGotoValue X q = some q' → ∃ it ∈ C.itemSet q, it.NextIs X
  goto_ne_zero : ∀ q X q', C.getGotoValue X q = some q' → q' ≠ 0
  advance : ∀ q X q', C.getGotoValue X q = some q' → ∀ it ∈ C.itemSet q, it.NextIs X →
    it.advance ∈ C.itemSet q'
  back : ∀ q X q', C.getGotoValue X q = some q' → ∀ it ∈ C.itemSet q', 0 < it.dotSymbolNo →
    ∃ it' ∈ C.itemSet q, it'.NextIs X ∧ it = it'.advance
  accessing : ∀ p q X Y r, C.getGotoValue X p = some r → C.getGotoValue Y q = some r → X = Y

private theorem isState_of_mem (hG : G.Numbered) {i : ℕ} {C : CollectionSet}
    (h : CollectInv G i C) {q : ℕ} {it : LrItem} (hit : it ∈ C.itemSet q) :
    IsState G (C.itemSet q) := by
  have hq : q < C.itemSets.length := by
    by_contra hq
    rw [CollectionSet.itemSet, List.getD_eq_default _ _ (not_lt.mp hq)] at hit
    exact absurd hit List.not_mem_nil
  exact h.state hG _ (List.mem_of_getElem? (getElem?_of_lt hq))

theorem goto_closure (hG : G.Numbered) {i : ℕ} {C : CollectionSet}
    (h : CollectInv G i C) {q X q' : ℕ} (hgoto : C.getGotoValue X q = some q') :
    X ∈ nextSymbols G (C.itemSet q) ∧ q' < C.itemSets.length ∧
      IsClosure G (nextItemSet (C.itemSet q) X) (C.itemSet q') := by
  obtain ⟨hX, hk⟩ := h.goto_sound X q q' (mem_of_lookup hgoto)
  obtain ⟨_, it, hit, _⟩ := mem_nextSymbols.mp hX
  refine ⟨hX, (List.getElem?_eq_some_iff.mp hk).1, ?_⟩
  rw [itemSet_eq_of_getElem? hk]
  exact nextItemSet_isClosure hG (isState_of_mem hG h hit).valid X

private theorem start_dot (hG : G.Numbered) {i : ℕ} {C : CollectionSet}
    (h : CollectInv G i C) : ∀ it ∈ C.itemSet 0, it.dotSymbolNo = 0 := by
  intro it hit
  rw [itemSet_eq_of_getElem? h.start] at hit
  have hc := closeItemSet_isClosure hG startKernel_valid startKernel_sorted
  rcases hc.origin it hit with hk | ⟨hdot, _⟩
  · exact (startKernel_dot it hk).1
  · exact hdot

theorem computeCollection_automaton (hG : G.Numbered) :
    Automaton G (computeCollection G) := by
  have h := computeCollection_inv hG
  generalize computeCollection G = C at h
  have hadvance : ∀ q X q', C.getGotoValue X q = some q' → ∀ it ∈ C.itemSet q, it.NextIs X →
      it.advance ∈ C.itemSet q' := by
    intro q X q' hgoto it hit hn
    obtain ⟨_, _, hc⟩ := goto_closure hG h hgoto
    refine hc.kernel_sub _ ?_
    exact (mem_nextItemSet hG (isState_of_mem hG h hit).valid).mpr ⟨it, hit, hn, rfl⟩
  have hfrom : ∀ q X q', C.getGotoValue X q = some q' → ∃ it ∈ C.itemSet q, it.NextIs X :=
    fun q X q' hgoto => (mem_nextSymbols.mp (goto_closure hG h hgoto).1).2
  have hback : ∀ q X q', C.getGotoValue X q = some q' → ∀ it ∈ C.itemSet q',
      0 < it.dotSymbolNo → ∃ it' ∈ C.itemSet q, it'.NextIs X ∧ it = it'.advance := by
    intro q X q' hgoto it hit hdot
    obtain ⟨_, _, hc⟩ := goto_closure hG h hgoto
    obtain ⟨it₀, h₀, _⟩ := hfrom q X q' hgoto
    rcases hc.origin it hit with hk | ⟨hz, _⟩
    · exact (mem_nextItemSet hG (isState_of_mem hG h h₀).valid).mp hk
    · omega
  refine ⟨?_, ?_, ?_, ?_, ?_, ?_, ?_, ?_, hfrom, ?_, hadvance, hback, ?_⟩
  · intro q it hit
    exact (isState_of_mem hG h hit).valid it hit
  · intro R hR hleft
    rw [itemSet_eq_of_getElem? h.start]
    refine (closeItemSet_isClosure hG startKernel_valid startKernel_sorted).kernel_sub _ ?_
    rw [startKernel, ← hleft]
    exact mem_addToItemSet hG (fun _ h => absurd h List.not_mem_nil) hR
  · intro P hstart hclosed it hit
    rw [itemSet_eq_of_getElem? h.start] at hit
    refine (closeItemSet_isClosure hG startKernel_valid startKernel_sorted).least P ?_
      hclosed it hit
    intro it₀ h₀
    obtain ⟨hdot, hleft⟩ := startKernel_dot it₀ h₀
    have hP := hstart it₀.rule (startKernel_valid it₀ h₀).1 hleft
    rw [← hdot] at hP
    exact hP
  · intro q it hit R hR hn
    obtain ⟨_, hc, _⟩ := isState_of_mem hG h hit
    exact hc.closed it hit R hR hn
  · intro q it hit hdot hleft
    obtain ⟨kernel, hc, hkernel⟩ := isState_of_mem hG h hit
    rcases hc.origin it hit with hk | ⟨_, hsupport⟩
    · rcases hkernel with rfl | ⟨_, hmoved⟩
      · exact absurd (startKernel_dot it hk).2 hleft
      · have := hmoved it hk
        omega
    · exact hsupport
  · intro q it hit X hn hne
    have hX : X ∈ nextSymbols G (C.itemSet q) := mem_nextSymbols.mpr ⟨hne, it, hit, hn⟩
    obtain ⟨k, hk⟩ := h.goto_complete q (lt_of_mem_nextSymbols hX) X hX
    exact exists_lookup_of_mem hk
  · exact fun q X q' hgoto => (goto_closure hG h hgoto).2.1
  · exact fun q X q' hgoto => (mem_nextSymbols.mp (goto_closure hG h hgoto).1).1
  · rintro q X q' hgoto rfl
    obtain ⟨it, hit, hn⟩ := hfrom q X 0 hgoto
    have := start_dot hG h _ (hadvance q X 0 hgoto it hit hn)
    simp [LrItem.advance] at this
  · intro p q X Y r hp hq
    obtain ⟨it, hit, hn⟩ := hfrom p X r hp
    obtain ⟨it', _, hn', he⟩ :=
      hback q Y r hq _ (hadvance p X r hp it hit hn) (Nat.succ_pos _)
    have : it = it' := by
      cases it
      cases it'
      simpa [LrItem.advance] using he
    rw [← hn.2, ← hn'.2, this]

end TomitaParser
