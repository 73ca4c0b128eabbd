import Mathlib.Data.Finset.Card
import Mathlib.Data.Finset.Range
import Mathlib.Tactic.Linarith
import TomitaParser.Grammar.WorkGrammar
import TomitaParser.Lib.Loop
/-! # LR(0) items and the closure of an item set -/

namespace TomitaParser
open OrderedSet LoopRun

/-- `CLRItem`: a rule and the number of symbols before the dot. -/
structure LrItem where
  rule : WorkRule
  dotSymbolNo : ℕ
deriving DecidableEq, Repr

/-- Item sets in the order of `CLRItem::operator<`. -/
abbrev ItemSet := List LrItem

namespace LrItem

def lt (a b : LrItem) : Bool :=
  if a.dotSymbolNo ≠ b.dotSymbolNo then decide (a.dotSymbolNo < b.dotSymbolNo)
  else decide (a.rule.originalRuleNo < b.rule.originalRuleNo)

/-- `CLRItem::operator==`. -/
def eq (a b : LrItem) : Bool :=
  a.dotSymbolNo == b.dotSymbolNo && a.rule.originalRuleNo == b.rule.originalRuleNo

def isFinished (it : LrItem) : Bool := it.rule.rightPart.items.length == it.dotSymbolNo

def getSymbolNo (it : LrItem) : ℕ := it.rule.rightPart.items.getD it.dotSymbolNo 0

def advance (it : LrItem) : LrItem := ⟨it.rule, it.dotSymbolNo + 1⟩

/-- The item is one of the grammar's. -/
def Valid (G : WorkGrammar) (it : LrItem) : Prop :=
  it.rule ∈ G.encodedRules ∧ it.dotSymbolNo ≤ it.rule.rightPart.items.length

/-- The symbol after the dot, where there is one. -/
def NextIs (it : LrItem) (X : ℕ) : Prop := it.isFinished = false ∧ it.getSymbolNo = X

theorem lt_trans (a b c : LrItem) (hab : lt a b = true) (hbc : lt b c = true) :
    lt a c = true := by
  unfold lt at *
  split_ifs at * <;> simp only [decide_eq_true_eq] at * <;> omega

theorem lt_irrefl (a : LrItem) : lt a a = false := by simp [lt]

theorem equiv_iff_eq {a b : LrItem} : Equivalent lt a b ↔ eq a b = true := by
  unfold Equivalent lt eq
  split_ifs <;>
    simp only [decide_eq_false_iff_not, Bool.and_eq_true, beq_iff_eq] <;> omega

variable {G : WorkGrammar}

theorem eq_of_eq (hG : G.Numbered) {a b : LrItem} (ha : a.Valid G) (hb : b.Valid G)
    (h : eq a b = true) : a = b := by
  simp only [eq, Bool.and_eq_true, beq_iff_eq] at h
  have hrule := hG.ruleNo_inj a.rule ha.1 b.rule hb.1 h.2
  cases a
  cases b
  simp_all

theorem eq_of_equiv (hG : G.Numbered) {a b : LrItem} (ha : a.Valid G) (hb : b.Valid G)
    (h : Equivalent lt a b) : b = a := (eq_of_eq hG ha hb (equiv_iff_eq.mp h)).symm

theorem Valid.dot_lt {it : LrItem} (h : it.Valid G) (hf : it.isFinished = false) :
    it.dotSymbolNo < it.rule.rightPart.items.length := by
  have hle := h.2
  simp only [isFinished, beq_eq_false_iff_ne, ne_eq] at hf
  omega

theorem Valid.getSymbolNo_mem {it : LrItem} (h : it.Valid G) (hf : it.isFinished = false) :
    it.getSymbolNo ∈ it.rule.rightPart.items := by
  have hlt := h.dot_lt hf
  rw [getSymbolNo, List.getD_eq_getElem _ _ hlt]
  exact List.getElem_mem hlt

theorem Valid.advance {it : LrItem} (h : it.Valid G) (hf : it.isFinished = false) :
    it.advance.Valid G := ⟨h.1, h.dot_lt hf⟩

theorem Valid.split {it : LrItem} (h : it.Valid G) {X : ℕ} (hX : it.NextIs X) :
    it.rule.rightPart.items = it.rule.rightPart.items.take it.dotSymbolNo ++
      X :: it.rule.rightPart.items.drop (it.dotSymbolNo + 1) := by
  have hlt := h.dot_lt hX.1
  have hX' := hX.2
  rw [getSymbolNo, List.getD_eq_getElem _ _ hlt] at hX'
  rw [← hX', List.getElem_cons_drop, List.take_append_drop]

end LrItem

/-- All rules of a symbol, dot in front. -/
def addToItemSet (G : WorkGrammar) (itemSet : ItemSet) (symbolNo : ℕ) : ItemSet :=
  insertAll LrItem.lt ((G.encodedRules.filter (·.leftPart == symbolNo)).map (⟨·, 0⟩)) itemSet

/-- The body of the inner loop of `CloseItemSet`; the second component is `AlreadyAdded`. -/
def closeItem (G : WorkGrammar) (s : ItemSet × List ℕ) (it : LrItem) : ItemSet × List ℕ :=
  if !it.isFinished && (G.isMeta it.getSymbolNo && !s.2.contains it.getSymbolNo) then
    (addToItemSet G s.1 it.getSymbolNo, it.getSymbolNo :: s.2)
  else s

/-- Every item of the grammar. -/
def allItems (G : WorkGrammar) : List LrItem :=
  G.encodedRules.flatMap fun R => (List.range (R.rightPart.items.length + 1)).map (⟨R, ·⟩)

/-- The iterator goes to the next item of the set as it is by now, so it meets what the pass itself
has inserted further on. -/
def closeWalkStep (G : WorkGrammar) (w : (ItemSet × List ℕ) × Option LrItem) :
    LoopStep ((ItemSet × List ℕ) × Option LrItem) Bool :=
  match w.1.1.find? fun it => w.2.all (LrItem.lt · it) with
  | some it => .next (closeItem G w.1 it, some it)
  | none => .exit true w

def closePass (G : WorkGrammar) (s : ItemSet × List ℕ) : ItemSet × List ℕ :=
  (runLoop (closeWalkStep G) false ((allItems G).length + 1) (s, none)).2.1

def closeStep (G : WorkGrammar) (s : ItemSet × List ℕ) : LoopStep (ItemSet × List ℕ) Bool :=
  if s.1.length < (closePass G s).1.length then .next (closePass G s)
  else .exit true (closePass G s)

def closeItemSet (G : WorkGrammar) (itemSet : ItemSet) : ItemSet :=
  (runLoop (closeStep G) false (G.symbolCount + 1) (itemSet, [])).2.1

variable {G : WorkGrammar}

theorem mem_of_mem_addToItemSet {itemSet : ItemSet} {B : ℕ} {it : LrItem}
    (h : it ∈ addToItemSet G itemSet B) :
    it ∈ itemSet ∨ (it.dotSymbolNo = 0 ∧ it.rule ∈ G.encodedRules ∧ it.rule.leftPart = B) := by
  rcases mem_of_mem_insertAll h with h | h
  · obtain ⟨R, hR, rfl⟩ := List.mem_map.mp h
    have := List.mem_filter.mp hR
    exact Or.inr ⟨rfl, this.1, by simpa using this.2⟩
  · exact Or.inl h

theorem mem_addToItemSet (hG : G.Numbered) {itemSet : ItemSet}
    (hvalid : ∀ it ∈ itemSet, it.Valid G) {R : WorkRule} (hR : R ∈ G.encodedRules) :
    ⟨R, 0⟩ ∈ addToItemSet G itemSet R.leftPart := by
  have hnew : ∀ it ∈ (G.encodedRules.filter (·.leftPart == R.leftPart)).map (LrItem.mk · 0),
      it.Valid G := by
    intro it hit
    obtain ⟨R', hR', rfl⟩ := List.mem_map.mp hit
    exact ⟨(List.mem_filter.mp hR').1, Nat.zero_le _⟩
  refine (mem_insertAll fun a ha b hb he => ?_).mpr (Or.inl ?_)
  · exact LrItem.eq_of_equiv hG (hnew a ha) (hb.elim (hnew b) (hvalid b)) he
  · exact List.mem_map.mpr ⟨R, List.mem_filter.mpr ⟨hR, by simp⟩, rfl⟩

/-- What the closure loop keeps, for the set it started from. -/
structure CloseInv (G : WorkGrammar) (kernel : ItemSet) (s : ItemSet × List ℕ) : Prop where
  kernel_sub : ∀ it ∈ kernel, it ∈ s.1
  valid : ∀ it ∈ s.1, it.Valid G
  sorted : s.1.Pairwise (LrItem.lt · · = true)
  origin : ∀ it ∈ s.1, it ∈ kernel ∨
    (it.dotSymbolNo = 0 ∧ ∃ it' ∈ s.1, it'.NextIs it.rule.leftPart)
  least : ∀ P : LrItem → Prop, (∀ it ∈ kernel, P it) →
    (∀ it, P it → ∀ R ∈ G.encodedRules, it.NextIs R.leftPart → P ⟨R, 0⟩) → ∀ it ∈ s.1, P it
  added : ∀ B ∈ s.2, ∀ R ∈ G.encodedRules, R.leftPart = B → ⟨R, 0⟩ ∈ s.1

/-- The effect of a stretch of a pass: nothing, or a new symbol is marked as added. -/
structure CloseGrows (G : WorkGrammar) (s t : ItemSet × List ℕ) : Prop where
  items : ∀ it ∈ s.1, it ∈ t.1
  marks : ∀ B ∈ s.2, B ∈ t.2
  length : s.1.length ≤ t.1.length
  same : t.1.length ≤ s.1.length → t.1 = s.1
  mark : t = s ∨ ∃ B, B < G.symbolCount ∧ B ∉ s.2 ∧ B ∈ t.2

theorem CloseGrows.refl (s : ItemSet × List ℕ) : CloseGrows G s s :=
  ⟨fun _ h => h, fun _ h => h, le_refl _, fun _ => rfl, Or.inl rfl⟩

theorem CloseGrows.trans {s t u : ItemSet × List ℕ} (h₁ : CloseGrows G s t)
    (h₂ : CloseGrows G t u) : CloseGrows G s u := by
  refine ⟨fun it h => h₂.items it (h₁.items it h), fun B h => h₂.marks B (h₁.marks B h),
    h₁.length.trans h₂.length, ?_, ?_⟩
  · intro h
    have ht : t.1 = s.1 := h₁.same (h₂.length.trans h)
    rw [← ht]
    exact h₂.same (h.trans h₁.length)
  · rcases h₁.mark with rfl | ⟨B, hB, hs, ht⟩
    · exact h₂.mark
    · exact Or.inr ⟨B, hB, hs, h₂.marks B ht⟩

theorem closeItem_spec (hG : G.Numbered) {kernel : ItemSet} {s : ItemSet × List ℕ} {it : LrItem}
    (hs : CloseInv G kernel s) (hit : it ∈ s.1) :
    CloseInv G kernel (closeItem G s it) ∧ CloseGrows G s (closeItem G s it) ∧
      (it.isFinished = false → G.isMeta it.getSymbolNo = true →
        it.getSymbolNo ∈ (closeItem G s it).2) := by
  unfold closeItem
  split_ifs with hc
  · simp only [Bool.and_eq_true, Bool.not_eq_true', List.contains_eq_mem,
      decide_eq_false_iff_not] at hc
    obtain ⟨hf, _, hnew⟩ := hc
    have hlt := hG.right_lt _ (hs.valid it hit).1 _ ((hs.valid it hit).getSymbolNo_mem hf)
    have hsub : ∀ it' ∈ s.1, it' ∈ addToItemSet G s.1 it.getSymbolNo :=
      fun _ h => mem_insertAll_of_mem h
    refine ⟨⟨fun it' h => hsub it' (hs.kernel_sub it' h), ?_, ?_, ?_, ?_, ?_⟩,
      ⟨hsub, ?_, ?_, ?_, ?_⟩, ?_⟩
    · intro it' h
      rcases mem_of_mem_addToItemSet h with h | ⟨hdot, hR, _⟩
      · exact hs.valid it' h
      · exact ⟨hR, by omega⟩
    · exact pairwise_insertAll LrItem.lt_trans hs.sorted
    · intro it' h
      rcases mem_of_mem_addToItemSet h with h | ⟨hdot, _, hleft⟩
      · refine (hs.origin it' h).imp_right ?_
        rintro ⟨hdot, it₀, h₀, hn⟩
        exact ⟨hdot, it₀, hsub it₀ h₀, hn⟩
      · exact Or.inr ⟨hdot, it, hsub it hit, hf, hleft.symm⟩
    · intro P hkernel hclosed it' h
      rcases mem_of_mem_addToItemSet h with h | ⟨hdot, hR, hleft⟩
      · exact hs.least P hkernel hclosed it' h
      · have hnew := hclosed it (hs.least P hkernel hclosed it hit) it'.rule hR ⟨hf, hleft.symm⟩
        rw [← hdot] at hnew
        exact hnew
    · intro B hB R hR hleft
      rcases List.mem_cons.mp hB with rfl | hB
      · rw [← hleft]
        exact mem_addToItemSet hG hs.valid hR
      · exact hsub _ (hs.added B hB R hR hleft)
    · exact fun B hB => List.mem_cons_of_mem _ hB
    · exact length_le_insertAll
    · exact insertAll_eq_of_length_le
    · exact Or.inr ⟨_, hlt, hnew, List.mem_cons_self⟩
    · exact fun _ _ => List.mem_cons_self
  · refine ⟨hs, CloseGrows.refl s, fun hf hm => ?_⟩
    simpa [hf, hm] using hc

theorem mem_allItems {it : LrItem} (h : it.Valid G) : it ∈ allItems G := by
  refine List.mem_flatMap.mpr ⟨it.rule, h.1, ?_⟩
  exact List.mem_map.mpr ⟨it.dotSymbolNo, List.mem_range.mpr (Nat.lt_succ_of_le h.2), rfl⟩

/-- The items of the grammar the iterator has not passed yet. -/
def unvisited (G : WorkGrammar) (last : Option LrItem) : Finset LrItem :=
  (allItems G).toFinset.filter fun it => last.all (LrItem.lt · it) = true

theorem card_unvisited_lt {last : Option LrItem} {it : LrItem} (hv : it.Valid G)
    (hlast : last.all (LrItem.lt · it) = true) :
    (unvisited G (some it)).card < (unvisited G last).card := by
  apply Finset.card_lt_card
  constructor
  · intro b hb
    simp only [unvisited, Finset.mem_filter, Option.all_some] at hb ⊢
    refine ⟨hb.1, ?_⟩
    cases last with
    | none => rfl
    | some a => exact LrItem.lt_trans a it b hlast hb.2
  · intro hsub
    have hmem : it ∈ unvisited G last := by
      simp only [unvisited, Finset.mem_filter, List.mem_toFinset]
      exact ⟨mem_allItems hv, hlast⟩
    have hself := hsub hmem
    simp only [unvisited, Finset.mem_filter, Option.all_some, LrItem.lt_irrefl] at hself
    exact absurd hself.2 Bool.false_ne_true

theorem card_unvisited_le (last : Option LrItem) :
    (unvisited G last).card ≤ (allItems G).length :=
  (Finset.card_filter_le _ _).trans (List.toFinset_card_le _)

private theorem eq_or_lt_of_find? {itemSet : ItemSet} {p : LrItem → Bool} {it it' : LrItem}
    (hsorted : itemSet.Pairwise (LrItem.lt · · = true)) (hfind : itemSet.find? p = some it)
    (hit' : it' ∈ itemSet) (hp : p it' = true) : it' = it ∨ it.lt it' = true := by
  obtain ⟨_, before, after, rfl, hbefore⟩ := List.find?_eq_some_iff_append.mp hfind
  rcases List.mem_append.mp hit' with h | h
  · have := hbefore it' h
    rw [hp] at this
    exact absurd this Bool.false_ne_true
  · rcases List.mem_cons.mp h with h | h
    · exact Or.inl h
    · have htail := (List.pairwise_append.mp hsorted).2.1
      exact Or.inr ((List.pairwise_cons.mp htail).1 it' h)

/-- What a pass keeps: the items it began with are marked as far as the iterator has come. -/
private structure WalkInv (G : WorkGrammar) (kernel : ItemSet) (s : ItemSet × List ℕ)
    (w : (ItemSet × List ℕ) × Option LrItem) : Prop where
  inv : CloseInv G kernel w.1
  grows : CloseGrows G s w.1
  marked : ∀ it ∈ s.1, w.2.all (LrItem.lt · it) = false → it.isFinished = false →
    G.isMeta it.getSymbolNo = true → it.getSymbolNo ∈ w.1.2

private theorem closeWalkStep_spec (hG : G.Numbered) {kernel : ItemSet} {s : ItemSet × List ℕ}
    (w : (ItemSet × List ℕ) × Option LrItem) (hw : WalkInv G kernel s w) :
    (closeWalkStep G w).Spec
      (fun w' => WalkInv G kernel s w' ∧ (unvisited G w'.2).card < (unvisited G w.2).card)
      (fun b w' => b = true ∧ CloseInv G kernel w'.1 ∧ CloseGrows G s w'.1 ∧
        ∀ it ∈ s.1, it.isFinished = false → G.isMeta it.getSymbolNo = true →
          it.getSymbolNo ∈ w'.1.2) := by
  unfold closeWalkStep
  cases hfind : w.1.1.find? fun it => w.2.all (LrItem.lt · it) with
  | none =>
    refine ⟨rfl, hw.inv, hw.grows, ?_⟩
    intro it hit hf hm
    have hpassed := List.find?_eq_none.mp hfind it (hw.grows.items it hit)
    exact hw.marked it hit (Bool.eq_false_iff.mpr hpassed) hf hm
  | some it =>
    have hmem := List.mem_of_find?_eq_some hfind
    have hlast := List.find?_some hfind
    obtain ⟨hinv, hgrows, hmark⟩ := closeItem_spec hG hw.inv hmem
    refine ⟨⟨hinv, hw.grows.trans hgrows, ?_⟩, card_unvisited_lt (hw.inv.valid it hmem) hlast⟩
    intro it' hit' hnot hf hm
    simp only [Option.all_some] at hnot
    cases hbefore : w.2.all (LrItem.lt · it') with
    | false => exact hgrows.marks _ (hw.marked it' hit' hbefore hf hm)
    | true =>
      -- the iterator stands on the first item it has not passed
      rcases eq_or_lt_of_find? hw.inv.sorted hfind (hw.grows.items it' hit') hbefore with rfl | hlt
      · exact hmark hf hm
      · rw [hlt] at hnot
        exact absurd hnot.symm Bool.false_ne_true

theorem closeWalk_spec (hG : G.Numbered) {kernel : ItemSet} {s : ItemSet × List ℕ}
    (hs : CloseInv G kernel s) {fuel : ℕ} (hfuel : (allItems G).length < fuel) :
    (runLoop (closeWalkStep G) false fuel (s, none)).1 = true ∧
      CloseInv G kernel (runLoop (closeWalkStep G) false fuel (s, none)).2.1 ∧
      CloseGrows G s (runLoop (closeWalkStep G) false fuel (s, none)).2.1 ∧
      ∀ it ∈ s.1, it.isFinished = false → G.isMeta it.getSymbolNo = true →
        it.getSymbolNo ∈ (runLoop (closeWalkStep G) false fuel (s, none)).2.1.2 := by
  have hinit : WalkInv G kernel s (s, none) :=
    ⟨hs, CloseGrows.refl s, fun _ _ h => absurd h.symm Bool.false_ne_true⟩
  exact runLoop_post_of_measure (fun w => (unvisited G w.2).card) (WalkInv G kernel s)
    (fun b w' => b = true ∧ CloseInv G kernel w'.1 ∧ CloseGrows G s w'.1 ∧
      ∀ it ∈ s.1, it.isFinished = false → G.isMeta it.getSymbolNo = true →
        it.getSymbolNo ∈ w'.1.2)
    (closeWalkStep_spec hG) fuel (s, none) hinit
    (Nat.lt_of_le_of_lt (card_unvisited_le _) hfuel)

theorem closePass_spec (hG : G.Numbered) {kernel : ItemSet} {s : ItemSet × List ℕ}
    (hs : CloseInv G kernel s) :
    CloseInv G kernel (closePass G s) ∧ CloseGrows G s (closePass G s) ∧
      ∀ it ∈ s.1, it.isFinished = false → G.isMeta it.getSymbolNo = true →
        it.getSymbolNo ∈ (closePass G s).2 :=
  (closeWalk_spec hG hs (Nat.lt_succ_self _)).2

/-- The symbols a closure loop has not yet marked. -/
private def unmarked (G : WorkGrammar) (s : ItemSet × List ℕ) : Finset ℕ :=
  (Finset.range G.symbolCount).filter (· ∉ s.2)

private theorem card_unmarked_lt {s t : ItemSet × List ℕ} (h : CloseGrows G s t)
    (hlen : s.1.length < t.1.length) : (unmarked G t).card < (unmarked G s).card := by
  rcases h.mark with rfl | ⟨B, hB, hs, ht⟩
  · omega
  · refine Finset.card_lt_card ⟨?_, fun hsub => ?_⟩
    · intro A hA
      simp only [unmarked, Finset.mem_filter] at hA ⊢
      exact ⟨hA.1, fun h' => hA.2 (h.marks A h')⟩
    · have hmem : B ∈ unmarked G s := by
        simp only [unmarked, Finset.mem_filter, Finset.mem_range]
        exact ⟨hB, hs⟩
      have := hsub hmem
      simp only [unmarked, Finset.mem_filter] at this
      exact this.2 ht

/-- What closing an item set yields. -/
structure IsClosure (G : WorkGrammar) (kernel itemSet : ItemSet) : Prop where
  kernel_sub : ∀ it ∈ kernel, it ∈ itemSet
  valid : ∀ it ∈ itemSet, it.Valid G
  sorted : itemSet.Pairwise (LrItem.lt · · = true)
  origin : ∀ it ∈ itemSet, it ∈ kernel ∨
    (it.dotSymbolNo = 0 ∧ ∃ it' ∈ itemSet, it'.NextIs it.rule.leftPart)
  least : ∀ P : LrItem → Prop, (∀ it ∈ kernel, P it) →
    (∀ it, P it → ∀ R ∈ G.encodedRules, it.NextIs R.leftPart → P ⟨R, 0⟩) → ∀ it ∈ itemSet, P it
  closed : ∀ it ∈ itemSet, ∀ R ∈ G.encodedRules, it.NextIs R.leftPart → ⟨R, 0⟩ ∈ itemSet

theorem closeLoop_spec (hG : G.Numbered) {kernel : ItemSet} (hvalid : ∀ it ∈ kernel, it.Valid G)
    (hsorted : kernel.Pairwise (LrItem.lt · · = true)) {fuel : ℕ} (hfuel : G.symbolCount < fuel) :
    (runLoop (closeStep G) false fuel (kernel, [])).1 = true ∧
      IsClosure G kernel (runLoop (closeStep G) false fuel (kernel, [])).2.1 := by
  have hinit : CloseInv G kernel (kernel, []) :=
    ⟨fun _ h => h, hvalid, hsorted, fun _ h => Or.inl h, fun _ hP _ => hP,
      fun _ h => absurd h List.not_mem_nil⟩
  refine runLoop_post_of_measure (fun s => (unmarked G s).card) (CloseInv G kernel)
    (fun b s => b = true ∧ IsClosure G kernel s.1) ?_ _ (kernel, []) hinit ?_
  · intro s hs
    obtain ⟨hinv, hgrows, hmark⟩ := closePass_spec hG hs
    unfold closeStep
    split_ifs with hlen
    · exact ⟨hinv, card_unmarked_lt hgrows hlen⟩
    · have hsame : (closePass G s).1 = s.1 := hgrows.same (not_lt.mp hlen)
      refine ⟨rfl, hinv.kernel_sub, hinv.valid, hinv.sorted, hinv.origin, hinv.least, ?_⟩
      intro it hit R hR hnext
      rw [hsame] at hit
      have hm : G.isMeta it.getSymbolNo = true := by
        rw [hnext.2]
        exact hG.left_meta R hR
      exact hinv.added _ (hmark it hit hnext.1 hm) R hR hnext.2.symm
  · have hcard : (unmarked G (kernel, [])).card ≤ G.symbolCount := by
      refine (Finset.card_filter_le _ _).trans ?_
      rw [Finset.card_range]
    exact Nat.lt_of_le_of_lt hcard hfuel

theorem closeItemSet_isClosure (hG : G.Numbered) {kernel : ItemSet}
    (hvalid : ∀ it ∈ kernel, it.Valid G) (hsorted : kernel.Pairwise (LrItem.lt · · = true)) :
    IsClosure G kernel (closeItemSet G kernel) :=
  (closeLoop_spec hG hvalid hsorted (Nat.lt_succ_self _)).2

end TomitaParser
