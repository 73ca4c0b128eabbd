import Mathlib.Data.List.GetD
import Mathlib.Data.List.Lex
import Mathlib.Order.Lattice
import TomitaParser.Lib.Derivation
import TomitaParser.Lib.OrderedSet
/-! # Work grammars

The encoded grammar the parsers work on: a table of grammar items, whose positions are the symbol
numbers, and a set of encoded rules over symbol numbers. -/

namespace TomitaParser
open OrderedSet Cfg

/-- `SimpleItemEnum`. -/
inductive SimpleItem where
  | siUnknown | siString | siMeta | siRomanNumber | siFileList | siMorphologicalyUnknown
  | siMorphPattern | siNumber | siAnyWord
deriving DecidableEq, Repr

/-- `CGrammarItem`; a fresh item is marked as a grammar root. -/
structure GrammarItem where
  type : SimpleItem := .siUnknown
  itemStrId : String := ""
  grammarRoot : Bool := true
deriving DecidableEq, Repr

/-- `CWorkRightRulePart`. -/
structure WorkRightRulePart where
  items : List ℕ
  synMainItemNo : ℕ
deriving DecidableEq, Repr

def WorkRightRulePart.lt (a b : WorkRightRulePart) : Bool :=
  if a.items ≠ b.items then decide (a.items < b.items)
  else decide (a.synMainItemNo < b.synMainItemNo)

/-- `CWorkRule`. -/
structure WorkRule where
  originalRuleNo : ℕ
  leftPart : ℕ
  rightPart : WorkRightRulePart
deriving DecidableEq, Repr

/-- Right parts come first in the order; the rule number plays no part in it. -/
def WorkRule.lt (a b : WorkRule) : Bool :=
  if a.rightPart ≠ b.rightPart then a.rightPart.lt b.rightPart
  else decide (a.leftPart < b.leftPart)

theorem WorkRightRulePart.eq_of_equiv {a b : WorkRightRulePart} (h : Equivalent lt a b) :
    a = b := by
  obtain ⟨h₁, h₂⟩ := h
  have hitems : a.items = b.items := by
    by_contra hne
    simp only [lt, ne_eq, hne, Ne.symm hne, not_false_eq_true, if_true,
      decide_eq_false_iff_not] at h₁ h₂
    rcases lt_trichotomy a.items b.items with h | h | h
    · exact h₁ h
    · exact hne h
    · exact h₂ h
  simp only [lt, hitems, ne_eq, not_true_eq_false, if_false, decide_eq_false_iff_not] at h₁ h₂
  have hmain : a.synMainItemNo = b.synMainItemNo := by omega
  cases a
  cases b
  simp_all

theorem WorkRule.sides_eq_of_equiv {a b : WorkRule} (h : Equivalent lt a b) :
    a.leftPart = b.leftPart ∧ a.rightPart = b.rightPart := by
  obtain ⟨h₁, h₂⟩ := h
  have hright : a.rightPart = b.rightPart := by
    by_contra hne
    simp only [lt, ne_eq, hne, Ne.symm hne, not_false_eq_true, if_true] at h₁ h₂
    exact hne (WorkRightRulePart.eq_of_equiv ⟨h₁, h₂⟩)
  simp only [lt, hright, ne_eq, not_true_eq_false, if_false, decide_eq_false_iff_not] at h₁ h₂
  exact ⟨by omega, hright⟩

/-- `CWorkGrammar`: the slots that grammar building and parsing read. -/
structure WorkGrammar where
  uniqueGrammarItems : List GrammarItem
  encodedRules : List WorkRule
deriving DecidableEq, Repr

namespace WorkGrammar

def symbolCount (G : WorkGrammar) : ℕ := G.uniqueGrammarItems.length

def item (G : WorkGrammar) (symbol : ℕ) : GrammarItem := G.uniqueGrammarItems.getD symbol {}

def isMeta (G : WorkGrammar) (symbol : ℕ) : Bool := (G.item symbol).type == .siMeta

def getNewRoot (G : WorkGrammar) : ℕ := G.symbolCount - 1

def getEndOfStreamSymbol (G : WorkGrammar) : ℕ := G.symbolCount - 2

/-- The productions, without their numbers and main words. -/
def Production (G : WorkGrammar) (A : ℕ) (rhs : List ℕ) : Prop :=
  ∃ R ∈ G.encodedRules, R.leftPart = A ∧ R.rightPart.items = rhs

/-- The productions of the symbols other than the new root. -/
def InnerProduction (G : WorkGrammar) (A : ℕ) (rhs : List ℕ) : Prop :=
  ∃ R ∈ G.encodedRules, R.leftPart ≠ G.getNewRoot ∧ R.leftPart = A ∧
    R.rightPart.items = rhs

/-- What grammar encoding guarantees of the symbols of the rules. -/
structure Encoded (G : WorkGrammar) : Prop where
  left_lt : ∀ R ∈ G.encodedRules, R.leftPart < G.symbolCount
  left_meta : ∀ R ∈ G.encodedRules, G.isMeta R.leftPart = true
  right_lt : ∀ R ∈ G.encodedRules, ∀ s ∈ R.rightPart.items, s < G.symbolCount

/-- An encoded grammar whose rules have distinct numbers. -/
structure Numbered (G : WorkGrammar) : Prop extends Encoded G where
  ruleNo_inj : ∀ R ∈ G.encodedRules, ∀ R' ∈ G.encodedRules,
    R.originalRuleNo = R'.originalRuleNo → R = R'

/-- A work grammar with non-empty right parts. -/
structure WellFormed (G : WorkGrammar) : Prop extends Numbered G where
  right_ne : ∀ R ∈ G.encodedRules, R.rightPart.items ≠ []

def newRootName : String := "$NewRoot"
def endOfInput : String := "$"

def getCountOfRoots (G : WorkGrammar) : ℕ := G.uniqueGrammarItems.countP (·.grammarRoot)

/-- The first symbol marked as a root. -/
def rootIndex (G : WorkGrammar) : ℕ := G.uniqueGrammarItems.findIdx (·.grammarRoot)

def newRootRule (G : WorkGrammar) (ruleNo : ℕ) : WorkRule where
  originalRuleNo := ruleNo
  leftPart := G.symbolCount + 1
  rightPart := ⟨[G.rootIndex, G.symbolCount], 0⟩

/-- The new root and the end of input added to the items, and the rule that uses them. -/
def augmented (G : WorkGrammar) (ruleNo : ℕ) : WorkGrammar where
  uniqueGrammarItems := G.uniqueGrammarItems ++
    [{ itemStrId := endOfInput, type := .siString }, { itemStrId := newRootName, type := .siMeta }]
  encodedRules := insertBy WorkRule.lt (G.newRootRule ruleNo) G.encodedRules

def reservedName (I : GrammarItem) : Bool :=
  I.itemStrId == newRootName || I.itemStrId == endOfInput

/-- `none` is the result `false`; the new rule is numbered by the agreements before it. -/
def augmentGrammar {Agr : Type*} (G : WorkGrammar) (agreements : List (List Agr)) :
    Except String (Option (WorkGrammar × List (List Agr))) :=
  if G.getCountOfRoots ≠ 1 then
    .error "A simple grammar should have only one root."
  else if G.uniqueGrammarItems.any reservedName then
    .ok none
  else
    .ok (some (G.augmented agreements.length, agreements ++ [[]]))

/-- A well-formed grammar with the new root in place. -/
structure Augmented (G : WorkGrammar) (root : ℕ) : Prop extends WellFormed G where
  two_le : 2 ≤ G.symbolCount
  root_lt : root < G.getEndOfStreamSymbol
  newRoot_rule : ∃ R ∈ G.encodedRules, R.leftPart = G.getNewRoot
  newRoot_right : ∀ R ∈ G.encodedRules, R.leftPart = G.getNewRoot →
    R.rightPart.items = [root, G.getEndOfStreamSymbol]
  other_right : ∀ R ∈ G.encodedRules, R.leftPart ≠ G.getNewRoot →
    ∀ s ∈ R.rightPart.items, s < G.getEndOfStreamSymbol
  newRoot_meta : G.isMeta G.getNewRoot = true
  endOfStream_terminal : G.isMeta G.getEndOfStreamSymbol = false

section Augmenting
variable (G : WorkGrammar) (ruleNo : ℕ)

theorem rootIndex_lt (hroot : G.getCountOfRoots = 1) : G.rootIndex < G.symbolCount := by
  have h : 0 < G.uniqueGrammarItems.countP (·.grammarRoot) := by
    rw [getCountOfRoots] at hroot
    omega
  obtain ⟨I, hI, hmark⟩ := List.countP_pos_iff.mp h
  exact List.findIdx_lt_length_of_exists ⟨I, hI, hmark⟩

@[simp] theorem augmented_symbolCount : (G.augmented ruleNo).symbolCount = G.symbolCount + 2 := by
  simp [augmented, symbolCount]

@[simp] theorem augmented_getEndOfStreamSymbol :
    (G.augmented ruleNo).getEndOfStreamSymbol = G.symbolCount := by
  simp [getEndOfStreamSymbol]

@[simp] theorem augmented_getNewRoot : (G.augmented ruleNo).getNewRoot = G.symbolCount + 1 := by
  simp [getNewRoot]

theorem augmented_item {s : ℕ} (h : s < G.symbolCount) :
    (G.augmented ruleNo).item s = G.item s := by
  simp only [augmented, item]
  exact List.getD_append _ _ _ _ h

theorem augmented_isMeta {s : ℕ} (h : s < G.symbolCount) :
    (G.augmented ruleNo).isMeta s = G.isMeta s := by
  rw [isMeta, G.augmented_item ruleNo h, isMeta]

theorem augmented_isMeta_newRoot : (G.augmented ruleNo).isMeta (G.symbolCount + 1) = true := by
  simp [isMeta, item, augmented, symbolCount]

theorem augmented_isMeta_endOfStream : (G.augmented ruleNo).isMeta G.symbolCount = false := by
  simp [isMeta, item, augmented, symbolCount]

variable {G ruleNo}

theorem mem_augmented_rules (hG : G.Encoded) {R : WorkRule} :
    R ∈ (G.augmented ruleNo).encodedRules ↔ R = G.newRootRule ruleNo ∨ R ∈ G.encodedRules := by
  apply mem_insertBy
  intro R' hR' he
  have hleft := (WorkRule.sides_eq_of_equiv he).1
  have := hG.left_lt R' hR'
  simp only [newRootRule] at hleft
  omega

theorem Encoded.augmented (hG : G.Encoded) (hroot : G.getCountOfRoots = 1) :
    (G.augmented ruleNo).Encoded := by
  have hlt := G.rootIndex_lt hroot
  constructor
  · intro R hR
    rw [augmented_symbolCount]
    rcases (mem_augmented_rules hG).mp hR with rfl | hR
    · simp only [newRootRule]
      omega
    · have := hG.left_lt R hR
      omega
  · intro R hR
    rcases (mem_augmented_rules hG).mp hR with rfl | hR
    · exact G.augmented_isMeta_newRoot ruleNo
    · rw [G.augmented_isMeta ruleNo (hG.left_lt R hR)]
      exact hG.left_meta R hR
  · intro R hR s hs
    rw [augmented_symbolCount]
    rcases (mem_augmented_rules hG).mp hR with rfl | hR
    · simp only [newRootRule, List.mem_cons, List.not_mem_nil, or_false] at hs
      omega
    · have := hG.right_lt R hR s hs
      omega

theorem Numbered.augmented (hG : G.Numbered) (hroot : G.getCountOfRoots = 1)
    (hno : ∀ R ∈ G.encodedRules, R.originalRuleNo ≠ ruleNo) : (G.augmented ruleNo).Numbered := by
  refine ⟨hG.toEncoded.augmented hroot, ?_⟩
  intro R hR R' hR' h
  rcases (mem_augmented_rules hG.toEncoded).mp hR with rfl | hR <;>
    rcases (mem_augmented_rules hG.toEncoded).mp hR' with rfl | hR'
  · rfl
  · exact absurd h.symm (hno R' hR')
  · exact absurd h (hno R hR)
  · exact hG.ruleNo_inj R hR R' hR' h

end Augmenting

end WorkGrammar

/-- A work grammar together with what encoding and the checks of `AugmentGrammar` establish. -/
structure EncodedGrammar extends WorkGrammar where
  agreementCount : ℕ
  wellFormed : toWorkGrammar.WellFormed
  ruleNo_lt : ∀ R ∈ encodedRules, R.originalRuleNo < agreementCount
  oneRoot : toWorkGrammar.getCountOfRoots = 1
  noReserved : uniqueGrammarItems.any WorkGrammar.reservedName = false

namespace EncodedGrammar
variable (G : EncodedGrammar)

/-- The grammar the parsing table is built from. -/
def augmentedGrammar : WorkGrammar := G.toWorkGrammar.augmented G.agreementCount

theorem augmentGrammar_eq {Agr : Type*} (agreements : List (List Agr))
    (h : agreements.length = G.agreementCount) :
    G.toWorkGrammar.augmentGrammar agreements =
      .ok (some (G.augmentedGrammar, agreements ++ [[]])) := by
  simp [WorkGrammar.augmentGrammar, G.oneRoot, G.noReserved, augmentedGrammar, h]

theorem rootIndex_lt : G.rootIndex < G.symbolCount := G.toWorkGrammar.rootIndex_lt G.oneRoot

theorem item_rootIndex : (G.item G.rootIndex).grammarRoot = true := by
  rw [WorkGrammar.item, List.getD_eq_getElem _ _ G.rootIndex_lt]
  exact List.findIdx_getElem

theorem eq_rootIndex {s : ℕ} (hs : s < G.symbolCount) (h : (G.item s).grammarRoot = true) :
    s = G.rootIndex := by
  rw [WorkGrammar.item, List.getD_eq_getElem _ _ hs] at h
  have hle : G.rootIndex ≤ s := by
    by_contra hlt
    have hfalse := List.not_of_lt_findIdx (not_le.mp hlt)
    exact Bool.false_ne_true (hfalse.symm.trans h)
  by_contra hne
  -- the roots up to the first one and the roots after it
  have hsplit := G.oneRoot
  rw [WorkGrammar.getCountOfRoots, ← List.take_append_drop s G.uniqueGrammarItems,
    List.countP_append] at hsplit
  have hfirst : 0 < (G.uniqueGrammarItems.take s).countP (·.grammarRoot) := by
    refine List.countP_pos_iff.mpr ⟨G.item G.rootIndex, ?_, G.item_rootIndex⟩
    rw [WorkGrammar.item, List.getD_eq_getElem _ _ G.rootIndex_lt]
    exact List.mem_take_iff_getElem.mpr ⟨G.rootIndex, by
      have := G.rootIndex_lt
      rw [WorkGrammar.symbolCount] at this
      omega, rfl⟩
  have hlast : 0 < (G.uniqueGrammarItems.drop s).countP (·.grammarRoot) := by
    refine List.countP_pos_iff.mpr ⟨_, ?_, h⟩
    rw [List.drop_eq_getElem_cons hs]
    exact List.mem_cons_self
  omega

@[simp] theorem augmentedGrammar_symbolCount :
    G.augmentedGrammar.symbolCount = G.symbolCount + 2 := WorkGrammar.augmented_symbolCount _ _

@[simp] theorem augmentedGrammar_getEndOfStreamSymbol :
    G.augmentedGrammar.getEndOfStreamSymbol = G.symbolCount :=
  WorkGrammar.augmented_getEndOfStreamSymbol _ _

@[simp] theorem augmentedGrammar_getNewRoot :
    G.augmentedGrammar.getNewRoot = G.symbolCount + 1 := WorkGrammar.augmented_getNewRoot _ _

theorem augmentedGrammar_item {s : ℕ} (h : s < G.symbolCount) :
    G.augmentedGrammar.item s = G.item s := G.toWorkGrammar.augmented_item _ h

theorem augmentedGrammar_isMeta {s : ℕ} (h : s < G.symbolCount) :
    G.augmentedGrammar.isMeta s = G.isMeta s := G.toWorkGrammar.augmented_isMeta _ h

theorem mem_augmentedGrammar_rules {R : WorkRule} :
    R ∈ G.augmentedGrammar.encodedRules ↔
      R = G.newRootRule G.agreementCount ∨ R ∈ G.encodedRules :=
  WorkGrammar.mem_augmented_rules G.wellFormed.toEncoded

theorem augmentedGrammar_wellFormed : G.augmentedGrammar.WellFormed := by
  constructor
  · apply G.wellFormed.toNumbered.augmented G.oneRoot
    intro R hR
    exact (G.ruleNo_lt R hR).ne
  · intro R hR
    rcases G.mem_augmentedGrammar_rules.mp hR with rfl | hR
    · simp [WorkGrammar.newRootRule]
    · exact G.wellFormed.right_ne R hR

theorem augmentedGrammar_augmented : G.augmentedGrammar.Augmented G.rootIndex := by
  have hroot := G.rootIndex_lt
  have hne {R : WorkRule} (hR : R ∈ G.encodedRules) : R.leftPart ≠ G.symbolCount + 1 := by
    have := G.wellFormed.left_lt R hR
    omega
  refine ⟨G.augmentedGrammar_wellFormed, ?_, ?_, ?_, ?_, ?_, ?_, ?_⟩
  · rw [augmentedGrammar_symbolCount]
    omega
  · rwa [augmentedGrammar_getEndOfStreamSymbol]
  · refine ⟨_, G.mem_augmentedGrammar_rules.mpr (Or.inl rfl), ?_⟩
    simp [WorkGrammar.newRootRule]
  · intro R hR hleft
    rw [augmentedGrammar_getNewRoot] at hleft
    rw [augmentedGrammar_getEndOfStreamSymbol]
    rcases G.mem_augmentedGrammar_rules.mp hR with rfl | hR
    · rfl
    · exact absurd hleft (hne hR)
  · intro R hR hleft s hs
    rw [augmentedGrammar_getNewRoot] at hleft
    rw [augmentedGrammar_getEndOfStreamSymbol]
    rcases G.mem_augmentedGrammar_rules.mp hR with rfl | hR
    · exact absurd rfl hleft
    · exact G.wellFormed.right_lt R hR s hs
  · simp [WorkGrammar.isMeta, WorkGrammar.item, augmentedGrammar, WorkGrammar.augmented,
      WorkGrammar.symbolCount, WorkGrammar.getNewRoot]
  · simp [WorkGrammar.isMeta, WorkGrammar.item, augmentedGrammar, WorkGrammar.augmented,
      WorkGrammar.symbolCount, WorkGrammar.getEndOfStreamSymbol]

theorem augmentedGrammar_innerProduction {A : ℕ} {rhs : List ℕ} :
    G.augmentedGrammar.InnerProduction A rhs ↔ G.Production A rhs := by
  have hcount := G.augmentedGrammar_getNewRoot
  constructor
  · rintro ⟨R, hR, hne, h⟩
    rcases G.mem_augmentedGrammar_rules.mp hR with rfl | hR
    · rw [hcount] at hne
      exact absurd rfl hne
    · exact ⟨R, hR, h⟩
  · rintro ⟨R, hR, h⟩
    refine ⟨R, G.mem_augmentedGrammar_rules.mpr (Or.inr hR), ?_, h⟩
    have := G.wellFormed.left_lt R hR
    rw [hcount]
    omega

end EncodedGrammar
end TomitaParser
