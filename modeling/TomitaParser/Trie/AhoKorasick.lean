import TomitaParser.Grammar.RootPrefixes
import TomitaParser.Lib.Loop
/-! # The trie of root prefixes

`CTrieHolder`: the trie of a sorted set of patterns with its failure function, and the search for
the patterns in a text. The value `-1` of the source is `none`. -/

namespace TomitaParser
open OrderedSet LoopRun

/-- `CTrieNode` with its relations, ordered by their symbols. -/
structure TrieNode where
  failureFunction : Option ℕ := none
  parent : Option ℕ := none
  incomingSymbol : Option ℕ := none
  grammarRuleNo : Option ℕ := none
  depth : ℕ := 0
  children : List (ℕ × ℕ) := []
deriving DecidableEq, Repr, Inhabited

def TrieNode.setFailure (r : ℕ) (n : TrieNode) : TrieNode := { n with failureFunction := some r }

/-- `COccurrence`. -/
structure Occurrence (Item : Type*) where
  first : ℕ
  second : ℕ
  grammarRuleNo : ℕ
  ambiguous : Bool := false
  inputItem : Option Item := none
deriving DecidableEq, Repr

/-- `CTrieHolder`. -/
structure TrieHolder where
  alphabetSize : ℕ
  nodes : List TrieNode
deriving DecidableEq, Repr

namespace TrieHolder

def node (T : TrieHolder) (nodeNo : ℕ) : TrieNode := T.nodes.getD nodeNo default

def findChild (T : TrieHolder) (nodeNo symbol : ℕ) : Option ℕ :=
  (T.node nodeNo).children.lookup symbol

/-- The order of relations. -/
def relationLt (a b : ℕ × ℕ) : Bool := decide (a.1 < b.1)

/-- The node made for a child of `parent`; the depth is kept in eight bits. -/
def newNode (T : TrieHolder) (parent symbol : ℕ) : TrieNode where
  parent := some parent
  incomingSymbol := some symbol
  depth := ((T.node parent).depth + 1) % 256

/-- A new child of `parent`; the assertions on the symbol are checked. -/
def addChild (T : TrieHolder) (parent symbol : ℕ) : Option TrieHolder :=
  if symbol < T.alphabetSize ∧ T.findChild parent symbol = none then
    some { T with
      nodes := (T.nodes.modify parent fun n =>
          { n with children := insertBy relationLt (symbol, T.nodes.length) n.children }) ++
        [T.newNode parent symbol] }
  else none

/-- `CreateChildrenSequence`. -/
def createChildrenSequence : List ℕ → ℕ → ℕ → TrieHolder → Option TrieHolder
  | [], _, _, _ => none
  | [symbol], parent, workRuleNo, T =>
    (T.addChild parent symbol).map fun T' => { T' with
      nodes := T'.nodes.modify T.nodes.length fun n => { n with grammarRuleNo := some workRuleNo } }
  | symbol :: rest, parent, workRuleNo, T =>
    (T.addChild parent symbol).bind fun T' =>
      createChildrenSequence rest T.nodes.length workRuleNo T'

/-- Follow the symbols shared with the previous pattern: the node reached and the rest of the
current pattern. -/
def starter (T : TrieHolder) : List ℕ → List ℕ → ℕ → Option (ℕ × List ℕ)
  | b :: prev, a :: cur, start =>
    if a ≠ b then some (start, a :: cur)
    else (T.findChild start a).bind fun next => starter T prev cur next
  | _, cur, start => some (start, cur)

/-- One more pattern; a pattern equal to the previous one adds nothing. -/
def addPattern (T : TrieHolder) (prev cur : List ℕ) (ruleNo : ℕ) : Option TrieHolder :=
  if cur = [] then none
  else (T.starter prev cur 0).bind fun s =>
    if s.2 ≠ [] then createChildrenSequence s.2 s.1 ruleNo T
    else if cur.length = prev.length then some T
    else none

def addPatterns : List ℕ → ℕ → List WorkRule → TrieHolder → Option TrieHolder
  | _, _, [], T => some T
  | prev, ruleNo, P :: patterns, T =>
    (T.addPattern prev P.rightPart.items ruleNo).bind fun T' =>
      addPatterns P.rightPart.items (ruleNo + 1) patterns T'

/-- `CreateTrie`; it asserts that there are patterns. -/
def createTrie (alphabetSize : ℕ) : List WorkRule → Option TrieHolder
  | [] => none
  | P :: patterns =>
    (createChildrenSequence P.rightPart.items 0 0 ⟨alphabetSize, [{}]⟩).bind
      (addPatterns P.rightPart.items 1 patterns)

/-- Go up by the failure function, to the first node with a way down by the symbol. -/
def followFailures (T : TrieHolder) (symbol : ℕ) : ℕ → Option ℕ → Option ℕ
  | _, none => none
  | 0, some _ => none
  | fuel + 1, some r =>
    if T.findChild r symbol = none then followFailures T symbol fuel (T.node r).failureFunction
    else some r

/-- The failure function of one child, from that of its parent. -/
def setFailure (parentFailure : Option ℕ) (T : TrieHolder) (p : ℕ × ℕ) : TrieHolder :=
  let failure :=
    match T.followFailures p.1 T.nodes.length parentFailure with
    | some r => (T.findChild r p.1).getD 0
    | none => 0
  { T with nodes := T.nodes.modify p.2 (TrieNode.setFailure failure) }

/-- One node of the breadth-first search. -/
def failureStep (s : TrieHolder × List ℕ × ℕ) : LoopStep (TrieHolder × List ℕ × ℕ) Unit :=
  match s.2.1[s.2.2]? with
  | none => .exit () s
  | some nodeNo =>
    let parent := s.1.node nodeNo
    .next (parent.children.foldl (setFailure parent.failureFunction) s.1,
      s.2.1 ++ parent.children.map Prod.snd, s.2.2 + 1)

/-- `InitFailureFunction`. -/
def initFailureFunction (T : TrieHolder) : TrieHolder :=
  (runLoop failureStep () (T.nodes.length + 1) (T, [0], 0)).2.1

/-- `CTrieHolder::Create`. -/
def create (alphabetSize : ℕ) (patterns : List WorkRule) : Option TrieHolder :=
  (createTrie alphabetSize patterns).map initFailureFunction

/-- `GetTerminatedPeriodNext`. -/
def getTerminatedPeriodNext (T : TrieHolder) (nodeNo : ℕ) : Option ℕ :=
  if nodeNo = 0 then none
  else
    let symbol := (T.node nodeNo).incomingSymbol.getD 0
    let parentFailure := (T.node nodeNo).parent.bind fun v => (T.node v).failureFunction
    (T.followFailures symbol T.nodes.length parentFailure).bind fun r => T.findChild r symbol

/-- The patterns that end at the nodes from `r` on. -/
def terminated {Item : Type*} (T : TrieHolder) (textPositionNo : ℕ) :
    ℕ → Option ℕ → List (Occurrence Item)
  | _, none => []
  | 0, some _ => []
  | fuel + 1, some r =>
    (match (T.node r).grammarRuleNo with
      | some ruleNo =>
        [{ first := textPositionNo + 1 - (T.node r).depth, second := textPositionNo + 1
           grammarRuleNo := ruleNo }]
      | none => []) ++ terminated T textPositionNo fuel (T.getTerminatedPeriodNext r)

/-- `NextState`: the next state, and the occurrences that end with the symbol. -/
def nextState {Item : Type*} (T : TrieHolder) (state textPositionNo symbol : ℕ) :
    ℕ × List (Occurrence Item) :=
  let next :=
    match T.followFailures symbol T.nodes.length (some state) with
    | none => 0
    | some r => (T.findChild r symbol).getD 0
  (next, T.terminated textPositionNo T.nodes.length (some next))

variable {T T' : TrieHolder}

theorem mem_of_findChild {v a j : ℕ} (h : T.findChild v a = some j) :
    (a, j) ∈ (T.node v).children := by
  obtain ⟨l₁, l₂, heq, _⟩ := List.lookup_eq_some_iff.mp h
  rw [heq]
  exact List.mem_append_right l₁ List.mem_cons_self

theorem exists_findChild {v a j : ℕ} (h : (a, j) ∈ (T.node v).children) :
    ∃ k, T.findChild v a = some k := by
  by_contra hnone
  have hne := List.lookup_eq_none_iff.mp (Option.eq_none_iff_forall_ne_some.mpr fun k hk =>
    hnone ⟨k, hk⟩) _ h
  simp at hne

theorem mem_insertBy_relation {v a j : ℕ} (h : T.findChild v a = none) {p : ℕ × ℕ} :
    p ∈ insertBy relationLt (a, j) (T.node v).children ↔
      p = (a, j) ∨ p ∈ (T.node v).children := by
  refine mem_insertBy fun q hq he => ?_
  simp only [Equivalent, relationLt, decide_eq_false_iff_not] at he
  have hfst : a = q.1 := by omega
  obtain ⟨k, hk⟩ := exists_findChild (T := T) (v := v) (a := a) (j := q.2) (by rw [hfst]; exact hq)
  rw [h] at hk
  cases hk

theorem node_of_nodes {f g : TrieNode → TrieNode} {nodes : List TrieNode} {parent : ℕ}
    {new : TrieNode} (hparent : parent < T.nodes.length)
    (hnodes : nodes = (T.nodes.modify parent f ++ [new]).modify T.nodes.length g) (v : ℕ) :
    nodes.getD v default = if v = parent then f (T.node parent)
      else if v = T.nodes.length then g new else T.node v := by
  rw [hnodes]
  simp only [node, List.getD_eq_getElem?_getD, List.getElem?_modify, List.getElem?_append,
    List.length_modify]
  by_cases hv : v < T.nodes.length
  · by_cases hvp : parent = v
    · subst hvp
      simp [hv, Nat.ne_of_gt hv]
    · simp [hv, hvp, Nat.ne_of_gt hv, Ne.symm hvp, Nat.ne_of_lt hv]
  · by_cases hvn : T.nodes.length = v
    · subst hvn
      simp [Nat.ne_of_gt hparent]
    · obtain ⟨k, rfl⟩ : ∃ k, v = T.nodes.length + (k + 1) :=
        ⟨v - T.nodes.length - 1, by omega⟩
      have hne : T.nodes.length + (k + 1) ≠ parent := by omega
      simp [hne]

/-- The trie of patterns of length one, while it is built: the nodes other than the root are its
children, and each of them ends a pattern. -/
structure Shallow (T : TrieHolder) : Prop where
  nonempty : 0 < T.nodes.length
  child : ∀ p ∈ (T.node 0).children, 0 < p.2 ∧ p.2 < T.nodes.length
  root : ∀ j, 0 < j → j < T.nodes.length → ∃ a, (a, j) ∈ (T.node 0).children
  leaf : ∀ j, 0 < j → (T.node j).children = []
  ends : ∀ j, 0 < j → j < T.nodes.length →
    (T.node j).depth = 1 ∧ (T.node j).grammarRuleNo ≠ none
  top : (T.node 0).failureFunction = none ∧ (T.node 0).depth = 0

/-- Every pattern of the list is in the trie. -/
def HasPatterns (T : TrieHolder) (patterns : List WorkRule) : Prop :=
  ∀ P ∈ patterns, ∀ a, P.rightPart.items = [a] → ∃ j, (a, j) ∈ (T.node 0).children

theorem shallow_empty (alphabetSize : ℕ) : Shallow ⟨alphabetSize, [{}]⟩ := by
  refine ⟨Nat.one_pos, ?_, ?_, ?_, ?_, rfl, rfl⟩
  · intro p hp
    exact absurd hp List.not_mem_nil
  · intro j h₁ h₂
    simp only [List.length_singleton] at h₂
    omega
  · intro j hj
    obtain ⟨k, rfl⟩ := Nat.exists_eq_add_of_lt hj
    rfl
  · intro j h₁ h₂
    simp only [List.length_singleton] at h₂
    omega

/-- Entering a symbol below the root. -/
theorem Shallow.createChildrenSequence (hT : Shallow T) {a ruleNo : ℕ}
    (h : createChildrenSequence [a] 0 ruleNo T = some T') :
    Shallow T' ∧ ∀ p, p ∈ (T'.node 0).children ↔
      p = (a, T.nodes.length) ∨ p ∈ (T.node 0).children := by
  have hpos := hT.nonempty
  rw [TrieHolder.createChildrenSequence, addChild] at h
  by_cases hadd : a < T.alphabetSize ∧ T.findChild 0 a = none
  · have hnone := hadd.2
    rw [if_pos hadd] at h
    simp only [Option.map_some, Option.some.injEq] at h
    have hnodes : T'.nodes = (T.nodes.modify 0 (fun n => { n with
          children := insertBy relationLt (a, T.nodes.length) n.children }) ++
        [T.newNode 0 a]).modify T.nodes.length fun n =>
          { n with grammarRuleNo := some ruleNo } := by
      rw [← h]
    have hnode := fun v => node_of_nodes hpos hnodes v
    have hlen : T'.nodes.length = T.nodes.length + 1 := by
      rw [hnodes]
      simp
    have hchildren : ∀ p, p ∈ (T'.node 0).children ↔
        p = (a, T.nodes.length) ∨ p ∈ (T.node 0).children := by
      intro p
      rw [node, hnode, if_pos rfl]
      exact mem_insertBy_relation hnone
    refine ⟨⟨?_, ?_, ?_, ?_, ?_, ?_⟩, hchildren⟩
    · omega
    · intro p hp
      rcases (hchildren p).mp hp with rfl | hp
      · exact ⟨hpos, by omega⟩
      · have := hT.child p hp
        omega
    · intro j hj hlt
      rcases Nat.lt_or_ge j T.nodes.length with hlt' | hge
      · obtain ⟨b, hb⟩ := hT.root j hj hlt'
        exact ⟨b, (hchildren _).mpr (Or.inr hb)⟩
      · obtain rfl : j = T.nodes.length := by omega
        exact ⟨a, (hchildren _).mpr (Or.inl rfl)⟩
    · intro j hj
      rw [node, hnode, if_neg (by omega)]
      split_ifs
      · rfl
      · exact hT.leaf j hj
    · intro j hj hlt
      rw [node, hnode, if_neg (by omega)]
      split_ifs with hnew
      · refine ⟨?_, Option.some_ne_none _⟩
        show ((T.node 0).depth + 1) % 256 = 1
        rw [hT.top.2]
      · exact hT.ends j hj (by omega)
    · rw [node, hnode, if_pos rfl]
      exact hT.top
  · rw [if_neg hadd] at h
    cases h

theorem Shallow.addPattern (hT : Shallow T) {a b ruleNo : ℕ}
    (hb : ∃ j, (b, j) ∈ (T.node 0).children) (h : T.addPattern [b] [a] ruleNo = some T') :
    Shallow T' ∧ (∀ p ∈ (T.node 0).children, p ∈ (T'.node 0).children) ∧
      ∃ j, (a, j) ∈ (T'.node 0).children := by
  rw [TrieHolder.addPattern, if_neg (List.cons_ne_nil a []), starter] at h
  by_cases hab : a = b
  · -- the pattern is the previous one
    subst hab
    obtain ⟨j, hj⟩ := hb
    obtain ⟨k, hk⟩ := exists_findChild hj
    simp only [ne_eq, not_true_eq_false, if_false, hk, Option.bind_some, starter,
      List.length_singleton, if_true, Option.some.injEq] at h
    subst h
    exact ⟨hT, fun _ hp => hp, j, hj⟩
  · simp only [ne_eq, hab, not_false_eq_true, if_true, Option.bind_some, List.cons_ne_nil] at h
    obtain ⟨hT', hchildren⟩ := hT.createChildrenSequence h
    exact ⟨hT', fun p hp => (hchildren p).mpr (Or.inr hp), _, (hchildren _).mpr (Or.inl rfl)⟩

theorem Shallow.addPatterns {patterns : List WorkRule}
    (hone : ∀ P ∈ patterns, ∃ a, P.rightPart.items = [a]) {b ruleNo : ℕ} (hT : Shallow T)
    (hb : ∃ j, (b, j) ∈ (T.node 0).children)
    (h : TrieHolder.addPatterns [b] ruleNo patterns T = some T') :
    Shallow T' ∧ (∀ p ∈ (T.node 0).children, p ∈ (T'.node 0).children) ∧
      HasPatterns T' patterns := by
  induction patterns generalizing b ruleNo T with
  | nil =>
    simp only [TrieHolder.addPatterns, Option.some.injEq] at h
    subst h
    exact ⟨hT, fun _ hp => hp, fun P hP => absurd hP List.not_mem_nil⟩
  | cons P patterns ih =>
    obtain ⟨a, ha⟩ := hone P List.mem_cons_self
    rw [TrieHolder.addPatterns, ha] at h
    obtain ⟨T₁, h₁, h₂⟩ := Option.bind_eq_some_iff.mp h
    obtain ⟨hT₁, hsub₁, ha₁⟩ := hT.addPattern hb h₁
    obtain ⟨hT', hsub, hpatterns⟩ :=
      ih (fun Q hQ => hone Q (List.mem_cons_of_mem P hQ)) hT₁ ha₁ h₂
    refine ⟨hT', fun p hp => hsub p (hsub₁ p hp), ?_⟩
    intro Q hQ c hc
    rcases List.mem_cons.mp hQ with rfl | hQ
    · obtain ⟨j, hj⟩ := ha₁
      rw [ha] at hc
      cases hc
      exact ⟨j, hsub _ hj⟩
    · exact hpatterns Q hQ c hc

theorem createTrie_shallow {alphabetSize : ℕ} {patterns : List WorkRule}
    (hone : ∀ P ∈ patterns, ∃ a, P.rightPart.items = [a])
    (h : createTrie alphabetSize patterns = some T) : Shallow T ∧ HasPatterns T patterns := by
  cases patterns with
  | nil => cases h
  | cons P patterns =>
    obtain ⟨a, ha⟩ := hone P List.mem_cons_self
    rw [createTrie, ha] at h
    obtain ⟨T₁, h₁, h₂⟩ := Option.bind_eq_some_iff.mp h
    obtain ⟨hT₁, hchildren⟩ := (shallow_empty alphabetSize).createChildrenSequence h₁
    have ha₁ : ∃ j, (a, j) ∈ (T₁.node 0).children := ⟨_, (hchildren _).mpr (Or.inl rfl)⟩
    obtain ⟨hT, hsub, hpatterns⟩ :=
      hT₁.addPatterns (fun Q hQ => hone Q (List.mem_cons_of_mem P hQ)) ha₁ h₂
    refine ⟨hT, ?_⟩
    intro Q hQ c hc
    rcases List.mem_cons.mp hQ with rfl | hQ
    · obtain ⟨j, hj⟩ := ha₁
      rw [ha] at hc
      cases hc
      exact ⟨j, hsub _ hj⟩
    · exact hpatterns Q hQ c hc

theorem node_setFailure_none (T : TrieHolder) (p : ℕ × ℕ) (v : ℕ) :
    ((setFailure none T p).nodes.length = T.nodes.length) ∧
      (setFailure none T p).node v = if p.2 = v ∧ v < T.nodes.length then
        (T.node v).setFailure 0 else T.node v := by
  refine ⟨by simp [setFailure], ?_⟩
  simp only [setFailure, followFailures, node, List.getD_eq_getElem?_getD, List.getElem?_modify]
  by_cases hv : v < T.nodes.length
  · by_cases hp : p.2 = v
    · simp [hv, hp]
    · simp [hv, hp]
  · simp [hv]

theorem foldl_setFailure_none (relations : List (ℕ × ℕ)) (T : TrieHolder) :
    (relations.foldl (setFailure none) T).nodes.length = T.nodes.length ∧
      ∀ v, (relations.foldl (setFailure none) T).node v =
        if (∃ p ∈ relations, p.2 = v) ∧ v < T.nodes.length then
          (T.node v).setFailure 0 else T.node v := by
  induction relations generalizing T with
  | nil => simp
  | cons p relations ih =>
    have hstep := node_setFailure_none T p
    obtain ⟨hlen, hnode⟩ := ih (setFailure none T p)
    refine ⟨hlen.trans (hstep 0).1, fun v => ?_⟩
    rw [List.foldl_cons, hnode, (hstep v).1, (hstep v).2]
    by_cases hv : v < T.nodes.length
    · by_cases hp : p.2 = v
      · simp only [hv, hp, and_true, List.mem_cons, exists_eq_or_imp, true_or, if_true]
        split_ifs <;> rfl
      · simp only [hv, hp, and_true, List.mem_cons, exists_eq_or_imp, false_or, if_false]
    · simp [hv]

/-- The search through a shallow trie only visits leaves after the root. -/
theorem Shallow.initFailureFunction (hT : Shallow T) :
    T.initFailureFunction = (T.node 0).children.foldl (setFailure none) T := by
  obtain ⟨S, hS⟩ : ∃ S, S = (T.node 0).children.foldl (setFailure none) T := ⟨_, rfl⟩
  have hnode : ∀ v, S.node v = if (∃ p ∈ (T.node 0).children, p.2 = v) ∧ v < T.nodes.length then
      (T.node v).setFailure 0 else T.node v := by
    rw [hS]
    exact (foldl_setFailure_none _ T).2
  have hleaf : ∀ v, 0 < v → (S.node v).children = [] := by
    intro v hv
    rw [hnode]
    split_ifs
    · exact hT.leaf v hv
    · exact hT.leaf v hv
  have hfirst : failureStep (T, [0], 0) =
      .next (S, [0] ++ (T.node 0).children.map Prod.snd, 0 + 1) := by
    simp only [failureStep, List.getElem?_cons_zero, hT.top.1, hS]
  rw [← hS, TrieHolder.initFailureFunction, runLoop_next hfirst]
  refine (runLoop_post (fun s : TrieHolder × List ℕ × ℕ => s.1 = S ∧ 0 < s.2.2 ∧
    ∀ k v, 0 < k → s.2.1[k]? = some v → 0 < v) (fun _ s => s.1 = S) ?_ (fun s hs => hs.1) _ _ ?_)
  · rintro ⟨T₁, bfs, i⟩ ⟨hT₁, hi, hbfs⟩
    have hT₁' : T₁ = S := hT₁
    have hi' : 0 < i := hi
    simp only [failureStep]
    cases hget : bfs[i]? with
    | none => exact hT₁
    | some v =>
      dsimp only
      rw [hT₁', hleaf v (hbfs i v hi' hget)]
      refine ⟨rfl, Nat.succ_pos i, ?_⟩
      simpa using hbfs
  · refine ⟨rfl, Nat.one_pos, ?_⟩
    intro k v hk hget
    obtain ⟨k, rfl⟩ := Nat.exists_eq_succ_of_ne_zero (Nat.ne_of_gt hk)
    simp only [List.singleton_append, Nat.succ_eq_add_one, List.getElem?_cons_succ,
      List.getElem?_map, Option.map_eq_some_iff] at hget
    obtain ⟨p, hp, rfl⟩ := hget
    exact (hT.child p (List.mem_of_getElem? hp)).1

/-- The finished trie of patterns of length one: every failure leads to the root. -/
structure OneLevel (T : TrieHolder) : Prop where
  nonempty : 0 < T.nodes.length
  child : ∀ p ∈ (T.node 0).children, 0 < p.2 ∧ p.2 < T.nodes.length
  leaf : ∀ j, 0 < j → (T.node j).children = []
  ends : ∀ j, 0 < j → j < T.nodes.length →
    (T.node j).depth = 1 ∧ (T.node j).grammarRuleNo ≠ none
  failure : ∀ j, 0 < j → j < T.nodes.length → (T.node j).failureFunction = some 0

theorem create_oneLevel {alphabetSize : ℕ} {patterns : List WorkRule}
    (hone : ∀ P ∈ patterns, ∃ a, P.rightPart.items = [a])
    (h : create alphabetSize patterns = some T) : OneLevel T ∧ HasPatterns T patterns := by
  obtain ⟨T₀, h₀, rfl⟩ := Option.map_eq_some_iff.mp h
  obtain ⟨hT, hpatterns⟩ := createTrie_shallow hone h₀
  obtain ⟨hlen, hnode⟩ := foldl_setFailure_none (T₀.node 0).children T₀
  have hzero : ¬∃ p ∈ (T₀.node 0).children, p.2 = 0 := by
    rintro ⟨p, hp, heq⟩
    have := hT.child p hp
    omega
  have hchildren : (T₀.initFailureFunction.node 0).children = (T₀.node 0).children := by
    rw [hT.initFailureFunction, hnode, if_neg fun h => hzero h.1]
  rw [← hT.initFailureFunction] at hlen hnode
  refine ⟨⟨?_, ?_, ?_, ?_, ?_⟩, ?_⟩
  · rw [hlen]
    exact hT.nonempty
  · rw [hchildren, hlen]
    exact hT.child
  · intro j hj
    rw [hnode]
    split_ifs
    · exact hT.leaf j hj
    · exact hT.leaf j hj
  · intro j hj hlt
    rw [hlen] at hlt
    rw [hnode]
    split_ifs
    · exact hT.ends j hj hlt
    · exact hT.ends j hj hlt
  · intro j hj hlt
    rw [hlen] at hlt
    obtain ⟨a, ha⟩ := hT.root j hj hlt
    rw [hnode, if_pos ⟨⟨_, ha, rfl⟩, hlt⟩]
    rfl
  · intro P hP a ha
    rw [hchildren]
    exact hpatterns P hP a ha

theorem OneLevel.followFailures (hT : OneLevel T) {state a j : ℕ} (hs : state < T.nodes.length)
    (ha : (a, j) ∈ (T.node 0).children) :
    T.followFailures a T.nodes.length (some state) = some 0 := by
  obtain ⟨k, hk⟩ := exists_findChild ha
  have htwo := (hT.child _ ha).2
  have hpos := (hT.child _ ha).1
  obtain ⟨n, hn⟩ : ∃ n, T.nodes.length = n + 2 := ⟨T.nodes.length - 2, by dsimp only at *; omega⟩
  rw [hn, TrieHolder.followFailures]
  rcases Nat.eq_zero_or_pos state with rfl | hs0
  · rw [hk, if_neg (Option.some_ne_none k)]
  · have hnone : T.findChild state a = none := by
      rw [findChild, hT.leaf state hs0]
      rfl
    rw [if_pos hnone, hT.failure state hs0 hs, TrieHolder.followFailures, hk,
      if_neg (Option.some_ne_none k)]

theorem OneLevel.findChild_lt (hT : OneLevel T) {v a j : ℕ} (h : T.findChild v a = some j) :
    j < T.nodes.length := by
  have hmem := mem_of_findChild h
  rcases Nat.eq_zero_or_pos v with rfl | hv
  · exact (hT.child _ hmem).2
  · rw [hT.leaf v hv] at hmem
    exact absurd hmem List.not_mem_nil

theorem OneLevel.nextState_lt {Item : Type*} (hT : OneLevel T) (state pos a : ℕ) :
    (T.nextState state pos a : ℕ × List (Occurrence Item)).1 < T.nodes.length := by
  simp only [nextState]
  cases T.followFailures a T.nodes.length (some state) with
  | none => exact hT.nonempty
  | some r =>
    dsimp only
    cases hr : T.findChild r a with
    | none => exact hT.nonempty
    | some j => exact hT.findChild_lt hr

theorem OneLevel.mem_nextState {Item : Type*} (hT : OneLevel T) {state pos a j : ℕ}
    (hs : state < T.nodes.length) (ha : (a, j) ∈ (T.node 0).children) :
    ∃ o ∈ (T.nextState state pos a : ℕ × List (Occurrence Item)).2, o.first = pos := by
  obtain ⟨k, hk⟩ := exists_findChild ha
  have hchild := hT.child _ (mem_of_findChild hk)
  obtain ⟨n, hn⟩ : ∃ n, T.nodes.length = n + 1 := ⟨T.nodes.length - 1, by omega⟩
  obtain ⟨hdepth, hends⟩ := hT.ends k hchild.1 hchild.2
  obtain ⟨ruleNo, hrule⟩ := Option.ne_none_iff_exists'.mp hends
  have hnext : (T.nextState state pos a : ℕ × List (Occurrence Item)).2 =
      T.terminated pos (n + 1) (some k) := by
    rw [nextState, hT.followFailures hs ha, ← hn]
    dsimp only
    rw [hk, Option.getD_some]
  refine ⟨{ first := pos + 1 - 1, second := pos + 1, grammarRuleNo := ruleNo }, ?_, rfl⟩
  rw [hnext, terminated, hrule, hdepth]
  exact List.mem_append_left _ List.mem_cons_self

end TrieHolder
end TomitaParser
