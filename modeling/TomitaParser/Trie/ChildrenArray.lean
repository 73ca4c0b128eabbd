import TomitaParser.Trie.Spelling
/-! # The array of children

`ConvertAuxChildrenToNormal`: the rows of the auxiliary children, one entry for each symbol of the
alphabet, are packed into one array, where each node has the range from its index to that of the
next node. -/

namespace TomitaParser.TrieHolder

/-- `m_Children`, and the `m_ChildrenIndex` of each node. -/
structure ChildrenArray where
  children : List (ℕ × ℕ) := []
  childrenIndex : List ℕ := []
deriving DecidableEq, Repr

/-- The relations of one row of the auxiliary children. -/
def auxRelations (T : TrieHolder) (nodeNo : ℕ) : List (ℕ × ℕ) :=
  (List.range T.alphabetSize).filterMap fun i => (T.findChild nodeNo i).map fun j => (i, j)

def convertRow (T : TrieHolder) (A : ChildrenArray) (nodeNo : ℕ) : ChildrenArray where
  children := A.children ++ T.auxRelations nodeNo
  childrenIndex := A.childrenIndex ++ [A.children.length]

/-- `ConvertAuxChildrenToNormal`. -/
def convertAuxChildrenToNormal (T : TrieHolder) : ChildrenArray :=
  (List.range T.nodes.length).foldl T.convertRow {}

/-- `GetChildrenCount`. -/
def getChildrenCount (A : ChildrenArray) (nodeNo : ℕ) : ℕ :=
  if nodeNo + 1 = A.childrenIndex.length then
    A.children.length - A.childrenIndex.getD nodeNo 0
  else A.childrenIndex.getD (nodeNo + 1) 0 - A.childrenIndex.getD nodeNo 0

/-- `GetChildren`, with as many relations as `GetChildrenCount` has. -/
def getChildren (A : ChildrenArray) (nodeNo : ℕ) : List (ℕ × ℕ) :=
  (A.children.drop (A.childrenIndex.getD nodeNo 0)).take (getChildrenCount A nodeNo)

variable {T : TrieHolder} {L : List (List ℕ)}

theorem eq_of_mem_iff {l l' : List (ℕ × ℕ)} (hl : l.Pairwise (relationLt · · = true))
    (hl' : l'.Pairwise (relationLt · · = true)) (h : ∀ p, p ∈ l ↔ p ∈ l') : l = l' := by
  have hnodup : ∀ {k : List (ℕ × ℕ)}, k.Pairwise (relationLt · · = true) → k.Nodup := by
    intro k hk
    apply hk.imp
    rintro p q hlt rfl
    simp [relationLt] at hlt
  have hperm : l.Perm l' := (List.perm_ext_iff_of_nodup (hnodup hl) (hnodup hl')).mpr h
  apply hperm.eq_of_pairwise _ hl hl'
  intro p q _ _ hpq hqp
  simp only [relationLt, decide_eq_true_eq] at hpq hqp
  omega

theorem Spells.auxRelations (hT : Spells T L) (v : ℕ) :
    T.auxRelations v = (T.node v).children := by
  apply eq_of_mem_iff _ (hT.sorted v)
  · rintro ⟨a, j⟩
    simp only [TrieHolder.auxRelations, List.mem_filterMap, List.mem_range, Option.map_eq_some_iff,
      Prod.mk.injEq]
    constructor
    · rintro ⟨i, _, k, hk, rfl, rfl⟩
      exact mem_of_findChild hk
    · intro h
      obtain ⟨k, hk⟩ := exists_findChild h
      refine ⟨a, hT.symbol_lt v _ h, k, hk, rfl, ?_⟩
      obtain ⟨_, hklt, hklabel⟩ := hT.child_lt (mem_of_findChild hk)
      obtain ⟨_, hjlt, hjlabel⟩ := hT.child_lt h
      exact hT.label_inj hklt hjlt (hklabel.trans hjlabel.symm)
  · apply List.Pairwise.filterMap _ _ List.pairwise_lt_range
    intro i i' hlt p hp q hq
    simp only [Option.map_eq_some_iff] at hp hq
    obtain ⟨_, _, rfl⟩ := hp
    obtain ⟨_, _, rfl⟩ := hq
    simpa [relationLt] using hlt

theorem foldl_convertRow (T : TrieHolder) (n : ℕ) :
    (List.range n).foldl T.convertRow {} =
      ⟨(List.range n).flatMap T.auxRelations,
        (List.range n).map fun v => ((List.range v).flatMap T.auxRelations).length⟩ := by
  induction n with
  | zero => rfl
  | succ n ih =>
    rw [List.range_succ, List.foldl_append, ih]
    simp only [List.foldl_cons, List.foldl_nil, convertRow, List.flatMap_append,
      List.flatMap_singleton, List.map_append, List.map_cons, List.map_nil]

/-- The range of a node in the array holds its children. -/
theorem Spells.getChildren (hT : Spells T L) {v : ℕ} (hv : v < T.nodes.length) :
    getChildren T.convertAuxChildrenToNormal v = (T.node v).children := by
  rw [convertAuxChildrenToNormal, foldl_convertRow]
  have hindex : ∀ u, u < T.nodes.length → ((List.range T.nodes.length).map fun v =>
      ((List.range v).flatMap T.auxRelations).length).getD u 0 =
        ((List.range u).flatMap T.auxRelations).length := by
    intro u hu
    rw [List.getD_eq_getElem _ _ (by simpa using hu)]
    simp
  have hsucc : ((List.range (v + 1)).flatMap T.auxRelations).length =
      ((List.range v).flatMap T.auxRelations).length + (T.auxRelations v).length := by
    rw [List.range_succ, List.flatMap_append, List.flatMap_singleton, List.length_append]
  have hcount : getChildrenCount ⟨(List.range T.nodes.length).flatMap T.auxRelations,
      (List.range T.nodes.length).map fun v =>
        ((List.range v).flatMap T.auxRelations).length⟩ v = (T.auxRelations v).length := by
    simp only [getChildrenCount, hindex v hv, List.length_map, List.length_range]
    split_ifs with hlast
    · rw [← hlast]
      omega
    · rw [hindex (v + 1) (by omega)]
      omega
  have hsplit : (List.range T.nodes.length).flatMap T.auxRelations =
      (List.range v).flatMap T.auxRelations ++ (T.auxRelations v ++
        ((List.range (T.nodes.length - (v + 1))).map (v + 1 + ·)).flatMap T.auxRelations) := by
    have hrange : List.range T.nodes.length = List.range (v + 1) ++
        (List.range (T.nodes.length - (v + 1))).map (v + 1 + ·) := by
      rw [← List.range_add, Nat.add_sub_cancel' hv]
    rw [hrange, List.flatMap_append, List.range_succ, List.flatMap_append, List.flatMap_singleton,
      List.append_assoc]
  rw [TrieHolder.getChildren, hcount]
  simp only [hindex v hv]
  rw [hsplit, List.drop_left, List.take_left]
  exact hT.auxRelations v

end TomitaParser.TrieHolder
