import TomitaParser.Comptrie.FiniteMap
import TomitaParser.Comptrie.Node
/-! # The search tree of a node's arcs

The arcs of a node are saved as a search tree over the first bytes of their labels. With the other
bytes of the labels, one node after the other, this is the tree that the data reads as. -/

namespace TomitaParser.Comptrie
open TernaryTree
variable {extra : ℕ} {Data : Type}

/-- An arc with the tree behind it. -/
structure Branch (Data : Type) where
  first : ℕ
  more : List ℕ
  payload : Option Data
  forward : Tree ℕ Data

/-- The bytes of a label after the first one, and the tree behind them. -/
def spine (payload : Option Data) (forward : Tree ℕ Data) : List ℕ → Tree ℕ Data
  | [] => forward
  | b :: bs =>
    .node b (if bs = [] then payload else none) .nil (spine payload forward bs) .nil

namespace Branch

/-- The payload at the first byte of the label. -/
def headPayload (branch : Branch Data) : Option Data :=
  if branch.more = [] then branch.payload else none

/-- The tree behind the first byte of the label. -/
def behind (branch : Branch Data) : Tree ℕ Data :=
  spine branch.payload branch.forward branch.more

/-- The node of an arc, between the trees of the arcs below it and above it. -/
def node (branch : Branch Data) (left right : Tree ℕ Data) : Tree ℕ Data :=
  .node branch.first branch.headPayload left branch.behind right

/-- The entries behind an arc. -/
def entries (branch : Branch Data) : List (List ℕ × Data) :=
  (branch.node .nil .nil).entries

end Branch

def searchTree : List (Branch Data) → Tree ℕ Data :=
  Median.recurse .nil fun _ branch _ left right => branch.node left right

def Arcs.branches : Arcs Data → List (Branch Data)
  | .nil => []
  | .cons first more payload children rest =>
    { first, more, payload, forward := searchTree children.branches } :: rest.branches

/-- The tree of the arcs of a node. -/
def Arcs.tree (arcs : Arcs Data) : Tree ℕ Data := searchTree arcs.branches

theorem searchTree_node {left right : List (Branch Data)} (h : Median.IsMiddle left right)
    (branch : Branch Data) : searchTree (left ++ branch :: right) =
      branch.node (searchTree left) (searchTree right) :=
  Median.recurse_node _ _ h branch

@[simp]
theorem searchTree_nil : searchTree ([] : List (Branch Data)) = .nil :=
  Median.recurse_nil _ _

theorem searchTree_eq_nil {branches : List (Branch Data)} :
    searchTree branches = .nil ↔ branches = [] := by
  constructor
  · intro h
    induction branches using Median.induction with
    | nil => rfl
    | node left branch right hmid _ _ =>
      rw [searchTree_node hmid] at h
      exact absurd h (by simp [Branch.node])
  · rintro rfl
    exact searchTree_nil

theorem Arcs.tree_eq_nil {arcs : Arcs Data} : arcs.tree = .nil ↔ arcs = .nil := by
  rw [tree, searchTree_eq_nil]
  cases arcs <;> simp [branches]

theorem entries_searchTree (branches : List (Branch Data)) :
    (searchTree branches).entries = branches.flatMap Branch.entries := by
  induction branches using Median.induction with
  | nil => simp [Tree.entries]
  | node left branch right hmid ihLeft ihRight =>
    rw [searchTree_node hmid, Branch.node, Tree.entries, ihLeft, ihRight, List.flatMap_append,
      List.flatMap_cons]
    simp [Branch.entries, Branch.node, Tree.entries]

theorem labels_searchTree (branches : List (Branch Data)) :
    (searchTree branches).labels = branches.map Branch.first := by
  induction branches using Median.induction with
  | nil => simp [Tree.labels]
  | node left branch right hmid ihLeft ihRight =>
    rw [searchTree_node hmid, Branch.node, Tree.labels, ihLeft, ihRight, List.map_append,
      List.map_cons]

theorem Arcs.first_branches (arcs : Arcs Data) : arcs.branches.map Branch.first = arcs.firsts := by
  induction arcs with
  | nil => rfl
  | cons first more payload children rest _ ih => rw [branches, firsts, List.map_cons, ih]

/-- Every node without a payload has arcs. -/
def Arcs.Live : Arcs Data → Prop
  | .nil => True
  | .cons _ _ payload children rest => (payload = none → children ≠ .nil) ∧ children.Live ∧ rest.Live

theorem spine_live {payload : Option Data} {forward : Tree ℕ Data}
    (hpayload : payload = none → forward ≠ .nil) (hforward : forward.Live) (more : List ℕ) :
    (spine payload forward more).Live := by
  induction more with
  | nil => exact hforward
  | cons b bs ih =>
    refine ⟨?_, trivial, ih, trivial⟩
    cases bs with
    | nil => exact hpayload
    | cons c cs =>
      intro _
      simp [spine]

theorem searchTree_live {branches : List (Branch Data)}
    (h : ∀ b ∈ branches, (b.payload = none → b.forward ≠ .nil) ∧ b.forward.Live) :
    (searchTree branches).Live := by
  induction branches using Median.induction with
  | nil =>
    rw [searchTree_nil]
    trivial
  | node left branch right hmid ihLeft ihRight =>
    obtain ⟨hpayload, hforward⟩ := h branch (by simp)
    rw [searchTree_node hmid]
    refine ⟨?_, ihLeft fun b hb => h b (by simp [hb]), spine_live hpayload hforward _,
      ihRight fun b hb => h b (by simp [hb])⟩
    rw [Branch.headPayload, Branch.behind]
    cases hmore : branch.more with
    | nil => exact hpayload
    | cons c cs =>
      intro _
      simp [spine]

theorem Arcs.Live.tree {arcs : Arcs Data} (h : arcs.Live) : arcs.tree.Live := by
  have hbranches : ∀ arcs : Arcs Data, arcs.Live →
      ∀ b ∈ arcs.branches, (b.payload = none → b.forward ≠ .nil) ∧ b.forward.Live := by
    intro arcs
    induction arcs with
    | nil => simp [branches]
    | cons first more payload children rest ihChildren ihRest =>
      intro h b hb
      rcases List.mem_cons.mp hb with rfl | hb
      · refine ⟨?_, searchTree_live (ihChildren h.2.1)⟩
        intro hnone
        exact mt Arcs.tree_eq_nil.mp (h.1 hnone)
      · exact ihRest h.2.2 b hb
  exact searchTree_live (hbranches arcs h)

theorem spine_ordered {payload : Option Data} {forward : Tree ℕ Data} (hforward : forward.Ordered)
    (more : List ℕ) : (spine payload forward more).Ordered := by
  induction more with
  | nil => exact hforward
  | cons b bs ih => exact ⟨by simp [Tree.labels], by simp [Tree.labels], trivial, ih, trivial⟩

theorem searchTree_ordered {branches : List (Branch Data)}
    (hsorted : branches.Pairwise fun b b' => b.first < b'.first)
    (h : ∀ b ∈ branches, b.forward.Ordered) : (searchTree branches).Ordered := by
  induction branches using Median.induction with
  | nil =>
    rw [searchTree_nil]
    trivial
  | node left branch right hmid ihLeft ihRight =>
    obtain ⟨hleft, hright, hcross⟩ := List.pairwise_append.mp hsorted
    obtain ⟨hbranch, hright⟩ := List.pairwise_cons.mp hright
    rw [searchTree_node hmid]
    refine ⟨?_, ?_, ihLeft hleft fun b hb => h b (by simp [hb]), spine_ordered (h branch (by simp))
      _, ihRight hright fun b hb => h b (by simp [hb])⟩
    · intro c hc
      rw [labels_searchTree] at hc
      obtain ⟨b, hb, rfl⟩ := List.mem_map.mp hc
      exact hcross b hb branch List.mem_cons_self
    · intro c hc
      rw [labels_searchTree] at hc
      obtain ⟨b, hb, rfl⟩ := List.mem_map.mp hc
      exact hbranch b hb

theorem Arcs.Good.tree_ordered {arcs : Arcs Data} (h : arcs.Good) : arcs.tree.Ordered := by
  have hbranches : ∀ arcs : Arcs Data, arcs.Good →
      arcs.branches.Pairwise (fun b b' => b.first < b'.first) ∧
        ∀ b ∈ arcs.branches, b.forward.Ordered := by
    intro arcs
    induction arcs with
    | nil => simp [branches]
    | cons first more payload children rest ihChildren ihRest =>
      intro h
      obtain ⟨hlt, -, hchildren, hrest⟩ := h
      constructor
      · apply List.Pairwise.cons
        · intro b hb
          apply hlt
          rw [← first_branches]
          exact List.mem_map_of_mem hb
        · exact (ihRest hrest).1
      · intro b hb
        rcases List.mem_cons.mp hb with rfl | hb
        · exact searchTree_ordered (ihChildren hchildren).1 (ihChildren hchildren).2
        · exact (ihRest hrest).2 b hb
  exact searchTree_ordered (hbranches arcs h).1 (hbranches arcs h).2

theorem mem_spine {payload : Option Data} {forward : Tree ℕ Data} {first : ℕ} (more : List ℕ)
    (key : List ℕ) (v : Data) :
    (key, v) ∈ (Branch.mk first more payload forward).entries ↔
      ∃ left, key = first :: more ++ left ∧
        (left = [] ∧ payload = some v ∨ (left, v) ∈ forward.entries) := by
  induction more generalizing first key with
  | nil =>
    simp only [Branch.entries, Branch.node, Branch.headPayload, Branch.behind, spine, Tree.entries,
      List.nil_append, List.append_nil, List.mem_append, List.mem_map, extend, if_true]
    constructor
    · rintro (h | ⟨entry, hentry, heq⟩)
      · cases payload with
        | none => simp [own] at h
        | some w =>
          simp only [own, List.mem_singleton, Prod.mk.injEq] at h
          exact ⟨[], by rw [h.1]; rfl, Or.inl ⟨rfl, by rw [h.2]⟩⟩
      · simp only [Prod.mk.injEq] at heq
        refine ⟨entry.1, by rw [← heq.1]; rfl, Or.inr ?_⟩
        rw [← heq.2]
        exact hentry
    · rintro ⟨left, rfl, ⟨rfl, rfl⟩ | h⟩
      · simp [own]
      · exact Or.inr ⟨(left, v), h, rfl⟩
  | cons b bs ih =>
    have hbehind : (Branch.mk first (b :: bs) payload forward).behind =
        (Branch.mk b bs payload forward).node .nil .nil := rfl
    have hentries : (Branch.mk first (b :: bs) payload forward).entries =
        (Branch.mk b bs payload forward).entries.map (extend first) := by
      rw [Branch.entries, Branch.node, Tree.entries, hbehind]
      simp [Branch.headPayload, own, Tree.entries, Branch.entries]
    rw [hentries, List.mem_map]
    constructor
    · rintro ⟨⟨key', v'⟩, hentry, heq⟩
      simp only [extend, Prod.mk.injEq] at heq
      obtain ⟨rfl, rfl⟩ := heq
      obtain ⟨left, rfl, h⟩ := (ih _).mp hentry
      exact ⟨left, rfl, h⟩
    · rintro ⟨left, rfl, h⟩
      exact ⟨(b :: bs ++ left, v), (ih _).mpr ⟨left, rfl, h⟩, rfl⟩

/-- The tree of a good node has just what the arcs hold. -/
theorem Arcs.Good.mem_entries {arcs : Arcs Data} (h : arcs.Good) (key : List ℕ) (v : Data) :
    (key, v) ∈ arcs.tree.entries ↔ arcs.lookup key = some v := by
  induction arcs generalizing key with
  | nil => simp [tree, branches, Tree.entries, lookup]
  | cons first more payload children rest ihChildren ihRest =>
    obtain ⟨hlt, -, hchildren, hrest⟩ := h
    have hentries : (cons first more payload children rest).tree.entries =
        (Branch.mk first more payload children.tree).entries ++ rest.tree.entries := by
      rw [tree, entries_searchTree, branches, List.flatMap_cons, ← entries_searchTree]
      rfl
    rw [hentries, List.mem_append, mem_spine, ihRest hrest]
    cases key with
    | nil => simp [lookup_nil_key]
    | cons c cs =>
      rw [lookup_cons]
      by_cases hc : c = first
      · subst hc
        rw [if_pos rfl]
        have hnone : rest.lookup (c :: cs) = none := by
          apply lookup_of_not_mem
          intro hmem
          exact lt_irrefl c (hlt c hmem)
        rw [hnone]
        cases hstrip : strip more cs with
        | none =>
          simp only [Option.bind_none, reduceCtorEq, or_false, iff_false]
          rintro ⟨left, heq, -⟩
          have hcs := strip_eq_some.mpr (List.cons.inj heq).2
          rw [hstrip] at hcs
          exact absurd hcs (by simp)
        | some left =>
          have hcs := strip_eq_some.mp hstrip
          subst hcs
          simp only [Option.bind_some, reduceCtorEq, or_false]
          cases left with
          | nil =>
            rw [atNode]
            constructor
            · rintro ⟨left, heq, h⟩
              have hleft : left = [] := by simpa using heq
              rcases h with ⟨-, h⟩ | h
              · exact h
              · rw [hleft, ihChildren hchildren, lookup_nil_key] at h
                exact absurd h (by simp)
            · intro hv
              exact ⟨[], by simp, Or.inl ⟨rfl, hv⟩⟩
          | cons d ds =>
            rw [atNode]
            constructor
            · rintro ⟨left, heq, h⟩
              have hleft : left = d :: ds := by simpa using heq.symm
              subst hleft
              rcases h with ⟨h, -⟩ | h
              · simp at h
              · exact (ihChildren hchildren _).mp h
            · intro hv
              exact ⟨d :: ds, by simp, Or.inr ((ihChildren hchildren _).mpr hv)⟩
      · rw [if_neg hc]
        constructor
        · rintro (⟨left, heq, -⟩ | h)
          · exact absurd (List.cons.inj heq).1 hc
          · exact h
        · exact Or.inr

end TomitaParser.Comptrie
