import Mathlib.Data.Finset.Card
import Mathlib.Data.List.Nodup
/-! # Breadth-first search of a tree

The queue of a breadth-first search is never shortened: the nodes before the position have been
left, those after it are waiting. In a tree the queue stays in the order of levels, and a node waits
only when every node of a lower level has been met. -/

namespace LevelOrder

variable {α : Type*} {nodes : Finset α} {root : α} {children : α → List α} {level : α → ℕ}

/-- A finite tree with the levels of its nodes. -/
structure LevelTree (nodes : Finset α) (root : α) (children : α → List α) (level : α → ℕ) :
    Prop where
  root_mem : root ∈ nodes
  level_root : level root = 0
  nodup : ∀ v, (children v).Nodup
  mem : ∀ v, ∀ j ∈ children v, j ∈ nodes
  level_child : ∀ v, ∀ j ∈ children v, level j = level v + 1
  parent_unique : ∀ u v j, j ∈ children u → j ∈ children v → u = v
  parent : ∀ j ∈ nodes, j ≠ root → ∃ v ∈ nodes, j ∈ children v

/-- The queue when the search has come to position `i`. -/
structure SearchQueue (nodes : Finset α) (root : α) (children : α → List α) (level : α → ℕ)
    (queue : List α) (i : ℕ) : Prop where
  eq : queue = root :: (queue.take i).flatMap children
  le : i ≤ queue.length
  mem : ∀ v ∈ queue, v ∈ nodes
  nodup : queue.Nodup
  sorted : queue.Pairwise (level · ≤ level ·)
  next : ∀ u ∈ queue, ∀ v ∈ queue.drop i, level u ≤ level v + 1

theorem searchQueue_start (ht : LevelTree nodes root children level) :
    SearchQueue nodes root children level [root] 0 where
  eq := rfl
  le := Nat.zero_le _
  mem v hv := List.mem_singleton.mp hv ▸ ht.root_mem
  nodup := List.nodup_singleton root
  sorted := List.pairwise_singleton _ root
  next u hu v hv := by
    rw [List.mem_singleton.mp hu, ht.level_root]
    exact Nat.zero_le _

namespace SearchQueue

variable {queue : List α} {i : ℕ} {v : α}

theorem root_mem (hq : SearchQueue nodes root children level queue i) : root ∈ queue := by
  rw [hq.eq]
  exact List.mem_cons_self

theorem child_mem (hq : SearchQueue nodes root children level queue i) {u j : α}
    (hu : u ∈ queue.take i) (hj : j ∈ children u) : j ∈ queue := by
  rw [hq.eq]
  exact List.mem_cons_of_mem root (List.mem_flatMap.mpr ⟨u, hu, hj⟩)

theorem length_le (hq : SearchQueue nodes root children level queue i) :
    queue.length ≤ nodes.card := by
  classical
  rw [← List.toFinset_card_of_nodup hq.nodup]
  apply Finset.card_le_card
  intro u hu
  exact hq.mem u (List.mem_toFinset.mp hu)

theorem mem_take (hq : SearchQueue nodes root children level queue i) (hv : queue[i]? = some v)
    {u : α} (hu : u ∈ queue) (hlt : level u < level v) : u ∈ queue.take i := by
  obtain ⟨k, hk⟩ := List.mem_iff_getElem?.mp hu
  by_cases hki : k < i
  · apply List.mem_of_getElem?
    rw [List.getElem?_take_of_lt hki]
    exact hk
  · exfalso
    obtain ⟨hi, hvi⟩ := List.getElem?_eq_some_iff.mp hv
    obtain ⟨hk', huk⟩ := List.getElem?_eq_some_iff.mp hk
    rcases Nat.lt_or_eq_of_le (not_lt.mp hki) with h | h
    · have := List.pairwise_iff_getElem.mp hq.sorted i k hi hk' h
      rw [hvi, huk] at this
      omega
    · subst h
      rw [hvi] at huk
      rw [huk] at hlt
      exact lt_irrefl _ hlt

theorem mem_of_level_le (ht : LevelTree nodes root children level)
    (hq : SearchQueue nodes root children level queue i) (hv : queue[i]? = some v) :
    ∀ {u : α}, u ∈ nodes → level u ≤ level v → u ∈ queue := by
  intro u hu hle
  induction hn : level u generalizing u with
  | zero =>
    by_cases hroot : u = root
    · rw [hroot]
      exact hq.root_mem
    · obtain ⟨p, _, hp⟩ := ht.parent u hu hroot
      have := ht.level_child p u hp
      omega
  | succ n ih =>
    have hroot : u ≠ root := by
      rintro rfl
      rw [ht.level_root] at hn
      omega
    obtain ⟨p, hpn, hp⟩ := ht.parent u hu hroot
    have hlevel := ht.level_child p u hp
    have hpq : p ∈ queue := ih hpn (by omega) (by omega)
    exact hq.child_mem (hq.mem_take hv hpq (by omega)) hp

theorem mem_of_end (ht : LevelTree nodes root children level)
    (hq : SearchQueue nodes root children level queue i) (hend : queue[i]? = none) {u : α}
    (hu : u ∈ nodes) : u ∈ queue := by
  have hall : queue.take i = queue := List.take_of_length_le (List.getElem?_eq_none_iff.mp hend)
  induction hn : level u generalizing u with
  | zero =>
    by_cases hroot : u = root
    · rw [hroot]
      exact hq.root_mem
    · obtain ⟨p, _, hp⟩ := ht.parent u hu hroot
      have := ht.level_child p u hp
      omega
  | succ n ih =>
    have hroot : u ≠ root := by
      rintro rfl
      rw [ht.level_root] at hn
      omega
    obtain ⟨p, hpn, hp⟩ := ht.parent u hu hroot
    have hlevel := ht.level_child p u hp
    apply hq.child_mem _ hp
    rw [hall]
    exact ih hpn (by omega)

/-- The children of the present node wait at the end. -/
theorem step (ht : LevelTree nodes root children level)
    (hq : SearchQueue nodes root children level queue i) (hv : queue[i]? = some v) :
    SearchQueue nodes root children level (queue ++ children v) (i + 1) := by
  obtain ⟨hi, hvi⟩ := List.getElem?_eq_some_iff.mp hv
  have hvq : v ∈ queue := List.mem_of_getElem? hv
  have hsplit : queue = queue.take i ++ v :: queue.drop (i + 1) := by
    rw [← hvi, List.cons_getElem_drop_succ, List.take_append_drop]
  have hvdrop : v ∈ queue.drop i := by
    rw [← List.cons_getElem_drop_succ (h := hi), hvi]
    exact List.mem_cons_self
  have hafter : ∀ u ∈ queue.drop (i + 1), level v ≤ level u := by
    intro u hu
    have hsorted := hq.sorted
    rw [hsplit] at hsorted
    exact (List.pairwise_cons.mp (List.pairwise_append.mp hsorted).2.1).1 u hu
  have hnew : ∀ j ∈ children v, j ∉ queue := by
    intro j hj hmem
    have hlevel := ht.level_child v j hj
    rw [hq.eq] at hmem
    rcases List.mem_cons.mp hmem with rfl | hmem
    · rw [ht.level_root] at hlevel
      omega
    · obtain ⟨u, hu, hju⟩ := List.mem_flatMap.mp hmem
      rw [ht.parent_unique u v j hju hj] at hu
      have hnodup := hq.nodup
      rw [hsplit] at hnodup
      exact (List.nodup_append.mp hnodup).2.2 v hu v List.mem_cons_self rfl
  constructor
  · rw [List.take_append_of_le_length (by omega), List.take_succ_eq_append_getElem hi, hvi,
      List.flatMap_append, List.flatMap_singleton, ← List.cons_append, ← hq.eq]
  · rw [List.length_append]
    omega
  · intro u hu
    rcases List.mem_append.mp hu with hu | hu
    · exact hq.mem u hu
    · exact ht.mem v u hu
  · refine List.nodup_append.mpr ⟨hq.nodup, ht.nodup v, ?_⟩
    rintro u hu j hj rfl
    exact hnew u hj hu
  · refine List.pairwise_append.mpr ⟨hq.sorted, ?_, ?_⟩
    · apply List.pairwise_iff_forall_sublist.mpr
      intro j k hjk
      rw [ht.level_child v j (hjk.subset List.mem_cons_self),
        ht.level_child v k (hjk.subset (List.mem_cons_of_mem j List.mem_cons_self))]
    · intro u hu j hj
      rw [ht.level_child v j hj]
      exact hq.next u hu v hvdrop
  · intro u hu w hw
    rw [List.drop_append_of_le_length (by omega)] at hw
    rcases List.mem_append.mp hu with hu | hu
    · rcases List.mem_append.mp hw with hw | hw
      · apply hq.next u hu w
        rw [← List.cons_getElem_drop_succ (h := hi)]
        exact List.mem_cons_of_mem _ hw
      · rw [ht.level_child v w hw]
        have := hq.next u hu v hvdrop
        omega
    · rw [ht.level_child v u hu]
      rcases List.mem_append.mp hw with hw | hw
      · have := hafter w hw
        omega
      · rw [ht.level_child v w hw]
        omega

end SearchQueue

end LevelOrder
