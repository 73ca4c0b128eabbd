import Mathlib.Data.List.Nodup
import Mathlib.Data.List.Infix
import Mathlib.Order.WellFounded
/-! # Searches of paths

A depth-first search without recursion keeps the path to its node, each node with the number of the
child that was taken. It goes down up to a limit; when it goes to a next child it does not ask for
the limit. Every path one longer than the limit is visited, and visited once if the children of a
node are different. -/

namespace PathSearch
variable {α : Type*} (kids : List α → List α)

/-- The nodes of a path, the last one first. -/
def nodes (stack : List (α × ℕ)) : List α := stack.map Prod.fst

/-- Go to the next child of the last node that has one, the others dropped. -/
def backtrack : List (α × ℕ) → List (α × ℕ)
  | (d, start) :: below :: rest =>
    match (kids (d :: nodes (below :: rest)))[start + 1]? with
    | some c => (c, 0) :: (d, start + 1) :: below :: rest
    | none => backtrack (below :: rest)
  | stack => stack

/-- Go down to the first child, as long as the path is not longer than the limit. -/
def move (limit : ℕ) (stack : List (α × ℕ)) : List (α × ℕ) :=
  match kids (nodes stack) with
  | [] => backtrack kids stack
  | c :: _ => if stack.length ≤ limit then (c, 0) :: stack else backtrack kids stack

/-- The paths that are visited with one node more than the limit, none where the fuel runs out. -/
def visits (limit : ℕ) : ℕ → List (α × ℕ) → Option (List (List α))
  | 0, _ => none
  | fuel + 1, stack =>
    (if (move kids limit stack).length = 1 then some []
      else visits limit fuel (move kids limit stack)).map
        ((if stack.length = limit + 1 then [nodes stack] else []) ++ ·)

/-- The same after a move, where a path of one node ends the search. -/
def visitsFrom (limit fuel : ℕ) (stack : List (α × ℕ)) : Option (List (List α)) :=
  if stack.length = 1 then some [] else visits kids limit fuel stack

/-- The paths that go on from a path. -/
inductive Extends (path : List α) : List α → Prop where
  | refl : Extends path path
  | step {p : List α} {c : α} (h : Extends path p) (hc : c ∈ kids p) : Extends path (c :: p)

variable {kids} {path p q : List α}

theorem Extends.suffix (h : Extends kids path p) : path <:+ p := by
  induction h with
  | refl => exact List.suffix_refl path
  | step _ _ ih => exact ih.trans (List.suffix_cons _ _)

theorem Extends.trans (h : Extends kids path p) (h' : Extends kids p q) :
    Extends kids path q := by
  induction h' with
  | refl => exact h
  | step _ hc ih => exact Extends.step ih hc

theorem Extends.child {c : α} (hc : c ∈ kids path) (h : Extends kids (c :: path) p) :
    Extends kids path p :=
  (Extends.step Extends.refl hc).trans h

theorem Extends.cases_child (h : Extends kids path p) :
    p = path ∨ ∃ (j : ℕ) (c : α), (kids path)[j]? = some c ∧ Extends kids (c :: path) p := by
  induction h with
  | refl => exact Or.inl rfl
  | @step p c _ hc ih =>
    rcases ih with heq | ⟨j, c', hj, hext⟩
    · rw [heq] at hc ⊢
      obtain ⟨j, hj⟩ := List.mem_iff_getElem?.mp hc
      exact Or.inr ⟨j, c, hj, Extends.refl⟩
    · exact Or.inr ⟨j, c', hj, Extends.step hext hc⟩

theorem Extends.child_unique {c c' : α} (h : Extends kids (c :: path) p)
    (h' : Extends kids (c' :: path) p) : c = c' := by
  have hlen : (c :: path).length = (c' :: path).length := by
    rw [List.length_cons, List.length_cons]
  rcases List.suffix_or_suffix_of_suffix h.suffix h'.suffix with hs | hs
  · exact (List.cons.inj (hs.eq_of_length hlen)).1
  · exact (List.cons.inj (hs.eq_of_length hlen.symm)).1.symm

theorem Extends.congr {kids' : List α → List α}
    (h : ∀ q, Extends kids path q → kids' q = kids q) (hp : Extends kids' path p) :
    Extends kids path p := by
  induction hp with
  | refl => exact Extends.refl
  | @step p c _ hc ih =>
    rw [h p ih] at hc
    exact Extends.step ih hc

variable {limit : ℕ}

/-- The search goes from one stack to another and finds the paths that satisfy `Found`, each once if
the children of a node are different. -/
def Finds (kids : List α → List α) (limit : ℕ) (run : ℕ → Option (List (List α)))
    (stack : List (α × ℕ)) (Found : List α → Prop) : Prop :=
  ∃ N found, (∀ fuel, run (N + fuel) = (visitsFrom kids limit fuel stack).map (found ++ ·)) ∧
    ((∀ p, (kids p).Nodup) → found.Nodup) ∧ ∀ p, p ∈ found ↔ Found p ∧ p.length = limit + 1

theorem Finds.none {stack stack' : List (α × ℕ)} (h : stack = stack') {Found : List α → Prop}
    (hnot : ∀ p, Found p → p.length ≠ limit + 1) :
    Finds kids limit (fun fuel => visitsFrom kids limit fuel stack) stack' Found := by
  refine ⟨0, [], ?_, fun _ => List.nodup_nil, ?_⟩
  · intro fuel
    rw [h, Nat.zero_add]
    dsimp only
    cases visitsFrom kids limit fuel stack' <;> rfl
  · intro p
    constructor
    · intro hp
      cases hp
    · intro hp
      exact absurd hp.2 (hnot p hp.1)

/-- One search after the other finds what either finds. -/
theorem Finds.append {run : ℕ → Option (List (List α))} {stack stack' : List (α × ℕ)}
    {Found Found' All : List α → Prop} (h : Finds kids limit run stack Found)
    (h' : Finds kids limit (fun fuel => visitsFrom kids limit fuel stack) stack' Found')
    (hdisjoint : (∀ p, (kids p).Nodup) → ∀ p, Found p → ¬ Found' p)
    (hall : ∀ p, p.length = limit + 1 → (All p ↔ Found p ∨ Found' p)) :
    Finds kids limit run stack' All := by
  obtain ⟨N, found, hrun, hnodup, hfound⟩ := h
  obtain ⟨N', found', hrun', hnodup', hfound'⟩ := h'
  refine ⟨N + N', found ++ found', ?_, ?_, ?_⟩
  · intro fuel
    dsimp only at hrun'
    rw [Nat.add_assoc, hrun, hrun', Option.map_map]
    congr 1
    funext paths
    exact (List.append_assoc found found' paths).symm
  · intro hkids
    rw [List.nodup_append]
    refine ⟨hnodup hkids, hnodup' hkids, ?_⟩
    intro p hp p' hp' heq
    rw [← heq] at hp'
    exact hdisjoint hkids p ((hfound p).mp hp).1 ((hfound' p).mp hp').1
  · intro p
    rw [List.mem_append, hfound, hfound']
    constructor
    · intro hp
      rcases hp with hp | hp
      · exact ⟨(hall p hp.2).mpr (Or.inl hp.1), hp.2⟩
      · exact ⟨(hall p hp.2).mpr (Or.inr hp.1), hp.2⟩
    · intro hp
      rcases (hall p hp.2).mp hp.1 with hin | hin
      · exact Or.inl ⟨hin, hp.2⟩
      · exact Or.inr ⟨hin, hp.2⟩

/-- The children behind `start`, when the search of each finds the paths through it. -/
theorem finds_siblings {d : α} {below : α × ℕ} {rest : List (α × ℕ)}
    (hsub : ∀ c ∈ kids (d :: nodes (below :: rest)), ∀ start,
      Finds kids limit (fun fuel => visits kids limit fuel ((c, 0) :: (d, start) :: below :: rest))
        (backtrack kids ((d, start) :: below :: rest))
        (Extends kids (c :: d :: nodes (below :: rest))))
    (k : ℕ) : ∀ start, (kids (d :: nodes (below :: rest))).length ≤ start + 1 + k →
      Finds kids limit
        (fun fuel => visitsFrom kids limit fuel (backtrack kids ((d, start) :: below :: rest)))
        (backtrack kids (below :: rest))
        (fun p => ∃ j c, start < j ∧ (kids (d :: nodes (below :: rest)))[j]? = some c ∧
          Extends kids (c :: d :: nodes (below :: rest)) p) := by
  induction k with
  | zero =>
    intro start hlen
    apply Finds.none
    · rw [backtrack, List.getElem?_eq_none (by omega)]
    · intro p hp
      obtain ⟨j, c, hj, hc, _⟩ := hp
      rw [List.getElem?_eq_none (by omega)] at hc
      cases hc
  | succ k ih =>
    intro start hlen
    cases hnext : (kids (d :: nodes (below :: rest)))[start + 1]? with
    | none =>
      have hle := List.getElem?_eq_none_iff.mp hnext
      apply Finds.none
      · rw [backtrack, hnext]
      · intro p hp
        obtain ⟨j, c, hj, hc, _⟩ := hp
        rw [List.getElem?_eq_none (by omega)] at hc
        cases hc
    | some c =>
      have hfirst := hsub c (List.mem_of_getElem? hnext) (start + 1)
      have hothers := ih (start + 1) (by omega)
      have hback : backtrack kids ((d, start) :: below :: rest) =
          (c, 0) :: (d, start + 1) :: below :: rest := by
        rw [backtrack, hnext]
      have hrun : (fun fuel => visitsFrom kids limit fuel
          (backtrack kids ((d, start) :: below :: rest))) =
          fun fuel => visits kids limit fuel ((c, 0) :: (d, start + 1) :: below :: rest) := by
        funext fuel
        rw [hback, visitsFrom, if_neg (by simp)]
      rw [hrun]
      apply hfirst.append hothers
      · intro hnodup p hp hp'
        obtain ⟨j, c', hj, hc', hext⟩ := hp'
        have heq := hp.child_unique hext
        rw [← heq] at hc'
        have hlt := (List.getElem?_eq_some_iff.mp hnext).1
        have := (List.getElem?_inj hlt (hnodup _)).mp (hnext.trans hc'.symm)
        omega
      · intro p _
        constructor
        · intro hp
          obtain ⟨j, c', hj, hc', hext⟩ := hp
          rcases Nat.eq_or_lt_of_le (Nat.succ_le_of_lt hj) with heq | hlt
          · rw [← heq] at hc'
            have hcc : c = c' := Option.some.inj (hnext.symm.trans hc')
            rw [← hcc] at hext
            exact Or.inl hext
          · exact Or.inr ⟨j, c', hlt, hc', hext⟩
        · intro hp
          rcases hp with hext | ⟨j, c', hj, hc', hext⟩
          · exact ⟨start + 1, c, Nat.lt_succ_self start, hnext, hext⟩
          · exact ⟨j, c', by omega, hc', hext⟩

/-- The move from a path to its first child, if the limit allows it. -/
theorem finds_firstChild {d : α} {below : α × ℕ} {rest : List (α × ℕ)}
    (hsub : ∀ c ∈ kids (d :: nodes (below :: rest)), ∀ start,
      Finds kids limit (fun fuel => visits kids limit fuel ((c, 0) :: (d, start) :: below :: rest))
        (backtrack kids ((d, start) :: below :: rest))
        (Extends kids (c :: d :: nodes (below :: rest)))) :
    Finds kids limit
      (fun fuel => visitsFrom kids limit fuel (move kids limit ((d, 0) :: below :: rest)))
      (backtrack kids ((d, 0) :: below :: rest))
      (fun p => ∃ c, (kids (d :: nodes (below :: rest)))[0]? = some c ∧
        Extends kids (c :: d :: nodes (below :: rest)) p) := by
  have hnodes : nodes ((d, 0) :: below :: rest) = d :: nodes (below :: rest) := rfl
  cases hkids : kids (d :: nodes (below :: rest)) with
  | nil =>
    have hmove : move kids limit ((d, 0) :: below :: rest) =
        backtrack kids ((d, 0) :: below :: rest) := by
      rw [move, hnodes, hkids]
    apply Finds.none hmove
    intro p hp
    obtain ⟨c, hc, _⟩ := hp
    cases hc
  | cons c others =>
    by_cases hlen : ((d, 0) :: below :: rest).length ≤ limit
    · have hmove : move kids limit ((d, 0) :: below :: rest) =
          (c, 0) :: (d, 0) :: below :: rest := by
        rw [move, hnodes, hkids]
        exact if_pos hlen
      obtain ⟨N, found, hrun, hnodup, hfound⟩ := hsub c (by rw [hkids]; exact List.mem_cons_self) 0
      refine ⟨N, found, ?_, hnodup, ?_⟩
      · intro fuel
        dsimp only at hrun ⊢
        rw [← hrun, hmove, visitsFrom, if_neg (by simp)]
      · intro p
        rw [hfound]
        constructor
        · intro hp
          exact ⟨⟨c, rfl, hp.1⟩, hp.2⟩
        · intro hp
          obtain ⟨⟨c', hc', hext⟩, hp⟩ := hp
          have heq : c = c' := Option.some.inj hc'
          rw [← heq] at hext
          exact ⟨hext, hp⟩
    · have hmove : move kids limit ((d, 0) :: below :: rest) =
          backtrack kids ((d, 0) :: below :: rest) := by
        rw [move, hnodes, hkids]
        exact if_neg hlen
      apply Finds.none hmove
      intro p hp heq
      obtain ⟨c', _, hext⟩ := hp
      have := hext.suffix.length_le
      rw [heq] at this
      simp only [List.length_cons, nodes, List.length_map] at this hlen
      omega

/-- From a path of two nodes or more the search finds all paths of the wanted length that go on from
it, and comes back. -/
theorem finds_subtree {root : List α} (depth : List α → ℕ)
    (hdepth : ∀ p, Extends kids root p → ∀ c ∈ kids p, depth (c :: p) < depth p) (n : ℕ) :
    ∀ (d : α) (below : α × ℕ) (rest : List (α × ℕ)), depth (d :: nodes (below :: rest)) = n →
      Extends kids root (d :: nodes (below :: rest)) →
      Finds kids limit (fun fuel => visits kids limit fuel ((d, 0) :: below :: rest))
        (backtrack kids (below :: rest)) (Extends kids (d :: nodes (below :: rest))) := by
  induction n using Nat.strong_induction_on with
  | _ n ih =>
    intro d below rest hn hroot
    have hsub : ∀ c ∈ kids (d :: nodes (below :: rest)), ∀ start,
        Finds kids limit
          (fun fuel => visits kids limit fuel ((c, 0) :: (d, start) :: below :: rest))
          (backtrack kids ((d, start) :: below :: rest))
          (Extends kids (c :: d :: nodes (below :: rest))) := by
      intro c hc start
      have hlt := hdepth _ hroot c hc
      rw [hn] at hlt
      exact ih _ hlt c (d, start) (below :: rest) rfl (Extends.step hroot hc)
    have hfirst := finds_firstChild hsub
    have hothers := finds_siblings hsub
      (kids (d :: nodes (below :: rest))).length 0 (by omega)
    have hboth : Finds kids limit
        (fun fuel => visitsFrom kids limit fuel (move kids limit ((d, 0) :: below :: rest)))
        (backtrack kids (below :: rest))
        (fun p => ∃ (j : ℕ) (c : α), (kids (d :: nodes (below :: rest)))[j]? = some c ∧
          Extends kids (c :: d :: nodes (below :: rest)) p) := by
      apply hfirst.append hothers
      · intro hnodup p hp hp'
        obtain ⟨c, hc, hext⟩ := hp
        obtain ⟨j, c', hj, hc', hext'⟩ := hp'
        have heq := hext.child_unique hext'
        rw [← heq] at hc'
        have hlt := (List.getElem?_eq_some_iff.mp hc).1
        have := (List.getElem?_inj hlt (hnodup _)).mp (hc.trans hc'.symm)
        omega
      · intro p _
        constructor
        · intro hp
          obtain ⟨j, c, hc, hext⟩ := hp
          cases j with
          | zero => exact Or.inl ⟨c, hc, hext⟩
          | succ j => exact Or.inr ⟨j + 1, c, Nat.succ_pos j, hc, hext⟩
        · intro hp
          rcases hp with ⟨c, hc, hext⟩ | ⟨j, c, _, hc, hext⟩
          · exact ⟨0, c, hc, hext⟩
          · exact ⟨j, c, hc, hext⟩
    obtain ⟨N, found, hrun, hfoundNodup, hfound⟩ := hboth
    -- the first turn visits the path itself
    have hturn : ∀ fuel, visits kids limit (fuel + 1) ((d, 0) :: below :: rest) =
        (visitsFrom kids limit fuel (move kids limit ((d, 0) :: below :: rest))).map
          ((if ((d, 0) :: below :: rest).length = limit + 1 then [d :: nodes (below :: rest)]
            else []) ++ ·) := by
      intro fuel
      rw [visits, visitsFrom]
      rfl
    have hself : ∀ p ∈ found, p ≠ d :: nodes (below :: rest) := by
      intro p hp heq
      obtain ⟨⟨j, c, _, hext⟩, _⟩ := (hfound p).mp hp
      have hle := hext.suffix.length_le
      rw [heq, List.length_cons] at hle
      omega
    have hlength : ((d, 0) :: below :: rest).length = (d :: nodes (below :: rest)).length := by
      simp [nodes]
    refine ⟨N + 1, (if ((d, 0) :: below :: rest).length = limit + 1 then
      [d :: nodes (below :: rest)] else []) ++ found, ?_, ?_, ?_⟩
    · intro fuel
      dsimp only at hrun ⊢
      rw [show N + 1 + fuel = N + fuel + 1 by omega, hturn, hrun, Option.map_map]
      congr 1
      funext paths
      exact (List.append_assoc _ found paths).symm
    · intro hkids
      split_ifs
      · rw [List.singleton_append, List.nodup_cons]
        exact ⟨fun hmem => hself _ hmem rfl, hfoundNodup hkids⟩
      · exact hfoundNodup hkids
    · intro p
      rw [List.mem_append, hfound]
      constructor
      · intro hp
        rcases hp with hp | ⟨⟨j, c, hc, hext⟩, hp⟩
        · split_ifs at hp with hlen
          · rw [List.mem_singleton.mp hp]
            exact ⟨Extends.refl, hlength ▸ hlen⟩
          · cases hp
        · exact ⟨Extends.child (List.mem_of_getElem? hc) hext, hp⟩
      · intro hp
        rcases hp.1.cases_child with heq | ⟨j, c, hc, hext⟩
        · left
          have hlen := hp.2
          rw [heq] at hlen
          rw [if_pos (hlength.trans hlen), heq]
          exact List.mem_singleton_self _
        · exact Or.inr ⟨⟨j, c, hc, hext⟩, hp.2⟩

end PathSearch
