import Mathlib.Data.List.Nodup
import Mathlib.Data.List.Perm.Subperm
import Mathlib.Logic.Relation
import TomitaParser.Lib.Loop
/-! # Breadth-first traversal

A list of found nodes grows at its end while it is walked from its start. -/

namespace Traversal
open LoopRun Relation
variable {α : Type*} [DecidableEq α]

/-- Put a node at the end unless it has been found already. -/
def addNew (found : List α) (a : α) : List α := if a ∈ found then found else found ++ [a]

@[simp] theorem mem_addNew {found : List α} {a x : α} :
    x ∈ addNew found a ↔ x ∈ found ∨ x = a := by
  rw [addNew]
  split_ifs with h
  · exact ⟨Or.inl, fun hx => hx.elim id fun heq => heq ▸ h⟩
  · rw [List.mem_append, List.mem_singleton]

theorem nodup_addNew {found : List α} (h : found.Nodup) (a : α) : (addNew found a).Nodup := by
  rw [addNew]
  split_ifs with ha
  · exact h
  · exact List.nodup_append.mpr ⟨h, List.nodup_singleton a, by
      rintro x hx y hy rfl
      exact ha (List.mem_singleton.mp hy ▸ hx)⟩

theorem prefix_addNew (found : List α) (a : α) : found <+: addNew found a := by
  rw [addNew]
  split_ifs
  · exact List.prefix_rfl
  · exact List.prefix_append found [a]

theorem mem_foldl_addNew {found as : List α} {x : α} :
    x ∈ as.foldl addNew found ↔ x ∈ found ∨ x ∈ as := by
  induction as generalizing found with
  | nil => simp
  | cons a as ih => rw [List.foldl_cons, ih, mem_addNew, List.mem_cons, or_assoc]

theorem nodup_foldl_addNew {found : List α} (h : found.Nodup) (as : List α) :
    (as.foldl addNew found).Nodup := by
  induction as generalizing found with
  | nil => exact h
  | cons a as ih => exact ih (nodup_addNew h a)

theorem prefix_foldl_addNew (found as : List α) : found <+: as.foldl addNew found := by
  induction as generalizing found with
  | nil => exact List.prefix_rfl
  | cons a as ih => exact (prefix_addNew found a).trans (ih (addNew found a))

/-- One turn: the children of the next node of the list. -/
def traverseStep (children : α → List α) (s : List α × ℕ) : LoopStep (List α × ℕ) Bool :=
  match s.1[s.2]? with
  | none => .exit true s
  | some a => .next ((children a).foldl addNew s.1, s.2 + 1)

def traverse (children : α → List α) (fuel : ℕ) (root : α) : Bool × List α × ℕ :=
  runLoop (traverseStep children) false fuel ([root], 0)

/-- The invariant of the traversal: what is found is reachable, and the children of the nodes that
have been walked are found. -/
structure Walked (children : α → List α) (root : α) (s : List α × ℕ) : Prop where
  root_mem : root ∈ s.1
  nodup : s.1.Nodup
  reachable : ∀ a ∈ s.1, ReflTransGen (fun a b => b ∈ children a) root a
  closed : ∀ k < s.2, ∀ a, s.1[k]? = some a → ∀ b ∈ children a, b ∈ s.1
  le : s.2 ≤ s.1.length

omit [DecidableEq α] in
theorem walked_start (children : α → List α) (root : α) : Walked children root ([root], 0) where
  root_mem := List.mem_singleton_self root
  nodup := List.nodup_singleton root
  reachable := by
    intro a ha
    rw [List.mem_singleton.mp ha]
  closed := by
    intro k hk
    exact absurd hk (Nat.not_lt_zero k)
  le := Nat.zero_le _

theorem Walked.step {children : α → List α} {root : α} {s : List α × ℕ} {a : α}
    (h : Walked children root s) (ha : s.1[s.2]? = some a) :
    Walked children root ((children a).foldl addNew s.1, s.2 + 1) where
  root_mem := mem_foldl_addNew.mpr (Or.inl h.root_mem)
  nodup := nodup_foldl_addNew h.nodup _
  reachable := by
    intro b hb
    rcases mem_foldl_addNew.mp hb with hb | hb
    · exact h.reachable b hb
    · exact (h.reachable a (List.mem_of_getElem? ha)).tail hb
  closed := by
    intro k hk c hc b hb
    have hklen : k < s.1.length := by
      have := (List.getElem?_eq_some_iff.mp ha).1
      omega
    have hold : s.1[k]? = some c := by
      obtain ⟨new, hnew⟩ := prefix_foldl_addNew s.1 (children a)
      rw [← hc, ← hnew, List.getElem?_append_left hklen]
    apply mem_foldl_addNew.mpr
    by_cases hlt : k < s.2
    · exact Or.inl (h.closed k hlt c hold b hb)
    · have hks : k = s.2 := by
        have : k < s.2 + 1 := hk
        omega
      rw [hks, ha] at hold
      exact Or.inr (Option.some.inj hold ▸ hb)
  le := by
    have hlen := (prefix_foldl_addNew s.1 (children a)).length_le
    have := (List.getElem?_eq_some_iff.mp ha).1
    exact Nat.succ_le_of_lt (this.trans_le hlen)

/-- Inside a finite universe that is closed under children the traversal finds exactly the nodes
that can be reached. -/
theorem mem_traverse {children : α → List α} {root : α} {nodes : List α}
    (hroot : root ∈ nodes) (hchild : ∀ a ∈ nodes, ∀ b ∈ children a, b ∈ nodes)
    {fuel : ℕ} (hf : nodes.length < fuel) (x : α) :
    x ∈ (traverse children fuel root).2.1 ↔ ReflTransGen (fun a b => b ∈ children a) root x := by
  have hin : ∀ a, ReflTransGen (fun a b => b ∈ children a) root a → a ∈ nodes := by
    intro a ha
    induction ha with
    | refl => exact hroot
    | tail _ hb ih => exact hchild _ ih _ hb
  have hlen : ∀ s : List α × ℕ, Walked children root s → s.1.length ≤ nodes.length :=
    fun s hs => (List.subperm_of_subset hs.nodup fun a ha => hin a (hs.reachable a ha)).length_le
  have hdone := @runLoop_post_of_measure _ _ (traverseStep children) false
    (fun s => nodes.length - s.2) (Walked children root)
    (fun _ s => Walked children root s ∧ s.1.length ≤ s.2)
    (by
      intro s hs
      rw [traverseStep]
      cases ha : s.1[s.2]? with
      | none => exact ⟨hs, List.getElem?_eq_none_iff.mp ha⟩
      | some a =>
        have hnext := hs.step ha
        have hle := hnext.le.trans (hlen _ hnext)
        refine ⟨hnext, ?_⟩
        show nodes.length - (s.2 + 1) < nodes.length - s.2
        have : s.2 + 1 ≤ nodes.length := hle
        omega) fuel ([root], 0) (walked_start children root) (by simpa using hf)
  obtain ⟨hwalked, hend⟩ := hdone
  rw [traverse]
  constructor
  · exact hwalked.reachable x
  · intro hx
    induction hx with
    | refl => exact hwalked.root_mem
    | tail _ hb ih =>
      obtain ⟨k, hk, hget⟩ := List.getElem_of_mem ih
      exact hwalked.closed k (by omega) _ (by rw [List.getElem?_eq_getElem hk, hget]) _ hb

end Traversal
