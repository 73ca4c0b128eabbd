import Mathlib.Data.List.Sort
/-! # Recursion on the halves of a list

A sorted list is a search tree: the root is the element in the middle, and the two halves are the
trees below it. -/

namespace Median
variable {α β : Type*}

/-- Takes a list apart at its middle element, and combines what the halves give. -/
def recurse (empty : β) (node : List α → α → List α → β → β → β) (xs : List α) : β :=
  match h : xs.drop (xs.length / 2) with
  | [] => empty
  | x :: right =>
    node (xs.take (xs.length / 2)) x right (recurse empty node (xs.take (xs.length / 2)))
      (recurse empty node right)
  termination_by xs.length
  decreasing_by
    all_goals
      have hlen := congrArg List.length h
      rw [List.length_drop, List.length_cons] at hlen
    · rw [List.length_take]
      omega
    · omega

@[simp]
theorem recurse_nil (empty : β) (node : List α → α → List α → β → β → β) :
    recurse empty node [] = empty := by
  rw [recurse]
  split
  · rfl
  · rename_i h
    simp at h

/-- The element is the middle one of the list. -/
def IsMiddle (left right : List α) : Prop :=
  left.length = (left.length + right.length + 1) / 2

theorem IsMiddle.length_eq {left right : List α} (h : IsMiddle left right) (x : α) :
    (left ++ x :: right).length / 2 = left.length := by
  rw [IsMiddle] at h
  simp only [List.length_append, List.length_cons]
  omega

theorem recurse_node (empty : β) (node : List α → α → List α → β → β → β) {left right : List α}
    (h : IsMiddle left right) (x : α) : recurse empty node (left ++ x :: right) =
      node left x right (recurse empty node left) (recurse empty node right) := by
  have htake : (left ++ x :: right).take ((left ++ x :: right).length / 2) = left := by
    rw [h.length_eq, List.take_left']
    rfl
  have hdrop : (left ++ x :: right).drop ((left ++ x :: right).length / 2) = x :: right := by
    rw [h.length_eq, List.drop_left']
    rfl
  rw [recurse]
  split
  · rename_i hnil
    rw [hdrop] at hnil
    exact absurd hnil (List.cons_ne_nil _ _)
  · rename_i y ys hcons
    rw [hdrop] at hcons
    obtain ⟨rfl, rfl⟩ := List.cons.inj hcons
    rw [htake]

theorem induction {P : List α → Prop} (nil : P [])
    (node : ∀ left x right, IsMiddle left right → P left → P right → P (left ++ x :: right))
    (xs : List α) : P xs := by
  induction hn : xs.length using Nat.strong_induction_on generalizing xs with
  | _ n ih =>
    cases hdrop : xs.drop (xs.length / 2) with
    | nil =>
      have hlen := congrArg List.length hdrop
      simp only [List.length_drop, List.length_nil] at hlen
      have hxs : xs = [] := List.eq_nil_of_length_eq_zero (by omega)
      rw [hxs]
      exact nil
    | cons x right =>
      have hlen := congrArg List.length hdrop
      simp only [List.length_drop, List.length_cons] at hlen
      have htake : (xs.take (xs.length / 2)).length = xs.length / 2 := by
        rw [List.length_take]
        omega
      rw [← List.take_append_drop (xs.length / 2) xs, hdrop]
      apply node
      · rw [IsMiddle, htake]
        omega
      · exact ih _ (by omega) _ rfl
      · exact ih _ (by omega) _ rfl

theorem IsMiddle.map {γ : Type*} {left right : List α} (h : IsMiddle left right) (f g : α → γ) :
    IsMiddle (left.map f) (right.map g) := by
  rw [IsMiddle, List.length_map, List.length_map]
  exact h

variable {κ : Type*} [LinearOrder κ]

/-- Binary search, as a walk down from the middle element. -/
def search (key : α → κ) (k : κ) : List α → Option α :=
  recurse none fun _ x _ left right =>
    if k < key x then left else if key x < k then right else some x

@[simp]
theorem search_nil (key : α → κ) (k : κ) : search key k [] = none :=
  recurse_nil _ _

theorem search_node (key : α → κ) (k : κ) {left right : List α} (h : IsMiddle left right) (x : α) :
    search key k (left ++ x :: right) =
      if k < key x then search key k left else
        if key x < k then search key k right else some x :=
  recurse_node _ _ h x

theorem mem_of_search {key : α → κ} {k : κ} {xs : List α} {x : α} (h : search key k xs = some x) :
    x ∈ xs ∧ key x = k := by
  induction xs using induction with
  | nil => simp at h
  | node left y right hmid ihLeft ihRight =>
    rw [search_node key k hmid] at h
    split_ifs at h with hlt hgt
    · have hx := ihLeft h
      exact ⟨List.mem_append_left _ hx.1, hx.2⟩
    · have hx := ihRight h
      exact ⟨List.mem_append_right _ (List.mem_cons_of_mem _ hx.1), hx.2⟩
    · obtain rfl := Option.some.inj h
      exact ⟨List.mem_append_right _ List.mem_cons_self,
        le_antisymm (not_lt.mp hlt) (not_lt.mp hgt)⟩

theorem search_of_mem {key : α → κ} {xs : List α} (hsorted : xs.Pairwise fun x y => key x < key y)
    {x : α} (hx : x ∈ xs) : search key (key x) xs = some x := by
  induction xs using induction with
  | nil => simp at hx
  | node left y right hmid ihLeft ihRight =>
    rw [search_node key _ hmid]
    obtain ⟨hleft, hright, hcross⟩ := List.pairwise_append.mp hsorted
    obtain ⟨hy, hright⟩ := List.pairwise_cons.mp hright
    rcases List.mem_append.mp hx with hx | hx
    · rw [if_pos (hcross x hx y List.mem_cons_self)]
      exact ihLeft hleft hx
    · rcases List.mem_cons.mp hx with rfl | hx
      · rw [if_neg (lt_irrefl _), if_neg (lt_irrefl _)]
      · rw [if_neg (lt_asymm (hy x hx)), if_pos (hy x hx)]
        exact ihRight hright hx

end Median
