import Mathlib.Data.List.Basic
/-! # Searched trees

A binary tree is searched by a comparison. Where the comparison splits the elements of the tree in
order into those before and those after the place that is searched, the search finds that place,
whatever the shape of the tree. -/

/-- A binary tree with its elements in the nodes. -/
inductive ComparedTree (α : Type) where
  | leaf
  | branch (left : ComparedTree α) (value : α) (right : ComparedTree α)

namespace ComparedTree
variable {α : Type} (lt : α → α → Bool)

/-- The elements from the left to the right. -/
def toList : ComparedTree α → List α
  | leaf => []
  | branch left value right => left.toList ++ value :: right.toList

/-- The number of elements before the first that is not less than the key, as the search goes. -/
def lowerBound (key : α) : ComparedTree α → ℕ
  | leaf => 0
  | branch left value right =>
    if lt value key then left.toList.length + 1 + lowerBound key right else lowerBound key left

/-- The key is put into a new leaf, behind the elements that it is not less than. -/
def insertLeaf (key : α) : ComparedTree α → ComparedTree α
  | leaf => branch leaf key leaf
  | branch left value right =>
    if lt key value then branch (insertLeaf key left) value right
    else branch left value (insertLeaf key right)

/-- The place of an element that neither is less than the key nor greater. -/
def find (key : α) (t : ComparedTree α) : Option ℕ :=
  match t.toList[lowerBound lt key t]? with
  | none => none
  | some value => if lt key value then none else some (lowerBound lt key t)

/-- How an implementation keeps its trees balanced. -/
structure Balance (α : Type) where
  rebalance : ComparedTree α → ComparedTree α
  erase : ℕ → ComparedTree α → ComparedTree α
  toList_rebalance : ∀ t, (rebalance t).toList = t.toList
  toList_erase : ∀ i t, (erase i t).toList = t.toList.eraseIdx i

/-- The tree with everything to the right. -/
def ofList : List α → ComparedTree α
  | [] => leaf
  | value :: values => branch leaf value (ofList values)

theorem toList_ofList (values : List α) : (ofList values).toList = values := by
  induction values with
  | nil => rfl
  | cons value values ih => rw [ofList, toList, toList, ih, List.nil_append]

/-- No balancing at all. -/
def Balance.plain : Balance α where
  rebalance := id
  erase := fun i t => ofList (t.toList.eraseIdx i)
  toList_rebalance := fun _ => rfl
  toList_erase := fun i t => toList_ofList (t.toList.eraseIdx i)

variable {lt} {t : ComparedTree α} {key : α} {before after : List α}

/-- The search finds the place between the elements that are less than the key and the others. -/
theorem lowerBound_eq (h : t.toList = before ++ after) (hbefore : ∀ x ∈ before, lt x key = true)
    (hafter : ∀ x ∈ after, lt x key = false) : lowerBound lt key t = before.length := by
  induction t generalizing before after with
  | leaf =>
    rw [toList, eq_comm, List.append_eq_nil_iff] at h
    rw [lowerBound, h.1, List.length_nil]
  | branch left value right ihLeft ihRight =>
    rw [toList] at h
    rw [lowerBound]
    rcases List.append_eq_append_iff.mp h with ⟨middle, hmiddle, hright⟩ | ⟨middle, hleft, hright⟩
    · cases middle with
      | nil =>
        rw [List.append_nil] at hmiddle
        rw [List.nil_append] at hright
        have hvalue := hafter value (by rw [← hright]; exact List.mem_cons_self)
        rw [hvalue, if_neg Bool.false_ne_true]
        apply @ihLeft before []
        · rw [List.append_nil, hmiddle]
        · exact hbefore
        · intro x hx
          cases hx
      | cons first middle =>
        rw [List.cons_append, List.cons.injEq] at hright
        obtain ⟨rfl, hright⟩ := hright
        have hvalue := hbefore value (by rw [hmiddle]; simp)
        rw [if_pos hvalue, hmiddle, List.length_append, List.length_cons]
        have := ihRight hright (fun x hx => hbefore x (by rw [hmiddle]; simp [hx])) hafter
        omega
    · have hvalue := hafter value (by rw [hright]; simp)
      rw [hvalue, if_neg Bool.false_ne_true]
      exact ihLeft hleft hbefore fun x hx => hafter x (by rw [hright]; simp [hx])

/-- The key comes between the elements that it is not less than and the others. -/
theorem toList_insertLeaf (h : t.toList = before ++ after)
    (hbefore : ∀ x ∈ before, lt key x = false) (hafter : ∀ x ∈ after, lt key x = true) :
    (insertLeaf lt key t).toList = before ++ key :: after := by
  induction t generalizing before after with
  | leaf =>
    rw [toList, eq_comm, List.append_eq_nil_iff] at h
    rw [insertLeaf, toList, toList, h.1, h.2]
  | branch left value right ihLeft ihRight =>
    rw [toList] at h
    rw [insertLeaf]
    rcases List.append_eq_append_iff.mp h with ⟨middle, hmiddle, hright⟩ | ⟨middle, hleft, hright⟩
    · cases middle with
      | nil =>
        rw [List.append_nil] at hmiddle
        rw [List.nil_append] at hright
        have hvalue := hafter value (by rw [← hright]; exact List.mem_cons_self)
        have hin := @ihLeft before []
          (by rw [List.append_nil, hmiddle]) hbefore (fun x hx => by cases hx)
        rw [if_pos hvalue, toList, hin, ← hright, List.append_assoc]
        rfl
      | cons first middle =>
        rw [List.cons_append, List.cons.injEq] at hright
        obtain ⟨rfl, hright⟩ := hright
        have hvalue := hbefore value (by rw [hmiddle]; simp)
        have hin := ihRight hright (fun x hx => hbefore x (by rw [hmiddle]; simp [hx])) hafter
        rw [hvalue, if_neg Bool.false_ne_true, toList, hin, hmiddle, List.append_assoc]
        rfl
    · have hvalue := hafter value (by rw [hright]; simp)
      have hin := ihLeft hleft hbefore fun x hx => hafter x (by rw [hright]; simp [hx])
      rw [if_pos hvalue, toList, hin, hright, List.append_assoc]
      rfl

end ComparedTree
