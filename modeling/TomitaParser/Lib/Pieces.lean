import Mathlib.Data.List.Basic
/-! # Pieces of a list

The pieces of a list are the longest parts without a separator that are not empty. -/

namespace Pieces
variable {α : Type*} [DecidableEq α] {sep : α}

/-- The pieces of a list between its separators. -/
def pieces (sep : α) (l : List α) : List (List α) := (l.splitOn sep).filter (· ≠ [])

theorem induction (sep : α) {motive : List α → Prop} (hpart : ∀ l, sep ∉ l → motive l)
    (hsep : ∀ l m, sep ∉ l → motive m → motive (l ++ sep :: m)) (l : List α) : motive l := by
  induction hn : l.length using Nat.strongRecOn generalizing l with
  | ind n ih =>
    by_cases hmem : sep ∈ l
    · obtain ⟨front, back, rfl, hfront⟩ := List.eq_append_cons_of_mem hmem
      apply hsep front back hfront
      apply ih back.length _ back rfl
      rw [← hn, List.length_append, List.length_cons]
      omega
    · exact hpart l hmem

theorem pieces_append (l m : List α) :
    pieces sep (l ++ sep :: m) = pieces sep l ++ pieces sep m := by
  rw [pieces, List.splitOn_append_cons_self, List.filter_append]
  rfl

@[simp] theorem pieces_nil : pieces sep [] = [] := by
  simp [pieces]

theorem pieces_of_not_mem {l : List α} (h : sep ∉ l) :
    pieces sep l = if l = [] then [] else [l] := by
  rw [pieces, List.splitOn_eq_singleton h]
  split_ifs with hl <;> simp [hl]

theorem pieces_concat_sep (l : List α) : pieces sep (l ++ [sep]) = pieces sep l := by
  rw [pieces_append, pieces_nil, List.append_nil]

/-- The end of a list at which a new piece begins. -/
def EndsPiece (sep : α) (l : List α) : Prop := l = [] ∨ l.getLast? = some sep

theorem pieces_append_of_endsPiece {l : List α} (h : EndsPiece sep l) (m : List α) :
    pieces sep (l ++ m) = pieces sep l ++ pieces sep m := by
  obtain rfl | hlast := h
  · rw [pieces_nil, List.nil_append, List.nil_append]
  · obtain ⟨front, rfl⟩ := List.getLast?_eq_some_iff.mp hlast
    rw [pieces_concat_sep, List.append_assoc, List.singleton_append, pieces_append]

theorem length_pieces_concat (l : List α) {a : α} (ha : a ≠ sep) [Decidable (EndsPiece sep l)] :
    (pieces sep (l ++ [a])).length =
      (pieces sep l).length + if EndsPiece sep l then 1 else 0 := by
  have hone : ∀ l : List α, sep ∉ l → sep ∉ l ++ [a] := by
    intro l hl
    simp [hl, ha.symm]
  by_cases hends : EndsPiece sep l
  · rw [if_pos hends, pieces_append_of_endsPiece hends, List.length_append,
      pieces_of_not_mem (show sep ∉ [a] by simp [ha.symm])]
    simp
  · rw [if_neg hends, Nat.add_zero]
    induction l using induction sep with
    | hpart l hl =>
      have hne : l ≠ [] := fun h => hends (Or.inl h)
      rw [pieces_of_not_mem hl, pieces_of_not_mem (hone l hl), if_neg hne, if_neg (by simp)]
      rfl
    | hsep l m hl ih =>
      have hm : ¬ EndsPiece sep m := by
        intro h
        apply hends
        right
        obtain rfl | hlast := h
        · simp
        · rw [List.getLast?_append, List.getLast?_cons, hlast]
          rfl
      rw [List.append_assoc, List.cons_append, pieces_append, pieces_append, List.length_append,
        List.length_append, ih hm]

end Pieces
