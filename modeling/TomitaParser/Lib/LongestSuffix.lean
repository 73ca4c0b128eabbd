import Mathlib.Data.List.Basic
/-! # Longest suffixes

The longest suffix of a word with a property, and how it changes when the word grows by a letter:
what the failure links of a matching automaton stand for. -/

namespace LongestSuffix

variable {α : Type*} {P Q : List α → Prop} {s : List α} {o : Option (List α)} {a : α}

/-- `o` is the longest suffix of `s` with the property, or `none` when no suffix has it. -/
def IsLongest (P : List α → Prop) (s : List α) : Option (List α) → Prop
  | some u => P u ∧ u <:+ s ∧ ∀ x, P x → x <:+ s → x <:+ u
  | none => ∀ x, x <:+ s → ¬P x

/-- A link from `w`: the longest suffix with the property, other than `w` itself. -/
def IsFailure (P : List α → Prop) (w : List α) (o : Option (List α)) : Prop :=
  IsLongest (fun x => P x ∧ x ≠ w) w o

theorem isLongest_self (h : P s) : IsLongest P s (some s) :=
  ⟨h, List.suffix_rfl, fun _ _ hx => hx⟩

theorem isLongest_congr (h : ∀ x, x <:+ s → (P x ↔ Q x)) : IsLongest P s o ↔ IsLongest Q s o := by
  cases o with
  | none => exact forall₂_congr fun x hx => not_congr (h x hx)
  | some u =>
    constructor
    · intro hu
      exact ⟨(h u hu.2.1).mp hu.1, hu.2.1, fun x hx hs => hu.2.2 x ((h x hs).mpr hx) hs⟩
    · intro hu
      exact ⟨(h u hu.2.1).mpr hu.1, hu.2.1, fun x hx hs => hu.2.2 x ((h x hs).mp hx) hs⟩

theorem IsLongest.search {u : List α} (hu : IsLongest P s (some u))
    (h : ∀ x, x <:+ s → Q x → P x) : IsLongest Q s o ↔ IsLongest Q u o := by
  have hiff : ∀ x, Q x → (x <:+ s ↔ x <:+ u) := by
    intro x hx
    constructor
    · intro hs
      exact hu.2.2 x (h x hs hx) hs
    · intro hxu
      exact hxu.trans hu.2.1
  cases o with
  | none =>
    constructor
    · intro hs x hxu hx
      exact hs x ((hiff x hx).mpr hxu) hx
    · intro hs x hxs hx
      exact hs x ((hiff x hx).mp hxs) hx
  | some y =>
    constructor
    · intro hs
      exact ⟨hs.1, (hiff y hs.1).mp hs.2.1, fun x hx hxu => hs.2.2 x hx ((hiff x hx).mpr hxu)⟩
    · intro hs
      exact ⟨hs.1, (hiff y hs.1).mpr hs.2.1, fun x hx hxs => hs.2.2 x hx ((hiff x hx).mp hxs)⟩

theorem IsLongest.search_none (hnone : IsLongest P s none) (h : ∀ x, x <:+ s → Q x → P x) :
    IsLongest Q s none :=
  fun x hx hQ => hnone x hx (h x hx hQ)

theorem IsFailure.step {w u : List α} (hu : IsFailure P w (some u)) (h : ∀ x, Q x → P x)
    (hw : ¬Q w) : IsLongest Q w o ↔ IsLongest Q u o := by
  apply hu.search
  intro x _ hx
  refine ⟨h x hx, ?_⟩
  rintro rfl
  exact hw hx

theorem IsFailure.stop {w : List α} (hw : IsFailure P w none) (h : ∀ x, Q x → P x)
    (hQ : ¬Q w) : IsLongest Q w none := by
  apply hw.search_none
  intro x _ hx
  refine ⟨h x hx, ?_⟩
  rintro rfl
  exact hQ hx

theorem IsFailure.length_lt {w u : List α} (hu : IsFailure P w (some u)) :
    u.length < w.length := by
  have hle := hu.2.1.length_le
  by_contra hge
  exact hu.1.2 (hu.2.1.eq_of_length_le (by omega))

theorem IsLongest.concat (h : IsLongest (fun x => P (x ++ [a])) s o) (hnil : ¬P []) :
    IsLongest P (s ++ [a]) (o.map (· ++ [a])) := by
  have hcases : ∀ x, P x → x <:+ s ++ [a] → ∃ y, x = y ++ [a] ∧ y <:+ s := by
    intro x hx hs
    rcases List.suffix_concat_iff.mp hs with rfl | hy
    · exact absurd hx hnil
    · exact hy
  cases o with
  | none =>
    intro x hs hx
    obtain ⟨y, rfl, hy⟩ := hcases x hx hs
    exact h y hy hx
  | some u =>
    refine ⟨h.1, List.suffix_concat_iff.mpr (Or.inr ⟨u, rfl, h.2.1⟩), ?_⟩
    intro x hx hs
    obtain ⟨y, rfl, hy⟩ := hcases x hx hs
    exact List.suffix_concat_iff.mpr (Or.inr ⟨y, rfl, h.2.2 y hx hy⟩)

theorem IsLongest.concat_nil (h : IsLongest (fun x => P (x ++ [a])) s o) (hnil : P []) :
    IsLongest P (s ++ [a]) (some ((o.map (· ++ [a])).getD [])) := by
  have h' : IsLongest (fun x => P x ∧ x ≠ []) (s ++ [a]) (o.map (· ++ [a])) := by
    apply IsLongest.concat
    · exact (isLongest_congr fun x _ => by simp).mp h
    · simp
  cases o with
  | none =>
    refine ⟨hnil, List.nil_suffix, ?_⟩
    intro x hx hs
    by_cases hxnil : x = []
    · rw [hxnil]
      exact List.nil_suffix
    · exact absurd ⟨hx, hxnil⟩ (h' x hs)
  | some u =>
    refine ⟨h'.1.1, h'.2.1, ?_⟩
    intro x hx hs
    by_cases hxnil : x = []
    · rw [hxnil]
      exact List.nil_suffix
    · exact h'.2.2 x ⟨hx, hxnil⟩ hs

end LongestSuffix
