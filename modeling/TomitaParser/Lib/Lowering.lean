import Mathlib.Logic.Function.Basic
import Mathlib.Data.Nat.Lattice
import Mathlib.Order.Lattice
import Mathlib.Tactic.Tauto
/-! # Limits passed down in place

Every node lowers the limits of the nodes below it to its own, which may have been lowered before.
Where the nodes below are closed under going further down, the order does not matter. -/

namespace Lowering
variable {ι : Type*} [DecidableEq ι]

/-- The limit of one node lowered to that of another. -/
def lowerOne (parent : ι) (limit : ι → ℕ) (child : ι) : ι → ℕ :=
  Function.update limit child (min (limit child) (limit parent))

/-- The limits of the nodes below one node lowered. -/
def lowerBelow (below : ι → List ι) (limit : ι → ℕ) (parent : ι) : ι → ℕ :=
  (below parent).foldl (lowerOne parent) limit

def lower (below : ι → List ι) (parents : List ι) (limit : ι → ℕ) : ι → ℕ :=
  parents.foldl (lowerBelow below) limit

theorem lowerOne_apply (parent child s : ι) (limit : ι → ℕ) :
    lowerOne parent limit child s =
      if s = child then min (limit s) (limit parent) else limit s := by
  rw [lowerOne, Function.update_apply]
  by_cases hs : s = child
  · rw [if_pos hs, if_pos hs, hs]
  · rw [if_neg hs, if_neg hs]

theorem lowerOne_self (parent child : ι) (limit : ι → ℕ) :
    lowerOne parent limit child parent = limit parent := by
  rw [lowerOne_apply, min_self, ite_self]

theorem foldl_lowerOne (parent s : ι) (children : List ι) (limit : ι → ℕ) :
    children.foldl (lowerOne parent) limit s =
      if s ∈ children then min (limit s) (limit parent) else limit s := by
  induction children generalizing limit with
  | nil => simp
  | cons child children ih =>
    rw [List.foldl_cons, ih, lowerOne_self, lowerOne_apply]
    by_cases hs : s = child
    · simp [hs]
    · simp [hs]

/-- The limit of a node is in the end the least of its own and those of the nodes above it. -/
theorem le_lower_iff {below : ι → List ι}
    (htrans : ∀ p q s, q ∈ below p → s ∈ below q → s ∈ below p) (parents : List ι)
    (limit : ι → ℕ) (s : ι) (w : ℕ) (habove : ∀ p, s ∈ below p → p ∈ parents) :
    w ≤ lower below parents limit s ↔ w ≤ limit s ∧ ∀ p, s ∈ below p → w ≤ limit p := by
  have hstep : ∀ (ps : List ι) (cur : ι → ℕ) (done : List ι),
      (∀ t, (∀ v, (v ≤ limit t ∧ ∀ p, t ∈ below p → v ≤ limit p) → v ≤ cur t) ∧
        cur t ≤ limit t ∧ ∀ p ∈ done, t ∈ below p → cur t ≤ limit p) →
      ∀ t, (∀ v, (v ≤ limit t ∧ ∀ p, t ∈ below p → v ≤ limit p) →
          v ≤ ps.foldl (lowerBelow below) cur t) ∧
        ps.foldl (lowerBelow below) cur t ≤ limit t ∧
        ∀ p ∈ ps ++ done, t ∈ below p → ps.foldl (lowerBelow below) cur t ≤ limit p := by
    intro ps
    induction ps with
    | nil => exact fun _ _ h => h
    | cons q ps ih =>
      intro cur done h t
      have hnext : ∀ t, (∀ v, (v ≤ limit t ∧ ∀ p, t ∈ below p → v ≤ limit p) →
            v ≤ lowerBelow below cur q t) ∧
          lowerBelow below cur q t ≤ limit t ∧
          ∀ p ∈ q :: done, t ∈ below p → lowerBelow below cur q t ≤ limit p := by
        intro t
        obtain ⟨hge, hle, hdone⟩ := h t
        rw [lowerBelow, foldl_lowerOne]
        by_cases ht : t ∈ below q
        · rw [if_pos ht]
          refine ⟨?_, (min_le_left _ _).trans hle, ?_⟩
          · -- what the nodes above `q` allow they allow below it
            intro v hv
            apply le_min (hge v hv)
            apply (h q).1 v
            exact ⟨hv.2 q ht, fun p hp => hv.2 p (htrans p q t hp ht)⟩
          · intro p hp htp
            rcases List.mem_cons.mp hp with rfl | hp
            · exact (min_le_right _ _).trans (h p).2.1
            · exact (min_le_left _ _).trans (hdone p hp htp)
        · rw [if_neg ht]
          refine ⟨hge, hle, ?_⟩
          intro p hp htp
          rcases List.mem_cons.mp hp with rfl | hp
          · exact absurd htp ht
          · exact hdone p hp htp
      obtain ⟨hge, hle, hdone⟩ := ih (lowerBelow below cur q) (q :: done) hnext t
      refine ⟨hge, hle, ?_⟩
      intro p hp htp
      apply hdone p _ htp
      simp only [List.cons_append, List.mem_cons, List.mem_append] at hp ⊢
      tauto
  obtain ⟨hge, hle, hdone⟩ := hstep parents limit [] (fun t =>
    ⟨fun v hv => hv.1, le_rfl, fun p hp => absurd hp List.not_mem_nil⟩) s
  constructor
  · intro hw
    refine ⟨hw.trans hle, ?_⟩
    intro p hp
    exact hw.trans (hdone p (List.mem_append_left [] (habove p hp)) hp)
  · intro hw
    exact hge w hw

end Lowering
