import Mathlib.Data.List.Basic
/-! # Tilings

Spans that follow each other without a gap and without overlap. A span goes from its first place up to
the place behind its last one. -/

namespace Tiling
variable {α : Type*} (span : α → ℕ × ℕ)

/-- The spans are not empty, the first begins at `lo`, each next one where the one before ends, and
the last ends at `hi`. -/
def Tiles : ℕ → List α → ℕ → Prop
  | lo, [], hi => lo = hi
  | lo, x :: xs, hi => (span x).1 = lo ∧ lo < (span x).2 ∧ Tiles (span x).2 xs hi

/-- The places of a span. -/
def places (x : α) : List ℕ := List.range' (span x).1 ((span x).2 - (span x).1)

variable {span}

theorem Tiles.le {lo hi : ℕ} {xs : List α} (h : Tiles span lo xs hi) : lo ≤ hi := by
  induction xs generalizing lo with
  | nil => exact Nat.le_of_eq h
  | cons x xs ih =>
    obtain ⟨-, hlt, hrest⟩ := h
    have := ih hrest
    omega

theorem tiles_append {lo hi : ℕ} {xs ys : List α} :
    Tiles span lo (xs ++ ys) hi ↔ ∃ mid, Tiles span lo xs mid ∧ Tiles span mid ys hi := by
  induction xs generalizing lo with
  | nil => simp [Tiles]
  | cons x xs ih =>
    rw [List.cons_append, Tiles, ih]
    constructor
    · rintro ⟨hfirst, hlt, mid, hxs, hys⟩
      exact ⟨mid, ⟨hfirst, hlt, hxs⟩, hys⟩
    · rintro ⟨mid, ⟨hfirst, hlt, hxs⟩, hys⟩
      exact ⟨hfirst, hlt, mid, hxs, hys⟩

theorem Tiles.bounds {lo hi : ℕ} {xs : List α} (h : Tiles span lo xs hi) {x : α} (hx : x ∈ xs) :
    lo ≤ (span x).1 ∧ (span x).1 < (span x).2 ∧ (span x).2 ≤ hi := by
  induction xs generalizing lo with
  | nil => cases hx
  | cons y ys ih =>
    obtain ⟨hfirst, hlt, hrest⟩ := h
    rcases List.mem_cons.mp hx with rfl | hx
    · exact ⟨Nat.le_of_eq hfirst.symm, by omega, hrest.le⟩
    · have := ih hrest hx
      omega

theorem Tiles.split {lo hi cut : ℕ} {xs : List α} (h : Tiles span lo xs hi) (hlo : lo ≤ cut)
    (hhi : cut ≤ hi) (hcut : ∀ x ∈ xs, ¬ ((span x).1 < cut ∧ cut < (span x).2)) :
    ∃ before after, xs = before ++ after ∧ Tiles span lo before cut ∧ Tiles span cut after hi := by
  induction xs generalizing lo with
  | nil =>
    have hlohi : lo = hi := h
    exact ⟨[], [], rfl, show lo = cut by omega, show cut = hi by omega⟩
  | cons x xs ih =>
    obtain ⟨hfirst, hlt, hrest⟩ := h
    by_cases heq : lo = cut
    · subst heq
      exact ⟨[], x :: xs, rfl, rfl, hfirst, hlt, hrest⟩
    · have hx := hcut x List.mem_cons_self
      obtain ⟨before, after, rfl, hbefore, hafter⟩ := ih hrest (by omega) fun y hy =>
        hcut y (List.mem_cons_of_mem x hy)
      exact ⟨x :: before, after, rfl, ⟨hfirst, hlt, hbefore⟩, hafter⟩

theorem Tiles.flatMap_places {lo hi : ℕ} {xs : List α} (h : Tiles span lo xs hi) :
    xs.flatMap (places span) = List.range' lo (hi - lo) := by
  induction xs generalizing lo with
  | nil => rw [show lo = hi from h, Nat.sub_self]; rfl
  | cons x xs ih =>
    obtain ⟨hfirst, hlt, hrest⟩ := h
    have hle := hrest.le
    rw [List.flatMap_cons, ih hrest, places, hfirst,
      show hi - lo = (span x).2 - lo + (hi - (span x).2) by omega, ← List.range'_append]
    congr 2
    omega

end Tiling
