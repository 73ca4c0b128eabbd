import Mathlib.Data.List.Induction
import Mathlib.Order.Basic
import Mathlib.Logic.Function.Iterate
/-! # Removal by swapping

Elements are taken out of an array by moving those behind them forward, one swap at a time, and
dropping the end of the array. The ones that stay keep their order. -/

namespace SwapRemoval
variable {α : Type*}

/-- `SwapElements`. -/
def swapElements (l : List α) (i j : ℕ) : List α :=
  match l[i]?, l[j]? with
  | some a, some b => (l.set i b).set j a
  | _, _ => l

theorem swapElements_append (kept gap rest : List α) (a b : α) :
    swapElements (kept ++ a :: gap ++ b :: rest) kept.length (kept.length + gap.length + 1) =
      kept ++ b :: gap ++ a :: rest := by
  have ha : (kept ++ a :: gap ++ b :: rest)[kept.length]? = some a := by simp
  have hlen : (kept ++ a :: gap).length = kept.length + gap.length + 1 := by simp [Nat.add_assoc]
  have hb : (kept ++ a :: gap ++ b :: rest)[kept.length + gap.length + 1]? = some b := by
    rw [← hlen, List.getElem?_append_right (Nat.le_refl _), Nat.sub_self]
    rfl
  simp only [swapElements, ha, hb]
  have hfirst : (kept ++ a :: gap ++ b :: rest).set kept.length b =
      kept ++ b :: gap ++ b :: rest := by
    rw [List.append_assoc, List.set_append_right _ _ (Nat.le_refl _), Nat.sub_self]
    simp
  have hlen' : (kept ++ b :: gap).length = kept.length + gap.length + 1 := by simp [Nat.add_assoc]
  rw [hfirst, ← hlen', List.set_append_right _ _ (Nat.le_refl _), Nat.sub_self]
  simp

/-- The array, the first place to be filled, and the first element not yet looked at. -/
structure Cursor (α : Type*) where
  items : List α
  free : ℕ
  cur : ℕ

/-- Move `n` elements forward. -/
def moveUp : ℕ → Cursor α → Cursor α
  | 0, s => s
  | n + 1, s => moveUp n ⟨swapElements s.items s.free s.cur, s.free + 1, s.cur + 1⟩

/-- Move the elements before the next removed one forward, and pass that one. -/
def removeStep (s : Cursor α) (stop : ℕ) : Cursor α :=
  { moveUp (stop - s.cur) s with cur := stop + 1 }

/-- Remove the elements at ascending places; the length of the array is the last stop. -/
def removeIndexes (indexes : List ℕ) (l : List α) : List α :=
  match indexes ++ [l.length] with
  | [] => l
  | first :: stops =>
    List.dropLast^[indexes.length] (stops.foldl removeStep ⟨l, first, first + 1⟩).items

/-- The places of the elements that `p` rejects, from `k` on. -/
def rejected (p : α → Bool) (k : ℕ) (l : List α) : List ℕ :=
  ((l.zipIdx k).filter fun a => !p a.1).map (·.2)

theorem rejected_cons (p : α → Bool) (k : ℕ) (a : α) (l : List α) :
    rejected p k (a :: l) = if p a then rejected p (k + 1) l else k :: rejected p (k + 1) l := by
  simp only [rejected, List.zipIdx_cons]
  cases h : p a <;> simp [h]

theorem length_rejected (p : α → Bool) (k : ℕ) (l : List α) :
    (rejected p k l).length = l.countP fun a => !p a := by
  induction l generalizing k with
  | nil => rfl
  | cons a l ih =>
    rw [rejected_cons]
    cases h : p a <;> simp [h, ih]

theorem le_of_mem_rejected {p : α → Bool} {k i : ℕ} {l : List α} (h : i ∈ rejected p k l) :
    k ≤ i := by
  obtain ⟨a, ha, rfl⟩ := List.mem_map.mp h
  exact (List.mem_zipIdx (List.mem_filter.mp ha).1).1

theorem removeStep_of_lt {s : Cursor α} {stop : ℕ} (h : s.cur < stop) :
    removeStep s stop =
      removeStep ⟨swapElements s.items s.free s.cur, s.free + 1, s.cur + 1⟩ stop := by
  obtain ⟨n, rfl⟩ : ∃ n, stop = s.cur + (n + 1) := ⟨stop - s.cur - 1, by omega⟩
  have h1 : s.cur + (n + 1) - s.cur = n + 1 := by omega
  have h2 : s.cur + (n + 1) - (s.cur + 1) = n := by omega
  simp only [removeStep, h1, h2, moveUp]

theorem foldl_removeStep (p : α → Bool) (rest kept : List α) (a : α) (gap : List α) :
    ∃ gap', ((rejected p (kept.length + gap.length + 1) rest ++
        [kept.length + gap.length + 1 + rest.length]).foldl removeStep
          ⟨kept ++ a :: gap ++ rest, kept.length, kept.length + gap.length + 1⟩).items =
        kept ++ rest.filter p ++ gap' ∧
      gap'.length = gap.length + 1 + rest.countP fun a => !p a := by
  induction rest generalizing kept a gap with
  | nil => exact ⟨a :: gap, by simp [rejected, removeStep, moveUp], by simp⟩
  | cons b rest ih =>
    rw [rejected_cons]
    have hend : kept.length + gap.length + 1 + (b :: rest).length =
        kept.length + gap.length + 1 + 1 + rest.length := by
      rw [List.length_cons]
      omega
    rw [hend]
    by_cases hb : p b
    · -- `b` takes the place of the first removed element, which goes behind the others
      have hmove : ∀ stops : List ℕ, stops ≠ [] →
          (∀ stop ∈ stops, kept.length + gap.length + 1 < stop) →
          stops.foldl removeStep
            ⟨kept ++ a :: gap ++ b :: rest, kept.length, kept.length + gap.length + 1⟩ =
          stops.foldl removeStep
            ⟨kept ++ b :: gap ++ a :: rest, kept.length + 1, kept.length + gap.length + 1 + 1⟩ := by
        intro stops hne hlt
        cases stops with
        | nil => exact absurd rfl hne
        | cons stop stops =>
          rw [List.foldl_cons, List.foldl_cons]
          congr 1
          rw [removeStep_of_lt (hlt stop List.mem_cons_self), swapElements_append]
      rw [if_pos hb, hmove _ (by simp)]
      · cases gap with
        | nil =>
          obtain ⟨gap', hitems, hlen⟩ := ih (kept ++ [b]) a []
          refine ⟨gap', ?_, ?_⟩
          · simpa [hb, Nat.add_assoc] using hitems
          · simpa [hb] using hlen
        | cons c gap =>
          obtain ⟨gap', hitems, hlen⟩ := ih (kept ++ [b]) c (gap ++ [a])
          refine ⟨gap', ?_, ?_⟩
          · simpa [hb, Nat.add_assoc, Nat.add_comm, Nat.add_left_comm] using hitems
          · simpa [hb, Nat.add_assoc] using hlen
      · intro stop hstop
        rcases List.mem_append.mp hstop with hstop | hstop
        · have := le_of_mem_rejected hstop
          omega
        · rw [List.mem_singleton.mp hstop]
          omega
    · rw [if_neg hb, List.cons_append, List.foldl_cons]
      have hpass : removeStep ⟨kept ++ a :: gap ++ b :: rest, kept.length,
          kept.length + gap.length + 1⟩ (kept.length + gap.length + 1) =
          ⟨kept ++ a :: (gap ++ [b]) ++ rest, kept.length,
            kept.length + (gap ++ [b]).length + 1⟩ := by
        simp [removeStep, moveUp, Nat.add_assoc]
      obtain ⟨gap', hitems, hlen⟩ := ih kept a (gap ++ [b])
      refine ⟨gap', ?_, ?_⟩
      · rw [hpass]
        simpa [hb, Nat.add_assoc] using hitems
      · rw [hlen]
        simp [hb]
        omega

theorem iterate_dropLast_append (l gap : List α) : List.dropLast^[gap.length] (l ++ gap) = l := by
  induction gap using List.reverseRecOn with
  | nil => simp
  | append_singleton gap a ih =>
    rw [List.length_append, List.length_singleton, Function.iterate_succ_apply,
      ← List.append_assoc, List.dropLast_concat, ih]

theorem rejected_append {p : α → Bool} {kept : List α} (hk : ∀ a ∈ kept, p a = true) (k : ℕ)
    (rest : List α) : rejected p k (kept ++ rest) = rejected p (k + kept.length) rest := by
  induction kept generalizing k with
  | nil => rfl
  | cons a kept ih =>
    rw [List.cons_append, rejected_cons, if_pos (hk a List.mem_cons_self),
      ih fun b hb => hk b (List.mem_cons_of_mem a hb)]
    rw [List.length_cons, Nat.add_assoc, Nat.add_comm 1]

/-- The elements that are not rejected stay, in their order. -/
theorem removeIndexes_rejected (p : α → Bool) (l : List α) :
    removeIndexes (rejected p 0 l) l = l.filter p := by
  cases hfind : l.find? fun a => !p a with
  | none =>
    have hall : ∀ a ∈ l, p a = true := by
      simpa using List.find?_eq_none.mp hfind
    have hnone : rejected p 0 l = [] := by
      simpa [rejected] using rejected_append hall 0 []
    rw [hnone, List.filter_eq_self.mpr hall]
    rfl
  | some b =>
    obtain ⟨hb, kept, rest, rfl, hk⟩ := List.find?_eq_some_iff_append.mp hfind
    have hkept : ∀ a ∈ kept, p a = true := by simpa using hk
    have hrejected : rejected p 0 (kept ++ b :: rest) =
        kept.length :: rejected p (kept.length + 1) rest := by
      rw [rejected_append hkept, rejected_cons, Nat.zero_add]
      simp only [Bool.not_eq_true'] at hb
      simp [hb]
    obtain ⟨gap, hitems, hlen⟩ := foldl_removeStep p rest kept b []
    have hstop : (kept ++ b :: rest).length = kept.length + ([] : List α).length + 1 +
        rest.length := by
      simp only [List.length_append, List.length_cons, List.length_nil]
      omega
    have hfilter : (kept ++ b :: rest).filter p = kept ++ rest.filter p := by
      simp only [Bool.not_eq_true'] at hb
      simp [hb, List.filter_eq_self.mpr hkept]
    rw [hrejected, hfilter, removeIndexes]
    have hcount : (kept.length :: rejected p (kept.length + 1) rest).length = gap.length := by
      rw [List.length_cons, length_rejected, hlen, List.length_nil]
      omega
    rw [hcount, hstop]
    simp only [List.cons_append]
    have hsame : kept ++ b :: rest = kept ++ [b] ++ rest := by simp
    rw [hsame]
    rw [← iterate_dropLast_append (kept ++ rest.filter p) gap]
    exact congrArg _ hitems

end SwapRemoval
