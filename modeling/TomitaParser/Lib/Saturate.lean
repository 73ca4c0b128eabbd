import Mathlib.Data.Finset.Card
import Mathlib.Data.Finset.Prod
import TomitaParser.Lib.Loop
import TomitaParser.Lib.OrderedSet
/-! # Saturating a family of sets

A family of ordered sets grows under insertion commands that read the family itself. Passes over
the commands are repeated until one inserts nothing; then every command is satisfied. -/

namespace Saturation
open LoopRun OrderedSet

variable {α : Type*}

/-- The sets of the family, by index. -/
abbrev Family (α : Type*) := List (List α)

def Family.get (F : Family α) (i : ℕ) : List α := F.getD i []

/-- Insert into the `i`-th set. -/
def Family.add (lt : α → α → Bool) (F : Family α) (i : ℕ) (a : α) : Family α :=
  F.modify i (insertBy lt a)

/-- Insert into the set `target` everything `source` finds in the family. -/
structure Command (α : Type*) where
  target : ℕ
  source : Family α → List α

section Run
variable [DecidableEq α] (lt : α → α → Bool)

/-- Insert one element and raise the flag when it was not there. -/
def insertNew (i : ℕ) (s : Family α × Bool) (a : α) : Family α × Bool :=
  if a ∈ s.1.get i then s else (s.1.add lt i a, true)

def Command.run (s : Family α × Bool) (c : Command α) : Family α × Bool :=
  (c.source s.1).foldl (insertNew lt c.target) s

def pass (cmds : List (Command α)) (F : Family α) : Family α × Bool :=
  cmds.foldl (Command.run lt) (F, false)

def passStep (cmds : List (Command α)) (F : Family α) : LoopStep (Family α) Bool :=
  if (pass lt cmds F).2 then .next (pass lt cmds F).1 else .exit true (pass lt cmds F).1

/-- Repeat the passes; the first component says that the last one changed nothing. -/
def saturate (cmds : List (Command α)) (fuel : ℕ) (F : Family α) : Bool × Family α :=
  runLoop (passStep lt cmds) false fuel F

end Run

variable [DecidableEq α] {lt : α → α → Bool}

omit [DecidableEq α] in
@[simp] theorem length_add (F : Family α) (i : ℕ) (a : α) : (F.add lt i a).length = F.length :=
  List.length_modify ..

omit [DecidableEq α] in
theorem get_add (F : Family α) {i : ℕ} (hi : i < F.length) (a : α) (j : ℕ) :
    (F.add lt i a).get j = if j = i then insertBy lt a (F.get i) else F.get j := by
  simp only [Family.add, Family.get, List.getD_eq_getElem?_getD, List.getElem?_modify]
  by_cases h : i = j
  · subst h
    simp [hi]
  · simp [h, Ne.symm h]

/-- The comparator tells apart any two elements. -/
def Separates (lt : α → α → Bool) : Prop := ∀ a b, Equivalent lt a b → b = a

omit [DecidableEq α] in
theorem mem_get_add (hlt : Separates lt) (F : Family α) {i : ℕ} (hi : i < F.length) (a : α) (j : ℕ)
    (x : α) : x ∈ (F.add lt i a).get j ↔ (j = i ∧ x = a) ∨ x ∈ F.get j := by
  rw [get_add F hi]
  by_cases h : j = i
  · subst h
    rw [if_pos rfl, mem_insertBy fun b _ => hlt a b]
    simp
  · simp [h]

/-- Insertions only add, and the flag records whether they did. -/
structure Grows (s t : Family α × Bool) : Prop where
  length : t.1.length = s.1.length
  mem : ∀ j x, x ∈ s.1.get j → x ∈ t.1.get j
  flag : t.2 = false → t = s
  new : t.2 = true → s.2 = false → ∃ j x, j < s.1.length ∧ x ∉ s.1.get j ∧ x ∈ t.1.get j

omit [DecidableEq α] in
theorem Grows.refl (s : Family α × Bool) : Grows s s := by
  refine ⟨rfl, fun _ _ h => h, fun _ => rfl, ?_⟩
  intro h h'
  rw [h] at h'
  cases h'

omit [DecidableEq α] in
theorem Grows.trans {s t u : Family α × Bool} (h₁ : Grows s t) (h₂ : Grows t u) : Grows s u := by
  refine ⟨h₂.length.trans h₁.length, fun j x h => h₂.mem j x (h₁.mem j x h), ?_, ?_⟩
  · intro h
    have htu := h₂.flag h
    rw [htu] at h ⊢
    exact h₁.flag h
  · intro hu hs
    cases ht : t.2 with
    | true =>
      obtain ⟨j, x, hj, hx, hx'⟩ := h₁.new ht hs
      exact ⟨j, x, hj, hx, h₂.mem j x hx'⟩
    | false =>
      obtain ⟨j, x, hj, hx, hx'⟩ := h₂.new hu ht
      rw [h₁.flag ht] at hj hx
      exact ⟨j, x, hj, hx, hx'⟩

section Insert
variable (hlt : Separates lt)
include hlt

theorem insertNew_grows {i : ℕ} {s : Family α × Bool} (hi : i < s.1.length) (a : α) :
    Grows s (insertNew lt i s a) := by
  unfold insertNew
  by_cases h : a ∈ s.1.get i
  · rw [if_pos h]
    exact Grows.refl s
  · rw [if_neg h]
    refine ⟨by simp, fun j x hx => (mem_get_add hlt s.1 hi a j x).mpr (Or.inr hx), by simp, ?_⟩
    intro _ _
    exact ⟨i, a, hi, h, (mem_get_add hlt s.1 hi a i a).mpr (Or.inl ⟨rfl, rfl⟩)⟩

theorem foldl_insertNew_grows {i : ℕ} {s : Family α × Bool} (hi : i < s.1.length) (as : List α) :
    Grows s (as.foldl (insertNew lt i) s) := by
  induction as generalizing s with
  | nil => exact Grows.refl s
  | cons a as ih =>
    have h := insertNew_grows hlt hi a
    exact h.trans (ih (by rw [h.length]; exact hi))

theorem mem_foldl_insertNew {i : ℕ} {s : Family α × Bool} (hi : i < s.1.length) (as : List α) :
    ∀ a ∈ as, a ∈ (as.foldl (insertNew lt i) s).1.get i := by
  induction as generalizing s with
  | nil => simp
  | cons a as ih =>
    have h := insertNew_grows hlt hi a
    have hi' : i < (insertNew lt i s a).1.length := by rw [h.length]; exact hi
    intro b hb
    rcases List.mem_cons.mp hb with rfl | hb
    · refine (foldl_insertNew_grows hlt hi' as).mem i b ?_
      unfold insertNew
      by_cases hm : b ∈ s.1.get i
      · rwa [if_pos hm]
      · rw [if_neg hm]
        exact (mem_get_add hlt s.1 hi b i b).mpr (Or.inl ⟨rfl, rfl⟩)
    · exact ih hi' b hb

theorem forall_foldl_insertNew {Q : α → Prop} {i : ℕ} {s : Family α × Bool} (hi : i < s.1.length)
    {as : List α} (has : ∀ a ∈ as, Q a) (hs : ∀ j, ∀ x ∈ s.1.get j, Q x) :
    ∀ j, ∀ x ∈ (as.foldl (insertNew lt i) s).1.get j, Q x := by
  induction as generalizing s with
  | nil => exact hs
  | cons a as ih =>
    have h := insertNew_grows hlt hi a
    refine ih (by rw [h.length]; exact hi) (fun b hb => has b (List.mem_cons_of_mem a hb)) ?_
    intro j x hx
    unfold insertNew at hx
    split_ifs at hx with hm
    · exact hs j x hx
    · rcases (mem_get_add hlt s.1 hi a j x).mp hx with ⟨_, rfl⟩ | hx
      · exact has x List.mem_cons_self
      · exact hs j x hx

end Insert

/-- The commands stay inside a family of `n` sets with elements in `U`. -/
structure Bounded (n : ℕ) (U : Finset α) (cmds : List (Command α)) : Prop where
  target : ∀ c ∈ cmds, c.target < n
  source : ∀ c ∈ cmds, ∀ F : Family α, (∀ j, ∀ x ∈ F.get j, x ∈ U) → ∀ x ∈ c.source F, x ∈ U

/-- Every command is satisfied. -/
def Closed (cmds : List (Command α)) (F : Family α) : Prop :=
  ∀ c ∈ cmds, ∀ a ∈ c.source F, a ∈ F.get c.target

variable {n : ℕ} {U : Finset α} {cmds : List (Command α)}

omit [DecidableEq α] in
theorem Bounded.tail {c : Command α} (h : Bounded n U (c :: cmds)) : Bounded n U cmds :=
  ⟨fun d hd => h.target d (List.mem_cons_of_mem c hd),
    fun d hd => h.source d (List.mem_cons_of_mem c hd)⟩

theorem foldl_run_grows (hlt : Separates lt) (h : Bounded n U cmds) {s : Family α × Bool}
    (hn : s.1.length = n) : Grows s (cmds.foldl (Command.run lt) s) := by
  induction cmds generalizing s with
  | nil => exact Grows.refl s
  | cons c cmds ih =>
    have hc : c.target < s.1.length := hn ▸ h.target c List.mem_cons_self
    have hg : Grows s (Command.run lt s c) := foldl_insertNew_grows hlt hc _
    exact hg.trans (ih h.tail (hg.length.trans hn))

theorem foldl_run_closed (hlt : Separates lt) (h : Bounded n U cmds) {s : Family α × Bool}
    (hn : s.1.length = n) (hflag : (cmds.foldl (Command.run lt) s).2 = false) :
    Closed cmds s.1 := by
  induction cmds generalizing s with
  | nil => exact fun c hc => absurd hc List.not_mem_nil
  | cons c cmds ih =>
    have hc : c.target < s.1.length := hn ▸ h.target c List.mem_cons_self
    have hg : Grows s (Command.run lt s c) := foldl_insertNew_grows hlt hc _
    have hrest := foldl_run_grows hlt h.tail (hg.length.trans hn)
    have heq : Command.run lt s c = s := by
      refine hg.flag ?_
      rw [← hrest.flag hflag]
      exact hflag
    intro d hd a ha
    rcases List.mem_cons.mp hd with rfl | hd
    · have := mem_foldl_insertNew hlt hc (d.source s.1) a ha
      rwa [show List.foldl (insertNew lt d.target) s (d.source s.1) = s from heq] at this
    · have := ih h.tail (hg.length.trans hn) hflag
      rw [heq] at this
      exact this d hd a ha

theorem foldl_run_mem (hlt : Separates lt) (h : Bounded n U cmds) {s : Family α × Bool}
    (hn : s.1.length = n) (hs : ∀ j, ∀ x ∈ s.1.get j, x ∈ U) :
    ∀ j, ∀ x ∈ (cmds.foldl (Command.run lt) s).1.get j, x ∈ U := by
  induction cmds generalizing s with
  | nil => exact hs
  | cons c cmds ih =>
    have hc : c.target < s.1.length := hn ▸ h.target c List.mem_cons_self
    have hg : Grows s (Command.run lt s c) := foldl_insertNew_grows hlt hc _
    refine ih h.tail (hg.length.trans hn) ?_
    exact forall_foldl_insertNew hlt hc (h.source c List.mem_cons_self s.1 hs) hs

/-- The pairs a family may still gain. -/
def missing (n : ℕ) (U : Finset α) (F : Family α) : Finset (ℕ × α) :=
  (Finset.range n ×ˢ U).filter fun p => p.2 ∉ F.get p.1

theorem card_missing_le (n : ℕ) (U : Finset α) (F : Family α) :
    (missing n U F).card ≤ n * U.card := by
  refine (Finset.card_filter_le _ _).trans ?_
  rw [Finset.card_product, Finset.card_range]

theorem card_missing_lt (hlt : Separates lt) (h : Bounded n U cmds) {F : Family α}
    (hn : F.length = n) (hF : ∀ j, ∀ x ∈ F.get j, x ∈ U) (hflag : (pass lt cmds F).2 = true) :
    (missing n U (pass lt cmds F).1).card < (missing n U F).card := by
  have hg : Grows (F, false) (pass lt cmds F) := foldl_run_grows hlt h hn
  obtain ⟨j, x, hj, hx, hx'⟩ := hg.new hflag rfl
  have hxU : x ∈ U := foldl_run_mem hlt h hn hF j x hx'
  refine Finset.card_lt_card ⟨?_, ?_⟩
  · intro p hp
    simp only [missing, Finset.mem_filter] at hp ⊢
    exact ⟨hp.1, fun hm => hp.2 (hg.mem _ _ hm)⟩
  · intro hsub
    have hmem : (j, x) ∈ missing n U F := by
      simp only [missing, Finset.mem_filter, Finset.mem_product, Finset.mem_range]
      exact ⟨⟨by rw [← hn]; exact hj, hxU⟩, hx⟩
    have := hsub hmem
    simp only [missing, Finset.mem_filter] at this
    exact this.2 hx'

/-- What holds when the passes end: they ended by themselves, and every command is satisfied. -/
structure Saturated (n : ℕ) (U : Finset α) (cmds : List (Command α)) (r : Bool × Family α) :
    Prop where
  done : r.1 = true
  length : r.2.length = n
  mem : ∀ j, ∀ x ∈ r.2.get j, x ∈ U
  closed : Closed cmds r.2

theorem saturate_saturated (hlt : Separates lt) (h : Bounded n U cmds) {F : Family α}
    (hn : F.length = n) (hF : ∀ j, ∀ x ∈ F.get j, x ∈ U) (fuel : ℕ) (hfuel : n * U.card < fuel) :
    Saturated n U cmds (saturate lt cmds fuel F) := by
  refine runLoop_post_of_measure (fun F => (missing n U F).card)
    (fun F => F.length = n ∧ ∀ j, ∀ x ∈ F.get j, x ∈ U) (fun b F => Saturated n U cmds (b, F)) ?_
    fuel F ⟨hn, hF⟩ ((card_missing_le n U F).trans_lt hfuel)
  rintro F ⟨hn, hF⟩
  have hg : Grows (F, false) (pass lt cmds F) := foldl_run_grows hlt h hn
  unfold passStep
  by_cases hflag : (pass lt cmds F).2 = true
  · rw [if_pos hflag]
    exact ⟨⟨hg.length.trans hn, foldl_run_mem hlt h hn hF⟩, card_missing_lt hlt h hn hF hflag⟩
  · rw [if_neg hflag]
    have hfalse : (pass lt cmds F).2 = false := by simpa using hflag
    have heq : pass lt cmds F = (F, false) := hg.flag hfalse
    rw [heq]
    exact ⟨rfl, hn, hF, foldl_run_closed hlt h hn hfalse⟩

/-- A set that is the target of no command stays as it was. -/
theorem saturate_get_of_ne {j : ℕ} (hj : ∀ c ∈ cmds, c.target ≠ j) (fuel : ℕ) (F : Family α) :
    (saturate lt cmds fuel F).2.get j = F.get j := by
  have hadd : ∀ (F : Family α) (i : ℕ) (a : α), i ≠ j → (F.add lt i a).get j = F.get j := by
    intro F i a hi
    simp [Family.add, Family.get, List.getD_eq_getElem?_getD, hi]
  have hinsert : ∀ (i : ℕ) (as : List α) (s : Family α × Bool), i ≠ j →
      (as.foldl (insertNew lt i) s).1.get j = s.1.get j := by
    intro i as s hi
    induction as generalizing s with
    | nil => rfl
    | cons a as ih =>
      rw [List.foldl_cons, ih, insertNew]
      split_ifs
      · rfl
      · exact hadd s.1 i a hi
  have hrun : ∀ s : Family α × Bool, (cmds.foldl (Command.run lt) s).1.get j = s.1.get j := by
    intro s
    induction cmds generalizing s with
    | nil => rfl
    | cons c cmds ih =>
      rw [List.foldl_cons, ih fun d hd => hj d (List.mem_cons_of_mem c hd)]
      exact hinsert c.target _ s (hj c List.mem_cons_self)
  refine runLoop_post (fun F' : Family α => F'.get j = F.get j)
    (fun (_ : Bool) F' => F'.get j = F.get j) ?_ (fun _ h => h) fuel F rfl
  intro F' hF'
  have hpass : (pass lt cmds F').1.get j = F.get j := (hrun (F', false)).trans hF'
  unfold passStep
  split_ifs
  · exact hpass
  · exact hpass

theorem saturate_mem (hlt : Separates lt) (h : Bounded n U cmds) {F : Family α}
    (hn : F.length = n) (fuel : ℕ) {j : ℕ} {x : α} (hx : x ∈ F.get j) :
    x ∈ (saturate lt cmds fuel F).2.get j := by
  have hloop : (saturate lt cmds fuel F).2.length = n ∧
      x ∈ (saturate lt cmds fuel F).2.get j := by
    apply runLoop_post (fun F' : Family α => F'.length = n ∧ x ∈ F'.get j)
      (fun (_ : Bool) F' => F'.length = n ∧ x ∈ F'.get j) ?_ (fun _ h => h) fuel F ⟨hn, hx⟩
    rintro F' ⟨hn', hx'⟩
    have hg : Grows (F', false) (pass lt cmds F') := foldl_run_grows hlt h hn'
    have hpass := And.intro (hg.length.trans hn') (hg.mem j x hx')
    unfold passStep
    split_ifs
    · exact hpass
    · exact hpass
  exact hloop.2

/-- What the commands keep of the elements of each set holds of all that is ever inserted. -/
theorem saturate_forall (hlt : Separates lt) {Q : ℕ → α → Prop}
    (hsource : ∀ c ∈ cmds, ∀ F : Family α, (∀ j, ∀ x ∈ F.get j, Q j x) →
      ∀ x ∈ c.source F, Q c.target x)
    (fuel : ℕ) {F : Family α} (hF : ∀ j, ∀ x ∈ F.get j, Q j x) :
    ∀ j, ∀ x ∈ (saturate lt cmds fuel F).2.get j, Q j x := by
  have hadd : ∀ (F : Family α) (i : ℕ) (a : α), Q i a → (∀ j, ∀ x ∈ F.get j, Q j x) →
      ∀ j, ∀ x ∈ (F.add lt i a).get j, Q j x := by
    intro F i a ha hF j x hx
    by_cases hi : i < F.length
    · rcases (mem_get_add hlt F hi a j x).mp hx with ⟨rfl, rfl⟩ | hx
      · exact ha
      · exact hF j x hx
    · rw [Family.add, List.modify_eq_self (not_lt.mp hi)] at hx
      exact hF j x hx
  have hinsert : ∀ (i : ℕ) (as : List α) (s : Family α × Bool), (∀ a ∈ as, Q i a) →
      (∀ j, ∀ x ∈ s.1.get j, Q j x) →
      ∀ j, ∀ x ∈ (as.foldl (insertNew lt i) s).1.get j, Q j x := by
    intro i as s has hs
    induction as generalizing s with
    | nil => exact hs
    | cons a as ih =>
      rw [List.foldl_cons]
      apply ih _ (fun b hb => has b (List.mem_cons_of_mem a hb))
      rw [insertNew]
      by_cases hmem : a ∈ s.1.get i
      · rw [if_pos hmem]
        exact hs
      · rw [if_neg hmem]
        exact hadd s.1 i a (has a List.mem_cons_self) hs
  have hrun : ∀ s : Family α × Bool, (∀ j, ∀ x ∈ s.1.get j, Q j x) →
      ∀ j, ∀ x ∈ (cmds.foldl (Command.run lt) s).1.get j, Q j x := by
    intro s hs
    induction cmds generalizing s with
    | nil => exact hs
    | cons c cmds ih =>
      rw [List.foldl_cons]
      apply ih (fun d hd => hsource d (List.mem_cons_of_mem c hd))
      exact hinsert c.target _ s (hsource c List.mem_cons_self s.1 hs) hs
  apply runLoop_post (fun F' : Family α => ∀ j, ∀ x ∈ F'.get j, Q j x)
    (fun (_ : Bool) F' => ∀ j, ∀ x ∈ F'.get j, Q j x) ?_ (fun _ h => h) fuel F hF
  intro F' hF'
  have hpass := hrun (F', false) hF'
  unfold passStep
  split_ifs
  · exact hpass
  · exact hpass

omit [DecidableEq α] in
theorem get_replicate_nil (n j : ℕ) : Family.get (List.replicate n ([] : List α)) j = [] := by
  simp only [Family.get, List.getD_eq_getElem?_getD, List.getElem?_replicate]
  split_ifs <;> rfl

theorem saturate_replicate_nil (hlt : Separates lt) (h : Bounded n U cmds) {fuel : ℕ}
    (hfuel : n * U.card < fuel) :
    Saturated n U cmds (saturate lt cmds fuel (List.replicate n [])) := by
  refine saturate_saturated hlt h List.length_replicate ?_ fuel hfuel
  intro j x hx
  rw [get_replicate_nil] at hx
  exact absurd hx List.not_mem_nil

end Saturation
