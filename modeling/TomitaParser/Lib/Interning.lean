import Mathlib.Data.List.Nodup
import Mathlib.Data.List.Basic
/-! # Numbers for things that are told apart by a key

A thing gets the number of the first entry of a table with the same key, and a new entry if there is
none. Two things have one number exactly when they have one key. -/

namespace Interning
variable {α κ : Type*}

/-- The number of `a`, and the table after it. A new entry is `stored a`. -/
def intern [DecidableEq κ] (key : α → κ) (stored : α → α) (table : List α) (a : α) : ℕ × List α :=
  match table.findIdx? fun b => key b = key a with
  | some n => (n, table)
  | none => (table.length, table ++ [stored a])

/-- No two entries of the table have one key. -/
def Distinct (key : α → κ) (table : List α) : Prop := (table.map key).Nodup

/-- The entry with the number `n` has the key of `a`. -/
def Numbered (key : α → κ) (table : List α) (n : ℕ) (a : α) : Prop :=
  (table.map key)[n]? = some (key a)

variable {key : α → κ} {stored : α → α} {table : List α}

theorem number_eq_iff (h : Distinct key table) {n m : ℕ} {a b : α} (hn : Numbered key table n a)
    (hm : Numbered key table m b) : n = m ↔ key a = key b := by
  constructor
  · rintro rfl
    exact Option.some.inj (hn.symm.trans hm)
  · intro hkey
    rw [Numbered, ← hkey] at hm
    have hlen : n < (table.map key).length := (List.getElem?_eq_some_iff.mp hn).1
    exact (List.getElem?_inj hlen h).mp (hn.trans hm.symm)

theorem intern_spec [DecidableEq κ] (hstored : ∀ a, key (stored a) = key a)
    (h : Distinct key table) (a : α) :
    Distinct key (intern key stored table a).2 ∧
    Numbered key (intern key stored table a).2 (intern key stored table a).1 a ∧
    table.map key <+: (intern key stored table a).2.map key := by
  rw [intern]
  cases hfind : table.findIdx? fun b => key b = key a with
  | some n =>
    obtain ⟨hn, hkey, -⟩ := List.findIdx?_eq_some_iff_getElem.mp hfind
    refine ⟨h, ?_, List.prefix_rfl⟩
    rw [Numbered, List.getElem?_map, List.getElem?_eq_getElem hn]
    exact congrArg some (by simpa using hkey)
  | none =>
    have hno : key a ∉ table.map key := by
      intro hmem
      obtain ⟨b, hb, heq⟩ := List.mem_map.mp hmem
      have := List.findIdx?_eq_none_iff.mp hfind b hb
      simp [heq] at this
    refine ⟨?_, ?_, ?_⟩
    · rw [Distinct, List.map_append]
      apply List.nodup_append.mpr
      refine ⟨h, List.nodup_singleton _, ?_⟩
      intro x hx y hy heq
      rw [List.map_singleton, List.mem_singleton] at hy
      rw [heq, hy, hstored] at hx
      exact hno hx
    · rw [Numbered, List.map_append, List.getElem?_append_right (by simp)]
      simp [hstored]
    · rw [List.map_append]
      exact List.prefix_append _ _

theorem Numbered.mono {table' : List α} {n : ℕ} {a : α} (h : Numbered key table n a)
    (hpre : table.map key <+: table'.map key) : Numbered key table' n a := by
  obtain ⟨rest, hrest⟩ := hpre
  have hlen : n < (table.map key).length := (List.getElem?_eq_some_iff.mp h).1
  rw [Numbered, ← hrest, List.getElem?_append_left hlen]
  exact h

end Interning
