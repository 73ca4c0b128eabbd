import Mathlib.Algebra.Group.Nat.Defs
import Mathlib.Data.List.Basic
/-! # Codecs

How a value is written to a stream of bytes and read back. Writing may fail, and what comes after a
value in the stream is left to be read. -/

/-- A number as a word of 32 bits holds it. -/
def ui32 (n : ℕ) : ℕ := n % 2 ^ 32

theorem ui32_of_lt {n : ℕ} (h : n < 2 ^ 32) : ui32 n = n := Nat.mod_eq_of_lt h

theorem ui32_lt (n : ℕ) : ui32 n < 2 ^ 32 := Nat.mod_lt n (by decide)

/-- A way to save and load the values of a type. The values that are `valid` are read back as they
were. -/
structure Codec (α : Type) where
  save : α → Option (List UInt8)
  load : List UInt8 → Option (α × List UInt8)
  valid : α → Prop
  load_save : ∀ x, valid x → ∃ bytes, save x = some bytes ∧
    ∀ rest, load (bytes ++ rest) = some (x, rest)

namespace Codec
variable {α β : Type}

/-- One byte. -/
def byte : Codec ℕ where
  save n := some [UInt8.ofNat n]
  load
    | b :: rest => some (b.toNat, rest)
    | [] => none
  valid n := n < 2 ^ 8
  load_save n hn := by
    refine ⟨_, rfl, fun rest => ?_⟩
    simp only [List.singleton_append, UInt8.toNat_ofNat', Nat.mod_eq_of_lt hn]

/-- A word of four bytes, the lowest first. Higher bits are lost. -/
def word : Codec ℕ where
  save n := some [UInt8.ofNat n, UInt8.ofNat (n / 2 ^ 8), UInt8.ofNat (n / 2 ^ 16),
    UInt8.ofNat (n / 2 ^ 24)]
  load
    | b₀ :: b₁ :: b₂ :: b₃ :: rest =>
      some (b₀.toNat + 2 ^ 8 * b₁.toNat + 2 ^ 16 * b₂.toNat + 2 ^ 24 * b₃.toNat, rest)
    | _ => none
  valid n := n < 2 ^ 32
  load_save n hn := by
    refine ⟨_, rfl, fun rest => ?_⟩
    simp only [List.cons_append, List.nil_append, UInt8.toNat_ofNat', Option.some.injEq,
      Prod.mk.injEq, and_true]
    omega

/-- One value after the other. -/
def pair (a : Codec α) (b : Codec β) : Codec (α × β) where
  save x := do
    let first ← a.save x.1
    let second ← b.save x.2
    return first ++ second
  load bytes := do
    let (x, rest) ← a.load bytes
    let (y, rest) ← b.load rest
    return ((x, y), rest)
  valid x := a.valid x.1 ∧ b.valid x.2
  load_save x hx := by
    obtain ⟨first, hfirst, hloadFirst⟩ := a.load_save x.1 hx.1
    obtain ⟨second, hsecond, hloadSecond⟩ := b.load_save x.2 hx.2
    refine ⟨first ++ second, by simp [hfirst, hsecond], fun rest => ?_⟩
    simp [List.append_assoc, hloadFirst, hloadSecond]

/-- A record that is saved as another value. -/
def via (a : Codec α) (fields : β → α) (make : α → β) (hmake : ∀ x, make (fields x) = x) :
    Codec β where
  save x := a.save (fields x)
  load bytes := (a.load bytes).map fun r => (make r.1, r.2)
  valid x := a.valid (fields x)
  load_save x hx := by
    obtain ⟨bytes, hsave, hload⟩ := a.load_save (fields x) hx
    refine ⟨bytes, hsave, fun rest => ?_⟩
    simp [hload, hmake]

/-- Loading fails for a value that does not pass a check. -/
def checked (a : Codec α) (check : α → Bool) : Codec α where
  save := a.save
  load bytes := (a.load bytes).filter fun r => check r.1
  valid x := a.valid x ∧ check x = true
  load_save x hx := by
    obtain ⟨bytes, hsave, hload⟩ := a.load_save x hx.1
    refine ⟨bytes, hsave, fun rest => ?_⟩
    simp [hload, hx.2]

/-- Saving fails for a value that does not pass a check. -/
def guarded (a : Codec α) (check : α → Bool) : Codec α where
  save x := if check x then a.save x else none
  load := a.load
  valid x := a.valid x ∧ check x = true
  load_save x hx := by
    obtain ⟨bytes, hsave, hload⟩ := a.load_save x hx.1
    exact ⟨bytes, by rw [if_pos hx.2, hsave], hload⟩

/-- The values of a list, without their number. -/
def saveAll (a : Codec α) : List α → Option (List UInt8)
  | [] => some []
  | x :: xs => do
    let first ← a.save x
    let others ← a.saveAll xs
    return first ++ others

def loadMany (a : Codec α) : ℕ → List UInt8 → Option (List α × List UInt8)
  | 0, bytes => some ([], bytes)
  | n + 1, bytes => do
    let (x, rest) ← a.load bytes
    let (xs, rest) ← a.loadMany n rest
    return (x :: xs, rest)

theorem loadMany_saveAll (a : Codec α) (xs : List α) (hxs : ∀ x ∈ xs, a.valid x) :
    ∃ bytes, a.saveAll xs = some bytes ∧
      ∀ rest, a.loadMany xs.length (bytes ++ rest) = some (xs, rest) := by
  induction xs with
  | nil => exact ⟨[], rfl, fun rest => rfl⟩
  | cons x xs ih =>
    obtain ⟨first, hfirst, hloadFirst⟩ := a.load_save x (hxs x List.mem_cons_self)
    obtain ⟨others, hothers, hloadOthers⟩ := ih fun y hy => hxs y (List.mem_cons_of_mem _ hy)
    refine ⟨first ++ others, by simp [saveAll, hfirst, hothers], fun rest => ?_⟩
    simp [loadMany, List.append_assoc, hloadFirst, hloadOthers]

/-- A list, with its length in a word before it. -/
def list (a : Codec α) : Codec (List α) where
  save xs := do
    let size ← word.save xs.length
    let values ← a.saveAll xs
    return size ++ values
  load bytes := do
    let (size, rest) ← word.load bytes
    a.loadMany size rest
  valid xs := xs.length < 2 ^ 32 ∧ ∀ x ∈ xs, a.valid x
  load_save xs hxs := by
    obtain ⟨size, hsize, hloadSize⟩ := word.load_save xs.length hxs.1
    obtain ⟨values, hvalues, hloadValues⟩ := a.loadMany_saveAll xs hxs.2
    refine ⟨size ++ values, by simp [hsize, hvalues], fun rest => ?_⟩
    simp [List.append_assoc, hloadSize, hloadValues]

theorem list_valid_nil (a : Codec α) : a.list.valid [] :=
  ⟨by simp, fun x hx => absurd hx List.not_mem_nil⟩

/-- A number with its hash after it, which is checked when the number is read. -/
def hashed (hash : ℕ → ℕ) (_hhash : ∀ n, hash n < 2 ^ 32) : Codec ℕ :=
  ((word.pair word).checked fun r => r.2 == hash r.1).via (fun n => (n, hash n)) Prod.fst
    fun _ => rfl

theorem hashed_valid {hash : ℕ → ℕ} {hhash : ∀ n, hash n < 2 ^ 32} {n : ℕ} (hn : n < 2 ^ 32) :
    (hashed hash hhash).valid n :=
  ⟨⟨hn, hhash n⟩, by simp⟩

/-- A truth value in a byte. -/
def bool : Codec Bool :=
  byte.via Bool.toNat (fun n => decide (n ≠ 0)) (by decide)

theorem bool_valid (b : Bool) : bool.valid b := Nat.lt_trans (Bool.toNat_lt b) (by decide)

/-- A code unit of two bytes, the lower first. -/
def unit16 : Codec ℕ :=
  (byte.pair byte).via (fun n => (n % 2 ^ 8, n / 2 ^ 8)) (fun p => p.1 + 2 ^ 8 * p.2)
    fun n => Nat.mod_add_div n (2 ^ 8)

/-- A signed number in eight bytes. -/
def int64 : Codec Int64 :=
  (word.pair word).via (fun n => (n.toUInt64.toNat % 2 ^ 32, n.toUInt64.toNat / 2 ^ 32))
    (fun p => (UInt64.ofNat (p.1 + 2 ^ 32 * p.2)).toInt64) fun n => by
      simp only [Nat.mod_add_div, UInt64.ofNat_toNat]
      rfl

/-- A value of an enumeration, by its number in a word. -/
def enum [DecidableEq α] (values : List α) (other : α) (hvalues : ∀ x, x ∈ values) : Codec α :=
  word.via (fun x => values.idxOf x) (fun n => values.getD n other) fun x => by
    rw [List.getD_eq_getElem?_getD, List.getElem?_idxOf (hvalues x), Option.getD_some]

theorem enum_valid [DecidableEq α] {values : List α} {other : α} {hvalues : ∀ x, x ∈ values}
    (hsize : values.length ≤ 2 ^ 32) (x : α) : (enum values other hvalues).valid x :=
  Nat.lt_of_lt_of_le (List.idxOf_lt_length_of_mem (hvalues x)) hsize

/-- A value of a table, by its place in it. What is not in the table is not saved. -/
def indexed [DecidableEq α] (table : List α) : Codec α where
  save x := if x ∈ table then word.save (table.idxOf x) else none
  load bytes := do
    let (n, rest) ← word.load bytes
    let x ← table[n]?
    return (x, rest)
  valid x := x ∈ table ∧ table.idxOf x < 2 ^ 32
  load_save x hx := by
    obtain ⟨bytes, hsave, hload⟩ := word.load_save (table.idxOf x) hx.2
    refine ⟨bytes, by rw [if_pos hx.1, hsave], fun rest => ?_⟩
    simp [hload, List.getElem?_idxOf hx.1]

end Codec
