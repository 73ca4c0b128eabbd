import Mathlib.Data.List.Lex
import Mathlib.Data.Prod.Lex
import TomitaParser.Lib.BigEndian
/-! # Packers of leaf values

How the values of a trie become bytes. A packer writes a value into a buffer of the size it measures,
reads it back from a pointer, and tells from the bytes alone where the value ends. -/

namespace TomitaParser.Packers
open List (replicate)

/-- What is read at a pointer. -/
def byteAt (p : List ℕ) : ℕ := p.headD 0 % 256

/-- Copies bytes into a buffer, from an offset on. -/
def memcpy (buffer : List ℕ) (offset : ℕ) (bytes : List ℕ) : List ℕ :=
  buffer.take offset ++ bytes ++ buffer.drop (offset + bytes.length)

structure LeafPacker (Value : Type) where
  unpackLeaf : List ℕ → Value
  /-- The buffer, the offset of the leaf in it, the value and its computed size. -/
  packLeaf : List ℕ → ℕ → Value → ℕ → List ℕ
  measureLeaf : Value → ℕ
  skipLeaf : List ℕ → ℕ

/-- A value as 64 bits hold it. -/
def ui64 (n : ℕ) : ℕ := n % 2 ^ 64

/-- A value as a signed number of so many bits. -/
def signedCast (bits : ℕ) (n : ℤ) : ℤ := n.bmod (2 ^ bits)

/-- Shifts the leading ones out of a byte, which has eight bits, and counts them. -/
def shiftOnes : ℕ → ℕ → ℕ → ℕ × ℕ
  | 0, ch, taillen => (ch, taillen)
  | bits + 1, ch, taillen =>
    if ch &&& 128 ≠ 0 then shiftOnes bits (ch <<< 1 % 256) (taillen + 1) else (ch, taillen)

def readTail : ℕ → ℕ → List ℕ → ℕ
  | 0, result, _ => result
  | taillen + 1, result, p => readTail taillen (ui64 (result <<< 8 ||| byteAt p)) p.tail

def unpackUi64 (p : List ℕ) : ℕ :=
  let (ch, taillen) := shiftOnes 8 (byteAt p) 0
  readTail taillen (ch >>> taillen) p.tail

/-- Nine bytes hold any number: eight of them hold 64 bits. -/
def maxSize : ℕ := 9

def measureLoop : ℕ → ℕ → ℕ → ℕ
  | 0, _, len => len
  | rounds + 1, value, len => if value = 0 then len else measureLoop rounds (value >>> 7) (len + 1)

def measureUi64 (value : ℕ) : ℕ := measureLoop (maxSize - 1) (value >>> 7) 1

/-- Writes the lowest bytes from the last one back, and the length mask before what remains. -/
def packLoop (offset : ℕ) : ℕ → ℕ → ℕ → List ℕ → List ℕ
  | 0, value, lenmask, buffer => buffer.set offset ((lenmask ||| value) % 256)
  | i + 1, value, lenmask, buffer =>
    packLoop offset i (value >>> 8) (lenmask >>> 1 ||| 128)
      (buffer.set (offset + (i + 1)) (value % 256))

def packUi64 (buffer : List ℕ) (offset value len : ℕ) : List ℕ :=
  packLoop offset (len - 1) value 0 buffer

def skipTable : List ℕ :=
  replicate 128 1 ++ replicate 64 2 ++ replicate 32 3 ++ replicate 16 4 ++ replicate 8 5 ++
    replicate 4 6 ++ [7, 7, 8, 9]

def skipUi64 (p : List ℕ) : ℕ := skipTable.getD (byteAt p) 0

/-- The sizes of the integral types, in bytes. -/
inductive IntSize
  | one
  | two
  | four
  | eight
deriving DecidableEq

def IntSize.bytes : IntSize → ℕ
  | one => 1
  | two => 2
  | four => 4
  | eight => 8

def IntSize.bits (size : IntSize) : ℕ := 8 * size.bytes

abbrev Unsigned (size : IntSize) := {n : ℕ // n < 2 ^ size.bits}

abbrev Signed (size : IntSize) :=
  {n : ℤ // -2 ^ (size.bits - 1) ≤ n ∧ n < 2 ^ (size.bits - 1)}

theorem signedCast_mem (size : IntSize) (n : ℤ) :
    -2 ^ (size.bits - 1) ≤ signedCast size.bits n ∧
      signedCast size.bits n < 2 ^ (size.bits - 1) := by
  have hle := Int.le_bmod (x := n) (m := 2 ^ size.bits) (Nat.two_pow_pos _)
  have hlt := Int.bmod_lt (x := n) (m := 2 ^ size.bits) (Nat.two_pow_pos _)
  rw [signedCast]
  cases size <;> simp only [IntSize.bits, IntSize.bytes] at * <;> omega

/-- The magnitude of a signed number with its sign in the lowest bit. -/
def convertIntegral (data : ℤ) : ℕ :=
  if data < 0 then ui64 (((signedCast 64 (-1 * data)) % 2 ^ 64).toNat <<< 1) ||| 1
  else ui64 (data.toNat <<< 1)

def unsignedPacker (size : IntSize) : LeafPacker (Unsigned size) where
  unpackLeaf p := ⟨unpackUi64 p % 2 ^ size.bits, Nat.mod_lt _ (Nat.two_pow_pos _)⟩
  packLeaf buffer offset data len := packUi64 buffer offset data.val len
  measureLeaf data := measureUi64 data.val
  skipLeaf := skipUi64

def unpackSigned (bits : ℕ) (p : List ℕ) : ℤ :=
  let val := unpackUi64 p
  let magnitude := signedCast bits ((val >>> 1 : ℕ) : ℤ)
  if val &&& 1 ≠ 0 then signedCast bits (-1 * magnitude) else magnitude

theorem unpackSigned_mem (size : IntSize) (p : List ℕ) :
    -2 ^ (size.bits - 1) ≤ unpackSigned size.bits p ∧
      unpackSigned size.bits p < 2 ^ (size.bits - 1) := by
  simp only [unpackSigned]
  split_ifs
  · exact signedCast_mem size _
  · exact signedCast_mem size _

def signedPacker (size : IntSize) : LeafPacker (Signed size) where
  unpackLeaf p := ⟨unpackSigned size.bits p, unpackSigned_mem size p⟩
  packLeaf buffer offset data len := packUi64 buffer offset (convertIntegral data.val) len
  measureLeaf data := measureUi64 (convertIntegral data.val)
  skipLeaf := skipUi64

/-- The code units of strings: `char` and `wchar16`. -/
inductive CharSize
  | one
  | two
deriving DecidableEq

def CharSize.bytes : CharSize → ℕ
  | one => 1
  | two => 2

abbrev CodeUnit (size : CharSize) := {c : ℕ // c < 256 ^ size.bytes}

/-- A code unit in memory, its lowest byte first. -/
def unitBytes {size : CharSize} (c : CodeUnit size) : List ℕ :=
  (BigEndian.bytes size.bytes c.val).reverse

def readUnit (size : CharSize) (p : List ℕ) : CodeUnit size :=
  ⟨BigEndian.read 0 (p.take size.bytes).reverse % 256 ^ size.bytes,
    Nat.mod_lt _ (Nat.pow_pos (by norm_num))⟩

def readUnits (size : CharSize) : ℕ → List ℕ → List (CodeUnit size)
  | 0, _ => []
  | len + 1, p => readUnit size p :: readUnits size len (p.drop size.bytes)

def stringPacker (size : CharSize) : LeafPacker (List (CodeUnit size)) where
  unpackLeaf buf :=
    let len := unpackUi64 buf
    let start := skipUi64 buf
    readUnits size len (buf.drop start)
  packLeaf buf offset str computed :=
    let len := str.length
    let lenChar := len * size.bytes
    let start := computed - lenChar
    memcpy (packUi64 buf offset len (measureUi64 len)) (offset + start) (str.flatMap unitBytes)
  measureLeaf str := measureUi64 str.length + str.length * size.bytes
  skipLeaf buf := skipUi64 buf + unpackUi64 buf * size.bytes

/-- A set keeps its elements in their order, each once. -/
abbrev SortedSet (α : Type) [LT α] := {xs : List α // xs.Pairwise (· < ·)}

/-- The place of an element is looked for from the least element on. -/
def insertInto {α : Type} [LinearOrder α] (x : α) : List α → List α
  | [] => [x]
  | y :: ys => if y < x then y :: insertInto x ys else if x < y then x :: y :: ys else y :: ys

theorem mem_insertInto {α : Type} [LinearOrder α] {x y : α} {xs : List α}
    (h : y ∈ insertInto x xs) : y = x ∨ y ∈ xs := by
  induction xs with
  | nil => simpa [insertInto] using h
  | cons z zs ih =>
    rw [insertInto] at h
    split_ifs at h
    · rcases List.mem_cons.mp h with rfl | h
      · exact .inr List.mem_cons_self
      · exact (ih h).imp id (List.mem_cons_of_mem z)
    · exact List.mem_cons.mp h
    · exact .inr h

theorem pairwise_insertInto {α : Type} [LinearOrder α] (x : α) {xs : List α}
    (h : xs.Pairwise (· < ·)) : (insertInto x xs).Pairwise (· < ·) := by
  induction xs with
  | nil => simp [insertInto]
  | cons y ys ih =>
    have hys := List.pairwise_cons.mp h
    rw [insertInto]
    split_ifs with hlt hgt
    · refine List.pairwise_cons.mpr ⟨fun z hz => ?_, ih hys.2⟩
      rcases mem_insertInto hz with rfl | hz
      · exact hlt
      · exact hys.1 z hz
    · refine List.pairwise_cons.mpr ⟨fun z hz => ?_, h⟩
      rcases List.mem_cons.mp hz with rfl | hz
      · exact hgt
      · exact hgt.trans (hys.1 z hz)
    · exact h

def SortedSet.insert {α : Type} [LinearOrder α] (s : SortedSet α) (x : α) : SortedSet α :=
  ⟨insertInto x s.val, pairwise_insertInto x s.property⟩

section Containers
variable {α β C : Type}

/-- The elements are read one after the other and inserted at the end. -/
def unpackSimple (e : LeafPacker α) (insert : C → α → C) : ℕ → List ℕ → C → C
  | 0, _, result => result
  | len + 1, p, result =>
    unpackSimple e insert len (p.drop (e.skipLeaf p)) (insert result (e.unpackLeaf p))

/-- The elements are read into the places of a vector of their number. -/
def unpackVector (e : LeafPacker α) : ℕ → List ℕ → List α
  | 0, _ => []
  | len + 1, p => e.unpackLeaf p :: unpackVector e len (p.drop (e.skipLeaf p))

/-- The sizes of the elements one after the other. -/
def measureElements (e : LeafPacker α) (xs : List α) (curSize : ℕ) : ℕ :=
  xs.foldl (fun curSize x => curSize + e.measureLeaf x) curSize

def packElements (e : LeafPacker α) (offset : ℕ) : List α → ℕ → List ℕ → List ℕ
  | [], _, buffer => buffer
  | x :: xs, curSize, buffer =>
    packElements e offset xs (curSize + e.measureLeaf x)
      (e.packLeaf buffer (offset + curSize) x (e.measureLeaf x))

/-- The length of the whole leaf counts itself, so it is measured twice. -/
def withOwnSize (curSize : ℕ) : ℕ :=
  curSize + measureUi64 (curSize + measureUi64 curSize)

/-- A packer of a container with given elements, by how they are read back from their number and a
pointer. -/
def containerPacker (e : LeafPacker α) (elements : C → List α) (unpack : ℕ → List ℕ → C) :
    LeafPacker C where
  unpackLeaf buffer :=
    let offset := skipUi64 buffer
    let len := unpackUi64 (buffer.drop offset)
    unpack len (buffer.drop (offset + skipUi64 (buffer.drop offset)))
  packLeaf buffer offset data size :=
    let sizeOfSize := measureUi64 size
    let len := (elements data).length
    let curSize := measureUi64 len
    packElements e offset (elements data) (curSize + sizeOfSize)
      (packUi64 (packUi64 buffer offset size sizeOfSize) (offset + sizeOfSize) len curSize)
  measureLeaf data :=
    withOwnSize (measureElements e (elements data) (measureUi64 (elements data).length))
  skipLeaf := unpackUi64

def vectorPacker (e : LeafPacker α) : LeafPacker (List α) :=
  containerPacker e id fun len p => unpackVector e len p

def listPacker (e : LeafPacker α) : LeafPacker (List α) :=
  containerPacker e id fun len p => unpackSimple e (fun xs x => xs ++ [x]) len p []

def setPacker [LinearOrder α] (e : LeafPacker α) : LeafPacker (SortedSet α) :=
  containerPacker e Subtype.val fun len p => unpackSimple e SortedSet.insert len p ⟨[], .nil⟩

def pairPacker (a : LeafPacker α) (b : LeafPacker β) : LeafPacker (α ×ₗ β) where
  unpackLeaf buffer :=
    toLex (a.unpackLeaf buffer, b.unpackLeaf (buffer.drop (a.skipLeaf buffer)))
  packLeaf buffer offset data _ :=
    let size1 := a.measureLeaf (ofLex data).1
    let size2 := b.measureLeaf (ofLex data).2
    b.packLeaf (a.packLeaf buffer offset (ofLex data).1 size1) (offset + size1) (ofLex data).2 size2
  measureLeaf data := a.measureLeaf (ofLex data).1 + b.measureLeaf (ofLex data).2
  skipLeaf buffer :=
    let size1 := a.skipLeaf buffer
    size1 + b.skipLeaf (buffer.drop size1)

end Containers

/-- The articles of a trie leaf: those without filters and those with filters, by their indices. -/
structure Bucket where
  simpleIndex : Unsigned .four
  filterIndex : Unsigned .four

def articleBucketPacker : LeafPacker Bucket where
  unpackLeaf p :=
    let base := unsignedPacker .four
    ⟨base.unpackLeaf p, base.unpackLeaf (p.drop (base.skipLeaf p))⟩
  packLeaf buffer offset data computedSize :=
    let base := unsignedPacker .four
    let simpleSize := base.measureLeaf data.simpleIndex
    base.packLeaf (base.packLeaf buffer offset data.simpleIndex simpleSize) (offset + simpleSize)
      data.filterIndex (computedSize - simpleSize)
  measureLeaf data :=
    (unsignedPacker .four).measureLeaf data.simpleIndex +
      (unsignedPacker .four).measureLeaf data.filterIndex
  skipLeaf p :=
    let simpleSize := (unsignedPacker .four).skipLeaf p
    simpleSize + (unsignedPacker .four).skipLeaf (p.drop simpleSize)

inductive Ty
  | unsigned (size : IntSize)
  | signed (size : IntSize)
  | string (size : CharSize)
  | vector (element : Ty)
  | list (element : Ty)
  | set (element : Ty)
  | pair (first second : Ty)

/-- A type with the order of its values. -/
structure OrderedType where
  Val : Type
  order : LinearOrder Val

/-- Containers and pairs are ordered by their first difference. -/
def Ty.ordered : Ty → OrderedType
  | .unsigned size => ⟨Unsigned size, inferInstance⟩
  | .signed size => ⟨Signed size, inferInstance⟩
  | .string size => ⟨List (CodeUnit size), inferInstance⟩
  | .vector t => ⟨List t.ordered.Val, @List.instLinearOrder _ t.ordered.order⟩
  | .list t => ⟨List t.ordered.Val, @List.instLinearOrder _ t.ordered.order⟩
  | .set t =>
    letI := t.ordered.order
    ⟨SortedSet t.ordered.Val, inferInstance⟩
  | .pair a b =>
    letI := a.ordered.order
    letI := b.ordered.order
    ⟨a.ordered.Val ×ₗ b.ordered.Val, inferInstance⟩

abbrev Ty.Val (t : Ty) : Type := t.ordered.Val

instance (t : Ty) : LinearOrder t.Val := t.ordered.order

/-- `TPacker`: the packer of a type. -/
def Ty.packer : (t : Ty) → LeafPacker t.Val
  | .unsigned size => unsignedPacker size
  | .signed size => signedPacker size
  | .string size => stringPacker size
  | .vector t => vectorPacker t.packer
  | .list t => listPacker t.packer
  | .set t => setPacker t.packer
  | .pair a b => pairPacker a.packer b.packer

end TomitaParser.Packers
