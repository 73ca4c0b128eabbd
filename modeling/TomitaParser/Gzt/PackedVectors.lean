import TomitaParser.Lib.Varint
import TomitaParser.Gzt.SavedStorage
/-! # Packed vectors of numbers

The items of a vector are kept as their differences from the first one, with the sign in the lowest
bit, in varints. The vectors of a builder are saved one after the other. -/

namespace TomitaParser.Gzt

namespace PackedIntOps

/-- `Pack`, into at most five bytes. -/
def pack (item : ℕ) : List UInt8 := Varint.encode 4 (ui32 item)

/-- The loop of `Unpack`, none where it reads past the end. -/
def unpackFrom (shift : ℕ) : List UInt8 → Option (ℕ × List UInt8)
  | [] => none
  | b :: rest =>
    if b.toNat < 128 then some (b.toNat * 2 ^ shift, rest)
    else (unpackFrom (shift + 7) rest).map fun r => (b.toNat % 128 * 2 ^ shift + r.1, r.2)

def unpack (bytes : List UInt8) : Option (ℕ × List UInt8) :=
  (unpackFrom 0 bytes).map fun r => (ui32 r.1, r.2)

/-- What `PackDiff` packs: the shift loses the highest bit of the difference. -/
def diffCode (item first : ℕ) : ℕ :=
  if first ≤ item then ui32 ((item - first) * 2) else ui32 ((first - item) * 2) + 1

def packDiff (item first : ℕ) : List UInt8 := pack (diffCode item first)

/-- What `UnpackDiff` makes of a code. -/
def applyDiff (first diff : ℕ) : ℕ :=
  if diff % 2 = 1 then ui32 (first + 2 ^ 32 - diff / 2) else ui32 (first + diff / 2)

/-- The items behind the first one. -/
def unpackItems (first : ℕ) : ℕ → List UInt8 → Option (List ℕ)
  | _, [] => some []
  | 0, _ :: _ => none
  | fuel + 1, b :: bytes =>
    match unpack (b :: bytes) with
    | none => none
    | some (diff, rest) => (unpackItems first fuel rest).map (applyDiff first diff :: ·)

/-- What an iterator over the bytes yields, none where `Unpack` reads past their end. -/
def iterate (first : ℕ) (bytes : List UInt8) : Option (List ℕ) :=
  (unpackItems first bytes.length bytes).map (first :: ·)

end PackedIntOps

open PackedIntOps

/-- `TPackedIntVector`. -/
structure PackedIntVector where
  first : ℕ := 0
  bytes : List UInt8 := []
deriving DecidableEq

namespace PackedIntVector

def pushBack (v : PackedIntVector) (item : ℕ) : PackedIntVector :=
  { v with bytes := v.bytes ++ packDiff item v.first }

def iter (v : PackedIntVector) : Option (List ℕ) := iterate v.first v.bytes

end PackedIntVector

/-- A word as it is saved. -/
def wordBytes (n : ℕ) : List UInt8 :=
  [UInt8.ofNat n, UInt8.ofNat (n / 2 ^ 8), UInt8.ofNat (n / 2 ^ 16), UInt8.ofNat (n / 2 ^ 24)]

/-- `SaveRange`. -/
def PackedIntVector.saveRange (v : PackedIntVector) : List UInt8 := wordBytes v.first ++ v.bytes

def PackedIntVector.saveRangeSize (v : PackedIntVector) : ℕ := 4 + v.bytes.length

/-- `TPackedIntVectorsVectorBuilder`: the first vector stands for the empty one. -/
structure PackedVectorsBuilder where
  vectors : List PackedIntVector := [{}]

namespace PackedVectorsBuilder

def emptyIndex : ℕ := 0

/-- `Iter`. -/
def iter (b : PackedVectorsBuilder) (index : ℕ) : Option (List ℕ) :=
  if index = emptyIndex then some [] else b.vectors[index]?.bind PackedIntVector.iter

def add (b : PackedVectorsBuilder) (item : ℕ) : PackedVectorsBuilder :=
  ⟨b.vectors ++ [⟨item, []⟩]⟩

def addTo (b : PackedVectorsBuilder) (index item : ℕ) : PackedVectorsBuilder :=
  if index = emptyIndex then b.add item else ⟨b.vectors.modify index (·.pushBack item)⟩

/-- The indexes of the vectors, the first of them at `next`. -/
def firstIndexes (next : ℕ) : List PackedIntVector → List ℕ
  | [] => [next]
  | v :: vectors => next :: firstIndexes (ui32 (next + v.saveRangeSize)) vectors

/-- `Save`, none when the index limit is reached. -/
def save (b : PackedVectorsBuilder) : Option (List UInt8) :=
  if 2 ^ 32 - 1 ≤ (b.vectors.tail.map (·.saveRangeSize)).sum then none
  else some (wordBytes (b.vectors.tail.map (·.saveRangeSize)).sum ++
    b.vectors.tail.flatMap (·.saveRange) ++
    (wordBytes (b.vectors.length + 1) ++ (0 :: firstIndexes 0 b.vectors.tail).flatMap wordBytes))

end PackedVectorsBuilder

namespace VectorsVector

/-- `Save` and `Load` of vectors of bytes. -/
def byteCodec : Codec VectorsVector :=
  (Codec.byte.list.pair Codec.word.list).via (fun v => (v.allItems, v.firstIndex))
    (fun r => ⟨r.1, r.2⟩) fun _ => rfl

/-- `IterRawRange`, none for an invalid range too. -/
def iterRawRange (bytes : List UInt8) : Option (List ℕ) :=
  match bytes with
  | [] => some []
  | bytes => (Codec.word.load bytes).bind fun r => iterate r.1 r.2

/-- `operator[]` of `TPackedIntVectorsVector`. -/
def packedAt (v : VectorsVector) (index : ℕ) : Option (List ℕ) :=
  iterRawRange ((v.get index).map UInt8.ofNat)

end VectorsVector

/-- A call of `Add` or `AddTo`. -/
inductive PackedOp
  | add (item : ℕ)
  | addTo (index item : ℕ)

namespace PackedOp

/-- The call on the builder. -/
def apply (b : PackedVectorsBuilder) : PackedOp → PackedVectorsBuilder
  | add item => b.add item
  | addTo index item => b.addTo index item

def build (ops : List PackedOp) : PackedVectorsBuilder := ops.foldl apply {}

/-- The items added to the indexes. -/
def addItems (contents : List (List ℕ)) : PackedOp → List (List ℕ)
  | add item => contents ++ [[item]]
  | addTo index item =>
    if index = 0 then contents ++ [[item]] else contents.modify index (· ++ [item])

def contents (ops : List PackedOp) : List (List ℕ) := ops.foldl addItems [[]]

/-- The item is a number of 32 bits, and the index exists. -/
def Valid (size : ℕ) : PackedOp → Prop
  | add item => item < 2 ^ 32
  | addTo index item => index < size ∧ item < 2 ^ 32

end PackedOp
open PackedOp

/-- Every call adds a valid item to an index that exists by then. -/
def ValidOps (ops : List PackedOp) : Prop :=
  ∀ before op after, ops = before ++ op :: after → op.Valid (contents before).length

/-- The builder, and what is loaded after it is saved, yield the items of every index. -/
structure RoundTrips (ops : List PackedOp) : Prop where
  iter : ∀ (index : ℕ) items, (contents ops)[index]? = some items →
    (build ops).iter index = some items
  loaded : ∀ bytes, (build ops).save = some bytes →
    ∃ v, VectorsVector.byteCodec.load bytes = some (v, []) ∧
      ∀ (index : ℕ) items, (contents ops)[index]? = some items → v.packedAt index = some items

/-- The items are less than half of the range of numbers away from the first one. -/
def CloseToFirst (items : List ℕ) : Prop :=
  ∀ first ∈ items.head?, ∀ item ∈ items, item < first + 2 ^ 31 ∧ first < item + 2 ^ 31

namespace PackedIntOps

theorem decode_eq_unpackFrom (bytes : List UInt8) (fuel shift : ℕ) (h : bytes.length < fuel) :
    Varint.decode fuel shift bytes = unpackFrom shift bytes := by
  induction bytes generalizing fuel shift with
  | nil =>
    cases fuel with
    | zero => cases h
    | succ fuel => rfl
  | cons b rest ih =>
    cases fuel with
    | zero => cases h
    | succ fuel =>
      rw [List.length_cons] at h
      rw [Varint.decode, unpackFrom, ih fuel (shift + 7) (by omega)]

theorem unpack_pack {n : ℕ} (hn : n < 2 ^ 32) (rest : List UInt8) :
    unpack (pack n ++ rest) = some (n, rest) := by
  have hpack : pack n = Varint.encode 4 n := by
    rw [pack, ui32_of_lt hn]
  have hdecode := Varint.decode_encode 4 ((Varint.encode 4 n ++ rest).length + 5) 0 n rest
    (by omega) (by omega)
  rw [decode_eq_unpackFrom _ _ _ (by omega)] at hdecode
  rw [unpack, hpack, hdecode]
  simp [ui32_of_lt hn]

theorem diffCode_lt (item first : ℕ) : diffCode item first < 2 ^ 32 := by
  simp only [diffCode, ui32]
  split <;> omega

theorem applyDiff_diffCode {item first : ℕ} (hitem : item < 2 ^ 32) (hfirst : first < 2 ^ 32) :
    applyDiff first (diffCode item first) = item ↔
      item < first + 2 ^ 31 ∧ first < item + 2 ^ 31 := by
  by_cases hle : first ≤ item
  · have hcode : diffCode item first = (item - first) * 2 % 2 ^ 32 := by
      rw [diffCode, if_pos hle, ui32]
    rw [applyDiff, hcode, if_neg (by omega), ui32]
    omega
  · have hcode : diffCode item first = (first - item) * 2 % 2 ^ 32 + 1 := by
      rw [diffCode, if_neg hle, ui32]
    rw [applyDiff, hcode, if_pos (by omega), ui32]
    omega

theorem unpackItems_packDiff (first fuel : ℕ) (items : List ℕ)
    (hfuel : (items.flatMap (packDiff · first)).length ≤ fuel) :
    unpackItems first fuel (items.flatMap (packDiff · first)) =
      some (items.map fun item => applyDiff first (diffCode item first)) := by
  induction items generalizing fuel with
  | nil =>
    rw [List.flatMap_nil, List.map_nil, unpackItems]
  | cons item items ih =>
    rw [List.flatMap_cons] at hfuel ⊢
    have hunpack := unpack_pack (diffCode_lt item first) (items.flatMap (packDiff · first))
    rw [← packDiff] at hunpack
    cases hpack : packDiff item first with
    | nil => exact absurd hpack (Varint.encode_ne_nil 4 _)
    | cons b bytes =>
      rw [hpack] at hunpack hfuel
      rw [List.cons_append] at hunpack hfuel ⊢
      rw [List.length_cons, List.length_append] at hfuel
      cases fuel with
      | zero => cases hfuel
      | succ fuel =>
        rw [unpackItems]
        simp only [hunpack]
        rw [ih fuel (by omega), Option.map_some, List.map_cons]

end PackedIntOps

/-- The vector that some items are packed in. -/
def packOf : List ℕ → PackedIntVector
  | [] => {}
  | first :: items => ⟨first, items.flatMap (packDiff · first)⟩

theorem iterate_packOf (first : ℕ) (items : List ℕ) :
    (packOf (first :: items)).iter =
      some (first :: items.map fun item => applyDiff first (diffCode item first)) := by
  rw [PackedIntVector.iter, iterate, packOf, unpackItems_packDiff first _ items le_rfl]
  rfl

theorem packOf_append {items : List ℕ} (h : items ≠ []) (item : ℕ) :
    packOf (items ++ [item]) = (packOf items).pushBack item := by
  cases items with
  | nil => exact absurd rfl h
  | cons first items =>
    simp [packOf, PackedIntVector.pushBack, List.flatMap_append]

theorem iter_packOf_iff {first : ℕ} {items : List ℕ} (h : ∀ item ∈ first :: items, item < 2 ^ 32) :
    (packOf (first :: items)).iter = some (first :: items) ↔ CloseToFirst (first :: items) := by
  have hfirst := h first List.mem_cons_self
  have hmap := List.map_inj_left (l := items)
    (f := fun item => applyDiff first (diffCode item first)) (g := id)
  rw [List.map_id] at hmap
  rw [iterate_packOf, Option.some.injEq, List.cons_inj_right, hmap]
  constructor
  · intro hitems first' hfirst' item hitem
    rw [List.head?_cons, Option.mem_some_iff] at hfirst'
    rw [← hfirst']
    rcases List.mem_cons.mp hitem with rfl | hitem
    · omega
    · exact (applyDiff_diffCode (h item (List.mem_cons_of_mem first hitem)) hfirst).mp
        (hitems item hitem)
  · intro hclose item hitem
    exact (applyDiff_diffCode (h item (List.mem_cons_of_mem first hitem)) hfirst).mpr
      (hclose first rfl item (List.mem_cons_of_mem first hitem))

namespace PackedVectorsBuilder

theorem iter_zero (b : PackedVectorsBuilder) : b.iter 0 = some [] := rfl

theorem iter_succ (b : PackedVectorsBuilder) (k : ℕ) :
    b.iter (k + 1) = b.vectors[k + 1]?.bind PackedIntVector.iter :=
  if_neg (Nat.succ_ne_zero k)

theorem addTo_succ (b : PackedVectorsBuilder) (k item : ℕ) :
    b.addTo (k + 1) item = ⟨b.vectors.modify (k + 1) (·.pushBack item)⟩ :=
  if_neg (Nat.succ_ne_zero k)

end PackedVectorsBuilder

theorem addItems_addTo_succ (contents : List (List ℕ)) (k item : ℕ) :
    addItems contents (addTo (k + 1) item) = contents.modify (k + 1) (· ++ [item]) := by
  rw [addItems, if_neg (Nat.succ_ne_zero k)]

theorem ValidOps.append {ops : List PackedOp} {op : PackedOp} (h : ValidOps (ops ++ [op])) :
    ValidOps ops ∧ op.Valid (contents ops).length := by
  constructor
  · intro before op' after heq
    exact h before op' (after ++ [op]) (by rw [heq, List.append_assoc, List.cons_append])
  · exact h ops op [] rfl

/-- The vectors behind the empty one have items, numbers of 32 bits. -/
structure ContentsOk (contents : List (List ℕ)) : Prop where
  head : ∃ rest, contents = [] :: rest
  ne_nil : ∀ items ∈ contents.tail, items ≠ []
  lt : ∀ items ∈ contents, ∀ item ∈ items, item < 2 ^ 32

theorem map_packOf_modify (rest : List (List ℕ)) (k item : ℕ) (h : ∀ items ∈ rest, items ≠ []) :
    (rest.modify k (· ++ [item])).map packOf =
      (rest.map packOf).modify k (·.pushBack item) := by
  induction rest generalizing k with
  | nil =>
    rw [List.modify_nil, List.map_nil, List.modify_nil]
  | cons items rest ih =>
    cases k with
    | zero =>
      rw [List.modify_zero_cons, List.map_cons, List.map_cons, List.modify_zero_cons,
        packOf_append (h items List.mem_cons_self)]
    | succ k =>
      rw [List.modify_succ_cons, List.map_cons, List.map_cons, List.modify_succ_cons,
        ih k fun items' hitems' => h items' (List.mem_cons_of_mem items hitems')]

theorem mem_modify_concat {rest : List (List ℕ)} {k item : ℕ} {items : List ℕ}
    (h : items ∈ rest.modify k (· ++ [item])) :
    items ∈ rest ∨ ∃ old ∈ rest, items = old ++ [item] := by
  induction rest generalizing k with
  | nil =>
    rw [List.modify_nil] at h
    cases h
  | cons first rest ih =>
    cases k with
    | zero =>
      rw [List.modify_zero_cons] at h
      rcases List.mem_cons.mp h with rfl | h
      · exact Or.inr ⟨first, List.mem_cons_self, rfl⟩
      · exact Or.inl (List.mem_cons_of_mem first h)
    | succ k =>
      rw [List.modify_succ_cons] at h
      rcases List.mem_cons.mp h with rfl | h
      · exact Or.inl List.mem_cons_self
      · rcases ih h with h | ⟨old, hold, heq⟩
        · exact Or.inl (List.mem_cons_of_mem first h)
        · exact Or.inr ⟨old, List.mem_cons_of_mem first hold, heq⟩

theorem ContentsOk.add {contents : List (List ℕ)} (h : ContentsOk contents) {item : ℕ}
    (hitem : item < 2 ^ 32) : ContentsOk (contents ++ [[item]]) := by
  obtain ⟨rest, rfl⟩ := h.head
  constructor
  · exact ⟨rest ++ [[item]], rfl⟩
  · intro items hitems
    rw [List.cons_append, List.tail_cons] at hitems
    rcases List.mem_append.mp hitems with hitems | hitems
    · exact h.ne_nil items hitems
    · rw [List.mem_singleton.mp hitems]
      exact List.cons_ne_nil item []
  · intro items hitems n hn
    rcases List.mem_append.mp hitems with hitems | hitems
    · exact h.lt items hitems n hn
    · rw [List.mem_singleton.mp hitems, List.mem_singleton] at hn
      exact hn ▸ hitem

theorem ContentsOk.addTo {contents : List (List ℕ)} (h : ContentsOk contents) {k item : ℕ}
    (hitem : item < 2 ^ 32) : ContentsOk (contents.modify (k + 1) (· ++ [item])) := by
  obtain ⟨rest, rfl⟩ := h.head
  rw [List.modify_succ_cons]
  constructor
  · exact ⟨_, rfl⟩
  · intro items hitems
    rcases mem_modify_concat hitems with hitems | ⟨old, _, rfl⟩
    · exact h.ne_nil items hitems
    · simp
  · intro items hitems n hn
    rcases List.mem_cons.mp hitems with rfl | hitems
    · cases hn
    rcases mem_modify_concat hitems with hitems | ⟨old, hold, rfl⟩
    · exact h.lt items (List.mem_cons_of_mem [] hitems) n hn
    · rcases List.mem_append.mp hn with hn | hn
      · exact h.lt old (List.mem_cons_of_mem [] hold) n hn
      · rw [List.mem_singleton.mp hn]
        exact hitem

/-- The builder holds the items of every index packed. -/
theorem build_vectors {ops : List PackedOp} (h : ValidOps ops) :
    ContentsOk (contents ops) ∧ (build ops).vectors = (contents ops).map packOf := by
  induction ops using List.reverseRecOn with
  | nil =>
    refine ⟨⟨⟨[], rfl⟩, ?_, ?_⟩, rfl⟩
    · intro items hitems
      cases hitems
    · intro items hitems item hitem
      rw [contents, List.foldl_nil, List.mem_singleton] at hitems
      rw [hitems] at hitem
      cases hitem
  | append_singleton ops op ih =>
    obtain ⟨hops, hop⟩ := h.append
    obtain ⟨hok, hvectors⟩ := ih hops
    have hadd : ∀ item, ((contents ops) ++ [[item]]).map packOf =
        ((build ops).add item).vectors := by
      intro item
      rw [PackedVectorsBuilder.add, hvectors, List.map_append]
      rfl
    rw [contents, build, List.foldl_append, List.foldl_append, ← contents, ← build,
      List.foldl_cons, List.foldl_nil, List.foldl_cons, List.foldl_nil]
    cases op with
    | add item =>
      exact ⟨hok.add hop, (hadd item).symm⟩
    | addTo index item =>
      cases index with
      | zero =>
        exact ⟨hok.add hop.2, (hadd item).symm⟩
      | succ k =>
        refine ⟨hok.addTo hop.2, ?_⟩
        obtain ⟨rest, hrest⟩ := hok.head
        rw [hrest] at hvectors
        have hne := hok.ne_nil
        rw [hrest, List.tail_cons] at hne
        rw [apply, PackedVectorsBuilder.addTo_succ, addItems_addTo_succ, hrest, hvectors,
          List.modify_succ_cons, List.map_cons, List.map_cons, List.modify_succ_cons,
          map_packOf_modify rest k item hne]

theorem iter_build {ops : List PackedOp} (h : ValidOps ops) {index : ℕ} {items : List ℕ}
    (hitems : (contents ops)[index]? = some items) :
    (build ops).iter index = some items ↔ CloseToFirst items := by
  obtain ⟨hok, hvectors⟩ := build_vectors h
  obtain ⟨rest, hrest⟩ := hok.head
  have hlt := hok.lt items (List.mem_of_getElem? hitems)
  cases index with
  | zero =>
    rw [hrest, List.getElem?_cons_zero, Option.some.injEq] at hitems
    rw [PackedVectorsBuilder.iter_zero, ← hitems]
    simp [CloseToFirst]
  | succ k =>
    rw [PackedVectorsBuilder.iter_succ, hvectors, List.getElem?_map, hitems, Option.map_some,
      Option.bind_some]
    have hne : items ≠ [] := by
      apply hok.ne_nil
      rw [hrest, List.getElem?_cons_succ] at hitems
      rw [hrest, List.tail_cons]
      exact List.mem_of_getElem? hitems
    cases items with
    | nil => exact absurd rfl hne
    | cons first items => exact iter_packOf_iff hlt

theorem saveAll_byte (bytes : List UInt8) :
    Codec.byte.saveAll (bytes.map UInt8.toNat) = some bytes := by
  induction bytes with
  | nil => rfl
  | cons b bytes ih =>
    rw [List.map_cons, Codec.saveAll, ih]
    simp [Codec.byte]

theorem saveAll_word (words : List ℕ) :
    Codec.word.saveAll words = some (words.flatMap wordBytes) := by
  induction words with
  | nil => rfl
  | cons n words ih =>
    rw [Codec.saveAll, ih]
    rfl

theorem byteCodec_save (items : List UInt8) (firstIndex : List ℕ) :
    VectorsVector.byteCodec.save ⟨items.map UInt8.toNat, firstIndex⟩ =
      some (wordBytes items.length ++ items ++
        (wordBytes firstIndex.length ++ firstIndex.flatMap wordBytes)) := by
  have hword : ∀ n, Codec.word.save n = some (wordBytes n) := fun n => rfl
  simp [VectorsVector.byteCodec, Codec.via, Codec.pair, Codec.list, hword, saveAll_byte,
    saveAll_word]

theorem length_saveRange (v : PackedIntVector) : v.saveRange.length = v.saveRangeSize := by
  rw [PackedIntVector.saveRange, List.length_append, PackedIntVector.saveRangeSize]
  rfl

theorem length_saveRanges (vectors : List PackedIntVector) :
    (vectors.flatMap (·.saveRange)).length = (vectors.map (·.saveRangeSize)).sum := by
  rw [List.length_flatMap]
  exact congrArg List.sum (List.map_congr_left fun v _ => length_saveRange v)

/-- The ranges of the vectors as numbers. -/
def rangesOf (vectors : List PackedIntVector) : List (List ℕ) :=
  vectors.map fun v => v.saveRange.map UInt8.toNat

theorem flatten_rangesOf (vectors : List PackedIntVector) :
    (rangesOf vectors).flatten = (vectors.flatMap (·.saveRange)).map UInt8.toNat := by
  rw [rangesOf, ← List.flatMap_def, List.map_flatMap]

theorem joinFrom_rangesOf (next : ℕ) (vectors : List PackedIntVector)
    (h : next + (vectors.map (·.saveRangeSize)).sum < 2 ^ 32 - 1) :
    VectorsVector.joinFrom next (rangesOf vectors) =
      some ((rangesOf vectors).flatten, PackedVectorsBuilder.firstIndexes next vectors) := by
  induction vectors generalizing next with
  | nil =>
    rw [rangesOf, List.map_nil, VectorsVector.joinFrom, PackedVectorsBuilder.firstIndexes,
      ui32_of_lt (by simp at h; omega)]
    rfl
  | cons v vectors ih =>
    rw [List.map_cons, List.sum_cons] at h
    have hsize : ui32 (next + v.saveRangeSize) = next + v.saveRangeSize :=
      ui32_of_lt (by omega)
    have hlength : (v.saveRange.map UInt8.toNat).length = v.saveRangeSize := by
      rw [List.length_map, length_saveRange]
    have hrest := ih (next + v.saveRangeSize) (by omega)
    rw [rangesOf] at hrest
    rw [rangesOf, List.map_cons, VectorsVector.joinFrom, if_neg (by omega), hlength, hrest,
      PackedVectorsBuilder.firstIndexes, hsize, Option.map_some, List.flatten_cons]

theorem iterRawRange_saveRange {v : PackedIntVector} (h : v.first < 2 ^ 32) :
    VectorsVector.iterRawRange v.saveRange = v.iter := by
  obtain ⟨bytes, hsave, hload⟩ := Codec.word.load_save v.first h
  have hbytes : bytes = wordBytes v.first := (Option.some.inj hsave).symm
  rw [hbytes] at hload
  have hrange : VectorsVector.iterRawRange v.saveRange =
      (Codec.word.load v.saveRange).bind fun r => iterate r.1 r.2 := rfl
  rw [hrange, PackedIntVector.saveRange, hload, Option.bind_some]
  rfl

theorem four_mul_length_le (vectors : List PackedIntVector) :
    4 * vectors.length ≤ (vectors.map (·.saveRangeSize)).sum := by
  induction vectors with
  | nil => simp
  | cons v vectors ih =>
    rw [List.length_cons, List.map_cons, List.sum_cons, PackedIntVector.saveRangeSize]
    omega

/-- What is saved is loaded, and yields at every index what the builder does. -/
theorem load_save_builder {b : PackedVectorsBuilder} {bytes : List UInt8}
    (hhead : ∃ vectors, b.vectors = {} :: vectors) (hfirst : ∀ v ∈ b.vectors, v.first < 2 ^ 32)
    (hsave : b.save = some bytes) :
    ∃ v, VectorsVector.byteCodec.load bytes = some (v, []) ∧
      ∀ index, index < b.vectors.length → v.packedAt index = b.iter index := by
  obtain ⟨vectors, hvectors⟩ := hhead
  rw [PackedVectorsBuilder.save, hvectors, List.tail_cons] at hsave
  split_ifs at hsave with hlimit
  have hsum : 0 + (vectors.map (·.saveRangeSize)).sum < 2 ^ 32 - 1 := by omega
  have hjoinRest := joinFrom_rangesOf 0 vectors hsum
  have hjoin : VectorsVector.join ([] :: rangesOf vectors) =
      some ⟨(rangesOf vectors).flatten, 0 :: PackedVectorsBuilder.firstIndexes 0 vectors⟩ := by
    rw [VectorsVector.join, VectorsVector.joinFrom, if_neg (by omega), List.length_nil, hjoinRest]
    rfl
  have hflatten : (([] : List ℕ) :: rangesOf vectors).flatten.length < 2 ^ 32 - 1 := by
    rw [List.flatten_cons, List.nil_append, flatten_rangesOf, List.length_map, length_saveRanges]
    omega
  obtain ⟨v, hv, hitems, hsize, hindexes, hget⟩ :=
    VectorsVector.join_spec ([] :: rangesOf vectors) hflatten
  rw [hjoin, Option.some.injEq] at hv
  have hlength := four_mul_length_le vectors
  have hindexLength : v.firstIndex.length = vectors.length + 2 := by
    have hsize' : v.firstIndex.length - 1 = vectors.length + 1 := by
      rw [VectorsVector.size, List.length_cons, rangesOf, List.length_map] at hsize
      exact hsize
    omega
  have hvalid : VectorsVector.byteCodec.valid v := by
    refine ⟨⟨?_, ?_⟩, ?_, hindexes⟩
    · show v.allItems.length < 2 ^ 32
      rw [hitems]
      omega
    · intro n hn
      have hn' : n ∈ (vectors.flatMap (·.saveRange)).map UInt8.toNat := by
        rw [← flatten_rangesOf, ← hv] at *
        exact hn
      obtain ⟨byte, _, rfl⟩ := List.mem_map.mp hn'
      exact byte.toNat_lt
    · show v.firstIndex.length < 2 ^ 32
      omega
  obtain ⟨saved, hsaved, hload⟩ := VectorsVector.byteCodec.load_save v hvalid
  have hbytes : saved = bytes := by
    rw [← hv, flatten_rangesOf, byteCodec_save, length_saveRanges] at hsaved
    have hcount : (0 :: PackedVectorsBuilder.firstIndexes 0 vectors).length =
        ({} :: vectors : List PackedIntVector).length + 1 := by
      rw [← hv] at hindexLength
      exact hindexLength
    rw [hcount] at hsaved
    exact Option.some.inj (hsaved.symm.trans hsave)
  have hloaded := hload []
  rw [List.append_nil, hbytes] at hloaded
  refine ⟨v, hloaded, ?_⟩
  intro index hindex
  rw [VectorsVector.packedAt]
  cases index with
  | zero =>
    rw [hget 0 [] rfl]
    rfl
  | succ k =>
    rw [hvectors, List.length_cons] at hindex
    have hk : k < vectors.length := by omega
    have hrange : (([] : List ℕ) :: rangesOf vectors)[k + 1]? =
        some (vectors[k].saveRange.map UInt8.toNat) := by
      rw [List.getElem?_cons_succ, rangesOf, List.getElem?_map, List.getElem?_eq_getElem hk,
        Option.map_some]
    have hback : (vectors[k].saveRange.map UInt8.toNat).map UInt8.ofNat = vectors[k].saveRange := by
      rw [List.map_map]
      exact List.map_id'' (fun b => UInt8.ofNat_toNat) _
    rw [hget (k + 1) _ hrange, hback, PackedVectorsBuilder.iter_succ, hvectors,
      List.getElem?_cons_succ, List.getElem?_eq_getElem hk, Option.bind_some]
    apply iterRawRange_saveRange
    apply hfirst
    rw [hvectors]
    exact List.mem_cons_of_mem _ (List.getElem_mem hk)

/-- The packed vectors yield what was added, before and after they are saved, exactly when the items
of every vector are close to the first one. -/
theorem roundTrips_iff (ops : List PackedOp) (h : ValidOps ops) :
    RoundTrips ops ↔ ∀ items ∈ contents ops, CloseToFirst items := by
  constructor
  · intro htrip items hitems
    obtain ⟨index, hindex⟩ := List.getElem?_of_mem hitems
    exact (iter_build h hindex).mp (htrip.iter index items hindex)
  · intro hclose
    have hiter : ∀ (index : ℕ) items, (contents ops)[index]? = some items →
        (build ops).iter index = some items :=
      fun index items hindex => (iter_build h hindex).mpr (hclose items (List.mem_of_getElem? hindex))
    refine ⟨hiter, ?_⟩
    intro bytes hsave
    obtain ⟨hok, hvectors⟩ := build_vectors h
    have hhead : ∃ vectors, (build ops).vectors = {} :: vectors := by
      obtain ⟨rest, hrest⟩ := hok.head
      exact ⟨rest.map packOf, by rw [hvectors, hrest]; rfl⟩
    have hfirst : ∀ v ∈ (build ops).vectors, v.first < 2 ^ 32 := by
      intro v hv
      rw [hvectors] at hv
      obtain ⟨items, hitems, rfl⟩ := List.mem_map.mp hv
      cases items with
      | nil => exact Nat.two_pow_pos 32
      | cons first items => exact hok.lt _ hitems first List.mem_cons_self
    obtain ⟨v, hload, hat⟩ := load_save_builder hhead hfirst hsave
    refine ⟨v, hload, ?_⟩
    intro index items hindex
    have hlt : index < (build ops).vectors.length := by
      rw [hvectors, List.length_map]
      exact (List.getElem?_eq_some_iff.mp hindex).1
    rw [hat index hlt]
    exact hiter index items hindex

/-- Two items in one vector. -/
def twoItems (first second : ℕ) : List PackedOp := [.add first, .addTo 1 second]

theorem validOps_twoItems {first second : ℕ} (hfirst : first < 2 ^ 32) (hsecond : second < 2 ^ 32) :
    ValidOps (twoItems first second) := by
  intro before op after heq
  cases before with
  | nil =>
    rw [List.nil_append, twoItems, List.cons.injEq] at heq
    rw [← heq.1]
    exact hfirst
  | cons op' before =>
    rw [twoItems, List.cons_append, List.cons.injEq] at heq
    rw [← heq.1]
    cases before with
    | nil =>
      rw [List.nil_append, List.cons.injEq] at heq
      rw [← heq.2.1]
      exact ⟨Nat.lt_add_one 1, hsecond⟩
    | cons op'' before =>
      simp at heq

theorem roundTrips_iff_twoItems :
    RoundTrips (twoItems 5 3) ↔ ∀ items ∈ contents (twoItems 5 3), CloseToFirst items :=
  roundTrips_iff (twoItems 5 3) (validOps_twoItems (by decide) (by decide))

/-- The difference of half the range is lost: the second item is read as the first. -/
theorem not_roundTrips_twoItems :
    ValidOps (twoItems 0 (2 ^ 31)) ∧ ¬ RoundTrips (twoItems 0 (2 ^ 31)) := by
  refine ⟨validOps_twoItems (by decide) (by decide), ?_⟩
  intro h
  have hiter := h.iter 1 [0, 2 ^ 31] rfl
  exact absurd hiter (by decide)

end TomitaParser.Gzt
