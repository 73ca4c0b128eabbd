import Mathlib.Algebra.BigOperators.Group.List.Basic
import Mathlib.Algebra.Order.BigOperators.Group.List
import TomitaParser.Comptrie.IntegralRoundTrip
import TomitaParser.Comptrie.Layout
/-! # Leaves are read back

A packer is described by the bytes that it leaves in a buffer. Packers are built from others, so what
holds of the parts is carried over to the whole, and the types are gone through by induction. -/

namespace TomitaParser.Packers
variable {α β C : Type}

/-- The bytes are what a packer makes of a value: as many as measured, nothing else in the buffer is
changed, and where they end can be told without knowing what follows. -/
structure Encodes (k : LeafPacker α) (v : α) (bytes : List ℕ) : Prop where
  length : bytes.length = k.measureLeaf v
  bounded : ∀ b ∈ bytes, b < 256
  writes : ∀ before room after, room.length = k.measureLeaf v →
    k.packLeaf (before ++ room ++ after) before.length v (k.measureLeaf v) =
      before ++ bytes ++ after
  skips : ∀ garbage, k.skipLeaf (bytes ++ garbage) = k.measureLeaf v

/-- The bytes are read as a value, whatever follows them. -/
def DecodesTo (k : LeafPacker α) (bytes : List ℕ) (v : α) : Prop :=
  ∀ garbage, k.unpackLeaf (bytes ++ garbage) = v

/-- A value is packed into as many bytes as measured and read back from them. -/
def RoundTrips (k : LeafPacker α) (v : α) : Prop :=
  ∃ bytes, Encodes k v bytes ∧ DecodesTo k bytes v

theorem Encodes.drop_skip {k : LeafPacker α} {v : α} {bytes : List ℕ} (h : Encodes k v bytes)
    (garbage : List ℕ) : (bytes ++ garbage).drop (k.skipLeaf (bytes ++ garbage)) = garbage := by
  rw [h.skips, ← h.length, List.drop_left]

theorem Encodes.writes_at {k : LeafPacker α} {v : α} {bytes : List ℕ} (h : Encodes k v bytes)
    (before room after : List ℕ) {offset : ℕ} (hoffset : offset = before.length)
    (hroom : k.measureLeaf v ≤ room.length) :
    k.packLeaf (before ++ room ++ after) offset v (k.measureLeaf v) =
      before ++ bytes ++ (room.drop (k.measureLeaf v) ++ after) := by
  have hlength : (room.take (k.measureLeaf v)).length = k.measureLeaf v :=
    List.length_take_of_le hroom
  have hwrites := h.writes before (room.take (k.measureLeaf v))
    (room.drop (k.measureLeaf v) ++ after) hlength
  rw [hoffset, ← hwrites]
  congr 1
  simp only [List.append_assoc]
  rw [← List.append_assoc (room.take _), List.take_append_drop]

theorem unsigned_encodes {size : IntSize} (v : Unsigned size) :
    Encodes (unsignedPacker size) v (encodeUi64 v.val) ∧
      DecodesTo (unsignedPacker size) (encodeUi64 v.val) v := by
  have hlt : v.val < 2 ^ 64 := by
    have := v.property
    cases size <;> simp only [IntSize.bits, IntSize.bytes] at this <;> omega
  refine ⟨⟨length_encodeUi64 _, fun _ => lt_of_mem_encodeUi64, fun before room after hroom =>
    packUi64_eq before room after _ hroom, fun garbage => skipUi64_encodeUi64 hlt garbage⟩,
    fun garbage => Subtype.ext ?_⟩
  change unpackUi64 _ % _ = _
  rw [unpackUi64_encodeUi64 hlt, Nat.mod_eq_of_lt v.property]

theorem signed_encodes {size : IntSize} (v : Signed size) :
    Encodes (signedPacker size) v (encodeUi64 (convertIntegral v.val)) :=
  ⟨length_encodeUi64 _, fun _ => lt_of_mem_encodeUi64, fun before room after hroom =>
    packUi64_eq before room after _ hroom,
    fun garbage => skipUi64_encodeUi64 (convertIntegral_lt _) garbage⟩

theorem signed_decodes {size : IntSize} {v : Signed size} (hv : v.val ≠ -2 ^ 63) :
    DecodesTo (signedPacker size) (encodeUi64 (convertIntegral v.val)) v :=
  fun garbage => Subtype.ext (unpackSigned_encodeUi64 v hv garbage)

theorem length_unitBytes {size : CharSize} (c : CodeUnit size) :
    (unitBytes c).length = size.bytes := by
  rw [unitBytes, List.length_reverse, BigEndian.length_bytes]

theorem length_flatMap_unitBytes {size : CharSize} (str : List (CodeUnit size)) :
    (str.flatMap unitBytes).length = str.length * size.bytes := by
  induction str with
  | nil => simp
  | cons c str ih =>
    rw [List.flatMap_cons, List.length_append, ih, length_unitBytes, List.length_cons]
    ring

theorem readUnit_unitBytes {size : CharSize} (c : CodeUnit size) (rest : List ℕ) :
    readUnit size (unitBytes c ++ rest) = c := by
  apply Subtype.ext
  change BigEndian.read 0 _ % _ = _
  rw [List.take_left' (length_unitBytes c), unitBytes, List.reverse_reverse, BigEndian.read_bytes,
    Nat.mod_eq_of_lt c.property, Nat.zero_mul, Nat.zero_add, Nat.mod_eq_of_lt c.property]

theorem readUnits_flatMap {size : CharSize} (str : List (CodeUnit size)) (rest : List ℕ) :
    readUnits size str.length (str.flatMap unitBytes ++ rest) = str := by
  induction str with
  | nil => rfl
  | cons c str ih =>
    rw [List.length_cons, readUnits, List.flatMap_cons, List.append_assoc, readUnit_unitBytes,
      List.drop_left' (length_unitBytes c), ih]

theorem memcpy_eq (before bytes room after : List ℕ) (hroom : room.length = bytes.length) :
    memcpy (before ++ room ++ after) before.length bytes = before ++ bytes ++ after := by
  rw [memcpy, List.append_assoc before, List.take_left, List.drop_append, ← hroom, Nat.add_sub_cancel_left,
    List.drop_left, List.drop_eq_nil_of_le (by omega), List.nil_append]

theorem string_encodes {size : CharSize} (str : List (CodeUnit size)) (hlen : str.length < 2 ^ 64) :
    Encodes (stringPacker size) str (encodeUi64 str.length ++ str.flatMap unitBytes) ∧
      DecodesTo (stringPacker size) (encodeUi64 str.length ++ str.flatMap unitBytes) str := by
  refine ⟨⟨?_, ?_, ?_, ?_⟩, ?_⟩
  · rw [List.length_append, length_encodeUi64, length_flatMap_unitBytes]
    rfl
  · intro b hb
    rcases List.mem_append.mp hb with hb | hb
    · exact lt_of_mem_encodeUi64 hb
    · obtain ⟨c, -, hc⟩ := List.mem_flatMap.mp hb
      exact BigEndian.lt_of_mem_bytes (List.mem_reverse.mp hc)
  · intro before room after hroom
    change room.length = measureUi64 str.length + str.length * size.bytes at hroom
    change memcpy (packUi64 _ _ _ _) (before.length +
      (measureUi64 str.length + str.length * size.bytes - str.length * size.bytes)) _ = _
    obtain ⟨head, body, rfl, hhead⟩ : ∃ head body, room = head ++ body ∧
        head.length = measureUi64 str.length :=
      ⟨_, _, (List.take_append_drop (measureUi64 str.length) room).symm,
        List.length_take_of_le (by omega)⟩
    rw [List.length_append] at hroom
    rw [← List.append_assoc before, List.append_assoc (before ++ head), packUi64_eq _ _ _ _ hhead,
      Nat.add_sub_cancel, ← length_encodeUi64, ← List.length_append, ← List.append_assoc,
      memcpy_eq _ _ _ _ (by rw [length_flatMap_unitBytes]; omega), ← List.append_assoc]
  · intro garbage
    change skipUi64 _ + unpackUi64 _ * size.bytes = _
    rw [List.append_assoc, skipUi64_encodeUi64 hlen, unpackUi64_encodeUi64 hlen]
    rfl
  · intro garbage
    change readUnits size (unpackUi64 _) (List.drop (skipUi64 _) _) = _
    rw [List.append_assoc, skipUi64_encodeUi64 hlen, unpackUi64_encodeUi64 hlen,
      List.drop_left' (length_encodeUi64 _), readUnits_flatMap]

theorem pair_encodes {a : LeafPacker α} {b : LeafPacker β} {v : α ×ₗ β} {first second : List ℕ}
    (ha : Encodes a (ofLex v).1 first) (hb : Encodes b (ofLex v).2 second) :
    Encodes (pairPacker a b) v (first ++ second) := by
  refine ⟨?_, ?_, ?_, ?_⟩
  · rw [List.length_append, ha.length, hb.length]
    rfl
  · intro x hx
    rcases List.mem_append.mp hx with hx | hx
    · exact ha.bounded x hx
    · exact hb.bounded x hx
  · intro before room after hroom
    change room.length = a.measureLeaf _ + b.measureLeaf _ at hroom
    change b.packLeaf (a.packLeaf _ _ _ _) (before.length + a.measureLeaf (ofLex v).1) _
      (b.measureLeaf _) = _
    rw [ha.writes_at before room after rfl (by omega), ← List.append_assoc,
      hb.writes_at (before ++ first) _ after (by rw [List.length_append, ha.length])
        (by rw [List.length_drop]; omega),
      show (room.drop (a.measureLeaf (ofLex v).1)).drop (b.measureLeaf (ofLex v).2) = [] from
        List.drop_eq_nil_of_le (by rw [List.length_drop]; omega)]
    simp
  · intro garbage
    change a.skipLeaf _ + b.skipLeaf (List.drop (a.skipLeaf _) _) = _
    rw [List.append_assoc, ha.drop_skip, ha.skips, hb.skips]
    rfl

theorem pair_decodes {a : LeafPacker α} {b : LeafPacker β} {v : α ×ₗ β} {first second : List ℕ}
    (hfirst : Encodes a (ofLex v).1 first) (ha : DecodesTo a first (ofLex v).1)
    (hb : DecodesTo b second (ofLex v).2) : DecodesTo (pairPacker a b) (first ++ second) v := by
  intro garbage
  change toLex (a.unpackLeaf _, b.unpackLeaf (List.drop (a.skipLeaf _) _)) = v
  rw [List.append_assoc, hfirst.drop_skip, ha, hb]
  rfl

/-- What the elements of a container become, one after the other. -/
inductive EncodesAll (e : LeafPacker α) : List α → List ℕ → Prop
  | nil : EncodesAll e [] []
  | cons {x : α} {xs : List α} {first others : List ℕ} : Encodes e x first →
      EncodesAll e xs others → EncodesAll e (x :: xs) (first ++ others)

theorem measureElements_eq (e : LeafPacker α) (xs : List α) (curSize : ℕ) :
    measureElements e xs curSize = curSize + (xs.map e.measureLeaf).sum := by
  induction xs generalizing curSize with
  | nil => rfl
  | cons x xs ih =>
    change measureElements e xs (curSize + e.measureLeaf x) = _
    rw [ih, List.map_cons, List.sum_cons, Nat.add_assoc]

theorem EncodesAll.length {e : LeafPacker α} {xs : List α} {bytes : List ℕ}
    (h : EncodesAll e xs bytes) : bytes.length = (xs.map e.measureLeaf).sum := by
  induction h with
  | nil => rfl
  | cons hx _ ih => rw [List.length_append, hx.length, ih, List.map_cons, List.sum_cons]

theorem EncodesAll.bounded {e : LeafPacker α} {xs : List α} {bytes : List ℕ}
    (h : EncodesAll e xs bytes) : ∀ b ∈ bytes, b < 256 := by
  induction h with
  | nil => simp
  | cons hx _ ih =>
    intro b hb
    rcases List.mem_append.mp hb with hb | hb
    · exact hx.bounded b hb
    · exact ih b hb

theorem EncodesAll.writes {e : LeafPacker α} {xs : List α} {bytes : List ℕ}
    (h : EncodesAll e xs bytes) (before room after : List ℕ) (offset curSize : ℕ)
    (hoffset : offset + curSize = before.length) (hroom : room.length = bytes.length) :
    packElements e offset xs curSize (before ++ room ++ after) = before ++ bytes ++ after := by
  induction h generalizing before room curSize with
  | nil =>
    rw [List.length_nil] at hroom
    rw [packElements, List.eq_nil_of_length_eq_zero hroom]
  | @cons x xs first others hx _ ih =>
    rw [List.length_append, hx.length] at hroom
    rw [packElements, hx.writes_at before room after hoffset (by omega), ← List.append_assoc,
      ih (before ++ first) _ _ (by rw [List.length_append, hx.length]; omega)
        (by rw [List.length_drop]; omega)]
    simp only [List.append_assoc]

theorem EncodesAll.unpackVector {e : LeafPacker α} {xs : List α} {bytes : List ℕ}
    (h : EncodesAll e xs bytes) (hread : ∀ x ∈ xs, ∀ first, Encodes e x first → DecodesTo e first x)
    (garbage : List ℕ) : unpackVector e xs.length (bytes ++ garbage) = xs := by
  induction h with
  | nil => rfl
  | @cons x xs first others hx _ ih =>
    rw [List.length_cons, Packers.unpackVector, List.append_assoc, hx.drop_skip,
      hread x List.mem_cons_self first hx,
      ih fun y hy => hread y (List.mem_cons_of_mem x hy)]

theorem EncodesAll.unpackSimple {e : LeafPacker α} {xs : List α} {bytes : List ℕ}
    (h : EncodesAll e xs bytes) (hread : ∀ x ∈ xs, ∀ first, Encodes e x first → DecodesTo e first x)
    (insert : C → α → C) (start : C) (garbage : List ℕ) :
    unpackSimple e insert xs.length (bytes ++ garbage) start = xs.foldl insert start := by
  induction h generalizing start with
  | nil => rfl
  | @cons x xs first others hx _ ih =>
    rw [List.length_cons, Packers.unpackSimple, List.append_assoc, hx.drop_skip,
      hread x List.mem_cons_self first hx,
      ih fun y hy => hread y (List.mem_cons_of_mem x hy), List.foldl_cons]

/-- The size of the whole, the number of the elements, and the elements. -/
def containerBytes (size len : ℕ) (bytes : List ℕ) : List ℕ :=
  encodeUi64 size ++ (encodeUi64 len ++ bytes)

theorem container_encodes {e : LeafPacker α} {elements : C → List α} {unpack : ℕ → List ℕ → C}
    {v : C} {bytes : List ℕ} (h : EncodesAll e (elements v) bytes)
    (hsize : (containerPacker e elements unpack).measureLeaf v < 2 ^ 64) :
    Encodes (containerPacker e elements unpack) v (containerBytes
      ((containerPacker e elements unpack).measureLeaf v) (elements v).length bytes) := by
  have hmeasure : (containerPacker e elements unpack).measureLeaf v =
      measureUi64 (elements v).length + bytes.length +
        measureUi64 ((containerPacker e elements unpack).measureLeaf v) := by
    change withOwnSize _ = _ + measureUi64 (withOwnSize _)
    rw [measureElements_eq, h.length]
    exact measureUi64_withOwnSize _
  generalize hs : (containerPacker e elements unpack).measureLeaf v = size at *
  refine ⟨?_, ?_, ?_, ?_⟩
  · rw [hs, containerBytes, List.length_append, List.length_append, length_encodeUi64,
      length_encodeUi64]
    omega
  · intro b hb
    rcases List.mem_append.mp hb with hb | hb
    · exact lt_of_mem_encodeUi64 hb
    · rcases List.mem_append.mp hb with hb | hb
      · exact lt_of_mem_encodeUi64 hb
      · exact h.bounded b hb
  · intro before room after hroom
    rw [hs] at hroom ⊢
    obtain ⟨own, rest, rfl, hown⟩ : ∃ own rest, room = own ++ rest ∧
        own.length = measureUi64 size :=
      ⟨_, _, (List.take_append_drop (measureUi64 size) room).symm,
        List.length_take_of_le (by omega)⟩
    obtain ⟨number, body, rfl, hnumber⟩ : ∃ number body, rest = number ++ body ∧
        number.length = measureUi64 (elements v).length := by
      rw [List.length_append] at hroom
      exact ⟨_, _, (List.take_append_drop (measureUi64 (elements v).length) rest).symm,
        List.length_take_of_le (by omega)⟩
    simp only [List.length_append] at hroom
    change packElements e before.length (elements v)
      (measureUi64 (elements v).length + measureUi64 size) (packUi64 (packUi64 _ _ _ _) _ _ _) = _
    have hfirst := packUi64_eq before own (number ++ (body ++ after)) size hown
    have hsecond := packUi64_eq (before ++ encodeUi64 size) number (body ++ after)
      (elements v).length hnumber
    simp only [List.append_assoc, List.length_append, length_encodeUi64] at hfirst hsecond ⊢
    rw [hfirst, hsecond]
    have hbody := h.writes (before ++ (encodeUi64 size ++ encodeUi64 (elements v).length)) body
      after before.length (measureUi64 (elements v).length + measureUi64 size)
      (by simp only [List.length_append, length_encodeUi64]; omega) (by omega)
    simp only [List.append_assoc] at hbody
    rw [hbody, containerBytes]
    simp only [List.append_assoc]
  · intro garbage
    change unpackUi64 _ = _
    rw [containerBytes, List.append_assoc, unpackUi64_encodeUi64 hsize, hs]

theorem container_decodes {e : LeafPacker α} {elements : C → List α} {unpack : ℕ → List ℕ → C}
    {v : C} {bytes : List ℕ} {size : ℕ} (hsize : size < 2 ^ 64)
    (hlen : (elements v).length < 2 ^ 64)
    (hunpack : ∀ garbage, unpack (elements v).length (bytes ++ garbage) = v) :
    DecodesTo (containerPacker e elements unpack)
      (containerBytes size (elements v).length bytes) v := by
  intro garbage
  change unpack (unpackUi64 (List.drop (skipUi64 _) _)) (List.drop (skipUi64 _ + _) _) = v
  rw [containerBytes, List.append_assoc, skipUi64_encodeUi64 hsize, ← List.drop_drop,
    List.drop_left' (length_encodeUi64 size), List.append_assoc, unpackUi64_encodeUi64 hlen,
    skipUi64_encodeUi64 hlen, List.drop_left' (length_encodeUi64 _), hunpack]

theorem foldl_append_singleton (xs start : List α) :
    xs.foldl (fun ys x => ys ++ [x]) start = start ++ xs := by
  induction xs generalizing start with
  | nil => simp
  | cons x xs ih => rw [List.foldl_cons, ih, List.append_assoc, List.singleton_append]

theorem insertInto_of_lt [LinearOrder α] {x : α} {xs : List α} (h : ∀ y ∈ xs, y < x) :
    insertInto x xs = xs ++ [x] := by
  induction xs with
  | nil => rfl
  | cons y ys ih =>
    rw [insertInto, if_pos (h y List.mem_cons_self),
      ih fun z hz => h z (List.mem_cons_of_mem y hz), List.cons_append]

theorem foldl_insert [LinearOrder α] (xs : List α) (s : SortedSet α)
    (h : (s.val ++ xs).Pairwise (· < ·)) : (xs.foldl SortedSet.insert s).val = s.val ++ xs := by
  induction xs generalizing s with
  | nil => simp
  | cons x xs ih =>
    have hinsert : (s.insert x).val = s.val ++ [x] :=
      insertInto_of_lt fun y hy =>
        (List.pairwise_append.mp h).2.2 y hy x List.mem_cons_self
    rw [List.foldl_cons, ih _ (by rw [hinsert]; simpa using h), hinsert, List.append_assoc,
      List.singleton_append]

/-- No component of the value is the least signed number of 64 bits. -/
def WithoutLeast : (t : Ty) → t.Val → Prop
  | .unsigned _, _ => True
  | .signed size, v =>
    let n : Signed size := v
    n.val ≠ -2 ^ 63
  | .string _, _ => True
  | .vector t, v =>
    let xs : List t.Val := v
    ∀ x ∈ xs, WithoutLeast t x
  | .list t, v =>
    let xs : List t.Val := v
    ∀ x ∈ xs, WithoutLeast t x
  | .set t, v =>
    let s : SortedSet t.Val := v
    ∀ x ∈ s.val, WithoutLeast t x
  | .pair a b, v =>
    let p : a.Val × b.Val := ofLex v
    WithoutLeast a p.1 ∧ WithoutLeast b p.2

theorem Encodes.unique {k : LeafPacker α} {v : α} {bytes bytes' : List ℕ} (h : Encodes k v bytes)
    (h' : Encodes k v bytes') : bytes = bytes' := by
  have hroom : (List.replicate (k.measureLeaf v) 0).length = k.measureLeaf v :=
    List.length_replicate
  have heq := (h.writes [] _ [] hroom).symm.trans (h'.writes [] _ [] hroom)
  simpa using heq

/-- A packer whose values are written, and read back if they are as required. -/
def Sound (k : LeafPacker α) (good : α → Prop) : Prop :=
  ∀ v, k.measureLeaf v < 2 ^ 64 → ∃ bytes, Encodes k v bytes ∧ (good v → DecodesTo k bytes v)

theorem Sound.encodesAll {e : LeafPacker α} {good : α → Prop} (h : Sound e good) (xs : List α)
    (hsize : (xs.map e.measureLeaf).sum < 2 ^ 64) : ∃ bytes, EncodesAll e xs bytes := by
  induction xs with
  | nil => exact ⟨[], .nil⟩
  | cons x xs ih =>
    rw [List.map_cons, List.sum_cons] at hsize
    obtain ⟨first, hfirst, -⟩ := h x (by omega)
    obtain ⟨others, hothers⟩ := ih (by omega)
    exact ⟨first ++ others, .cons hfirst hothers⟩

theorem Sound.decodesTo {e : LeafPacker α} {good : α → Prop} (h : Sound e good) {x : α}
    (hx : good x) (hsize : e.measureLeaf x < 2 ^ 64) {first : List ℕ} (hfirst : Encodes e x first) :
    DecodesTo e first x := by
  obtain ⟨bytes, hbytes, hread⟩ := h x hsize
  rw [hfirst.unique hbytes]
  exact hread hx

theorem container_sound {e : LeafPacker α} {good : α → Prop} (h : Sound e good)
    (hpos : ∀ x, 0 < e.measureLeaf x) {elements : C → List α} {unpack : ℕ → List ℕ → C}
    (hunpack : ∀ v bytes garbage, EncodesAll e (elements v) bytes →
      (∀ x ∈ elements v, ∀ first, Encodes e x first → DecodesTo e first x) →
      unpack (elements v).length (bytes ++ garbage) = v) :
    Sound (containerPacker e elements unpack) fun v => ∀ x ∈ elements v, good x := by
  intro v hsize
  have hle : ((elements v).map e.measureLeaf).sum ≤
      (containerPacker e elements unpack).measureLeaf v := by
    change _ ≤ withOwnSize _
    rw [withOwnSize, measureElements_eq]
    omega
  have hlen : (elements v).length ≤ ((elements v).map e.measureLeaf).sum := by
    have := List.length_le_sum_of_one_le ((elements v).map e.measureLeaf) (by
      intro n hn
      obtain ⟨x, -, rfl⟩ := List.mem_map.mp hn
      exact hpos x)
    rwa [List.length_map] at this
  obtain ⟨bytes, hbytes⟩ := h.encodesAll (elements v) (by omega)
  refine ⟨_, container_encodes hbytes hsize, fun hgood => ?_⟩
  apply container_decodes hsize (by omega)
  intro garbage
  refine hunpack v bytes garbage hbytes fun x hx first hfirst => ?_
  have hmem : e.measureLeaf x ≤ ((elements v).map e.measureLeaf).sum :=
    List.single_le_sum (by simp) _ (List.mem_map_of_mem hx)
  exact h.decodesTo (hgood x hx) (by omega) hfirst

theorem vector_sound {e : LeafPacker α} {good : α → Prop} (h : Sound e good)
    (hpos : ∀ x, 0 < e.measureLeaf x) : Sound (vectorPacker e) fun xs => ∀ x ∈ xs, good x := by
  unfold vectorPacker
  apply container_sound h hpos
  intro xs bytes garbage hbytes hread
  exact hbytes.unpackVector hread garbage

theorem list_sound {e : LeafPacker α} {good : α → Prop} (h : Sound e good)
    (hpos : ∀ x, 0 < e.measureLeaf x) : Sound (listPacker e) fun xs => ∀ x ∈ xs, good x := by
  unfold listPacker
  apply container_sound h hpos
  intro xs bytes garbage hbytes hread
  rw [hbytes.unpackSimple hread, foldl_append_singleton, List.nil_append, id]

theorem set_sound [LinearOrder α] {e : LeafPacker α} {good : α → Prop} (h : Sound e good)
    (hpos : ∀ x, 0 < e.measureLeaf x) : Sound (setPacker e) fun s => ∀ x ∈ s.val, good x := by
  unfold setPacker
  apply container_sound h hpos
  intro s bytes garbage hbytes hread
  rw [hbytes.unpackSimple hread]
  exact Subtype.ext (foldl_insert s.val ⟨[], .nil⟩ s.property)

theorem pair_sound {a : LeafPacker α} {b : LeafPacker β} {good : α → Prop} {good' : β → Prop}
    (ha : Sound a good) (hb : Sound b good') :
    Sound (pairPacker a b) fun v => good (ofLex v).1 ∧ good' (ofLex v).2 := by
  intro v hsize
  have hsum : a.measureLeaf (ofLex v).1 + b.measureLeaf (ofLex v).2 < 2 ^ 64 := hsize
  obtain ⟨first, hfirst, hreadFirst⟩ := ha (ofLex v).1 (by omega)
  obtain ⟨second, hsecond, hreadSecond⟩ := hb (ofLex v).2 (by omega)
  exact ⟨_, pair_encodes hfirst hsecond,
    fun hv => pair_decodes hfirst (hreadFirst hv.1) (hreadSecond hv.2)⟩

theorem Ty.measureLeaf_pos (t : Ty) (v : t.Val) : 0 < t.packer.measureLeaf v := by
  have hcontainer : ∀ curSize, 0 < withOwnSize curSize := by
    intro curSize
    have := (measureUi64_mem (curSize + measureUi64 curSize)).1
    rw [withOwnSize]
    omega
  induction t with
  | unsigned size => exact (measureUi64_mem _).1
  | signed size => exact (measureUi64_mem _).1
  | string size => exact Nat.add_pos_left (measureUi64_mem _).1 _
  | vector t _ => exact hcontainer _
  | list t _ => exact hcontainer _
  | set t _ => exact hcontainer _
  | pair a b iha _ => exact Nat.add_pos_left (iha _) _

theorem packer_sound (t : Ty) : Sound t.packer (WithoutLeast t) := by
  induction t with
  | unsigned size =>
    intro v _
    have h := unsigned_encodes v
    exact ⟨_, h.1, fun _ => h.2⟩
  | signed size =>
    intro v _
    exact ⟨_, signed_encodes v, fun hv => signed_decodes hv⟩
  | string size =>
    intro v hsize
    have hlen : List.length (α := CodeUnit size) v < 2 ^ 64 := by
      change measureUi64 _ + List.length (α := CodeUnit size) v * size.bytes < _ at hsize
      cases size <;> simp only [CharSize.bytes] at hsize <;> omega
    have h := string_encodes v hlen
    exact ⟨_, h.1, fun _ => h.2⟩
  | vector t ih => exact vector_sound ih t.measureLeaf_pos
  | list t ih => exact list_sound ih t.measureLeaf_pos
  | set t ih => exact set_sound ih t.measureLeaf_pos
  | pair a b iha ihb => exact pair_sound iha ihb

theorem mem_unpackVector {e : LeafPacker α} {len : ℕ} {p : List ℕ} {x : α}
    (h : x ∈ unpackVector e len p) : ∃ q, x = e.unpackLeaf q := by
  induction len generalizing p with
  | zero => simp [unpackVector] at h
  | succ len ih =>
    rcases List.mem_cons.mp h with rfl | h
    · exact ⟨p, rfl⟩
    · exact ih h

theorem unpackSimple_induction {e : LeafPacker α} {insert : C → α → C} {P : C → Prop}
    (hinsert : ∀ c q, P c → P (insert c (e.unpackLeaf q))) (len : ℕ) (p : List ℕ) {start : C}
    (hstart : P start) : P (unpackSimple e insert len p start) := by
  induction len generalizing p start with
  | zero => exact hstart
  | succ len ih => exact ih _ (hinsert _ _ hstart)

theorem withoutLeast_unpackLeaf (t : Ty) (p : List ℕ) : WithoutLeast t (t.packer.unpackLeaf p) := by
  induction t generalizing p with
  | unsigned size => trivial
  | signed size => exact unpackSigned_ne size p
  | string size => trivial
  | vector t ih =>
    intro x hx
    obtain ⟨q, rfl⟩ := mem_unpackVector hx
    exact ih q
  | list t ih =>
    refine unpackSimple_induction (P := fun xs : List t.Val => ∀ x ∈ xs, WithoutLeast t x)
      (fun xs q hxs x hx => ?_) _ _ (by simp)
    rcases List.mem_append.mp hx with hx | hx
    · exact hxs x hx
    · rw [List.mem_singleton.mp hx]
      exact ih q
  | set t ih =>
    refine unpackSimple_induction
      (P := fun s : SortedSet t.Val => ∀ x ∈ s.val, WithoutLeast t x)
      (fun s q hs x hx => ?_) _ _ (by simp)
    rcases mem_insertInto hx with rfl | hx
    · exact ih q
    · exact hs x hx
  | pair a b iha ihb => exact ⟨iha _, ihb _⟩

theorem roundTrips_packer_iff (t : Ty) (v : t.Val) (hsize : t.packer.measureLeaf v < 2 ^ 64) :
    RoundTrips t.packer v ↔ WithoutLeast t v := by
  obtain ⟨bytes, hbytes, hread⟩ := packer_sound t v hsize
  constructor
  · rintro ⟨bytes', -, hread'⟩
    rw [← hread' []]
    exact withoutLeast_unpackLeaf t _
  · exact fun hv => ⟨bytes, hbytes, hread hv⟩

theorem roundTrips_articleBucket (bucket : Bucket) : RoundTrips articleBucketPacker bucket := by
  have hsimple := unsigned_encodes bucket.simpleIndex
  have hfilter := unsigned_encodes bucket.filterIndex
  have hpair := pair_encodes (v := toLex (bucket.simpleIndex, bucket.filterIndex))
    hsimple.1 hfilter.1
  refine ⟨_, ⟨hpair.length, hpair.bounded, fun before room after hroom => ?_, hpair.skips⟩,
    fun garbage => ?_⟩
  · have hwrites := hpair.writes before room after hroom
    change (unsignedPacker .four).packLeaf _ _ _ (_ + _ - _) = _
    rw [Nat.add_sub_cancel_left]
    exact hwrites
  · change Bucket.mk ((unsignedPacker .four).unpackLeaf _) ((unsignedPacker .four).unpackLeaf
      (List.drop ((unsignedPacker .four).skipLeaf _) _)) = bucket
    rw [List.append_assoc, hsimple.1.drop_skip, hsimple.2, hfilter.2]

/-- A packer all of whose values come back, as the tries use it. -/
def LeafPacker.toPacker (k : LeafPacker α) (h : ∀ v, RoundTrips k v) : Comptrie.Packer α where
  packLeaf v := k.packLeaf (List.replicate (k.measureLeaf v) 0) 0 v (k.measureLeaf v)
  unpackLeaf := k.unpackLeaf
  skipLeaf := k.skipLeaf
  skipLeaf_packLeaf v rest := by
    obtain ⟨bytes, hbytes, -⟩ := h v
    have hwrites := hbytes.writes [] (List.replicate (k.measureLeaf v) 0) [] List.length_replicate
    simp only [List.nil_append, List.append_nil, List.length_nil] at hwrites
    rw [hwrites, hbytes.skips, hbytes.length]
  unpackLeaf_packLeaf v rest := by
    obtain ⟨bytes, hbytes, hread⟩ := h v
    have hwrites := hbytes.writes [] (List.replicate (k.measureLeaf v) 0) [] List.length_replicate
    simp only [List.nil_append, List.append_nil, List.length_nil] at hwrites
    rw [hwrites, hread]

/-- The leaves of the gazetteer's tries. -/
def bucketLeaf : Comptrie.Packer Bucket := articleBucketPacker.toPacker roundTrips_articleBucket

/-- Every packer reads back just the values without the least signed number of 64 bits. -/
theorem packers_roundTrip_iff (t : Ty) (v : t.Val) (hv : t.packer.measureLeaf v < 2 ^ 64) :
    (RoundTrips t.packer v ↔ WithoutLeast t v) ∧
      ∀ bucket, RoundTrips articleBucketPacker bucket :=
  ⟨roundTrips_packer_iff t v hv, roundTrips_articleBucket⟩

def leastInt64 : Signed .eight := ⟨-2 ^ 63, by decide⟩

def numbersAndLetter : (Ty.pair (.set (.signed .eight)) (.string .two)).Val :=
  toLex ((⟨[⟨-2, by decide⟩, ⟨5, by decide⟩], by decide⟩ : SortedSet (Signed .eight)),
    ([⟨1040, by decide⟩] : List (CodeUnit .two)))

/-- A pair of a set of signed numbers and a string comes back. -/
theorem packers_roundTrip_iff_pair :
    RoundTrips (Ty.packer (.pair (.set (.signed .eight)) (.string .two))) numbersAndLetter :=
  (packers_roundTrip_iff (.pair (.set (.signed .eight)) (.string .two)) _ (by decide)).1.mpr
    ⟨List.forall_mem_cons.mpr ⟨show (-2 : ℤ) ≠ -2 ^ 63 by decide,
      List.forall_mem_singleton.mpr (show (5 : ℤ) ≠ -2 ^ 63 by decide)⟩, trivial⟩

/-- The magnitude of the least number loses its only bit when the sign is put below it. -/
theorem leastInt64_not_roundTrips :
    (Ty.packer (.signed .eight)).measureLeaf leastInt64 = 1 ∧
      (Ty.packer (.signed .eight)).packLeaf [0] 0 leastInt64 1 = [1] ∧
      (Ty.packer (.signed .eight)).unpackLeaf [1] = (⟨0, by decide⟩ : Signed .eight) ∧
      ¬ RoundTrips (Ty.packer (.signed .eight)) leastInt64 := by
  refine ⟨by decide, by decide, Subtype.ext (by decide), ?_⟩
  rintro ⟨bytes, hbytes, hread⟩
  have hwrites : [1] = bytes :=
    (hbytes.writes [] [0] [] rfl).trans (by rw [List.nil_append, List.append_nil])
  have hzero : unpackSigned 64 [1] = -2 ^ 63 := by
    rw [hwrites, ← List.append_nil bytes]
    exact congrArg (fun n : Signed .eight => n.val) (hread [])
  exact absurd hzero (by decide)

end TomitaParser.Packers
