import TomitaParser.Comptrie.Builder
import TomitaParser.Lib.BigEndian
import TomitaParser.Lib.Median
/-! # The layout of a compact trie

The arcs of a node are written as a search tree: the arc in the middle first, then those below it,
then those above it. An arc has the offsets of the two parts in its head, which is why their sizes
count towards the offsets. -/

namespace TomitaParser.Comptrie

/-- A packer whose values can be told from what follows them. -/
structure Packer (Data : Type) where
  packLeaf : Data → List ℕ
  unpackLeaf : List ℕ → Data
  skipLeaf : List ℕ → ℕ
  skipLeaf_packLeaf : ∀ v rest, skipLeaf (packLeaf v ++ rest) = (packLeaf v).length
  unpackLeaf_packLeaf : ∀ v rest, unpackLeaf (packLeaf v ++ rest) = v

def measureOffset (offset : ℕ) : ℕ := BigEndian.size offset

def packOffset (offset : ℕ) : List ℕ := BigEndian.bytes (measureOffset offset) offset

def unpackOffset (p : List ℕ) (len : ℕ) : ℕ := BigEndian.read 0 (p.take len)

@[simp]
theorem length_packOffset (offset : ℕ) : (packOffset offset).length = measureOffset offset :=
  BigEndian.length_bytes _ _

theorem unpackOffset_packOffset (offset : ℕ) (rest : List ℕ) :
    unpackOffset (packOffset offset ++ rest) (measureOffset offset) = offset := by
  rw [unpackOffset, List.take_left' (length_packOffset offset)]
  exact BigEndian.read_bytes_size offset

/-- The flags of a byte of a label: three bits for each offset's size, `MT_NEXT` and `MT_FINAL`. -/
def arcFlags (leftoffsetsize rightoffsetsize : ℕ) (isFinal hasNext : Bool) : ℕ :=
  (leftoffsetsize <<< 3 ||| rightoffsetsize ||| (if isFinal then 0x80 else 0) |||
    (if hasNext then 0x40 else 0)) % 256

def isFinalLink (flags : ℕ) : Bool := flags.testBit 7
def isNextLink (flags : ℕ) : Bool := flags.testBit 6
def isEpsilonLink (flags : ℕ) : Bool := !(isFinalLink flags || isNextLink flags)
def leftOffsetLen (flags : ℕ) : ℕ := (flags >>> 3) &&& 7
def rightOffsetLen (flags : ℕ) : ℕ := flags &&& 7

theorem flags_arcFlags {l r : ℕ} (hl : l ≤ 7) (hr : r ≤ 7) (isFinal hasNext : Bool) :
    isFinalLink (arcFlags l r isFinal hasNext) = isFinal ∧
      isNextLink (arcFlags l r isFinal hasNext) = hasNext ∧
      leftOffsetLen (arcFlags l r isFinal hasNext) = l ∧
      rightOffsetLen (arcFlags l r isFinal hasNext) = r := by
  have hall : ∀ (l r : Fin 8) (isFinal hasNext : Bool),
      isFinalLink (arcFlags l r isFinal hasNext) = isFinal ∧
        isNextLink (arcFlags l r isFinal hasNext) = hasNext ∧
        leftOffsetLen (arcFlags l r isFinal hasNext) = l ∧
        rightOffsetLen (arcFlags l r isFinal hasNext) = r := by
    decide +kernel
  exact hall ⟨l, by omega⟩ ⟨r, by omega⟩ isFinal hasNext

/-- An arc with what its node measures and saves. -/
structure Row where
  first : ℕ
  more : List ℕ
  isFinal : Bool
  isLast : Bool
  leafSize : ℕ
  leaf : List ℕ
  treeSize : ℕ
  tree : List ℕ

/-- `LeftOffset` and `RightOffset` of an arc, and the size of its part of the search tree. -/
structure ArcSizes where
  leftOffset : ℕ
  rightOffset : ℕ
  total : ℕ

/-- The size of an offset to a part of the search tree, if there is one. -/
def offsetSize (size offset : ℕ) : ℕ :=
  if size ≠ 0 then measureOffset offset else 0

/-- `ArcMeasure`. The sizes of the offsets are measured three times, as they count towards the
offsets. -/
def arcMeasure (thiz : Row) (leftsize rightsize : ℕ) : ArcSizes :=
  let coresize := 2 + thiz.leafSize
  let treesize := thiz.treeSize + 2 * thiz.more.length
  let left₁ := offsetSize leftsize (coresize + treesize)
  let right₁ := offsetSize rightsize (coresize + treesize + leftsize)
  let left₂ := offsetSize leftsize (coresize + treesize + left₁ + right₁)
  let right₂ := offsetSize rightsize (coresize + treesize + leftsize + left₂ + right₁)
  let left₃ := offsetSize leftsize (coresize + treesize + left₂ + right₂)
  let right₃ := offsetSize rightsize (coresize + treesize + leftsize + left₃ + right₂)
  let coresize := coresize + (left₃ + right₃)
  { leftOffset := if leftsize ≠ 0 then coresize + treesize else 0
    rightOffset := if rightsize ≠ 0 then coresize + treesize + leftsize else 0
    total := coresize + treesize + leftsize + rightsize }

/-- The bytes of a label after the first one. The last one has the flags of the node. -/
def saveLabel (isFinal hasNext : Bool) : List ℕ → List ℕ
  | [] => []
  | [b] => [arcFlags 0 0 isFinal hasNext, b]
  | b :: bs => arcFlags 0 0 false true :: b :: saveLabel isFinal hasNext bs

/-- Whether the first byte of the label has `MT_FINAL`. -/
def Row.headFinal (row : Row) : Bool := if row.more = [] then row.isFinal else false

/-- Whether the first byte of the label has `MT_NEXT`. -/
def Row.headNext (row : Row) : Bool := if row.more = [] then !row.isLast else true

/-- What comes after the first byte of the label and the offsets. -/
def Row.body (row : Row) : List ℕ :=
  saveLabel row.isFinal (!row.isLast) row.more ++ (row.leaf ++ row.tree)

/-- `ArcSave`. -/
def arcSave (thiz : Row) (leftOffset rightOffset : ℕ) : List ℕ :=
  arcFlags (measureOffset leftOffset) (measureOffset rightOffset) thiz.headFinal thiz.headNext ::
    thiz.first :: (packOffset leftOffset ++ (packOffset rightOffset ++ thiz.body))

/-- `MeasureRange`. -/
def measureRange : List Row → ℕ :=
  Median.recurse 0 fun _ arc _ leftsize rightsize => (arcMeasure arc leftsize rightsize).total

/-- `SaveRange`, with the offsets that `MeasureRange` has left in the arc. -/
def saveRange : List Row → List ℕ :=
  Median.recurse [] fun left arc right savedLeft savedRight =>
    let sizes := arcMeasure arc (measureRange left) (measureRange right)
    arcSave arc sizes.leftOffset sizes.rightOffset ++ (savedLeft ++ savedRight)

variable {Data : Type} (packer : Packer Data)

def nodeMeasureLeafValue : Option Data → ℕ
  | none => 0
  | some v => packer.skipLeaf (packer.packLeaf v)

def nodeSaveLeafValue : Option Data → List ℕ
  | none => []
  | some v => (packer.packLeaf v).take (packer.skipLeaf (packer.packLeaf v))

/-- Whether a node has no arcs. -/
def Arcs.isLast : Arcs Data → Bool
  | .nil => true
  | .cons _ _ _ _ _ => false

/-- The arcs of a node, each with what its own node measures and saves. -/
def Arcs.rows : Arcs Data → List Row
  | .nil => []
  | .cons first more payload children rest =>
    { first
      more
      isFinal := payload.isSome
      isLast := children.isLast
      leafSize := nodeMeasureLeafValue packer payload
      leaf := nodeSaveLeafValue packer payload
      treeSize := measureRange children.rows
      tree := saveRange children.rows } :: rest.rows

def nodeMeasureSubtree (arcs : Arcs Data) : ℕ := measureRange (arcs.rows packer)

def nodeSaveSubtree (arcs : Arcs Data) : List ℕ := saveRange (arcs.rows packer)

/-- `Save`: nothing for the exception, when not as much is written as was measured. -/
def save (root : Arcs Data) : Option (List ℕ) :=
  if nodeMeasureSubtree packer root ≠ (nodeSaveSubtree packer root).length then none
  else some (nodeSaveSubtree packer root)

/-- Two numbers measured in turn, each of which grows by one at most, have settled after the third
time. -/
theorem settled_of_three {f g : ℕ → ℕ} (hf : ∀ m n, m ≤ n → f m ≤ f n)
    (hg : ∀ m n, m ≤ n → g m ≤ g n) (hf₁ : ∀ d ≤ 16, f d ≤ f 0 + 1)
    (hg₁ : ∀ d ≤ 16, g d ≤ g 0 + 1) (hf₀ : f 0 ≤ 7) (hg₀ : g 0 ≤ 7) {l₁ r₁ l₂ r₂ l₃ r₃ : ℕ}
    (hl₁ : l₁ = f 0) (hr₁ : r₁ = g 0) (hl₂ : l₂ = f (l₁ + r₁)) (hr₂ : r₂ = g (l₂ + r₁))
    (hl₃ : l₃ = f (l₂ + r₂)) (hr₃ : r₃ = g (l₃ + r₂)) :
    f (l₃ + r₃) = l₃ ∧ g (l₃ + r₃) = r₃ := by
  have hl₁₂ : l₁ ≤ l₂ := by
    rw [hl₁, hl₂]
    exact hf _ _ (Nat.zero_le _)
  have hl₂_le : l₂ ≤ l₁ + 1 := by
    rw [hl₂, hl₁]
    exact hf₁ _ (by omega)
  have hr₁₂ : r₁ ≤ r₂ := by
    rw [hr₁, hr₂]
    exact hg _ _ (Nat.zero_le _)
  have hr₂_le : r₂ ≤ r₁ + 1 := by
    rw [hr₂, hr₁]
    exact hg₁ _ (by omega)
  have hl₂₃ : l₂ ≤ l₃ := by
    rw [hl₂, hl₃]
    exact hf _ _ (by omega)
  have hl₃_le : l₃ ≤ l₁ + 1 := by
    rw [hl₃, hl₁]
    exact hf₁ _ (by omega)
  have hr₂₃ : r₂ ≤ r₃ := by
    rw [hr₂, hr₃]
    exact hg _ _ (by omega)
  have hr₃_le : r₃ ≤ r₁ + 1 := by
    rw [hr₃, hr₁]
    exact hg₁ _ (by omega)
  have hl₄ : l₃ ≤ f (l₃ + r₃) := by
    nth_rewrite 1 [hl₃]
    exact hf _ _ (by omega)
  have hl₄_le : f (l₃ + r₃) ≤ l₁ + 1 := by
    rw [hl₁]
    exact hf₁ _ (by omega)
  have hr₄ : r₃ ≤ g (l₃ + r₃) := by
    nth_rewrite 1 [hr₃]
    exact hg _ _ (by omega)
  have hr₄_le : g (l₃ + r₃) ≤ r₁ + 1 := by
    rw [hr₁]
    exact hg₁ _ (by omega)
  -- a number that has grown stays, and two that have not are measured as before
  have hleft : f (l₃ + r₃) = l₃ := by
    by_cases hgrown : l₃ = l₁ + 1
    · omega
    · by_cases hright : r₃ = r₂
      · have hl : l₃ = l₂ := by omega
        rw [hright]
        nth_rewrite 1 [hl]
        exact hl₃.symm
      · have hl : l₃ = l₁ := by omega
        have hr : r₂ = r₁ := by omega
        exfalso
        apply hright
        calc
          r₃ = g (l₃ + r₂) := hr₃
          _ = g (l₂ + r₁) := by rw [hr, hl, show l₂ = l₁ by omega]
          _ = r₂ := hr₂.symm
  refine ⟨hleft, ?_⟩
  by_cases hright : r₃ = r₂
  · nth_rewrite 1 [hright]
    exact hr₃.symm
  · omega

theorem offsetSize_mono (size base : ℕ) {m n : ℕ} (h : m ≤ n) :
    offsetSize size (base + m) ≤ offsetSize size (base + n) := by
  rw [offsetSize, offsetSize]
  split_ifs
  · exact BigEndian.size_mono (by omega)
  · exact le_refl _

theorem offsetSize_add_le (size : ℕ) {base : ℕ} (hbase : 0 < base) {d : ℕ} (hd : d ≤ 16) :
    offsetSize size (base + d) ≤ offsetSize size (base + 0) + 1 := by
  rw [offsetSize, offsetSize]
  split_ifs
  · exact BigEndian.size_add_le hbase (by omega)
  · exact Nat.zero_le _

theorem measureOffset_ite (size offset : ℕ) :
    measureOffset (if size ≠ 0 then offset else 0) = offsetSize size offset := by
  rw [offsetSize]
  split_ifs
  · rfl
  · exact BigEndian.size_zero

theorem measureOffset_le {offset : ℕ} (h : offset < 2 ^ 56) : measureOffset offset ≤ 7 := by
  rw [measureOffset, BigEndian.size_le_iff]
  exact lt_of_lt_of_eq h (by norm_num)

theorem offsetSize_le (size : ℕ) {offset : ℕ} (h : offset < 2 ^ 56) :
    offsetSize size offset ≤ 7 := by
  rw [offsetSize]
  split_ifs
  · exact measureOffset_le h
  · exact Nat.zero_le _

/-- What `ArcMeasure` leaves: the offsets are the distances to the two parts, where there are such
parts, and the total counts the offsets themselves. -/
structure ArcSizes.Exact (sizes : ArcSizes) (thiz : Row) (leftsize rightsize : ℕ) : Prop where
  left : leftsize ≠ 0 → sizes.leftOffset + leftsize + rightsize = sizes.total
  right : rightsize ≠ 0 → sizes.rightOffset + rightsize = sizes.total
  left_eq_zero : leftsize = 0 → sizes.leftOffset = 0
  right_eq_zero : rightsize = 0 → sizes.rightOffset = 0
  total : 2 + thiz.leafSize + (thiz.treeSize + 2 * thiz.more.length) +
    (measureOffset sizes.leftOffset + measureOffset sizes.rightOffset) + leftsize + rightsize =
      sizes.total

theorem arcMeasure_exact {thiz : Row} {leftsize rightsize : ℕ}
    (h : (arcMeasure thiz leftsize rightsize).total < 2 ^ 56) :
    (arcMeasure thiz leftsize rightsize).Exact thiz leftsize rightsize := by
  obtain ⟨l₁, hl₁⟩ : ∃ n, n = offsetSize leftsize
    (2 + thiz.leafSize + (thiz.treeSize + 2 * thiz.more.length)) := ⟨_, rfl⟩
  obtain ⟨r₁, hr₁⟩ : ∃ n, n = offsetSize rightsize
    (2 + thiz.leafSize + (thiz.treeSize + 2 * thiz.more.length) + leftsize) := ⟨_, rfl⟩
  obtain ⟨l₂, hl₂⟩ : ∃ n, n = offsetSize leftsize
    (2 + thiz.leafSize + (thiz.treeSize + 2 * thiz.more.length) + l₁ + r₁) := ⟨_, rfl⟩
  obtain ⟨r₂, hr₂⟩ : ∃ n, n = offsetSize rightsize
    (2 + thiz.leafSize + (thiz.treeSize + 2 * thiz.more.length) + leftsize + l₂ + r₁) := ⟨_, rfl⟩
  obtain ⟨l₃, hl₃⟩ : ∃ n, n = offsetSize leftsize
    (2 + thiz.leafSize + (thiz.treeSize + 2 * thiz.more.length) + l₂ + r₂) := ⟨_, rfl⟩
  obtain ⟨r₃, hr₃⟩ : ∃ n, n = offsetSize rightsize
    (2 + thiz.leafSize + (thiz.treeSize + 2 * thiz.more.length) + leftsize + l₃ + r₂) := ⟨_, rfl⟩
  have hsizes : arcMeasure thiz leftsize rightsize =
      { leftOffset := if leftsize ≠ 0 then
          2 + thiz.leafSize + (l₃ + r₃) + (thiz.treeSize + 2 * thiz.more.length) else 0
        rightOffset := if rightsize ≠ 0 then
          2 + thiz.leafSize + (l₃ + r₃) + (thiz.treeSize + 2 * thiz.more.length) + leftsize else 0
        total := 2 + thiz.leafSize + (l₃ + r₃) + (thiz.treeSize + 2 * thiz.more.length) +
          leftsize + rightsize } := by
    rw [hr₃, hl₃, hr₂, hl₂, hr₁, hl₁]
    rfl
  rw [hsizes] at h ⊢
  generalize hbase : 2 + thiz.leafSize + (thiz.treeSize + 2 * thiz.more.length) = base at *
  simp only at h
  have hsettled := @settled_of_three (fun d => offsetSize leftsize (base + d))
    (fun d => offsetSize rightsize (base + leftsize + d))
    (fun m n hmn => offsetSize_mono leftsize base hmn)
    (fun m n hmn => offsetSize_mono rightsize (base + leftsize) hmn)
    (fun d hd => offsetSize_add_le leftsize (by omega) hd)
    (fun d hd => offsetSize_add_le rightsize (by omega) hd)
    (offsetSize_le leftsize (by omega)) (offsetSize_le rightsize (by omega))
    l₁ r₁ l₂ r₂ l₃ r₃ hl₁ hr₁ (by rw [hl₂, Nat.add_assoc]) (by rw [hr₂, Nat.add_assoc _ l₂])
    (by rw [hl₃, Nat.add_assoc]) (by rw [hr₃, Nat.add_assoc _ l₃])
  obtain ⟨hleft, hright⟩ := hsettled
  have hmeasured : measureOffset (if leftsize ≠ 0 then base + (l₃ + r₃) else 0) = l₃ ∧
      measureOffset (if rightsize ≠ 0 then base + leftsize + (l₃ + r₃) else 0) = r₃ := by
    constructor
    · rw [measureOffset_ite, hleft]
    · rw [measureOffset_ite, hright]
  have hcore : 2 + thiz.leafSize + (l₃ + r₃) + (thiz.treeSize + 2 * thiz.more.length) =
      base + (l₃ + r₃) := by omega
  have hcore' : base + (l₃ + r₃) + leftsize = base + leftsize + (l₃ + r₃) := by omega
  rw [hcore, hcore']
  constructor
  · intro hne
    simp only [if_pos hne]
    omega
  · intro hne
    simp only [if_pos hne]
  · intro hzero
    simp [hzero]
  · intro hzero
    simp [hzero]
  · simp only
    rw [hmeasured.1, hmeasured.2, hbase]
    omega

theorem saveLabel_cons (isFinal hasNext : Bool) (b : ℕ) (bs : List ℕ) :
    saveLabel isFinal hasNext (b :: bs) =
      arcFlags 0 0 (if bs = [] then isFinal else false) (if bs = [] then hasNext else true) ::
        b :: saveLabel isFinal hasNext bs := by
  cases bs <;> rfl

theorem length_saveLabel (isFinal hasNext : Bool) (label : List ℕ) :
    (saveLabel isFinal hasNext label).length = 2 * label.length := by
  induction label with
  | nil => rfl
  | cons b bs ih =>
    rw [saveLabel_cons, List.length_cons, List.length_cons, ih, @List.length_cons _ b]
    omega

/-- The node of an arc writes as much as it measures. -/
structure Row.Exact (row : Row) : Prop where
  leaf : row.leaf.length = row.leafSize
  tree : row.tree.length = row.treeSize

theorem length_arcSave {row : Row} (h : row.Exact) (leftOffset rightOffset : ℕ) :
    (arcSave row leftOffset rightOffset).length =
      2 + row.leafSize + (row.treeSize + 2 * row.more.length) +
        (measureOffset leftOffset + measureOffset rightOffset) := by
  simp only [arcSave, Row.body, List.length_cons, List.length_append, length_packOffset,
    length_saveLabel, h.leaf, h.tree]
  omega

theorem ArcSizes.Exact.offset_le {sizes : ArcSizes} {thiz : Row} {leftsize rightsize : ℕ}
    (h : sizes.Exact thiz leftsize rightsize) :
    sizes.leftOffset ≤ sizes.total ∧ sizes.rightOffset ≤ sizes.total := by
  constructor
  · by_cases hzero : leftsize = 0
    · rw [h.left_eq_zero hzero]
      exact Nat.zero_le _
    · have := h.left hzero
      omega
  · by_cases hzero : rightsize = 0
    · rw [h.right_eq_zero hzero]
      exact Nat.zero_le _
    · have := h.right hzero
      omega

theorem ArcSizes.Exact.drop_offset {sizes : ArcSizes} {thiz : Row} {left right : List ℕ}
    (h : sizes.Exact thiz left.length right.length) (hexact : thiz.Exact) (after : List ℕ) :
    (left ≠ [] → (arcSave thiz sizes.leftOffset sizes.rightOffset ++ (left ++ right) ++
      after).drop sizes.leftOffset = left ++ (right ++ after)) ∧
      (right ≠ [] → (arcSave thiz sizes.leftOffset sizes.rightOffset ++ (left ++ right) ++
        after).drop sizes.rightOffset = right ++ after) := by
  have hlength := length_arcSave hexact sizes.leftOffset sizes.rightOffset
  have htotal := h.total
  constructor
  · intro hne
    have hoffset := h.left (mt List.length_eq_zero_iff.mp hne)
    rw [List.append_assoc, List.append_assoc]
    apply List.drop_left'
    omega
  · intro hne
    have hoffset := h.right (mt List.length_eq_zero_iff.mp hne)
    rw [← List.append_assoc, List.append_assoc _ right]
    apply List.drop_left'
    rw [List.length_append]
    omega

theorem measureRange_node {left right : List Row} (h : Median.IsMiddle left right) (arc : Row) :
    measureRange (left ++ arc :: right) =
      (arcMeasure arc (measureRange left) (measureRange right)).total :=
  Median.recurse_node _ _ h arc

theorem saveRange_node {left right : List Row} (h : Median.IsMiddle left right) (arc : Row) :
    saveRange (left ++ arc :: right) =
      arcSave arc (arcMeasure arc (measureRange left) (measureRange right)).leftOffset
          (arcMeasure arc (measureRange left) (measureRange right)).rightOffset ++
        (saveRange left ++ saveRange right) :=
  Median.recurse_node _ _ h arc

theorem total_eq (arc : Row) (leftsize rightsize : ℕ) : ∃ offsets,
    (arcMeasure arc leftsize rightsize).total =
      2 + arc.leafSize + offsets + (arc.treeSize + 2 * arc.more.length) + leftsize + rightsize :=
  ⟨_, rfl⟩

theorem treeSize_le_measureRange {rows : List Row} {row : Row} (h : row ∈ rows) :
    row.treeSize ≤ measureRange rows := by
  induction rows using Median.induction with
  | nil => simp at h
  | node left arc right hmid ihLeft ihRight =>
    rw [measureRange_node hmid]
    obtain ⟨offsets, htotal⟩ := total_eq arc (measureRange left) (measureRange right)
    rw [htotal]
    rcases List.mem_append.mp h with h | h
    · have := ihLeft h
      omega
    · rcases List.mem_cons.mp h with rfl | h
      · omega
      · have := ihRight h
        omega

theorem measureRange_eq_zero {rows : List Row} : measureRange rows = 0 ↔ rows = [] := by
  constructor
  · intro h
    induction rows using Median.induction with
    | nil => rfl
    | node left arc right hmid _ _ =>
      rw [measureRange_node hmid] at h
      obtain ⟨offsets, htotal⟩ := total_eq arc (measureRange left) (measureRange right)
      omega
  · rintro rfl
    exact Median.recurse_nil _ _

theorem length_saveRange {rows : List Row} (hexact : ∀ row ∈ rows, row.Exact)
    (hsize : measureRange rows < 2 ^ 56) : (saveRange rows).length = measureRange rows := by
  induction rows using Median.induction with
  | nil => simp [saveRange, measureRange]
  | node left arc right hmid ihLeft ihRight =>
    rw [measureRange_node hmid] at hsize ⊢
    have hsizes := (arcMeasure_exact hsize).total
    obtain ⟨offsets, htotal⟩ := total_eq arc (measureRange left) (measureRange right)
    rw [saveRange_node hmid, List.length_append, List.length_append,
      length_arcSave (hexact arc (by simp)), ihLeft (fun row h => hexact row (by simp [h]))
        (by omega),
      ihRight (fun row h => hexact row (by simp [h])) (by omega)]
    omega

variable {packer}

theorem nodeSaveLeafValue_eq (payload : Option Data) :
    nodeSaveLeafValue packer payload = (payload.map packer.packLeaf).getD [] := by
  cases payload with
  | none => rfl
  | some v =>
    have hskip := packer.skipLeaf_packLeaf v []
    rw [List.append_nil] at hskip
    rw [nodeSaveLeafValue, hskip, List.take_length]
    rfl

theorem length_nodeSaveLeafValue (payload : Option Data) :
    (nodeSaveLeafValue packer payload).length = nodeMeasureLeafValue packer payload := by
  cases payload with
  | none => rfl
  | some v =>
    have hskip := packer.skipLeaf_packLeaf v []
    rw [List.append_nil] at hskip
    rw [nodeSaveLeafValue, nodeMeasureLeafValue, hskip, List.take_length]

theorem Arcs.rows_exact {arcs : Arcs Data} (hsize : nodeMeasureSubtree packer arcs < 2 ^ 56) :
    ∀ row ∈ arcs.rows packer, row.Exact := by
  have hall : ∀ arcs : Arcs Data,
      (∀ row ∈ arcs.rows packer, row.treeSize < 2 ^ 56) → ∀ row ∈ arcs.rows packer, row.Exact := by
    intro arcs
    induction arcs with
    | nil => simp [rows]
    | cons first more payload children rest ihChildren ihRest =>
      intro hsmall
      rw [rows, List.forall_mem_cons] at hsmall ⊢
      obtain ⟨htree, hrest⟩ := hsmall
      refine ⟨⟨length_nodeSaveLeafValue payload, ?_⟩, ihRest hrest⟩
      apply length_saveRange _ htree
      apply ihChildren
      intro row hrow
      exact lt_of_le_of_lt (treeSize_le_measureRange hrow) htree
  apply hall
  intro row hrow
  exact lt_of_le_of_lt (treeSize_le_measureRange hrow) hsize

theorem save_eq {root : Arcs Data} (hsize : nodeMeasureSubtree packer root < 2 ^ 56) :
    save packer root = some (nodeSaveSubtree packer root) := by
  rw [save, if_neg]
  rw [not_not]
  exact (length_saveRange (Arcs.rows_exact hsize) hsize).symm

end TomitaParser.Comptrie
