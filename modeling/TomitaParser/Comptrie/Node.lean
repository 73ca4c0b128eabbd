import TomitaParser.Comptrie.Search
import TomitaParser.Lib.TernaryTree
/-! # The nodes of a saved trie

A node is read from the bytes at its offset. The offsets in it lead to the nodes to its left and to
its right, and an epsilon link in front of the next node leads on to that node. -/

namespace TomitaParser.Comptrie
open TernaryTree
variable {Data : Type} (packer : Packer Data)

/-- `TNode`. The leaf is given by the bytes from its position on. -/
structure Node where
  offset : ℕ
  leafPos : Option (List ℕ)
  leafLength : ℕ
  coreLength : ℕ
  forwardOffset : ℕ
  leftOffset : ℕ
  rightOffset : ℕ
  label : ℕ
  deriving DecidableEq

/-- An offset that the node has, from the beginning of the data. -/
def absOffset (base offset : ℕ) : ℕ := if offset = 0 then 0 else offset + base

/-- The node in front of which there might be an epsilon link. -/
def jumpEpsilon (data : List ℕ) (forwardOffset : ℕ) : Option ℕ :=
  match data.drop forwardOffset with
  | [] => none
  | forwardFlags :: rest =>
    if isEpsilonLink forwardFlags then
      let epsilonOffset := unpackOffset rest (rightOffsetLen forwardFlags)
      if epsilonOffset = 0 then none else some (forwardOffset + epsilonOffset)
    else some forwardOffset

/-- The constructor of `TNode`: nothing for a failed assertion, an exception or a read beyond the
data. -/
def readNode (data : List ℕ) (offset : ℕ) : Option Node :=
  match data.drop offset with
  | flags :: label :: datapos =>
    if isEpsilonLink flags then none
    else
      let leftsize := leftOffsetLen flags
      let leftOffset := absOffset offset (unpackOffset datapos leftsize)
      let datapos := datapos.drop leftsize
      let rightsize := rightOffsetLen flags
      let rightOffset := absOffset offset (unpackOffset datapos rightsize)
      let datapos := datapos.drop rightsize
      let leafPos := if isFinalLink flags then some datapos else none
      let leafLength := if isFinalLink flags then packer.skipLeaf datapos else 0
      let coreLength := 2 + leftsize + rightsize + leafLength
      let node (forwardOffset : ℕ) : Node :=
        { offset, leafPos, leafLength, coreLength, forwardOffset, leftOffset, rightOffset, label }
      if isNextLink flags then (jumpEpsilon data (offset + coreLength)).map node
      else some (node 0)
  | _ => none

/-- The payload of a node is what its leaf starts with. -/
def Node.HasPayload (node : Node) : Option Data → Prop
  | none => node.leafPos = none
  | some v => ∃ after, node.leafPos = some (packer.packLeaf v ++ after)

/-- From an offset on the data reads as a search tree. -/
def ReadsAs (data : List ℕ) : Tree ℕ Data → ℕ → Prop
  | .nil, _ => True
  | .node label payload left forward right, offset => ∃ node,
    readNode packer data offset = some node ∧ node.label = label ∧
      node.HasPayload packer payload ∧
      (node.leftOffset = 0 ↔ left = .nil) ∧ (node.forwardOffset = 0 ↔ forward = .nil) ∧
      (node.rightOffset = 0 ↔ right = .nil) ∧
      ReadsAs data left node.leftOffset ∧ ReadsAs data forward node.forwardOffset ∧
      ReadsAs data right node.rightOffset

variable {packer}

theorem lt_absOffset {base offset : ℕ} (h : absOffset base offset ≠ 0) :
    base < absOffset base offset := by
  rw [absOffset] at h ⊢
  split_ifs at h ⊢
  · exact absurd rfl h
  · omega

theorem le_of_jumpEpsilon {data : List ℕ} {from_ to_ : ℕ} (h : jumpEpsilon data from_ = some to_) :
    from_ ≤ to_ := by
  rw [jumpEpsilon] at h
  split at h
  · simp at h
  · simp only at h
    split_ifs at h
    · have := Option.some.inj h
      omega
    · exact (Option.some.inj h).le

/-- A node lies in the data, and its offsets lead on. -/
structure Node.Bounds (node : Node) (data : List ℕ) (offset : ℕ) : Prop where
  offset_eq : node.offset = offset
  inside : offset + 1 < data.length
  left : node.leftOffset ≠ 0 → offset < node.leftOffset
  forward : node.forwardOffset ≠ 0 → offset < node.forwardOffset
  right : node.rightOffset ≠ 0 → offset < node.rightOffset

theorem readNode_bounds {data : List ℕ} {offset : ℕ} {node : Node}
    (h : readNode packer data offset = some node) : node.Bounds data offset := by
  rw [readNode] at h
  split at h
  · rename_i flags label datapos hdrop
    have hlen := congrArg List.length hdrop
    simp only [List.length_drop, List.length_cons] at hlen
    by_cases hepsilon : isEpsilonLink flags
    · simp [hepsilon] at h
    · rw [if_neg hepsilon] at h
      by_cases hnext : isNextLink flags
      · rw [if_pos hnext] at h
        obtain ⟨forwardOffset, hforward, rfl⟩ := Option.map_eq_some_iff.mp h
        have hle := le_of_jumpEpsilon hforward
        exact ⟨rfl, by omega, lt_absOffset, fun _ => by simp only; omega, lt_absOffset⟩
      · rw [if_neg hnext] at h
        obtain rfl := Option.some.inj h
        exact ⟨rfl, by omega, lt_absOffset, fun hne => absurd rfl hne, lt_absOffset⟩
  · simp at h

/-- The node when there are bytes in front of the data. -/
def Node.shift (k : ℕ) (node : Node) : Node :=
  { node with
    offset := node.offset + k
    forwardOffset := absOffset k node.forwardOffset
    leftOffset := absOffset k node.leftOffset
    rightOffset := absOffset k node.rightOffset }

theorem absOffset_absOffset (k base offset : ℕ) :
    absOffset k (absOffset base offset) = absOffset (base + k) offset := by
  simp only [absOffset]
  split_ifs <;> omega

theorem jumpEpsilon_drop {data : List ℕ} {k offset : ℕ} :
    jumpEpsilon data (offset + k) = (jumpEpsilon (data.drop k) offset).map (· + k) := by
  rw [jumpEpsilon, jumpEpsilon, List.drop_drop, Nat.add_comm k]
  split
  · rfl
  · simp only
    split_ifs
    · rfl
    · simp [Nat.add_right_comm]
    · rfl

theorem readNode_drop {data : List ℕ} {k offset : ℕ} {node : Node}
    (h : readNode packer (data.drop k) offset = some node) :
    readNode packer data (offset + k) = some (node.shift k) := by
  rw [readNode, List.drop_drop, Nat.add_comm k] at h
  rw [readNode]
  split at h
  · rename_i flags label datapos hdrop
    simp only
    by_cases hepsilon : isEpsilonLink flags
    · simp [hepsilon] at h
    · rw [if_neg hepsilon] at h ⊢
      by_cases hnext : isNextLink flags
      · rw [if_pos hnext] at h ⊢
        obtain ⟨forwardOffset, hforward, rfl⟩ := Option.map_eq_some_iff.mp h
        have hcore : ∀ core, offset + k + core = offset + core + k := by
          intro core
          omega
        have hne : forwardOffset ≠ 0 := by
          have := le_of_jumpEpsilon hforward
          omega
        rw [hcore, jumpEpsilon_drop, hforward]
        have hshift : absOffset k forwardOffset = forwardOffset + k := by
          rw [absOffset, if_neg hne]
        simp only [Option.map_some, Node.shift, absOffset_absOffset, hshift]
      · rw [if_neg hnext] at h ⊢
        obtain rfl := Option.some.inj h
        simp only [Node.shift, absOffset_absOffset]
        rfl
  · simp at h

theorem absOffset_eq_zero {k offset : ℕ} : absOffset k offset = 0 ↔ offset = 0 := by
  rw [absOffset]
  split_ifs <;> omega

theorem ReadsAs.of_drop {data : List ℕ} {k : ℕ} {t : Tree ℕ Data} {offset : ℕ}
    (h : ReadsAs packer (data.drop k) t offset) : ReadsAs packer data t (offset + k) := by
  induction t generalizing offset with
  | nil => trivial
  | node label payload left forward right ihLeft ihForward ihRight =>
    obtain ⟨node, hread, hlabel, hpayload, hleft, hforward, hright, hl, hf, hr⟩ := h
    have hsub : ∀ {t : Tree ℕ Data} {child : ℕ}, (child = 0 ↔ t = .nil) →
        ReadsAs packer data t (child + k) → ReadsAs packer data t (absOffset k child) := by
      intro t child hchild hreads
      by_cases hzero : child = 0
      · rw [hchild.mp hzero]
        trivial
      · rwa [absOffset, if_neg hzero]
    refine ⟨node.shift k, readNode_drop hread, hlabel, ?_, ?_, ?_, ?_, hsub hleft (ihLeft hl),
      hsub hforward (ihForward hf), hsub hright (ihRight hr)⟩
    · cases payload <;> exact hpayload
    · exact absOffset_eq_zero.trans hleft
    · exact absOffset_eq_zero.trans hforward
    · exact absOffset_eq_zero.trans hright

end TomitaParser.Comptrie
