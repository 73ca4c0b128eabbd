import TomitaParser.Comptrie.SavedTree
/-! # Nodes written anew

The minimizer and the fast layout write a trie from its end. A node is written in front of the nodes
that it leads to, with an epsilon link where the next node does not follow it at once. -/

namespace TomitaParser.Comptrie

/-- `TWriteableNode`: the offsets are taken from the end of the node, and there is none for `NPOS`. -/
structure WriteableNode where
  leafPos : Option (List ℕ)
  leafLength : ℕ
  forwardOffset : Option ℕ
  leftOffset : Option ℕ
  rightOffset : Option ℕ
  label : ℕ

namespace WriteableNode

/-- An offset from the beginning of a node of some length. -/
def fromBegin (offset : Option ℕ) (length : ℕ) : ℕ :=
  match offset with
  | none => 0
  | some offset => offset + length

/-- One round of `Measure`: `len` and `fwdLen` from those of the last round. -/
def measureRound (node : WriteableNode) (lastLen lastFwdLen : ℕ) : ℕ × ℕ :=
  let len := 2 + node.leafLength + measureOffset (fromBegin node.leftOffset lastLen) +
    measureOffset (fromBegin node.rightOffset lastLen)
  match node.forwardOffset with
  | some (offset + 1) =>
    let fwdLen := measureOffset (offset + 1 + lastFwdLen) + 1
    (len + fwdLen, fwdLen)
  | _ => (len, lastFwdLen)

/-- The loop of `Measure`, which ends when nothing changes. -/
def measureLoop (node : WriteableNode) : ℕ → ℕ → ℕ → Option ℕ
  | 0, _, _ => none
  | rounds + 1, lastLen, lastFwdLen =>
    let next := node.measureRound lastLen lastFwdLen
    if next = (lastLen, lastFwdLen) then some next.1
    else measureLoop node rounds next.1 next.2

/-- `Measure`. Each round but the last makes a number of one byte longer, of which there are less
than this bound. -/
def measure (node : WriteableNode) : Option ℕ :=
  node.measureLoop 64 (2 + node.leafLength) 0

/-- The epsilon link behind a node, of which so many bytes have been written. -/
def epsilonLink (node : WriteableNode) (length usedLen : ℕ) : List ℕ :=
  match node.forwardOffset with
  | some (offset + 1) =>
    let fwdOffset := offset + 1 + length - usedLen
    (measureOffset fwdOffset &&& 7) :: packOffset fwdOffset
  | _ => []

/-- `Pack`. -/
def pack (node : WriteableNode) : Option (List ℕ) :=
  node.measure.map fun length =>
    let leftOffset := fromBegin node.leftOffset length
    let rightOffset := fromBegin node.rightOffset length
    let leaf := (node.leafPos.getD []).take node.leafLength
    let usedLen := 2 + measureOffset leftOffset + measureOffset rightOffset + leaf.length
    arcFlags (measureOffset leftOffset) (measureOffset rightOffset) node.leafPos.isSome
        node.forwardOffset.isSome ::
      node.label :: (packOffset leftOffset ++ (packOffset rightOffset ++
        (leaf ++ node.epsilonLink length usedLen)))

theorem exists_of_measureLoop {node : WriteableNode} {rounds lastLen lastFwdLen length : ℕ}
    (h : node.measureLoop rounds lastLen lastFwdLen = some length) :
    ∃ fwdLen, node.measureRound length fwdLen = (length, fwdLen) := by
  induction rounds generalizing lastLen lastFwdLen with
  | zero => simp [measureLoop] at h
  | succ rounds ih =>
    rw [measureLoop] at h
    split_ifs at h with hsame
    · obtain rfl := Option.some.inj h
      use lastFwdLen
      rw [hsame]
      exact hsame
    · exact ih h

end WriteableNode

end TomitaParser.Comptrie
