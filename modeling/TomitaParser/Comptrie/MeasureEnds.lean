import TomitaParser.Comptrie.WriteableNode
/-! # The measuring of offsets ends

An offset counts the bytes that it takes itself. Measuring again makes it longer by a byte at most a
few times, and then it stays. -/

namespace TomitaParser.Comptrie
namespace WriteableNode

/-- The offsets and the leaf are shorter than `2 ^ 48`, and a leaf is there with all its bytes. -/
structure Bounded (node : WriteableNode) : Prop where
  leafLength : node.leafLength < 2 ^ 48
  forward : ∀ offset, node.forwardOffset = some offset → offset < 2 ^ 48
  left : ∀ offset, node.leftOffset = some offset → offset < 2 ^ 48
  right : ∀ offset, node.rightOffset = some offset → offset < 2 ^ 48
  leaf : ((node.leafPos.getD []).take node.leafLength).length = node.leafLength

theorem fromBegin_mono (offset : Option ℕ) {m n : ℕ} (h : m ≤ n) :
    measureOffset (fromBegin offset m) ≤ measureOffset (fromBegin offset n) := by
  cases offset with
  | none => exact le_refl _
  | some offset => exact BigEndian.size_mono (Nat.add_le_add_left h offset)

theorem measureRound_mono (node : WriteableNode) {m n fm fn : ℕ} (h : m ≤ n) (hf : fm ≤ fn) :
    (node.measureRound m fm).1 ≤ (node.measureRound n fn).1 ∧
      (node.measureRound m fm).2 ≤ (node.measureRound n fn).2 := by
  have hleft := fromBegin_mono node.leftOffset h
  have hright := fromBegin_mono node.rightOffset h
  unfold measureRound
  dsimp only
  match node.forwardOffset with
  | none =>
    dsimp only
    omega
  | some 0 =>
    dsimp only
    omega
  | some (offset + 1) =>
    have hforward : measureOffset (offset + 1 + fm) ≤ measureOffset (offset + 1 + fn) :=
      BigEndian.size_mono (by omega)
    dsimp only
    omega

theorem measure_fromBegin_le {offset : Option ℕ} (h : ∀ n, offset = some n → n < 2 ^ 48)
    {length : ℕ} (hlength : length < 2 ^ 49) : measureOffset (fromBegin offset length) ≤ 7 := by
  cases offset with
  | none => exact (Nat.le_of_eq BigEndian.size_zero).trans (by omega)
  | some n =>
    have := h n rfl
    exact measureOffset_le (show n + length < 2 ^ 56 by omega)

theorem measureRound_le {node : WriteableNode} (h : node.Bounded) {m fm : ℕ}
    (hm : m ≤ 2 + node.leafLength + 22) (hf : fm ≤ 8) :
    (node.measureRound m fm).1 ≤ 2 + node.leafLength + 22 ∧ (node.measureRound m fm).2 ≤ 8 := by
  have hleaf := h.leafLength
  have hleft := measure_fromBegin_le h.left (show m < 2 ^ 49 by omega)
  have hright := measure_fromBegin_le h.right (show m < 2 ^ 49 by omega)
  unfold measureRound
  dsimp only
  cases hforward : node.forwardOffset with
  | none =>
    dsimp only
    omega
  | some offset =>
    cases offset with
    | zero =>
      dsimp only
      omega
    | succ offset =>
      have hoffset := h.forward _ hforward
      have hsize : measureOffset (offset + 1 + fm) ≤ 7 := measureOffset_le (by omega)
      dsimp only
      omega

/-- Each round but the last makes something longer, so the loop ends. -/
theorem measureLoop_ends {node : WriteableNode} (h : node.Bounded) (left : ℕ) : ∀ m fm : ℕ,
    m ≤ 2 + node.leafLength + 22 → fm ≤ 8 →
    m ≤ (node.measureRound m fm).1 → fm ≤ (node.measureRound m fm).2 →
    2 + node.leafLength + 22 + 8 ≤ m + fm + left →
    ∃ length, ∀ rounds, left < rounds → node.measureLoop rounds m fm = some length := by
  induction left using Nat.strong_induction_on with
  | _ left ih =>
    intro m fm hm hf hgrows hgrowsf hleft
    by_cases hsame : node.measureRound m fm = (m, fm)
    · refine ⟨m, ?_⟩
      intro rounds hrounds
      cases rounds with
      | zero => omega
      | succ rounds =>
        rw [measureLoop, if_pos hsame, hsame]
    · obtain ⟨hle, hlef⟩ := measureRound_le h hm hf
      obtain ⟨hnext, hnextf⟩ := node.measureRound_mono hgrows hgrowsf
      have hmore : m + fm < (node.measureRound m fm).1 + (node.measureRound m fm).2 := by
        by_contra hno
        apply hsame
        exact Prod.ext (by omega) (by omega)
      obtain ⟨length, hlength⟩ := ih (2 + node.leafLength + 22 + 8 -
        ((node.measureRound m fm).1 + (node.measureRound m fm).2)) (by omega) _ _ hle hlef hnext
        hnextf (by omega)
      refine ⟨length, ?_⟩
      intro rounds hrounds
      cases rounds with
      | zero => omega
      | succ rounds =>
        rw [measureLoop, if_neg hsame]
        exact hlength rounds (by omega)

theorem le_measureRound (node : WriteableNode) :
    2 + node.leafLength ≤ (node.measureRound (2 + node.leafLength) 0).1 ∧
      0 ≤ (node.measureRound (2 + node.leafLength) 0).2 := by
  refine ⟨?_, Nat.zero_le _⟩
  unfold measureRound
  dsimp only
  split
  · dsimp only
    omega
  · dsimp only
    omega

theorem measure_ends {node : WriteableNode} (h : node.Bounded) : ∃ length,
    node.measure = some length ∧
      ∀ rounds, 30 < rounds → node.measureLoop rounds (2 + node.leafLength) 0 = some length := by
  obtain ⟨hgrows, hgrowsf⟩ := node.le_measureRound
  obtain ⟨length, hlength⟩ := measureLoop_ends h 30 (2 + node.leafLength) 0 (by omega) (by omega)
    hgrows hgrowsf (by omega)
  exact ⟨length, hlength 64 (by omega), hlength⟩

/-- A length from which the loop would not move is what `Pack` writes. -/
theorem length_pack {node : WriteableNode} (h : node.Bounded) {length : ℕ}
    (hmeasure : node.measure = some length) :
    ∃ bytes, node.pack = some bytes ∧ bytes.length = length := by
  obtain ⟨fwdLen, hround⟩ := exists_of_measureLoop hmeasure
  rw [pack, hmeasure]
  refine ⟨_, rfl, ?_⟩
  dsimp only
  simp only [List.length_cons, List.length_append, length_packOffset, h.leaf]
  unfold measureRound at hround
  rw [epsilonLink]
  cases hforward : node.forwardOffset with
  | none =>
    rw [hforward] at hround
    have hlength := (Prod.mk.inj hround).1
    rw [List.length_nil]
    omega
  | some offset =>
    rw [hforward] at hround
    cases offset with
    | zero =>
      have hlength := (Prod.mk.inj hround).1
      rw [List.length_nil]
      omega
    | succ offset =>
      dsimp only at hround
      obtain ⟨hlength, hfwd⟩ := Prod.mk.inj hround
      have hoffset : offset + 1 + length - (2 + measureOffset (fromBegin node.leftOffset length) +
          measureOffset (fromBegin node.rightOffset length) + node.leafLength) =
          offset + 1 + fwdLen := by omega
      dsimp only
      rw [hoffset, List.length_cons, length_packOffset]
      omega

end WriteableNode

/-- The three rounds of `ArcMeasure` end where a fourth would change nothing: the offsets take the
bytes that are counted for them. The loop of `Measure` ends, and `Pack` writes as much as it has
measured. -/
theorem offsets_converge (thiz : Row) (leftsize rightsize : ℕ) (hleaf : thiz.leafSize < 2 ^ 48)
    (htree : thiz.treeSize < 2 ^ 48) (hlabel : thiz.more.length < 2 ^ 48)
    (hleft : leftsize < 2 ^ 48) (hright : rightsize < 2 ^ 48) (node : WriteableNode)
    (hnode : node.Bounded) :
    (arcMeasure thiz leftsize rightsize).Exact thiz leftsize rightsize ∧
      ∃ length, node.measure = some length ∧
        (∃ N, ∀ rounds, N < rounds →
          node.measureLoop rounds (2 + node.leafLength) 0 = some length) ∧
        ∃ bytes, node.pack = some bytes ∧ bytes.length = length := by
  have hsize : ∀ size offset, offset < 2 ^ 56 → offsetSize size offset ≤ 7 :=
    fun size _ hoffset => offsetSize_le size hoffset
  have htotal : (arcMeasure thiz leftsize rightsize).total < 2 ^ 56 := by
    rw [arcMeasure]
    dsimp only
    have hl₁ := hsize leftsize (2 + thiz.leafSize + (thiz.treeSize + 2 * thiz.more.length))
      (by omega)
    have hr₁ := hsize rightsize
      (2 + thiz.leafSize + (thiz.treeSize + 2 * thiz.more.length) + leftsize) (by omega)
    generalize offsetSize leftsize
      (2 + thiz.leafSize + (thiz.treeSize + 2 * thiz.more.length)) = l₁ at *
    generalize offsetSize rightsize
      (2 + thiz.leafSize + (thiz.treeSize + 2 * thiz.more.length) + leftsize) = r₁ at *
    have hl₂ := hsize leftsize
      (2 + thiz.leafSize + (thiz.treeSize + 2 * thiz.more.length) + l₁ + r₁) (by omega)
    generalize offsetSize leftsize
      (2 + thiz.leafSize + (thiz.treeSize + 2 * thiz.more.length) + l₁ + r₁) = l₂ at *
    have hr₂ := hsize rightsize
      (2 + thiz.leafSize + (thiz.treeSize + 2 * thiz.more.length) + leftsize + l₂ + r₁) (by omega)
    generalize offsetSize rightsize
      (2 + thiz.leafSize + (thiz.treeSize + 2 * thiz.more.length) + leftsize + l₂ + r₁) = r₂ at *
    have hl₃ := hsize leftsize
      (2 + thiz.leafSize + (thiz.treeSize + 2 * thiz.more.length) + l₂ + r₂) (by omega)
    generalize offsetSize leftsize
      (2 + thiz.leafSize + (thiz.treeSize + 2 * thiz.more.length) + l₂ + r₂) = l₃ at *
    have hr₃ := hsize rightsize
      (2 + thiz.leafSize + (thiz.treeSize + 2 * thiz.more.length) + leftsize + l₃ + r₂) (by omega)
    generalize offsetSize rightsize
      (2 + thiz.leafSize + (thiz.treeSize + 2 * thiz.more.length) + leftsize + l₃ + r₂) = r₃ at *
    omega
  obtain ⟨length, hmeasure, hrounds⟩ := WriteableNode.measure_ends hnode
  exact ⟨arcMeasure_exact htotal, length, hmeasure, ⟨30, hrounds⟩,
    WriteableNode.length_pack hnode hmeasure⟩

def linkedNode : WriteableNode := ⟨some [7, 7], 2, some 253, some 252, some 65533, 65⟩

def leafArc : Row := ⟨97, [98], true, false, 1, [5], 248, List.replicate 248 0⟩

/-- Offsets at the edge of one and of two bytes. -/
theorem offsets_converge_linkedNode :
    (arcMeasure leafArc 3 65280).Exact leafArc 3 65280 ∧
      ∃ length, linkedNode.measure = some length ∧
        (∃ N, ∀ rounds, N < rounds →
          linkedNode.measureLoop rounds (2 + linkedNode.leafLength) 0 = some length) ∧
        ∃ bytes, linkedNode.pack = some bytes ∧ bytes.length = length :=
  offsets_converge leafArc 3 65280 (by decide) (by decide) (by decide) (by decide) (by decide)
    linkedNode
    { leafLength := by decide
      forward := by
        intro offset h
        rw [← Option.some.inj h]
        decide
      left := by
        intro offset h
        rw [← Option.some.inj h]
        decide
      right := by
        intro offset h
        rw [← Option.some.inj h]
        decide
      leaf := by decide }

end TomitaParser.Comptrie
