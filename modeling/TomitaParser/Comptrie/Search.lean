import TomitaParser.Comptrie.Keys
import TomitaParser.Comptrie.Layout
/-! # Lookups in a compact trie

A lookup goes from byte to byte through the saved trie. A position in it is given by the bytes from
there on. -/

namespace TomitaParser.Comptrie

/-- `LeapByte`: the flags of the arc for a byte, and the position behind its head. -/
def leapByte (label : ℕ) (datapos : List ℕ) : Option (ℕ × List ℕ) :=
  match datapos with
  | [] => none
  | flags :: rest =>
    if isEpsilonLink flags then
      let offset := unpackOffset rest (rightOffsetLen flags)
      if offset = 0 then none else leapByte label ((flags :: rest).drop offset)
    else
      match rest with
      | [] => none
      | ch :: offsets =>
        if label < ch then
          let left := unpackOffset offsets (leftOffsetLen flags)
          if left = 0 then none else leapByte label ((flags :: ch :: offsets).drop left)
        else
          if ch < label then
            let right :=
              unpackOffset (offsets.drop (leftOffsetLen flags)) (rightOffsetLen flags)
            if right = 0 then none else leapByte label ((flags :: ch :: offsets).drop right)
          else some (flags, (offsets.drop (leftOffsetLen flags)).drop (rightOffsetLen flags))
  termination_by datapos.length
  decreasing_by
    all_goals
      simp only [List.length_drop, List.length_cons]
      omega

@[simp]
theorem leapByte_nil (label : ℕ) : leapByte label [] = none := by
  rw [leapByte]

theorem leapByte_head (label : ℕ) {leftOffset rightOffset : ℕ} (hleft : leftOffset < 2 ^ 56)
    (hright : rightOffset < 2 ^ 56) {isFinal hasNext : Bool} (hlink : isFinal ∨ hasNext) (ch : ℕ)
    (rest : List ℕ) {data : List ℕ}
    (hdata : data =
      arcFlags (measureOffset leftOffset) (measureOffset rightOffset) isFinal hasNext ::
        ch :: (packOffset leftOffset ++ (packOffset rightOffset ++ rest))) :
    leapByte label data =
      if label < ch then
        if leftOffset = 0 then none else leapByte label (data.drop leftOffset)
      else if ch < label then
        if rightOffset = 0 then none else leapByte label (data.drop rightOffset)
      else some (arcFlags (measureOffset leftOffset) (measureOffset rightOffset) isFinal hasNext,
        rest) := by
  obtain ⟨hfinal, hnext, hl, hr⟩ := flags_arcFlags (measureOffset_le hleft)
    (measureOffset_le hright) isFinal hasNext
  have hepsilon : isEpsilonLink (arcFlags (measureOffset leftOffset) (measureOffset rightOffset)
      isFinal hasNext) = false := by
    rw [isEpsilonLink, hfinal, hnext]
    rcases hlink with h | h <;> simp [h]
  subst hdata
  rw [leapByte]
  simp only [hepsilon, hl, hr, Bool.false_eq_true, if_false, unpackOffset_packOffset]
  rw [List.drop_left' (length_packOffset leftOffset), unpackOffset_packOffset,
    List.drop_left' (length_packOffset rightOffset)]

theorem leapByte_label (label : ℕ) {isFinal hasNext : Bool} (hlink : isFinal ∨ hasNext) (ch : ℕ)
    (rest : List ℕ) : leapByte label (arcFlags 0 0 isFinal hasNext :: ch :: rest) =
      if label = ch then some (arcFlags 0 0 isFinal hasNext, rest) else none := by
  have hzero : measureOffset 0 = 0 := BigEndian.size_zero
  have hpack : packOffset 0 = [] := by
    rw [packOffset, hzero]
    rfl
  have hhead := @leapByte_head label 0 0 (by norm_num) (by norm_num) isFinal hasNext hlink ch rest
    (arcFlags 0 0 isFinal hasNext :: ch :: rest) (by rw [hzero, hpack]; rfl)
  rw [hhead, hzero]
  split_ifs
  all_goals first | rfl | omega

/-- The first byte of the label is one at which the label ends or goes on. -/
def Row.Live (row : Row) : Prop := row.headFinal ∨ row.headNext

/-- In the saved arcs of a node the reader comes to the arc that a binary search finds. -/
theorem leapByte_saveRange (label : ℕ) {rows : List Row} (hexact : ∀ row ∈ rows, row.Exact)
    (hlive : ∀ row ∈ rows, row.Live) (hsize : measureRange rows < 2 ^ 56) (after : List ℕ) :
    match Median.search Row.first label rows with
    | none => leapByte label (saveRange rows ++ after) = none ∨ rows = []
    | some row => ∃ flags after', leapByte label (saveRange rows ++ after) =
        some (flags, row.body ++ after') ∧ isFinalLink flags = row.headFinal ∧
          isNextLink flags = row.headNext := by
  induction rows using Median.induction generalizing after with
  | nil => simp
  | node left arc right hmid ihLeft ihRight =>
    rw [measureRange_node hmid] at hsize
    have hsizes := arcMeasure_exact hsize
    obtain ⟨offsets, htotal⟩ := total_eq arc (measureRange left) (measureRange right)
    have harc : arc ∈ left ++ arc :: right := by simp
    have hmemLeft : ∀ row ∈ left, row ∈ left ++ arc :: right := fun row h => by simp [h]
    have hmemRight : ∀ row ∈ right, row ∈ left ++ arc :: right := fun row h => by simp [h]
    have hlenLeft : (saveRange left).length = measureRange left :=
      length_saveRange (fun row h => hexact row (hmemLeft row h)) (by omega)
    have hlenArc := length_arcSave (hexact arc harc)
      (arcMeasure arc (measureRange left) (measureRange right)).leftOffset
      (arcMeasure arc (measureRange left) (measureRange right)).rightOffset
    have hexactTotal := hsizes.total
    rw [saveRange_node hmid, Median.search_node Row.first label hmid]
    generalize arcMeasure arc (measureRange left) (measureRange right) = sizes at *
    have hhead := @leapByte_head label sizes.leftOffset sizes.rightOffset
      (by
        by_cases hzero : measureRange left = 0
        · rw [hsizes.left_eq_zero hzero]
          norm_num
        · have := hsizes.left hzero
          omega)
      (by
        by_cases hzero : measureRange right = 0
        · rw [hsizes.right_eq_zero hzero]
          norm_num
        · have := hsizes.right hzero
          omega)
      arc.headFinal arc.headNext (hlive arc harc) arc.first
      (arc.body ++ (saveRange left ++ saveRange right ++ after))
      (arcSave arc sizes.leftOffset sizes.rightOffset ++
        (saveRange left ++ saveRange right) ++ after)
      (by simp only [arcSave, List.cons_append, List.append_assoc])
    rw [hhead]
    by_cases hlt : label < arc.first
    · rw [if_pos hlt, if_pos hlt]
      by_cases hzero : measureRange left = 0
      · rw [if_pos (hsizes.left_eq_zero hzero), measureRange_eq_zero.mp hzero, Median.search_nil]
        exact Or.inl rfl
      · have hoffset := hsizes.left hzero
        have hdrop : (arcSave arc sizes.leftOffset sizes.rightOffset ++
            (saveRange left ++ saveRange right) ++ after).drop sizes.leftOffset =
              saveRange left ++ (saveRange right ++ after) := by
          rw [List.append_assoc, List.append_assoc]
          apply List.drop_left'
          omega
        rw [if_neg (by omega), hdrop]
        have ih := ihLeft (fun row h => hexact row (hmemLeft row h))
          (fun row h => hlive row (hmemLeft row h)) (by omega) (saveRange right ++ after)
        generalize Median.search Row.first label left = found at ih
        cases found with
        | none =>
          apply Or.inl
          apply ih.resolve_right
          intro hnil
          exact hzero (measureRange_eq_zero.mpr hnil)
        | some row => exact ih
    · rw [if_neg hlt, if_neg hlt]
      by_cases hgt : arc.first < label
      · rw [if_pos hgt, if_pos hgt]
        by_cases hzero : measureRange right = 0
        · rw [if_pos (hsizes.right_eq_zero hzero), measureRange_eq_zero.mp hzero,
            Median.search_nil]
          exact Or.inl rfl
        · have hoffset := hsizes.right hzero
          have hdrop : (arcSave arc sizes.leftOffset sizes.rightOffset ++
              (saveRange left ++ saveRange right) ++ after).drop sizes.rightOffset =
                saveRange right ++ after := by
            rw [← List.append_assoc, List.append_assoc]
            apply List.drop_left'
            rw [List.length_append]
            omega
          rw [if_neg (by omega), hdrop]
          have ih := ihRight (fun row h => hexact row (hmemRight row h))
            (fun row h => hlive row (hmemRight row h)) (by omega) after
          generalize Median.search Row.first label right = found at ih
          cases found with
          | none =>
            apply Or.inl
            apply ih.resolve_right
            intro hnil
            exact hzero (measureRange_eq_zero.mpr hnil)
          | some row => exact ih
      · rw [if_neg hgt, if_neg hgt]
        have hle : ∀ {size offset : ℕ}, (size = 0 → offset = 0) →
          (size ≠ 0 → offset ≤ sizes.total) →
            offset < 2 ^ 56 := by
          intro size offset hzero hne
          by_cases h : size = 0
          · rw [hzero h]
            norm_num
          · exact lt_of_le_of_lt (hne h) hsize
        obtain ⟨hfinal, hnext, -, -⟩ := flags_arcFlags
          (measureOffset_le (hle hsizes.left_eq_zero fun h => by have := hsizes.left h; omega))
          (measureOffset_le (hle hsizes.right_eq_zero fun h => by have := hsizes.right h; omega))
          arc.headFinal arc.headNext
        exact ⟨_, _, rfl, hfinal, hnext⟩

end TomitaParser.Comptrie
