import TomitaParser.Comptrie.SearchTree
/-! # The saved trie reads as its search tree -/

namespace TomitaParser.Comptrie
open TernaryTree
variable {extra : ℕ} {Data : Type} {packer : Packer Data}

/-- The bytes start with a node, and not with an epsilon link. -/
def StartsNode (bytes : List ℕ) : Prop :=
  ∃ flags rest, bytes = flags :: rest ∧ isEpsilonLink flags = false

theorem jumpEpsilon_of_starts {data : List ℕ} {offset : ℕ} (h : StartsNode (data.drop offset)) :
    jumpEpsilon data offset = some offset := by
  obtain ⟨flags, rest, hdrop, hflags⟩ := h
  rw [jumpEpsilon, hdrop]
  simp [hflags]

theorem arcFlags_not_epsilon {l r : ℕ} (hl : l ≤ 7) (hr : r ≤ 7) {isFinal hasNext : Bool}
    (hlink : isFinal ∨ hasNext) : isEpsilonLink (arcFlags l r isFinal hasNext) = false := by
  obtain ⟨hfinal, hnext, -, -⟩ := flags_arcFlags hl hr isFinal hasNext
  rw [isEpsilonLink, hfinal, hnext]
  rcases hlink with h | h <;> simp [h]

/-- The node that is read from the head of an arc. -/
theorem readNode_head {leftOffset rightOffset : ℕ} (hleft : leftOffset < 2 ^ 56)
    (hright : rightOffset < 2 ^ 56) {isFinal hasNext : Bool} (hlink : isFinal ∨ hasNext) (ch : ℕ)
    {rest data : List ℕ}
    (hdata : data =
      arcFlags (measureOffset leftOffset) (measureOffset rightOffset) isFinal hasNext ::
        ch :: (packOffset leftOffset ++ (packOffset rightOffset ++ rest)))
    {core forwardOffset : ℕ} (hcore : core = 2 + measureOffset leftOffset +
      measureOffset rightOffset + (if isFinal then packer.skipLeaf rest else 0))
    (hnext : hasNext → jumpEpsilon data core = some forwardOffset) :
    readNode packer data 0 = some
      { offset := 0
        leafPos := if isFinal then some rest else none
        leafLength := if isFinal then packer.skipLeaf rest else 0
        coreLength := core
        forwardOffset := if hasNext then forwardOffset else 0
        leftOffset
        rightOffset
        label := ch } := by
  obtain ⟨hf, hn, hl, hr⟩ := flags_arcFlags (measureOffset_le hleft) (measureOffset_le hright)
    isFinal hasNext
  have hepsilon := arcFlags_not_epsilon (measureOffset_le hleft) (measureOffset_le hright) hlink
  have habs : ∀ n, absOffset 0 n = n := by
    intro n
    rw [absOffset]
    split_ifs with h
    · exact h.symm
    · rfl
  rw [readNode, List.drop_zero, hdata]
  simp only [hepsilon, hf, hn, hl, hr, Bool.false_eq_true, if_false, habs, Nat.zero_add,
    unpackOffset_packOffset, List.drop_left' (length_packOffset leftOffset),
    List.drop_left' (length_packOffset rightOffset)]
  rw [← hdata, ← hcore]
  cases hasNext with
  | false => rfl
  | true =>
    rw [hnext rfl]
    rfl

/-- The leaf of a payload. -/
def leafBytes (packer : Packer Data) (payload : Option Data) : List ℕ :=
  (payload.map packer.packLeaf).getD []

/-- The head of an arc with its label, its leaf and its tree reads as a branch of the search
tree. -/
theorem readsAs_branch {payload : Option Data} {forward left right : Tree ℕ Data}
    (hlive : payload = none → forward ≠ .nil) {tree after : List ℕ}
    (htree : ReadsAs packer (tree ++ after) forward 0)
    (hstarts : forward ≠ .nil → StartsNode (tree ++ after)) {hasNext : Bool}
    (hasNext_iff : hasNext = true ↔ forward ≠ .nil) {leftOffset rightOffset : ℕ}
    (hleft : leftOffset < 2 ^ 56) (hright : rightOffset < 2 ^ 56)
    (hleft_nil : leftOffset = 0 ↔ left = .nil) (hright_nil : rightOffset = 0 ↔ right = .nil)
    (more : List ℕ) {first : ℕ} {data : List ℕ}
    (hdata : data =
      arcFlags (measureOffset leftOffset) (measureOffset rightOffset)
        (if more = [] then payload.isSome else false) (if more = [] then hasNext else true) ::
          first :: (packOffset leftOffset ++ (packOffset rightOffset ++
            (saveLabel payload.isSome hasNext more ++ (leafBytes packer payload ++
              (tree ++ after))))))
    (hl : ReadsAs packer data left leftOffset) (hr : ReadsAs packer data right rightOffset) :
    ReadsAs packer data ((Branch.mk first more payload forward).node left right) 0 ∧
      StartsNode data := by
  have hzero : measureOffset 0 = 0 := BigEndian.size_zero
  have hpack : packOffset 0 = [] := by
    rw [packOffset, hzero]
    rfl
  have hpayload : payload.isSome = true ∨ hasNext = true := by
    cases payload with
    | none => exact Or.inr (hasNext_iff.mpr (hlive rfl))
    | some v => exact Or.inl rfl
  induction more generalizing first data leftOffset rightOffset left right with
  | nil =>
    simp only [if_true, saveLabel, List.nil_append] at hdata
    have hskip : payload.isSome = true →
        packer.skipLeaf (leafBytes packer payload ++ (tree ++ after)) =
          (leafBytes packer payload).length := by
      intro hsome
      obtain ⟨v, rfl⟩ := Option.isSome_iff_exists.mp hsome
      exact packer.skipLeaf_packLeaf v _
    have hlength : (if payload.isSome then
        packer.skipLeaf (leafBytes packer payload ++ (tree ++ after)) else 0) =
          (leafBytes packer payload).length := by
      cases hsome : payload.isSome with
      | true => rw [if_pos rfl, hskip hsome]
      | false =>
        rw [Option.isSome_eq_false_iff, Option.isNone_iff_eq_none] at hsome
        rw [hsome]
        rfl
    have hdrop : data.drop (2 + measureOffset leftOffset + measureOffset rightOffset +
        (leafBytes packer payload).length) = tree ++ after := by
      have hsplit : data =
          (arcFlags (measureOffset leftOffset) (measureOffset rightOffset) payload.isSome hasNext ::
            first :: (packOffset leftOffset ++ (packOffset rightOffset ++
              leafBytes packer payload))) ++ (tree ++ after) := by
        rw [hdata]
        simp
      rw [hsplit]
      apply List.drop_left'
      simp only [List.length_cons, List.length_append, length_packOffset]
      omega
    have hread := @readNode_head Data packer leftOffset rightOffset hleft hright payload.isSome
      hasNext hpayload first _ data hdata _ _ rfl (by
        intro hnext
        apply jumpEpsilon_of_starts
        rw [hlength, hdrop]
        exact hstarts (hasNext_iff.mp hnext))
    rw [hlength] at hread
    constructor
    · refine ⟨_, hread, rfl, ?_, hleft_nil, ?_, hright_nil, hl, ?_, hr⟩
      · cases payload with
        | none => rfl
        | some v => exact ⟨tree ++ after, rfl⟩
      · cases hasNext with
        | true =>
          have hne := hasNext_iff.mp rfl
          simp only [if_true]
          constructor
          · intro h
            omega
          · intro h
            exact absurd h hne
        | false =>
          have hnil : forward = .nil := by
            by_contra hne
            exact absurd (hasNext_iff.mpr hne) (by simp)
          simp [Branch.behind, spine, hnil]
      · rw [Branch.behind, spine]
        cases hasNext with
        | true =>
          have hdeep := @ReadsAs.of_drop Data packer data (2 + measureOffset leftOffset +
            measureOffset rightOffset + (leafBytes packer payload).length) forward 0 (by
              rw [hdrop]
              exact htree)
          rw [Nat.zero_add] at hdeep
          exact hdeep
        | false =>
          have hnil : forward = .nil := by
            by_contra hne
            exact absurd (hasNext_iff.mpr hne) (by simp)
          rw [hnil]
          trivial
    · exact ⟨_, _, hdata, arcFlags_not_epsilon (measureOffset_le hleft) (measureOffset_le hright)
        hpayload⟩
  | cons b bs ih =>
    simp only [List.cons_ne_nil, if_false] at hdata
    have hdeep := @ih .nil .nil 0 0 (by norm_num) (by norm_num) (by simp) (by simp) b
      (saveLabel payload.isSome hasNext (b :: bs) ++ (leafBytes packer payload ++ (tree ++ after)))
      (by
        rw [saveLabel_cons, hzero, hpack]
        rfl) trivial trivial
    have hdrop : data.drop (2 + measureOffset leftOffset + measureOffset rightOffset + 0) =
        saveLabel payload.isSome hasNext (b :: bs) ++
          (leafBytes packer payload ++ (tree ++ after)) := by
      have hsplit : data =
          (arcFlags (measureOffset leftOffset) (measureOffset rightOffset) false true ::
            first :: (packOffset leftOffset ++ packOffset rightOffset)) ++
              (saveLabel payload.isSome hasNext (b :: bs) ++
                (leafBytes packer payload ++ (tree ++ after))) := by
        rw [hdata]
        simp
      rw [hsplit]
      apply List.drop_left'
      simp only [List.length_cons, List.length_append, length_packOffset]
      omega
    have hread := @readNode_head Data packer leftOffset rightOffset hleft hright false true
      (Or.inr rfl) first _ data hdata _ _ rfl (by
        intro _
        apply jumpEpsilon_of_starts
        simp only [Bool.false_eq_true, if_false]
        rw [hdrop]
        exact hdeep.2)
    simp only [Bool.false_eq_true, if_false, if_true] at hread
    constructor
    · refine ⟨_, hread, rfl, rfl, hleft_nil, ?_, hright_nil, hl, ?_, hr⟩
      · simp [Branch.behind, spine]
      · have hforward := @ReadsAs.of_drop Data packer data (2 + measureOffset leftOffset +
          measureOffset rightOffset + 0) _ 0 (by
            rw [hdrop]
            exact hdeep.1)
        rw [Nat.zero_add] at hforward
        exact hforward
    · exact ⟨_, _, hdata, arcFlags_not_epsilon (measureOffset_le hleft) (measureOffset_le hright)
        (Or.inr rfl)⟩

/-- The row of an arc writes what reads as the branch. -/
structure Saves (packer : Packer Data) (row : Row) (branch : Branch Data) : Prop where
  exact : row.Exact
  first : row.first = branch.first
  more : row.more = branch.more
  isFinal : row.isFinal = branch.payload.isSome
  isLast : (!row.isLast) = true ↔ branch.forward ≠ .nil
  leaf : row.leaf = leafBytes packer branch.payload
  live : branch.payload = none → branch.forward ≠ .nil
  tree : ∀ after, ReadsAs packer (row.tree ++ after) branch.forward 0
  starts : branch.forward ≠ .nil → ∀ after, StartsNode (row.tree ++ after)

theorem readsAs_saveRange {pairs : List (Row × Branch Data)}
    (h : ∀ pair ∈ pairs, Saves packer pair.1 pair.2)
    (hsize : measureRange (pairs.map Prod.fst) < 2 ^ 56) (after : List ℕ) :
    ReadsAs packer (saveRange (pairs.map Prod.fst) ++ after) (searchTree (pairs.map Prod.snd)) 0 ∧
      (pairs ≠ [] → StartsNode (saveRange (pairs.map Prod.fst) ++ after)) := by
  induction pairs using Median.induction generalizing after with
  | nil => simp [ReadsAs]
  | node left pair right hmid ihLeft ihRight =>
    have hpair := h pair (by simp)
    have hleft : ∀ pair ∈ left, Saves packer pair.1 pair.2 := fun pair hp => h pair (by simp [hp])
    have hright : ∀ pair ∈ right, Saves packer pair.1 pair.2 := fun pair hp => h pair (by simp [hp])
    rw [List.map_append, List.map_cons, measureRange_node (hmid.map _ _)] at hsize
    have hsizes := arcMeasure_exact hsize
    obtain ⟨offsets, htotal⟩ := total_eq pair.1 (measureRange (left.map Prod.fst))
      (measureRange (right.map Prod.fst))
    have hrows : ∀ pairs : List (Row × Branch Data), (∀ pair ∈ pairs, Saves packer pair.1 pair.2) →
        ∀ row ∈ pairs.map Prod.fst, row.Exact := by
      intro pairs hpairs row hrow
      obtain ⟨p, hp, rfl⟩ := List.mem_map.mp hrow
      exact (hpairs p hp).exact
    have hlenLeft := length_saveRange (hrows left hleft) (by omega)
    have hlenRight := length_saveRange (hrows right hright) (by omega)
    rw [List.map_append, List.map_append, List.map_cons, List.map_cons,
      saveRange_node (hmid.map _ _), searchTree_node (hmid.map _ _)]
    have hzeroLeft := @measureRange_eq_zero (left.map Prod.fst)
    have hzeroRight := @measureRange_eq_zero (right.map Prod.fst)
    rw [List.map_eq_nil_iff] at hzeroLeft hzeroRight
    rw [← hlenLeft, ← hlenRight] at hsizes hsize htotal
    rw [← hlenLeft] at hzeroLeft
    rw [← hlenRight] at hzeroRight
    rw [← hlenLeft, ← hlenRight]
    generalize arcMeasure pair.1 (saveRange (left.map Prod.fst)).length
      (saveRange (right.map Prod.fst)).length = sizes at *
    have hoffsets := hsizes.offset_le
    obtain ⟨hdropLeft, hdropRight⟩ := hsizes.drop_offset hpair.exact after
    have hsub : ∀ {offset : ℕ} {part rest data : List ℕ} {pairs : List (Row × Branch Data)},
        (part.length = 0 ↔ pairs = []) → (part ≠ [] → data.drop offset = part ++ rest) →
        ReadsAs packer (part ++ rest) (searchTree (pairs.map Prod.snd)) 0 →
        ReadsAs packer data (searchTree (pairs.map Prod.snd)) offset := by
      intro offset part rest data pairs hnil hdrop hreads
      by_cases hpart : part = []
      · rw [hnil.mp (by rw [hpart]; rfl)]
        simp [ReadsAs]
      · rw [← hdrop hpart] at hreads
        have hdeep := hreads.of_drop
        rwa [Nat.zero_add] at hdeep
    have hzero : ∀ {offset size rest total : ℕ} {pairs : List (Row × Branch Data)},
        (size = 0 ↔ pairs = []) → (size = 0 → offset = 0) →
        (size ≠ 0 → offset + size + rest = total) → 2 ≤ total - size - rest →
        (offset = 0 ↔ searchTree (pairs.map Prod.snd) = .nil) := by
      intro offset size rest total pairs hnil hzero hne htotal
      rw [searchTree_eq_nil, List.map_eq_nil_iff, ← hnil]
      constructor
      · intro hoffset
        by_contra hsize
        have := hne hsize
        omega
      · exact hzero
    have hbranch := @readsAs_branch Data packer pair.2.payload pair.2.forward
      (searchTree (left.map Prod.snd)) (searchTree (right.map Prod.snd)) hpair.live pair.1.tree
      (saveRange (left.map Prod.fst) ++ saveRange (right.map Prod.fst) ++ after)
      (hpair.tree _) (fun hne => hpair.starts hne _) (!pair.1.isLast) hpair.isLast
      sizes.leftOffset sizes.rightOffset (by omega) (by omega)
      (hzero hzeroLeft hsizes.left_eq_zero hsizes.left (by
        have := hsizes.total
        omega))
      (@hzero _ _ 0 _ _ hzeroRight hsizes.right_eq_zero hsizes.right (by
        have := hsizes.total
        omega))
      pair.2.more pair.2.first
      (arcSave pair.1 sizes.leftOffset sizes.rightOffset ++
        (saveRange (left.map Prod.fst) ++ saveRange (right.map Prod.fst)) ++ after)
      (by
        simp only [arcSave, Row.headFinal, Row.headNext, Row.body, hpair.first, hpair.more,
          hpair.isFinal, hpair.leaf, List.cons_append, List.append_assoc])
      (hsub hzeroLeft hdropLeft (ihLeft hleft (by omega) _).1)
      (hsub hzeroRight hdropRight (ihRight hright (by omega) _).1)
    exact ⟨hbranch.1, fun _ => hbranch.2⟩

theorem Arcs.length_branches (arcs : Arcs Data) :
    (arcs.rows packer).length = arcs.branches.length := by
  induction arcs with
  | nil => rfl
  | cons first more payload children rest _ ih =>
    rw [rows, branches, List.length_cons, List.length_cons, ih]

/-- The saved bytes of a node read as its search tree. -/
theorem Arcs.Live.readsAs {arcs : Arcs Data} (hlive : arcs.Live)
    (hsize : nodeMeasureSubtree packer arcs < 2 ^ 56) (after : List ℕ) :
    ReadsAs packer (nodeSaveSubtree packer arcs ++ after) arcs.tree 0 ∧
      (arcs ≠ .nil → StartsNode (nodeSaveSubtree packer arcs ++ after)) := by
  have hmap : ∀ arcs : Arcs Data,
      ((arcs.rows packer).zip arcs.branches).map Prod.fst = arcs.rows packer ∧
        ((arcs.rows packer).zip arcs.branches).map Prod.snd = arcs.branches := by
    intro arcs
    have hlength := @length_branches Data packer arcs
    exact ⟨List.map_fst_zip hlength.le, List.map_snd_zip hlength.ge⟩
  have hsaves : ∀ arcs : Arcs Data, arcs.Live →
      (∀ row ∈ arcs.rows packer, row.treeSize < 2 ^ 56) →
      ∀ pair ∈ (arcs.rows packer).zip arcs.branches, Saves packer pair.1 pair.2 := by
    intro arcs
    induction arcs with
    | nil => simp [rows]
    | cons first more payload children rest ihChildren ihRest =>
      intro hlive hsmall pair hpair
      rw [rows, List.forall_mem_cons] at hsmall
      rw [rows, branches, List.zip_cons_cons] at hpair
      rcases List.mem_cons.mp hpair with rfl | hpair
      · have hchildren := ihChildren hlive.2.1 fun row hrow =>
          lt_of_le_of_lt (treeSize_le_measureRange hrow) hsmall.1
        have hsmallTree := hsmall.1
        obtain ⟨hfst, hsnd⟩ := hmap children
        have hreads := readsAs_saveRange hchildren (by rw [hfst]; exact hsmallTree)
        rw [hfst, hsnd] at hreads
        constructor
        · exact ⟨length_nodeSaveLeafValue payload, length_saveRange (rows_exact hsmallTree)
            hsmallTree⟩
        · rfl
        · rfl
        · rfl
        · simp only [ne_eq, searchTree_eq_nil]
          cases children <;> simp [isLast, branches]
        · exact nodeSaveLeafValue_eq payload
        · intro hnone
          exact mt tree_eq_nil.mp (hlive.1 hnone)
        · intro after
          exact (hreads after).1
        · intro hne after
          apply (hreads after).2
          intro hnil
          apply hne
          rw [searchTree_eq_nil, ← hsnd, hnil]
          rfl
      · exact ihRest hlive.2.2 hsmall.2 pair hpair
  have hreads := readsAs_saveRange (hsaves arcs hlive fun row hrow =>
    lt_of_le_of_lt (treeSize_le_measureRange hrow) hsize) (by rw [(hmap arcs).1]; exact hsize) after
  rw [(hmap arcs).1, (hmap arcs).2] at hreads
  refine ⟨hreads.1, ?_⟩
  intro hne
  apply hreads.2
  intro hnil
  apply hne
  rw [← tree_eq_nil, Arcs.tree, searchTree_eq_nil, ← (hmap arcs).2, hnil]
  rfl

end TomitaParser.Comptrie
