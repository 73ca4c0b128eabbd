import TomitaParser.Rusie.Reduction
/-! # Readers of homonym masks

A mask has one bit for each homonym of a word. Five places read it with loops of their own. -/

namespace TomitaParser.Reduction

/-- `gMasculine` of `TGrammar`. -/
def gMasculine : ℕ := 192

/-- `GetMainClauseWord`: the homonym, which stays as it was when no bit is found. The loop looks at
as many bits as the type has bytes. -/
def getMainClauseWord (activeHomonyms : HomMask) (iH : ℤ) : ℤ :=
  (((List.range 4).find? fun i => homBit i &&& activeHomonyms != 0).map Int.ofNat).getD iH

namespace Word
variable {Art : Type*}

/-- The loop of `HasFirstHomonymByHomIDs_i`. -/
def firstByHomIDs (homIDs : HomMask) : Option ℕ → List (ℕ × Homonym Art) → Option ℕ
  | result, [] => result
  | result, h :: homonyms =>
    if homBit h.1 &&& homIDs != 0 then
      if h.2.grammems.hasAll {gMasculine} then some h.1
      else firstByHomIDs homIDs (result.or (some h.1)) homonyms
    else firstByHomIDs homIDs result homonyms

/-- `HasFirstHomonymByHomIDs_i`, `none` for `-1`. -/
def hasFirstHomonymByHomIDs_i (w : Word Art) (homIDs : HomMask) : Option ℕ :=
  firstByHomIDs homIDs none w.homonyms

/-- The homonyms are numbered by their places, where deleted ones leave gaps. -/
structure Numbered (w : Word Art) : Prop where
  increasing : (w.homonyms.map (·.1)).Pairwise (· < ·)
  lt : ∀ h ∈ w.homonyms, h.1 < 32

/-- `iHomIDs` names the homonym. -/
def Holds (mask : HomMask) (id : ℕ) : Prop := mask.getLsbD id = true

instance (mask : HomMask) (id : ℕ) : Decidable (Holds mask id) :=
  inferInstanceAs (Decidable (_ = _))

/-- The forms of a homonym agree with the grammems of a child. -/
def Agrees (interp : HomonymGrammems) (h : Homonym Art) : Prop :=
  if interp.hasForms then ∃ form ∈ interp.forms, h.grammems.hasFormWith form = true
  else interp.all ≠ ∅ → h.grammems.hasAny interp.all = true

/-- The mask of the homonyms of a mask that agree with the grammems of a child. -/
def IsAgreeing (w : Word Art) (interp : HomonymGrammems) (mask agreeing : HomMask) : Prop :=
  ∀ id, Holds agreeing id ↔ Holds mask id ∧ ∃ h ∈ w.homonyms, h.1 = id ∧ Agrees interp h.2

/-- A child with this word and mask gets a new mask only when there are two homonyms in it, and
then the ones that agree with the new grammems. -/
def AdjustsAgreeing [DecidableEq Art] (w : Word Art) (mask : HomMask) : Prop :=
  ∀ (H : Holder Art) (constr : ReduceConstraints) (interps : List HomonymGrammems)
    (masks : ℕ → HomMask) (i : ℕ),
    H.mainWord (constr.getChildGroup i) = w → (constr.getChildGroup i).mainHomIDs = mask →
    H.adjustChild constr interps masks i = masks ∨
      (∃ id id', id ≠ id' ∧ Holds mask id ∧ Holds mask id') ∧
        ∃ agreeing, IsAgreeing w (interps.getD i {}) mask agreeing ∧
          H.adjustChild constr interps masks i =
            Function.update masks (H.wordOffset constr (constr.getChildGroup i).mainWordNo).toNat
              agreeing

/-- All readers see the same homonyms in the mask. -/
structure ReadAlike [DecidableEq Art] (w : Word Art) (mask : HomMask) : Prop where
  onlyOne : hasOnlyOneHomId mask = true ↔ ∃ id, ∀ id', Holds mask id' ↔ id' = id
  iterator : w.maskedHomonyms mask = w.homonyms.filter fun h => decide (Holds mask h.1)
  mainClauseWord : ∀ iH, ∃ id : ℕ, getMainClauseWord mask iH = id ∧
    IsLeast {id | Holds mask id} id
  first : ∀ id, w.hasFirstHomonymByHomIDs_i mask = some id →
    Holds mask id ∧ ∃ h ∈ w.homonyms, h.1 = id
  none : w.hasFirstHomonymByHomIDs_i mask = none ↔ ∀ h ∈ w.homonyms, ¬ Holds mask h.1
  adjusts : AdjustsAgreeing w mask

theorem homBit_eq (id : ℕ) : homBit id = BitVec.twoPow 32 id := (BitVec.twoPow_eq 32 id).symm

theorem holds_homBit {id id' : ℕ} : Holds (homBit id) id' ↔ id < 32 ∧ id = id' := by
  rw [Holds, homBit_eq, BitVec.getLsbD_twoPow]
  simp

theorem holds_lt {mask : HomMask} {id : ℕ} (h : Holds mask id) : id < 32 :=
  BitVec.lt_of_getLsbD h

theorem homBit_and_ne_zero {mask : HomMask} {id : ℕ} (h : id < 32) :
    homBit id &&& mask ≠ 0 ↔ Holds mask id := by
  rw [homBit_eq, BitVec.and_comm, BitVec.and_twoPow, Holds]
  by_cases hbit : mask.getLsbD id = true
  · rw [if_pos hbit]
    simp only [hbit, iff_true]
    intro hzero
    have := congrArg (·.getLsbD id) hzero
    simp [h] at this
  · rw [if_neg hbit]
    simp [hbit]

theorem eq_of_holds_iff {mask mask' : HomMask} (h : ∀ id, Holds mask id ↔ Holds mask' id) :
    mask = mask' := by
  apply BitVec.eq_of_getLsbD_eq
  intro id _
  rw [Bool.eq_iff_iff]
  exact h id

theorem holds_or {mask mask' : HomMask} {id : ℕ} :
    Holds (mask ||| mask') id ↔ Holds mask id ∨ Holds mask' id := by
  simp [Holds]

theorem holds_and {mask mask' : HomMask} {id : ℕ} :
    Holds (mask &&& mask') id ↔ Holds mask id ∧ Holds mask' id := by
  simp [Holds]

theorem find_low {mask : HomMask} (h : ∃ id < 4, Holds mask id) :
    ∃ id, ((List.range 4).find? fun i => homBit i &&& mask != 0) = some id ∧
      IsLeast {id | Holds mask id} id := by
  obtain ⟨low, hlow, hbit⟩ := h
  cases hfind : (List.range 4).find? fun i => homBit i &&& mask != 0 with
  | none =>
    have := List.find?_eq_none.mp hfind low (List.mem_range.mpr hlow)
    simp only [bne_iff_ne] at this
    exact absurd ((homBit_and_ne_zero (by omega)).mpr hbit) this
  | some id =>
    have hid := List.mem_range.mp (List.mem_of_find?_eq_some hfind)
    refine ⟨id, rfl, ?_, ?_⟩
    · have := List.find?_some hfind
      rw [bne_iff_ne] at this
      exact (homBit_and_ne_zero (by omega)).mp this
    · intro id' hid'
      by_contra hlt
      have hbefore := (List.find?_range_eq_some.mp hfind).2.2 id' (by omega)
      simp only [Bool.not_eq_true', bne_eq_false_iff_eq] at hbefore
      exact (homBit_and_ne_zero (holds_lt hid')).mpr hid' hbefore

theorem find_low_none {mask : HomMask} (h : ∀ id < 4, ¬ Holds mask id) :
    ((List.range 4).find? fun i => homBit i &&& mask != 0) = none := by
  rw [List.find?_eq_none]
  intro id hid hne
  have hlt := List.mem_range.mp hid
  rw [bne_iff_ne] at hne
  exact h id hlt ((homBit_and_ne_zero (by omega)).mp hne)

theorem hasOnlyOneHomId_iff {mask : HomMask} (h : ∃ id < 4, Holds mask id) :
    hasOnlyOneHomId mask = true ↔ ∃ id, ∀ id', Holds mask id' ↔ id' = id := by
  obtain ⟨id, hfind, hleast⟩ := find_low h
  have hne : mask ≠ 0 := by
    intro hzero
    have := hleast.1
    rw [Set.mem_ofPred_eq, hzero, Holds] at this
    simp at this
  rw [hasOnlyOneHomId, if_neg hne, hfind, Option.getD_some, beq_iff_eq]
  have hid := holds_lt hleast.1
  constructor
  · intro heq
    refine ⟨id, ?_⟩
    intro id'
    rw [← heq, holds_homBit]
    constructor
    · intro h
      exact h.2.symm
    · intro h
      exact ⟨hid, h.symm⟩
  · intro hone
    obtain ⟨only, honly⟩ := hone
    apply eq_of_holds_iff
    intro id'
    rw [holds_homBit, honly id', ← (honly id).mp hleast.1]
    constructor
    · intro h
      exact h.2.symm
    · intro h
      exact ⟨hid, h.symm⟩

theorem maskedHomonyms_eq {w : Word Art} (hw : w.Numbered) {mask : HomMask} (hmask : mask ≠ 0) :
    w.maskedHomonyms mask = w.homonyms.head?.toList ++
      w.homonyms.tail.filter fun h => decide (Holds mask h.1) := by
  have hall : (w.homonyms.filter fun h => decide (h.1 < 32)) = w.homonyms := by
    rw [List.filter_eq_self]
    intro h hh
    exact decide_eq_true (hw.lt h hh)
  rw [maskedHomonyms, if_neg hmask, hall]
  have hlt := hw.lt
  cases hhom : w.homonyms with
  | nil => rfl
  | cons first rest =>
    rw [hhom] at hlt
    simp only [List.head?_cons, Option.toList_some, List.tail_cons, List.cons_append,
      List.nil_append, List.cons.injEq, true_and]
    apply List.filter_congr
    intro h hh
    rw [Bool.eq_iff_iff, bne_iff_ne, decide_eq_true_eq]
    exact homBit_and_ne_zero (hlt h (List.mem_cons_of_mem first hh))

theorem maskedHomonyms_iff {w : Word Art} (hw : w.Numbered) {mask : HomMask} (hmask : mask ≠ 0) :
    (w.maskedHomonyms mask = w.homonyms.filter fun h => decide (Holds mask h.1)) ↔
      ∀ h ∈ w.homonyms.head?, Holds mask h.1 := by
  rw [maskedHomonyms_eq hw hmask]
  cases hhom : w.homonyms with
  | nil => simp
  | cons first rest =>
    rw [List.head?_cons, List.tail_cons, Option.toList_some, List.filter_cons]
    by_cases hfirst : Holds mask first.1
    · simp [hfirst]
    · simp only [hfirst, decide_false, Bool.false_eq_true, if_false, Option.mem_some_iff, forall_eq',
        iff_false]
      intro heq
      have hmem : first ∈ rest.filter fun h => decide (Holds mask h.1) := by
        rw [← heq]
        exact List.mem_cons_self
      exact hfirst (of_decide_eq_true (List.mem_filter.mp hmem).2)

theorem firstByHomIDs_some {mask : HomMask} {homonyms : List (ℕ × Homonym Art)} {result : Option ℕ}
    {id : ℕ} (hlt : ∀ h ∈ homonyms, h.1 < 32) (h : firstByHomIDs mask result homonyms = some id) :
    result = some id ∨ Holds mask id ∧ ∃ h ∈ homonyms, h.1 = id := by
  induction homonyms generalizing result with
  | nil => exact Or.inl h
  | cons first rest ih =>
    have hrest : ∀ h ∈ rest, h.1 < 32 := fun h hh => hlt h (List.mem_cons_of_mem first hh)
    have hmem : Holds mask id ∧ (∃ h ∈ rest, h.1 = id) →
        Holds mask id ∧ ∃ h ∈ first :: rest, h.1 = id := by
      intro hin
      obtain ⟨hbit, h, hh, heq⟩ := hin
      exact ⟨hbit, h, List.mem_cons_of_mem first hh, heq⟩
    rw [firstByHomIDs] at h
    split_ifs at h with hbit hmasc
    · rw [bne_iff_ne, homBit_and_ne_zero (hlt first List.mem_cons_self)] at hbit
      rw [Option.some.injEq] at h
      exact Or.inr ⟨h ▸ hbit, first, List.mem_cons_self, h⟩
    · rw [bne_iff_ne, homBit_and_ne_zero (hlt first List.mem_cons_self)] at hbit
      rcases ih hrest h with hor | hin
      · cases result with
        | none =>
          rw [Option.none_or, Option.some.injEq] at hor
          exact Or.inr ⟨hor ▸ hbit, first, List.mem_cons_self, hor⟩
        | some r => exact Or.inl hor
      · exact Or.inr (hmem hin)
    · exact (ih hrest h).imp_right hmem

theorem firstByHomIDs_none {mask : HomMask} {homonyms : List (ℕ × Homonym Art)} {result : Option ℕ}
    (hlt : ∀ h ∈ homonyms, h.1 < 32) :
    firstByHomIDs mask result homonyms = none ↔
      result = none ∧ ∀ h ∈ homonyms, ¬ Holds mask h.1 := by
  induction homonyms generalizing result with
  | nil => simp [firstByHomIDs]
  | cons first rest ih =>
    have hrest : ∀ h ∈ rest, h.1 < 32 := fun h hh => hlt h (List.mem_cons_of_mem first hh)
    rw [firstByHomIDs, List.forall_mem_cons]
    split_ifs with hbit hmasc
    · rw [bne_iff_ne, homBit_and_ne_zero (hlt first List.mem_cons_self)] at hbit
      simp [hbit]
    · rw [bne_iff_ne, homBit_and_ne_zero (hlt first List.mem_cons_self)] at hbit
      rw [ih hrest]
      cases result <;> simp [hbit]
    · rw [bne_iff_ne, homBit_and_ne_zero (hlt first List.mem_cons_self)] at hbit
      rw [ih hrest]
      simp [hbit]

theorem holds_foldl_new {interp : HomonymGrammems} {mask : HomMask}
    {homonyms : List (ℕ × Homonym Art)} {ids : HomMask} {id : ℕ}
    (hlt : ∀ h ∈ homonyms, h.1 < 32) :
    Holds (homonyms.foldl (fun ids h =>
      if homBit h.1 &&& mask = 0 then ids
      else
        if (if interp.hasForms then
            decide (∃ form ∈ interp.forms, h.2.grammems.hasFormWith form = true)
          else if interp.all ≠ ∅ then h.2.grammems.hasAny interp.all
          else true) then ids ||| homBit h.1 else ids) ids) id ↔
      Holds ids id ∨ Holds mask id ∧ ∃ h ∈ homonyms, h.1 = id ∧ Agrees interp h.2 := by
  induction homonyms generalizing ids with
  | nil => simp
  | cons first rest ih =>
    have hfirst := hlt first List.mem_cons_self
    have hagrees : (if interp.hasForms then
          decide (∃ form ∈ interp.forms, first.2.grammems.hasFormWith form = true)
        else if interp.all ≠ ∅ then first.2.grammems.hasAny interp.all
        else true) = true ↔ Agrees interp first.2 := by
      rw [Agrees]
      split_ifs with hforms hall
      · rw [decide_eq_true_eq]
      · simp [hall]
      · simp [hall]
    rw [List.foldl_cons, ih fun h hh => hlt h (List.mem_cons_of_mem first hh)]
    simp only [List.exists_mem_cons_iff]
    by_cases hbit : homBit first.1 &&& mask = 0
    · have hnot : ¬ Holds mask first.1 := by
        intro hholds
        exact (homBit_and_ne_zero hfirst).mpr hholds hbit
      rw [if_pos hbit]
      constructor
      · intro h
        exact h.imp_right fun h => ⟨h.1, Or.inr h.2⟩
      · intro h
        rcases h with h | ⟨hmask, ⟨rfl, _⟩ | h⟩
        · exact Or.inl h
        · exact absurd hmask hnot
        · exact Or.inr ⟨hmask, h⟩
    · have hholds := (homBit_and_ne_zero hfirst).mp hbit
      rw [if_neg hbit]
      by_cases hgood : Agrees interp first.2
      · rw [if_pos (hagrees.mpr hgood), holds_or, holds_homBit]
        constructor
        · intro h
          rcases h with (h | ⟨_, rfl⟩) | h
          · exact Or.inl h
          · exact Or.inr ⟨hholds, Or.inl ⟨rfl, hgood⟩⟩
          · exact Or.inr ⟨h.1, Or.inr h.2⟩
        · intro h
          rcases h with h | ⟨hmask, ⟨rfl, _⟩ | h⟩
          · exact Or.inl (Or.inl h)
          · exact Or.inl (Or.inr ⟨hfirst, rfl⟩)
          · exact Or.inr ⟨hmask, h⟩
      · rw [if_neg (fun h => hgood (hagrees.mp h))]
        constructor
        · intro h
          exact h.imp_right fun h => ⟨h.1, Or.inr h.2⟩
        · intro h
          rcases h with h | ⟨hmask, ⟨_, hagree⟩ | h⟩
          · exact Or.inl h
          · exact absurd hagree hgood
          · exact Or.inr ⟨hmask, h⟩

theorem isAgreeing_new {w : Word Art} (hw : w.Numbered) (interp : HomonymGrammems)
    (mask : HomMask) :
    IsAgreeing w interp mask (Holder.getNewHomIDsByGrammems interp w mask &&& mask) := by
  intro id
  rw [holds_and, Holder.getNewHomIDsByGrammems, holds_foldl_new hw.lt]
  constructor
  · intro h
    rcases h with ⟨h | h, _⟩
    · simp [Holds] at h
    · exact h
  · intro h
    exact ⟨Or.inr h, h.1⟩

theorem adjustsAgreeing [DecidableEq Art] {w : Word Art} (hw : w.Numbered) {mask : HomMask}
    (h : ∃ id < 4, Holds mask id) : AdjustsAgreeing w mask := by
  intro H constr interps masks i hword hids
  rw [Holder.adjustChild, hword, hids]
  split_ifs with hsame
  · exact Or.inl rfl
  · right
    have hnot : ¬ ∃ id, ∀ id', Holds mask id' ↔ id' = id := by
      rw [← hasOnlyOneHomId_iff h]
      intro hone
      exact hsame (Or.inr (Or.inr hone))
    refine ⟨?_, _, isAgreeing_new hw (interps.getD i {}) mask, rfl⟩
    obtain ⟨id, _, hid⟩ := h
    by_contra hall
    apply hnot
    refine ⟨id, ?_⟩
    intro id'
    constructor
    · intro hid'
      by_contra hne
      exact hall ⟨id', id, hne, hid', hid⟩
    · intro heq
      rw [heq]
      exact hid

/-- The readers agree exactly when the mask has one of the first four homonyms, and the first
homonym that the word still has. -/
theorem readAlike_iff [DecidableEq Art] (w : Word Art) (hw : w.Numbered) (mask : HomMask)
    (hmask : mask ≠ 0) :
    ReadAlike w mask ↔ (∃ id < 4, Holds mask id) ∧ ∀ h ∈ w.homonyms.head?, Holds mask h.1 := by
  constructor
  · intro h
    refine ⟨?_, (maskedHomonyms_iff hw hmask).mp h.iterator⟩
    by_contra hlow
    obtain ⟨id, hid, _⟩ := h.mainClauseWord (-1)
    rw [getMainClauseWord, find_low_none fun id hlt hid => hlow ⟨id, hlt, hid⟩] at hid
    simp only [Option.map_none, Option.getD_none] at hid
    omega
  · intro h
    obtain ⟨hlow, hfirst⟩ := h
    constructor
    · exact hasOnlyOneHomId_iff hlow
    · exact (maskedHomonyms_iff hw hmask).mpr hfirst
    · intro iH
      obtain ⟨id, hfind, hleast⟩ := find_low hlow
      refine ⟨id, ?_, hleast⟩
      rw [getMainClauseWord, hfind]
      rfl
    · intro id hid
      rcases firstByHomIDs_some hw.lt hid with hnone | hin
      · cases hnone
      · exact hin
    · rw [hasFirstHomonymByHomIDs_i, firstByHomIDs_none hw.lt]
      simp
    · exact adjustsAgreeing hw hlow

/-- A word with the first homonym and the one with another number. -/
def withHomonym (id : ℕ) : Word Unit where
  homonyms := [(0, ⟨{}, []⟩), (id, ⟨{}, []⟩)]

theorem numbered_withHomonym {id : ℕ} (hpos : 0 < id) (hlt : id < 32) :
    (withHomonym id).Numbered := by
  constructor
  · simp [withHomonym, hpos]
  · intro h hh
    rw [withHomonym, List.mem_cons, List.mem_singleton] at hh
    rcases hh with rfl | rfl
    · exact Nat.succ_pos 31
    · exact hlt

theorem readAlike_iff_withHomonym :
    ReadAlike (withHomonym 2) (homBit 0) ↔
      (∃ id < 4, Holds (homBit 0) id) ∧ ∀ h ∈ (withHomonym 2).homonyms.head?, Holds (homBit 0) h.1 :=
  readAlike_iff (withHomonym 2) (numbered_withHomonym (by decide) (by decide)) (homBit 0) (by decide)

/-- A mask with the sixth homonym alone is not seen to have only one. -/
theorem not_readAlike_withHomonym :
    (withHomonym 5).Numbered ∧ ¬ ReadAlike (withHomonym 5) (homBit 5) := by
  refine ⟨numbered_withHomonym (by decide) (by decide), ?_⟩
  intro h
  have hone := h.onlyOne.mpr ⟨5, fun id' => by
    rw [holds_homBit]
    omega⟩
  exact absurd hone (by decide)

end Word

end TomitaParser.Reduction
