import TomitaParser.Rusie.Reduction
/-! # Masks of homonyms

`ReduceCheckKWSets` and `ReduceCheckGeoAgreement` filter the homonyms of the children. The masks
have one entry for each word, constraints have numbers of children: the accesses to the masks are
recorded, and compared with those of checks that address the masks by word. -/

namespace TomitaParser.Reduction

/-- An access to the masks: the number it is made with, the child that the constraint names and
the offset of the word to check in it, the child looked at and the index of the mask. -/
structure MaskAccess where
  number : ℕ
  named : ℕ
  checked : ℤ
  looked : ℕ
  index : ℤ
  write : Bool := false
deriving DecidableEq

/-- The child is the one named, and the mask that of the word checked in it. -/
def MaskAccess.ByWord (a : MaskAccess) : Prop := a.looked = a.named ∧ a.index = a.checked

instance (a : MaskAccess) : Decidable a.ByWord := inferInstanceAs (Decidable (_ ∧ _))

/-- The result of a check: whether it passes, what it leaves, and its accesses to the masks. -/
structure Checked where
  ok : Bool
  constr : ReduceConstraints
  accesses : List MaskAccess

def Checked.after (accesses : List MaskAccess) (c : Checked) : Checked :=
  { c with accesses := accesses ++ c.accesses }

def ReduceConstraints.maskAt (constr : ReduceConstraints) (index : ℤ) : HomMask :=
  constr.childHomonyms index.toNat

def ReduceConstraints.setMask (constr : ReduceConstraints) (index : ℤ) (mask : HomMask) :
    ReduceConstraints :=
  { constr with childHomonyms := Function.update constr.childHomonyms index.toNat mask }

namespace Holder
variable {Art : Type*} [DecidableEq Art] (H : Holder Art)

/-- The word that a set of keywords is about, its number and the homonyms of the child there. -/
def checkedWord (kw : KWSet Art) (g : Group) : Word Art × ℕ × HomMask :=
  if kw.applyToTheFirstWord && g.factGroup then
    (H.word g.firstWord, g.firstWord, g.childHomonyms.getD 0 0)
  else (H.mainWord g, g.mainWordNo, g.mainHomIDs)

/-- The homonyms with an article of the set. -/
def usedHomonyms (kw : KWSet Art) (w : Word Art) : HomMask :=
  if kw.negative then 0 else kw.kwSet.foldl w.getHomIDsByKWType 0

/-- The forms of the grammems without those of dropped homonyms only. -/
def dropForms {Art : Type*} (w : Word Art) (res dropped : HomMask) (g : HomonymGrammems) :
    HomonymGrammems :=
  let formsOf (mask : HomMask) (h : ℕ × Homonym Art) : Finset GramBits :=
    if homBit h.1 &&& mask = 0 then ∅ else h.2.grammems.forms
  let remained := w.homonyms.foldl (fun forms h => forms ∪ formsOf res h) ∅
  let droppedForms := w.homonyms.foldl (fun forms h =>
    if homBit h.1 &&& res = 0 then forms ∪ formsOf dropped h else forms) ∅
  .resetForms (g.forms.filter fun form => form ∉ droppedForms ∨ form ∈ remained)

/-- What an entry does once the mask is read. -/
inductive KWOutcome where
  | refuse | accept | keep | narrow (res : HomMask)
deriving DecidableEq

/-- An entry with the mask that was read. -/
def kwOutcome (kw : KWSet Art) (g : Group) (mask : HomMask) : KWOutcome :=
  let checked := H.checkedWord kw g
  let used := usedHomonyms kw checked.1
  let used := if mask ≠ 0 then used &&& mask else used
  if kw.negative = false ∧ used = 0 then .refuse
  else if hasOnlyOneHomId checked.2.2 then .keep
  else if checked.2.2 &&& used = 0 then .accept
  else .narrow (checked.2.2 &&& used)

/-- The narrowed mask and the grammems that are left with it. -/
def narrow (kw : KWSet Art) (g : Group) (mask res : HomMask) (constr : ReduceConstraints) :
    ReduceConstraints :=
  let checked := H.checkedWord kw g
  let used := usedHomonyms kw checked.1
  let used := if mask ≠ 0 then used &&& mask else used
  { constr.setMask (H.wordOffset constr checked.2.1) res with
    grammems :=
      if constr.grammems.hasForms ∧ res ≠ checked.2.2 then
        dropForms checked.1 res (checked.2.2 &&& ~~~used) constr.grammems
      else constr.grammems }

/-- A word with a forbidden article is refused before the mask is read. -/
def forbidden (kw : KWSet Art) (w : Word Art) : Bool :=
  kw.negative && kw.kwSet.any fun art => (w.hasArticle_i art).isSome

/-- `ReduceCheckKWSets`, with the mask read at `readAt` of the child and the offset of its word. -/
def kwSetsWith (readAt : ℕ → ℤ → ℤ) : List (ℕ × KWSet Art) → ReduceConstraints → Checked
  | [], constr => ⟨true, constr, []⟩
  | (child, kw) :: rest, constr =>
    let g := constr.getChildGroup child
    let checked := H.checkedWord kw g
    let offset := H.wordOffset constr checked.2.1
    if forbidden kw checked.1 then ⟨false, constr, []⟩
    else
      let mask := constr.maskAt (readAt child offset)
      let read : MaskAccess := ⟨child, child, offset, child, readAt child offset, false⟩
      match H.kwOutcome kw g mask with
      | .refuse => ⟨false, constr, [read]⟩
      | .accept => ⟨true, constr, [read]⟩
      | .keep => (kwSetsWith readAt rest constr).after [read]
      | .narrow res =>
        (kwSetsWith readAt rest (H.narrow kw g mask res constr)).after
          [read, ⟨child, child, offset, child, offset, true⟩]

/-- `ReduceCheckKWSets`: the mask is read at the number of the child. -/
def reduceCheckKWSets (info : RuleInfo Art) (constr : ReduceConstraints) : Checked :=
  H.kwSetsWith (fun child _ => child) info.kwSets constr

/-- The check with the masks addressed by word. -/
def kwSetsByWord (info : RuleInfo Art) (constr : ReduceConstraints) : Checked :=
  H.kwSetsWith (fun _ offset => offset) info.kwSets constr

/-- `HaveRelatedGeo`: the homonyms that take part, or `none`. -/
def haveRelatedGeo (negate : Bool) (w₁ w₂ : Word Art) (hom₁ hom₂ : HomMask) :
    Option (HomMask × HomMask) :=
  let pairs := (w₁.maskedHomonyms hom₁).flatMap fun h₁ =>
    ((w₂.maskedHomonyms hom₂).filter fun h₂ => H.isRelatedGeo h₁.2 h₂.2 != negate).map fun h₂ =>
      (h₁.1, h₂.1)
  let res₁ := pairs.foldl (fun m p => m ||| homBit p.1) 0
  let res₂ := pairs.foldl (fun m p => m ||| homBit p.2) 0
  if res₁ ≠ 0 ∧ res₂ ≠ 0 then some (res₁, res₂) else none

/-- The pairs of neighbours among the agreeing items of the geo agreements, by their positions. -/
def geoPairs {Art : Type*} (info : RuleInfo Art) : List (RuleAgr × ℕ) :=
  info.rulesAgrs.flatMap fun agr =>
    if agr.agrProcedure = some .geoAgr then
      (List.range (agr.agreeItems.length - 1)).map fun i₁ => (agr, i₁)
    else []

/-- `ReduceCheckGeoAgreement`, with the child `look` of a position and its mask at `maskOf`. The
masks are changed on a copy, which is kept when every pair passes. -/
def geoWith (look : RuleAgr → ℕ → ℕ) (maskOf : ℕ → ℤ → ℤ) :
    List (RuleAgr × ℕ) → ReduceConstraints → Checked
  | [], constr => ⟨true, constr, []⟩
  | (agr, i₁) :: rest, constr =>
    let offset (i : ℕ) : ℤ := H.wordOffset constr
      (constr.getChildGroup (agr.agreeItems.getD i 0)).mainWordNo
    let access (i : ℕ) (write : Bool) : MaskAccess :=
      ⟨i, agr.agreeItems.getD i 0, offset i, look agr i, maskOf i (offset i), write⟩
    let g₁ := constr.getChildGroup (look agr i₁)
    let g₂ := constr.getChildGroup (look agr (i₁ + 1))
    let reads := [access i₁ false, access (i₁ + 1) false]
    match H.haveRelatedGeo agr.negativeAgreement (H.mainWord g₁) (H.mainWord g₂)
        (constr.maskAt (maskOf i₁ (offset i₁)))
        (constr.maskAt (maskOf (i₁ + 1) (offset (i₁ + 1)))) with
    | none => ⟨false, constr, reads⟩
    | some masks =>
      (geoWith look maskOf rest ((constr.setMask (maskOf i₁ (offset i₁)) masks.1).setMask
        (maskOf (i₁ + 1) (offset (i₁ + 1))) masks.2)).after
          (reads ++ [access i₁ true, access (i₁ + 1) true])

/-- The masks of the copy are dropped when the check fails. -/
def commit (constr : ReduceConstraints) (c : Checked) : Checked :=
  if c.ok then c else { c with constr := constr }

/-- `ReduceCheckGeoAgreement`: children and masks are taken by the position among the agreeing
items. -/
def reduceCheckGeoAgreement (info : RuleInfo Art) (constr : ReduceConstraints) : Checked :=
  commit constr (H.geoWith (fun _ i => i) (fun i _ => i) (geoPairs info) constr)

/-- The check of the agreeing items with the masks addressed by word. -/
def geoAgreementByWord (info : RuleInfo Art) (constr : ReduceConstraints) : Checked :=
  commit constr (H.geoWith (fun agr i => agr.agreeItems.getD i 0) (fun _ offset => offset)
    (geoPairs info) constr)

/-- An entry of `ReduceCheckKWSets` after which the loop goes on. -/
def kwStep (constr : ReduceConstraints) (entry : ℕ × KWSet Art) : Option ReduceConstraints :=
  let g := constr.getChildGroup entry.1
  if forbidden entry.2 (H.checkedWord entry.2 g).1 then none
  else
    match H.kwOutcome entry.2 g (constr.maskAt entry.1) with
    | .refuse => none
    | .accept => none
    | .keep => some constr
    | .narrow res => some (H.narrow entry.2 g (constr.maskAt entry.1) res constr)

/-- A pair of `ReduceCheckGeoAgreement` after which the loop goes on. -/
def geoStep (constr : ReduceConstraints) (pair : RuleAgr × ℕ) : Option ReduceConstraints :=
  (H.haveRelatedGeo pair.1.negativeAgreement (H.mainWord (constr.getChildGroup pair.2))
    (H.mainWord (constr.getChildGroup (pair.2 + 1))) (constr.maskAt pair.2)
    (constr.maskAt (pair.2 + 1 : ℕ))).map fun masks =>
      (constr.setMask pair.2 masks.1).setMask (pair.2 + 1 : ℕ) masks.2

/-- The loop comes to what stands behind `before`. -/
def Reaches {α : Type*} (step : ReduceConstraints → α → Option ReduceConstraints)
    (constr : ReduceConstraints) (before : List α) : Prop :=
  (before.foldlM step constr).isSome = true

theorem reaches_cons {α : Type*} {step : ReduceConstraints → α → Option ReduceConstraints}
    {constr : ReduceConstraints} {a : α} {before : List α} :
    Reaches step constr (a :: before) ↔ ∃ next, step constr a = some next ∧
      Reaches step next before := by
  rw [Reaches, List.foldlM_cons]
  cases step constr a <;> simp [Reaches]

/-- The child that an entry names has its checked word at the offset that is its number. -/
def KWAligned (constr : ReduceConstraints) (entry : ℕ × KWSet Art) : Prop :=
  (entry.1 : ℤ) =
    H.wordOffset constr (H.checkedWord entry.2 (constr.getChildGroup entry.1)).2.1

/-- The agreeing item at a position is the child of this number, with its main word at the offset
that is its number. -/
def GeoAligned (constr : ReduceConstraints) (agr : RuleAgr) (i : ℕ) : Prop :=
  agr.agreeItems.getD i 0 = i ∧ H.wordOffset constr (constr.getChildGroup i).mainWordNo = (i : ℤ)

/-- Every entry that the loop of `ReduceCheckKWSets` comes to, and that does not refuse the word at
once, has its word at the number of its child. -/
def KWSetsAligned (entries : List (ℕ × KWSet Art)) (constr : ReduceConstraints) : Prop :=
  ∀ (k : ℕ) entry, entries[k]? = some entry → Reaches H.kwStep constr (entries.take k) →
    forbidden entry.2 (H.checkedWord entry.2 (constr.getChildGroup entry.1)).1 = false →
      H.KWAligned constr entry

/-- Every pair that the loop of `ReduceCheckGeoAgreement` comes to is of the children at the
positions compared, with their words there. -/
def GeoPairsAligned (pairs : List (RuleAgr × ℕ)) (constr : ReduceConstraints) : Prop :=
  ∀ (k : ℕ) pair, pairs[k]? = some pair → Reaches H.geoStep constr (pairs.take k) →
    H.GeoAligned constr pair.1 pair.2 ∧ H.GeoAligned constr pair.1 (pair.2 + 1)

variable {H}

theorem forall_mem_after {p : MaskAccess → Prop} {accesses : List MaskAccess} {c : Checked} :
    (∀ a ∈ (c.after accesses).accesses, p a) ↔
      (∀ a ∈ accesses, p a) ∧ ∀ a ∈ c.accesses, p a := by
  rw [Checked.after, List.forall_mem_append]

theorem kwSetsAligned_cons {entry : ℕ × KWSet Art} {rest : List (ℕ × KWSet Art)}
    {constr : ReduceConstraints} : H.KWSetsAligned (entry :: rest) constr ↔
      (forbidden entry.2 (H.checkedWord entry.2 (constr.getChildGroup entry.1)).1 = false →
        H.KWAligned constr entry) ∧
      ∀ next, H.kwStep constr entry = some next → H.KWSetsAligned rest next := by
  have hkeep : ∀ next, H.kwStep constr entry = some next →
      next.children = constr.children ∧ next.firstItemIndex = constr.firstItemIndex := by
    intro next hnext
    simp only [kwStep] at hnext
    split at hnext
    · simp at hnext
    · split at hnext
      · simp at hnext
      · simp at hnext
      · rw [Option.some.injEq] at hnext
        rw [← hnext]
        exact ⟨rfl, rfl⟩
      · rw [Option.some.injEq] at hnext
        rw [← hnext]
        exact ⟨rfl, rfl⟩
  have hsame : ∀ next, H.kwStep constr entry = some next →
      next.getChildGroup = constr.getChildGroup ∧ H.wordOffset next = H.wordOffset constr := by
    intro next hnext
    obtain ⟨hchildren, hfirst⟩ := hkeep next hnext
    constructor
    · funext i
      rw [ReduceConstraints.getChildGroup, ReduceConstraints.getChildGroup, hchildren]
    · funext w
      rw [wordOffset, wordOffset, hfirst]
  constructor
  · intro h
    refine ⟨h 0 entry rfl rfl, ?_⟩
    intro next hnext k e he hreach hforbidden
    obtain ⟨hgroup, hoffset⟩ := hsame next hnext
    rw [hgroup] at hforbidden
    have haligned := h (k + 1) e he (reaches_cons.mpr ⟨next, hnext, hreach⟩) hforbidden
    rw [KWAligned, hgroup, hoffset]
    exact haligned
  · rintro ⟨hfirst, hrest⟩ k e he hreach hforbidden
    cases k with
    | zero =>
      rw [List.getElem?_cons_zero, Option.some.injEq] at he
      rw [← he] at hforbidden ⊢
      exact hfirst hforbidden
    | succ k =>
      obtain ⟨next, hnext, hreach'⟩ := reaches_cons.mp hreach
      obtain ⟨hgroup, hoffset⟩ := hsame next hnext
      have haligned := hrest next hnext k e he hreach' (by rw [hgroup]; exact hforbidden)
      rw [KWAligned, hgroup, hoffset] at haligned
      exact haligned

/-- The sets of keywords read the masks of other words except where the loop comes to children
whose checked words stand at the offsets that are their numbers. -/
theorem kwSets_byWord_iff (entries : List (ℕ × KWSet Art)) (constr : ReduceConstraints) :
    (∀ a ∈ (H.kwSetsWith (fun child _ => child) entries constr).accesses, a.ByWord) ↔
      H.KWSetsAligned entries constr := by
  induction entries generalizing constr with
  | nil => exact iff_of_true (fun _ ha => absurd ha List.not_mem_nil) (fun k _ h => by simp at h)
  | cons entry rest ih =>
    obtain ⟨child, kw⟩ := entry
    rw [kwSetsAligned_cons]
    simp only [kwSetsWith, kwStep]
    by_cases hforbidden :
        forbidden kw (H.checkedWord kw (constr.getChildGroup child)).1 = true
    · simp [hforbidden]
    · rw [if_neg hforbidden, if_neg hforbidden]
      have hread : (⟨child, child,
          H.wordOffset constr (H.checkedWord kw (constr.getChildGroup child)).2.1, child, child,
          false⟩ : MaskAccess).ByWord ↔ H.KWAligned constr (child, kw) :=
        and_iff_right rfl
      have hfalse := Bool.eq_false_iff.mpr hforbidden
      split
      · simp [hread, hfalse]
      · simp [hread, hfalse]
      · rw [forall_mem_after, ih]
        simp [hread, hfalse]
      · rw [forall_mem_after, ih]
        simp only [List.forall_mem_cons, List.not_mem_nil, false_implies, implies_true, and_true,
          hread, hfalse, true_implies, Option.some.injEq, forall_eq']
        exact and_congr_left fun _ => and_iff_left ⟨rfl, rfl⟩

omit [DecidableEq Art] in
theorem geoPairsAligned_cons {pair : RuleAgr × ℕ} {rest : List (RuleAgr × ℕ)}
    {constr : ReduceConstraints} : H.GeoPairsAligned (pair :: rest) constr ↔
      (H.GeoAligned constr pair.1 pair.2 ∧ H.GeoAligned constr pair.1 (pair.2 + 1)) ∧
      ∀ next, H.geoStep constr pair = some next → H.GeoPairsAligned rest next := by
  have hsame : ∀ next, H.geoStep constr pair = some next →
      ∀ agr i, H.GeoAligned next agr i ↔ H.GeoAligned constr agr i := by
    intro next hnext agr i
    rw [geoStep, Option.map_eq_some_iff] at hnext
    obtain ⟨masks, -, rfl⟩ := hnext
    rfl
  constructor
  · intro h
    refine ⟨h 0 pair rfl rfl, ?_⟩
    intro next hnext k p hp hreach
    rw [hsame next hnext, hsame next hnext]
    exact h (k + 1) p hp (reaches_cons.mpr ⟨next, hnext, hreach⟩)
  · rintro ⟨hfirst, hrest⟩ k p hp hreach
    cases k with
    | zero =>
      rw [List.getElem?_cons_zero, Option.some.injEq] at hp
      rw [← hp]
      exact hfirst
    | succ k =>
      obtain ⟨next, hnext, hreach'⟩ := reaches_cons.mp hreach
      rw [← hsame next hnext, ← hsame next hnext]
      exact hrest next hnext k p hp hreach'

theorem accesses_commit (constr : ReduceConstraints) (c : Checked) :
    (commit constr c).accesses = c.accesses := by
  rw [commit]
  split_ifs <;> rfl

omit [DecidableEq Art] in
/-- The geo agreement takes other children and masks except where the agreeing items that the loop
comes to are the children 0, 1, 2 and so on, each with its main word at the offset that is its
number. -/
theorem geoAgreement_byWord_iff (pairs : List (RuleAgr × ℕ)) (constr : ReduceConstraints) :
    (∀ a ∈ (H.geoWith (fun _ i => i) (fun i _ => i) pairs constr).accesses, a.ByWord) ↔
      H.GeoPairsAligned pairs constr := by
  induction pairs generalizing constr with
  | nil => exact iff_of_true (fun _ ha => absurd ha List.not_mem_nil) (fun k _ h => by simp at h)
  | cons pair rest ih =>
    obtain ⟨agr, i₁⟩ := pair
    have haccess : ∀ i write, (⟨i, agr.agreeItems.getD i 0, H.wordOffset constr
        (constr.getChildGroup (agr.agreeItems.getD i 0)).mainWordNo, i, i, write⟩ :
          MaskAccess).ByWord ↔ H.GeoAligned constr agr i := by
      intro i write
      constructor
      · rintro ⟨hlooked, hindex⟩
        change i = agr.agreeItems.getD i 0 at hlooked
        refine ⟨hlooked.symm, ?_⟩
        have : H.wordOffset constr (constr.getChildGroup (agr.agreeItems.getD i 0)).mainWordNo =
            (i : ℤ) := hindex.symm
        rwa [← hlooked] at this
      · rintro ⟨hitem, hoffset⟩
        refine ⟨hitem.symm, ?_⟩
        change (i : ℤ) =
          H.wordOffset constr (constr.getChildGroup (agr.agreeItems.getD i 0)).mainWordNo
        rw [hitem, hoffset]
    rw [geoPairsAligned_cons]
    simp only [geoWith, geoStep]
    split
    · next hmasks =>
      simp only [hmasks, List.forall_mem_cons, List.not_mem_nil, false_implies, implies_true,
        and_true, haccess, Option.map_none, reduceCtorEq]
    · next masks hmasks =>
      rw [forall_mem_after, ih]
      simp only [hmasks, List.cons_append, List.nil_append, List.forall_mem_cons,
        List.not_mem_nil, false_implies, implies_true, and_true, haccess, Option.map_some,
        Option.some.injEq, forall_eq']
      tauto

/-- The two checks address the masks by word exactly where, at every entry and pair that their loops
come to, the numbers of the children are the offsets of their words. -/
theorem homonymMasks_byWord_iff (H : Holder Art) (info : RuleInfo Art)
    (constr constr' : ReduceConstraints) :
    ((∀ a ∈ (H.reduceCheckKWSets info constr).accesses, a.ByWord) ∧
        ∀ a ∈ (H.reduceCheckGeoAgreement info constr').accesses, a.ByWord) ↔
      H.KWSetsAligned info.kwSets constr ∧ H.GeoPairsAligned (geoPairs info) constr' := by
  rw [reduceCheckGeoAgreement, accesses_commit]
  exact and_congr (kwSets_byWord_iff info.kwSets constr)
    (geoAgreement_byWord_iff (geoPairs info) constr')

end Holder

/-- A clause whose third word has an article on its second homonym; nothing agrees. -/
def thirdWordHolder : Holder Unit where
  word n := if n = 2 then { homonyms := [(0, ⟨{}, []⟩), (1, ⟨{}, [()]⟩)] } else {}
  sentenceWord _ := {}
  curStartWord := 0
  replaceFeatures a _ := a
  gleicheGrammems _ _ _ := ∅
  gleicheForms _ _ _ := (∅, ∅, ∅)
  gleicheAndRestoreForms _ _ _ := (∅, ∅, ∅)
  fioAgreement _ _ := true
  matchesRegExp _ _ := true
  isRelatedGeo _ _ := true

/-- A child of two words, the second one main, and two children of one word. -/
def twoOneOne : ReduceConstraints where
  children := [⟨0, 1, 1, {}, [3, 3], false, []⟩, ⟨2, 2, 2, {}, [3], false, []⟩,
    ⟨3, 3, 3, {}, [3], false, []⟩]
  symbolNo := 0
  firstItemIndex := 0
  mainItemIndex := 0
  chainSize := 4
  childHomonyms i := if i = 1 then 1 else 0

/-- The second child is refused because of the mask that was made for the main word of the first
one; and a geo agreement of the second and third child looks at the first two. -/
theorem homonymMasks_twoOneOne :
    let info : RuleInfo Unit := { kwSets := [(1, { kwSet := [()] })] }
    let geo : RuleInfo Unit :=
      { rulesAgrs := [{ agreeItems := [1, 2], agrProcedure := some .geoAgr }] }
    (¬∀ a ∈ (thirdWordHolder.reduceCheckKWSets info twoOneOne).accesses, a.ByWord) ∧
      (thirdWordHolder.reduceCheckKWSets info twoOneOne).ok = false ∧
      (thirdWordHolder.kwSetsByWord info twoOneOne).ok = true ∧
      (¬∀ a ∈ (thirdWordHolder.reduceCheckGeoAgreement geo twoOneOne).accesses, a.ByWord) ∧
      ∀ a ∈ (thirdWordHolder.geoAgreementByWord geo twoOneOne).accesses, a.ByWord := by
  decide

end TomitaParser.Reduction
