import TomitaParser.Rusie.HomonymMasks
/-! # The items of a reduction

The two factories make their items by the same checks, each from constraints of its own: the
factory of `CTomitaItemsHolder` counts one word more. -/

namespace TomitaParser.Reduction

namespace Holder
variable {Art : Type*} [DecidableEq Art] (H : Holder Art)

/-- `ReduceCheckWFSets`. -/
def reduceCheckWFSets (info : RuleInfo Art) (constr : ReduceConstraints) : Bool :=
  info.wfRegExps.all fun entry =>
    let g := constr.getChildGroup entry.1
    let w :=
      if g.factGroup then
        match entry.2.place with
        | .toFirstWord => H.word g.firstWord
        | .toLastWord => H.word g.lastWord
        | .toMainWord => H.mainWord g
      else H.mainWord g
    H.matchesRegExp entry.2.regexPattern w.text != entry.2.isNegative

/-- `ReduceCheckTrim`. -/
def reduceCheckTrim (info : RuleInfo Art) (constr : ReduceConstraints) : ReduceConstraints :=
  match constr.trimTree with
  | some tree =>
    if info.extraRuleInfo.trim then
      { constr with trimTree := some (tree.insert constr.symbolNo) }
    else constr
  | none => constr

/-- `ReduceCheckLeftDominantRecessive`. -/
def reduceCheckLeftDominantRecessive (info : RuleInfo Art) (constr : ReduceConstraints) :
    Bool × ReduceConstraints :=
  match constr.leftPriorityOrder with
  | none => (true, constr)
  | some order =>
    let d := info.extraRuleInfo.domReces
    if d.hasValue then
      let wp := ((constr.getChildGroup 0).firstWord,
        (constr.getChildGroup (constr.children.length - 1)).lastWord)
      let order := if d.dominant then H.insertPriority order wp else order
      let constr := { constr with leftPriorityOrder := some order }
      if d.recessive && order.any fun p => decide (p.1 ≤ wp.1 ∧ wp.1 ≤ p.2) then (false, constr)
      else (true, constr)
    else (true, constr)

/-- `ReduceCheckFirstWord`. -/
def reduceCheckFirstWord (info : RuleInfo Art) (constr : ReduceConstraints) : Bool :=
  info.firstWordConstraints.all fun entry =>
    let g := constr.getChildGroup entry.1
    let w := if g.factGroup then H.word g.firstWord else H.mainWord g
    decide (w.sourceFirstWord = 0) == entry.2

/-- `IsWSUpperCase`. -/
def isWSUpperCase (seq : ℕ × ℕ) : Bool :=
  (List.range' seq.1 (seq.2 + 1 - seq.1)).all fun i =>
    (H.sentenceWord i).atLeastTwoUpper || (H.sentenceWord i).upperLetterPointInitial ||
      decide ((H.sentenceWord i).text.length ≤ 1)

/-- `ReduceCheckNotHRegFact`: a field in lower case passes, and so does a group without facts. -/
def reduceCheckNotHRegFact (info : RuleInfo Art) (constr : ReduceConstraints) : Bool :=
  if info.extraRuleInfo.notHRegFact then
    let facts := (constr.children.filter (·.factGroup)).flatMap (·.facts)
    facts.any (fun fact => fact.any fun seq => !H.isWSUpperCase seq) || facts.isEmpty
  else true

/-- The checks of one alternative, in their order. -/
def reduceCheckAlternative (info : RuleInfo Art) (constr : ReduceConstraints) :
    Bool × ReduceConstraints :=
  let agreed := H.reduceCheckGroupAgreement info constr
  if agreed.1 then
    let constr := H.reduceCheckOutputGrammems info agreed.2
    if reduceCheckOutputGroupSize info constr then
      let kw := H.reduceCheckKWSets info constr
      if kw.ok && H.reduceCheckWFSets info kw.constr then
        let d := H.reduceCheckLeftDominantRecessive info (reduceCheckTrim info kw.constr)
        if d.1 && H.reduceCheckFirstWord info d.2 && H.reduceCheckNotHRegFact info d.2 then
          let geo := H.reduceCheckGeoAgreement info d.2
          (geo.ok, geo.constr)
        else (false, d.2)
      else (false, kw.constr)
    else (false, constr)
  else agreed

/-- `ReduceCheckConstraintSet`: the first alternative that passes; what one alternative leaves is
there for the next. -/
def reduceCheckConstraintSet : List (RuleInfo Art) → ReduceConstraints → Bool × ReduceConstraints
  | [], constr => (false, constr)
  | info :: rest, constr =>
    let r := H.reduceCheckAlternative info constr
    if r.1 then r else reduceCheckConstraintSet rest r.2

/-- The size of the group is checked for the alternative `info`: the alternatives `pre` before it
have failed, and the agreements of its own are there. -/
def SizeChecked (pre : List (RuleInfo Art)) (info : RuleInfo Art) (constr : ReduceConstraints) :
    Prop :=
  constr.mainItemIndex ≤ constr.children.length ∧
    (H.reduceCheckConstraintSet pre constr).1 = false ∧
    (H.reduceCheckGroupAgreement info (H.reduceCheckConstraintSet pre constr).2).1 = true

/-- The group of a reduction: its symbol, its grammems and its words. -/
structure NewGroup where
  symbolNo : ℕ
  grammems : HomonymGrammems
  firstWord : ℕ
  lastWord : ℕ

/-- The constraints of `CTomitaItemsHolder::CreateNewItem`. -/
def tomitaConstraints (symbolNo iFirstItemNo iLastItemNo iSynMainItemNo : ℕ)
    (children : List Group) : ReduceConstraints where
  children := children
  symbolNo := symbolNo
  firstItemIndex := iFirstItemNo
  mainItemIndex := iSynMainItemNo
  chainSize := iLastItemNo - iFirstItemNo + 1

/-- The constraints of `CCommonGrammarInterpretation::CreateNewItem`. -/
def interpretationConstraints (trimTree : List ℕ) (leftPriorityOrder : List (ℕ × ℕ))
    (symbolNo iFirstItemNo iLastItemNo iSynMainItemNo : ℕ) (children : List Group) :
    ReduceConstraints where
  children := children
  symbolNo := symbolNo
  firstItemIndex := iFirstItemNo
  mainItemIndex := iSynMainItemNo
  chainSize := iLastItemNo - iFirstItemNo
  trimTree := some trimTree
  leftPriorityOrder := some leftPriorityOrder

/-- What both factories do with their constraints; `none` is a refusal. -/
def newItem (agreements : List (RuleInfo Art)) (iLastItemNo : ℕ) (constr : ReduceConstraints)
    (badMainItem : String) : Except String (Option NewGroup) :=
  if constr.children.length < constr.mainItemIndex then .error badMainItem
  else
    let r := H.reduceCheckConstraintSet agreements constr
    .ok (if r.1 then
      some ⟨constr.symbolNo, r.2.grammems, constr.firstItemIndex + H.curStartWord,
        iLastItemNo + H.curStartWord - 1⟩
    else none)

/-- `CTomitaItemsHolder::CreateNewItem`. -/
def createNewItem (symbolNo : ℕ) (agreements : List (RuleInfo Art))
    (iFirstItemNo iLastItemNo iSynMainItemNo : ℕ) (children : List Group) :
    Except String (Option NewGroup) :=
  H.newItem agreements iLastItemNo
    (tomitaConstraints symbolNo iFirstItemNo iLastItemNo iSynMainItemNo children)
    "Bad iSynMainItemNo in \"CFDOChain::CreateNewItem\""

/-- `CCommonGrammarInterpretation::CreateNewItem` up to the facts of the children, with the set of
trimmed symbols and the priorities collected so far. -/
def createInterpretedItem (trimTree : List ℕ) (leftPriorityOrder : List (ℕ × ℕ)) (symbolNo : ℕ)
    (agreements : List (RuleInfo Art)) (iFirstItemNo iLastItemNo iSynMainItemNo : ℕ)
    (children : List Group) : Except String (Option NewGroup) :=
  H.newItem agreements iLastItemNo
    (interpretationConstraints trimTree leftPriorityOrder symbolNo iFirstItemNo iLastItemNo
      iSynMainItemNo children)
    "Bad iSynMainItemNo in \"CCommonGrammarInterpretation::CreateNewItem\""

end Holder

/-- The factory makes an item. -/
def accepts : Except String (Option Holder.NewGroup) → Bool
  | .ok (some _) => true
  | _ => false

/-- The fields in which the constraints of the two factories differ. -/
def ReduceConstraints.withPath (c : ReduceConstraints) (chainSize : ℕ)
    (trimTree : Option (List ℕ)) (leftPriorityOrder : Option (List (ℕ × ℕ))) : ReduceConstraints :=
  { c with chainSize := chainSize, trimTree := trimTree, leftPriorityOrder := leftPriorityOrder }

/-- The constraints agree up to these fields. -/
def SameChecks (c c' : ReduceConstraints) : Prop := c.withPath 0 none none = c'.withPath 0 none none

/-- The check neither reads nor writes these fields. -/
def PathFree (check : ReduceConstraints → Bool × ReduceConstraints) : Prop :=
  ∀ c n t l, check (c.withPath n t l) = ((check c).1, (check c).2.withPath n t l)

section PathFree
variable {check : ReduceConstraints → Bool × ReduceConstraints} {c c' : ReduceConstraints}

theorem PathFree.chainSize (h : PathFree check) (c : ReduceConstraints) :
    (check c).2.chainSize = c.chainSize := by
  have hself := h c c.chainSize c.trimTree c.leftPriorityOrder
  have hc : c.withPath c.chainSize c.trimTree c.leftPriorityOrder = c := rfl
  rw [hc] at hself
  exact congrArg (fun r => r.2.chainSize) hself

theorem PathFree.same (h : PathFree check) (hc : SameChecks c c') :
    (check c).1 = (check c').1 ∧ SameChecks (check c).2 (check c').2 := by
  have heq := congrArg check hc
  rw [h, h, Prod.mk.injEq] at heq
  exact heq

theorem SameChecks.children (h : SameChecks c c') : c.children = c'.children := by
  have := congrArg ReduceConstraints.children h
  exact this

end PathFree

namespace Holder
variable {Art : Type*} [DecidableEq Art] {H : Holder Art}

omit [DecidableEq Art] in
theorem pathFree_groupAgreement (info : RuleInfo Art) :
    PathFree (H.reduceCheckGroupAgreement info) := by
  intro c n t l
  simp only [reduceCheckGroupAgreement, ReduceConstraints.withPath]
  split
  · rfl
  · rfl

theorem narrow_withPath (kw : KWSet Art) (g : Group) (mask res : HomMask) (c : ReduceConstraints)
    (n : ℕ) (t : Option (List ℕ)) (l : Option (List (ℕ × ℕ))) :
    H.narrow kw g mask res (c.withPath n t l) = (H.narrow kw g mask res c).withPath n t l :=
  rfl

theorem kwSetsWith_withPath (readAt : ℕ → ℤ → ℤ) (entries : List (ℕ × KWSet Art)) :
    ∀ c n t l, H.kwSetsWith readAt entries (c.withPath n t l) =
      { H.kwSetsWith readAt entries c with
        constr := (H.kwSetsWith readAt entries c).constr.withPath n t l } := by
  induction entries with
  | nil => exact fun _ _ _ _ => rfl
  | cons entry rest ih =>
    obtain ⟨child, kw⟩ := entry
    intro c n t l
    have hchild : (c.withPath n t l).getChildGroup child = c.getChildGroup child := rfl
    have hoffset : ∀ w, H.wordOffset (c.withPath n t l) w = H.wordOffset c w := fun _ => rfl
    have hmask : ∀ i, (c.withPath n t l).maskAt i = c.maskAt i := fun _ => rfl
    simp only [kwSetsWith, hchild, hoffset, hmask, narrow_withPath, ih]
    split_ifs
    · rfl
    · split <;> rfl

theorem pathFree_kwSets (info : RuleInfo Art) :
    PathFree fun c => ((H.reduceCheckKWSets info c).ok, (H.reduceCheckKWSets info c).constr) := by
  intro c n t l
  simp only [reduceCheckKWSets, kwSetsWith_withPath]

omit [DecidableEq Art] in
theorem geoWith_withPath (look : RuleAgr → ℕ → ℕ) (maskOf : ℕ → ℤ → ℤ)
    (pairs : List (RuleAgr × ℕ)) :
    ∀ c n t l, H.geoWith look maskOf pairs (c.withPath n t l) =
      { H.geoWith look maskOf pairs c with
        constr := (H.geoWith look maskOf pairs c).constr.withPath n t l } := by
  induction pairs with
  | nil => exact fun _ _ _ _ => rfl
  | cons pair rest ih =>
    obtain ⟨agr, i₁⟩ := pair
    intro c n t l
    have hchild : ∀ i, (c.withPath n t l).getChildGroup i = c.getChildGroup i := fun _ => rfl
    have hoffset : ∀ w, H.wordOffset (c.withPath n t l) w = H.wordOffset c w := fun _ => rfl
    have hmask : ∀ i, (c.withPath n t l).maskAt i = c.maskAt i := fun _ => rfl
    have hset : ∀ (c : ReduceConstraints) i m, (c.withPath n t l).setMask i m =
      (c.setMask i m).withPath n t l := fun _ _ _ => rfl
    simp only [geoWith, hchild, hoffset, hmask, hset, ih]
    split <;> rfl

omit [DecidableEq Art] in
theorem pathFree_geoAgreement (info : RuleInfo Art) :
    PathFree fun c => ((H.reduceCheckGeoAgreement info c).ok,
      (H.reduceCheckGeoAgreement info c).constr) := by
  intro c n t l
  simp only [reduceCheckGeoAgreement, geoWith_withPath, commit]
  split_ifs <;> rfl

omit [DecidableEq Art] in
theorem pathFree_outputGrammems (info : RuleInfo Art) :
    PathFree fun c => (true, H.reduceCheckOutputGrammems info c) := fun _ _ _ _ => rfl

omit [DecidableEq Art] in
theorem reduceCheckTrim_same (info : RuleInfo Art) (c : ReduceConstraints) :
    SameChecks (reduceCheckTrim info c) c ∧ (reduceCheckTrim info c).chainSize = c.chainSize := by
  rw [reduceCheckTrim]
  split
  · split_ifs
    · exact ⟨rfl, rfl⟩
    · exact ⟨rfl, rfl⟩
  · exact ⟨rfl, rfl⟩

omit [DecidableEq Art] in
theorem leftDominantRecessive_of_not {info : RuleInfo Art}
    (h : info.extraRuleInfo.domReces.hasValue = false) (c : ReduceConstraints) :
    H.reduceCheckLeftDominantRecessive info c = (true, c) := by
  rw [reduceCheckLeftDominantRecessive]
  split
  · rfl
  · simp [h]

omit [DecidableEq Art] in
theorem reduceCheckOutputGroupSize_iff {info : RuleInfo Art} {c : ReduceConstraints} :
    reduceCheckOutputGroupSize info c = true ↔ c.chainSize ≤ info.extraRuleInfo.outCount :=
  decide_eq_true_iff

theorem reduceCheckAlternative_eq {info : RuleInfo Art}
    (h : info.extraRuleInfo.domReces.hasValue = false) (c : ReduceConstraints) :
    H.reduceCheckAlternative info c =
      let agreed := H.reduceCheckGroupAgreement info c
      let out := H.reduceCheckOutputGrammems info agreed.2
      let kw := H.reduceCheckKWSets info out
      let trim := reduceCheckTrim info kw.constr
      let geo := H.reduceCheckGeoAgreement info trim
      if agreed.1 = false then agreed
      else if reduceCheckOutputGroupSize info out = false then (false, out)
      else if (kw.ok && H.reduceCheckWFSets info kw.constr) = false then (false, kw.constr)
      else if (H.reduceCheckFirstWord info trim && H.reduceCheckNotHRegFact info trim) = false then
        (false, trim)
      else (geo.ok, geo.constr) := by
  simp only [reduceCheckAlternative, leftDominantRecessive_of_not h, Bool.true_and]
  split_ifs <;> simp_all

omit [DecidableEq Art] in
theorem checks_of_children (info : RuleInfo Art) {c c' : ReduceConstraints}
    (h : c.children = c'.children) :
    H.reduceCheckWFSets info c = H.reduceCheckWFSets info c' ∧
      H.reduceCheckFirstWord info c = H.reduceCheckFirstWord info c' ∧
        H.reduceCheckNotHRegFact info c = H.reduceCheckNotHRegFact info c' := by
  have hchild : c.getChildGroup = c'.getChildGroup := by
    funext i
    rw [ReduceConstraints.getChildGroup, ReduceConstraints.getChildGroup, h]
  refine ⟨?_, ?_, ?_⟩
  · rw [reduceCheckWFSets, reduceCheckWFSets, hchild]
  · rw [reduceCheckFirstWord, reduceCheckFirstWord, hchild]
  · rw [reduceCheckNotHRegFact, reduceCheckNotHRegFact, h]

/-- One alternative, when the size of the group passes in both cases or in neither, or is not
looked at. -/
theorem reduceCheckAlternative_same {info : RuleInfo Art}
    (hdom : info.extraRuleInfo.domReces.hasValue = false) {c c' : ReduceConstraints}
    (h : SameChecks c c') (hsize : (H.reduceCheckGroupAgreement info c).1 = true →
      (c.chainSize ≤ info.extraRuleInfo.outCount ↔
        c'.chainSize ≤ info.extraRuleInfo.outCount)) :
    (H.reduceCheckAlternative info c).1 = (H.reduceCheckAlternative info c').1 ∧
      SameChecks (H.reduceCheckAlternative info c).2 (H.reduceCheckAlternative info c').2 := by
  have hagreed := (pathFree_groupAgreement (H := H) info).same h
  by_cases hpass : (H.reduceCheckGroupAgreement info c).1 = true
  swap
  · have hfail := Bool.eq_false_iff.mpr hpass
    rw [reduceCheckAlternative_eq hdom, reduceCheckAlternative_eq hdom]
    dsimp only
    rw [if_pos hfail, if_pos (hagreed.1.symm.trans hfail)]
    exact hagreed
  replace hsize := hsize hpass
  have hout := ((pathFree_outputGrammems (H := H) info).same hagreed.2).2
  have hkw := (pathFree_kwSets (H := H) info).same hout
  dsimp only at hout hkw
  have htrim : SameChecks
      (reduceCheckTrim info (H.reduceCheckKWSets info (H.reduceCheckOutputGrammems info
        (H.reduceCheckGroupAgreement info c).2)).constr)
      (reduceCheckTrim info (H.reduceCheckKWSets info (H.reduceCheckOutputGrammems info
        (H.reduceCheckGroupAgreement info c').2)).constr) :=
    ((reduceCheckTrim_same info _).1.trans hkw.2).trans (reduceCheckTrim_same info _).1.symm
  have hgeo := (pathFree_geoAgreement (H := H) info).same htrim
  dsimp only at hgeo
  have hsize' : reduceCheckOutputGroupSize info (H.reduceCheckOutputGrammems info
        (H.reduceCheckGroupAgreement info c).2) =
      reduceCheckOutputGroupSize info (H.reduceCheckOutputGrammems info
        (H.reduceCheckGroupAgreement info c').2) := by
    have hc := (pathFree_groupAgreement (H := H) info).chainSize c
    have hc' := (pathFree_groupAgreement (H := H) info).chainSize c'
    rw [Bool.eq_iff_iff, reduceCheckOutputGroupSize_iff, reduceCheckOutputGroupSize_iff]
    show (H.reduceCheckGroupAgreement info c).2.chainSize ≤ _ ↔
      (H.reduceCheckGroupAgreement info c').2.chainSize ≤ _
    rw [hc, hc']
    exact hsize
  rw [reduceCheckAlternative_eq hdom, reduceCheckAlternative_eq hdom]
  dsimp only
  obtain ⟨hwf, _, _⟩ := checks_of_children (H := H) info hkw.2.children
  obtain ⟨_, hfirst, hfact⟩ := checks_of_children (H := H) info htrim.children
  rw [hagreed.1, hsize', hkw.1, hwf, hfirst, hfact, hgeo.1]
  split_ifs
  · exact ⟨hagreed.1, hagreed.2⟩
  · exact ⟨rfl, hout⟩
  · exact ⟨rfl, hkw.2⟩
  · exact ⟨rfl, htrim⟩
  · exact ⟨rfl, hgeo.2⟩

theorem reduceCheckAlternative_chainSize {info : RuleInfo Art}
    (hdom : info.extraRuleInfo.domReces.hasValue = false) (c : ReduceConstraints) :
    (H.reduceCheckAlternative info c).2.chainSize = c.chainSize := by
  have hagreed := (pathFree_groupAgreement (H := H) info).chainSize c
  have hkw := (pathFree_kwSets (H := H) info).chainSize
    (H.reduceCheckOutputGrammems info (H.reduceCheckGroupAgreement info c).2)
  have hout : (H.reduceCheckOutputGrammems info
      (H.reduceCheckGroupAgreement info c).2).chainSize = c.chainSize := hagreed
  rw [hout] at hkw
  have htrim := (reduceCheckTrim_same info (H.reduceCheckKWSets info
    (H.reduceCheckOutputGrammems info (H.reduceCheckGroupAgreement info c).2)).constr).2.trans hkw
  have hgeo := ((pathFree_geoAgreement (H := H) info).chainSize _).trans htrim
  rw [reduceCheckAlternative_eq hdom]
  dsimp only
  split_ifs
  · exact hagreed
  · exact hout
  · exact hkw
  · exact htrim
  · exact hgeo

theorem reduceCheckConstraintSet_same {agreements : List (RuleInfo Art)}
    (hdom : ∀ info ∈ agreements, info.extraRuleInfo.domReces.hasValue = false) :
    ∀ {c c' : ReduceConstraints}, SameChecks c c' →
      (∀ (k : ℕ) info, agreements[k]? = some info →
        (H.reduceCheckConstraintSet (agreements.take k) c).1 = false →
        (H.reduceCheckGroupAgreement info
          (H.reduceCheckConstraintSet (agreements.take k) c).2).1 = true →
        (c.chainSize ≤ info.extraRuleInfo.outCount ↔
          c'.chainSize ≤ info.extraRuleInfo.outCount)) →
      (H.reduceCheckConstraintSet agreements c).1 =
        (H.reduceCheckConstraintSet agreements c').1 := by
  induction agreements with
  | nil => exact fun _ _ => rfl
  | cons info rest ih =>
    intro c c' h hsize
    have hd := hdom info List.mem_cons_self
    obtain ⟨hok, hsame⟩ := reduceCheckAlternative_same (H := H) hd h (hsize 0 info rfl rfl)
    rw [reduceCheckConstraintSet, reduceCheckConstraintSet, hok]
    split_ifs with hpass
    · exact hok
    · apply ih (fun info hinfo => hdom info (List.mem_cons_of_mem _ hinfo)) hsame
      intro k next hnext hfailed hagreed
      rw [reduceCheckAlternative_chainSize hd, reduceCheckAlternative_chainSize hd]
      have hset : H.reduceCheckConstraintSet ((info :: rest).take (k + 1)) c =
          H.reduceCheckConstraintSet (rest.take k) (H.reduceCheckAlternative info c).2 := by
        rw [List.take_succ_cons, reduceCheckConstraintSet, if_neg (by rw [hok]; exact hpass)]
      refine hsize (k + 1) next hnext ?_ ?_
      · rw [hset]
        exact hfailed
      · rw [hset]
        exact hagreed

theorem accepts_newItem (agreements : List (RuleInfo Art)) (last : ℕ) (c : ReduceConstraints)
    (msg : String) : accepts (H.newItem agreements last c msg) =
      if c.children.length < c.mainItemIndex then false
      else (H.reduceCheckConstraintSet agreements c).1 := by
  simp only [newItem]
  split_ifs with hbad hok
  · rfl
  · exact hok.symm
  · exact (Bool.eq_false_iff.mpr hok).symm

/-- For rules without dominance the two factories accept the same reductions, and both admit the
words up to the limit of every alternative whose size they check, exactly where no size is checked
against a limit that is the number of words: there the factory of `CTomitaItemsHolder` counts one
word too many. -/
theorem createNewItem_agree_iff (H : Holder Art) (agreements : List (RuleInfo Art))
    (hdom : ∀ info ∈ agreements, info.extraRuleInfo.domReces.hasValue = false)
    (trimTree : List ℕ) (leftPriorityOrder : List (ℕ × ℕ)) (symbolNo first last main : ℕ)
    (children : List Group) :
    (accepts (H.createNewItem symbolNo agreements first last main children) =
        accepts (H.createInterpretedItem trimTree leftPriorityOrder symbolNo agreements first last
          main children) ∧
      ∀ (k : ℕ) info, agreements[k]? = some info →
        (H.SizeChecked (agreements.take k) info
            (tomitaConstraints symbolNo first last main children) →
          (reduceCheckOutputGroupSize info (tomitaConstraints symbolNo first last main children) =
            true ↔ last - first ≤ info.extraRuleInfo.outCount)) ∧
        (H.SizeChecked (agreements.take k) info (interpretationConstraints trimTree
            leftPriorityOrder symbolNo first last main children) →
          (reduceCheckOutputGroupSize info (interpretationConstraints trimTree leftPriorityOrder
            symbolNo first last main children) = true ↔
              last - first ≤ info.extraRuleInfo.outCount))) ↔
      ∀ (k : ℕ) info, agreements[k]? = some info →
        H.SizeChecked (agreements.take k) info
            (tomitaConstraints symbolNo first last main children) →
          info.extraRuleInfo.outCount ≠ last - first := by
  simp only [reduceCheckOutputGroupSize_iff]
  constructor
  · rintro ⟨-, hlimit⟩ k info hinfo hchecked heq
    have hcount : last - first + 1 ≤ info.extraRuleInfo.outCount ↔
        last - first ≤ info.extraRuleInfo.outCount := (hlimit k info hinfo).1 hchecked
    omega
  · intro h
    have hlimit : ∀ (k : ℕ) info, agreements[k]? = some info →
        H.SizeChecked (agreements.take k) info
            (tomitaConstraints symbolNo first last main children) →
          (last - first + 1 ≤ info.extraRuleInfo.outCount ↔
            last - first ≤ info.extraRuleInfo.outCount) := by
      intro k info hinfo hchecked
      have := h k info hinfo hchecked
      omega
    refine ⟨?_, fun k info hinfo => ⟨hlimit k info hinfo, fun _ => Iff.rfl⟩⟩
    have hsame : SameChecks (tomitaConstraints symbolNo first last main children)
      (interpretationConstraints trimTree leftPriorityOrder symbolNo first last main children) :=
      rfl
    rw [createNewItem, createInterpretedItem, accepts_newItem, accepts_newItem]
    by_cases hbad : children.length < main
    · exact (if_pos hbad).trans (if_pos hbad).symm
    · refine (if_neg hbad).trans (Eq.trans ?_ (if_neg hbad).symm)
      apply reduceCheckConstraintSet_same hdom hsame
      intro k info hinfo hfailed hagreed
      exact hlimit k info hinfo ⟨not_lt.mp hbad, hfailed, hagreed⟩

/-- A rule with `{count=3}` for two words. -/
theorem createNewItem_agree_twoWords :
    let agreements : List (RuleInfo Unit) := [{ extraRuleInfo := { outCount := 3 } }]
    accepts (thirdWordHolder.createNewItem 0 agreements 0 2 0 [⟨0, 0, 0, {}, [1], false, []⟩,
        ⟨1, 1, 1, {}, [1], false, []⟩]) =
      accepts (thirdWordHolder.createInterpretedItem [] [] 0 agreements 0 2 0
        [⟨0, 0, 0, {}, [1], false, []⟩, ⟨1, 1, 1, {}, [1], false, []⟩]) :=
  ((createNewItem_agree_iff thirdWordHolder _ (by decide) [] [] 0 0 2 0 _).mpr
    fun _ info hinfo _ => by
      rw [List.mem_singleton.mp (List.mem_of_getElem? hinfo)]
      decide).1

/-- A rule with `{count=2}` for two words: the factory of `CTomitaItemsHolder` refuses them. -/
theorem createNewItem_differ :
    let agreements : List (RuleInfo Unit) := [{ extraRuleInfo := { outCount := 2 } }]
    let children : List Group := [⟨0, 0, 0, {}, [1], false, []⟩, ⟨1, 1, 1, {}, [1], false, []⟩]
    accepts (thirdWordHolder.createNewItem 0 agreements 0 2 0 children) = false ∧
      accepts (thirdWordHolder.createInterpretedItem [] [] 0 agreements 0 2 0 children) =
        true := by
  decide

end Holder

end TomitaParser.Reduction
