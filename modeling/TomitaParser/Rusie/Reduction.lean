import Mathlib.Data.Finset.Lattice.Fold
import TomitaParser.Grammar.OutCount
import TomitaParser.Toma.Agreements
/-! # The constraints of a reduction

A rule is reduced when one of its alternatives of constraints lets the children pass. What the
dictionaries, the agreement of grammems and the geo hierarchy decide comes from `Holder`. -/

namespace TomitaParser.Reduction

/-- `TGramBitSet`. -/
abbrev GramBits := Finset ℕ

/-- `THomonymGrammems`: the forms, and the union of them. -/
structure HomonymGrammems where
  forms : Finset GramBits := ∅
  all : GramBits := ∅
deriving DecidableEq, Inhabited

namespace HomonymGrammems

def resetForms (forms : Finset GramBits) : HomonymGrammems := ⟨forms, forms.sup id⟩

def merge (a b : HomonymGrammems) : HomonymGrammems := ⟨a.forms ∪ b.forms, a.all ∪ b.all⟩

def empty (g : HomonymGrammems) : Bool := decide (g.all = ∅ ∧ g.forms = ∅)

def hasForms (g : HomonymGrammems) : Bool := decide (g.forms ≠ ∅)

def hasAll (g : HomonymGrammems) (bits : GramBits) : Bool := decide (bits ⊆ g.all)

def hasAny (g : HomonymGrammems) (bits : GramBits) : Bool := decide (g.all ∩ bits ≠ ∅)

def hasFormWith (g : HomonymGrammems) (bits : GramBits) : Bool :=
  if g.hasForms then decide (∃ form ∈ g.forms, bits ⊆ form) else g.hasAll bits

end HomonymGrammems

/-- `ui32`, with one bit for each homonym of a word. -/
abbrev HomMask := BitVec 32

def homBit (id : ℕ) : HomMask := 1#32 <<< id

/-- `HasOnlyOneHomId`; the loop looks at as many bits as the type has bytes. -/
def hasOnlyOneHomId (homIDs : HomMask) : Bool :=
  if homIDs = 0 then false
  else homBit (((List.range 4).find? fun i => homBit i &&& homIDs != 0).getD 4) == homIDs

/-- `CHomonym`, with the articles that `HasArticle` finds for it. -/
structure Homonym (Art : Type*) where
  grammems : HomonymGrammems
  articles : List Art

/-- `CWord`: its homonyms with their numbers, and what the checks ask of it. -/
structure Word (Art : Type*) where
  homonyms : List (ℕ × Homonym Art) := []
  text : String := ""
  unknownPos : Bool := false
  morphNoun : Bool := false
  openQuote : Bool := false
  closeQuote : Bool := false
  sourceFirstWord : ℕ := 0
  atLeastTwoUpper : Bool := false
  upperLetterPointInitial : Bool := false

namespace Word
variable {Art : Type*} [DecidableEq Art]

/-- `HasArticle_i`; `none` is `-1`. -/
def hasArticle_i (w : Word Art) (art : Art) : Option ℕ :=
  (w.homonyms.find? fun h => decide (art ∈ h.2.articles)).map Prod.fst

/-- `GetHomIDsByKWType`. -/
def getHomIDsByKWType (w : Word Art) (homIDs : HomMask) (art : Art) : HomMask :=
  w.homonyms.foldl (fun ids h => if art ∈ h.2.articles then ids ||| homBit h.1 else ids) homIDs

/-- `THomMaskIterator`: the first homonym is not tested against the mask. -/
def maskedHomonyms {Art : Type*} (w : Word Art) (mask : HomMask) : List (ℕ × Homonym Art) :=
  let mask := if mask = 0 then ~~~0 else mask
  match w.homonyms.filter fun h => decide (h.1 < 32) with
  | [] => []
  | h :: rest => h :: rest.filter fun h => homBit h.1 &&& mask != 0

end Word

/-- `CGroup`: the words it covers and its main word, by their numbers among the words of the
clause. -/
structure Group where
  firstWord : ℕ
  lastWord : ℕ
  mainWordNo : ℕ
  grammems : HomonymGrammems := {}
  childHomonyms : List HomMask := []
  factGroup : Bool := false
  facts : List (List (ℕ × ℕ)) := []
deriving Inhabited

/-- `GetChildGroup`. -/
def childGroup (children : List Group) (i : ℕ) : Group := children.getD i default

def Group.mainHomIDs (g : Group) : HomMask := g.childHomonyms.getD (g.mainWordNo - g.firstWord) 0

/-- `SAgr` of a reduction; `none` is `CoordFuncCount`. -/
structure RuleAgr where
  agreeItems : List ℕ
  grammems : GramBits := ∅
  negativeGrammems : GramBits := ∅
  agrProcedure : Option CoordFunc := none
  negativeAgreement : Bool := false

/-- `SKWSet`. -/
structure KWSet (Art : Type*) where
  negative : Bool := false
  applyToTheFirstWord : Bool := false
  kwSet : List Art

/-- One entry of the three vectors of `SGrammemUnion`. -/
structure UnionEntry where
  gramUnion : GramBits
  negGramUnion : GramBits
  checkFormGrammem : Bool

inductive ApplyPlace where
  | toFirstWord | toLastWord | toMainWord
deriving DecidableEq

/-- `CWordFormRegExp`. -/
structure WordFormRegExp where
  regexPattern : String
  place : ApplyPlace := .toMainWord
  isNegative : Bool := false

/-- `SDominantRecessive`. -/
structure DominantRecessive where
  dominant : Bool := false
  recessive : Bool := false

def DominantRecessive.hasValue (d : DominantRecessive) : Bool := d.recessive || d.dominant

/-- `SExtraRuleInfo`. -/
structure ExtraRuleInfo where
  outGrammems : GramBits := ∅
  outCount : ℕ := maxOutCount
  trim : Bool := false
  notHRegFact : Bool := false
  domReces : DominantRecessive := {}

/-- `SRuleExternalInformationAndAgreements`: one alternative. Maps are given in their order. -/
structure RuleInfo (Art : Type*) where
  rulesAgrs : List RuleAgr := []
  kwSets : List (ℕ × KWSet Art) := []
  wfRegExps : List (ℕ × WordFormRegExp) := []
  ruleGrammemUnion : List (ℕ × List UnionEntry) := []
  firstWordConstraints : List (ℕ × Bool) := []
  extraRuleInfo : ExtraRuleInfo := {}

/-- What `CTomitaItemsHolder` has at hand: the words of the clause and of the sentence, and the
parts of the analyzer that the checks call. -/
structure Holder (Art : Type*) where
  word : ℕ → Word Art
  sentenceWord : ℕ → Word Art
  curStartWord : ℕ
  replaceFeatures : GramBits → GramBits → GramBits
  gleicheGrammems : GramBits → GramBits → Option CoordFunc → GramBits
  gleicheForms : Finset GramBits → Finset GramBits → Option CoordFunc →
    GramBits × Finset GramBits × Finset GramBits
  gleicheAndRestoreForms : Finset GramBits → GramBits → Option CoordFunc →
    GramBits × Finset GramBits × Finset GramBits
  fioAgreement : Group → Group → Bool
  matchesRegExp : String → String → Bool
  isRelatedGeo : Homonym Art → Homonym Art → Bool
  -- `insert` of the priorities; their order is none for crossing pairs, which the set may drop
  insertPriority : List (ℕ × ℕ) → ℕ × ℕ → List (ℕ × ℕ) := fun order wp => order.insert wp

/-- `SReduceConstraints`. The masks of `ChildHomonyms` are given by the offset of the word in the
group; the two pointers are `none` when they are not set. -/
structure ReduceConstraints where
  children : List Group
  symbolNo : ℕ
  firstItemIndex : ℕ
  mainItemIndex : ℕ
  chainSize : ℕ
  grammems : HomonymGrammems := {}
  childHomonyms : ℕ → HomMask := fun _ => 0
  trimTree : Option (List ℕ) := none
  leftPriorityOrder : Option (List (ℕ × ℕ)) := none

def ReduceConstraints.getChildGroup (constr : ReduceConstraints) (i : ℕ) : Group :=
  childGroup constr.children i

namespace Holder
variable {Art : Type*} [DecidableEq Art] (H : Holder Art)

/-- The offset of a word in the group that is reduced. -/
def wordOffset (constr : ReduceConstraints) (wordNo : ℕ) : ℤ :=
  (wordNo : ℤ) - (constr.firstItemIndex + H.curStartWord : ℕ)

def mainWord (g : Group) : Word Art := H.word g.mainWordNo

def assignOutputGrammems (res : HomonymGrammems) (out : GramBits) : HomonymGrammems :=
  if out ≠ ∅ then ⟨∅, H.replaceFeatures res.all out⟩ else res

/-- `CheckItemGrammems`: `none` is `false`. -/
def checkItemGrammems (toCheck : GramBits) (allow : Bool) (res : HomonymGrammems) :
    Option HomonymGrammems :=
  if res.hasForms then
    if ∃ form ∈ res.forms, decide (toCheck ⊆ form) ≠ allow then
      if allow = false then none
      else
        let tmp := res.forms.filter fun form => decide (toCheck ⊆ form) = allow
        if tmp ≠ ∅ then some (.resetForms tmp) else none
    else some res
  else if res.all ≠ ∅ ∧ res.hasAll toCheck = allow then
    let res := if allow then H.assignOutputGrammems res toCheck else res
    if res.empty then none else some res
  else if allow then none else some res

/-- `CheckItemPositiveNegativeGrammems`. -/
def checkItemPositiveNegativeGrammems (posit neg : GramBits) (res : HomonymGrammems) :
    Option HomonymGrammems :=
  (if neg ≠ ∅ then H.checkItemGrammems neg false res else some res).bind fun res =>
    if posit ≠ ∅ then H.checkItemGrammems posit true res else some res

/-- `CheckItemPositiveNegativeUnitedGrammems`. -/
def checkItemPositiveNegativeUnitedGrammems (posit neg : GramBits) (g : Group) : Bool :=
  if neg ≠ ∅ ∧ g.grammems.hasAll neg then false else g.grammems.hasAll posit

/-- `ReduceCheckQuotedPositions`. -/
def reduceCheckQuotedPositions (children : List Group) (agr : RuleAgr) : Bool :=
  if children.isEmpty then true
  else
    let first := H.word (childGroup children (agr.agreeItems.headD 0)).firstWord
    let last := H.word (childGroup children (agr.agreeItems.getLastD 0)).lastWord
    match agr.agrProcedure with
    | some .checkQuoted => (first.openQuote && last.closeQuote) != agr.negativeAgreement
    | some .checkLQuoted => first.openQuote != agr.negativeAgreement
    | some .checkRQuoted => last.closeQuote != agr.negativeAgreement
    | _ => true

/-- The grammems that are compared: for a negative agreement also those of the other homonyms. -/
def ancode (agr : RuleAgr) (w : Word Art) (interp : HomonymGrammems) : HomonymGrammems :=
  if agr.negativeAgreement then w.homonyms.foldl (fun g h => g.merge h.2.grammems) interp
  else interp

/-- The binary agreement of two children. -/
def agree (children : List Group) (agr : RuleAgr) (interps : List HomonymGrammems)
    (i₁ i₂ : ℕ) : Option (List HomonymGrammems) :=
  let w₁ := H.mainWord (childGroup children i₁)
  let w₂ := H.mainWord (childGroup children i₂)
  let interp₁ := interps.getD i₁ {}
  let interp₂ := interps.getD i₂ {}
  if (w₁.unknownPos && interp₁.empty) || (w₂.unknownPos && interp₂.empty) then some interps
  else
    let ancode₁ := ancode agr w₁ interp₁
    let ancode₂ := ancode agr w₂ interp₂
    if !ancode₁.hasForms && !ancode₂.hasForms then
      let gUnion := H.gleicheGrammems interp₁.all interp₂.all agr.agrProcedure
      if decide (gUnion ≠ ∅) = agr.negativeAgreement then none
      else if gUnion ≠ ∅ then
        some ((interps.set i₁ (H.assignOutputGrammems interp₁ gUnion)).set i₂
          (H.assignOutputGrammems interp₂ gUnion))
      else some interps
    else
      let r :=
        if !ancode₁.hasForms then
          let r := H.gleicheAndRestoreForms ancode₂.forms interp₁.all agr.agrProcedure
          (r.1, r.2.2, r.2.1)
        else if !ancode₂.hasForms then
          H.gleicheAndRestoreForms ancode₁.forms interp₂.all agr.agrProcedure
        else H.gleicheForms ancode₁.forms ancode₂.forms agr.agrProcedure
      if decide (r.1 ≠ ∅) = agr.negativeAgreement then none
      else if r.1 ≠ ∅ then
        some ((interps.set i₁ (.resetForms r.2.1)).set i₂ (.resetForms r.2.2))
      else some interps

/-- One agreement of the rule; `none` is a refusal. -/
def checkAgreement (children : List Group) (interps : List HomonymGrammems)
    (agr : RuleAgr) : Option (List HomonymGrammems) :=
  if agr.agrProcedure = some .geoAgr then some interps
  else
    match agr.agreeItems with
    | [] => none
    | [i] =>
      if agr.agrProcedure ≠ none then
        if H.reduceCheckQuotedPositions children agr then some interps else none
      else
        (H.checkItemPositiveNegativeGrammems agr.grammems agr.negativeGrammems
          (interps.getD i {})).map (interps.set i)
    | i₁ :: i₂ :: _ =>
      if agr.agrProcedure = some .fioAgr then
        if H.fioAgreement (childGroup children i₁) (childGroup children i₂) then some interps
        else none
      else if (agr.agrProcedure = some .subjVerb ∨ agr.agrProcedure = some .gendreNumberCase) ∧
          (H.mainWord (childGroup children i₂)).morphNoun then
        H.agree children agr interps i₂ i₁
      else H.agree children agr interps i₁ i₂

/-- One entry of `ReduceCheckGrammemUnion`. -/
def checkGrammemUnion (children : List Group) (interps : List HomonymGrammems)
    (entry : ℕ × List UnionEntry) : Option (List HomonymGrammems) :=
  if entry.2.isEmpty then some interps
  else
    let p := interps.getD entry.1 {}
    let res := entry.2.foldl (fun res u =>
      if u.checkFormGrammem then
        match H.checkItemPositiveNegativeGrammems u.gramUnion u.negGramUnion p with
        | some grammems => res.merge grammems
        | none => res
      else if checkItemPositiveNegativeUnitedGrammems u.gramUnion u.negGramUnion
          (childGroup children entry.1) then res.merge p
      else res) ({} : HomonymGrammems)
    if res.empty then none else some (interps.set entry.1 res)

/-- `GetNewHomIDsByGrammems`. -/
def getNewHomIDsByGrammems {Art : Type*} (interp : HomonymGrammems) (w : Word Art)
    (oldHomIDs : HomMask) : HomMask :=
  w.homonyms.foldl (fun ids h =>
    if homBit h.1 &&& oldHomIDs = 0 then ids
    else
      let good :=
        if interp.hasForms then decide (∃ form ∈ interp.forms, h.2.grammems.hasFormWith form = true)
        else if interp.all ≠ ∅ then h.2.grammems.hasAny interp.all
        else true
      if good then ids ||| homBit h.1 else ids) 0

/-- `AdjustChildHomonyms` for one child. -/
def adjustChild (constr : ReduceConstraints) (interps : List HomonymGrammems)
    (masks : ℕ → HomMask) (i : ℕ) : ℕ → HomMask :=
  let interp := interps.getD i {}
  let g := constr.getChildGroup i
  if interp.empty ∨ interp = g.grammems ∨ hasOnlyOneHomId g.mainHomIDs then masks
  else Function.update masks (H.wordOffset constr g.mainWordNo).toNat
    (getNewHomIDsByGrammems interp (H.mainWord g) g.mainHomIDs &&& g.mainHomIDs)

def adjustChildHomonyms (interps : List HomonymGrammems) (constr : ReduceConstraints) :
    ReduceConstraints :=
  { constr with
    childHomonyms := (List.range constr.children.length).foldl (H.adjustChild constr interps)
      constr.childHomonyms }

/-- The grammems of the children after all agreements of the rule; `none` is a refusal. -/
def agreedGrammems (info : RuleInfo Art) (children : List Group) : Option (List HomonymGrammems) :=
  (info.rulesAgrs.foldlM (H.checkAgreement children) (children.map Group.grammems)).bind
    fun interps => info.ruleGrammemUnion.foldlM (H.checkGrammemUnion children) interps

/-- `ReduceCheckGroupAgreement`. -/
def reduceCheckGroupAgreement (info : RuleInfo Art) (constr : ReduceConstraints) :
    Bool × ReduceConstraints :=
  let constr := { constr with grammems := {} }
  match H.agreedGrammems info constr.children with
  | none => (false, constr)
  | some interps =>
    (true, H.adjustChildHomonyms interps
      { constr with grammems := interps.getD constr.mainItemIndex {} })

/-- `ReduceCheckOutputGrammems`. -/
def reduceCheckOutputGrammems (info : RuleInfo Art) (constr : ReduceConstraints) :
    ReduceConstraints :=
  { constr with
    grammems := H.assignOutputGrammems constr.grammems info.extraRuleInfo.outGrammems }

/-- `ReduceCheckOutputGroupSize`. -/
def reduceCheckOutputGroupSize {Art : Type*} (info : RuleInfo Art) (constr : ReduceConstraints) :
    Bool :=
  decide (constr.chainSize ≤ info.extraRuleInfo.outCount)

end Holder

end TomitaParser.Reduction
