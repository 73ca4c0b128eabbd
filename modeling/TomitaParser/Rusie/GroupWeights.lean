import TomitaParser.Lib.Binary64
import TomitaParser.Lib.Loop
import TomitaParser.Rusie.NewItems
/-! # Weights of groups

A reduction joins the groups of its children into a new group, which remembers the agreements
checked below it, counts its kwtypes and multiplies the weights given by rules and articles. -/

namespace TomitaParser.Reduction
open LoopRun Binary64

/-- A result kept in a `ui64`. -/
def u64 (n : ℕ) : ℕ := n % 2 ^ 64

theorem u64_of_lt {n : ℕ} (h : n < 2 ^ 64) : u64 n = n := Nat.mod_eq_of_lt h

/-- `CInputItem::TWeight`: a weight times `Precision`. -/
structure TWeight where
  value : ℕ
deriving DecidableEq, Repr, Inhabited

namespace TWeight

/-- `TWeight::Precision`. -/
def precision : ℕ := 100000000

/-- `TWeight()`. -/
def one : TWeight := ⟨precision⟩

/-- `TWeight(double w)`. -/
def ofDouble (w : ℚ) : TWeight := ⟨u64 ⌊toDouble (w * precision)⌋₊⟩

/-- `TWeight(w1, w2, w3)`. -/
def mean (w₁ w₂ w₃ : TWeight) : TWeight := ⟨u64 (w₁.value + w₂.value + w₃.value) / 3⟩

/-- `TWeight(numerator, denominator)`. -/
def ratio (numerator denominator : ℕ) : TWeight := ⟨u64 (numerator * precision) / denominator⟩

/-- `TWeight::operator *=`. -/
def mul (w₁ w₂ : TWeight) : TWeight := ⟨u64 (w₁.value * w₂.value) / precision⟩

end TWeight

/-- `SAgr::IsUnary`. -/
def RuleAgr.isUnary (agr : RuleAgr) : Bool :=
  agr.agreeItems.length == 1 && decide (agr.grammems ≠ ∅)

/-- `SRuleExternalInformationAndAgreements` with its weights: an agreement of one item that names
grammems carries no procedure. -/
structure WeightedRule (Art : Type) extends RuleInfo Art where
  outWeight : ℚ
  gztWeight : List (ℕ × Art × String)
  unary_procedure : ∀ agr ∈ rulesAgrs, agr.isUnary = true → agr.agrProcedure = none

section Compiler
variable (bits : List String → GramBits)

/-- The agreements that `ConvertReduceAgrInfo` adds: their grammems stay empty. -/
def convertedAgr (agr : SAgr) : RuleAgr where
  agreeItems := agr.agreeItems
  agrProcedure := some agr.agrProcedure
  negativeAgreement := agr.negativeAgreement

/-- `SAgr(int, const TGramBitSet&, bool)`. -/
def grammemsAgr (itemNum : ℕ) (gram : GramProto) : RuleAgr where
  agreeItems := [itemNum]
  grammems := if gram.negative then ∅ else bits gram.grammems
  negativeGrammems := if gram.negative then bits gram.grammems else ∅
  negativeAgreement := gram.negative

/-- `m_RulesAgrs` as `ConvertRuleReduceInfo` fills it. -/
def rulesAgrs (rule : RuleProto) : List RuleAgr :=
  (convertReduceAgrInfo rule).map convertedAgr ++
    rule.items.zipIdx.flatMap fun item =>
      if item.1.term.type = .nonTerminal then
        item.1.term.termPostfix.gram.map (grammemsAgr bits item.2)
      else []

theorem unary_rulesAgrs {rule : RuleProto} {agr : RuleAgr} (h : agr ∈ rulesAgrs bits rule)
    (hu : agr.isUnary = true) : agr.agrProcedure = none := by
  unfold rulesAgrs at h
  simp only [List.mem_append, List.mem_map, List.mem_flatMap] at h
  rcases h with ⟨sagr, -, rfl⟩ | ⟨item, -, h⟩
  · simp [RuleAgr.isUnary, convertedAgr] at hu
  · split_ifs at h
    · obtain ⟨gram, -, rfl⟩ := List.mem_map.mp h
      rfl
    · cases h

/-- The weights of a compiled rule beside its other constraints. -/
def WeightedRule.compiled {Art : Type} (rule : RuleProto) (info : RuleInfo Art)
    (article : String → Art) : WeightedRule Art where
  toRuleInfo := { info with rulesAgrs := rulesAgrs bits rule }
  outWeight := rule.info.weight
  gztWeight := rule.items.zipIdx.filterMap fun item =>
    item.1.term.termPostfix.gztWeight.map fun field => (item.2, article field.article, field.field)
  unary_procedure := by
    intro agr h hu
    exact unary_rulesAgrs bits h hu

end Compiler

/-- `CCheckedAgreement`. -/
structure CheckedAgreement where
  agreementType : RuleAgr
  wordNo₁ : ℕ
  wordNo₂ : ℕ

/-- `CWeightSynGroup`: a group and what its weights are made of. -/
structure WeightSynGroup extends Group where
  activeSymbol : ℕ
  checkedAgrs : List CheckedAgreement
  kwtypesCount : ℤ
  userWeight : TWeight

/-- `CInputItem`: a `CPrimitiveGroup` or a group built by a reduction. -/
inductive InputItem where
  | primitive (activeSymbol : ℕ) (group : Group)
  | weight (g : WeightSynGroup)

namespace InputItem

def group : InputItem → Group
  | primitive _ group => group
  | weight g => g.toGroup

def activeSymbol : InputItem → ℕ
  | primitive symbol _ => symbol
  | weight g => g.activeSymbol

/-- `m_CheckedAgrs`, which a primitive group lacks. -/
def checkedAgrs : InputItem → List CheckedAgreement
  | primitive _ _ => []
  | weight g => g.checkedAgrs

/-- What `AddAgreementsFrom` takes over: the agreements of a `CFactSynGroup`. -/
def agreementsFrom (child : InputItem) : List CheckedAgreement :=
  if child.group.factGroup then child.checkedAgrs else []

/-- `m_KwtypesCount`, which a primitive group lacks. -/
def kwtypesCount : InputItem → Option ℤ
  | primitive _ _ => none
  | weight g => some g.kwtypesCount

/-- `GetUserWeight`. -/
def userWeight : InputItem → TWeight
  | primitive _ _ => TWeight.one
  | weight g => g.userWeight

/-- The item with other masks of homonyms. -/
def withHomonyms (masks : List HomMask) : InputItem → InputItem
  | primitive symbol group => primitive symbol { group with childHomonyms := masks }
  | weight g => weight { g with childHomonyms := masks }

end InputItem

/-- `CWordsPair::Size`. -/
def Group.size (g : Group) : ℕ := g.lastWord + 1 - g.firstWord

/-- `GetAgreementWeight`. -/
def getAgreementWeight (A : CheckedAgreement) : ℕ :=
  match A.agreementType.agrProcedure with
  | some .gendreNumberCase => 3
  | some .gendreNumber => 2
  | some .gendreCase => 2
  | some .numberCaseAgr => 2
  | some .caseAgr => 1
  | some .feminCaseAgr => 1
  | _ => 0

/-- `GetRelevantAgrWeight`. -/
def getRelevantAgrWeight (checkedAgrs : List CheckedAgreement) : ℕ :=
  checkedAgrs.foldl (fun ret A => ret + getAgreementWeight A) 0

/-- The agreements of two items among the saved ones. -/
def binaryCount (checkedAgrs : List CheckedAgreement) : ℕ :=
  checkedAgrs.countP fun A => A.agreementType.agreeItems.length == 2

namespace WeightSynGroup
variable (g : WeightSynGroup)

/-- The numerator and the denominator of `GetWeightByAgreement` for two words or more. -/
def agreementRatio : ℕ × ℕ :=
  let weight := getRelevantAgrWeight g.checkedAgrs
  let norm := u64 (3 * g.size * (g.size - 1)) / 2
  if weight = 0 then (9, u64 (10 * norm)) else (weight, norm)

/-- `GetWeightByAgreement`. -/
def getWeightByAgreement : TWeight :=
  if g.size = 1 then TWeight.one else TWeight.ratio g.agreementRatio.1 g.agreementRatio.2

/-- `GetWeightByKwTypes`. -/
def getWeightByKwTypes : TWeight := TWeight.ratio g.kwtypesCount.toNat g.size

/-- `GetWeight`. -/
def getWeight : TWeight :=
  TWeight.mean g.getWeightByAgreement g.getWeightByKwTypes g.userWeight

/-- The products that the ratios of a group form. -/
def ratioProducts : List ℕ :=
  [g.agreementRatio.1 * TWeight.precision, g.kwtypesCount.toNat * TWeight.precision]

end WeightSynGroup

/-- What the loop of `SaveCheckedAgreements` works on. -/
structure SaveState where
  checkedAgrs : List CheckedAgreement
  dependOnRoot : List Bool
  newAgreemsFound : Bool

section Save
variable (agreements : List RuleAgr) (children : List InputItem)

/-- The main word of a child, where there is one. -/
def childWord (i : ℕ) : Option ℕ := children[i]?.map fun child => child.group.mainWordNo

/-- One agreement of the rule; `none` is the exception for an item out of range. -/
def saveAgreement (s : SaveState) (agr : RuleAgr) : Option SaveState :=
  if agr.isUnary then do
    let word ← childWord children (agr.agreeItems.headD 0)
    some { s with checkedAgrs := s.checkedAgrs ++ [⟨agr, word, word⟩] }
  else
    match agr.agreeItems with
    | [i₁, i₂] => do
      let word₁ ← childWord children i₁
      let word₂ ← childWord children i₂
      let depend₁ ← s.dependOnRoot[i₁]?
      let depend₂ ← s.dependOnRoot[i₂]?
      if depend₁ = depend₂ then some s
      else if agr.negativeAgreement then some s
      else some {
        checkedAgrs := s.checkedAgrs ++ [⟨agr, word₁, word₂⟩]
        dependOnRoot := s.dependOnRoot.set (if depend₁ then i₂ else i₁) true
        newAgreemsFound := true }
    | _ => some s

/-- One round of `while (bNewAgreemsFound)`: leave when it found nothing, or by the exception. -/
def saveRound (s : SaveState) : LoopStep SaveState Bool :=
  match agreements.foldlM (saveAgreement children) { s with newAgreemsFound := false } with
  | none => .exit false s
  | some s' => if s'.newAgreemsFound then .next s' else .exit true s'

/-- `MaxChildrenCount`. -/
def maxChildrenCount : ℕ := 250

/-- The state before the first round: only the main child depends on the root. -/
def saveStart (synMainItemNo : ℕ) : SaveState where
  checkedAgrs := children.flatMap InputItem.agreementsFrom
  dependOnRoot := (List.replicate children.length false).set synMainItemNo true
  newAgreemsFound := true

/-- `SaveCheckedAgreements` on a new group; `none` is a failed assertion or an exception. -/
def saveCheckedAgreements (synMainItemNo : ℕ) : Option (List CheckedAgreement) :=
  if children.length < maxChildrenCount ∧ synMainItemNo < children.length then
    let result := runLoop (saveRound agreements children) false (children.length + 1)
      (saveStart children synMainItemNo)
    if result.1 then some result.2.checkedAgrs else none
  else none

end Save

/-- `CTomitaItemsHolder` with the symbols that name a kwtype, the numbers in the fields of articles
and the facts of a new group, for a clause whose words an `int` counts thrice. -/
structure WeightHolder (Art : Type) extends Holder Art where
  hasKwType : ℕ → Bool
  numericField : Homonym Art → Art → String → Option ℚ
  mergeFacts : List InputItem → Option (List (List (ℕ × ℕ)))
  words : ℕ
  words_int : 3 * words < 2 ^ 31

/-- The class that makes the items. -/
inductive Factory where
  | commonGrammarInterpretation | dateChain
deriving DecidableEq

section Reduce
variable {Art : Type} [DecidableEq Art] (H : WeightHolder Art)

/-- The alternative that lets `ReduceCheckConstraintSet` pass, `constr.Get()`. -/
def checkedAlternative :
    List (WeightedRule Art) → ReduceConstraints → Option (WeightedRule Art × ReduceConstraints)
  | [], _ => none
  | info :: rest, constr =>
    let r := H.reduceCheckAlternative info.toRuleInfo constr
    if r.1 then some (info, r.2) else checkedAlternative rest r.2

variable (info : WeightedRule Art) (children : List InputItem)

/-- `IncrementKwtypesCount`. -/
def incrementKwtypesCount (size : ℕ) (kwtypesCount delta : ℤ) : ℤ :=
  if (size : ℤ) < kwtypesCount + delta then size else kwtypesCount + delta

/-- The increments of `InitKwtypesCount`, in its order. -/
def kwtypesIncrements (size : ℕ) : List ℤ :=
  let named : List ℤ :=
    if size = 1 ∧ children.head?.any (H.hasKwType ·.activeSymbol) then [1] else []
  let sets : List ℤ :=
    (info.kwSets.filter fun entry => !entry.2.negative && !entry.2.applyToTheFirstWord).map
      fun _ => 1
  children.filterMap InputItem.kwtypesCount ++ named ++ sets

/-- `InitKwtypesCount`. -/
def initKwtypesCount (size : ℕ) : ℤ :=
  (kwtypesIncrements H info children size).foldl (incrementKwtypesCount size) 0

/-- `GetGztWeight`. -/
def getGztWeight (child : Group) (childIndex : ℕ) : Option ℚ := do
  let entry ← info.gztWeight.find? fun entry => entry.1 == childIndex
  ((H.mainWord child).maskedHomonyms child.mainHomIDs).findSome? fun homonym =>
    H.numericField homonym.2 entry.2.1 entry.2.2

/-- The weights that `InitUserWeight` multiplies, in its order. -/
def userFactors : List TWeight :=
  TWeight.ofDouble info.outWeight ::
    children.zipIdx.flatMap fun child =>
      child.1.userWeight ::
        ((getGztWeight H info child.1.group child.2).map TWeight.ofDouble).toList

/-- `InitUserWeight`. -/
def initUserWeight : TWeight := (userFactors H info children).foldl TWeight.mul TWeight.one

/-- The products that `InitUserWeight` forms on the way. -/
def userProducts : TWeight → List TWeight → List ℕ
  | _, [] => []
  | w, factor :: factors => w.value * factor.value :: userProducts (w.mul factor) factors

/-- A mask narrowed by another one, where something is left. -/
def intersectMask (mask other : HomMask) : HomMask :=
  if mask &&& other ≠ 0 then mask &&& other else mask

/-- The masks of the new group: `AppendChildHomonymsFrom` and, in the interpretation of the common
grammar, `IntersectChildHomonyms`. -/
def newChildHomonyms (factory : Factory) (constr : ReduceConstraints) : List HomMask :=
  let masks := children.flatMap fun child => child.group.childHomonyms
  match factory with
  | .commonGrammarInterpretation =>
    masks.mapIdx fun offset mask => intersectMask mask (constr.childHomonyms offset)
  | .dateChain => masks

/-- `AdjustChildHomonyms` hands the masks of the new group down to the children. -/
def adjustedChildren (masks : List HomMask) : List InputItem → List InputItem
  | [] => []
  | child :: rest =>
    child.withHomonyms (List.zipWith intersectMask child.group.childHomonyms masks) ::
      adjustedChildren (masks.drop child.group.childHomonyms.length) rest

/-- The children that the weights of the new group are taken from. -/
def handedDown (factory : Factory) (constr : ReduceConstraints) : List InputItem :=
  match factory with
  | .commonGrammarInterpretation =>
    adjustedChildren (newChildHomonyms children factory constr) children
  | .dateChain => children

/-- The constraints that a factory starts from. -/
def startConstraints (factory : Factory) (trimTree : List ℕ) (leftPriorityOrder : List (ℕ × ℕ))
    (symbolNo firstItemNo lastItemNo synMainItemNo : ℕ) : ReduceConstraints :=
  match factory with
  | .commonGrammarInterpretation =>
    Holder.interpretationConstraints trimTree leftPriorityOrder symbolNo firstItemNo lastItemNo
      synMainItemNo (children.map InputItem.group)
  | .dateChain =>
    Holder.tomitaConstraints symbolNo firstItemNo lastItemNo synMainItemNo
      (children.map InputItem.group)

/-- The facts of a new group. A `CFloatingSynDateGroup` has none. -/
def newFacts (factory : Factory) : Option (List (List (ℕ × ℕ))) :=
  match factory with
  | .commonGrammarInterpretation => H.mergeFacts children
  | .dateChain => some []

/-- The group of a passed reduction, a `CFactSynGroup` or a `CFloatingSynDateGroup`. -/
def newGroup (factory : Factory) (constr : ReduceConstraints) (symbolNo firstItemNo lastItemNo
    synMainItemNo : ℕ) : Option WeightSynGroup := do
  let main ← children[synMainItemNo]?
  let checkedAgrs ← saveCheckedAgreements info.rulesAgrs children synMainItemNo
  let children' := handedDown children factory constr
  let first := firstItemNo + H.curStartWord
  let last := lastItemNo + H.curStartWord - 1
  let facts ← newFacts H children' factory
  some {
    firstWord := first
    lastWord := last
    mainWordNo := main.group.mainWordNo
    grammems := constr.grammems
    childHomonyms := newChildHomonyms children factory constr
    factGroup := factory == .commonGrammarInterpretation
    facts := facts
    activeSymbol := symbolNo
    checkedAgrs := checkedAgrs
    kwtypesCount := initKwtypesCount H info children' (last + 1 - first)
    userWeight := initUserWeight H info children' }

/-- `CreateNewItem` of a reduction: an exception, a refusal or the new group. -/
def createWeightedItem (factory : Factory) (trimTree : List ℕ) (leftPriorityOrder : List (ℕ × ℕ))
    (symbolNo : ℕ) (agreements : List (WeightedRule Art))
    (firstItemNo lastItemNo synMainItemNo : ℕ) : Option WeightSynGroup :=
  if children.length < synMainItemNo then none
  else do
    let (info, constr) ← checkedAlternative H agreements
      (startConstraints children factory trimTree leftPriorityOrder symbolNo firstItemNo lastItemNo
        synMainItemNo)
    newGroup H info children factory constr symbolNo firstItemNo lastItemNo synMainItemNo

end Reduce

/-- The children stand one behind the other from `first` up to, and without, `last`. -/
def Adjacent : List InputItem → ℕ → ℕ → Prop
  | [], first, last => first = last
  | child :: children, first, last =>
    child.group.firstWord = first ∧ Adjacent children (child.group.lastWord + 1) last

section Built
variable {Art : Type} [DecidableEq Art]

/-- The weights of the rule and of the articles it names lie between 0 and 1. -/
structure UnitWeights (H : WeightHolder Art) (agreements : List (WeightedRule Art)) : Prop where
  rule : ∀ info ∈ agreements, 0 ≤ info.outWeight ∧ info.outWeight ≤ 1
  article : ∀ homonym art field w, H.numericField homonym art field = some w → 0 ≤ w ∧ w ≤ 1

/-- The items of the parse trees over a clause. The masks of an item change when a later reduction
hands masks down to it. -/
inductive Built (H : WeightHolder Art) : InputItem → Prop where
  | terminal (symbolNo : ℕ) (group : Group) (hpair : group.lastWord = group.firstWord)
      (hword : group.firstWord < H.words) : Built H (.primitive symbolNo group)
  | reduction (factory : Factory) (trimTree : List ℕ) (leftPriorityOrder : List (ℕ × ℕ))
      (symbolNo : ℕ) (agreements : List (WeightedRule Art))
      (firstItemNo lastItemNo synMainItemNo : ℕ) (children : List InputItem) (g : WeightSynGroup)
      (hchildren : ∀ child ∈ children, Built H child)
      (hweights : UnitWeights H agreements)
      (hadjacent : Adjacent children (firstItemNo + H.curStartWord) (lastItemNo + H.curStartWord))
      (hnew : createWeightedItem H children factory trimTree leftPriorityOrder symbolNo agreements
        firstItemNo lastItemNo synMainItemNo = some g) : Built H (.weight g)
  | narrowed (item : InputItem) (masks : List HomMask) (h : Built H item) :
      Built H (item.withHomonyms masks)

end Built

end TomitaParser.Reduction
