import TomitaParser.Lib.Components
import TomitaParser.Lib.OrderedSet
/-! # Groups of company facts

Facts whose company names are equal, or one of which has the name of the other for a short name, are
put into one group. -/

namespace TomitaParser.Rusie
open OrderedSet

/-- `SFactAddress`. -/
structure FactAddress where
  sentNum : ℤ
  originalWord : Bool
  wordNum : ℤ
  homNum : ℤ
  factNum : ℤ
deriving DecidableEq

namespace FactAddress

/-- `operator<`. -/
def less (a b : FactAddress) : Bool :=
  if a.sentNum ≠ b.sentNum then decide (a.sentNum < b.sentNum)
  else if a.originalWord ≠ b.originalWord then !a.originalWord
  else if a.wordNum ≠ b.wordNum then decide (a.wordNum < b.wordNum)
  else if a.homNum ≠ b.homNum then decide (a.homNum < b.homNum)
  else decide (a.factNum < b.factNum)

end FactAddress

/-- `CWordSequence` as the comparison of companies asks it. -/
structure CompanyWords where
  firstWord : ℕ
  lastWord : ℕ
  isArtificialPair : Bool
  isConcatenationLemma : Bool
  lemmaText : String

def CompanyWords.size (ws : CompanyWords) : ℕ := ws.lastWord + 1 - ws.firstWord

/-- A fact with a company name. -/
structure CompanyFact where
  address : FactAddress
  companyName : CompanyWords
  companyShortName : Option CompanyWords

/-- The words of the sentences of a text, and what `HasCommonHomonyms` says of two. -/
structure CompanyText (Word : Type) where
  originalWord : ℤ → ℕ → Word
  hasCommonHomonyms : Word → Word → Bool

inductive FactEqualityType
  | equalByFio
  | equalByComp
deriving DecidableEq

/-- `SEqualFacts`. -/
structure EqualFacts where
  equalityType : FactEqualityType
  fieldName : String
  equalFacts : List FactAddress
deriving DecidableEq

namespace EqualFacts

def addressesLess : List FactAddress → List FactAddress → Bool
  | [], [] => false
  | [], _ :: _ => true
  | _ :: _, [] => false
  | a :: as, b :: bs => if a.less b then true else if b.less a then false else addressesLess as bs

/-- `operator<`. -/
def less (x y : EqualFacts) : Bool :=
  (x.equalityType = .equalByFio && y.equalityType = .equalByComp) ||
    addressesLess x.equalFacts y.equalFacts

end EqualFacts

namespace CompanyText
variable {Word : Type} (text : CompanyText Word)

/-- `IsEqualCompaniesWords`. -/
def isEqualCompaniesWords (factF factS : CompanyFact) (bShortS : Bool) : Bool :=
  match if bShortS then factS.companyShortName else some factS.companyName with
  | none => false
  | some wss =>
    let wsf := factF.companyName
    if !bShortS && (wsf.isArtificialPair || wsf.isConcatenationLemma || wss.isArtificialPair ||
        wss.isConcatenationLemma) then
      wsf.lemmaText == wss.lemmaText
    else if wsf.size ≠ wss.size then false
    else (List.range wsf.size).all fun i =>
      text.hasCommonHomonyms (text.originalWord factF.address.sentNum (i + wsf.firstWord))
        (text.originalWord factS.address.sentNum (i + wss.firstWord))

/-- The condition under which `GroupByCompanies` puts a fact to the group of another. -/
def isEqualCompanies (factF factS : CompanyFact) : Bool :=
  text.isEqualCompaniesWords factF factS false || text.isEqualCompaniesWords factF factS true ||
    text.isEqualCompaniesWords factS factF true

/-- The condition for the facts at two places. -/
def equalAt (facts : List CompanyFact) (i j : ℕ) : Bool :=
  match facts[i]?, facts[j]? with
  | some f, some g => text.isEqualCompanies f g
  | _, _ => false

/-- The group of the facts at some places. -/
def groupOf (facts : List CompanyFact) (current : List ℕ) : EqualFacts :=
  ⟨.equalByComp, "CompanyName",
    insertAll FactAddress.less ((current.filterMap (facts[·]?)).map (·.address)) []⟩

/-- `GroupByCompanies`: the equal facts with the groups. -/
def groupByCompanies (fuel : ℕ) (facts : List CompanyFact) (equalFacts : List EqualFacts) :
    Option (List EqualFacts) :=
  (Components.collect (text.equalAt facts) facts.length fuel (List.range' 0 facts.length)
    fun _ => false).map fun currents =>
      insertAll EqualFacts.less ((currents.filter (1 < ·.length)).map (groupOf facts)) equalFacts

end CompanyText

inductive FactEntryEqualityType
  | fromOneDoc
  | sameEntry
deriving DecidableEq

/-- `SPairsIterator`. The iterators over the set are positions in it. -/
structure PairsIterator where
  facts : List FactAddress
  it1 : ℕ
  it2 : ℕ

namespace PairsIterator

/-- `GetPairsIterator`. -/
def start (group : EqualFacts) : PairsIterator := ⟨group.equalFacts, 0, 1⟩

def isEnd (it : PairsIterator) : Bool := it.it1 == it.facts.length

/-- `operator++`. -/
def next (it : PairsIterator) : PairsIterator :=
  if it.it2 + 1 = it.facts.length then
    if it.it1 + 2 = it.facts.length then { it with it1 := it.facts.length, it2 := it.it1 + 2 }
    else { it with it1 := it.it1 + 1, it2 := it.it1 + 2 }
  else { it with it2 := it.it2 + 1 }

/-- A pair with the type of its entry. -/
def entry (sameValue : FactAddress → FactAddress → Bool) (p : FactAddress × FactAddress) :
    FactAddress × FactAddress × FactEntryEqualityType :=
  (p.1, p.2, if p.1.sentNum = p.2.sentNum ∧ p.1.wordNum = p.2.wordNum ∧ p.1.homNum = p.2.homNum ∧
    sameValue p.1 p.2 then .sameEntry else .fromOneDoc)

/-- `GetFactsPair`: nothing stands for the exception. -/
def getFactsPair (sameValue : FactAddress → FactAddress → Bool) (it : PairsIterator) :
    Option (FactAddress × FactAddress × FactEntryEqualityType) :=
  match it.facts[it.it1]?, it.facts[it.it2]? with
  | some a, some b => some (entry sameValue (a, b))
  | _, _ => none

/-- The loop over the pairs. -/
def toList (sameValue : FactAddress → FactAddress → Bool) :
    ℕ → PairsIterator → Option (List (FactAddress × FactAddress × FactEntryEqualityType))
  | 0, _ => none
  | fuel + 1, it =>
    if it.isEnd then some []
    else (it.getFactsPair sameValue).bind fun pair =>
      (toList sameValue fuel it.next).map (pair :: ·)

end PairsIterator

namespace FactAddress

theorem less_trans (a b c : FactAddress) (hab : a.less b = true) (hbc : b.less c = true) :
    a.less c = true := by
  obtain ⟨as, ao, aw, ah, af⟩ := a
  obtain ⟨bs, bo, bw, bh, bf⟩ := b
  obtain ⟨cs, co, cw, ch, cf⟩ := c
  simp only [less] at hab hbc ⊢
  by_cases hs : as = bs
  · by_cases hs' : bs = cs
    · subst hs hs'
      simp only [ne_eq, not_true_eq_false, if_false] at hab hbc ⊢
      cases ao <;> cases bo <;> cases co <;>
        simp only [not_true_eq_false, reduceCtorEq, not_false_eq_true, if_true, if_false,
          Bool.not_true, Bool.not_false, Bool.false_eq_true] at hab hbc ⊢ <;>
        split_ifs at hab hbc ⊢ <;> simp only [decide_eq_true_eq] at hab hbc ⊢ <;> omega
    · rw [if_pos hs'] at hbc
      rw [hs, if_pos hs']
      exact hbc
  · rw [if_pos hs, decide_eq_true_eq] at hab
    by_cases hs' : bs = cs
    · rw [← hs', if_pos hs, decide_eq_true_eq]
      exact hab
    · rw [if_pos hs', decide_eq_true_eq] at hbc
      rw [if_pos (by omega), decide_eq_true_eq]
      omega

theorem less_irrefl (a : FactAddress) : a.less a = false := by
  simp [less]

theorem eq_of_equivalent {a b : FactAddress} (hab : a.less b = false) (hba : b.less a = false) :
    a = b := by
  obtain ⟨as, ao, aw, ah, af⟩ := a
  obtain ⟨bs, bo, bw, bh, bf⟩ := b
  simp only [less] at hab hba
  have hs : as = bs := by
    by_contra hne
    rw [if_pos hne, decide_eq_false_iff_not] at hab
    rw [if_pos (Ne.symm hne), decide_eq_false_iff_not] at hba
    omega
  subst hs
  simp only [ne_eq, not_true_eq_false, if_false] at hab hba
  have ho : ao = bo := by
    by_contra hne
    rw [if_pos hne] at hab
    rw [if_pos (Ne.symm hne)] at hba
    cases ao <;> cases bo <;> simp at hab hba hne
  subst ho
  simp only [not_true_eq_false, if_false] at hab hba
  have hw : aw = bw := by
    by_contra hne
    rw [if_pos hne, decide_eq_false_iff_not] at hab
    rw [if_pos (Ne.symm hne), decide_eq_false_iff_not] at hba
    omega
  subst hw
  simp only [not_true_eq_false, if_false] at hab hba
  have hh : ah = bh := by
    by_contra hne
    rw [if_pos hne, decide_eq_false_iff_not] at hab
    rw [if_pos (Ne.symm hne), decide_eq_false_iff_not] at hba
    omega
  subst hh
  simp only [not_true_eq_false, if_false, decide_eq_false_iff_not] at hab hba
  have hf : af = bf := by omega
  rw [hf]

end FactAddress

theorem EqualFacts.eq_of_addressesLess : ∀ {as bs : List FactAddress},
    addressesLess as bs = false → addressesLess bs as = false → as = bs := by
  intro as
  induction as with
  | nil =>
    intro bs hab _
    cases bs with
    | nil => rfl
    | cons b bs => cases hab
  | cons a as ih =>
    intro bs hab hba
    cases bs with
    | nil => cases hba
    | cons b bs =>
      rw [addressesLess] at hab hba
      have hless : a.less b = false := by
        by_contra hno
        rw [if_pos (by simpa using hno)] at hab
        cases hab
      have hless' : b.less a = false := by
        by_contra hno
        rw [if_pos (by simpa using hno)] at hba
        cases hba
      rw [hless, hless', if_neg Bool.false_ne_true, if_neg Bool.false_ne_true] at hab hba
      rw [FactAddress.eq_of_equivalent hless hless', ih hab hba]

theorem EqualFacts.eq_of_equivalent {x y : EqualFacts} (h : Equivalent EqualFacts.less x y) :
    x.equalityType = y.equalityType ∧ x.equalFacts = y.equalFacts := by
  obtain ⟨hxy, hyx⟩ := h
  rw [EqualFacts.less, Bool.or_eq_false_iff] at hxy hyx
  refine ⟨?_, eq_of_addressesLess hxy.2 hyx.2⟩
  have hx := hxy.1
  have hy := hyx.1
  cases htx : x.equalityType <;> cases hty : y.equalityType <;> simp [htx, hty] at hx hy ⊢

theorem sorted_ext {as bs : List FactAddress} (ha : as.Pairwise fun x y => x.less y = true)
    (hb : bs.Pairwise fun x y => x.less y = true) (h : ∀ a, a ∈ as ↔ a ∈ bs) : as = bs := by
  have hne : ∀ {x y : FactAddress}, x.less y = true → x ≠ y := by
    intro x y hless heq
    rw [heq, FactAddress.less_irrefl] at hless
    cases hless
  have hperm : as.Perm bs := (List.perm_ext_iff_of_nodup (ha.imp hne) (hb.imp hne)).mpr h
  refine hperm.eq_of_pairwise ?_ ha hb
  intro x y _ _ hxy hyx
  have := FactAddress.less_trans x y x hxy hyx
  rw [FactAddress.less_irrefl] at this
  cases this

section Groups
variable {Word : Type} (text : CompanyText Word) (facts : List CompanyFact)

/-- A chain of equal companies leads from one place to another. -/
def SameCompany : ℕ → ℕ → Prop := Components.Connected (text.equalAt facts) facts.length

/-- The facts of a component with two facts or more. -/
structure IsCompanyGroup (group : EqualFacts) : Prop where
  equalityType : group.equalityType = .equalByComp
  fieldName : group.fieldName = "CompanyName"
  sorted : group.equalFacts.Pairwise fun x y => x.less y = true
  component : ∃ i < facts.length, (∃ j < facts.length, j ≠ i ∧ SameCompany text facts i j) ∧
    ∀ a, a ∈ group.equalFacts ↔
      ∃ j f, facts[j]? = some f ∧ f.address = a ∧ SameCompany text facts i j

variable {text facts}

theorem CompanyText.isEqualCompaniesWords_symm
    (htext : ∀ x y, text.hasCommonHomonyms x y = text.hasCommonHomonyms y x) (f g : CompanyFact) :
    text.isEqualCompaniesWords f g false = text.isEqualCompaniesWords g f false := by
  have hartificial : ∀ a b c d : Bool, (a || b || c || d) = (c || d || a || b) := by decide
  rw [isEqualCompaniesWords, isEqualCompaniesWords]
  simp only [Bool.false_eq_true, if_false, Bool.not_false, Bool.true_and]
  rw [hartificial]
  by_cases hlemmas : (g.companyName.isArtificialPair || g.companyName.isConcatenationLemma ||
      f.companyName.isArtificialPair || f.companyName.isConcatenationLemma) = true
  · rw [if_pos hlemmas, if_pos hlemmas]
    exact Bool.beq_comm
  · rw [if_neg hlemmas, if_neg hlemmas]
    by_cases hsize : f.companyName.size = g.companyName.size
    · rw [if_neg (by simpa using hsize), if_neg (by simpa using hsize.symm), hsize]
      refine congrArg (List.all _) ?_
      funext i
      exact htext _ _
    · rw [if_pos hsize, if_pos (Ne.symm hsize)]

theorem CompanyText.equalAt_symm
    (htext : ∀ x y, text.hasCommonHomonyms x y = text.hasCommonHomonyms y x) (i j : ℕ) :
    text.equalAt facts i j = text.equalAt facts j i := by
  rw [equalAt, equalAt]
  cases facts[i]? with
  | none => cases facts[j]? <;> rfl
  | some f =>
    cases facts[j]? with
    | none => rfl
    | some g =>
      dsimp only
      rw [isEqualCompanies, isEqualCompanies, isEqualCompaniesWords_symm htext f g, Bool.or_assoc,
        Bool.or_assoc, Bool.or_comm (text.isEqualCompaniesWords f g true)]

theorem mem_groupOf (current : List ℕ) (a : FactAddress) :
    a ∈ (CompanyText.groupOf facts current).equalFacts ↔
      ∃ j ∈ current, ∃ f, facts[j]? = some f ∧ f.address = a := by
  rw [CompanyText.groupOf, mem_insertAll]
  · simp only [List.mem_map, List.mem_filterMap, List.not_mem_nil, or_false]
    constructor
    · intro h
      obtain ⟨f, ⟨j, hj, hf⟩, ha⟩ := h
      exact ⟨j, hj, f, hf, ha⟩
    · intro h
      obtain ⟨j, hj, f, hf, ha⟩ := h
      exact ⟨f, ⟨j, hj, hf⟩, ha⟩
  · intro a _ b _ he
    exact (FactAddress.eq_of_equivalent he.1 he.2).symm

theorem sorted_groupOf (current : List ℕ) :
    (CompanyText.groupOf facts current).equalFacts.Pairwise fun x y => x.less y = true :=
  pairwise_insertAll FactAddress.less_trans List.Pairwise.nil

theorem isCompanyGroup_groupOf
    (htext : ∀ x y, text.hasCommonHomonyms x y = text.hasCommonHomonyms y x) {component : List ℕ}
    (h : Components.IsComponent (text.equalAt facts) facts.length component)
    (hlength : 1 < component.length) :
    IsCompanyGroup text facts (CompanyText.groupOf facts component) where
  equalityType := rfl
  fieldName := rfl
  sorted := sorted_groupOf component
  component := by
    obtain ⟨i, j, rest, rfl⟩ : ∃ i j rest, component = i :: j :: rest := by
      match component, hlength with
      | i :: j :: rest, _ => exact ⟨i, j, rest, rfl⟩
    have hmem := h.mem_iff_connected (CompanyText.equalAt_symm htext) List.mem_cons_self
    have hi := (hmem i).mp List.mem_cons_self
    have hj := (hmem j).mp (List.mem_cons_of_mem i List.mem_cons_self)
    have hne : j ≠ i := by
      rintro rfl
      exact (List.nodup_cons.mp h.nodup).1 List.mem_cons_self
    refine ⟨i, hi.1, ⟨j, hj.1, hne, hj.2⟩, ?_⟩
    intro a
    rw [mem_groupOf]
    constructor
    · intro ha
      obtain ⟨k, hk, f, hf, ha⟩ := ha
      exact ⟨k, f, hf, ha, ((hmem k).mp hk).2⟩
    · intro ha
      obtain ⟨k, f, hf, ha, hconnected⟩ := ha
      exact ⟨k, (hmem k).mpr ⟨(List.getElem?_eq_some_iff.mp hf).1, hconnected⟩, f, hf, ha⟩

/-- A group is the group of the component of its places. -/
theorem IsCompanyGroup.eq_groupOf
    (htext : ∀ x y, text.hasCommonHomonyms x y = text.hasCommonHomonyms y x) {group : EqualFacts}
    (h : IsCompanyGroup text facts group) {components : List (List ℕ)}
    (hall : ∀ component ∈ components,
      Components.IsComponent (text.equalAt facts) facts.length component)
    (hcovers : ∀ j < facts.length, ∃ component ∈ components, j ∈ component) :
    ∃ component ∈ components, 1 < component.length ∧
      CompanyText.groupOf facts component = group := by
  obtain ⟨i, hi, ⟨j, hj, hne, hij⟩, hmem⟩ := h.component
  obtain ⟨component, hcomponent, himem⟩ := hcovers i hi
  have hconnected :=
    (hall component hcomponent).mem_iff_connected (CompanyText.equalAt_symm htext) himem
  have hjmem : j ∈ component := (hconnected j).mpr ⟨hj, hij⟩
  have hlength : 1 < component.length := by
    match component, himem, hjmem with
    | [_], himem, hjmem =>
      exact absurd ((List.mem_singleton.mp hjmem).trans (List.mem_singleton.mp himem).symm) hne
    | _ :: _ :: _, _, _ => simp
  have hfacts : (CompanyText.groupOf facts component).equalFacts = group.equalFacts := by
    refine sorted_ext (sorted_groupOf component) h.sorted ?_
    intro a
    rw [mem_groupOf, hmem a]
    constructor
    · intro ha
      obtain ⟨k, hk, f, hf, ha⟩ := ha
      exact ⟨k, f, hf, ha, ((hconnected k).mp hk).2⟩
    · intro ha
      obtain ⟨k, f, hf, ha, hik⟩ := ha
      exact ⟨k, (hconnected k).mpr ⟨(List.getElem?_eq_some_iff.mp hf).1, hik⟩, f, hf, ha⟩
  refine ⟨component, hcomponent, hlength, ?_⟩
  obtain ⟨equalityType, fieldName, equalFacts⟩ := group
  have htype := h.equalityType
  have hfield := h.fieldName
  dsimp only at htype hfield hfacts
  rw [htype, hfield, ← hfacts]
  rfl

end Groups

/-- The pairs of an entry with a later one. -/
def laterPairs {α : Type} : List α → List (α × α)
  | [] => []
  | a :: rest => rest.map (Prod.mk a) ++ laterPairs rest

namespace PairsIterator
variable (sameValue : FactAddress → FactAddress → Bool)

/-- From the pair of two entries on the iterator shows the pairs that are left. -/
theorem toList_spec (left : ℕ) : ∀ (before : List FactAddress) (a : FactAddress)
    (between : List FactAddress) (b : FactAddress) (rest : List FactAddress) (fuel : ℕ),
    ((b :: rest).map (Prod.mk a) ++ laterPairs (between ++ b :: rest)).length = left →
    left < fuel →
    (⟨before ++ a :: (between ++ b :: rest), before.length, before.length + 1 + between.length⟩ :
        PairsIterator).toList sameValue fuel =
      some (((b :: rest).map (Prod.mk a) ++ laterPairs (between ++ b :: rest)).map
        (entry sameValue)) := by
  induction left with
  | zero =>
    intro before a between b rest fuel hleft _
    simp at hleft
  | succ left ih =>
    intro before a between b rest fuel hleft hfuel
    cases fuel with
    | zero => omega
    | succ fuel =>
      have hlength : (before ++ a :: (between ++ b :: rest)).length =
          before.length + between.length + rest.length + 2 := by
        simp only [List.length_append, List.length_cons]
        omega
      have hget₁ : (before ++ a :: (between ++ b :: rest))[before.length]? = some a := by
        rw [List.getElem?_append_right (le_refl _), Nat.sub_self, List.getElem?_cons_zero]
      have hget₂ : (before ++ a :: (between ++ b :: rest))[before.length + 1 + between.length]? =
          some b := by
        rw [List.getElem?_append_right (by omega),
          show before.length + 1 + between.length - before.length = between.length + 1 by omega,
          List.getElem?_cons_succ, List.getElem?_append_right (le_refl _), Nat.sub_self,
          List.getElem?_cons_zero]
      have hend : ¬ before.length = before.length + between.length + rest.length + 2 := by omega
      rw [toList, isEnd]
      dsimp only
      rw [hlength, if_neg (by simpa using hend), getFactsPair]
      dsimp only
      rw [hget₁, hget₂]
      dsimp only
      rw [Option.bind_some, next]
      dsimp only
      rw [hlength]
      rw [List.map_cons, List.cons_append, List.map_cons]
      rw [List.map_cons, List.cons_append, List.length_cons] at hleft
      cases rest with
      | cons c rest =>
        have hnotLast : ¬ before.length + 1 + between.length + 1 =
            before.length + between.length + (c :: rest).length + 2 := by
          rw [List.length_cons]
          omega
        rw [if_neg hnotLast]
        have hrest := ih before a (between ++ [b]) c rest fuel (by
          rw [List.append_assoc, List.singleton_append]
          omega) (by omega)
        rw [List.append_assoc, List.singleton_append, List.length_append, List.length_singleton,
          ← Nat.add_assoc] at hrest
        rw [hrest]
        rfl
      | nil =>
        rw [List.length_nil, if_pos (by omega)]
        cases between with
        | nil =>
          cases fuel with
          | zero => simp at hfuel
          | succ fuel =>
            rw [List.length_nil, if_pos (by omega), toList, isEnd]
            dsimp only
            rw [hlength, if_pos (by simp)]
            rfl
        | cons c between =>
          have hmore : ¬ before.length + 2 = before.length + (c :: between).length + 0 + 2 := by
            rw [List.length_cons]
            omega
          rw [if_neg hmore]
          have hsplit : ∃ d later, between ++ [b] = d :: later := by
            cases between with
            | nil => exact ⟨b, [], rfl⟩
            | cons d later => exact ⟨d, later ++ [b], rfl⟩
          obtain ⟨d, later, hlater⟩ := hsplit
          rw [List.cons_append, hlater] at hleft ⊢
          have hrest := ih (before ++ [a]) c [] d later fuel (by
            rw [List.nil_append]
            simpa [laterPairs] using hleft) (by omega)
          rw [List.append_assoc, List.singleton_append, List.nil_append, List.length_append,
            List.length_singleton, List.length_nil, Nat.add_zero] at hrest
          rw [hrest]
          rfl

end PairsIterator

theorem mem_laterPairs {as : List FactAddress} (h : as.Pairwise fun x y => x.less y = true)
    (p : FactAddress × FactAddress) :
    p ∈ laterPairs as ↔ p.1 ∈ as ∧ p.2 ∈ as ∧ p.1.less p.2 = true := by
  induction as with
  | nil => simp [laterPairs]
  | cons a rest ih =>
    obtain ⟨hfirst, hrest⟩ := List.pairwise_cons.mp h
    rw [laterPairs, List.mem_append, List.mem_map, ih hrest]
    constructor
    · intro hp
      rcases hp with ⟨b, hb, rfl⟩ | ⟨hx, hy, hless⟩
      · exact ⟨List.mem_cons_self, List.mem_cons_of_mem a hb, hfirst b hb⟩
      · exact ⟨List.mem_cons_of_mem a hx, List.mem_cons_of_mem a hy, hless⟩
    · intro hp
      obtain ⟨x, y⟩ := p
      obtain ⟨hx, hy, hless⟩ := hp
      dsimp only at hx hy hless
      rcases List.mem_cons.mp hx with hxa | hx
      · subst hxa
        rcases List.mem_cons.mp hy with hya | hy
        · rw [hya, FactAddress.less_irrefl] at hless
          cases hless
        · exact Or.inl ⟨y, hy, rfl⟩
      · rcases List.mem_cons.mp hy with hya | hy
        · rw [hya] at hless
          have hback := FactAddress.less_trans x a x hless (hfirst x hx)
          rw [FactAddress.less_irrefl] at hback
          cases hback
        · exact Or.inr ⟨hx, hy, hless⟩

theorem nodup_laterPairs {as : List FactAddress} (h : as.Pairwise fun x y => x.less y = true) :
    (laterPairs as).Nodup := by
  induction as with
  | nil => exact List.nodup_nil
  | cons a rest ih =>
    obtain ⟨hfirst, hrest⟩ := List.pairwise_cons.mp h
    have hne : ∀ {x y : FactAddress}, x.less y = true → x ≠ y := by
      intro x y hless heq
      rw [heq, FactAddress.less_irrefl] at hless
      cases hless
    rw [laterPairs, List.nodup_append]
    refine ⟨List.Nodup.map (fun x y hxy => (Prod.mk.inj hxy).2) (hrest.imp hne), ih hrest, ?_⟩
    intro p hp q hq heq
    obtain ⟨b, -, rfl⟩ := List.mem_map.mp hp
    have hmem := ((mem_laterPairs hrest q).mp hq).1
    rw [← heq] at hmem
    exact hne (hfirst a hmem) rfl

/-- Each pair of different facts is shown once, in one order or the other. -/
theorem pairs_once {Word : Type} {text : CompanyText Word} {facts : List CompanyFact}
    (hfacts : (facts.map (·.address)).Nodup) {group : EqualFacts}
    (h : IsCompanyGroup text facts group) (sameValue : FactAddress → FactAddress → Bool) :
    ∃ N pairs, (∀ fuel, N < fuel →
        (PairsIterator.start group).toList sameValue fuel = some pairs) ∧
      (pairs.map fun p => (p.1, p.2.1)).Nodup ∧
      (∀ p ∈ pairs, p.1 ∈ group.equalFacts ∧ p.2.1 ∈ group.equalFacts ∧ p.1 ≠ p.2.1) ∧
      ∀ a ∈ group.equalFacts, ∀ b ∈ group.equalFacts, a ≠ b →
        ((a, b) ∈ pairs.map (fun p => (p.1, p.2.1)) ↔
          (b, a) ∉ pairs.map fun p => (p.1, p.2.1)) := by
  obtain ⟨i, hi, ⟨j, hj, hne, hij⟩, hmem⟩ := h.component
  have hiFact := List.getElem?_eq_getElem hi
  have hjFact := List.getElem?_eq_getElem hj
  have hiMem : facts[i].address ∈ group.equalFacts :=
    (hmem _).mpr ⟨i, _, hiFact, rfl, Relation.ReflTransGen.refl⟩
  have hjMem : facts[j].address ∈ group.equalFacts := (hmem _).mpr ⟨j, _, hjFact, rfl, hij⟩
  have hdifferent : facts[j].address ≠ facts[i].address := by
    intro heq
    apply hne
    have hlen : ∀ k, k < facts.length → k < (facts.map (·.address)).length := by simp
    have hget : (facts.map (·.address))[j]? = (facts.map (·.address))[i]? := by
      rw [List.getElem?_map, List.getElem?_map, hiFact, hjFact, Option.map_some, Option.map_some,
        heq]
    exact (List.getElem?_inj (hlen j hj) hfacts).mp hget
  obtain ⟨a, b, rest, hgroup⟩ : ∃ a b rest, group.equalFacts = a :: b :: rest := by
    match hlist : group.equalFacts with
    | [] =>
      rw [hlist] at hiMem
      cases hiMem
    | [_] =>
      rw [hlist] at hiMem hjMem
      exact absurd ((List.mem_singleton.mp hjMem).trans (List.mem_singleton.mp hiMem).symm)
        hdifferent
    | a :: b :: rest => exact ⟨a, b, rest, rfl⟩
  have hsorted := h.sorted
  have hpairs : ((laterPairs group.equalFacts).map (PairsIterator.entry sameValue)).map
      (fun p => (p.1, p.2.1)) = laterPairs group.equalFacts := by
    rw [List.map_map]
    exact List.map_id _
  refine ⟨(laterPairs group.equalFacts).length,
    (laterPairs group.equalFacts).map (PairsIterator.entry sameValue), ?_, ?_, ?_, ?_⟩
  · intro fuel hfuel
    have hlist := PairsIterator.toList_spec sameValue _ [] a [] b rest fuel rfl (by
      rw [hgroup, laterPairs] at hfuel
      exact hfuel)
    rw [PairsIterator.start, hgroup]
    exact hlist
  · rw [hpairs]
    exact nodup_laterPairs hsorted
  · intro p hp
    obtain ⟨q, hq, rfl⟩ := List.mem_map.mp hp
    obtain ⟨hx, hy, hless⟩ := (mem_laterPairs hsorted q).mp hq
    refine ⟨hx, hy, ?_⟩
    intro heq
    have hsame : q.1 = q.2 := heq
    rw [hsame, FactAddress.less_irrefl] at hless
    cases hless
  · intro x hx y hy hxy
    rw [hpairs, mem_laterPairs hsorted, mem_laterPairs hsorted]
    constructor
    · intro hless hback
      have hcycle := FactAddress.less_trans x y x hless.2.2 hback.2.2
      rw [FactAddress.less_irrefl] at hcycle
      cases hcycle
    · intro hnot
      refine ⟨hx, hy, ?_⟩
      by_contra hno
      have hxyLess : x.less y = false := by simpa using hno
      have hyxLess : y.less x = false := by
        by_contra hback
        exact hnot ⟨hy, hx, by simpa using hback⟩
      exact hxy (FactAddress.eq_of_equivalent hxyLess hyxLess)

/-- The groups of companies are the components with two facts or more, and the iterator over a group
shows every pair of its facts once. -/
theorem groupByCompanies_components {Word : Type} (text : CompanyText Word)
    (htext : ∀ x y, text.hasCommonHomonyms x y = text.hasCommonHomonyms y x)
    (facts : List CompanyFact) (hfacts : (facts.map (·.address)).Nodup)
    (equalFacts : List EqualFacts)
    (hequal : ∀ g ∈ equalFacts, g.equalityType = .equalByComp → g.fieldName = "CompanyName") :
    (∃ N equalFacts', (∀ fuel, N < fuel →
        text.groupByCompanies fuel facts equalFacts = some equalFacts') ∧
      ∀ g, g ∈ equalFacts' ↔ g ∈ equalFacts ∨ IsCompanyGroup text facts g) ∧
    ∀ g, IsCompanyGroup text facts g → ∀ sameValue : FactAddress → FactAddress → Bool,
      ∃ N pairs, (∀ fuel, N < fuel →
          (PairsIterator.start g).toList sameValue fuel = some pairs) ∧
        (pairs.map fun p => (p.1, p.2.1)).Nodup ∧
        (∀ p ∈ pairs, p.1 ∈ g.equalFacts ∧ p.2.1 ∈ g.equalFacts ∧ p.1 ≠ p.2.1) ∧
        ∀ a ∈ g.equalFacts, ∀ b ∈ g.equalFacts, a ≠ b →
          ((a, b) ∈ pairs.map (fun p => (p.1, p.2.1)) ↔
            (b, a) ∉ pairs.map fun p => (p.1, p.2.1)) := by
  refine ⟨?_, fun g hg sameValue => pairs_once hfacts hg sameValue⟩
  obtain ⟨components, hruns, hall, hcovers⟩ :=
    Components.collect_components (@CompanyText.equalAt_symm Word text facts htext) facts.length
  refine ⟨facts.length, insertAll EqualFacts.less
    ((components.filter (1 < ·.length)).map (CompanyText.groupOf facts)) equalFacts, ?_, ?_⟩
  · intro fuel hfuel
    rw [CompanyText.groupByCompanies, hruns fuel hfuel, Option.map_some]
  · intro g
    have hgroup : g ∈ (components.filter (1 < ·.length)).map (CompanyText.groupOf facts) ↔
        IsCompanyGroup text facts g := by
      rw [List.mem_map]
      constructor
      · intro hg
        obtain ⟨component, hcomponent, rfl⟩ := hg
        obtain ⟨hmem, hlength⟩ := List.mem_filter.mp hcomponent
        exact isCompanyGroup_groupOf htext (hall component hmem) (of_decide_eq_true hlength)
      · intro hg
        obtain ⟨component, hmem, hlength, heq⟩ := hg.eq_groupOf htext hall hcovers
        exact ⟨component, List.mem_filter.mpr ⟨hmem, decide_eq_true hlength⟩, heq⟩
    rw [mem_insertAll, hgroup, or_comm]
    intro x hx y hy hequiv
    obtain ⟨component, -, rfl⟩ := List.mem_map.mp hx
    obtain ⟨htype, haddresses⟩ := EqualFacts.eq_of_equivalent hequiv
    have hfield : y.fieldName = "CompanyName" := by
      rcases hy with hy | hy
      · obtain ⟨other, -, rfl⟩ := List.mem_map.mp hy
        rfl
      · exact hequal y hy htype.symm
    obtain ⟨ytype, yfield, yfacts⟩ := y
    dsimp only at htype hfield haddresses
    rw [hfield, ← haddresses, ← htype]
    rfl

/-- The words of a text in which every other word is the same. -/
def evenOddText : CompanyText ℕ := ⟨fun _ i => i % 2, fun x y => x == y⟩

/-- Two facts with names of one word, the second of which has the name of the third for a short
name. -/
def threeCompanies : List CompanyFact :=
  [⟨⟨0, false, 1, 0, 0⟩, ⟨1, 1, false, false, "a"⟩, none⟩,
    ⟨⟨1, true, 2, 0, 0⟩, ⟨3, 3, false, false, "b"⟩, some ⟨4, 4, false, false, "c"⟩⟩,
    ⟨⟨2, true, 2, 0, 0⟩, ⟨6, 6, true, false, "c"⟩, none⟩]

theorem groupByCompanies_components_threeCompanies :
    (∃ N equalFacts', (∀ fuel, N < fuel →
        evenOddText.groupByCompanies fuel threeCompanies [] = some equalFacts') ∧
      ∀ g, g ∈ equalFacts' ↔ g ∈ [] ∨ IsCompanyGroup evenOddText threeCompanies g) ∧
    ∀ g, IsCompanyGroup evenOddText threeCompanies g → ∃ N pairs, (∀ fuel, N < fuel →
        (PairsIterator.start g).toList (fun _ _ => false) fuel = some pairs) ∧
      (pairs.map fun p => (p.1, p.2.1)).Nodup := by
  obtain ⟨hgroups, hpairs⟩ := groupByCompanies_components evenOddText (fun _ _ => Bool.beq_comm)
    threeCompanies (by decide) [] (by simp)
  refine ⟨hgroups, fun g hg => ?_⟩
  obtain ⟨N, pairs, hrun, hnodup, -⟩ := hpairs g hg fun _ _ => false
  exact ⟨N, pairs, hrun, hnodup⟩

end TomitaParser.Rusie
