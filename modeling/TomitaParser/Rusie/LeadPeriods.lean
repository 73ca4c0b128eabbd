import TomitaParser.Lib.OrderedSet
import TomitaParser.Rusie.FactFields
import TomitaParser.Rusie.PeriodSearchRuns
/-! # Periods of leads

`CLeadGenerator`: the spans of the fields of a fact are marked in a lead of its sentence. Facts
whose spans cross go to different leads. -/

namespace TomitaParser.Rusie

/-- `SLeadInfo`. -/
structure LeadInfo where
  firstSent : ℤ
  lastSent : ℤ
deriving DecidableEq

/-- `CWordSequence` as the value of a field. -/
structure FieldWords where
  pair : CWordsPair
  isArtificialPair : Bool
  capitalizedLemma : List ℕ

/-- `CFactFields` with its type. -/
structure LeadFact where
  factType : FactType
  leadInfo : LeadInfo
  getValue : String → Option FieldWords

/-- `CAttrWP`. -/
structure AttrWP where
  pair : CWordsPair
  tagName : Char
  capitalizedName : List ℕ
  index : ℕ
deriving DecidableEq

/-- `operator <`. -/
def AttrWP.less (a b : AttrWP) : Bool := a.pair.lt b.pair

/-- `SSentenceLead`. -/
structure SentenceLead where
  periods : List AttrWP
  leadID : ℕ
  leadInfo : LeadInfo

/-- `CLeadGenerator` for one sentence. -/
structure LeadGenerator where
  sentencePeriods : List SentenceLead
  maxLeadID : ℕ

namespace LeadGenerator

def isAsciiSpace (c : ℕ) : Bool := c == 32 || (9 ≤ c && c ≤ 13)

def stripString (s : List ℕ) : List ℕ :=
  ((s.dropWhile isAsciiSpace).reverse.dropWhile isAsciiSpace).reverse

/-- The quotes are replaced by spaces. -/
def substQuotes (s : List ℕ) : List ℕ := s.map fun c => if c = 34 then 32 else c

/-- The attribute of a field, none for a field that is not marked. -/
def fieldAttr (fact : LeadFact) (descr : FactFieldDescr) : Option AttrWP :=
  if descr.fieldType = .fioField ∨ descr.fieldType = .textField then
    match fact.getValue descr.strFieldName with
    | none => none
    | some ws =>
      if !ws.pair.isValid || ws.isArtificialPair then none
      else some
        { pair := ws.pair
          tagName := descr.strFieldName.toList.headD '\x00'
          capitalizedName :=
            if descr.fieldType = .textField then stripString (substQuotes ws.capitalizedLemma)
            else []
          index := 0 }
  else none

/-- Whether a new attribute is added, and the ones collected before it: the first one that the new
one includes is erased. -/
def keepMaximal (newWp : AttrWP) : List AttrWP → Bool × List AttrWP
  | [] => (true, [])
  | wp :: fieldPeriods =>
    if wp.pair.includes newWp.pair then (false, wp :: fieldPeriods)
    else if newWp.pair.includes wp.pair then (true, fieldPeriods)
    else ((keepMaximal newWp fieldPeriods).1, wp :: (keepMaximal newWp fieldPeriods).2)

/-- The attribute crosses a period of earlier facts. -/
def conflicts (newWp : AttrWP) (periods : List AttrWP) : Bool :=
  periods.any fun wp => newWp.pair.intersects wp.pair && newWp.pair ≠ wp.pair

/-- The loop over the fields, none when a field conflicts with the lead. -/
def collect (fact : LeadFact) (periods : List AttrWP) :
    List FactFieldDescr → List AttrWP → Option (List AttrWP)
  | [], fieldPeriods => some fieldPeriods
  | descr :: fields, fieldPeriods =>
    match fieldAttr fact descr with
    | none => collect fact periods fields fieldPeriods
    | some newWp =>
      if (keepMaximal newWp fieldPeriods).1 then
        if conflicts newWp periods then none
        else collect fact periods fields ((keepMaximal newWp fieldPeriods).2 ++ [newWp])
      else collect fact periods fields (keepMaximal newWp fieldPeriods).2

/-- `find` of the set of periods: the first that is not less, if the attribute is not less than
it. -/
def findPeriod (wp : AttrWP) (periods : List AttrWP) : Option AttrWP :=
  (periods.find? fun e => !e.less wp).filter fun e => !wp.less e

/-- The collected attributes are found among the periods or inserted there; the periods and what is
returned for the fact. -/
def insertPeriods : List AttrWP → List AttrWP → List AttrWP × List AttrWP
  | [], periods => (periods, [])
  | wp :: fieldPeriods, periods =>
    match findPeriod wp periods with
    | some found =>
      ((insertPeriods fieldPeriods periods).1, found :: (insertPeriods fieldPeriods periods).2)
    | none =>
      ((insertPeriods fieldPeriods
          (OrderedSet.insertBy AttrWP.less { wp with index := periods.length } periods)).1,
        { wp with index := periods.length } ::
          (insertPeriods fieldPeriods
            (OrderedSet.insertBy AttrWP.less { wp with index := periods.length } periods)).2)

/-- `AddToSentencePeriods`: the lead and the attributes of the fact, none when it does not fit. -/
def addToSentencePeriods (fact : LeadFact) (lead : SentenceLead) :
    Option (SentenceLead × List AttrWP) :=
  if fact.leadInfo = lead.leadInfo then
    match collect fact lead.periods fact.factType.fields [] with
    | none => none
    | some fieldPeriods =>
      some ({ lead with periods := (insertPeriods fieldPeriods lead.periods).1 },
        (insertPeriods fieldPeriods lead.periods).2)
  else none

/-- The first lead that takes the fact. -/
def addToLeads (fact : LeadFact) :
    List SentenceLead → Option (List SentenceLead × ℕ × List AttrWP)
  | [] => none
  | lead :: leads =>
    match addToSentencePeriods fact lead with
    | some (lead', attrs) => some (lead' :: leads, lead.leadID, attrs)
    | none => (addToLeads fact leads).map fun r => (lead :: r.1, r.2)

/-- `AddFact`: the generator, the id of the lead and the attributes of the fact. -/
def addFact (g : LeadGenerator) (fact : LeadFact) : LeadGenerator × ℕ × List AttrWP :=
  match addToLeads fact g.sentencePeriods with
  | some (leads, leadID, attrs) => ({ g with sentencePeriods := leads }, leadID, attrs)
  | none =>
    match addToSentencePeriods fact ⟨[], g.maxLeadID, fact.leadInfo⟩ with
    | some (lead, attrs) =>
      (⟨g.sentencePeriods ++ [lead], g.maxLeadID + 1⟩, g.maxLeadID, attrs)
    | none =>
      (⟨g.sentencePeriods ++ [⟨[], g.maxLeadID, fact.leadInfo⟩], g.maxLeadID + 1⟩, g.maxLeadID, [])

def start : LeadGenerator := ⟨[], 0⟩

/-- The generator after some facts. -/
def addFacts (facts : List LeadFact) : LeadGenerator :=
  facts.foldl (fun g fact => (g.addFact fact).1) start

end LeadGenerator

/-- The spans of the Fio and Text fields of a fact, in the order of the fields. -/
def LeadFact.spans (fact : LeadFact) : List CWordsPair :=
  (fact.factType.fields.filterMap (LeadGenerator.fieldAttr fact)).map (·.pair)

/-- No other span includes this one. -/
def MaximalIn (spans : List CWordsPair) (p : CWordsPair) : Prop :=
  p ∈ spans ∧ ∀ q ∈ spans, q.includes p = true → q = p

/-- Maximal spans do not cross, and a span that is not in an earlier one includes every earlier one
with which it is in a common span. -/
structure OrderlySpans (spans : List CWordsPair) : Prop where
  maximal : ∀ p q, MaximalIn spans p → MaximalIn spans q → p.intersects q = true → p = q
  order : ∀ before p after, spans = before ++ p :: after →
    (∃ q ∈ before, q.includes p = true) ∨
      ∀ q ∈ before, ∀ m ∈ spans, m.includes p = true → m.includes q = true → p.includes q = true

/-- Periods do not intersect and have different indexes. -/
def SentenceLead.Distinct (lead : SentenceLead) : Prop :=
  lead.periods.Pairwise fun a b => a.pair.intersects b.pair = false ∧ a.index ≠ b.index

/-- What is returned for a fact: the maximal spans, each once, as periods of the lead. -/
structure AttrsOf (fact : LeadFact) (lead : SentenceLead) (attrs : List AttrWP) : Prop where
  nodup : (attrs.map (·.pair)).Nodup
  spans : ∀ p, p ∈ attrs.map (·.pair) ↔ MaximalIn fact.spans p
  periods : ∀ a ∈ attrs, ∃ wp ∈ lead.periods, wp.pair = a.pair ∧ wp.index = a.index

/-- After a fact the leads are distinct, and one of them has the id and the attributes returned for
the fact. -/
structure LeadGenerator.Marked (fact : LeadFact) (r : LeadGenerator × ℕ × List AttrWP) :
    Prop where
  distinct : ∀ lead ∈ r.1.sentencePeriods, lead.Distinct
  ids : (r.1.sentencePeriods.map (·.leadID)).Nodup
  attrs : ∃ lead ∈ r.1.sentencePeriods, lead.leadID = r.2.1 ∧ AttrsOf fact lead r.2.2

namespace CWordsPair
variable {p q r : CWordsPair}

theorem includes_iff : p.includes q = true ↔ p.first ≤ q.first ∧ q.last ≤ p.last := by
  simp [includes]

theorem intersects_iff : p.intersects q = true ↔ q.first ≤ p.last ∧ p.first ≤ q.last := by
  simp [intersects]

theorem includes_refl (p : CWordsPair) : p.includes p = true := by
  simp [includes]

theorem includes_trans (h : p.includes q = true) (h' : q.includes r = true) :
    p.includes r = true := by
  rw [includes_iff] at h h' ⊢
  omega

theorem includes_antisymm (h : p.includes q = true) (h' : q.includes p = true) : p = q := by
  rw [includes_iff] at h h'
  cases p
  cases q
  simp only [CWordsPair.mk.injEq]
  simp only at h h'
  omega

theorem intersects_comm : p.intersects q = q.intersects p := by
  rw [Bool.eq_iff_iff, intersects_iff, intersects_iff]
  exact and_comm

theorem lt_irrefl (p : CWordsPair) : p.lt p = false := by
  rw [← Bool.not_eq_true, lt_iff]
  simp

theorem lt_iff_of_not_intersects (h : p.intersects q = false) : p.lt q = true ↔ p.last < q.first := by
  rw [← Bool.not_eq_true, intersects_iff] at h
  have := p.le
  have := q.le
  rw [lt_iff]
  omega

theorem lt_of_not_lt (h : p.intersects q = false) (hlt : p.lt q = false) : q.lt p = true := by
  rw [← Bool.not_eq_true, lt_iff_of_not_intersects h] at hlt
  rw [intersects_comm] at h
  rw [lt_iff_of_not_intersects h]
  rw [← Bool.not_eq_true, intersects_iff] at h
  omega

end CWordsPair

namespace LeadGenerator
variable {wp : AttrWP} {kept periods : List AttrWP} {fact : LeadFact}

/-- The attributes collected from the spans `seen` of the spans `all`. -/
structure Kept (all seen : List CWordsPair) (kept : List AttrWP) : Prop where
  mem : ∀ k ∈ kept, k.pair ∈ seen
  covered : ∀ e ∈ seen, ∃ k ∈ kept, k.pair.includes e = true
  apart : kept.Pairwise fun a b =>
    ∀ m ∈ all, m.includes a.pair = true → m.includes b.pair = false

theorem Kept.eq_of_mem {all seen : List CWordsPair} (h : Kept all seen kept) {a b : AttrWP}
    (ha : a ∈ kept) (hb : b ∈ kept) {m : CWordsPair} (hm : m ∈ all)
    (hma : m.includes a.pair = true) (hmb : m.includes b.pair = true) : a = b := by
  by_contra hne
  have hsym : Std.Symm fun a b : AttrWP =>
      ∀ m ∈ all, m.includes a.pair = true → m.includes b.pair = false := by
    constructor
    intro a b hab m hm hmb
    by_contra hma
    rw [Bool.not_eq_false] at hma
    rw [hab m hm hma] at hmb
    cases hmb
  have happart := h.apart.forall ha hb hne m hm hma
  rw [hmb] at happart
  cases happart

/-- The loop over the collected attributes, where no span is around two of them. -/
theorem keepMaximal_eq {all : List CWordsPair} (hmem : ∀ k ∈ kept, k.pair ∈ all)
    (hwp : wp.pair ∈ all)
    (happart : kept.Pairwise fun a b =>
      ∀ m ∈ all, m.includes a.pair = true → m.includes b.pair = false) :
    keepMaximal wp kept =
      if kept.any fun k => k.pair.includes wp.pair then (false, kept)
      else (true, kept.filter fun k => !wp.pair.includes k.pair) := by
  induction kept with
  | nil => rfl
  | cons k kept ih =>
    obtain ⟨hk, happart⟩ := List.pairwise_cons.mp happart
    rw [keepMaximal, List.any_cons, List.filter_cons]
    by_cases hkw : k.pair.includes wp.pair = true
    · rw [if_pos hkw, hkw, Bool.true_or, if_pos rfl]
    rw [if_neg hkw, Bool.eq_false_iff.mpr hkw, Bool.false_or]
    by_cases hwk : wp.pair.includes k.pair = true
    · have hothers : ∀ k' ∈ kept, wp.pair.includes k'.pair = false :=
        fun k' hk' => hk k' hk' wp.pair hwp hwk
      have hany : (kept.any fun k => k.pair.includes wp.pair) = false := by
        rw [List.any_eq_false]
        intro k' hk' hk'w
        have hself := hk k' hk' k'.pair (hmem k' (List.mem_cons_of_mem k hk'))
          (CWordsPair.includes_trans hk'w hwk)
        rw [CWordsPair.includes_refl] at hself
        cases hself
      have hfilter : (kept.filter fun k => !wp.pair.includes k.pair) = kept := by
        rw [List.filter_eq_self]
        intro k' hk'
        rw [hothers k' hk', Bool.not_false]
      simp [hwk, hany, hfilter]
    · rw [if_neg hwk, ih (fun k' hk' => hmem k' (List.mem_cons_of_mem k hk')) happart]
      simp only [Bool.eq_false_iff.mpr hwk, Bool.not_false, if_true]
      split_ifs <;> rfl

theorem Kept.skip {all seen : List CWordsPair} (h : Kept all seen kept)
    (hany : (kept.any fun k => k.pair.includes wp.pair) = true) :
    Kept all (seen ++ [wp.pair]) kept where
  mem := fun k hk => List.mem_append_left _ (h.mem k hk)
  covered := by
    intro e he
    rcases List.mem_append.mp he with he | he
    · exact h.covered e he
    · rw [List.mem_singleton.mp he]
      exact List.any_eq_true.mp hany
  apart := h.apart

/-- A span that is in no earlier one takes the place of those that it includes. -/
theorem Kept.push {all seen : List CWordsPair} (h : Kept all seen kept)
    (hany : (kept.any fun k => k.pair.includes wp.pair) = false)
    (horder : (∃ q ∈ seen, q.includes wp.pair = true) ∨
      ∀ q ∈ seen, ∀ m ∈ all, m.includes wp.pair = true → m.includes q = true →
        wp.pair.includes q = true) :
    Kept all (seen ++ [wp.pair]) ((kept.filter fun k => !wp.pair.includes k.pair) ++ [wp]) where
  mem := by
    intro k hk
    rcases List.mem_append.mp hk with hk | hk
    · exact List.mem_append_left _ (h.mem k (List.mem_filter.mp hk).1)
    · rw [List.mem_singleton.mp hk]
      exact List.mem_append_right _ (List.mem_singleton_self _)
  covered := by
    intro e he
    rcases List.mem_append.mp he with he | he
    · obtain ⟨k, hk, hke⟩ := h.covered e he
      by_cases hwk : wp.pair.includes k.pair = true
      · exact ⟨wp, List.mem_append_right _ (List.mem_singleton_self _),
          CWordsPair.includes_trans hwk hke⟩
      · refine ⟨k, List.mem_append_left _ (List.mem_filter.mpr ⟨hk, ?_⟩), hke⟩
        rw [Bool.eq_false_iff.mpr hwk, Bool.not_false]
    · rw [List.mem_singleton.mp he]
      exact ⟨wp, List.mem_append_right _ (List.mem_singleton_self _),
        CWordsPair.includes_refl wp.pair⟩
  apart := by
    rw [List.pairwise_append]
    refine ⟨h.apart.filter _, List.pairwise_singleton _ _, ?_⟩
    intro k hk w hw m hm hmk
    rw [List.mem_singleton.mp hw]
    obtain ⟨hk, hwk⟩ := List.mem_filter.mp hk
    by_contra hmw
    rw [Bool.not_eq_false] at hmw
    rcases horder with ⟨q, hq, hqw⟩ | horder
    · obtain ⟨k', hk', hk'q⟩ := h.covered q hq
      exact List.any_eq_false.mp hany k' hk' (CWordsPair.includes_trans hk'q hqw)
    · rw [horder k.pair (h.mem k hk) m hm hmw hmk] at hwk
      cases hwk

theorem Kept.maximal {all : List CWordsPair} (h : Kept all all kept) (p : CWordsPair) :
    p ∈ kept.map (·.pair) ↔ MaximalIn all p := by
  constructor
  · intro hp
    obtain ⟨k, hk, rfl⟩ := List.mem_map.mp hp
    refine ⟨h.mem k hk, ?_⟩
    intro q hq hqk
    obtain ⟨k', hk', hk'q⟩ := h.covered q hq
    have heq := h.eq_of_mem hk' hk (h.mem k' hk') (CWordsPair.includes_refl k'.pair)
      (CWordsPair.includes_trans hk'q hqk)
    exact CWordsPair.includes_antisymm hqk (heq ▸ hk'q)
  · intro hp
    obtain ⟨k, hk, hkp⟩ := h.covered p hp.1
    exact List.mem_map.mpr ⟨k, hk, hp.2 k.pair (h.mem k hk) hkp⟩

theorem Kept.nodup {all seen : List CWordsPair} (h : Kept all seen kept)
    (hseen : ∀ e ∈ seen, e ∈ all) : (kept.map (·.pair)).Nodup := by
  rw [List.Nodup, List.pairwise_map]
  refine h.apart.imp_of_mem ?_
  intro a b ha _ hab heq
  have := hab a.pair (hseen a.pair (h.mem a ha)) (CWordsPair.includes_refl a.pair)
  rw [heq, CWordsPair.includes_refl] at this
  cases this

/-- No attribute crosses a period. -/
def Fits (periods kept : List AttrWP) : Prop :=
  ∀ k ∈ kept, ∀ e ∈ periods, k.pair.intersects e.pair = true → k.pair = e.pair

theorem fits_of_not_conflicts (h : conflicts wp periods = false) : Fits periods [wp] := by
  intro k hk e he hi
  rw [List.mem_singleton.mp hk] at hi ⊢
  have := List.any_eq_false.mp h e he
  simpa [hi] using this

/-- The loop over the fields collects the maximal spans of an orderly fact. -/
theorem collect_kept (hall : OrderlySpans fact.spans) {fields : List FactFieldDescr}
    {seen : List CWordsPair} {result : List AttrWP}
    (hspans : fact.spans = seen ++ (fields.filterMap (fieldAttr fact)).map (·.pair))
    (h : Kept fact.spans seen kept) (hfits : Fits periods kept)
    (hcollect : collect fact periods fields kept = some result) :
    Kept fact.spans fact.spans result ∧ Fits periods result := by
  induction fields generalizing seen kept with
  | nil =>
    rw [List.filterMap_nil, List.map_nil, List.append_nil] at hspans
    rw [collect, Option.some.injEq] at hcollect
    rw [← hcollect]
    refine ⟨?_, hfits⟩
    have hkept := h
    rw [← hspans] at hkept
    exact hkept
  | cons descr fields ih =>
    rw [collect] at hcollect
    cases hattr : fieldAttr fact descr with
    | none =>
      rw [hattr] at hcollect
      rw [List.filterMap_cons_none hattr] at hspans
      exact ih hspans h hfits hcollect
    | some wp =>
      rw [hattr] at hcollect
      rw [List.filterMap_cons_some hattr, List.map_cons] at hspans
      have hseen : ∀ e ∈ seen, e ∈ fact.spans := by
        intro e he
        rw [hspans]
        exact List.mem_append_left _ he
      have hwp : wp.pair ∈ fact.spans := by
        rw [hspans]
        exact List.mem_append_right _ List.mem_cons_self
      have hnext := hspans
      rw [List.append_cons] at hnext
      simp only at hcollect
      rw [keepMaximal_eq (fun k hk => hseen k.pair (h.mem k hk)) hwp h.apart] at hcollect
      cases hany : kept.any fun k => k.pair.includes wp.pair with
      | true =>
        rw [hany, if_pos rfl] at hcollect
        exact ih hnext (h.skip hany) hfits hcollect
      | false =>
        rw [hany] at hcollect
        cases hconf : conflicts wp periods with
        | true => simp [hconf] at hcollect
        | false =>
          rw [hconf] at hcollect
          refine ih hnext (h.push hany (hall.order seen wp.pair _ hspans)) ?_ hcollect
          intro k hk
          rcases List.mem_append.mp hk with hk | hk
          · exact hfits k (List.mem_filter.mp hk).1
          · exact fits_of_not_conflicts hconf k hk

/-- The periods of a lead from the left to the right, numbered as they came. -/
structure PeriodsOk (periods : List AttrWP) : Prop where
  sorted : periods.Pairwise fun a b => a.pair.last < b.pair.first
  index_lt : ∀ e ∈ periods, e.index < periods.length
  index_nodup : (periods.map (·.index)).Nodup

theorem findPeriod_some {e : AttrWP} (hfits : Fits periods [wp])
    (h : findPeriod wp periods = some e) : e ∈ periods ∧ wp.pair = e.pair := by
  rw [findPeriod, Option.filter_eq_some_iff] at h
  obtain ⟨hfind, hwe⟩ := h
  have hmem := List.mem_of_find?_eq_some hfind
  have hew := List.find?_some hfind
  rw [Bool.not_eq_true'] at hew hwe
  refine ⟨hmem, ?_⟩
  by_contra hne
  have hi : wp.pair.intersects e.pair = false := by
    by_contra hi
    rw [Bool.not_eq_false] at hi
    exact hne (hfits wp (List.mem_singleton_self wp) e hmem hi)
  have hlt := CWordsPair.lt_of_not_lt hi hwe
  rw [AttrWP.less, hlt] at hew
  cases hew

theorem findPeriod_none (hok : PeriodsOk periods) (hfits : Fits periods [wp])
    (h : findPeriod wp periods = none) {e : AttrWP} (he : e ∈ periods) :
    wp.pair.intersects e.pair = false := by
  by_contra hi
  rw [Bool.not_eq_false] at hi
  have heq := hfits wp (List.mem_singleton_self wp) e he hi
  have hself : e.less wp = false := by
    rw [AttrWP.less, heq]
    exact CWordsPair.lt_irrefl _
  rw [findPeriod, Option.filter_eq_none_iff] at h
  cases hfind : periods.find? fun e => !e.less wp with
  | none =>
    have := List.find?_eq_none.mp hfind e he
    simp [hself] at this
  | some d =>
    have hnot := h d hfind
    rw [Bool.not_eq_true', Bool.not_eq_false] at hnot
    obtain ⟨hd, before, after, rfl, hbefore⟩ := List.find?_eq_some_iff_append.mp hfind
    obtain ⟨_, hsorted, _⟩ := List.pairwise_append.mp hok.sorted
    rcases List.mem_append.mp he with he | he
    · have := hbefore e he
      simp [hself] at this
    rcases List.mem_cons.mp he with rfl | he
    · rw [AttrWP.less, heq, CWordsPair.lt_irrefl] at hnot
      cases hnot
    -- the period found is before the one with the span, so the span is not less than it
    · have hde := (List.pairwise_cons.mp hsorted).1 e he
      rw [AttrWP.less, heq, CWordsPair.lt_iff] at hnot
      have := e.pair.le
      have := d.pair.le
      omega

theorem perm_insertBy_less (h : ∀ e ∈ periods, wp.pair.intersects e.pair = false) :
    (OrderedSet.insertBy AttrWP.less wp periods).Perm (wp :: periods) := by
  induction periods with
  | nil => exact List.Perm.refl _
  | cons e periods ih =>
    rw [OrderedSet.insertBy]
    split_ifs with hlt hgt
    · exact List.Perm.refl _
    · have htail := ih fun d hd => h d (List.mem_cons_of_mem e hd)
      exact (htail.cons e).trans (List.Perm.swap wp e periods)
    · have hi := h e List.mem_cons_self
      exact absurd (CWordsPair.lt_of_not_lt hi (Bool.eq_false_iff.mpr hlt)) hgt

theorem sorted_insertBy_less (hsorted : periods.Pairwise fun a b => a.pair.last < b.pair.first)
    (h : ∀ e ∈ periods, wp.pair.intersects e.pair = false) :
    (OrderedSet.insertBy AttrWP.less wp periods).Pairwise
      fun a b => a.pair.last < b.pair.first := by
  induction periods with
  | nil => exact List.pairwise_singleton _ _
  | cons e periods ih =>
    obtain ⟨he, hperiods⟩ := List.pairwise_cons.mp hsorted
    have hi := h e List.mem_cons_self
    have htail : ∀ d ∈ periods, wp.pair.intersects d.pair = false :=
      fun d hd => h d (List.mem_cons_of_mem e hd)
    rw [OrderedSet.insertBy]
    split_ifs with hlt hgt
    · have hwe := (CWordsPair.lt_iff_of_not_intersects hi).mp hlt
      refine List.pairwise_cons.mpr ⟨?_, hsorted⟩
      intro d hd
      rcases List.mem_cons.mp hd with rfl | hd
      · exact hwe
      · have := he d hd
        have := e.pair.le
        omega
    · rw [CWordsPair.intersects_comm] at hi
      have hew := (CWordsPair.lt_iff_of_not_intersects hi).mp hgt
      refine List.pairwise_cons.mpr ⟨?_, ih hperiods htail⟩
      intro d hd
      rcases OrderedSet.mem_of_mem_insertBy hd with rfl | hd
      · exact hew
      · exact he d hd
    · exact hsorted

theorem PeriodsOk.insert (hok : PeriodsOk periods)
    (h : ∀ e ∈ periods, wp.pair.intersects e.pair = false) :
    PeriodsOk (OrderedSet.insertBy AttrWP.less { wp with index := periods.length } periods) := by
  have hperm := @perm_insertBy_less { wp with index := periods.length } periods h
  constructor
  · exact @sorted_insertBy_less { wp with index := periods.length } periods hok.sorted h
  · intro e he
    rw [hperm.length_eq, List.length_cons]
    rcases List.mem_cons.mp (hperm.mem_iff.mp he) with rfl | he
    · exact Nat.lt_succ_self _
    · exact Nat.lt_succ_of_lt (hok.index_lt e he)
  · rw [(hperm.map (·.index)).nodup_iff, List.map_cons, List.nodup_cons]
    refine ⟨?_, hok.index_nodup⟩
    intro hmem
    obtain ⟨e, he, heq⟩ := List.mem_map.mp hmem
    exact absurd (hok.index_lt e he) (by rw [heq]; exact lt_irrefl _)

/-- The spans of the collected attributes are marked, each under the index of its period. -/
theorem insertPeriods_ok (hok : PeriodsOk periods) (hfits : Fits periods kept)
    (hapart : kept.Pairwise fun a b => a.pair.intersects b.pair = false) :
    PeriodsOk (insertPeriods kept periods).1 ∧
      (∀ e ∈ periods, e ∈ (insertPeriods kept periods).1) ∧
      (insertPeriods kept periods).2.map (·.pair) = kept.map (·.pair) ∧
      ∀ a ∈ (insertPeriods kept periods).2, a ∈ (insertPeriods kept periods).1 := by
  induction kept generalizing periods with
  | nil =>
    refine ⟨hok, fun e he => he, rfl, ?_⟩
    intro a ha
    cases ha
  | cons wp kept ih =>
    obtain ⟨hwp, hapart⟩ := List.pairwise_cons.mp hapart
    have hfitsWp : Fits periods [wp] := by
      intro k hk
      rw [List.mem_singleton.mp hk]
      exact hfits wp List.mem_cons_self
    have hfitsKept : Fits periods kept := fun k hk => hfits k (List.mem_cons_of_mem wp hk)
    rw [insertPeriods]
    cases hfind : findPeriod wp periods with
    | some e =>
      obtain ⟨he, heq⟩ := findPeriod_some hfitsWp hfind
      obtain ⟨hok', hkeep, hpairs, hin⟩ := ih hok hfitsKept hapart
      refine ⟨hok', hkeep, ?_, ?_⟩
      · rw [List.map_cons, List.map_cons, hpairs, heq]
      · intro a ha
        rcases List.mem_cons.mp ha with rfl | ha
        · exact hkeep a he
        · exact hin a ha
    | none =>
      have hnot := fun e he => findPeriod_none hok hfitsWp hfind (e := e) he
      have hmem : ∀ e, e ∈ OrderedSet.insertBy AttrWP.less { wp with index := periods.length }
          periods ↔ e = { wp with index := periods.length } ∨ e ∈ periods := by
        intro e
        rw [(@perm_insertBy_less { wp with index := periods.length } periods hnot).mem_iff,
          List.mem_cons]
      have hfits' : Fits (OrderedSet.insertBy AttrWP.less { wp with index := periods.length }
          periods) kept := by
        intro k hk e he hi
        rcases (hmem e).mp he with rfl | he
        · have := hwp k hk
          rw [CWordsPair.intersects_comm] at this
          rw [this] at hi
          cases hi
        · exact hfitsKept k hk e he hi
      obtain ⟨hok', hkeep, hpairs, hin⟩ := ih (hok.insert hnot) hfits' hapart
      refine ⟨hok', ?_, ?_, ?_⟩
      · intro e he
        exact hkeep e ((hmem e).mpr (Or.inr he))
      · rw [List.map_cons, List.map_cons, hpairs]
      · intro a ha
        rcases List.mem_cons.mp ha with rfl | ha
        · exact hkeep _ ((hmem _).mpr (Or.inl rfl))
        · exact hin a ha

theorem PeriodsOk.distinct {lead : SentenceLead} (h : PeriodsOk lead.periods) : lead.Distinct := by
  have hindex := List.pairwise_map.mp h.index_nodup
  refine (h.sorted.and hindex).imp ?_
  intro a b hab
  refine ⟨?_, hab.2⟩
  rw [← Bool.not_eq_true, CWordsPair.intersects_iff]
  have := hab.1
  omega

theorem Kept.apart_of_orderly (hall : OrderlySpans fact.spans)
    (h : Kept fact.spans fact.spans kept) :
    kept.Pairwise fun a b => a.pair.intersects b.pair = false := by
  have hnodup := List.pairwise_map.mp (h.nodup fun e he => he)
  refine hnodup.imp_of_mem ?_
  intro a b ha hb hne
  by_contra hi
  rw [Bool.not_eq_false] at hi
  have hmaxA := (h.maximal a.pair).mp (List.mem_map_of_mem ha)
  have hmaxB := (h.maximal b.pair).mp (List.mem_map_of_mem hb)
  exact hne (hall.maximal a.pair b.pair hmaxA hmaxB hi)

/-- A lead that takes an orderly fact has the spans of the fact among its periods. -/
theorem addToSentencePeriods_ok {lead lead' : SentenceLead} {attrs : List AttrWP}
    (hall : OrderlySpans fact.spans) (hok : PeriodsOk lead.periods)
    (h : addToSentencePeriods fact lead = some (lead', attrs)) :
    PeriodsOk lead'.periods ∧ lead'.leadID = lead.leadID ∧ AttrsOf fact lead' attrs := by
  rw [addToSentencePeriods] at h
  split_ifs at h with hinfo
  cases hcollect : collect fact lead.periods fact.factType.fields [] with
  | none =>
    rw [hcollect] at h
    cases h
  | some fieldPeriods =>
    rw [hcollect, Option.some.injEq, Prod.mk.injEq] at h
    obtain ⟨rfl, rfl⟩ := h
    have hempty : Kept fact.spans [] [] := by
      constructor
      · intro k hk
        cases hk
      · intro e he
        cases he
      · exact List.Pairwise.nil
    have hfitsNil : Fits lead.periods [] := by
      intro k hk
      cases hk
    obtain ⟨hkept, hfits⟩ := collect_kept hall rfl hempty hfitsNil hcollect
    obtain ⟨hok', _, hpairs, hin⟩ :=
      insertPeriods_ok hok hfits (hkept.apart_of_orderly hall)
    refine ⟨hok', rfl, ?_, ?_, ?_⟩
    · rw [hpairs]
      exact hkept.nodup fun e he => he
    · intro p
      rw [hpairs]
      exact hkept.maximal p
    · intro a ha
      exact ⟨a, hin a ha, rfl, rfl⟩

theorem collect_nil_isSome (fields : List FactFieldDescr) (kept : List AttrWP) :
    (collect fact [] fields kept).isSome = true := by
  induction fields generalizing kept with
  | nil => rfl
  | cons descr fields ih =>
    rw [collect]
    cases hattr : fieldAttr fact descr with
    | none => exact ih kept
    | some wp =>
      simp only [conflicts, List.any_nil, Bool.false_eq_true, if_false]
      split_ifs
      · exact ih _
      · exact ih _

theorem addToSentencePeriods_new (fact : LeadFact) (leadID : ℕ) :
    ∃ r, addToSentencePeriods fact ⟨[], leadID, fact.leadInfo⟩ = some r := by
  obtain ⟨fieldPeriods, hcollect⟩ :=
    Option.isSome_iff_exists.mp (@collect_nil_isSome fact fact.factType.fields [])
  rw [addToSentencePeriods, if_pos rfl, hcollect]
  exact ⟨_, rfl⟩

/-- The leads of a sentence have good periods, and different ids that are all given out. -/
structure GeneratorOk (g : LeadGenerator) : Prop where
  periods : ∀ lead ∈ g.sentencePeriods, PeriodsOk lead.periods
  ids : (g.sentencePeriods.map (·.leadID)).Nodup
  id_lt : ∀ lead ∈ g.sentencePeriods, lead.leadID < g.maxLeadID

theorem addToLeads_ok {leads leads' : List SentenceLead} {leadID : ℕ} {attrs : List AttrWP}
    (hall : OrderlySpans fact.spans) (hok : ∀ lead ∈ leads, PeriodsOk lead.periods)
    (h : addToLeads fact leads = some (leads', leadID, attrs)) :
    (∀ lead ∈ leads', PeriodsOk lead.periods) ∧
      leads'.map (·.leadID) = leads.map (·.leadID) ∧
      ∃ lead ∈ leads', lead.leadID = leadID ∧ AttrsOf fact lead attrs := by
  induction leads generalizing leads' with
  | nil => cases h
  | cons lead leads ih =>
    have hlead := hok lead List.mem_cons_self
    have hleads : ∀ l ∈ leads, PeriodsOk l.periods :=
      fun l hl => hok l (List.mem_cons_of_mem lead hl)
    rw [addToLeads] at h
    cases hadd : addToSentencePeriods fact lead with
    | some r =>
      obtain ⟨lead', attrs'⟩ := r
      rw [hadd] at h
      simp only [Option.some.injEq, Prod.mk.injEq] at h
      obtain ⟨rfl, rfl, rfl⟩ := h
      obtain ⟨hok', hid, hattrs⟩ := addToSentencePeriods_ok hall hlead hadd
      refine ⟨?_, ?_, lead', List.mem_cons_self, hid, hattrs⟩
      · intro l hl
        rcases List.mem_cons.mp hl with rfl | hl
        · exact hok'
        · exact hleads l hl
      · rw [List.map_cons, List.map_cons, hid]
    | none =>
      rw [hadd] at h
      simp only [Option.map_eq_some_iff, Prod.mk.injEq] at h
      obtain ⟨⟨rest, r⟩, hrest, rfl, rfl⟩ := h
      obtain ⟨hok', hids, l, hl, hattrs⟩ := ih hleads hrest
      refine ⟨?_, ?_, l, List.mem_cons_of_mem lead hl, hattrs⟩
      · intro l hl
        rcases List.mem_cons.mp hl with rfl | hl
        · exact hlead
        · exact hok' l hl
      · rw [List.map_cons, List.map_cons, hids]

/-- One orderly fact keeps the leads good and is marked in one of them. -/
theorem addFact_ok {g : LeadGenerator} (hall : OrderlySpans fact.spans) (hok : GeneratorOk g) :
    GeneratorOk (g.addFact fact).1 ∧ Marked fact (g.addFact fact) := by
  rw [addFact]
  cases hadd : addToLeads fact g.sentencePeriods with
  | some r =>
    obtain ⟨leads, leadID, attrs⟩ := r
    obtain ⟨hperiods, hids, lead, hlead, hid, hattrs⟩ := addToLeads_ok hall hok.periods hadd
    have hnodup := hok.ids
    rw [← hids] at hnodup
    refine ⟨⟨hperiods, hnodup, ?_⟩, fun l hl => (hperiods l hl).distinct, hnodup,
      lead, hlead, hid, hattrs⟩
    intro l hl
    have hmem : l.leadID ∈ leads.map (·.leadID) := List.mem_map_of_mem hl
    rw [hids] at hmem
    obtain ⟨l', hl', heq⟩ := List.mem_map.mp hmem
    exact heq ▸ hok.id_lt l' hl'
  | none =>
    obtain ⟨⟨lead, attrs⟩, hnew⟩ := addToSentencePeriods_new fact g.maxLeadID
    have hstart : PeriodsOk ([] : List AttrWP) := by
      constructor
      · exact List.Pairwise.nil
      · intro e he
        cases he
      · exact List.nodup_nil
    obtain ⟨hlead, hid, hattrs⟩ := addToSentencePeriods_ok hall hstart hnew
    have hperiods : ∀ l ∈ g.sentencePeriods ++ [lead], PeriodsOk l.periods := by
      intro l hl
      rcases List.mem_append.mp hl with hl | hl
      · exact hok.periods l hl
      · rw [List.mem_singleton.mp hl]
        exact hlead
    have hnodup : ((g.sentencePeriods ++ [lead]).map (·.leadID)).Nodup := by
      rw [List.map_append, List.map_singleton, hid, List.nodup_append]
      refine ⟨hok.ids, List.nodup_singleton _, ?_⟩
      intro id hmem id' hid' heq
      obtain ⟨l, hl, rfl⟩ := List.mem_map.mp hmem
      rw [List.mem_singleton.mp hid'] at heq
      exact absurd (hok.id_lt l hl) (by rw [heq]; exact lt_irrefl _)
    simp only [hnew]
    refine ⟨⟨hperiods, hnodup, ?_⟩, fun l hl => (hperiods l hl).distinct, hnodup,
      lead, List.mem_append_right _ (List.mem_singleton_self _), hid, hattrs⟩
    intro l hl
    rcases List.mem_append.mp hl with hl | hl
    · exact Nat.lt_succ_of_lt (hok.id_lt l hl)
    · rw [List.mem_singleton.mp hl, hid]
      exact Nat.lt_succ_self _

theorem addFacts_ok {facts : List LeadFact} (h : ∀ fact ∈ facts, OrderlySpans fact.spans) :
    GeneratorOk (addFacts facts) := by
  induction facts using List.reverseRecOn with
  | nil =>
    constructor
    · intro l hl
      cases hl
    · exact List.nodup_nil
    · intro l hl
      cases hl
  | append_singleton facts fact ih =>
    rw [addFacts, List.foldl_append]
    have hfacts := ih fun f hf => h f (List.mem_append_left _ hf)
    exact (addFact_ok (h fact (List.mem_append_right _ (List.mem_singleton_self _))) hfacts).1

/-- As long as the spans of every fact are orderly, each fact is marked in a lead whose periods are
apart. -/
theorem addFact_marked (before : List LeadFact) (fact : LeadFact)
    (h : ∀ f ∈ before ++ [fact], OrderlySpans f.spans) :
    Marked fact ((addFacts before).addFact fact) := by
  have hbefore := addFacts_ok fun f hf => h f (List.mem_append_left _ hf)
  have hfact := h fact (List.mem_append_right _ (List.mem_singleton_self _))
  exact (addFact_ok hfact hbefore).2

/-- A fact with three text fields. -/
def threeFields (first second third : CWordsPair) : LeadFact where
  factType :=
    { fields := [⟨"a", .textField, []⟩, ⟨"b", .textField, []⟩, ⟨"c", .textField, []⟩]
      nodup := by decide }
  leadInfo := ⟨-1, -1⟩
  getValue := fun name =>
    if name = "a" then some ⟨first, false, [65]⟩
    else if name = "b" then some ⟨second, false, [66]⟩
    else some ⟨third, false, [67]⟩

theorem le_wordsFrom (first : ℤ) (n : ℕ) : first ≤ first + n :=
  Int.le_add_of_nonneg_right (Int.natCast_nonneg n)

/-- A word with `n` more words behind it. -/
def wordsFrom (first : ℤ) (n : ℕ) : CWordsPair := ⟨first, first + n, le_wordsFrom first n⟩

/-- The two inner spans come first. -/
def outerLast : LeadFact := threeFields (wordsFrom 1 0) (wordsFrom 3 0) (wordsFrom 1 2)

/-- The outer span comes first. -/
def outerFirst : LeadFact := threeFields (wordsFrom 1 2) (wordsFrom 1 0) (wordsFrom 3 0)

theorem orderly_outerFirst : OrderlySpans outerFirst.spans := by
  have hmem : ⟨1, 3, by decide⟩ ∈ outerFirst.spans := by decide
  have hincludes : ∀ p ∈ outerFirst.spans, CWordsPair.includes ⟨1, 3, by decide⟩ p = true := by
    decide
  constructor
  · intro p q hp hq _
    have hp' := hp.2 ⟨1, 3, by decide⟩ hmem (hincludes p hp.1)
    have hq' := hq.2 ⟨1, 3, by decide⟩ hmem (hincludes q hq.1)
    exact hp'.symm.trans hq'
  · intro before p after hspans
    cases before with
    | nil =>
      right
      intro q hq
      cases hq
    | cons first before =>
      left
      have hfirst : ⟨1, 3, by decide⟩ = first := (List.cons.inj hspans).1
      refine ⟨first, List.mem_cons_self, ?_⟩
      rw [← hfirst]
      apply hincludes
      rw [hspans]
      exact List.mem_append_right _ List.mem_cons_self

theorem addFact_marked_outerFirst : Marked outerFirst ((addFacts []).addFact outerFirst) := by
  apply addFact_marked
  intro f hf
  rw [List.nil_append, List.mem_singleton] at hf
  rw [hf]
  exact orderly_outerFirst

/-- Where the outer span comes last it erases one of the two inner ones only: the other one stays
and is marked too. -/
theorem not_marked_outerLast : ¬ Marked outerLast ((addFacts []).addFact outerLast) := by
  intro h
  obtain ⟨lead, _, _, hattrs⟩ := h.attrs
  have hmem : ⟨3, 3, le_refl 3⟩ ∈ ((addFacts []).addFact outerLast).2.2.map (·.pair) := by decide
  have hmax := (hattrs.spans ⟨3, 3, le_refl 3⟩).mp hmem
  have heq := hmax.2 ⟨1, 3, by decide⟩ (by decide) (by decide)
  exact absurd heq (by decide)

end LeadGenerator

end TomitaParser.Rusie
