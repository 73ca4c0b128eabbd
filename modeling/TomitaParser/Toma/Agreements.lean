import Mathlib.Data.List.Induction
import TomitaParser.Toma.Kleene
/-! # Agreements of a rule

The agreements with one number are checked as one group, and the grammar keeps the groups of two. -/

namespace TomitaParser
open OrderedSet

/-- The agreements of each item. -/
def RuleProto.agrLists (rule : RuleProto) : List (List AgrProto) := rule.items.map (·.agrs)

/-- Every agreement of a right part with the number of its item. -/
def RuleProto.carriers (rule : RuleProto) : List (ℕ × AgrProto) :=
  rule.agrLists.zipIdx.flatMap fun item => item.1.map (item.2, ·)

/-- The agreements with one number, by ascending number. -/
def agreementGroups (rule : RuleProto) : List (ℕ × List AgrProto) :=
  (insertAll natLt (rule.agrLists.flatten.map (·.id)) []).map fun id =>
    (id, rule.agrLists.flatten.filter (·.id == id))

/-- `CheckBinaryAgreements` for one group: the text of its error. -/
def groupError (rule : RuleProto) (id : ℕ) (a : List AgrProto) : Option String :=
  let ruleError (text : String) := "Rule \"" ++ rule.name ++ "\": " ++ text
  match a with
  | [_] => some <| ruleError ("Found unpaired binary agreement postfixes with id = " ++
      toString id ++ " (must have 2 or more items with same id).")
  | a₀ :: rest =>
    if rest.any fun b => a₀.type != b.type || a₀.negative != b.negative then
      some <| ruleError ("Inconsistent binary agreement with id = " ++ toString id ++
        ". All items with equal id must be exactly the same.")
    else none
  | [] => none

/-- The errors that `CheckBinaryAgreements` adds. -/
def binaryAgreementErrors (rule : RuleProto) : List String :=
  (agreementGroups rule).filterMap fun group => groupError rule group.1 group.2

def checkBinaryAgreements (rule : RuleProto) : Bool := (binaryAgreementErrors rule).isEmpty

/-- `ECoordFunc`. -/
inductive CoordFunc where
  | subjVerb | subjAdjShort | gendreNumberCase | gendreNumber | numberCaseAgr | caseAgr | numberAgr
  | anyFunc | checkLettForAbbrevs | checkQuoted | checkLQuoted | checkRQuoted | feminCaseAgr
  | fioAgr | gendreCase | izafetAgr | afterNumAgr | geoAgr
deriving DecidableEq, Repr

def AgrType.procedure : AgrType → CoordFunc
  | .any => .anyFunc
  | .genderNumberCase => .gendreNumberCase
  | .numberCase => .numberCaseAgr
  | .case => .caseAgr
  | .genderNumber => .gendreNumber
  | .genderCase => .gendreCase
  | .subjectPredicate => .subjVerb
  | .fio => .fioAgr
  | .femCase => .feminCaseAgr
  | .izafet => .izafetAgr
  | .afterNumber => .afterNumAgr
  | .geo => .geoAgr

/-- `SAgr`. -/
structure SAgr where
  agreeItems : List ℕ
  agrProcedure : CoordFunc
  negativeAgreement : Bool
deriving DecidableEq, Repr

/-- Put one agreement into the group of its number, a new one behind the others. -/
def addAgreement (c : ℕ × AgrProto) : List (ℕ × SAgr) → List (ℕ × SAgr)
  | [] => [(c.2.id, ⟨[c.1], c.2.type.procedure, c.2.negative⟩)]
  | (id, g) :: groups =>
    if id = c.2.id then (id, { g with agreeItems := g.agreeItems ++ [c.1] }) :: groups
    else (id, g) :: addAgreement c groups

/-- `tmpArgs` of `ConvertReduceAgrInfo`, each group under its number. -/
def tmpArgs (rule : RuleProto) : List (ℕ × SAgr) :=
  rule.carriers.foldl (fun groups c => addAgreement c groups) []

/-- The groups that are copied into `m_RulesAgrs`. -/
def pairedAgrs (rule : RuleProto) : List (ℕ × SAgr) :=
  (tmpArgs rule).filter fun group => group.2.agreeItems.length == 2

/-- The quotation options of an item as unary agreements. -/
def quotationAgrs (i : ℕ) (p : PostfixProto) : List SAgr :=
  let unary (value : EOption) (agrProcedure : CoordFunc) : List SAgr :=
    if value ≠ .undef then [⟨[i], agrProcedure, value == .deny⟩] else []
  if p.leftQuoted ≠ .undef ∧ p.rightQuoted = p.leftQuoted then unary p.leftQuoted .checkQuoted
  else unary p.leftQuoted .checkLQuoted ++ unary p.rightQuoted .checkRQuoted

/-- `ConvertReduceAgrInfo`: the agreements `m_RulesAgrs` of a rule. -/
def convertReduceAgrInfo (rule : RuleProto) : List SAgr :=
  (pairedAgrs rule).map (·.2) ++
    rule.items.zipIdx.flatMap fun item => quotationAgrs item.2 item.1.term.termPostfix

/-- The number of items that carry an agreement with the number `id`. -/
def carryingItems (id : ℕ) (agrLists : List (List AgrProto)) : ℕ :=
  agrLists.countP fun agrs => agrs.any (·.id == id)

/-- The number of agreements with the number `id`. -/
def occurrences (id : ℕ) (agrLists : List (List AgrProto)) : ℕ :=
  agrLists.flatten.countP (·.id == id)

/-- The agreements with a number that two or more items carry have their entry among the rule's
agreements; it mentions each of these items, with their type and polarity. -/
def RuleProto.Enforced (rule : RuleProto) : Prop :=
  ∀ c ∈ rule.carriers, 2 ≤ carryingItems c.2.id rule.agrLists →
    ∃ entry, (c.2.id, entry) ∈ pairedAgrs rule ∧ entry ∈ convertReduceAgrInfo rule ∧
      c.1 ∈ entry.agreeItems ∧ entry.agrProcedure = c.2.type.procedure ∧
      entry.negativeAgreement = c.2.negative

/-- A number that two or more items carry occurs exactly twice. -/
def Paired (agrLists : List (List AgrProto)) : Prop :=
  ∀ id, 2 ≤ carryingItems id agrLists → occurrences id agrLists = 2

/-- The agreements with one number agree in type and polarity. -/
def Consistent (agrLists : List (List AgrProto)) : Prop :=
  ∀ a ∈ agrLists.flatten, ∀ b ∈ agrLists.flatten, a.id = b.id →
    a.type = b.type ∧ a.negative = b.negative

theorem map_snd_carriers (rule : RuleProto) :
    rule.carriers.map (·.2) = rule.agrLists.flatten := by
  have h (L : List (List AgrProto)) (k : ℕ) :
      ((L.zipIdx k).flatMap fun item => item.1.map (item.2, ·)).map (·.2) = L.flatten := by
    induction L generalizing k with
    | nil => rfl
    | cons agrs L ih =>
      rw [List.zipIdx_cons, List.flatMap_cons, List.map_append, ih, List.flatten_cons,
        List.map_map]
      congr 1
      exact List.map_id' agrs
  exact h rule.agrLists 0

theorem snd_mem_of_mem_carriers {rule : RuleProto} {c : ℕ × AgrProto} (h : c ∈ rule.carriers) :
    c.2 ∈ rule.agrLists.flatten := by
  rw [← map_snd_carriers]
  exact List.mem_map_of_mem h

/-- What `tmpArgs` holds after the agreements `cs`. -/
structure Grouped (cs : List (ℕ × AgrProto)) (groups : List (ℕ × SAgr)) : Prop where
  nodup : (groups.map (·.1)).Nodup
  items : ∀ p ∈ groups, p.2.agreeItems = (cs.filter (·.2.id == p.1)).map (·.1)
  first : ∀ p ∈ groups, ∃ c ∈ cs, c.2.id = p.1 ∧ p.2.agrProcedure = c.2.type.procedure ∧
    p.2.negativeAgreement = c.2.negative
  present : ∀ c ∈ cs, c.2.id ∈ groups.map (·.1)

theorem map_fst_addAgreement (c : ℕ × AgrProto) (groups : List (ℕ × SAgr)) :
    (addAgreement c groups).map (·.1) =
      if c.2.id ∈ groups.map (·.1) then groups.map (·.1) else groups.map (·.1) ++ [c.2.id] := by
  induction groups with
  | nil => rfl
  | cons p groups ih =>
    obtain ⟨id, g⟩ := p
    rw [addAgreement]
    by_cases h : id = c.2.id
    · simp [h]
    · have h' : c.2.id ≠ id := fun heq => h heq.symm
      simp only [if_neg h, List.map_cons, ih, List.mem_cons, h', false_or]
      split_ifs <;> rfl

theorem mem_addAgreement {c : ℕ × AgrProto} {groups : List (ℕ × SAgr)} {p : ℕ × SAgr}
    (hn : (groups.map (·.1)).Nodup) (hp : p ∈ addAgreement c groups) :
    (p ∈ groups ∧ p.1 ≠ c.2.id) ∨
    (∃ g, (c.2.id, g) ∈ groups ∧ p = (c.2.id, { g with agreeItems := g.agreeItems ++ [c.1] })) ∨
    (c.2.id ∉ groups.map (·.1) ∧ p = (c.2.id, ⟨[c.1], c.2.type.procedure, c.2.negative⟩)) := by
  induction groups with
  | nil => exact Or.inr (Or.inr ⟨by simp, List.mem_singleton.mp hp⟩)
  | cons q groups ih =>
    obtain ⟨id, g⟩ := q
    obtain ⟨hid, hn⟩ := List.nodup_cons.mp hn
    rw [addAgreement] at hp
    by_cases h : id = c.2.id
    · rw [if_pos h] at hp
      rcases List.mem_cons.mp hp with rfl | hp
      · exact Or.inr (Or.inl ⟨g, by simp [h], by rw [h]⟩)
      · apply Or.inl
        refine ⟨List.mem_cons_of_mem _ hp, fun heq => hid ?_⟩
        exact List.mem_map.mpr ⟨p, hp, heq.trans h.symm⟩
    · rw [if_neg h] at hp
      rcases List.mem_cons.mp hp with rfl | hp
      · exact Or.inl ⟨List.mem_cons_self, h⟩
      · rcases ih hn hp with ⟨hp, hne⟩ | ⟨g', hg', rfl⟩ | ⟨hnew, rfl⟩
        · exact Or.inl ⟨List.mem_cons_of_mem _ hp, hne⟩
        · exact Or.inr (Or.inl ⟨g', List.mem_cons_of_mem _ hg', rfl⟩)
        · apply Or.inr
          apply Or.inr
          refine ⟨?_, rfl⟩
          rw [List.map_cons, List.mem_cons, not_or]
          exact ⟨fun heq => h heq.symm, hnew⟩

theorem Grouped.add {cs : List (ℕ × AgrProto)} {groups : List (ℕ × SAgr)} (h : Grouped cs groups)
    (c : ℕ × AgrProto) : Grouped (cs ++ [c]) (addAgreement c groups) where
  nodup := by
    rw [map_fst_addAgreement]
    split_ifs with hc
    · exact h.nodup
    · exact List.nodup_append.mpr ⟨h.nodup, List.nodup_singleton _, by
        rintro a ha b hb rfl
        exact hc (List.mem_singleton.mp hb ▸ ha)⟩
  items := by
    intro p hp
    rw [List.filter_append, List.map_append]
    rcases mem_addAgreement h.nodup hp with ⟨hp, hne⟩ | ⟨g, hg, rfl⟩ | ⟨hnew, rfl⟩
    · have hne' : ¬ c.2.id = p.1 := fun heq => hne heq.symm
      simp [h.items p hp, hne']
    · have hitems : g.agreeItems = (cs.filter (·.2.id == c.2.id)).map (·.1) := h.items _ hg
      simp [hitems]
    · have hnone : cs.filter (fun d => d.2.id == c.2.id) = [] := by
        apply List.filter_eq_nil_iff.mpr
        intro d hd heq
        exact hnew (beq_iff_eq.mp heq ▸ h.present d hd)
      simp [hnone]
  first := by
    intro p hp
    rcases mem_addAgreement h.nodup hp with ⟨hp, hne⟩ | ⟨g, hg, rfl⟩ | ⟨hnew, rfl⟩
    · obtain ⟨d, hd, hrest⟩ := h.first p hp
      exact ⟨d, List.mem_append_left _ hd, hrest⟩
    · obtain ⟨d, hd, hrest⟩ := h.first _ hg
      exact ⟨d, List.mem_append_left _ hd, hrest⟩
    · exact ⟨c, List.mem_append_right _ (List.mem_singleton_self c), rfl, rfl, rfl⟩
  present := by
    intro d hd
    rw [map_fst_addAgreement]
    rcases List.mem_append.mp hd with hd | hd
    · have := h.present d hd
      split_ifs
      · exact this
      · exact List.mem_append_left _ this
    · rw [List.mem_singleton.mp hd]
      split_ifs with hc
      · exact hc
      · exact List.mem_append_right _ (List.mem_singleton_self _)

theorem tmpArgs_grouped (rule : RuleProto) : Grouped rule.carriers (tmpArgs rule) := by
  rw [tmpArgs]
  generalize rule.carriers = cs
  induction cs using List.reverseRecOn with
  | nil => exact ⟨List.nodup_nil, by simp, by simp, by simp⟩
  | append_singleton cs c ih =>
    rw [List.foldl_append]
    exact ih.add c

theorem length_agreeItems {rule : RuleProto} {p : ℕ × SAgr} (hp : p ∈ tmpArgs rule) :
    p.2.agreeItems.length = occurrences p.1 rule.agrLists := by
  rw [(tmpArgs_grouped rule).items p hp, List.length_map, occurrences, ← map_snd_carriers,
    List.countP_map, List.countP_eq_length_filter]
  rfl

theorem exists_carrier {id : ℕ} {rule : RuleProto} (h : 2 ≤ carryingItems id rule.agrLists) :
    ∃ c ∈ rule.carriers, c.2.id = id := by
  have hpos : 0 < carryingItems id rule.agrLists := by omega
  obtain ⟨agrs, hagrs, hany⟩ := List.countP_pos_iff.mp hpos
  obtain ⟨a, ha, hid⟩ := List.any_eq_true.mp hany
  have hmem : a ∈ rule.carriers.map (·.2) := by
    rw [map_snd_carriers]
    exact List.mem_flatten.mpr ⟨agrs, hagrs, ha⟩
  obtain ⟨c, hc, rfl⟩ := List.mem_map.mp hmem
  exact ⟨c, hc, beq_iff_eq.mp hid⟩

theorem enforced_iff {rule : RuleProto} (hc : Consistent rule.agrLists) :
    rule.Enforced ↔ Paired rule.agrLists := by
  constructor
  · intro h id hid
    obtain ⟨c, hcar, rfl⟩ := exists_carrier hid
    obtain ⟨entry, hentry, -⟩ := h c hcar hid
    obtain ⟨hentry, htwo⟩ := List.mem_filter.mp hentry
    rw [← length_agreeItems hentry]
    exact beq_iff_eq.mp htwo
  · intro h c hcar hid
    obtain ⟨p, hp, hpid⟩ := List.mem_map.mp ((tmpArgs_grouped rule).present c hcar)
    have htwo : p.2.agreeItems.length = 2 := by
      rw [length_agreeItems hp, hpid, h c.2.id hid]
    have hpair : p ∈ pairedAgrs rule := List.mem_filter.mpr ⟨hp, beq_iff_eq.mpr htwo⟩
    obtain ⟨d, hd, hdid, hproc, hneg⟩ := (tmpArgs_grouped rule).first p hp
    obtain ⟨htype, hpol⟩ := hc d.2 (snd_mem_of_mem_carriers hd) c.2 (snd_mem_of_mem_carriers hcar)
      (hdid.trans hpid)
    refine ⟨p.2, ?_, ?_, ?_, ?_, ?_⟩
    · rw [← hpid]
      exact hpair
    · exact List.mem_append_left _ (List.mem_map_of_mem hpair)
    · rw [(tmpArgs_grouped rule).items p hp]
      exact List.mem_map_of_mem (List.mem_filter.mpr ⟨hcar, beq_iff_eq.mpr hpid.symm⟩)
    · rw [hproc, htype]
    · rw [hneg, hpol]

end TomitaParser
