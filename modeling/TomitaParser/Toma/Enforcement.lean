import Mathlib.Algebra.GroupWithZero.Nat
import Mathlib.Algebra.Order.BigOperators.Group.List
import TomitaParser.Toma.Agreements
/-! # Agreements of transformed rules

Leaving out an optional item takes away its agreement numbers altogether, so a number keeps all of
its occurrences or none. Which groups the grammar keeps is decided by the rule as it was written. -/

namespace TomitaParser
open OrderedSet Kleene

theorem groupError_none {rule : RuleProto} {id : ℕ} {group : List AgrProto}
    (h : groupError rule id group = none) :
    ∀ a ∈ group, ∀ b ∈ group, a.type = b.type ∧ a.negative = b.negative := by
  match group with
  | [] => simp
  | [_] => simp [groupError] at h
  | a₀ :: b₀ :: rest =>
    have hall : ∀ b ∈ b₀ :: rest, a₀.type = b.type ∧ a₀.negative = b.negative := by
      intro b hb
      by_contra hne
      have hany : (b₀ :: rest).any
          (fun b => a₀.type != b.type || a₀.negative != b.negative) = true := by
        apply List.any_eq_true.mpr
        refine ⟨b, hb, ?_⟩
        rw [Bool.or_eq_true, bne_iff_ne, bne_iff_ne]
        exact not_and_or.mp hne
      rw [groupError, if_pos hany] at h
      · exact absurd h (by simp)
      · simp
    have hhead : ∀ b ∈ a₀ :: b₀ :: rest, a₀.type = b.type ∧ a₀.negative = b.negative := by
      intro b hb
      rcases List.mem_cons.mp hb with rfl | hb
      · exact ⟨rfl, rfl⟩
      · exact hall b hb
    intro a ha b hb
    exact ⟨(hhead a ha).1.symm.trans (hhead b hb).1, (hhead a ha).2.symm.trans (hhead b hb).2⟩

theorem consistent_of_checkBinaryAgreements {rule : RuleProto}
    (h : checkBinaryAgreements rule = true) : Consistent rule.agrLists := by
  intro a ha b hb hid
  rw [checkBinaryAgreements, List.isEmpty_iff, binaryAgreementErrors,
    List.filterMap_eq_nil_iff] at h
  have hgroup : (a.id, rule.agrLists.flatten.filter (·.id == a.id)) ∈ agreementGroups rule := by
    apply List.mem_map.mpr
    exact ⟨a.id, mem_insertAll_natLt.mpr (Or.inl (List.mem_map_of_mem ha)), rfl⟩
  apply groupError_none (h _ hgroup)
  · exact List.mem_filter.mpr ⟨ha, by simp⟩
  · exact List.mem_filter.mpr ⟨hb, by simp [hid]⟩

theorem removeAgreements_perm (ids : List ℕ) (agrs : List AgrProto) :
    (removeAgreements ids agrs).Perm (agrs.filter (·.id ∉ ids)) := by
  induction agrs using removeAgreements.induct ids with
  | case1 => simp [removeAgreements]
  | case2 a rest hid hlast =>
    rw [List.getLast?_eq_none_iff] at hlast
    subst hlast
    simp [removeAgreements, hid]
  | case3 a rest hid last hlast ih =>
    obtain ⟨init, rfl⟩ := List.getLast?_eq_some_iff.mp hlast
    have hstep : removeAgreements ids (a :: (init ++ [last])) =
        removeAgreements ids (last :: init) := by
      rw [removeAgreements, if_pos hid]
      split
      · simp_all
      · simp_all
    rw [List.dropLast_concat] at ih
    rw [hstep, List.filter_cons_of_neg (by simpa using hid)]
    apply ih.trans
    exact ((List.perm_append_singleton last init).symm).filter _
  | case4 a rest hid ih =>
    rw [removeAgreements, if_neg hid, List.filter_cons_of_pos (by simpa using hid)]
    exact ih.cons a

/-- How often each item carries the number `id`, the items that do not carry it left out. -/
def carryCounts (id : ℕ) (agrLists : List (List AgrProto)) : List ℕ :=
  (agrLists.map (·.countP (·.id == id))).filter (0 < ·)

theorem length_carryCounts (id : ℕ) (agrLists : List (List AgrProto)) :
    (carryCounts id agrLists).length = carryingItems id agrLists := by
  rw [carryCounts, carryingItems, ← List.countP_eq_length_filter, List.countP_map]
  apply List.countP_congr
  intro agrs _
  simp [List.countP_pos_iff]

theorem sum_carryCounts (id : ℕ) (agrLists : List (List AgrProto)) :
    (carryCounts id agrLists).sum = occurrences id agrLists := by
  rw [carryCounts, occurrences, List.countP_flatten]
  induction agrLists with
  | nil => rfl
  | cons agrs L ih =>
    rw [List.map_cons, List.sum_cons, ← ih]
    by_cases h : 0 < agrs.countP (·.id == id)
    · rw [List.filter_cons_of_pos (by simpa using h), List.sum_cons]
    · rw [List.filter_cons_of_neg (by simpa using h), Nat.eq_zero_of_not_pos h, Nat.zero_add]

/-- What is left of agreements: each number is carried as before or not at all. -/
structure Remains (before after : List (List AgrProto)) : Prop where
  mem : ∀ a ∈ after.flatten, a ∈ before.flatten
  counts : ∀ id, carryCounts id after = [] ∨ carryCounts id after = carryCounts id before

theorem Remains.refl (L : List (List AgrProto)) : Remains L L :=
  ⟨fun _ h => h, fun _ => Or.inr rfl⟩

theorem Remains.trans {L M N : List (List AgrProto)} (h₁ : Remains L M) (h₂ : Remains M N) :
    Remains L N where
  mem a ha := h₁.mem a (h₂.mem a ha)
  counts id := by
    rcases h₂.counts id with h | h
    · exact Or.inl h
    · rw [h]
      exact h₁.counts id

theorem Remains.consistent {L M : List (List AgrProto)} (h : Remains L M) (hL : Consistent L) :
    Consistent M :=
  fun a ha b hb => hL a (h.mem a ha) b (h.mem b hb)

theorem Remains.paired {L M : List (List AgrProto)} (h : Remains L M) (hL : Paired L) :
    Paired M := by
  intro id hid
  have hL := hL id
  rw [← length_carryCounts] at hid hL
  rw [← sum_carryCounts] at hL ⊢
  rcases h.counts id with h0 | heq
  · rw [h0] at hid
    exact absurd hid (by simp)
  · rw [heq] at hid ⊢
    exact hL hid

/-- The agreements of one item after those with the numbers `ids` are gone. -/
def Stripped (ids : List ℕ) (before after : List AgrProto) : Prop :=
  (∀ a ∈ after, a ∈ before) ∧
    ∀ id, after.countP (·.id == id) = if id ∈ ids then 0 else before.countP (·.id == id)

theorem stripped_removeAgreements (ids : List ℕ) (agrs : List AgrProto) :
    Stripped ids agrs (removeAgreements ids agrs) := by
  have hperm := removeAgreements_perm ids agrs
  constructor
  · intro a ha
    exact List.mem_of_mem_filter (hperm.mem_iff.mp ha)
  · intro id
    rw [hperm.countP_eq, List.countP_filter]
    split_ifs with hid
    · apply List.countP_eq_zero.mpr
      intro a _ h
      simp only [Bool.and_eq_true, beq_iff_eq, decide_eq_true_eq] at h
      exact h.2 (h.1 ▸ hid)
    · apply List.countP_congr
      intro a _
      simp only [Bool.and_eq_true, beq_iff_eq, decide_eq_true_eq]
      exact ⟨fun h => h.1, fun h => ⟨h, h ▸ hid⟩⟩

theorem agrs_withoutItem (item : RuleItemProto) (items : List RuleItemProto) :
    List.Forall₂ (Stripped (item.agrs.map (·.id))) (items.map (·.agrs))
      ((withoutItem item items).map (·.agrs)) := by
  rw [withoutItem]
  split_ifs with h
  · rw [List.isEmpty_iff.mp h]
    apply List.forall₂_same.mpr
    intro agrs _
    exact ⟨fun _ h => h, fun id => by simp⟩
  · rw [List.map_map]
    induction items with
    | nil => exact List.Forall₂.nil
    | cons other items ih => exact List.Forall₂.cons (stripped_removeAgreements _ _) ih

theorem mem_flatten_of_stripped {ids : List ℕ} {L M : List (List AgrProto)}
    (h : List.Forall₂ (Stripped ids) L M) {a : AgrProto} (ha : a ∈ M.flatten) :
    a ∈ L.flatten := by
  induction h with
  | nil => exact ha
  | cons hs _ ih =>
    rw [List.flatten_cons, List.mem_append] at ha ⊢
    exact ha.imp (hs.1 a) ih

theorem carryCounts_of_stripped {ids : List ℕ} {L M : List (List AgrProto)}
    (h : List.Forall₂ (Stripped ids) L M) (id : ℕ) :
    carryCounts id M = if id ∈ ids then [] else carryCounts id L := by
  have hmap : M.map (·.countP (·.id == id)) =
      if id ∈ ids then L.map fun _ => 0 else L.map (·.countP (·.id == id)) := by
    induction h with
    | nil => simp
    | cons hs _ ih =>
      rw [List.map_cons, ih, hs.2 id]
      split_ifs <;> rfl
  rw [carryCounts, hmap]
  split_ifs
  · apply List.filter_eq_nil_iff.mpr
    intro n hn
    obtain ⟨_, _, rfl⟩ := List.mem_map.mp hn
    simp
  · rfl

theorem remains_withoutItem (item : RuleItemProto) (done rest : List RuleItemProto) :
    Remains ((done ++ item :: rest).map (·.agrs))
      ((withoutItem item (done ++ rest)).map (·.agrs)) := by
  have hstrip := agrs_withoutItem item (done ++ rest)
  constructor
  · intro a ha
    have := mem_flatten_of_stripped hstrip ha
    simp only [List.map_append, List.flatten_append, List.mem_append, List.map_cons,
      List.flatten_cons] at this ⊢
    exact this.imp_right Or.inr
  · intro id
    rw [carryCounts_of_stripped hstrip]
    split_ifs with hid
    · exact Or.inl rfl
    · apply Or.inr
      have hzero : item.agrs.countP (·.id == id) = 0 := by
        apply List.countP_eq_zero.mpr
        intro a ha heq
        exact hid (List.mem_map.mpr ⟨a, ha, beq_iff_eq.mp heq⟩)
      simp [carryCounts, hzero]

theorem dropOptional_remains (rule : RuleProto) (done rest : List RuleItemProto) :
    (dropOptional rule done rest).1.agrLists = (done ++ rest).map (·.agrs) ∧
      ∀ added ∈ (dropOptional rule done rest).2,
        Remains ((done ++ rest).map (·.agrs)) added.agrLists := by
  induction rest generalizing done with
  | nil => simp [dropOptional, RuleProto.agrLists]
  | cons item rest ih =>
    rw [dropOptional]
    split_ifs
    · have hsame : (done ++ [{ item with option := ItemOption.single }] ++ rest).map
          RuleItemProto.agrs = (done ++ item :: rest).map RuleItemProto.agrs := by
        simp [RuleItemProto.agrs]
      obtain ⟨ih₁, ih₂⟩ := ih (done ++ [{ item with option := .single }])
      rw [hsame] at ih₁ ih₂
      refine ⟨ih₁, fun added hadded => ?_⟩
      rcases List.mem_cons.mp hadded with rfl | hadded
      · exact remains_withoutItem item done rest
      · exact ih₂ added hadded
    · simpa using ih (done ++ [item])

theorem remains_of_mem_withoutOptional {rules : List RuleProto} {final : RuleProto}
    (h : final ∈ withoutOptional rules) :
    ∃ rule ∈ rules, Remains rule.agrLists final.agrLists := by
  induction rules using withoutOptional.induct with
  | case1 => simp [withoutOptional] at h
  | case2 rule rest ih =>
    obtain ⟨hkept, hadded⟩ := dropOptional_remains rule [] rule.items
    rw [withoutOptional] at h
    rcases List.mem_cons.mp h with rfl | h
    · refine ⟨rule, List.mem_cons_self, ?_⟩
      rw [hkept]
      exact Remains.refl _
    · obtain ⟨mid, hmid, hrem⟩ := ih h
      rcases List.mem_append.mp hmid with hmid | hmid
      · exact ⟨mid, List.mem_cons_of_mem _ hmid, hrem⟩
      · exact ⟨rule, List.mem_cons_self, (hadded mid hmid).trans hrem⟩

theorem exists_mem_withoutOptional {rules : List RuleProto} {rule : RuleProto} (h : rule ∈ rules) :
    ∃ final ∈ withoutOptional rules, final.agrLists = rule.agrLists := by
  induction rules using withoutOptional.induct with
  | case1 => simp at h
  | case2 first rest ih =>
    rw [withoutOptional]
    rcases List.mem_cons.mp h with rfl | h
    · exact ⟨_, List.mem_cons_self, (dropOptional_remains rule [] rule.items).1⟩
    · obtain ⟨final, hfinal, heq⟩ := ih (List.mem_append_left _ h)
      exact ⟨final, List.mem_cons_of_mem _ hfinal, heq⟩

/-- The agreements of a rule whose groups are all kept. -/
structure Kept (agrLists : List (List AgrProto)) : Prop where
  consistent : Consistent agrLists
  paired : Paired agrLists

theorem setAgreement_ids (id : ℕ) (agrType : AgrType) (negative : Bool) :
    ((setAgreement id agrType negative).map (·.id)).Sublist [id] := by
  rw [setAgreement]
  split_ifs
  · exact List.Sublist.refl _
  · exact List.nil_sublist _

theorem transformAgreements_ids (srcTerm : RuleItemProto) :
    ((transformAgreements srcTerm).map (·.id)).Nodup := by
  have h (agrs : List AgrProto) (k : ℕ) :
      (((agrs.zipIdx k).flatMap fun a => setAgreement a.2 a.1.type a.1.negative).map
        (·.id)).Sublist (List.range' k agrs.length) := by
    induction agrs generalizing k with
    | nil => exact List.Sublist.refl _
    | cons a agrs ih =>
      rw [List.zipIdx_cons, List.flatMap_cons, List.map_append, List.length_cons,
        List.range'_succ]
      exact (setAgreement_ids k _ _).append (ih (k + 1))
  have hrange : ((transformAgreements srcTerm).map (·.id)).Sublist
      (List.range' 0 (srcTerm.agrs.length + 1)) := by
    rw [transformAgreements, List.map_append, List.range'_concat]
    have hlast := setAgreement_ids srcTerm.agrs.length srcTerm.agr false
    exact (h srcTerm.agrs 0).append (by simpa using hlast)
  exact List.Nodup.sublist hrange List.nodup_range'

theorem kept_of_nil : Kept [[]] :=
  ⟨by simp [Consistent], fun id hid => by simp [carryingItems] at hid⟩

theorem kept_of_twice {agrs : List AgrProto} (hn : (agrs.map (·.id)).Nodup)
    {L : List (List AgrProto)} (hL : L = [agrs, agrs] ∨ L = [agrs, [], agrs]) : Kept L := by
  have hmem : ∀ a ∈ L.flatten, a ∈ agrs := by
    rcases hL with rfl | rfl <;> simp
  constructor
  · intro a ha b hb hid
    rw [List.inj_on_of_nodup_map hn (hmem a ha) (hmem b hb) hid]
    exact ⟨rfl, rfl⟩
  · intro id hid
    have hle : agrs.countP (·.id == id) ≤ 1 := by
      have := List.nodup_iff_count_le_one.mp hn id
      rwa [List.count, List.countP_map] at this
    have hocc : occurrences id L = agrs.countP (·.id == id) + agrs.countP (·.id == id) := by
      rcases hL with rfl | rfl <;> simp [occurrences]
    have hany : agrs.any (·.id == id) = true := by
      by_contra hno
      rcases hL with rfl | rfl <;> simp [carryingItems, hno] at hid
    have hpos : 0 < agrs.countP (·.id == id) := by
      obtain ⟨a, ha, heq⟩ := List.any_eq_true.mp hany
      exact List.countP_pos_iff.mpr ⟨a, ha, heq⟩
    omega

theorem kept_addPlusRules (ruleName : String) (srcTerm : RuleItemProto) :
    ∀ rule ∈ addPlusRules ruleName srcTerm, Kept rule.agrLists := by
  intro rule h
  rw [addPlusRules, List.mem_cons, List.mem_singleton] at h
  rcases h with rfl | rfl
  · exact kept_of_twice (transformAgreements_ids srcTerm) (Or.inl rfl)
  · exact kept_of_nil

theorem kept_addCoordRules (ruleName : String) (srcTerm : RuleItemProto) :
    ∀ rule ∈ addCoordRules ruleName srcTerm, Kept rule.agrLists := by
  intro rule h
  rw [addCoordRules, List.mem_cons, List.mem_cons, List.mem_singleton] at h
  rcases h with rfl | rfl | rfl
  · exact kept_of_twice (transformAgreements_ids srcTerm) (Or.inr rfl)
  · exact kept_of_twice (transformAgreements_ids srcTerm) (Or.inr rfl)
  · exact kept_of_nil

theorem agrs_cleanUp (item : RuleItemProto) (newRuleName : String) :
    (cleanUp item newRuleName).agrs = item.agrs := by
  rw [cleanUp]
  split_ifs <;> rfl

theorem baseName_spec (s : Names) (item : RuleItemProto) :
    (s.baseName item).2.1.agrs = item.agrs ∧
      ∀ rule ∈ (s.baseName item).2.2.1, Kept rule.agrLists := by
  rw [Names.baseName]
  split_ifs
  · split
    · exact ⟨rfl, by simp⟩
    · refine ⟨rfl, fun rule hrule => ?_⟩
      rw [List.mem_singleton.mp hrule]
      exact kept_of_nil
  · exact ⟨rfl, by simp⟩

theorem renameItem_spec (s : Names) (item : RuleItemProto) :
    (s.renameItem item).1.agrs = item.agrs ∧
      ∀ rule ∈ (s.renameItem item).2.1, Kept rule.agrLists := by
  obtain ⟨hagrs, hmoved⟩ := baseName_spec s item
  rw [Names.renameItem]
  by_cases hrep : (item.coord || item.option == .star || item.option == .plus) = true
  · rw [if_pos hrep]
    generalize s.baseName item = base at hagrs hmoved ⊢
    obtain ⟨baseName, item', moved, s'⟩ := base
    dsimp only at hagrs hmoved ⊢
    constructor
    · rw [agrs_cleanUp, hagrs]
    · intro rule hrule
      rcases List.mem_append.mp hrule with hrule | hrule
      · exact hmoved rule hrule
      · split_ifs at hrule
        · exact kept_addCoordRules _ _ rule hrule
        · exact absurd hrule List.not_mem_nil
        · exact kept_addPlusRules _ _ rule hrule
        · exact absurd hrule List.not_mem_nil
  · rw [if_neg hrep]
    exact ⟨agrs_cleanUp item "", by simp⟩

theorem renameItems_spec (s : Names) (items : List RuleItemProto) :
    (s.renameItems items).1.map (·.agrs) = items.map (·.agrs) ∧
      ∀ rule ∈ (s.renameItems items).2.1, Kept rule.agrLists := by
  induction items generalizing s with
  | nil => exact ⟨rfl, by simp [Names.renameItems]⟩
  | cons item items ih =>
    obtain ⟨hitem, hadded⟩ := renameItem_spec s item
    obtain ⟨hitems, hrest⟩ := ih (s.renameItem item).2.2
    constructor
    · rw [Names.renameItems, List.map_cons, List.map_cons, hitem, hitems]
    · intro rule hrule
      rw [Names.renameItems] at hrule
      exact (List.mem_append.mp hrule).elim (hadded rule) (hrest rule)

theorem renameRules_spec (s : Names) (rules : List RuleProto) :
    (s.renameRules rules).1.map (·.agrLists) = rules.map (·.agrLists) ∧
      ∀ rule ∈ (s.renameRules rules).2.1, Kept rule.agrLists := by
  induction rules generalizing s with
  | nil => exact ⟨rfl, by simp [Names.renameRules]⟩
  | cons rule rules ih =>
    obtain ⟨hrule, hadded⟩ := renameItems_spec s rule.items
    obtain ⟨hrules, hrest⟩ := ih (s.renameItems rule.items).2.2
    constructor
    · rw [Names.renameRules, List.map_cons, List.map_cons, hrules]
      exact congrArg (· :: _) hrule
    · intro r hr
      rw [Names.renameRules] at hr
      exact (List.mem_append.mp hr).elim (hadded r) (hrest r)

theorem mem_renamed {rules : List RuleProto} {rule : RuleProto} (h : rule ∈ renamed rules) :
    rule.agrLists ∈ rules.map (·.agrLists) ∨ Kept rule.agrLists := by
  obtain ⟨hrules, hadded⟩ := renameRules_spec { knownRules := rules.map (·.name) } rules
  rw [renamed] at h
  rcases List.mem_append.mp h with h | h
  · rcases List.mem_append.mp h with h | h
    · apply Or.inl
      rw [← hrules]
      exact List.mem_map_of_mem h
    · apply Or.inr
      have hmem := List.mem_map_of_mem (f := (·.agrLists)) h
      rw [(renameRules_spec _ _).1] at hmem
      obtain ⟨helper, hhelper, heq⟩ := List.mem_map.mp hmem
      rw [← heq]
      exact hadded helper hhelper
  · exact Or.inr ((renameRules_spec _ _).2 rule h)

theorem exists_mem_renamed {rules : List RuleProto} {rule : RuleProto} (h : rule ∈ rules) :
    ∃ rule' ∈ renamed rules, rule'.agrLists = rule.agrLists := by
  have hrules := (renameRules_spec { knownRules := rules.map (·.name) } rules).1
  have hmem := List.mem_map_of_mem (f := RuleProto.agrLists) h
  rw [← hrules] at hmem
  obtain ⟨rule', hrule', heq⟩ := List.mem_map.mp hmem
  exact ⟨rule', List.mem_append_left _ (List.mem_append_left _ hrule'), heq⟩

/-- Accepted agreements are enforced in all rules that a file becomes exactly when, in the rules as
they were written, a number that two or more items carry occurs exactly twice. -/
theorem kleeneTransform_enforced_iff {rules : List RuleProto}
    (h : rules.all checkBinaryAgreements = true) :
    (∀ final ∈ kleeneTransform rules, final.Enforced) ↔ ∀ rule ∈ rules, Paired rule.agrLists := by
  have hcons : ∀ rule ∈ rules, Consistent rule.agrLists := fun rule hrule =>
    consistent_of_checkBinaryAgreements (List.all_eq_true.mp h rule hrule)
  constructor
  · intro hall rule hrule
    obtain ⟨mid, hmid, heq⟩ := exists_mem_renamed hrule
    obtain ⟨final, hfinal, heq'⟩ := exists_mem_withoutOptional hmid
    have hlists : final.agrLists = rule.agrLists := heq'.trans heq
    rw [← hlists]
    exact (enforced_iff (hlists ▸ hcons rule hrule)).mp (hall final hfinal)
  · intro hpaired final hfinal
    obtain ⟨mid, hmid, hrem⟩ := remains_of_mem_withoutOptional hfinal
    have hkept : Kept mid.agrLists := by
      rcases mem_renamed hmid with hmem | hkept
      · obtain ⟨rule, hrule, heq⟩ := List.mem_map.mp hmem
        rw [← heq]
        exact ⟨hcons rule hrule, hpaired rule hrule⟩
      · exact hkept
    exact (enforced_iff (hrem.consistent hkept.consistent)).mpr (hrem.paired hkept.paired)

/-- An item of the fixed rules below. -/
def agreeing (name : String) (agrs : List AgrProto) : RuleItemProto :=
  { term := { name := name, termPostfix := { agr := agrs } } }

/-- `S -> A<c-agr[1]> (B<c-agr[1]>) C;` -/
def pairRule : RuleProto :=
  { name := "S",
    items := [agreeing "A" [{ type := .case, id := 1 }],
      { agreeing "B" [{ type := .case, id := 1 }] with option := .parenth }, agreeing "C" []] }

theorem kleeneTransform_enforced_pairRule :
    checkBinaryAgreements pairRule = true ∧
      ∀ final ∈ kleeneTransform [pairRule], final.Enforced :=
  ⟨by decide, (kleeneTransform_enforced_iff (by decide)).mpr (by
    intro rule hrule id hid
    rw [List.mem_singleton.mp hrule] at hid ⊢
    by_cases h1 : id = 1
    · subst h1
      rfl
    · have : (1 == id) = false := by simpa using fun h : 1 = id => h1 h.symm
      simp [carryingItems, pairRule, agreeing, RuleProto.agrLists, RuleItemProto.agrs,
        this] at hid)⟩

/-- `S -> A<c-agr[1]> B<c-agr[1]> C<c-agr[1]>;` -/
def tripleRule : RuleProto :=
  { name := "S",
    items := [agreeing "A" [{ type := .case, id := 1 }], agreeing "B" [{ type := .case, id := 1 }],
      agreeing "C" [{ type := .case, id := 1 }]] }

/-- A group of three is accepted and dropped. -/
theorem tripleRule_accepted_not_enforced :
    checkBinaryAgreements tripleRule = true ∧
      ∃ final ∈ kleeneTransform [tripleRule], ¬ final.Enforced := by
  refine ⟨by decide, ?_⟩
  obtain ⟨mid, hmid, heq⟩ := exists_mem_renamed (List.mem_singleton_self tripleRule)
  obtain ⟨final, hfinal, heq'⟩ := exists_mem_withoutOptional hmid
  have hlists : final.agrLists = tripleRule.agrLists := heq'.trans heq
  have hcarriers : final.carriers = tripleRule.carriers := by
    rw [RuleProto.carriers, hlists, RuleProto.carriers]
  refine ⟨final, hfinal, fun h => ?_⟩
  obtain ⟨entry, hentry, -⟩ := h (0, { type := .case, id := 1 })
    (by rw [hcarriers]; decide) (by rw [hlists]; decide)
  have hpaired : pairedAgrs final = [] := by
    rw [pairedAgrs, tmpArgs, hcarriers]
    decide
  rw [hpaired] at hentry
  exact absurd hentry List.not_mem_nil

end TomitaParser
