import TomitaParser.Rusie.FactContent
/-! # Which values a merge of facts keeps

No value is lost, unless two facts with a common field are merged because they stand at the same
place of the lists of facts that have some partner. -/

namespace TomitaParser.Rusie

variable {Date Fio : Type} (norm : Inflector) (type : FactType)

/-- Some fact of a list shows something, maybe with more around it. -/
def KeptIn (p : List (Part Date Fio)) (facts : List (FactFields Date Fio)) : Prop :=
  ∃ fact ∈ facts, ∃ field ∈ type.fields, ∃ q, shownAt norm field fact = some q ∧ p <:+: q

/-- What some facts show, some fact of the result shows. -/
def Covers (facts result : List (FactFields Date Fio)) : Prop :=
  ∀ fact ∈ facts, ∀ field ∈ type.fields, ∀ p, shownAt norm field fact = some p →
    KeptIn norm type p result

/-- What a result shows, some fact shows. -/
def ComesFrom (facts result : List (FactFields Date Fio)) : Prop :=
  ∀ fact' ∈ result, ∀ field ∈ type.fields, ∀ q, shownAt norm field fact' = some q → ∀ part ∈ q,
    ∃ fact ∈ facts, ∃ p, shownAt norm field fact = some p ∧ part ∈ p

variable {norm type}

theorem KeptIn.mono {p : List (Part Date Fio)} {facts facts' : List (FactFields Date Fio)}
    (h : KeptIn norm type p facts) (hsub : facts ⊆ facts') : KeptIn norm type p facts' := by
  obtain ⟨fact, hfact, hrest⟩ := h
  exact ⟨fact, hsub hfact, hrest⟩

theorem Covers.mono {facts result result' : List (FactFields Date Fio)}
    (h : Covers norm type facts result) (hsub : result ⊆ result') :
    Covers norm type facts result' :=
  fun fact hfact field hfield p hp => (h fact hfact field hfield p hp).mono hsub

theorem Covers.of_subset {facts result : List (FactFields Date Fio)} (hsub : facts ⊆ result) :
    Covers norm type facts result :=
  fun fact hfact field hfield p hp =>
    ⟨fact, hsub hfact, field, hfield, p, hp, List.infix_refl p⟩

theorem ComesFrom.of_subset {facts result : List (FactFields Date Fio)} (hsub : result ⊆ facts) :
    ComesFrom norm type facts result :=
  fun fact hfact _ _ q hq _ hpart => ⟨fact, hsub hfact, q, hq, hpart⟩

theorem ComesFrom.mono {facts facts' result : List (FactFields Date Fio)}
    (h : ComesFrom norm type facts result) (hsub : facts ⊆ facts') :
    ComesFrom norm type facts' result := by
  intro fact' hfact' field hfield q hq part hpart
  obtain ⟨fact, hfact, hrest⟩ := h fact' hfact' field hfield q hq part hpart
  exact ⟨fact, hsub hfact, hrest⟩

section Pair

variable {field : FactFieldDescr} {fact₁ fact₂ : FactFields Date Fio}

theorem mergedShown_left {p : List (Part Date Fio)} (hp : shownAt norm field fact₁ = some p) :
    ∃ q, mergedShown norm field fact₁ fact₂ = some q ∧ p <:+: q := by
  obtain ⟨x, hx, rfl⟩ := Option.map_eq_some_iff.mp hp
  unfold mergedShown
  rw [hx]
  cases fact₂.value field.strFieldName with
  | none => exact ⟨_, rfl, List.infix_refl _⟩
  | some y =>
    refine ⟨_, rfl, ?_⟩
    unfold joinShown
    split_ifs
    · exact List.suffix_append _ _ |>.isInfix
    · exact List.prefix_append _ _ |>.isInfix
    · exact List.infix_refl _

theorem mergedShown_right {p : List (Part Date Fio)} (hp : shownAt norm field fact₂ = some p)
    (hclash : clashAt field fact₁ fact₂ = false) :
    ∃ q, mergedShown norm field fact₁ fact₂ = some q ∧ p <:+: q := by
  obtain ⟨y, hy, rfl⟩ := Option.map_eq_some_iff.mp hp
  unfold mergedShown
  cases hx : fact₁.value field.strFieldName with
  | none => exact ⟨_, by simp [hy], List.infix_refl _⟩
  | some x =>
    have hjoin : concatenable x y = true := by simpa [clashAt, hx, hy] using hclash
    rw [hy]
    refine ⟨_, rfl, ?_⟩
    unfold joinShown
    rw [if_pos hjoin]
    split_ifs
    · exact List.prefix_append _ _ |>.isInfix
    · exact List.suffix_append _ _ |>.isInfix

theorem mergedShown_parts {q : List (Part Date Fio)}
    (hq : mergedShown norm field fact₁ fact₂ = some q) {part : Part Date Fio} (hpart : part ∈ q) :
    (∃ p, shownAt norm field fact₁ = some p ∧ part ∈ p) ∨
      ∃ p, shownAt norm field fact₂ = some p ∧ part ∈ p := by
  unfold mergedShown at hq
  cases hx : fact₁.value field.strFieldName with
  | none =>
    rw [hx] at hq
    exact Or.inr ⟨q, hq, hpart⟩
  | some x =>
    rw [hx] at hq
    have hfirst : shownAt norm field fact₁ = some (shown norm field x) := by simp [shownAt, hx]
    cases hy : fact₂.value field.strFieldName with
    | none =>
      rw [hy] at hq
      cases hq
      exact Or.inl ⟨_, hfirst, hpart⟩
    | some y =>
      rw [hy] at hq
      cases hq
      have hsecond : shownAt norm field fact₂ = some (shown norm field y) := by simp [shownAt, hy]
      unfold joinShown at hpart
      split_ifs at hpart
      · rcases List.mem_append.mp hpart with hpart | hpart
        · exact Or.inr ⟨_, hsecond, hpart⟩
        · exact Or.inl ⟨_, hfirst, hpart⟩
      · rcases List.mem_append.mp hpart with hpart | hpart
        · exact Or.inl ⟨_, hfirst, hpart⟩
        · exact Or.inr ⟨_, hsecond, hpart⟩
      · exact Or.inl ⟨_, hfirst, hpart⟩

theorem concatenable_comm (x y : FieldValue Date Fio) : concatenable x y = concatenable y x := by
  unfold concatenable
  cases x.concatenation <;> cases y.concatenation <;> simp [Bool.or_comm]

theorem clashAt_comm (field : FactFieldDescr) (fact₁ fact₂ : FactFields Date Fio) :
    clashAt field fact₁ fact₂ = clashAt field fact₂ fact₁ := by
  unfold clashAt
  cases fact₁.value field.strFieldName <;> cases fact₂.value field.strFieldName <;>
    simp [concatenable_comm]

theorem clashAt_congr {fact₂' : FactFields Date Fio}
    (hflag : flagAt field fact₂' = flagAt field fact₂) :
    clashAt field fact₁ fact₂' = clashAt field fact₁ fact₂ := by
  unfold flagAt at hflag
  unfold clashAt
  cases fact₁.value field.strFieldName with
  | none => rfl
  | some x =>
    cases hy : fact₂.value field.strFieldName with
    | none =>
      rw [hy, Option.map_none, Option.map_eq_none_iff] at hflag
      rw [hflag]
    | some y =>
      rw [hy, Option.map_some] at hflag
      obtain ⟨y', hy', hsame⟩ := Option.map_eq_some_iff.mp hflag
      rw [hy']
      simp only [concatenable, hsame]

end Pair

/-- A list of facts with one name, which are filled. -/
def NamedFacts (name : String) (facts : List (FactFields Date Fio)) : Prop :=
  ∀ fact ∈ facts, fact.strFactName = name ∧ fact.Filled

/-- One fact is merged into each of several ones that have no common field with it. -/
theorem mergeOneToMany_merged {name : String} {one : FactFields Date Fio}
    {many : List (FactFields Date Fio)} (hone : one.Filled) (hmany : NamedFacts name many)
    (hfree : ∀ fact ∈ many, factsClash type fact one = false) :
    NamedFacts name (mergeOneToMany norm type one many) ∧
      Covers norm type many (mergeOneToMany norm type one many) ∧
      (many ≠ [] → Covers norm type [one] (mergeOneToMany norm type one many)) ∧
      ComesFrom norm type (one :: many) (mergeOneToMany norm type one many) := by
  induction many generalizing one with
  | nil => simp [mergeOneToMany, NamedFacts, Covers, ComesFrom]
  | cons fact many ih =>
    have hfact := hmany fact List.mem_cons_self
    have hmerged := @mergeTwoFacts_merged Date Fio norm type fact one ⟨hfact.2, hone⟩
    have hclash (field : FactFieldDescr) (hfield : field ∈ type.fields) :
        clashAt field fact one = false := by
      have hfalse := hfree fact List.mem_cons_self
      rw [factsClash, List.any_eq_false] at hfalse
      simpa using hfalse field hfield
    have hfree' : ∀ other ∈ many,
        factsClash type other (mergeTwoFacts norm type fact one).2 = false := by
      intro other hother
      have hfalse := hfree other (List.mem_cons_of_mem _ hother)
      rw [factsClash, List.any_eq_false] at hfalse ⊢
      intro field hfield
      rw [clashAt_congr (hmerged.at_field field hfield).flag]
      exact hfalse field hfield
    obtain ⟨hnames, hcovers, -, hcomes⟩ := ih hmerged.filled.2
      (fun other hother => hmany other (List.mem_cons_of_mem _ hother)) hfree'
    have hcons : mergeOneToMany norm type one (fact :: many) =
        (mergeTwoFacts norm type fact one).1 ::
          mergeOneToMany norm type (mergeTwoFacts norm type fact one).2 many := rfl
    rw [hcons]
    refine ⟨?_, ?_, ?_, ?_⟩
    · intro result hresult
      rcases List.mem_cons.mp hresult with rfl | hresult
      · exact ⟨hmerged.names.1.trans hfact.1, hmerged.filled.1⟩
      · exact hnames result hresult
    · intro other hother field hfield p hp
      rcases List.mem_cons.mp hother with rfl | hother
      · obtain ⟨q, hq, hinfix⟩ := @mergedShown_left _ _ norm field other one p hp
        exact ⟨_, List.mem_cons_self, field, hfield, q,
          (hmerged.at_field field hfield).first.trans hq, hinfix⟩
      · exact (hcovers other hother field hfield p hp).mono (List.subset_cons_self _ _)
    · intro _ other hother field hfield p hp
      rw [List.mem_singleton] at hother
      subst hother
      obtain ⟨q, hq, hinfix⟩ := mergedShown_right hp (hclash field hfield)
      exact ⟨_, List.mem_cons_self, field, hfield, q,
        (hmerged.at_field field hfield).first.trans hq, hinfix⟩
    · intro result hresult field hfield q hq part hpart
      rcases List.mem_cons.mp hresult with rfl | hresult
      · rw [(hmerged.at_field field hfield).first] at hq
        rcases mergedShown_parts hq hpart with ⟨p, hp, hmem⟩ | ⟨p, hp, hmem⟩
        · exact ⟨fact, by simp, p, hp, hmem⟩
        · exact ⟨one, by simp, p, hp, hmem⟩
      · obtain ⟨other, hother, p, hp, hmem⟩ := hcomes result hresult field hfield q hq part hpart
        rcases List.mem_cons.mp hother with rfl | hother
        · rw [(hmerged.at_field field hfield).second] at hp
          exact ⟨one, by simp, p, hp, hmem⟩
        · exact ⟨other, by simp [hother], p, hp, hmem⟩

/-- The facts at the same places of two lists are merged. -/
def mergePlaces (norm : Inflector) (type : FactType) (facts₁ facts₂ : List (FactFields Date Fio)) :
    List (FactFields Date Fio) :=
  List.zipWith (fun fact₁ fact₂ => (mergeTwoFacts norm type fact₁ fact₂).1) facts₁ facts₂

section Places

variable {name : String} {facts₁ facts₂ : List (FactFields Date Fio)}

theorem mem_mergePlaces {fact : FactFields Date Fio} :
    fact ∈ mergePlaces norm type facts₁ facts₂ ↔
      ∃ pair ∈ facts₁.zip facts₂, (mergeTwoFacts norm type pair.1 pair.2).1 = fact := by
  rw [mergePlaces, ← List.map_uncurry_zip_eq_zipWith, List.mem_map]
  rfl

theorem zip_named (h₁ : NamedFacts name facts₁) (h₂ : NamedFacts name facts₂)
    {pair : FactFields Date Fio × FactFields Date Fio} (hpair : pair ∈ facts₁.zip facts₂) :
    MergedFields norm type type.fields pair (mergeTwoFacts norm type pair.1 pair.2) :=
  mergeTwoFacts_merged type ⟨(h₁ _ (List.of_mem_zip hpair).1).2, (h₂ _ (List.of_mem_zip hpair).2).2⟩

theorem mergePlaces_named (h₁ : NamedFacts name facts₁) (h₂ : NamedFacts name facts₂) :
    NamedFacts name (mergePlaces norm type facts₁ facts₂) := by
  intro fact hfact
  obtain ⟨pair, hpair, rfl⟩ := mem_mergePlaces.mp hfact
  have hmerged := @zip_named Date Fio norm type name facts₁ facts₂ h₁ h₂ pair hpair
  exact ⟨hmerged.names.1.trans (h₁ _ (List.of_mem_zip hpair).1).1, hmerged.filled.1⟩

theorem keptIn_mergePlaces (h₁ : NamedFacts name facts₁) (h₂ : NamedFacts name facts₂)
    {p : List (Part Date Fio)} : KeptIn norm type p (mergePlaces norm type facts₁ facts₂) ↔
      ∃ pair ∈ facts₁.zip facts₂, ∃ field ∈ type.fields, ∃ q,
        mergedShown norm field pair.1 pair.2 = some q ∧ p <:+: q := by
  constructor
  · rintro ⟨fact, hfact, field, hfield, q, hq, hinfix⟩
    obtain ⟨pair, hpair, rfl⟩ := mem_mergePlaces.mp hfact
    rw [((zip_named h₁ h₂ hpair).at_field field hfield).first] at hq
    exact ⟨pair, hpair, field, hfield, q, hq, hinfix⟩
  · rintro ⟨pair, hpair, field, hfield, q, hq, hinfix⟩
    refine ⟨_, mem_mergePlaces.mpr ⟨pair, hpair, rfl⟩, field, hfield, q, ?_, hinfix⟩
    rw [((zip_named h₁ h₂ hpair).at_field field hfield).first]
    exact hq

theorem mergePlaces_comesFrom (h₁ : NamedFacts name facts₁) (h₂ : NamedFacts name facts₂) :
    ComesFrom norm type (facts₁ ++ facts₂) (mergePlaces norm type facts₁ facts₂) := by
  intro fact hfact field hfield q hq part hpart
  obtain ⟨pair, hpair, rfl⟩ := mem_mergePlaces.mp hfact
  rw [((zip_named h₁ h₂ hpair).at_field field hfield).first] at hq
  rcases mergedShown_parts hq hpart with ⟨p, hp, hmem⟩ | ⟨p, hp, hmem⟩
  · exact ⟨_, List.mem_append_left _ (List.of_mem_zip hpair).1, p, hp, hmem⟩
  · exact ⟨_, List.mem_append_right _ (List.of_mem_zip hpair).2, p, hp, hmem⟩

theorem mergePlaces_covers (h₁ : NamedFacts name facts₁) (h₂ : NamedFacts name facts₂)
    (hlength : facts₁.length = facts₂.length) :
    Covers norm type facts₁ (mergePlaces norm type facts₁ facts₂) := by
  intro fact hfact field hfield p hp
  rw [keptIn_mergePlaces h₁ h₂]
  obtain ⟨i, hi, rfl⟩ := List.mem_iff_getElem.mp hfact
  obtain ⟨q, hq, hinfix⟩ := @mergedShown_left _ _ norm field facts₁[i] facts₂[i] p hp
  have hpair : (facts₁[i], facts₂[i]) ∈ facts₁.zip facts₂ := by
    rw [List.mem_iff_getElem]
    exact ⟨i, by simp; omega, by simp⟩
  exact ⟨_, hpair, field, hfield, q, hq, hinfix⟩

theorem mergePlaces_second (h₁ : NamedFacts name facts₁) (h₂ : NamedFacts name facts₂)
    (hlength : facts₁.length = facts₂.length) {result : List (FactFields Date Fio)}
    (hresult : mergePlaces norm type facts₁ facts₂ ⊆ result) :
    Covers norm type facts₂ result ↔
      ∀ pair ∈ facts₁.zip facts₂, ∀ field ∈ type.fields, clashAt field pair.1 pair.2 = true →
        ∀ p, shownAt norm field pair.2 = some p → KeptIn norm type p result := by
  constructor
  · intro hcovers pair hpair field hfield _ p hp
    exact hcovers _ (List.of_mem_zip hpair).2 field hfield p hp
  · intro hclash fact hfact field hfield p hp
    obtain ⟨i, hi, rfl⟩ := List.mem_iff_getElem.mp hfact
    have hpair : (facts₁[i], facts₂[i]) ∈ facts₁.zip facts₂ := by
      rw [List.mem_iff_getElem]
      exact ⟨i, by simp; omega, by simp⟩
    cases hcommon : clashAt field facts₁[i] facts₂[i] with
    | true => exact hclash _ hpair field hfield hcommon p hp
    | false =>
      obtain ⟨q, hq, hinfix⟩ := mergedShown_right hp hcommon
      have hkept : KeptIn norm type p (mergePlaces norm type facts₁ facts₂) :=
        (keptIn_mergePlaces h₁ h₂).mpr ⟨_, hpair, field, hfield, q, hq, hinfix⟩
      exact hkept.mono hresult

end Places

section EqualName

variable {name : String} {facts₁ facts₂ result : List (FactFields Date Fio)}

theorem mergeEqualNameFacts_of_length (hlength : facts₁.length = facts₂.length) :
    mergeEqualNameFacts norm type facts₁ facts₂ = some (mergePlaces norm type facts₁ facts₂) := by
  unfold mergeEqualNameFacts
  split
  · simp at hlength
  · simp at hlength
  · rw [if_pos hlength]
    rfl

theorem mergeEqualNameFacts_cases (h : mergeEqualNameFacts norm type facts₁ facts₂ = some result) :
    (facts₁.length = facts₂.length ∧ result = mergePlaces norm type facts₁ facts₂) ∨
      (∃ one, facts₁ = [one] ∧ 1 < facts₂.length ∧ result = mergeOneToMany norm type one facts₂) ∨
      ∃ one, facts₂ = [one] ∧ 1 < facts₁.length ∧ result = mergeOneToMany norm type one facts₁ := by
  unfold mergeEqualNameFacts at h
  split at h
  · cases h
    exact Or.inr (Or.inl ⟨_, rfl, by simp, rfl⟩)
  · cases h
    exact Or.inr (Or.inr ⟨_, rfl, by simp, rfl⟩)
  · by_cases hlength : facts₁.length = facts₂.length
    · rw [if_pos hlength] at h
      cases h
      exact Or.inl ⟨hlength, rfl⟩
    · rw [if_neg hlength] at h
      cases h

theorem mergeEqualNameFacts_eq_none (h₁ : facts₁ ≠ []) (h₂ : facts₂ ≠ []) :
    mergeEqualNameFacts norm type facts₁ facts₂ = none ↔
      facts₁.length ≠ facts₂.length ∧ facts₁.length ≠ 1 ∧ facts₂.length ≠ 1 := by
  have hpos₁ := List.length_pos_of_ne_nil h₁
  have hpos₂ := List.length_pos_of_ne_nil h₂
  unfold mergeEqualNameFacts
  split
  · simp
  · simp
  · rename_i hfirst hsecond
    by_cases hlength : facts₁.length = facts₂.length
    · simp [hlength]
    · simp only [hlength, if_false, ne_eq, not_false_eq_true, true_and, true_iff]
      constructor
      · intro hone
        obtain ⟨one, rfl⟩ := List.length_eq_one_iff.mp hone
        match facts₂, hfirst with
        | [_], _ => simp at hlength
        | a :: b :: rest, hfirst => exact hfirst one a b rest rfl rfl
      · intro hone
        obtain ⟨one, rfl⟩ := List.length_eq_one_iff.mp hone
        match facts₁, hsecond with
        | [_], _ => simp at hlength
        | a :: b :: rest, hsecond => exact hsecond a b rest one rfl rfl

theorem factsClash_comm (fact₁ fact₂ : FactFields Date Fio) :
    factsClash type fact₁ fact₂ = factsClash type fact₂ fact₁ := by
  simp only [factsClash, clashAt_comm]

theorem mergeEqualNameFacts_merged (h₁ : NamedFacts name facts₁) (h₂ : NamedFacts name facts₂)
    (hone₁ : ∀ one, facts₁ = [one] → ∀ fact ∈ facts₂, factsClash type one fact = false)
    (hone₂ : ∀ one, facts₂ = [one] → ∀ fact ∈ facts₁, factsClash type fact one = false)
    (h : mergeEqualNameFacts norm type facts₁ facts₂ = some result) :
    NamedFacts name result ∧ Covers norm type facts₁ result ∧
      ComesFrom norm type (facts₁ ++ facts₂) result ∧
      (facts₁.length ≠ facts₂.length → Covers norm type facts₂ result) := by
  rcases mergeEqualNameFacts_cases h with ⟨hlength, rfl⟩ | ⟨one, rfl, hmany, rfl⟩ |
    ⟨one, rfl, hmany, rfl⟩
  · exact ⟨mergePlaces_named h₁ h₂, mergePlaces_covers h₁ h₂ hlength,
      mergePlaces_comesFrom h₁ h₂, fun hne => absurd hlength hne⟩
  · obtain ⟨hnames, hcovers, hsingle, hcomes⟩ := @mergeOneToMany_merged _ _ norm type name one
      facts₂ (h₁ one List.mem_cons_self).2 h₂ fun fact hfact => by
        rw [factsClash_comm]
        exact hone₁ one rfl fact hfact
    refine ⟨hnames, hsingle ?_, hcomes, fun _ => hcovers⟩
    rintro rfl
    simp at hmany
  · obtain ⟨hnames, hcovers, hsingle, hcomes⟩ := @mergeOneToMany_merged _ _ norm type name one
      facts₁ (h₂ one List.mem_cons_self).2 h₁ (hone₂ one rfl)
    refine ⟨hnames, hcovers, hcomes.mono ?_, fun _ => hsingle ?_⟩
    · intro fact hfact
      simp only [List.mem_cons, List.mem_append, List.not_mem_nil, or_false] at hfact ⊢
      exact hfact.symm
    · rintro rfl
      simp at hmany

end EqualName

section Subsets

variable (norm) (type) (facts₁ facts₂ : List (FactFields Date Fio))

/-- Whether facts of the two lists clash. -/
def listsClash : Bool := facts₁.any fun fact₁ => facts₂.any fun fact₂ => factsClash type fact₁ fact₂

/-- The first facts that have a partner without a clash. -/
def freeFirst : List (FactFields Date Fio) :=
  facts₁.filter fun fact₁ => facts₂.any fun fact₂ => !factsClash type fact₁ fact₂

/-- The second facts that have a partner without a clash. -/
def freeSecond : List (FactFields Date Fio) :=
  facts₂.filter fun fact₂ => facts₁.any fun fact₁ => !factsClash type fact₁ fact₂

/-- The facts without any such partner. -/
def boundFacts : List (FactFields Date Fio) :=
  facts₁.filter (fun fact₁ => !facts₂.any fun fact₂ => !factsClash type fact₁ fact₂) ++
    facts₂.filter fun fact₂ => !facts₁.any fun fact₁ => !factsClash type fact₁ fact₂

/-- The lists cannot be merged: no facts clash, but there are different numbers of them. -/
def Unmergeable : Prop :=
  facts₁ ≠ [] ∧ facts₂ ≠ [] ∧ listsClash type facts₁ facts₂ = false ∧
    facts₁.length ≠ facts₂.length ∧ facts₁.length ≠ 1 ∧ facts₂.length ≠ 1

/-- The facts that are merged because they stand at the same place, though some facts clash. -/
def placedPairs : List (FactFields Date Fio × FactFields Date Fio) :=
  if listsClash type facts₁ facts₂ = true ∧
      (freeFirst type facts₁ facts₂).length = (freeSecond type facts₁ facts₂).length then
    (freeFirst type facts₁ facts₂).zip (freeSecond type facts₁ facts₂)
  else []

/-- A pair that is merged by its place and has a common field, whose second value is dropped: some
other fact shows it too. -/
def DroppedElsewhere : Prop :=
  ∀ pair ∈ placedPairs type facts₁ facts₂, ∀ field ∈ type.fields,
    clashAt field pair.1 pair.2 = true → ∀ p, shownAt norm field pair.2 = some p →
      KeptIn norm type p (boundFacts type facts₁ facts₂) ∨
      ∃ other ∈ placedPairs type facts₁ facts₂, ∃ field' ∈ type.fields, ∃ q,
        mergedShown norm field' other.1 other.2 = some q ∧ p <:+: q

variable {norm type facts₁ facts₂} {name : String} {result : List (FactFields Date Fio)}

theorem listsClash_eq_false : listsClash type facts₁ facts₂ = false ↔
    ∀ fact₁ ∈ facts₁, ∀ fact₂ ∈ facts₂, factsClash type fact₁ fact₂ = false := by
  simp [listsClash]

theorem NamedFacts.filter (h : NamedFacts name facts₁) (keep : FactFields Date Fio → Bool) :
    NamedFacts name (facts₁.filter keep) :=
  fun fact hfact => h fact (List.mem_of_mem_filter hfact)

theorem freeFirst_subset : freeFirst type facts₁ facts₂ ⊆ facts₁ := List.filter_subset_self _

theorem freeSecond_subset : freeSecond type facts₁ facts₂ ⊆ facts₂ := List.filter_subset_self _

theorem freeFirst_single {one : FactFields Date Fio} (hone : freeFirst type facts₁ facts₂ = [one])
    {fact : FactFields Date Fio} (hfact : fact ∈ freeSecond type facts₁ facts₂) :
    factsClash type one fact = false := by
  rw [freeSecond, List.mem_filter, List.any_eq_true] at hfact
  obtain ⟨hmem, partner, hpartner, hfree⟩ := hfact
  have hpartnerFree : partner ∈ freeFirst type facts₁ facts₂ := by
    rw [freeFirst, List.mem_filter, List.any_eq_true]
    exact ⟨hpartner, fact, hmem, hfree⟩
  rw [hone, List.mem_singleton] at hpartnerFree
  simpa [hpartnerFree] using hfree

theorem freeSecond_single {one : FactFields Date Fio}
    (hone : freeSecond type facts₁ facts₂ = [one]) {fact : FactFields Date Fio}
    (hfact : fact ∈ freeFirst type facts₁ facts₂) : factsClash type fact one = false := by
  rw [freeFirst, List.mem_filter, List.any_eq_true] at hfact
  obtain ⟨hmem, partner, hpartner, hfree⟩ := hfact
  have hpartnerFree : partner ∈ freeSecond type facts₁ facts₂ := by
    rw [freeSecond, List.mem_filter, List.any_eq_true]
    exact ⟨hpartner, fact, hmem, hfree⟩
  rw [hone, List.mem_singleton] at hpartnerFree
  simpa [hpartnerFree] using hfree

theorem mem_freeFirst_or_bound {fact : FactFields Date Fio} (hfact : fact ∈ facts₁) :
    fact ∈ freeFirst type facts₁ facts₂ ∨ fact ∈ boundFacts type facts₁ facts₂ := by
  simp only [freeFirst, boundFacts, List.mem_append, List.mem_filter, Bool.not_eq_true']
  cases hfree : facts₂.any fun fact₂ => !factsClash type fact fact₂ with
  | true => exact Or.inl ⟨hfact, rfl⟩
  | false => exact Or.inr (Or.inl ⟨hfact, rfl⟩)

theorem mem_freeSecond_or_bound {fact : FactFields Date Fio} (hfact : fact ∈ facts₂) :
    fact ∈ freeSecond type facts₁ facts₂ ∨ fact ∈ boundFacts type facts₁ facts₂ := by
  simp only [freeSecond, boundFacts, List.mem_append, List.mem_filter, Bool.not_eq_true']
  cases hfree : facts₁.any fun fact₁ => !factsClash type fact₁ fact with
  | true => exact Or.inl ⟨hfact, rfl⟩
  | false => exact Or.inr (Or.inr ⟨hfact, rfl⟩)

theorem boundFacts_subset : boundFacts type facts₁ facts₂ ⊆ facts₁ ++ facts₂ := by
  intro fact hfact
  rcases List.mem_append.mp hfact with hfact | hfact
  · exact List.mem_append_left _ (List.mem_of_mem_filter hfact)
  · exact List.mem_append_right _ (List.mem_of_mem_filter hfact)

/-- What is told of the facts of one name that are merged. -/
structure SubsetMerged (norm : Inflector) (type : FactType) (name : String)
    (facts₁ facts₂ result : List (FactFields Date Fio)) : Prop where
  named : NamedFacts name result
  first : Covers norm type facts₁ result
  comes : ComesFrom norm type (facts₁ ++ facts₂) result
  second : Covers norm type facts₂ result ↔ DroppedElsewhere norm type facts₁ facts₂

theorem droppedElsewhere_of_nil (h : placedPairs type facts₁ facts₂ = []) :
    DroppedElsewhere norm type facts₁ facts₂ := by
  intro pair hpair
  rw [h] at hpair
  exact absurd hpair List.not_mem_nil

theorem subsetMerged_append (h₁ : NamedFacts name facts₁) (h₂ : NamedFacts name facts₂)
    (hnil : placedPairs type facts₁ facts₂ = []) :
    SubsetMerged norm type name facts₁ facts₂ (facts₁ ++ facts₂) where
  named fact hfact := (List.mem_append.mp hfact).elim (h₁ fact) (h₂ fact)
  first := Covers.of_subset (List.subset_append_left _ _)
  comes := ComesFrom.of_subset (List.Subset.refl _)
  second := iff_of_true (Covers.of_subset (List.subset_append_right _ _))
    (droppedElsewhere_of_nil hnil)

theorem subsetMerged_equal (h₁ : NamedFacts name facts₁) (h₂ : NamedFacts name facts₂)
    (hclash : listsClash type facts₁ facts₂ = false)
    (h : mergeEqualNameFacts norm type facts₁ facts₂ = some result) :
    SubsetMerged norm type name facts₁ facts₂ result := by
  have hfree := listsClash_eq_false.mp hclash
  obtain ⟨hnamed, hfirst, hcomes, hsecond⟩ := mergeEqualNameFacts_merged h₁ h₂
    (fun one hone fact hfact => hfree one (hone ▸ List.mem_cons_self) fact hfact)
    (fun one hone fact hfact => hfree fact hfact one (hone ▸ List.mem_cons_self)) h
  have hnil : placedPairs type facts₁ facts₂ = [] := by simp [placedPairs, hclash]
  refine ⟨hnamed, hfirst, hcomes, iff_of_true ?_ (droppedElsewhere_of_nil hnil)⟩
  by_cases hlength : facts₁.length = facts₂.length
  · rw [mergeEqualNameFacts_of_length hlength] at h
    cases h
    rw [mergePlaces_second h₁ h₂ hlength (List.Subset.refl _)]
    intro pair hpair field hfield hcommon
    have hpairFree := hfree _ (List.of_mem_zip hpair).1 _ (List.of_mem_zip hpair).2
    rw [factsClash, List.any_eq_false] at hpairFree
    exact absurd hcommon (hpairFree field hfield)
  · exact hsecond hlength

/-- In a partial intersection all is kept but what clashes at one place. -/
theorem subsetMerged_partial (h₁ : NamedFacts name facts₁) (h₂ : NamedFacts name facts₂)
    (hclash : listsClash type facts₁ facts₂ = true) {merged : List (FactFields Date Fio)}
    (h : mergeEqualNameFacts norm type (freeFirst type facts₁ facts₂)
      (freeSecond type facts₁ facts₂) = some merged)
    (hresult : ∀ fact, fact ∈ result ↔ fact ∈ boundFacts type facts₁ facts₂ ∨ fact ∈ merged) :
    SubsetMerged norm type name facts₁ facts₂ result := by
  have hfree₁ : NamedFacts name (freeFirst type facts₁ facts₂) := h₁.filter _
  have hfree₂ : NamedFacts name (freeSecond type facts₁ facts₂) := h₂.filter _
  obtain ⟨hnamed, hfirst, hcomes, hsecond⟩ := mergeEqualNameFacts_merged hfree₁ hfree₂
    (fun one hone fact hfact => freeFirst_single hone hfact)
    (fun one hone fact hfact => freeSecond_single hone hfact) h
  have hbound : boundFacts type facts₁ facts₂ ⊆ result := fun fact hfact =>
    (hresult fact).mpr (Or.inl hfact)
  have hmerged : merged ⊆ result := fun fact hfact => (hresult fact).mpr (Or.inr hfact)
  have hboth : NamedFacts name (facts₁ ++ facts₂) := fun fact hfact =>
    (List.mem_append.mp hfact).elim (h₁ fact) (h₂ fact)
  have hcoversSecond : Covers norm type facts₂ result ↔
      Covers norm type (freeSecond type facts₁ facts₂) result := by
    constructor
    · intro hcovers fact hfact
      exact hcovers fact (freeSecond_subset hfact)
    · intro hcovers fact hfact
      rcases mem_freeSecond_or_bound hfact with hfact | hfact
      · exact hcovers fact hfact
      · exact Covers.of_subset hbound fact hfact
  refine ⟨?_, ?_, ?_, ?_⟩
  · intro fact hfact
    rcases (hresult fact).mp hfact with hfact | hfact
    · exact hboth fact (boundFacts_subset hfact)
    · exact hnamed fact hfact
  · intro fact hfact
    rcases mem_freeFirst_or_bound hfact with hfact | hfact
    · exact hfirst.mono hmerged fact hfact
    · exact Covers.of_subset hbound fact hfact
  · intro fact hfact
    rcases (hresult fact).mp hfact with hfact | hfact
    · exact ComesFrom.of_subset boundFacts_subset fact hfact
    · have hsub : freeFirst type facts₁ facts₂ ++ freeSecond type facts₁ facts₂ ⊆
          facts₁ ++ facts₂ := by
        intro fact hfact
        rcases List.mem_append.mp hfact with hfact | hfact
        · exact List.mem_append_left _ (freeFirst_subset hfact)
        · exact List.mem_append_right _ (freeSecond_subset hfact)
      exact hcomes.mono hsub fact hfact
  · rw [hcoversSecond]
    by_cases hlength : (freeFirst type facts₁ facts₂).length =
        (freeSecond type facts₁ facts₂).length
    · rw [mergeEqualNameFacts_of_length hlength] at h
      cases h
      have hkept (p : List (Part Date Fio)) : KeptIn norm type p result ↔
          KeptIn norm type p (boundFacts type facts₁ facts₂) ∨
            KeptIn norm type p (mergePlaces norm type (freeFirst type facts₁ facts₂)
              (freeSecond type facts₁ facts₂)) := by
        simp only [KeptIn, hresult, or_and_right, exists_or]
      rw [mergePlaces_second hfree₁ hfree₂ hlength hmerged, DroppedElsewhere, placedPairs,
        if_pos ⟨hclash, hlength⟩]
      simp only [hkept, keptIn_mergePlaces hfree₁ hfree₂]
    · have hnil : placedPairs type facts₁ facts₂ = [] := by simp [placedPairs, hlength]
      exact iff_of_true ((hsecond hlength).mono hmerged) (droppedElsewhere_of_nil hnil)

theorem isFactIntersection_eq_none :
    isFactIntersection norm type facts₁ facts₂ = none ↔ listsClash type facts₁ facts₂ = false := by
  unfold isFactIntersection
  dsimp only
  constructor
  · intro h
    by_contra hclash
    rw [Bool.not_eq_false, listsClash] at hclash
    rw [hclash] at h
    simp only [Bool.not_true, Bool.false_eq_true, if_false] at h
    split at h
    · cases h
    · split at h <;> cases h
  · intro h
    rw [listsClash] at h
    rw [h]
    rfl

/-- What `IsFactIntersection` leaves if there is an intersection. -/
theorem isFactIntersection_merged {lists : List (FactFields Date Fio) × List (FactFields Date Fio)}
    (h₁ : NamedFacts name facts₁) (h₂ : NamedFacts name facts₂)
    (h : isFactIntersection norm type facts₁ facts₂ = some lists) :
    SubsetMerged norm type name facts₁ facts₂ (lists.1 ++ lists.2) := by
  have hclash : listsClash type facts₁ facts₂ = true := by
    cases hclash : listsClash type facts₁ facts₂ with
    | true => rfl
    | false =>
      rw [isFactIntersection_eq_none.mpr hclash] at h
      cases h
  have hany := hclash
  unfold listsClash at hany
  unfold isFactIntersection at h
  simp only [hany, Bool.not_true, Bool.false_eq_true, if_false] at h
  by_cases hfree : freeFirst type facts₁ facts₂ = []
  · have hnone := hfree
    unfold freeFirst at hnone
    rw [if_pos hnone] at h
    cases h
    exact subsetMerged_append h₁ h₂ (by simp [placedPairs, hfree])
  · have hsome := hfree
    unfold freeFirst at hsome
    rw [if_neg hsome] at h
    cases hmerged : mergeEqualNameFacts norm type (freeFirst type facts₁ facts₂)
        (freeSecond type facts₁ facts₂) with
    | none =>
      have hresult := hmerged
      unfold freeFirst freeSecond at hresult
      rw [hresult] at h
      cases h
      apply subsetMerged_append h₁ h₂
      rw [placedPairs, if_neg]
      rintro ⟨-, hlength⟩
      rw [mergeEqualNameFacts_of_length hlength] at hmerged
      cases hmerged
    | some merged =>
      have hresult := hmerged
      unfold freeFirst freeSecond at hresult
      rw [hresult] at h
      cases h
      apply subsetMerged_partial h₁ h₂ hclash hmerged
      intro fact
      simp only [boundFacts, List.mem_append, List.append_nil]
      tauto

theorem mergeSubsets_eq_none :
    mergeSubsets norm type facts₁ facts₂ = none ↔ Unmergeable type facts₁ facts₂ := by
  unfold mergeSubsets Unmergeable
  by_cases hnil₂ : facts₂ = []
  · simp [hnil₂]
  · by_cases hnil₁ : facts₁ = []
    · simp [hnil₁, hnil₂]
    · rw [if_neg hnil₂, if_neg hnil₁]
      cases hintersection : isFactIntersection norm type facts₁ facts₂ with
      | none =>
        have hclash := isFactIntersection_eq_none.mp hintersection
        simp only [mergeEqualNameFacts_eq_none hnil₁ hnil₂, hclash, ne_eq, hnil₁, hnil₂,
          not_false_eq_true, true_and]
      | some lists =>
        have hclash : ¬listsClash type facts₁ facts₂ = false := by
          rw [← @isFactIntersection_eq_none Date Fio norm, hintersection]
          simp
        simp [hclash]

theorem mergeSubsets_merged (h₁ : NamedFacts name facts₁) (h₂ : NamedFacts name facts₂)
    (h : mergeSubsets norm type facts₁ facts₂ = some result) :
    SubsetMerged norm type name facts₁ facts₂ result := by
  unfold mergeSubsets at h
  by_cases hnil₂ : facts₂ = []
  · rw [if_pos hnil₂] at h
    cases h
    have happend := @subsetMerged_append _ _ norm type facts₁ facts₂ name h₁ h₂
      (by simp [placedPairs, listsClash, hnil₂])
    rwa [hnil₂, List.append_nil, ← hnil₂] at happend
  · rw [if_neg hnil₂] at h
    by_cases hnil₁ : facts₁ = []
    · rw [if_pos hnil₁] at h
      cases h
      have happend := @subsetMerged_append _ _ norm type facts₁ facts₂ name h₁ h₂
        (by simp [placedPairs, listsClash, hnil₁])
      rwa [hnil₁, List.nil_append, ← hnil₁] at happend
    · rw [if_neg hnil₁] at h
      cases hintersection : isFactIntersection norm type facts₁ facts₂ with
      | none =>
        rw [hintersection] at h
        exact subsetMerged_equal h₁ h₂ (isFactIntersection_eq_none.mp hintersection) h
      | some lists =>
        rw [hintersection] at h
        cases h
        exact isFactIntersection_merged h₁ h₂ hintersection

end Subsets

section Groups

variable (norm) (types : String → FactType) (facts₁ facts₂ : List (FactFields Date Fio))

/-- A merge loses no value: each value of a fact is shown by a fact of that name, alone or in a
concatenated text, no fact shows a part of another name's value, and a merge that fails leaves the
first list. -/
def LosesNoValue : Prop :=
  let merged := mergeFactGroups norm types facts₁ facts₂
  (merged.1 = true →
    (∀ fact ∈ facts₁ ++ facts₂, ∀ field ∈ (types fact.strFactName).fields,
      ∀ p, shownAt norm field fact = some p →
        ∃ fact' ∈ merged.2, fact'.strFactName = fact.strFactName ∧
          ∃ field' ∈ (types fact.strFactName).fields, ∃ q,
            shownAt norm field' fact' = some q ∧ p <:+: q) ∧
    ∀ fact' ∈ merged.2, ∀ field ∈ (types fact'.strFactName).fields,
      ∀ q, shownAt norm field fact' = some q → ∀ part ∈ q,
        ∃ fact ∈ facts₁ ++ facts₂, fact.strFactName = fact'.strFactName ∧
          ∃ p, shownAt norm field fact = some p ∧ part ∈ p) ∧
  (merged.1 = false → merged.2 = facts₁)

/-- The condition for it: the facts of some name cannot be merged, or for each name what is dropped
is shown elsewhere. -/
def DropsNothing : Prop :=
  (∃ name, Unmergeable (types name) (factSubset facts₁ name) (factSubset facts₂ name)) ∨
    ∀ name, DroppedElsewhere norm (types name) (factSubset facts₁ name) (factSubset facts₂ name)

variable {norm types facts₁ facts₂}

theorem factSubset_named {facts : List (FactFields Date Fio)} (hfacts : ∀ fact ∈ facts, fact.Filled)
    (name : String) : NamedFacts name (factSubset facts name) := by
  intro fact hfact
  rw [factSubset, List.mem_filter, decide_eq_true_iff] at hfact
  exact ⟨hfact.2, hfacts fact hfact.1⟩

theorem mem_factSubset {facts : List (FactFields Date Fio)} {fact : FactFields Date Fio}
    {name : String} : fact ∈ factSubset facts name ↔ fact ∈ facts ∧ fact.strFactName = name := by
  rw [factSubset, List.mem_filter, decide_eq_true_iff]

theorem mem_factNames {facts : List (FactFields Date Fio)} {name : String} :
    name ∈ factNames facts ↔ ∃ fact ∈ facts, fact.strFactName = name := by
  simp [factNames]

theorem factSubset_eq_nil {facts : List (FactFields Date Fio)} {name : String}
    (hname : ∀ fact ∈ facts, fact.strFactName ≠ name) : factSubset facts name = [] := by
  rw [factSubset, List.filter_eq_nil_iff]
  simpa using hname

theorem mapM_eq_some {f : String → Option (List (FactFields Date Fio))} {names : List String}
    {lists : List (List (FactFields Date Fio))} (h : names.mapM f = some lists) :
    (∀ name ∈ names, ∃ result, f name = some result) ∧
      ∀ fact, fact ∈ lists.flatten ↔ ∃ name ∈ names, ∃ result, f name = some result ∧
        fact ∈ result := by
  induction names generalizing lists with
  | nil =>
    cases h
    simp
  | cons name names ih =>
    rw [List.mapM_cons] at h
    simp only [Option.bind_eq_bind, Option.bind_eq_some_iff, Option.pure_def,
      Option.some.injEq] at h
    obtain ⟨first, hfirst, rest, hrest, rfl⟩ := h
    obtain ⟨hall, hmem⟩ := ih hrest
    constructor
    · intro other hother
      rcases List.mem_cons.mp hother with rfl | hother
      · exact ⟨first, hfirst⟩
      · exact hall other hother
    · intro fact
      rw [List.flatten_cons, List.mem_append, hmem]
      simp [hfirst]

theorem mapM_eq_none {f : String → Option (List (FactFields Date Fio))} {names : List String} :
    names.mapM f = none ↔ ∃ name ∈ names, f name = none := by
  induction names with
  | nil => simp
  | cons name names ih =>
    rw [List.mapM_cons]
    cases hname : f name with
    | none => simp [hname]
    | some first =>
      cases hnames : names.mapM f with
      | none =>
        obtain ⟨other, hother, hnone⟩ := ih.mp hnames
        simp only [Option.bind_eq_bind, Option.bind_some, Option.bind_none, true_iff]
        exact ⟨other, List.mem_cons_of_mem _ hother, hnone⟩
      | some rest =>
        have hall : ¬∃ other ∈ names, f other = none := by
          rw [← ih, hnames]
          simp
        simp [hname]
        simpa using hall

theorem SubsetMerged.congr {type : FactType} {name : String}
    {facts facts' result result' : List (FactFields Date Fio)}
    (h : SubsetMerged norm type name facts facts' result)
    (hmem : ∀ fact, fact ∈ result' ↔ fact ∈ result) :
    SubsetMerged norm type name facts facts' result' where
  named fact hfact := h.named fact ((hmem fact).mp hfact)
  first := h.first.mono fun fact hfact => (hmem fact).mpr hfact
  comes fact hfact := h.comes fact ((hmem fact).mp hfact)
  second := by
    rw [← h.second]
    constructor
    · intro hcovers
      exact hcovers.mono fun fact hfact => (hmem fact).mp hfact
    · intro hcovers
      exact hcovers.mono fun fact hfact => (hmem fact).mpr hfact

/-- Where the merge succeeds, it does for each name. -/
theorem mergeFactGroups_subsets (h₁ : ∀ fact ∈ facts₁, fact.Filled)
    (h₂ : ∀ fact ∈ facts₂, fact.Filled)
    (hmerged : (mergeFactGroups norm types facts₁ facts₂).1 = true) (name : String) :
    SubsetMerged norm (types name) name (factSubset facts₁ name) (factSubset facts₂ name)
      (factSubset (mergeFactGroups norm types facts₁ facts₂).2 name) := by
  have hnamed₁ := factSubset_named h₁
  have hnamed₂ := factSubset_named h₂
  have hnil : placedPairs (types name) (factSubset facts₁ name) [] = [] ∧
      placedPairs (types name) [] (factSubset facts₂ name) = [] := by
    simp [placedPairs, listsClash]
  unfold mergeFactGroups at hmerged ⊢
  by_cases hnil₂ : facts₂ = []
  · rw [if_pos hnil₂]
    subst hnil₂
    have happend := @subsetMerged_append Date Fio norm _ _ _ name (hnamed₁ name) (hnamed₂ name)
      hnil.1
    rwa [show factSubset ([] : List (FactFields Date Fio)) name = [] from rfl,
      List.append_nil] at happend
  · rw [if_neg hnil₂] at hmerged ⊢
    by_cases hnil₁ : facts₁ = []
    · rw [if_pos hnil₁]
      subst hnil₁
      exact subsetMerged_append (hnamed₁ name) (hnamed₂ name) hnil.2
    · rw [if_neg hnil₁] at hmerged ⊢
      dsimp only at hmerged ⊢
      cases hlists : (factNames (facts₁ ++ facts₂)).mapM fun name =>
          mergeSubsets norm (types name) (factSubset facts₁ name) (factSubset facts₂ name) with
      | none =>
        rw [hlists] at hmerged
        cases hmerged
      | some lists =>
        obtain ⟨hall, hmem⟩ := mapM_eq_some hlists
        have hresult (fact : FactFields Date Fio) : fact ∈ factSubset lists.flatten name ↔
            ∃ result, mergeSubsets norm (types name) (factSubset facts₁ name)
              (factSubset facts₂ name) = some result ∧ name ∈ factNames (facts₁ ++ facts₂) ∧
              fact ∈ result := by
          rw [mem_factSubset, hmem]
          constructor
          · rintro ⟨⟨other, hother, result, hmergedOther, hfact⟩, hname⟩
            have hsame := ((mergeSubsets_merged (hnamed₁ other) (hnamed₂ other)
              hmergedOther).named fact hfact).1
            rw [← hname, hsame]
            exact ⟨result, hmergedOther, hother, hfact⟩
          · rintro ⟨result, hmergedName, hname, hfact⟩
            exact ⟨⟨name, hname, result, hmergedName, hfact⟩,
              ((mergeSubsets_merged (hnamed₁ name) (hnamed₂ name) hmergedName).named fact
                hfact).1⟩
        by_cases hname : name ∈ factNames (facts₁ ++ facts₂)
        · obtain ⟨result, hmergedName⟩ := hall name hname
          apply (mergeSubsets_merged (hnamed₁ name) (hnamed₂ name) hmergedName).congr
          intro fact
          rw [hresult]
          simp [hmergedName, hname]
        · have hnone (facts : List (FactFields Date Fio)) (hsub : facts ⊆ facts₁ ++ facts₂) :
              factSubset facts name = [] := by
            apply factSubset_eq_nil
            intro fact hfact heq
            exact hname (mem_factNames.mpr ⟨fact, hsub hfact, heq⟩)
          have hempty : factSubset lists.flatten name = [] := by
            rw [List.eq_nil_iff_forall_not_mem]
            intro fact hfact
            obtain ⟨_, _, hname', _⟩ := (hresult fact).mp hfact
            exact hname hname'
          have hsub₁ := hnone facts₁ (List.subset_append_left _ _)
          have hsub₂ := hnone facts₂ (List.subset_append_right _ _)
          have happend := @subsetMerged_append Date Fio norm (types name) _ _ name (hnamed₁ name)
            (hnamed₂ name) (by rw [hsub₂]; exact hnil.1)
          rw [hempty]
          rwa [hsub₁, hsub₂] at happend ⊢

/-- The merge fails if the facts of some name cannot be merged, and leaves the first list. -/
theorem mergeFactGroups_fails :
    ((mergeFactGroups norm types facts₁ facts₂).1 = false ↔
      ∃ name, Unmergeable (types name) (factSubset facts₁ name) (factSubset facts₂ name)) ∧
    ((mergeFactGroups norm types facts₁ facts₂).1 = false →
      (mergeFactGroups norm types facts₁ facts₂).2 = facts₁) := by
  unfold mergeFactGroups
  by_cases hnil₂ : facts₂ = []
  · simp [hnil₂, Unmergeable, factSubset]
  · by_cases hnil₁ : facts₁ = []
    · simp [hnil₂, hnil₁, Unmergeable, factSubset]
    · rw [if_neg hnil₂, if_neg hnil₁]
      dsimp only
      have hnone : (∃ name, Unmergeable (types name) (factSubset facts₁ name)
          (factSubset facts₂ name)) ↔ ∃ name ∈ factNames (facts₁ ++ facts₂),
            mergeSubsets norm (types name) (factSubset facts₁ name) (factSubset facts₂ name) =
              none := by
        simp only [mergeSubsets_eq_none]
        constructor
        · rintro ⟨name, hunmergeable⟩
          refine ⟨name, ?_, hunmergeable⟩
          obtain ⟨fact, hfact⟩ := List.exists_mem_of_ne_nil _ hunmergeable.1
          rw [mem_factSubset] at hfact
          exact mem_factNames.mpr ⟨fact, List.mem_append_left _ hfact.1, hfact.2⟩
        · rintro ⟨name, -, hunmergeable⟩
          exact ⟨name, hunmergeable⟩
      rw [hnone, ← mapM_eq_none]
      cases hlists : (factNames (facts₁ ++ facts₂)).mapM fun name =>
          mergeSubsets norm (types name) (factSubset facts₁ name) (factSubset facts₂ name) with
      | none => simp
      | some lists => simp

theorem LosesNoValue.covers (h : LosesNoValue norm types facts₁ facts₂)
    (hmerged : (mergeFactGroups norm types facts₁ facts₂).1 = true) (name : String) :
    Covers norm (types name) (factSubset facts₂ name)
      (factSubset (mergeFactGroups norm types facts₁ facts₂).2 name) := by
  intro fact hfact field hfield p hp
  obtain ⟨hmem, rfl⟩ := mem_factSubset.mp hfact
  obtain ⟨fact', hfact', hname, hrest⟩ := (h.1 hmerged).1 fact (List.mem_append_right _ hmem) field
    hfield p hp
  exact ⟨fact', mem_factSubset.mpr ⟨hfact', hname⟩, hrest⟩

/-- A merge of facts loses no value exactly if it fails for some name, or if the value of each
second fact that is merged by its place into a fact with a common field is also shown elsewhere. -/
theorem mergeFactGroups_losesNoValue (h₁ : ∀ fact ∈ facts₁, fact.Filled)
    (h₂ : ∀ fact ∈ facts₂, fact.Filled) :
    LosesNoValue norm types facts₁ facts₂ ↔ DropsNothing norm types facts₁ facts₂ := by
  obtain ⟨hfails, hunchanged⟩ := @mergeFactGroups_fails Date Fio norm types facts₁ facts₂
  cases hmerged : (mergeFactGroups norm types facts₁ facts₂).1 with
  | false => simp [LosesNoValue, DropsNothing, hfails.mp hmerged, hunchanged hmerged, hmerged]
  | true =>
    have hmergeable : ¬∃ name, Unmergeable (types name) (factSubset facts₁ name)
        (factSubset facts₂ name) := by
      rw [← hfails, hmerged]
      simp
    have hsubsets := mergeFactGroups_subsets h₁ h₂ hmerged
    rw [DropsNothing, or_iff_right hmergeable]
    simp only [← (hsubsets _).second]
    constructor
    · intro hloses
      exact hloses.covers hmerged
    · intro hsecond
      refine ⟨fun _ => ⟨?_, ?_⟩, fun hfalse => by simp [hmerged] at hfalse⟩
      · intro fact hfact field hfield p hp
        have hkept : KeptIn norm (types fact.strFactName) p
            (factSubset (mergeFactGroups norm types facts₁ facts₂).2 fact.strFactName) := by
          rcases List.mem_append.mp hfact with hfact | hfact
          · exact (hsubsets _).first fact (mem_factSubset.mpr ⟨hfact, rfl⟩) field hfield p hp
          · exact hsecond _ fact (mem_factSubset.mpr ⟨hfact, rfl⟩) field hfield p hp
        obtain ⟨fact', hfact', hrest⟩ := hkept
        exact ⟨fact', (mem_factSubset.mp hfact').1, (mem_factSubset.mp hfact').2, hrest⟩
      · intro fact' hfact' field hfield q hq part hpart
        obtain ⟨fact, hfact, p, hp, hmem⟩ := (hsubsets _).comes fact'
          (mem_factSubset.mpr ⟨hfact', rfl⟩) field hfield q hq part hpart
        rcases List.mem_append.mp hfact with hfact | hfact
        · exact ⟨fact, List.mem_append_left _ (mem_factSubset.mp hfact).1,
            (mem_factSubset.mp hfact).2, p, hp, hmem⟩
        · exact ⟨fact, List.mem_append_right _ (mem_factSubset.mp hfact).1,
            (mem_factSubset.mp hfact).2, p, hp, hmem⟩

/-- An inflector that has nothing to do. -/
def plainInflector : Inflector := ⟨fun _ _ => [], id⟩

/-- A fact type with two texts. -/
def appointment (_ : String) : FactType :=
  ⟨[⟨"Post", .textField, []⟩, ⟨"Name", .textField, []⟩], by decide⟩

/-- A fact with one word. -/
def wordFact (field : String) (place : ℤ) (word : String) : FactFields Unit Unit :=
  ⟨"Appointment", fun name => if name = field then
    some (.text { pair := ⟨place, place⟩, lemmas := [⟨word, word⟩] }) else none⟩

theorem wordFact_filled (field : String) (place : ℤ) (word : String) :
    (wordFact field place word).Filled := by
  intro name value hvalue
  simp only [wordFact] at hvalue
  split_ifs at hvalue
  · cases hvalue
    simp [FieldValue.Filled]
  · cases hvalue

/-- A fact with one word that is to be concatenated. -/
def joinedFact (field : String) (place : ℤ) (word : String) : FactFields Unit Unit :=
  ⟨"Appointment", fun name => if name = field then
    some (.text { pair := ⟨place, place⟩, lemmas := [⟨word, word⟩], bConcatenation := true })
    else none⟩

theorem joinedFact_filled (field : String) (place : ℤ) (word : String) :
    (joinedFact field place word).Filled := by
  intro name value hvalue
  simp only [joinedFact] at hvalue
  split_ifs at hvalue
  · cases hvalue
    simp [FieldValue.Filled]
  · cases hvalue

/-- Two posts are put together, and a post gets a name. -/
theorem mergeFactGroups_losesNoValue_joined :
    LosesNoValue plainInflector appointment
        [joinedFact "Post" 1 "deputy", joinedFact "Post" 2 "director"]
        [joinedFact "Post" 3 "minister", wordFact "Name" 4 "petrov"] ∧
      (mergeFactGroups plainInflector appointment
        [joinedFact "Post" 1 "deputy", joinedFact "Post" 2 "director"]
        [joinedFact "Post" 3 "minister", wordFact "Name" 4 "petrov"]).1 = true := by
  refine ⟨?_, by decide +kernel⟩
  apply (mergeFactGroups_losesNoValue (by simp [joinedFact_filled])
    (by simp [joinedFact_filled, wordFact_filled])).mpr
  right
  intro name
  apply droppedElsewhere_of_nil
  by_cases hname : "Appointment" = name
  · subst hname
    rfl
  · simp [factSubset, wordFact, joinedFact, hname, placedPairs, listsClash]

/-- In a chain of a post, a name, a post and a name the second post is lost. -/
theorem mergeFactGroups_crossed :
    ¬LosesNoValue plainInflector appointment
      [wordFact "Post" 1 "director", wordFact "Name" 2 "ivanov"]
      [wordFact "Post" 3 "minister", wordFact "Name" 4 "petrov"] := by
  intro hloses
  have hmerged : (mergeFactGroups plainInflector appointment
      [wordFact "Post" 1 "director", wordFact "Name" 2 "ivanov"]
      [wordFact "Post" 3 "minister", wordFact "Name" 4 "petrov"]).1 = true := by
    decide +kernel
  have hdropped := (mergeFactGroups_subsets (by simp [wordFact_filled]) (by simp [wordFact_filled])
    hmerged "Appointment").second.mp (hloses.covers hmerged "Appointment")
  have hpairs : placedPairs (appointment "Appointment")
      (factSubset [wordFact "Post" 1 "director", wordFact "Name" 2 "ivanov"] "Appointment")
      (factSubset [wordFact "Post" 3 "minister", wordFact "Name" 4 "petrov"] "Appointment") =
      [(wordFact "Post" 1 "director", wordFact "Post" 3 "minister"),
        (wordFact "Name" 2 "ivanov", wordFact "Name" 4 "petrov")] := rfl
  have hbound : boundFacts (appointment "Appointment")
      (factSubset [wordFact "Post" 1 "director", wordFact "Name" 2 "ivanov"] "Appointment")
      (factSubset [wordFact "Post" 3 "minister", wordFact "Name" 4 "petrov"] "Appointment") =
      [] := rfl
  rw [DroppedElsewhere, hpairs, hbound] at hdropped
  have hpost := hdropped _ List.mem_cons_self ⟨"Post", .textField, []⟩ List.mem_cons_self rfl
    [.word ⟨"minister", "minister"⟩] rfl
  rcases hpost with ⟨fact, hfact, -⟩ | ⟨other, hother, field, hfield, q, hq, hinfix⟩
  · exact absurd hfact List.not_mem_nil
  · have hmem := hinfix.subset List.mem_cons_self
    simp only [List.mem_cons, List.not_mem_nil, or_false] at hother
    simp only [appointment, List.mem_cons, List.not_mem_nil, or_false] at hfield
    rcases hother with rfl | rfl <;> rcases hfield with rfl | rfl <;>
      simp [mergedShown, wordFact, joinShown, concatenable, FieldValue.concatenation, shown,
        normalizeField, TextWS.normalizeText, TextWS.normalizeSequence, FieldValue.parts] at hq <;>
      simp [← hq] at hmem

end Groups

end TomitaParser.Rusie
