import TomitaParser.Rusie.FactMerge
/-! # What merged facts show

Two facts that are merged show at each field what the first one shows, what the second one shows if
the first one has no value, or both texts one after the other. -/

namespace TomitaParser.Rusie

variable {Date Fio : Type} (norm : Inflector)

/-- What a fact shows at a field. -/
def shownAt (field : FactFieldDescr) (fact : FactFields Date Fio) :
    Option (List (Part Date Fio)) :=
  (fact.value field.strFieldName).map (shown norm field)

/-- The flag of a fact's value. -/
def flagAt (field : FactFieldDescr) (fact : FactFields Date Fio) : Option (Option Bool) :=
  (fact.value field.strFieldName).map FieldValue.concatenation

/-- Two facts have the same value up to normalization. -/
def AgreeAt (field : FactFieldDescr) (fact fact' : FactFields Date Fio) : Prop :=
  (fact.value field.strFieldName).map (normalizeField norm field) =
    (fact'.value field.strFieldName).map (normalizeField norm field)

/-- Whether the first of two texts is the one that is appended. -/
def FieldValue.appendsFirst : FieldValue Date Fio → FieldValue Date Fio → Bool
  | .text t₁, .text t₂ => t₁.appendsFirst t₂
  | _, _ => false

/-- What two values of a field show when the second one is merged into the first one. -/
def joinShown (field : FactFieldDescr) (x y : FieldValue Date Fio) : List (Part Date Fio) :=
  if concatenable x y then
    if x.appendsFirst y then shown norm field y ++ shown norm field x
    else shown norm field x ++ shown norm field y
  else shown norm field x

/-- What two facts show at a field when the second one is merged into the first one. -/
def mergedShown (field : FactFieldDescr) (fact₁ fact₂ : FactFields Date Fio) :
    Option (List (Part Date Fio)) :=
  match fact₁.value field.strFieldName, fact₂.value field.strFieldName with
  | some x, some y => some (joinShown norm field x y)
  | some x, none => some (shown norm field x)
  | none, y => y.map (shown norm field)

variable {norm}

theorem appendsFirst_normalizeField (field : FactFieldDescr) (x y : FieldValue Date Fio) :
    (normalizeField norm field x).appendsFirst (normalizeField norm field y) =
      x.appendsFirst y := by
  cases x with
  | text t₁ =>
    cases y with
    | text t₂ =>
      simp only [normalizeField, FieldValue.appendsFirst]
      split_ifs
      · have h₁ := TextWS.normalizeSequence_frame norm t₁
          (if "gennorm" ∈ field.options then norm.genitive t₁.iNormGrammems else t₁.iNormGrammems)
        have h₂ := TextWS.normalizeSequence_frame norm t₂
          (if "gennorm" ∈ field.options then norm.genitive t₂.iNormGrammems else t₂.iNormGrammems)
        simp only [TextWS.frame, Prod.mk.injEq] at h₁ h₂
        simp only [TextWS.appendsFirst, TextWS.normalizeText, h₁, h₂]
      · rfl
    | bool pair value => rfl
    | date d => rfl
    | fio f => rfl
  | bool pair value => rfl
  | date d => rfl
  | fio f => rfl

theorem concatenable_normalizeField (field : FactFieldDescr) (x y : FieldValue Date Fio) :
    concatenable (normalizeField norm field x) (normalizeField norm field y) =
      concatenable x y := by
  simp only [concatenable, concatenation_normalizeField]

theorem joinShown_normalizeField (field : FactFieldDescr) (x y : FieldValue Date Fio) :
    joinShown norm field (normalizeField norm field x) (normalizeField norm field y) =
      joinShown norm field x y := by
  simp only [joinShown, concatenable_normalizeField, appendsFirst_normalizeField,
    shown_normalizeField]

namespace AgreeAt

variable {field : FactFieldDescr} {fact fact' : FactFields Date Fio}

theorem map_eq {β : Type} (h : AgreeAt norm field fact fact') {g : FieldValue Date Fio → β}
    (hg : ∀ value, g (normalizeField norm field value) = g value) :
    (fact.value field.strFieldName).map g = (fact'.value field.strFieldName).map g := by
  have hmap (u : Option (FieldValue Date Fio)) :
      u.map g = (u.map (normalizeField norm field)).map g := by
    cases u with
    | none => rfl
    | some value => simp [hg]
  rw [hmap, hmap (fact'.value _), h]

theorem shownAt_eq (h : AgreeAt norm field fact fact') :
    shownAt norm field fact = shownAt norm field fact' :=
  h.map_eq (shown_normalizeField norm field)

theorem flagAt_eq (h : AgreeAt norm field fact fact') : flagAt field fact = flagAt field fact' :=
  h.map_eq (concatenation_normalizeField norm field)

protected theorem refl (field : FactFieldDescr) (fact : FactFields Date Fio) :
    AgreeAt norm field fact fact := rfl

theorem addValue (h : AgreeAt norm field fact fact') {name : String}
    (hne : field.strFieldName ≠ name) (value : FieldValue Date Fio) :
    AgreeAt norm field (fact.addValue name value) fact' := by
  rw [AgreeAt, FactFields.addValue_of_ne fact value hne]
  exact h

end AgreeAt

theorem mergedShown_congr {field : FactFieldDescr} {fact₁ fact₂ fact₁' fact₂' : FactFields Date Fio}
    (h₁ : AgreeAt norm field fact₁ fact₁') (h₂ : AgreeAt norm field fact₂ fact₂') :
    mergedShown norm field fact₁ fact₂ = mergedShown norm field fact₁' fact₂' := by
  have hmerged (fact₁ fact₂ : FactFields Date Fio) : mergedShown norm field fact₁ fact₂ =
      match (fact₁.value field.strFieldName).map (normalizeField norm field),
        (fact₂.value field.strFieldName).map (normalizeField norm field) with
      | some x, some y => some (joinShown norm field x y)
      | some x, none => some (shown norm field x)
      | none, y => y.map (shown norm field) := by
    unfold mergedShown
    cases fact₁.value field.strFieldName with
    | none =>
      cases fact₂.value field.strFieldName with
      | none => rfl
      | some y => simp [shown_normalizeField]
    | some x =>
      cases fact₂.value field.strFieldName with
      | none => simp [shown_normalizeField]
      | some y => simp [joinShown_normalizeField]
  rw [hmerged, hmerged, h₁, h₂]

section NormalizeFact

variable (type : FactType) (fact : FactFields Date Fio)

@[simp] theorem normalizeFact_name :
    (normalizeFact norm type fact).strFactName = fact.strFactName :=
  (normalizeFact_fold norm type.nodup fact).1

theorem normalizeFact_value {field : FactFieldDescr} (hfield : field ∈ type.fields) :
    (normalizeFact norm type fact).value field.strFieldName =
      (fact.value field.strFieldName).map (normalizeField norm field) :=
  (normalizeFact_fold norm type.nodup fact).2.2.1 field hfield

theorem normalizeFact_filled {fact : FactFields Date Fio} (hfact : fact.Filled) :
    (normalizeFact norm type fact).Filled :=
  (normalizeFact_fold norm type.nodup fact).2.2.2 hfact

theorem normalizeFact_agreeAt {field : FactFieldDescr} (hfield : field ∈ type.fields) :
    AgreeAt norm field (normalizeFact norm type fact) fact := by
  rw [AgreeAt, normalizeFact_value type fact hfield]
  cases fact.value field.strFieldName with
  | none => rfl
  | some value => simp [normalizeField_idem]

end NormalizeFact

/-- What a step of `MergeTwoFacts` does at its field. -/
structure MergedAt (norm : Inflector) (field : FactFieldDescr)
    (facts merged : FactFields Date Fio × FactFields Date Fio) : Prop where
  first : shownAt norm field merged.1 = mergedShown norm field facts.1 facts.2
  second : shownAt norm field merged.2 = shownAt norm field facts.2
  flag : flagAt field merged.2 = flagAt field facts.2

/-- What a step of `MergeTwoFacts` keeps. -/
structure Kept (norm : Inflector) (field : FactFieldDescr)
    (facts merged : FactFields Date Fio × FactFields Date Fio) : Prop where
  first : AgreeAt norm field merged.1 facts.1
  second : AgreeAt norm field merged.2 facts.2

/-- Both facts are filled. -/
def BothFilled (facts : FactFields Date Fio × FactFields Date Fio) : Prop :=
  facts.1.Filled ∧ facts.2.Filled

/-- Both facts have their names. -/
def SameNames (facts merged : FactFields Date Fio × FactFields Date Fio) : Prop :=
  merged.1.strFactName = facts.1.strFactName ∧ merged.2.strFactName = facts.2.strFactName

theorem shown_congr {field : FactFieldDescr} {t u : TextWS} (hlemmas : t.lemmas = u.lemmas)
    (hframe : t.lemmas = [] → t.pair = u.pair ∧ t.iNormGrammems = u.iNormGrammems) :
    shown norm field (.text t : FieldValue Date Fio) = shown norm field (.text u) := by
  simp only [shown, normalizeField, FieldValue.parts]
  by_cases hempty : t.lemmas = []
  · obtain ⟨hpair, hgrammems⟩ := hframe hempty
    split_ifs
    · simp [TextWS.normalizeText, TextWS.normalizeSequence, ← hlemmas, hempty, hpair, hgrammems,
        TextWS.clearLemmas]
    · rw [hlemmas]
  · split_ifs
    · rw [TextWS.normalizeText, TextWS.normalizeSequence_of_ne hempty, TextWS.normalizeText,
        TextWS.normalizeSequence_of_ne (hlemmas ▸ hempty), hlemmas]
    · rw [hlemmas]

theorem shown_of_ne {field : FactFieldDescr} {t : TextWS} (hlemmas : t.lemmas ≠ []) :
    shown norm field (.text t : FieldValue Date Fio) = t.lemmas.map Part.word := by
  simp only [shown, normalizeField, FieldValue.parts]
  split_ifs
  · rw [TextWS.normalizeText, TextWS.normalizeSequence_of_ne hlemmas]
  · rfl

/-- The text that a field has after normalization. -/
def normalizedText (norm : Inflector) (field : FactFieldDescr) (t : TextWS) : TextWS :=
  if field.fieldType = .textField then t.normalizeText norm field else t

theorem normalizedText_frame (field : FactFieldDescr) (t : TextWS) :
    (normalizedText norm field t).frame = t.frame := by
  unfold normalizedText
  split_ifs
  · exact TextWS.normalizeSequence_frame norm t _
  · rfl

theorem concatenate_shown {field : FactFieldDescr} {base other : TextWS}
    (hother : other.lemmas ≠ []) :
    ((normalizedText norm field base).concatenate other).lemmas ≠ [] ∧
      (((normalizedText norm field base).concatenate other).lemmas.map Part.word :
        List (Part Date Fio)) =
        shown norm field (.text base) ++ shown norm field (.text other) := by
  have hlemmas : ((normalizedText norm field base).concatenate other).lemmas =
      (normalizedText norm field base).lemmas ++ other.lemmas := by
    rw [TextWS.concatenate, (TextWS.joinPair_frame _ other).2.1, TextWS.addLemmas_lemmas]
  constructor
  · simp [hlemmas, hother]
  · rw [hlemmas, List.map_append, shown_of_ne hother]
    rfl

theorem restored_frame (field : FactFieldDescr) (base other : TextWS) (normalized : Bool) :
    let joined := (normalizedText norm field base).concatenate other
    let restored := joined.resetLemmas base.lemmas normalized
    restored.lemmas = base.lemmas ∧ restored.bConcatenation = base.bConcatenation ∧
      (restored.isArtificialPair = true → base.isArtificialPair = true) ∧
      (base.isArtificialPair = false →
        restored.pair = base.pair ∧ restored.iNormGrammems = base.iNormGrammems) := by
  intro joined restored
  have hbase := @normalizedText_frame norm field base
  have hadded := TextWS.addLemmas_frame (normalizedText norm field base) other.lemmas
    other.isNormalizedLemma
  have hrestored : restored.frame = joined.frame := TextWS.resetLemmas_frame _ _ _
  have hjoin := TextWS.joinPair_frame ((normalizedText norm field base).addLemmas other.lemmas
    other.isNormalizedLemma) other
  simp only [TextWS.frame, Prod.mk.injEq] at hbase hadded hrestored
  refine ⟨TextWS.resetLemmas_lemmas _ _ _, ?_, ?_, ?_⟩
  · rw [hrestored.2.2.1, ← hbase.2.2.1, ← hadded.2.2.1, ← hjoin.1]
    rfl
  · intro hartificial
    rw [hrestored.2.1] at hartificial
    rw [← hbase.2.1, ← hadded.2.1]
    exact hjoin.2.2 hartificial
  · intro hartificial
    have hsame : joined = (normalizedText norm field base).addLemmas other.lemmas
        other.isNormalizedLemma := by
      have hflag := hadded.2.1.trans (hbase.2.1.trans hartificial)
      simp [joined, TextWS.concatenate, TextWS.joinPair, hflag]
    rw [hrestored.1, hrestored.2.2.2, hsame]
    exact ⟨hadded.1.trans hbase.1, hadded.2.2.2.trans hbase.2.2.2⟩

section Concatenation

variable {type : FactType} {field : FactFieldDescr} {fact₁ fact₂ : FactFields Date Fio}
  {ws₁ ws₂ : TextWS}

/-- The first text is appended to the second one, which is put back in the second fact. -/
theorem concatenate_first
    (h₁ : fact₁.value field.strFieldName = some (.text ws₁))
    (h₂ : fact₂.value field.strFieldName = some (.text ws₂))
    (hfilled : BothFilled (fact₁, fact₂)) (hfirst : ws₁.appendsFirst ws₂ = true) :
    let merged := fieldsConcatenation norm type field fact₁ fact₂
    MergedAt norm field (fact₁, fact₂) merged ∧ BothFilled merged := by
  have hconcatenation : ws₁.bConcatenation = true := by
    simp only [TextWS.appendsFirst, Bool.and_eq_true] at hfirst
    exact hfirst.1
  have hlemmas₁ : ws₁.lemmas ≠ [] := hfilled.1 _ _ h₁ (Or.inr hconcatenation)
  have hlemmas₂ : ws₂.isArtificialPair ∨ ws₂.bConcatenation → ws₂.lemmas ≠ [] :=
    hfilled.2 _ _ h₂
  have hframe := @normalizedText_frame norm field ws₂
  obtain ⟨hjoined, hshown⟩ := @concatenate_shown Date Fio norm field ws₂ ws₁ hlemmas₁
  have hmerged : fieldsConcatenation norm type field fact₁ fact₂ =
      (fact₁.addValue field.strFieldName (.text
        (((normalizedText norm field ws₂).concatenate ws₁).normalizeMainWords
          norm).setConcatenationLemma),
      (normalizeFact norm type fact₂).addValue field.strFieldName (.text
        (((normalizedText norm field ws₂).concatenate ws₁).resetLemmas ws₂.lemmas
          ((normalizedText norm field ws₂).concatenate ws₁).isNormalizedLemma))) := by
    simp only [fieldsConcatenation, h₁, h₂, hfirst, if_true]
    rfl
  have hrestored := @restored_frame norm field ws₂ ws₁
    ((normalizedText norm field ws₂).concatenate ws₁).isNormalizedLemma
  dsimp only at hrestored ⊢
  rw [hmerged]
  have hmain := TextWS.normalizeMainWords_lemmas norm
    ((normalizedText norm field ws₂).concatenate ws₁)
  constructor
  · constructor
    · have hmergedShown : mergedShown norm field fact₁ fact₂ =
          some (shown norm field (.text ws₂) ++ shown norm field (.text ws₁)) := by
        simp [mergedShown, h₁, h₂, joinShown, concatenable, FieldValue.concatenation,
          hconcatenation, FieldValue.appendsFirst, hfirst]
      rw [hmergedShown, shownAt, FactFields.addValue_same, Option.map_some]
      congr 1
      rw [← hshown]
      apply (shown_of_ne (by rw [TextWS.setConcatenationLemma, hmain]; exact hjoined)).trans
      rw [TextWS.setConcatenationLemma, hmain]
    · rw [shownAt, shownAt, FactFields.addValue_same, h₂, Option.map_some, Option.map_some]
      congr 1
      apply shown_congr hrestored.1
      intro hempty
      rw [hrestored.1] at hempty
      apply hrestored.2.2.2
      by_contra hartificial
      exact hlemmas₂ (Or.inl (by simpa using hartificial)) hempty
    · rw [flagAt, flagAt, FactFields.addValue_same, h₂, Option.map_some, Option.map_some]
      exact congrArg (fun flag => some (some flag)) hrestored.2.1
  · constructor
    · apply FactFields.filled_addValue hfilled.1
      intro _
      rw [TextWS.setConcatenationLemma, hmain]
      exact hjoined
    · apply FactFields.filled_addValue (normalizeFact_filled type hfilled.2)
      intro hflags
      rw [hrestored.1]
      rw [hrestored.2.1] at hflags
      exact hlemmas₂ (hflags.imp_left hrestored.2.2.1)

/-- The second text is appended to the first one. -/
theorem concatenate_second (h₁ : fact₁.value field.strFieldName = some (.text ws₁))
    (h₂ : fact₂.value field.strFieldName = some (.text ws₂))
    (hfilled : BothFilled (fact₁, fact₂)) (hfirst : ws₁.appendsFirst ws₂ = false)
    (hconcatenation : ws₂.bConcatenation = true) :
    let merged := fieldsConcatenation norm type field fact₁ fact₂
    MergedAt norm field (fact₁, fact₂) merged ∧ BothFilled merged := by
  have hlemmas₂ : ws₂.lemmas ≠ [] := hfilled.2 _ _ h₂ (Or.inr hconcatenation)
  obtain ⟨hjoined, hshown⟩ := @concatenate_shown Date Fio norm field ws₁ ws₂ hlemmas₂
  have hmerged : fieldsConcatenation norm type field fact₁ fact₂ =
      ((normalizeFact norm type fact₁).addValue field.strFieldName (.text
        ((normalizedText norm field ws₁).concatenate ws₂).setConcatenationLemma),
      fact₂.addValue field.strFieldName (.text (ws₂.normalizeMainWords norm))) := by
    simp only [fieldsConcatenation, h₁, h₂, hfirst, hconcatenation, Bool.false_eq_true, if_false,
      if_true]
    rfl
  have hlemmas := TextWS.normalizeMainWords_lemmas norm ws₂
  have hframe := TextWS.normalizeMainWords_frame norm ws₂
  simp only [TextWS.frame, Prod.mk.injEq] at hframe
  dsimp only
  rw [hmerged]
  constructor
  · constructor
    · have hmergedShown : mergedShown norm field fact₁ fact₂ =
          some (shown norm field (.text ws₁) ++ shown norm field (.text ws₂)) := by
        simp [mergedShown, h₁, h₂, joinShown, concatenable, FieldValue.concatenation,
          hconcatenation, FieldValue.appendsFirst, hfirst]
      rw [hmergedShown, shownAt, FactFields.addValue_same, Option.map_some]
      congr 1
      rw [← hshown]
      exact shown_of_ne hjoined
    · rw [shownAt, shownAt, FactFields.addValue_same, h₂, Option.map_some, Option.map_some]
      congr 1
      exact shown_congr hlemmas fun _ => ⟨hframe.1, hframe.2.2.2⟩
    · rw [flagAt, flagAt, FactFields.addValue_same, h₂, Option.map_some, Option.map_some]
      exact congrArg (fun flag => some (some flag)) hframe.2.2.1
  · constructor
    · apply FactFields.filled_addValue (normalizeFact_filled type hfilled.1)
      intro _
      exact hjoined
    · apply FactFields.filled_addValue hfilled.2
      intro _
      rw [hlemmas]
      exact hlemmas₂

theorem concatenate_none (h₁ : fact₁.value field.strFieldName = some (.text ws₁))
    (h₂ : fact₂.value field.strFieldName = some (.text ws₂))
    (hfilled : BothFilled (fact₁, fact₂)) (hfirst : ws₁.appendsFirst ws₂ = false)
    (hconcatenation : ws₂.bConcatenation = false) :
    let merged := fieldsConcatenation norm type field fact₁ fact₂
    MergedAt norm field (fact₁, fact₂) merged ∧ BothFilled merged := by
  have hmerged : fieldsConcatenation norm type field fact₁ fact₂ =
      (fact₁.addValue field.strFieldName (.text ws₁.setConcatenationLemma), fact₂) := by
    simp [fieldsConcatenation, h₁, h₂, hfirst, hconcatenation]
  have hnone : ws₁.bConcatenation = false := by
    simpa [TextWS.appendsFirst, hconcatenation] using hfirst
  dsimp only
  rw [hmerged]
  constructor
  · constructor
    · have hmergedShown : mergedShown norm field fact₁ fact₂ =
          some (shown norm field (.text ws₁)) := by
        simp [mergedShown, h₁, h₂, joinShown, concatenable, FieldValue.concatenation,
          hconcatenation, hnone]
      rw [hmergedShown, shownAt, FactFields.addValue_same, Option.map_some]
      congr 1
      exact shown_congr rfl fun _ => ⟨rfl, rfl⟩
    · rfl
    · rfl
  · constructor
    · have hws₁ : (FieldValue.text ws₁ : FieldValue Date Fio).Filled := hfilled.1 _ _ h₁
      exact FactFields.filled_addValue hfilled.1 hws₁
    · exact hfilled.2

end Concatenation

theorem mergedAt_of_other {field : FactFieldDescr} {fact₁ fact₂ : FactFields Date Fio}
    {x y : FieldValue Date Fio} (h₁ : fact₁.value field.strFieldName = some x)
    (h₂ : fact₂.value field.strFieldName = some y)
    (hother : ∀ ws₁ ws₂, ¬(x = .text ws₁ ∧ y = .text ws₂)) :
    MergedAt norm field (fact₁, fact₂) (fact₁, fact₂) := by
  refine ⟨?_, rfl, rfl⟩
  have hnone : concatenable x y = false := by
    cases x with
    | text ws₁ =>
      cases y with
      | text ws₂ => exact absurd ⟨rfl, rfl⟩ (hother ws₁ ws₂)
      | bool pair value => rfl
      | date d => rfl
      | fio f => rfl
    | bool pair value => rfl
    | date d => rfl
    | fio f => rfl
  simp [shownAt, mergedShown, h₁, h₂, joinShown, hnone]

theorem fieldsConcatenation_mergedAt {type : FactType} {field : FactFieldDescr}
    {fact₁ fact₂ : FactFields Date Fio} {x y : FieldValue Date Fio}
    (h₁ : fact₁.value field.strFieldName = some x) (h₂ : fact₂.value field.strFieldName = some y)
    (hfilled : BothFilled (fact₁, fact₂)) :
    let merged := fieldsConcatenation norm type field fact₁ fact₂
    MergedAt norm field (fact₁, fact₂) merged ∧ BothFilled merged := by
  by_cases htexts : ∃ ws₁ ws₂, x = .text ws₁ ∧ y = .text ws₂
  · obtain ⟨ws₁, ws₂, rfl, rfl⟩ := htexts
    cases hfirst : ws₁.appendsFirst ws₂ with
    | true => exact concatenate_first h₁ h₂ hfilled hfirst
    | false =>
      cases hsecond : ws₂.bConcatenation with
      | true => exact concatenate_second h₁ h₂ hfilled hfirst hsecond
      | false => exact concatenate_none h₁ h₂ hfilled hfirst hsecond
  · have hsame : fieldsConcatenation norm type field fact₁ fact₂ = (fact₁, fact₂) := by
      simp only [fieldsConcatenation, h₁, h₂]
      split
      · rename_i hx hy
        cases hx
        cases hy
        exact absurd ⟨_, _, rfl, rfl⟩ htexts
      · rfl
    dsimp only
    rw [hsame]
    exact ⟨mergedAt_of_other h₁ h₂ fun ws₁ ws₂ h => htexts ⟨ws₁, ws₂, h⟩, hfilled⟩

/-- The names stay, and the other fields up to normalization. -/
structure KeepsOthers (norm : Inflector) (type : FactType) (field : FactFieldDescr)
    (facts merged : FactFields Date Fio × FactFields Date Fio) : Prop where
  names : SameNames facts merged
  others : ∀ other ∈ type.fields, other.strFieldName ≠ field.strFieldName →
    Kept norm other facts merged

theorem fieldsConcatenation_keepsOthers (type : FactType) (field : FactFieldDescr)
    (fact₁ fact₂ : FactFields Date Fio) : KeepsOthers norm type field (fact₁, fact₂)
      (fieldsConcatenation norm type field fact₁ fact₂) := by
  have hrefl (other : FactFieldDescr) (fact : FactFields Date Fio) :
      AgreeAt norm other fact fact := rfl
  have hnormalized (other : FactFieldDescr) (hother : other ∈ type.fields)
      (fact : FactFields Date Fio) : AgreeAt norm other (normalizeFact norm type fact) fact :=
    normalizeFact_agreeAt type fact hother
  unfold fieldsConcatenation
  dsimp only
  split
  · rename_i ws₁ ws₂ _ _
    by_cases hfirst : ws₁.appendsFirst ws₂ = true
    · rw [if_pos hfirst]
      refine ⟨⟨rfl, normalizeFact_name type fact₂⟩, ?_⟩
      intro other hother hne
      exact ⟨(hrefl other fact₁).addValue hne _, (hnormalized other hother fact₂).addValue hne _⟩
    · rw [if_neg hfirst]
      by_cases hsecond : ws₂.bConcatenation = true
      · rw [if_pos hsecond]
        refine ⟨⟨normalizeFact_name type fact₁, rfl⟩, ?_⟩
        intro other hother hne
        exact ⟨(hnormalized other hother fact₁).addValue hne _, (hrefl other fact₂).addValue hne _⟩
      · rw [if_neg hsecond]
        refine ⟨⟨rfl, rfl⟩, ?_⟩
        intro other _ hne
        exact ⟨(hrefl other fact₁).addValue hne _, hrefl other fact₂⟩
  · exact ⟨⟨rfl, rfl⟩, fun other _ _ => ⟨hrefl other fact₁, hrefl other fact₂⟩⟩

theorem mergeField_mergedAt {type : FactType} {field : FactFieldDescr}
    {facts : FactFields Date Fio × FactFields Date Fio} (hfilled : BothFilled facts) :
    MergedAt norm field facts (mergeField norm type facts field) ∧
      BothFilled (mergeField norm type facts field) := by
  obtain ⟨fact₁, fact₂⟩ := facts
  cases h₁ : fact₁.value field.strFieldName with
  | none =>
    cases h₂ : fact₂.value field.strFieldName with
    | none =>
      simp only [mergeField, h₁, h₂]
      exact ⟨⟨by simp [shownAt, mergedShown, h₁, h₂], rfl, rfl⟩, hfilled⟩
    | some y =>
      have hy : y.Filled := hfilled.2 _ _ h₂
      simp only [mergeField, h₁, h₂]
      exact ⟨⟨by simp [shownAt, mergedShown, h₁, h₂], rfl, rfl⟩,
        FactFields.filled_addValue hfilled.1 hy, hfilled.2⟩
  | some x =>
    cases h₂ : fact₂.value field.strFieldName with
    | none =>
      simp only [mergeField, h₁, h₂]
      exact ⟨⟨by simp [shownAt, mergedShown, h₁, h₂], rfl, rfl⟩, hfilled⟩
    | some y =>
      simp only [mergeField, h₁, h₂]
      exact fieldsConcatenation_mergedAt h₁ h₂ hfilled

theorem mergeField_keepsOthers (type : FactType) (field : FactFieldDescr)
    (facts : FactFields Date Fio × FactFields Date Fio) :
    KeepsOthers norm type field facts (mergeField norm type facts field) := by
  have hrefl (other : FactFieldDescr) (fact : FactFields Date Fio) :
      AgreeAt norm other fact fact := rfl
  unfold mergeField
  split
  · refine ⟨⟨rfl, rfl⟩, ?_⟩
    intro other _ hne
    exact ⟨(hrefl other facts.1).addValue hne _, hrefl other facts.2⟩
  · exact fieldsConcatenation_keepsOthers type field facts.1 facts.2
  · exact ⟨⟨rfl, rfl⟩, fun other _ _ => ⟨hrefl other facts.1, hrefl other facts.2⟩⟩

/-- The steps of `MergeTwoFacts` for some fields. -/
structure MergedFields (norm : Inflector) (type : FactType) (fields : List FactFieldDescr)
    (facts merged : FactFields Date Fio × FactFields Date Fio) : Prop where
  names : SameNames facts merged
  filled : BothFilled merged
  at_field : ∀ field ∈ fields, MergedAt norm field facts merged
  at_other : ∀ other ∈ type.fields, other.strFieldName ∉ fields.map (·.strFieldName) →
    Kept norm other facts merged

theorem mergeFields {type : FactType} {fields : List FactFieldDescr}
    (hfields : ∀ field ∈ fields, field ∈ type.fields)
    (hnodup : (fields.map (·.strFieldName)).Nodup)
    {facts : FactFields Date Fio × FactFields Date Fio} (hfilled : BothFilled facts) :
    MergedFields norm type fields facts (fields.foldl (mergeField norm type) facts) := by
  induction fields generalizing facts with
  | nil => exact ⟨⟨rfl, rfl⟩, hfilled, by simp, fun _ _ _ => ⟨rfl, rfl⟩⟩
  | cons first fields ih =>
    rw [List.map_cons, List.nodup_cons] at hnodup
    rw [List.foldl_cons]
    obtain ⟨hat, hfilled'⟩ := @mergeField_mergedAt _ _ norm type first facts hfilled
    have hkeeps := @mergeField_keepsOthers _ _ norm type first facts
    have hrest := ih (fun field hfield => hfields field (List.mem_cons_of_mem _ hfield)) hnodup.2
      hfilled'
    refine ⟨⟨hrest.names.1.trans hkeeps.names.1, hrest.names.2.trans hkeeps.names.2⟩,
      hrest.filled, ?_, ?_⟩
    · intro field hfield
      rcases List.mem_cons.mp hfield with rfl | hfield
      · have hlast := hrest.at_other field (hfields field List.mem_cons_self) hnodup.1
        exact ⟨hlast.first.shownAt_eq.trans hat.first, hlast.second.shownAt_eq.trans hat.second,
          hlast.second.flagAt_eq.trans hat.flag⟩
      · have hne : field.strFieldName ≠ first.strFieldName := by
          intro heq
          exact hnodup.1 (heq ▸ List.mem_map_of_mem hfield)
        have hkept := hkeeps.others field (hfields field (List.mem_cons_of_mem _ hfield)) hne
        have hlater := hrest.at_field field hfield
        exact ⟨hlater.first.trans (mergedShown_congr hkept.first hkept.second),
          hlater.second.trans hkept.second.shownAt_eq, hlater.flag.trans hkept.second.flagAt_eq⟩
    · intro other hother hnot
      rw [List.map_cons, List.mem_cons, not_or] at hnot
      have hkept := hkeeps.others other hother hnot.1
      have hlater := hrest.at_other other hother hnot.2
      exact ⟨hlater.first.trans hkept.first, hlater.second.trans hkept.second⟩

theorem mergeTwoFacts_merged (type : FactType) {fact₁ fact₂ : FactFields Date Fio}
    (hfilled : BothFilled (fact₁, fact₂)) :
    MergedFields norm type type.fields (fact₁, fact₂) (mergeTwoFacts norm type fact₁ fact₂) :=
  mergeFields (fun _ hfield => hfield) type.nodup hfilled

end TomitaParser.Rusie
