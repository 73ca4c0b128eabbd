import Mathlib.Data.List.Infix
import Mathlib.Logic.Function.Basic
/-! # Facts and their fields

A fact has a name and the values of some fields of its type. A text is a pair of words that gets its
lemmas when it is normalized. -/

namespace TomitaParser.Rusie

/-- `CWordsPair`. -/
structure WordsPair where
  firstWord : ℤ
  lastWord : ℤ
  deriving DecidableEq

/-- `SWordSequenceLemma`. -/
structure WordSequenceLemma where
  lemmaToShow : String
  capitalizedLemma : String
  deriving DecidableEq

/-- `EFactFieldType`. -/
inductive FactFieldType
  | fioField
  | textField
  | dateField
  | boolField
  deriving DecidableEq

/-- `fact_field_descr_t`. -/
structure FactFieldDescr where
  strFieldName : String
  fieldType : FactFieldType
  options : List String

/-- `fact_type_t`, whose fields have different names. -/
structure FactType where
  fields : List FactFieldDescr
  nodup : (fields.map (·.strFieldName)).Nodup

/-- What `TSequenceInflector` does with words: their lemmas in the wanted form, a set of grammems.
The other function puts the genitive in the place of the case. -/
structure Inflector where
  inflect : WordsPair → ℕ → List WordSequenceLemma
  genitive : ℕ → ℕ

/-- `CTextWS`. -/
structure TextWS where
  pair : WordsPair
  lemmas : List WordSequenceLemma := []
  isArtificialPair : Bool := false
  isConcatenationLemma : Bool := false
  isNormalizedLemma : Bool := false
  bConcatenation : Bool := false
  iNormGrammems : ℕ := 0
  deriving DecidableEq

namespace TextWS

def addLemma (normalized : Bool) (t : TextWS) (newLemma : WordSequenceLemma) : TextWS :=
  { t with
    isNormalizedLemma :=
      if normalized then if t.lemmas.isEmpty then true else t.isNormalizedLemma else false
    lemmas := t.lemmas ++ [newLemma] }

def addLemmas (t : TextWS) (lemmas : List WordSequenceLemma) (normalized : Bool) : TextWS :=
  lemmas.foldl (addLemma normalized) t

def clearLemmas (t : TextWS) : TextWS := { t with lemmas := [], isNormalizedLemma := false }

def resetLemmas (t : TextWS) (lemmas : List WordSequenceLemma) (normalized : Bool) : TextWS :=
  t.clearLemmas.addLemmas lemmas normalized

/-- `NormalizeSequence`: what has lemmas is normalized already. -/
def normalizeSequence (norm : Inflector) (t : TextWS) (grammems : ℕ) : TextWS :=
  if t.lemmas.isEmpty then t.clearLemmas.addLemmas (norm.inflect t.pair grammems) true else t

/-- `NormalizeText`. -/
def normalizeText (norm : Inflector) (field : FactFieldDescr) (t : TextWS) : TextWS :=
  t.normalizeSequence norm
    (if "gennorm" ∈ field.options then norm.genitive t.iNormGrammems else t.iNormGrammems)

/-- The words of an artificial pair are those of the other pair. -/
def joinPair (t other : TextWS) : TextWS :=
  if t.isArtificialPair && !other.isArtificialPair then
    { t with isArtificialPair := false, pair := other.pair }
  else if t.isArtificialPair && other.isArtificialPair &&
      decide (t.pair.lastWord + 1 = other.pair.firstWord) then
    { t with pair := ⟨t.pair.firstWord, other.pair.lastWord⟩ }
  else t

/-- What two texts are in `FieldsConcatenation`. -/
def concatenate (t other : TextWS) : TextWS :=
  (t.addLemmas other.lemmas other.isNormalizedLemma).joinPair other

/-- Normalization for the main words only: the lemmas are saved and put back. -/
def normalizeMainWords (norm : Inflector) (t : TextWS) : TextWS :=
  (t.normalizeSequence norm 0).resetLemmas t.lemmas (t.normalizeSequence norm 0).isNormalizedLemma

def setConcatenationLemma (t : TextWS) : TextWS := { t with isConcatenationLemma := true }

/-- Whether the first of two texts is the one that is appended. -/
def appendsFirst (t₁ t₂ : TextWS) : Bool :=
  t₁.bConcatenation && !(t₂.bConcatenation && decide (t₁.pair.firstWord < t₂.pair.firstWord))

end TextWS

variable {Date Fio : Type}

/-- A value of a field. -/
inductive FieldValue (Date Fio : Type)
  | text (t : TextWS)
  | bool (pair : WordsPair) (value : Bool)
  | date (d : Date)
  | fio (f : Fio)

/-- `CFactFields`. A name has a value in one of the maps at most, as a field has one type. -/
structure FactFields (Date Fio : Type) where
  strFactName : String
  value : String → Option (FieldValue Date Fio)

namespace FactFields

def addValue (fact : FactFields Date Fio) (name : String) (value : FieldValue Date Fio) :
    FactFields Date Fio :=
  { fact with value := Function.update fact.value name (some value) }

end FactFields

/-- A value in `NormalizeFact`. The lemma that a date gets there and the form of a name are no part
of the value here. -/
def normalizeField (norm : Inflector) (field : FactFieldDescr) :
    FieldValue Date Fio → FieldValue Date Fio
  | .text t => .text (if field.fieldType = .textField then t.normalizeText norm field else t)
  | value => value

/-- `NormalizeFact`. -/
def normalizeFact (norm : Inflector) (type : FactType) (fact : FactFields Date Fio) :
    FactFields Date Fio :=
  type.fields.foldl
    (fun fact field =>
      match fact.value field.strFieldName with
      | some value => fact.addValue field.strFieldName (normalizeField norm field value)
      | none => fact)
    fact

/-- `FieldsConcatenation`: the facts after it. -/
def fieldsConcatenation (norm : Inflector) (type : FactType) (field : FactFieldDescr)
    (fact₁ fact₂ : FactFields Date Fio) : FactFields Date Fio × FactFields Date Fio :=
  let name := field.strFieldName
  match fact₁.value name, fact₂.value name with
  | some (.text ws₁), some (.text ws₂) =>
    if ws₁.appendsFirst ws₂ then
      let fact₂ := normalizeFact norm type fact₂
      let normalized :=
        if field.fieldType = .textField then ws₂.normalizeText norm field else ws₂
      let joined := normalized.concatenate ws₁
      (fact₁.addValue name (.text (joined.normalizeMainWords norm).setConcatenationLemma),
        fact₂.addValue name (.text (joined.resetLemmas ws₂.lemmas joined.isNormalizedLemma)))
    else if ws₂.bConcatenation then
      let fact₁ := normalizeFact norm type fact₁
      let normalized :=
        if field.fieldType = .textField then ws₁.normalizeText norm field else ws₁
      (fact₁.addValue name (.text (normalized.concatenate ws₂).setConcatenationLemma),
        fact₂.addValue name (.text (ws₂.normalizeMainWords norm)))
    else (fact₁.addValue name (.text ws₁.setConcatenationLemma), fact₂)
  | _, _ => (fact₁, fact₂)

/-- A field in `MergeTwoFacts`. -/
def mergeField (norm : Inflector) (type : FactType)
    (facts : FactFields Date Fio × FactFields Date Fio) (field : FactFieldDescr) :
    FactFields Date Fio × FactFields Date Fio :=
  match facts.1.value field.strFieldName, facts.2.value field.strFieldName with
  | none, some value => (facts.1.addValue field.strFieldName value, facts.2)
  | some _, some _ => fieldsConcatenation norm type field facts.1 facts.2
  | _, none => facts

/-- `MergeTwoFacts`: the facts after it. -/
def mergeTwoFacts (norm : Inflector) (type : FactType) (fact₁ fact₂ : FactFields Date Fio) :
    FactFields Date Fio × FactFields Date Fio :=
  type.fields.foldl (mergeField norm type) (fact₁, fact₂)

namespace TextWS

@[simp] theorem addLemmas_lemmas (t : TextWS) (lemmas : List WordSequenceLemma)
    (normalized : Bool) : (t.addLemmas lemmas normalized).lemmas = t.lemmas ++ lemmas := by
  induction lemmas generalizing t with
  | nil => simp [addLemmas]
  | cons newLemma lemmas ih =>
    have htail := ih (t.addLemma normalized newLemma)
    simp only [addLemmas, List.foldl_cons] at htail ⊢
    rw [htail]
    simp [addLemma]

/-- The fields of a text that lemmas do not change. -/
def frame (t : TextWS) : WordsPair × Bool × Bool × ℕ :=
  (t.pair, t.isArtificialPair, t.bConcatenation, t.iNormGrammems)

@[simp] theorem addLemmas_frame (t : TextWS) (lemmas : List WordSequenceLemma)
    (normalized : Bool) : (t.addLemmas lemmas normalized).frame = t.frame := by
  induction lemmas generalizing t with
  | nil => rfl
  | cons newLemma lemmas ih => exact ih (t.addLemma normalized newLemma)

@[simp] theorem resetLemmas_lemmas (t : TextWS) (lemmas : List WordSequenceLemma)
    (normalized : Bool) : (t.resetLemmas lemmas normalized).lemmas = lemmas := by
  simp [resetLemmas, clearLemmas]

@[simp] theorem resetLemmas_frame (t : TextWS) (lemmas : List WordSequenceLemma)
    (normalized : Bool) : (t.resetLemmas lemmas normalized).frame = t.frame := by
  rw [resetLemmas, addLemmas_frame]
  rfl

theorem normalizeSequence_of_ne {norm : Inflector} {t : TextWS} {grammems : ℕ}
    (hlemmas : t.lemmas ≠ []) : t.normalizeSequence norm grammems = t := by
  simp [normalizeSequence, hlemmas]

@[simp] theorem normalizeSequence_frame (norm : Inflector) (t : TextWS) (grammems : ℕ) :
    (t.normalizeSequence norm grammems).frame = t.frame := by
  unfold normalizeSequence
  split_ifs
  · rw [addLemmas_frame]
    rfl
  · rfl

@[simp] theorem normalizeMainWords_lemmas (norm : Inflector) (t : TextWS) :
    (t.normalizeMainWords norm).lemmas = t.lemmas := by
  simp [normalizeMainWords]

@[simp] theorem normalizeMainWords_frame (norm : Inflector) (t : TextWS) :
    (t.normalizeMainWords norm).frame = t.frame := by
  simp [normalizeMainWords]

theorem joinPair_frame (t other : TextWS) :
    (t.joinPair other).bConcatenation = t.bConcatenation ∧
      (t.joinPair other).lemmas = t.lemmas ∧
      ((t.joinPair other).isArtificialPair = true → t.isArtificialPair = true) := by
  unfold joinPair
  split_ifs with hother hboth
  · simp
  · simp
  · simp

theorem normalizeSequence_idem (norm : Inflector) (t : TextWS) (grammems : ℕ) :
    (t.normalizeSequence norm grammems).normalizeSequence norm grammems =
      t.normalizeSequence norm grammems := by
  by_cases hnormalized : (t.normalizeSequence norm grammems).lemmas = []
  · by_cases hlemmas : t.lemmas = []
    · have hinflect : norm.inflect t.pair grammems = [] := by
        rw [normalizeSequence, if_pos (by simp [hlemmas]), addLemmas_lemmas] at hnormalized
        exact (List.append_eq_nil_iff.mp hnormalized).2
      simp [normalizeSequence, hlemmas, hinflect, addLemmas, clearLemmas]
    · rw [normalizeSequence_of_ne hlemmas, normalizeSequence_of_ne hlemmas]
  · exact normalizeSequence_of_ne hnormalized

theorem normalizeText_idem (norm : Inflector) (field : FactFieldDescr) (t : TextWS) :
    (t.normalizeText norm field).normalizeText norm field = t.normalizeText norm field := by
  have hgrammems : (t.normalizeText norm field).iNormGrammems = t.iNormGrammems :=
    congrArg (fun frame => frame.2.2.2) (normalizeSequence_frame norm t _)
  conv_lhs => rw [normalizeText, hgrammems]
  exact normalizeSequence_idem norm t _

end TextWS

/-- A part of what a value shows: a lemma of a text, or the whole value. -/
inductive Part (Date Fio : Type)
  | word (l : WordSequenceLemma)
  | bool (pair : WordsPair) (value : Bool)
  | date (d : Date)
  | fio (f : Fio)

def FieldValue.parts : FieldValue Date Fio → List (Part Date Fio)
  | .text t => t.lemmas.map Part.word
  | .bool pair value => [.bool pair value]
  | .date d => [.date d]
  | .fio f => [.fio f]

/-- What a value of a field shows, once it is normalized. -/
def shown (norm : Inflector) (field : FactFieldDescr) (value : FieldValue Date Fio) :
    List (Part Date Fio) :=
  (normalizeField norm field value).parts

/-- The flag of a text. -/
def FieldValue.concatenation : FieldValue Date Fio → Option Bool
  | .text t => some t.bConcatenation
  | _ => none

/-- An artificial pair and a text to be concatenated come with their lemmas. -/
def FieldValue.Filled : FieldValue Date Fio → Prop
  | .text t => t.isArtificialPair ∨ t.bConcatenation → t.lemmas ≠ []
  | _ => True

theorem normalizeField_idem (norm : Inflector) (field : FactFieldDescr)
    (value : FieldValue Date Fio) :
    normalizeField norm field (normalizeField norm field value) =
      normalizeField norm field value := by
  cases value with
  | text t =>
    simp only [normalizeField]
    split_ifs
    · rw [TextWS.normalizeText_idem]
    · rfl
  | bool pair value => rfl
  | date d => rfl
  | fio f => rfl

theorem shown_normalizeField (norm : Inflector) (field : FactFieldDescr)
    (value : FieldValue Date Fio) :
    shown norm field (normalizeField norm field value) = shown norm field value := by
  rw [shown, normalizeField_idem, shown]

theorem concatenation_normalizeField (norm : Inflector) (field : FactFieldDescr)
    (value : FieldValue Date Fio) :
    (normalizeField norm field value).concatenation = value.concatenation := by
  cases value with
  | text t =>
    simp only [normalizeField, FieldValue.concatenation]
    split_ifs
    · exact congrArg (fun frame => some frame.2.2.1) (TextWS.normalizeSequence_frame norm t _)
    · rfl
  | bool pair value => rfl
  | date d => rfl
  | fio f => rfl

theorem filled_normalizeField {norm : Inflector} {field : FactFieldDescr}
    {value : FieldValue Date Fio} (hfilled : value.Filled) :
    (normalizeField norm field value).Filled := by
  cases value with
  | text t =>
    simp only [normalizeField]
    split_ifs
    · by_cases hlemmas : t.lemmas = []
      · intro hflags
        have hframe := TextWS.normalizeSequence_frame norm t
          (if "gennorm" ∈ field.options then norm.genitive t.iNormGrammems else t.iNormGrammems)
        simp only [TextWS.frame, Prod.mk.injEq] at hframe
        rw [TextWS.normalizeText, hframe.2.1, hframe.2.2.1] at hflags
        exact absurd hlemmas (hfilled hflags)
      · rw [TextWS.normalizeText, TextWS.normalizeSequence_of_ne hlemmas]
        exact hfilled
    · exact hfilled
  | bool pair value => trivial
  | date d => trivial
  | fio f => trivial

namespace FactFields

@[simp] theorem addValue_name (fact : FactFields Date Fio) (name : String)
    (value : FieldValue Date Fio) : (fact.addValue name value).strFactName = fact.strFactName := rfl

@[simp] theorem addValue_same (fact : FactFields Date Fio) (name : String)
    (value : FieldValue Date Fio) : (fact.addValue name value).value name = some value := by
  simp [addValue]

theorem addValue_of_ne (fact : FactFields Date Fio) {name other : String}
    (value : FieldValue Date Fio) (hne : other ≠ name) :
    (fact.addValue name value).value other = fact.value other := by
  simp [addValue, hne]

/-- The values of a fact are filled. -/
def Filled (fact : FactFields Date Fio) : Prop :=
  ∀ name, ∀ value ∈ fact.value name, value.Filled

theorem filled_addValue {fact : FactFields Date Fio} {name : String}
    {value : FieldValue Date Fio} (hfact : fact.Filled) (hvalue : value.Filled) :
    (fact.addValue name value).Filled := by
  intro other v hv
  by_cases hname : other = name
  · subst hname
    rw [addValue_same] at hv
    cases hv
    exact hvalue
  · rw [addValue_of_ne fact value hname] at hv
    exact hfact other v hv

end FactFields

/-- The steps of `NormalizeFact` change their own field only. -/
theorem normalizeFact_fold (norm : Inflector) {fields : List FactFieldDescr}
    (hnodup : (fields.map (·.strFieldName)).Nodup) (fact : FactFields Date Fio) :
    let normalized := fields.foldl
      (fun fact field =>
        match fact.value field.strFieldName with
        | some value => fact.addValue field.strFieldName (normalizeField norm field value)
        | none => fact)
      fact
    normalized.strFactName = fact.strFactName ∧
      (∀ name, name ∉ fields.map (·.strFieldName) → normalized.value name = fact.value name) ∧
      (∀ field ∈ fields, normalized.value field.strFieldName =
        (fact.value field.strFieldName).map (normalizeField norm field)) ∧
      (fact.Filled → normalized.Filled) := by
  induction fields generalizing fact with
  | nil => simp
  | cons first fields ih =>
    rw [List.map_cons, List.nodup_cons] at hnodup
    simp only [List.foldl_cons]
    cases hvalue : fact.value first.strFieldName with
    | none =>
      obtain ⟨hname, hother, hfields, hfilled⟩ := ih hnodup.2 fact
      refine ⟨hname, ?_, ?_, hfilled⟩
      · intro name hname
        rw [List.map_cons, List.mem_cons, not_or] at hname
        exact hother name hname.2
      · intro field hfield
        rcases List.mem_cons.mp hfield with rfl | hfield
        · rw [hother _ hnodup.1, hvalue, Option.map_none]
        · exact hfields field hfield
    | some value =>
      obtain ⟨hname, hother, hfields, hfilled⟩ := ih hnodup.2
        (fact.addValue first.strFieldName (normalizeField norm first value))
      refine ⟨hname, ?_, ?_, ?_⟩
      · intro name hname
        rw [List.map_cons, List.mem_cons, not_or] at hname
        rw [hother name hname.2, FactFields.addValue_of_ne _ _ hname.1]
      · intro field hfield
        rcases List.mem_cons.mp hfield with rfl | hfield
        · rw [hother _ hnodup.1, FactFields.addValue_same, hvalue, Option.map_some]
        · have hne : field.strFieldName ≠ first.strFieldName := by
            intro heq
            exact hnodup.1 (heq ▸ List.mem_map_of_mem hfield)
          rw [hfields field hfield, FactFields.addValue_of_ne _ _ hne]
      · intro hfact
        apply hfilled
        exact FactFields.filled_addValue hfact (filled_normalizeField (hfact _ _ hvalue))

end TomitaParser.Rusie
