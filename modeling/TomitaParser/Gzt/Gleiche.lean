import TomitaParser.Gzt.FilterMatch
import Mathlib.Data.Finset.Lattice.Basic
/-! # Categories of agreement

The grammemes are numbered as in `TGrammar`. -/

namespace TomitaParser.Gzt.Gleiche

def substantive : ℕ := 136
def plural : ℕ := 175
def feminine : ℕ := 191

/-- `gcMax`. -/
def gcMax : ℕ := 8

def gcGender : ℕ := 1
def gcFemGender : ℕ := 6

/-- `AllMajorCases`. -/
def allMajorCases : GramBits := {165, 166, 167, 168, 169, 170}

/-- `Categories`: case, gender, number, person, tense, animation, the gender of feminine words and
the nominative. -/
def categories : ℕ → GramBits
  | 0 => allMajorCases
  | 1 => {192, 191, 193}
  | 2 => {174, 175}
  | 3 => {188, 189, 190}
  | 4 => {160, 162, 163}
  | 5 => {201, 202}
  | 6 => {192, 191, 193}
  | 7 => {165}
  | _ => ∅

/-- `Activators`: any case activates the nominative. -/
def activators (i : ℕ) : GramBits := if i = 7 then allMajorCases else categories i

/-- `HasAny`. -/
def hasAny (gram bits : GramBits) : Bool := decide ((gram ∩ bits).Nonempty)

/-- `gram.Set(grammem)` where the condition holds. -/
def setIf (condition : Bool) (grammem : ℕ) (gram : GramBits) : GramBits :=
  if condition then insert grammem gram else gram

/-- `NormalizeGenders`. -/
def normalizeGenders (gram : GramBits) : GramBits :=
  if 194 ∈ gram then insert 191 (insert 192 gram) else gram

/-- `NormalizeCases`: the partitive, the locative and the vocative. -/
def normalizeCases (gram : GramBits) : GramBits :=
  setIf (decide (173 ∈ gram)) 165
    (setIf (decide (172 ∈ gram)) 170 (setIf (decide (171 ∈ gram)) 166 gram))

/-- `NormalizeTenses`: a form that is not past is present or future by its aspect. -/
def normalizeTenses (gram : GramBits) : GramBits :=
  if 161 ∈ gram then
    setIf (decide (195 ∈ gram)) 163 (setIf (decide (196 ∈ gram)) 160 (gram.erase 161))
  else gram

/-- `NormalizeAll`. -/
def normalizeAll (gram : GramBits) : GramBits :=
  if hasAny gram {194, 171, 172, 173, 161} then
    normalizeTenses (normalizeCases (normalizeGenders gram))
  else gram

/-- The grammemes of one category: all of them where the form names none. -/
def categoryGrammems (gram : GramBits) (i : ℕ) : GramBits :=
  if hasAny gram (activators i) then gram ∩ categories i else categories i

/-- `StrongNormalize`. -/
def strongNormalize (gram : GramBits) (mask : Finset ℕ) : GramBits :=
  let gram := normalizeAll gram
  let masked := (List.range gcMax).filter fun i => decide (i ∈ mask)
  let tmp := masked.foldl (fun tmp i => tmp ∪ categoryGrammems gram i) ∅
  let hasAnyCategory := masked.any fun i => hasAny gram (activators i)
  if hasAnyCategory || (decide (gcGender ∈ mask) && decide (plural ∈ gram)) then
    -- a common noun agrees with feminine words
    setIf (decide (gcFemGender ∈ mask) && decide (substantive ∈ gram) &&
      !hasAny gram {156, 155, 158, 159}) feminine tmp
  else ∅

/-- `IsAgreed`. -/
def isAgreed (common : GramBits) (mask : Finset ℕ) : Bool :=
  (List.range gcMax).all fun i => decide (i ∉ mask) || hasAny common (categories i)

end TomitaParser.Gzt.Gleiche

namespace TomitaParser.Gzt

/-- The tables with the agreement of `NGleiche`. -/
def MatchTables.withGleiche (tables : MatchTables) : MatchTables :=
  { tables with strongNormalize := Gleiche.strongNormalize, isAgreed := Gleiche.isAgreed }

namespace Gleiche

/-- The forms have a common grammeme in every category of the mask. -/
def Agree (mask : Finset ℕ) (forms : List GramBits) : Prop :=
  ∀ i < gcMax, i ∈ mask → ∃ g ∈ categories i, ∀ form ∈ forms, g ∈ strongNormalize form mask

theorem categories_nonempty {i : ℕ} (h : i < gcMax) : (categories i).Nonempty := by
  have hall : ∀ i < gcMax, (categories i).Nonempty := by decide
  exact hall i h

theorem isAgreed_iff (common : GramBits) (mask : Finset ℕ) :
    isAgreed common mask = true ↔ ∀ i < gcMax, i ∈ mask → ∃ g ∈ categories i, g ∈ common := by
  unfold isAgreed hasAny
  simp only [List.all_eq_true, List.mem_range, Bool.or_eq_true, decide_eq_true_eq]
  constructor
  · intro h i hi hmask
    rcases h i hi with hnot | ⟨g, hg⟩
    · exact absurd hmask hnot
    · exact ⟨g, (Finset.mem_inter.mp hg).2, (Finset.mem_inter.mp hg).1⟩
  · intro h i hi
    by_cases hmask : i ∈ mask
    · obtain ⟨g, hcategory, hcommon⟩ := h i hi hmask
      exact Or.inr ⟨g, Finset.mem_inter.mpr ⟨hcommon, hcategory⟩⟩
    · exact Or.inl hmask

theorem agree_nil (mask : Finset ℕ) : Agree mask [] := by
  intro i hi _
  obtain ⟨g, hg⟩ := categories_nonempty hi
  exact ⟨g, hg, fun form h => by cases h⟩

theorem Agree.mono {mask : Finset ℕ} {forms forms' : List GramBits} (h : Agree mask forms)
    (hsub : ∀ form ∈ forms', form ∈ forms) : Agree mask forms' := by
  intro i hi hmask
  obtain ⟨g, hg, hall⟩ := h i hi hmask
  exact ⟨g, hg, fun form hform => hall form (hsub form hform)⟩

/-- A set of grammemes that holds what is common to the forms. -/
def Common (mask : Finset ℕ) (forms : List GramBits) (common : GramBits) : Prop :=
  ∀ g, g ∈ common ↔ ∀ form ∈ forms, g ∈ strongNormalize form mask

theorem common_singleton (mask : Finset ℕ) (form : GramBits) :
    Common mask [form] (strongNormalize form mask) := by
  intro g
  simp

theorem Common.cons {mask : Finset ℕ} {forms : List GramBits} {common : GramBits}
    (h : Common mask forms common) (form : GramBits) :
    Common mask (form :: forms) (strongNormalize form mask ∩ common) := by
  intro g
  rw [Finset.mem_inter, List.forall_mem_cons, h g]

theorem Common.isAgreed_iff {mask : Finset ℕ} {forms : List GramBits} {common : GramBits}
    (h : Common mask forms common) : isAgreed common mask = true ↔ Agree mask forms := by
  rw [Gleiche.isAgreed_iff]
  unfold Agree
  simp only [h _]

end Gleiche

end TomitaParser.Gzt
