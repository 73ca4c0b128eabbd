import TomitaParser.Gzt.HomoformRemoval
/-! # What a match has checked

A match removes homoforms, one check after the other. Where it succeeds, each filter holds of what
is left of the words.
-/

namespace TomitaParser.Gzt

namespace InputWord

/-- A homoform that has a bit in the mask is left. -/
def HasForm (w : InputWord) : Prop := ∃ f ∈ w.homoforms, f.2 < maxHomoformCount

/-- What a removal leaves was there before, and is not to be removed if it has a bit in the mask. -/
theorem mem_homoforms_removeGrammems {w : InputWord} (h : w.Masked) {remove : GramBits → Bool}
    {f : GramBits × ℕ} (hf : f ∈ (w.removeGrammems remove).homoforms) :
    f ∈ w.homoforms ∧ (f.2 < maxHomoformCount → remove f.1 = false) := by
  rw [homoforms_removeGrammems_eq h, leftOf, List.mem_filter] at hf
  obtain ⟨hmem, hkept⟩ := hf
  simp only [Bool.and_eq_true, Bool.or_eq_true, decide_eq_true_eq, Bool.not_eq_true'] at hkept
  exact ⟨hmem, fun hlt => hkept.2.resolve_left (not_le_of_gt hlt)⟩

/-- Homoforms past the mask do not stay alone. -/
theorem hasForm_removeGrammems {w : InputWord} (h : w.Masked) {remove : GramBits → Bool}
    (hne : (w.removeGrammems remove).homoforms ≠ []) : (w.removeGrammems remove).HasForm := by
  rw [HasForm, homoforms_removeGrammems_eq h]
  rw [homoforms_removeGrammems_eq h] at hne
  obtain ⟨f, hf⟩ := List.exists_mem_of_ne_nil _ hne
  rw [leftOf, List.mem_filter, Bool.and_eq_true] at hf
  obtain ⟨g, hg, hkept⟩ := List.any_eq_true.mp hf.2.1
  refine ⟨g, List.mem_filter.mpr ⟨hg, ?_⟩, ?_⟩
  · rw [hf.2.1]
    simp only [Bool.and_eq_true] at hkept
    simp [hkept.2]
  · simp only [Bool.and_eq_true, decide_eq_true_eq] at hkept
    exact hkept.1

end InputWord

namespace PhraseWords
open InputWord

/-- The words of a phrase behind some checks that succeed: only homoforms are removed, and a word
that had some in the mask has some left. -/
structure Narrows (p q : PhraseWords) : Prop where
  chosen : ∀ i, (q.word i).lemma? = (p.word i).lemma?
  anyWord : ∀ i, (q.word i).isAnyWord = (p.word i).isAnyWord
  masked : ∀ i, (p.word i).Masked → (q.word i).Masked
  homoforms : ∀ i, (p.word i).Masked → ∀ f ∈ (q.word i).homoforms, f ∈ (p.word i).homoforms
  left : ∀ i, (p.word i).Masked → (p.word i).HasForm → (q.word i).HasForm

section Narrows
variable {p q r : PhraseWords} {correctIndex : ℕ → ℕ} {tables : MatchTables}

theorem Narrows.refl (p : PhraseWords) : Narrows p p :=
  ⟨fun _ => rfl, fun _ => rfl, fun _ h => h, fun _ _ _ hf => hf, fun _ _ h => h⟩

theorem Narrows.trans (h : Narrows p q) (h' : Narrows q r) : Narrows p r where
  chosen i := (h'.chosen i).trans (h.chosen i)
  anyWord i := (h'.anyWord i).trans (h.anyWord i)
  masked i hmasked := h'.masked i (h.masked i hmasked)
  homoforms i hmasked f hf := h.homoforms i hmasked f (h'.homoforms i (h.masked i hmasked) f hf)
  left i hmasked hleft := h'.left i (h.masked i hmasked) (h.left i hmasked hleft)

theorem Narrows.exact (h : Narrows p q) (i : ℕ) :
    (q.word i).exactWordFromKey = (p.word i).exactWordFromKey := by
  simp only [exactWordFromKey, isLemma, h.chosen i, h.anyWord i]

/-- A word loses homoforms and has some left. -/
theorem Narrows.remove {index : ℕ} {remove : GramBits → Bool}
    (h : (p.word index).exactWordFromKey = false)
    (hleft : ((p.removeGrammems index remove).word index).hasGrammems = true) :
    Narrows p (p.removeGrammems index remove) := by
  have hword := word_removeGrammems p (lt_length_of_not_exact h) remove
  refine ⟨?_, ?_, ?_, ?_, ?_⟩
  · intro i
    rw [hword i]
    split_ifs <;> rfl
  · intro i
    rw [hword i]
    split_ifs <;> rfl
  · intro i hmasked
    rw [hword i]
    split_ifs
    · exact hmasked.removeGrammems remove
    · exact hmasked
  · intro i hmasked f hf
    rw [hword i] at hf
    split_ifs at hf
    · exact (mem_homoforms_removeGrammems hmasked hf).1
    · exact hf
  · intro i hmasked hi
    by_cases heq : index = i
    · subst heq
      rw [hasGrammems_iff] at hleft
      rw [hword index, if_pos rfl] at hleft ⊢
      exact hasForm_removeGrammems hmasked hleft
    · rw [hword i, if_neg heq]
      exact hi

/-- A word that a filter of grammems is applied to has homoforms left, and each of them passes. -/
theorem filterGrammems_passed {allow : Bool} {filters : List (ℕ × List GramBits)}
    (h : (filterGrammems correctIndex allow filters p).1 = true) :
    Narrows p (filterGrammems correctIndex allow filters p).2 ∧
      ∀ f ∈ filters, f.2 ≠ [] → (p.word (correctIndex f.1)).exactWordFromKey = false →
        (p.word (correctIndex f.1)).Masked →
          let w := (filterGrammems correctIndex allow filters p).2.word (correctIndex f.1)
          w.HasForm ∧ ∀ g ∈ w.homoforms, g.2 < maxHomoformCount →
            f.2.any (fun v => decide (v ⊆ g.1)) = allow := by
  induction filters generalizing p with
  | nil => exact ⟨Narrows.refl p, by simp⟩
  | cons f rest ih =>
    obtain ⟨word, filter⟩ := f
    rw [filterGrammems] at h ⊢
    by_cases hskip : (filter.isEmpty || (p.word (correctIndex word)).exactWordFromKey) = true
    · simp only [if_pos hskip] at h ⊢
      obtain ⟨hnarrows, hpassed⟩ := ih h
      refine ⟨hnarrows, ?_⟩
      intro f hf hne hexact hmasked
      rcases List.mem_cons.mp hf with rfl | hf
      · rw [hexact, Bool.or_false, List.isEmpty_iff] at hskip
        exact absurd hskip hne
      · exact hpassed f hf hne hexact hmasked
    · simp only [if_neg hskip] at h ⊢
      have hexact : (p.word (correctIndex word)).exactWordFromKey = false := by
        simp only [Bool.or_eq_true, not_or, Bool.not_eq_true] at hskip
        exact hskip.2
      generalize hnext : p.removeGrammems (correctIndex word)
        (fun g => filter.any (fun f => decide (f ⊆ g)) != allow) = next at h ⊢
      by_cases hleft : (next.word (correctIndex word)).hasGrammems = true
      · simp only [if_pos hleft] at h ⊢
        have hstep : Narrows p next := by
          subst hnext
          exact Narrows.remove hexact hleft
        obtain ⟨hnarrows, hpassed⟩ := ih h
        refine ⟨hstep.trans hnarrows, ?_⟩
        intro f hf hne hexact' hmasked
        rcases List.mem_cons.mp hf with rfl | hf
        · have hword := word_removeGrammems p (lt_length_of_not_exact hexact)
            (fun g => filter.any (fun f => decide (f ⊆ g)) != allow) (correctIndex word)
          rw [hnext, if_pos rfl] at hword
          refine ⟨hnarrows.left _ (hstep.masked _ hmasked) ?_, ?_⟩
          · rw [hasGrammems_iff, hword] at hleft
            rw [hword]
            exact hasForm_removeGrammems hmasked hleft
          · intro g hg hlt
            have hg' := hnarrows.homoforms _ (hstep.masked _ hmasked) g hg
            rw [hword] at hg'
            have hkept := (mem_homoforms_removeGrammems hmasked hg').2 hlt
            simpa using hkept
        · apply hpassed f hf hne
          · rw [hstep.exact, hexact']
          · exact hstep.masked _ hmasked
      · simp only [if_neg hleft, Bool.false_eq_true] at h

theorem removeDisagreed_narrows {types : Finset ℕ} {agreed : List GramBits} {words : List ℕ}
    (h : (removeDisagreed tables correctIndex types agreed words p).1 = true) :
    Narrows p (removeDisagreed tables correctIndex types agreed words p).2 := by
  induction words generalizing p with
  | nil => exact Narrows.refl p
  | cons word rest ih =>
    rw [removeDisagreed] at h ⊢
    cases hexact : (p.word (correctIndex word)).exactWordFromKey with
    | true =>
      simp only [hexact, if_true] at h ⊢
      exact ih h
    | false =>
      simp only [hexact, Bool.false_eq_true, if_false] at h ⊢
      by_cases hleft : ((p.removeGrammems (correctIndex word) fun g =>
          !agreed.any fun a => tables.isAgreed (tables.strongNormalize g types ∩ a) types).word
            (correctIndex word)).hasGrammems = true
      · simp only [if_pos hleft] at h ⊢
        exact (Narrows.remove hexact hleft).trans (ih h)
      · simp only [if_neg hleft, Bool.false_eq_true] at h

theorem checkSingleAgreement_narrows {words : List ℕ} {types : Finset ℕ}
    (h : (checkSingleAgreement tables correctIndex words types p).1 = true) :
    Narrows p (checkSingleAgreement tables correctIndex words types p).2 := by
  unfold checkSingleAgreement at h ⊢
  dsimp only at h ⊢
  split at h
  · exact Narrows.refl p
  · split at h
    · cases h
    · exact removeDisagreed_narrows h

/-- Each agreement is checked on what the checks before it have left. -/
theorem checkAgreements_passed {agreements : List (List ℕ × Finset ℕ)}
    (h : (checkAgreements tables correctIndex agreements p).1 = true) :
    Narrows p (checkAgreements tables correctIndex agreements p).2 ∧
      ∀ a ∈ agreements, ∃ r, Narrows p r ∧
        (checkSingleAgreement tables correctIndex a.1 a.2 r).1 = true := by
  induction agreements generalizing p with
  | nil => exact ⟨Narrows.refl p, by simp⟩
  | cons a rest ih =>
    rw [checkAgreements] at h ⊢
    by_cases hfirst : (checkSingleAgreement tables correctIndex a.1 a.2 p).1 = true
    · simp only [if_pos hfirst] at h ⊢
      have hstep := checkSingleAgreement_narrows hfirst
      obtain ⟨hnarrows, hrest⟩ := ih h
      refine ⟨hstep.trans hnarrows, ?_⟩
      intro a' ha'
      rcases List.mem_cons.mp ha' with rfl | ha'
      · exact ⟨p, Narrows.refl p, hfirst⟩
      · obtain ⟨r, hr, hchecked⟩ := hrest a' ha'
        exact ⟨r, hstep.trans hr, hchecked⟩
    · simp only [if_neg hfirst, Bool.false_eq_true] at h

/-- What a match has checked. -/
structure Checked (tables : MatchTables) (correctIndex : ℕ → ℕ) (c : Constraints)
    (p q : PhraseWords) : Prop where
  narrows : Narrows p q
  allowedGrams : ∀ f ∈ c.allowedGrams, f.2 ≠ [] →
    (q.word (correctIndex f.1)).exactWordFromKey = false → (p.word (correctIndex f.1)).Masked →
      (q.word (correctIndex f.1)).HasForm ∧
        ∀ g ∈ (q.word (correctIndex f.1)).homoforms, g.2 < maxHomoformCount → ∃ v ∈ f.2, v ⊆ g.1
  forbiddenGrams : ∀ f ∈ c.forbiddenGrams, f.2 ≠ [] →
    (q.word (correctIndex f.1)).exactWordFromKey = false → (p.word (correctIndex f.1)).Masked →
      (q.word (correctIndex f.1)).HasForm ∧
        ∀ g ∈ (q.word (correctIndex f.1)).homoforms, g.2 < maxHomoformCount → ∀ v ∈ f.2, ¬v ⊆ g.1
  allowedLangs : ∀ l ∈ c.allowedLangs, (q.word (correctIndex l.1)).isLemma = true →
    ∃ mask ∈ l.2, q.getLanguage (correctIndex l.1) ∈ mask
  forbiddenLangs : ∀ l ∈ c.forbiddenLangs, (q.word (correctIndex l.1)).isLemma = true →
    ∀ mask ∈ l.2, q.getLanguage (correctIndex l.1) ∉ mask
  allowedCases : ∀ k ∈ c.allowedCases, ∃ v ∈ k.2,
    checkSingleWordCapitalization tables true q (correctIndex k.1) v = true
  forbiddenCases : ∀ k ∈ c.forbiddenCases, ∀ v ∈ k.2,
    checkSingleWordCapitalization tables false q (correctIndex k.1) v = false
  agreements : ∀ a ∈ c.agreements, ∃ r, Narrows p r ∧
    (checkSingleAgreement tables correctIndex a.1 a.2 r).1 = true

theorem matchConstraints_checked {c : Constraints}
    (h : (matchConstraints tables correctIndex c p).1 = true) :
    Checked tables correctIndex c p (matchConstraints tables correctIndex c p).2 := by
  unfold matchConstraints at h ⊢
  dsimp only at h ⊢
  by_cases hforbidden : (filterGrammems correctIndex false c.forbiddenGrams p).1 = true
  swap
  · simp [hforbidden] at h
  obtain ⟨hn₁, hp₁⟩ := filterGrammems_passed hforbidden
  generalize hp' : (filterGrammems correctIndex false c.forbiddenGrams p).2 = p₁ at *
  by_cases hallowed : (filterGrammems correctIndex true c.allowedGrams p₁).1 = true
  swap
  · simp [hforbidden, hallowed] at h
  obtain ⟨hn₂, hp₂⟩ := filterGrammems_passed hallowed
  generalize hp'' : (filterGrammems correctIndex true c.allowedGrams p₁).2 = p₂ at *
  by_cases hagreed : (checkAgreements tables correctIndex c.agreements p₂).1 = true
  swap
  · simp [hforbidden, hallowed, hagreed] at h
  obtain ⟨hn₃, hp₃⟩ := checkAgreements_passed hagreed
  generalize hq : (checkAgreements tables correctIndex c.agreements p₂).2 = q at *
  simp only [hforbidden, hallowed, hagreed, Bool.not_true, Bool.false_eq_true, if_false,
    Bool.and_eq_true] at h ⊢
  obtain ⟨⟨⟨hforbiddenLangs, hallowedLangs⟩, hforbiddenCases⟩, hallowedCases⟩ := h
  have hn₂₃ := hn₂.trans hn₃
  have hn := hn₁.trans hn₂₃
  refine ⟨hn, ?_, ?_, ?_, ?_, ?_, ?_, ?_⟩
  · intro f hf hne hexact hmasked
    have hmasked₁ := hn₁.masked _ hmasked
    have hmasked₂ := hn₂.masked _ hmasked₁
    obtain ⟨hleft, hgrammems⟩ := hp₂ f hf hne ((hn₂₃.exact _).symm.trans hexact) hmasked₁
    refine ⟨hn₃.left _ hmasked₂ hleft, ?_⟩
    intro g hg hlt
    simpa using hgrammems g (hn₃.homoforms _ hmasked₂ g hg) hlt
  · intro f hf hne hexact hmasked
    have hmasked₁ := hn₁.masked _ hmasked
    obtain ⟨hleft, hgrammems⟩ := hp₁ f hf hne ((hn.exact _).symm.trans hexact) hmasked
    refine ⟨hn₂₃.left _ hmasked₁ hleft, ?_⟩
    intro g hg hlt
    simpa using hgrammems g (hn₂₃.homoforms _ hmasked₁ g hg) hlt
  · intro l hl hlemma
    have hcheck := List.all_eq_true.mp hallowedLangs l hl
    simpa [hlemma] using hcheck
  · intro l hl hlemma
    have hcheck := List.all_eq_true.mp hforbiddenLangs l hl
    simpa [hlemma] using hcheck
  · intro k hk
    have hcheck := List.all_eq_true.mp hallowedCases k hk
    simpa using hcheck
  · intro k hk
    have hcheck := List.all_eq_true.mp hforbiddenCases k hk
    simpa using hcheck
  · intro a ha
    obtain ⟨r, hr, hchecked⟩ := hp₃ a ha
    exact ⟨r, (hn₁.trans hn₂).trans hr, hchecked⟩

end Narrows

end PhraseWords

end TomitaParser.Gzt
