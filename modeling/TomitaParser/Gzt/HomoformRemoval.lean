import Mathlib.Data.Finset.Card
import TomitaParser.Gzt.FilterMatch
/-! # Removing homoforms

A loop over the homoforms of a word marks those that it removes. The mask has 32 bits: homoforms
past it stay as long as another one does. -/

namespace TomitaParser.Gzt

namespace InputWord

/-- The homoforms that are not bad, with their numbers. -/
def homoforms (w : InputWord) : List (GramBits × ℕ) :=
  if w.badHomoforms = allBad then []
  else w.sourceGrammems.zipIdx.filter fun g => decide (g.2 ∉ w.badHomoforms)

theorem iterGrammems_eq (w : InputWord) : w.iterGrammems = w.homoforms.map Prod.fst := by
  unfold iterGrammems homoforms
  split_ifs
  · rfl
  · rfl

/-- The mask is one word of bits. -/
def Masked (w : InputWord) : Prop := w.badHomoforms ⊆ allBad

/-- The bad homoforms after a loop that removes. -/
def finalBad (remove : GramBits → Bool) : List GramBits → ℕ → Finset ℕ → Finset ℕ
  | [], _, bad => bad
  | g :: rest, index, bad =>
    finalBad remove rest (index + 1)
      (if remove g = true ∧ index < maxHomoformCount then insert index bad else bad)

section FinalBad
variable {remove : GramBits → Bool}

theorem mem_finalBad {l : List GramBits} {index : ℕ} {bad : Finset ℕ} {k : ℕ} :
    k ∈ finalBad remove l index bad ↔
      k ∈ bad ∨ ∃ g, (g, k) ∈ l.zipIdx index ∧ remove g = true ∧ k < maxHomoformCount := by
  induction l generalizing index bad with
  | nil => simp [finalBad]
  | cons g rest ih =>
    rw [finalBad, ih, List.zipIdx_cons]
    simp only [List.mem_cons, Prod.mk.injEq]
    split_ifs with h
    · constructor
      · rintro (hk | ⟨g', hg', hrest⟩)
        · rcases Finset.mem_insert.mp hk with rfl | hk
          · exact Or.inr ⟨g, Or.inl ⟨rfl, rfl⟩, h⟩
          · exact Or.inl hk
        · exact Or.inr ⟨g', Or.inr hg', hrest⟩
      · rintro (hk | ⟨g', ⟨rfl, rfl⟩ | hg', hrest⟩)
        · exact Or.inl (Finset.mem_insert_of_mem hk)
        · exact Or.inl (Finset.mem_insert_self k bad)
        · exact Or.inr ⟨g', hg', hrest⟩
    · constructor
      · rintro (hk | ⟨g', hg', hrest⟩)
        · exact Or.inl hk
        · exact Or.inr ⟨g', Or.inr hg', hrest⟩
      · rintro (hk | ⟨g', ⟨rfl, rfl⟩ | hg', hrest⟩)
        · exact Or.inl hk
        · exact absurd hrest h
        · exact Or.inr ⟨g', hg', hrest⟩

theorem subset_finalBad (l : List GramBits) (index : ℕ) (bad : Finset ℕ) :
    bad ⊆ finalBad remove l index bad := fun _ hk => mem_finalBad.mpr (Or.inl hk)

theorem finalBad_subset {l : List GramBits} {index : ℕ} {bad : Finset ℕ} (h : bad ⊆ allBad) :
    finalBad remove l index bad ⊆ allBad := by
  intro k hk
  rcases mem_finalBad.mp hk with hk | ⟨_, _, _, hk⟩
  · exact h hk
  · exact Finset.mem_range.mpr hk

/-- The bad homoforms before `index` are counted by the loop. -/
def badBefore (bad : Finset ℕ) (index : ℕ) : ℕ := ((Finset.range index).filter (· ∈ bad)).card

theorem badBefore_succ (bad : Finset ℕ) (index : ℕ) :
    badBefore bad (index + 1) = badBefore bad index + if index ∈ bad then 1 else 0 := by
  unfold badBefore
  rw [Finset.range_add_one, Finset.filter_insert]
  split_ifs with h
  · rw [Finset.card_insert_of_notMem]
    simp
  · rfl

theorem badBefore_insert (bad : Finset ℕ) (index : ℕ) :
    badBefore (insert index bad) index = badBefore bad index := by
  unfold badBefore
  congr 1
  apply Finset.filter_congr
  intro k hk
  have hne : k ≠ index := Nat.ne_of_lt (Finset.mem_range.mp hk)
  simp [hne]

theorem le_badBefore_iff (bad : Finset ℕ) (index : ℕ) :
    index ≤ badBefore bad index ↔ ∀ k < index, k ∈ bad := by
  unfold badBefore
  constructor
  · intro h k hk
    have hall : (Finset.range index).filter (· ∈ bad) = Finset.range index := by
      apply Finset.eq_of_subset_of_card_le (Finset.filter_subset _ _)
      rw [Finset.card_range]
      exact h
    have hmem : k ∈ (Finset.range index).filter (· ∈ bad) := by
      rw [hall]
      exact Finset.mem_range.mpr hk
    exact (Finset.mem_filter.mp hmem).2
  · intro h
    have hall : (Finset.range index).filter (· ∈ bad) = Finset.range index := by
      apply Finset.filter_true_of_mem
      intro k hk
      exact h k (Finset.mem_range.mp hk)
    rw [hall, Finset.card_range]

/-- The loop marks what it removes, and everything where nothing is left. -/
theorem removeLoop_eq {l : List GramBits} {index : ℕ} {bad : Finset ℕ} (h : bad ⊆ allBad) :
    removeLoop remove l index (badBefore bad index) bad =
      if (∀ k < index + l.length, k ∈ finalBad remove l index bad) ∨
          finalBad remove l index bad = allBad then allBad
      else finalBad remove l index bad := by
  induction l generalizing index bad with
  | nil =>
    rw [removeLoop, finalBad, List.length_nil, Nat.add_zero]
    by_cases hall : ∀ k < index, k ∈ bad
    · rw [if_pos ((le_badBefore_iff bad index).mpr hall), if_pos (Or.inl hall)]
    · rw [if_neg (fun hle => hall ((le_badBefore_iff bad index).mp hle))]
      by_cases hbad : bad = allBad
      · rw [if_pos (Or.inr hbad), hbad]
      · rw [if_neg (not_or.mpr ⟨hall, hbad⟩)]
  | cons g rest ih =>
    have hlength : index + (g :: rest).length = index + 1 + rest.length := by
      rw [List.length_cons]
      omega
    rw [removeLoop, finalBad, hlength]
    by_cases hmem : index ∈ bad
    · have hcount : badBefore bad index + 1 = badBefore bad (index + 1) := by
        rw [badBefore_succ, if_pos hmem]
      have hsame : (if remove g = true ∧ index < maxHomoformCount then insert index bad else bad) =
          bad := by
        split_ifs
        · exact Finset.insert_eq_of_mem hmem
        · rfl
      rw [if_pos hmem, hcount, ih h, hsame]
    · rw [if_neg hmem]
      by_cases hbad : bad = allBad
      · -- every bit is set, and nothing after it can be marked
        have hfinal : finalBad remove rest (index + 1)
            (if remove g = true ∧ index < maxHomoformCount then insert index bad else bad) =
              allBad := by
          have hge : ¬ index < maxHomoformCount := by
            intro hlt
            rw [hbad] at hmem
            exact hmem (Finset.mem_range.mpr hlt)
          rw [if_neg (fun hboth => hge hboth.2)]
          apply Finset.Subset.antisymm (finalBad_subset h)
          rw [← hbad]
          exact subset_finalBad rest (index + 1) bad
        rw [if_pos hbad, if_pos (Or.inr hfinal), hbad]
      · rw [if_neg hbad]
        by_cases hremove : remove g = true ∧ index < maxHomoformCount
        · have hcount : badBefore bad index + 1 = badBefore (insert index bad) (index + 1) := by
            rw [badBefore_succ, badBefore_insert, if_pos (Finset.mem_insert_self index bad)]
          have hsub : insert index bad ⊆ allBad :=
            Finset.insert_subset (Finset.mem_range.mpr hremove.2) h
          simp only [hremove.1, hremove.2, decide_true, Bool.and_self, if_true, and_self]
          rw [hcount, ih hsub]
        · have hcount : badBefore bad index = badBefore bad (index + 1) := by
            rw [badBefore_succ, if_neg hmem, Nat.add_zero]
          have hbool : (remove g && decide (index < maxHomoformCount)) = false := by
            rw [Bool.eq_false_iff]
            simpa using hremove
          rw [hbool, if_neg hremove]
          simp only [Bool.false_eq_true, if_false]
          rw [hcount, ih h]

theorem badHomoforms_removeGrammems {w : InputWord} (h : w.Masked)
    (hall : w.badHomoforms ≠ allBad) : (w.removeGrammems remove).badHomoforms =
      if (∀ k < w.sourceGrammems.length, k ∈ finalBad remove w.sourceGrammems 0 w.badHomoforms) ∨
          finalBad remove w.sourceGrammems 0 w.badHomoforms = allBad then allBad
      else finalBad remove w.sourceGrammems 0 w.badHomoforms := by
  have hloop := @removeLoop_eq remove w.sourceGrammems 0 w.badHomoforms h
  have hzero : badBefore w.badHomoforms 0 = 0 := rfl
  rw [hzero, Nat.zero_add] at hloop
  rw [removeGrammems]
  dsimp only
  rw [if_neg hall]
  exact hloop

end FinalBad

/-- Some homoform with a bit in the mask stays. -/
def lowKept (remove : GramBits → Bool) (w : InputWord) : Bool :=
  w.homoforms.any fun h => decide (h.2 < maxHomoformCount) && !remove h.1

/-- What is left of the homoforms: those past the mask stay as long as another one does. -/
theorem homoforms_removeGrammems {w : InputWord} (h : w.Masked) (remove : GramBits → Bool) :
    (w.removeGrammems remove).homoforms = w.homoforms.filter fun f =>
      lowKept remove w && (decide (maxHomoformCount ≤ f.2) || !remove f.1) := by
  by_cases hall : w.badHomoforms = allBad
  · have hnil : w.homoforms = [] := if_pos hall
    have hbad : (w.removeGrammems remove).badHomoforms = allBad := if_pos hall
    rw [hnil, homoforms, if_pos hbad, List.filter_nil]
  have hsource : (w.removeGrammems remove).sourceGrammems = w.sourceGrammems := rfl
  have hforms : w.homoforms = w.sourceGrammems.zipIdx.filter
      fun g => decide (g.2 ∉ w.badHomoforms) := if_neg hall
  let final := finalBad remove w.sourceGrammems 0 w.badHomoforms
  have hfinal {g : GramBits} {k : ℕ} (hg : (g, k) ∈ w.sourceGrammems.zipIdx) :
      k ∈ final ↔ k ∈ w.badHomoforms ∨ (remove g = true ∧ k < maxHomoformCount) := by
    rw [mem_finalBad]
    constructor
    · rintro (hk | ⟨g', hg', hremove⟩)
      · exact Or.inl hk
      · have heq : g' = g := by
          have h₁ := List.mk_mem_zipIdx_iff_getElem?.mp hg
          have h₂ := List.mk_mem_zipIdx_iff_getElem?.mp hg'
          rw [h₁] at h₂
          exact (Option.some.inj h₂).symm
        rw [heq] at hremove
        exact Or.inr hremove
    · rintro (hk | hremove)
      · exact Or.inl hk
      · exact Or.inr ⟨g, hg, hremove⟩
  have hbad : (w.removeGrammems remove).badHomoforms =
      if (∀ k < w.sourceGrammems.length, k ∈ final) ∨ final = allBad then allBad else final :=
    badHomoforms_removeGrammems h hall
  by_cases hgone : (∀ k < w.sourceGrammems.length, k ∈ final) ∨ final = allBad
  · have hlow : lowKept remove w = false := by
      rw [Bool.eq_false_iff]
      intro hlow
      obtain ⟨⟨g, k⟩, hg, hk⟩ := List.any_eq_true.mp hlow
      rw [hforms, List.mem_filter] at hg
      simp only [Bool.and_eq_true, decide_eq_true_eq, Bool.not_eq_true'] at hg hk
      have hnot : k ∉ final := by
        rw [hfinal hg.1]
        rintro (hbad | hremove)
        · exact hg.2 hbad
        · rw [hk.2] at hremove
          exact absurd hremove.1 (by decide)
      rcases hgone with hgone | hgone
      · exact hnot (hgone k (List.snd_lt_of_mem_zipIdx hg.1))
      · apply hnot
        rw [hgone]
        exact Finset.mem_range.mpr hk.1
    rw [homoforms, hbad, if_pos hgone, if_pos rfl, hlow]
    simp
  · obtain ⟨hlength, hne⟩ := not_or.mp hgone
    -- a bit of the mask within the source is not set
    obtain ⟨k, hk, hklow, hkfinal⟩ : ∃ k, k < w.sourceGrammems.length ∧ k < maxHomoformCount ∧
        k ∉ final := by
      obtain ⟨k, hk, hkfinal⟩ : ∃ k, k < w.sourceGrammems.length ∧ k ∉ final := by
        simpa using hlength
      by_cases hfits : w.sourceGrammems.length ≤ maxHomoformCount
      · exact ⟨k, hk, by omega, hkfinal⟩
      · have hsub : ¬ allBad ⊆ final := fun hsub =>
          hne (Finset.Subset.antisymm (finalBad_subset h) hsub)
        obtain ⟨k', hk', hkfinal'⟩ := Finset.not_subset.mp hsub
        have hlow := Finset.mem_range.mp hk'
        exact ⟨k', by omega, hlow, hkfinal'⟩
    have hlow : lowKept remove w = true := by
      have hmem : (w.sourceGrammems[k], k) ∈ w.sourceGrammems.zipIdx :=
        List.mk_mem_zipIdx_iff_getElem?.mpr (List.getElem?_eq_getElem hk)
      rw [hfinal hmem] at hkfinal
      obtain ⟨hkbad, hkremove⟩ := not_or.mp hkfinal
      apply List.any_eq_true.mpr
      refine ⟨(w.sourceGrammems[k], k), ?_, ?_⟩
      · rw [hforms, List.mem_filter]
        exact ⟨hmem, decide_eq_true hkbad⟩
      · have hnot : remove w.sourceGrammems[k] = false := by
          rw [Bool.eq_false_iff]
          intro hremove
          exact hkremove ⟨hremove, hklow⟩
        simp [hklow, hnot]
    rw [homoforms, hbad, if_neg hgone, if_neg hne, hlow, hforms, List.filter_filter, hsource]
    apply List.filter_congr
    intro f hf
    have hf := hfinal hf
    by_cases hfbad : f.2 ∈ w.badHomoforms
    · simp [hf, hfbad]
    · by_cases hfremove : remove f.1 = true
      · simp [hf, hfbad, hfremove]
      · simp [hf, hfbad, hfremove]

theorem Masked.removeGrammems {w : InputWord} (h : w.Masked) (remove : GramBits → Bool) :
    (w.removeGrammems remove).Masked := by
  unfold Masked
  by_cases hall : w.badHomoforms = allBad
  · have hbad : (w.removeGrammems remove).badHomoforms = allBad := if_pos hall
    rw [hbad]
  · rw [badHomoforms_removeGrammems h hall]
    split_ifs
    · exact Finset.Subset.refl _
    · exact finalBad_subset h

/-- What removing leaves of a list of homoforms. -/
def leftOf (remove : GramBits → Bool) (l : List (GramBits × ℕ)) : List (GramBits × ℕ) :=
  l.filter fun f =>
    (l.any fun h => decide (h.2 < maxHomoformCount) && !remove h.1) &&
      (decide (maxHomoformCount ≤ f.2) || !remove f.1)

theorem leftOf_leftOf (remove : GramBits → Bool) (l : List (GramBits × ℕ)) :
    leftOf remove (leftOf remove l) = leftOf remove l := by
  cases hlow : l.any fun h => decide (h.2 < maxHomoformCount) && !remove h.1 with
  | false =>
    have hnil : leftOf remove l = [] := by
      unfold leftOf
      rw [hlow]
      simp
    rw [hnil]
    rfl
  | true =>
    have hlow' : (leftOf remove l).any
        (fun h => decide (h.2 < maxHomoformCount) && !remove h.1) = true := by
      obtain ⟨h, hh, hkept⟩ := List.any_eq_true.mp hlow
      rw [List.any_eq_true]
      refine ⟨h, List.mem_filter.mpr ⟨hh, ?_⟩, hkept⟩
      rw [hlow]
      simp only [Bool.and_eq_true] at hkept
      simp [hkept.2]
    have hself : leftOf remove l =
        l.filter fun f => decide (maxHomoformCount ≤ f.2) || !remove f.1 := by
      unfold leftOf
      rw [hlow]
      simp
    rw [leftOf, hlow', hself]
    simp

theorem homoforms_removeGrammems_eq {w : InputWord} (h : w.Masked) (remove : GramBits → Bool) :
    (w.removeGrammems remove).homoforms = leftOf remove w.homoforms :=
  homoforms_removeGrammems h remove

/-- A word whose homoforms are all there, or those that removing leaves. -/
structure Stage (remove : GramBits → Bool) (w w' : InputWord) : Prop where
  exact : w'.exactWordFromKey = w.exactWordFromKey
  masked : w'.Masked
  forms : w'.homoforms = w.homoforms ∨ w'.homoforms = leftOf remove w.homoforms

theorem Stage.removeGrammems {remove : GramBits → Bool} {w w' : InputWord}
    (h : Stage remove w w') :
    Stage remove w (w'.removeGrammems remove) ∧
      (w'.removeGrammems remove).homoforms = leftOf remove w.homoforms := by
  have hforms : (w'.removeGrammems remove).homoforms = leftOf remove w.homoforms := by
    rw [homoforms_removeGrammems_eq h.masked]
    rcases h.forms with hsame | hleft
    · rw [hsame]
    · rw [hleft, leftOf_leftOf]
  exact ⟨⟨h.exact, h.masked.removeGrammems remove, Or.inr hforms⟩, hforms⟩

end InputWord

namespace PhraseWords
open InputWord

theorem word_removeGrammems (p : PhraseWords) {index : ℕ} (h : index < p.words.length)
    (remove : GramBits → Bool) (i : ℕ) :
    (p.removeGrammems index remove).word i =
      if index = i then (p.word i).removeGrammems remove else p.word i := by
  unfold word removeGrammems
  dsimp only
  simp only [List.getD_eq_getElem?_getD, List.getElem?_modify]
  by_cases hi : index = i
  · subst hi
    rw [List.getElem?_eq_getElem h]
    simp
  · simp [hi]

theorem lt_length_of_not_exact {p : PhraseWords} {i : ℕ}
    (h : (p.word i).exactWordFromKey = false) : i < p.words.length := by
  by_contra hge
  have hdefault : p.word i = {} := by
    unfold word
    rw [List.getD_eq_getElem?_getD, List.getElem?_eq_none (by omega)]
    rfl
  rw [hdefault] at h
  cases h

theorem hasGrammems_iff (p : PhraseWords) (i : ℕ) :
    (p.word i).hasGrammems = true ↔ (p.word i).homoforms ≠ [] := by
  unfold hasGrammems
  rw [iterGrammems_eq]
  simp

variable (correctIndex : ℕ → ℕ)

/-- The named words that were not found by their exact form. -/
def lemmaWords (words : List ℕ) (p : PhraseWords) : List ℕ :=
  (words.map correctIndex).filter fun i => !(p.word i).exactWordFromKey

theorem mem_lemmaWords {correctIndex : ℕ → ℕ} {words : List ℕ} {p : PhraseWords} {i : ℕ} :
    i ∈ lemmaWords correctIndex words p ↔
      i ∈ words.map correctIndex ∧ (p.word i).exactWordFromKey = false := by
  simp [lemmaWords]

section Remove
variable {correctIndex : ℕ → ℕ} {tables : MatchTables} {mask : Finset ℕ} {agreed : List GramBits}

/-- The homoforms that the last loop removes. -/
def disagrees (tables : MatchTables) (mask : Finset ℕ) (agreed : List GramBits) (g : GramBits) :
    Bool :=
  !agreed.any fun a => tables.isAgreed (tables.strongNormalize g mask ∩ a) mask

theorem removeDisagreed_cons {p : PhraseWords} {word : ℕ} {rest : List ℕ}
    (h : (p.word (correctIndex word)).exactWordFromKey = false) :
    removeDisagreed tables correctIndex mask agreed (word :: rest) p =
      if ((p.removeGrammems (correctIndex word) (disagrees tables mask agreed)).word
          (correctIndex word)).hasGrammems then
        removeDisagreed tables correctIndex mask agreed rest
          (p.removeGrammems (correctIndex word) (disagrees tables mask agreed))
      else (false, p.removeGrammems (correctIndex word) (disagrees tables mask agreed)) := by
  rw [removeDisagreed]
  dsimp only
  rw [if_neg (by rw [h]; exact Bool.false_ne_true)]
  rfl

/-- The last loop succeeds where every word keeps a homoform, and leaves what it should. -/
theorem removeDisagreed_spec {p p' : PhraseWords} {words : List ℕ}
    (hstage : ∀ i, Stage (disagrees tables mask agreed) (p.word i) (p'.word i)) :
    ((removeDisagreed tables correctIndex mask agreed words p').1 = true ↔
      ∀ i ∈ lemmaWords correctIndex words p,
        leftOf (disagrees tables mask agreed) (p.word i).homoforms ≠ []) ∧
    ((removeDisagreed tables correctIndex mask agreed words p').1 = true →
      ∀ i, i ∈ lemmaWords correctIndex words p ∨
          (p'.word i).homoforms = leftOf (disagrees tables mask agreed) (p.word i).homoforms →
        ((removeDisagreed tables correctIndex mask agreed words p').2.word i).homoforms =
          leftOf (disagrees tables mask agreed) (p.word i).homoforms) := by
  induction words generalizing p' with
  | nil => simp [removeDisagreed, lemmaWords]
  | cons word rest ih =>
    cases hexact : (p.word (correctIndex word)).exactWordFromKey with
    | true =>
      have hnamed : lemmaWords correctIndex (word :: rest) p = lemmaWords correctIndex rest p := by
        simp [lemmaWords, hexact]
      have hexact' := (hstage (correctIndex word)).exact.trans hexact
      rw [hnamed, removeDisagreed, if_pos hexact']
      exact ih hstage
    | false =>
      have hnamed : lemmaWords correctIndex (word :: rest) p =
          correctIndex word :: lemmaWords correctIndex rest p := by
        simp [lemmaWords, hexact]
      have hexact' := (hstage (correctIndex word)).exact.trans hexact
      have hlt := lt_length_of_not_exact hexact'
      rw [hnamed, removeDisagreed_cons hexact']
      have hword := word_removeGrammems p' hlt (disagrees tables mask agreed)
      have hself := hword (correctIndex word)
      rw [if_pos rfl] at hself
      obtain ⟨hnext, hforms⟩ := (hstage (correctIndex word)).removeGrammems
      have hstage' : ∀ i, Stage (disagrees tables mask agreed) (p.word i)
          ((p'.removeGrammems (correctIndex word) (disagrees tables mask agreed)).word i) := by
        intro i
        rw [hword i]
        split_ifs with hi
        · rw [← hi]
          exact hnext
        · exact hstage i
      have hforms' : ((p'.removeGrammems (correctIndex word) (disagrees tables mask agreed)).word
          (correctIndex word)).homoforms =
            leftOf (disagrees tables mask agreed) (p.word (correctIndex word)).homoforms := by
        rw [hself, hforms]
      obtain ⟨hok, hleft⟩ := ih hstage'
      by_cases hne : leftOf (disagrees tables mask agreed)
          (p.word (correctIndex word)).homoforms = []
      · have hnone : ((p'.removeGrammems (correctIndex word) (disagrees tables mask agreed)).word
            (correctIndex word)).hasGrammems ≠ true := by
          rw [ne_eq, hasGrammems_iff, hforms']
          exact fun h => h hne
        rw [if_neg hnone]
        constructor
        · constructor
          · intro h
            cases h
          · intro h
            exact absurd hne (h _ List.mem_cons_self)
        · intro h
          cases h
      · have hsome : ((p'.removeGrammems (correctIndex word) (disagrees tables mask agreed)).word
            (correctIndex word)).hasGrammems = true := by
          rw [hasGrammems_iff, hforms']
          exact hne
        rw [if_pos hsome]
        constructor
        · rw [hok, List.forall_mem_cons]
          exact (and_iff_right hne).symm
        · intro hr i hi
          apply hleft hr
          rcases hi with hi | hi
          · rcases List.mem_cons.mp hi with rfl | hi
            · exact Or.inr hforms'
            · exact Or.inl hi
          · right
            by_cases heq : correctIndex word = i
            · rw [← heq]
              exact hforms'
            · rw [hword i, if_neg heq]
              exact hi

end Remove

end PhraseWords

end TomitaParser.Gzt
