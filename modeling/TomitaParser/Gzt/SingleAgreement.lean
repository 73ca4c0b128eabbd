import TomitaParser.Gzt.Gleiche
import TomitaParser.Gzt.HomoformRemoval
import Mathlib.Data.List.Forall2
/-! # One agreement

`CheckSingleAgreement` narrows the grammemes common to the words by the first form of each word that
fits. It is compared with the choices of one homoform for each word. -/

namespace TomitaParser.Gzt.PhraseWords
open InputWord Gleiche

/-- A choice of one homoform for each word such that all agree. -/
structure Joint (mask : Finset ℕ) (p : PhraseWords) (named : List ℕ) (choice : ℕ → GramBits) :
    Prop where
  forms : ∀ i ∈ named, choice i ∈ (p.word i).iterGrammems
  agree : Agree mask (named.map choice)

/-- The form occurs in such a choice. -/
def Occurs (mask : Finset ℕ) (p : PhraseWords) (named : List ℕ) (i : ℕ) (g : GramBits) : Prop :=
  ∃ choice, Joint mask p named choice ∧ choice i = g

/-- From each list the first form is taken that agrees with all taken before. -/
inductive FirstFit (mask : Finset ℕ) :
    List GramBits → List (List GramBits) → List GramBits → Prop where
  | done (chosen : List GramBits) : FirstFit mask chosen [] chosen
  | next {chosen before after final : List GramBits} {form : GramBits}
      {rest : List (List GramBits)} (hskip : ∀ g ∈ before, ¬Agree mask (g :: chosen))
      (hfit : Agree mask (form :: chosen)) (h : FirstFit mask (form :: chosen) rest final) :
      FirstFit mask chosen ((before ++ form :: after) :: rest) final

/-- The form agrees with the first fitting choice that starts from some form of the first word. -/
def FitsFirst (mask : Finset ℕ) (p : PhraseWords) (named : List ℕ) (g : GramBits) : Prop :=
  ∃ first rest, named = first :: rest ∧ ∃ base ∈ (p.word first).iterGrammems, ∃ final,
    FirstFit mask [base] (rest.map fun i => (p.word i).iterGrammems) final ∧
      Agree mask (g :: final)

theorem FirstFit.choices {mask : Finset ℕ} {chosen final : List GramBits}
    {lists : List (List GramBits)} (h : FirstFit mask chosen lists final) :
    (∀ g ∈ chosen, g ∈ final) ∧
      ∃ choices, List.Forall₂ (fun g forms => g ∈ forms) choices lists ∧
        ∀ g ∈ choices, g ∈ final := by
  induction h with
  | done chosen => exact ⟨fun g hg => hg, [], List.Forall₂.nil, fun g hg => by cases hg⟩
  | @next chosen before after final form rest hskip hfit h ih =>
    obtain ⟨hchosen, choices, hforms, hmem⟩ := ih
    refine ⟨fun g hg => hchosen g (List.mem_cons_of_mem form hg), form :: choices, ?_, ?_⟩
    · exact List.Forall₂.cons (by simp) hforms
    · intro g hg
      rcases List.mem_cons.mp hg with rfl | hg
      · exact hchosen g List.mem_cons_self
      · exact hmem g hg

theorem exists_choice {p : PhraseWords} {named : List ℕ} {choices : List GramBits}
    (h : List.Forall₂ (fun g forms => g ∈ forms) choices
      (named.map fun i => (p.word i).iterGrammems)) :
    ∃ choice : ℕ → GramBits, ∀ i ∈ named,
      choice i ∈ (p.word i).iterGrammems ∧ choice i ∈ choices := by
  induction named generalizing choices with
  | nil => exact ⟨fun _ => ∅, fun i hi => by cases hi⟩
  | cons j named ih =>
    cases h with
    | @cons g _ choices _ hg hrest =>
      obtain ⟨choice, hchoice⟩ := ih hrest
      refine ⟨fun i => if i = j then g else choice i, fun i hi => ?_⟩
      by_cases hij : i = j
      · subst hij
        simp only [if_true]
        exact ⟨hg, List.mem_cons_self⟩
      · simp only [if_neg hij]
        have hmem : i ∈ named := by
          rcases List.mem_cons.mp hi with heq | hi
          · exact absurd heq hij
          · exact hi
        exact ⟨(hchoice i hmem).1, List.mem_cons_of_mem g (hchoice i hmem).2⟩

theorem FitsFirst.occurs {mask : Finset ℕ} {p : PhraseWords} {named : List ℕ} {i : ℕ}
    {g : GramBits} (h : FitsFirst mask p named g) (hg : g ∈ (p.word i).iterGrammems) :
    Occurs mask p named i g := by
  obtain ⟨first, rest, rfl, base, hbase, final, hfit, hagree⟩ := h
  obtain ⟨hchosen, choices, hforms, hfinal⟩ := hfit.choices
  have hall : List.Forall₂ (fun g forms => g ∈ forms) (base :: choices)
      ((first :: rest).map fun i => (p.word i).iterGrammems) := List.Forall₂.cons hbase hforms
  obtain ⟨choice, hchoice⟩ := exists_choice hall
  have hmem : ∀ j ∈ first :: rest, choice j ∈ final := by
    intro j hj
    rcases List.mem_cons.mp (hchoice j hj).2 with heq | hc
    · rw [heq]
      exact hchosen base List.mem_cons_self
    · exact hfinal _ hc
  refine ⟨fun j => if j = i then g else choice j, ⟨?_, ?_⟩, if_pos rfl⟩
  · intro j hj
    by_cases hji : j = i
    · rw [if_pos hji, hji]
      exact hg
    · rw [if_neg hji]
      exact (hchoice j hj).1
  · apply hagree.mono
    intro form hform
    obtain ⟨j, hj, rfl⟩ := List.mem_map.mp hform
    by_cases hji : j = i
    · rw [if_pos hji]
      exact List.mem_cons_self
    · rw [if_neg hji]
      exact List.mem_cons_of_mem g (hmem j hj)

section Narrow
variable {tables : MatchTables} {mask : Finset ℕ} {correctIndex : ℕ → ℕ}

/-- What the forms of one word make of the grammemes that the words before have in common. -/
def fit (tables : MatchTables) (mask : Finset ℕ) (forms : List GramBits) (common : GramBits) :
    Option GramBits :=
  (forms.map fun g => tables.strongNormalize g mask ∩ common).find? fun form =>
    tables.isAgreed form mask

def fitAll (tables : MatchTables) (mask : Finset ℕ) :
    List (List GramBits) → GramBits → Option GramBits
  | [], common => some common
  | forms :: rest, common => (fit tables mask forms common).bind (fitAll tables mask rest)

theorem filterMap_fitAll_cons (forms : List GramBits) (rest : List (List GramBits))
    (agreed : List GramBits) :
    agreed.filterMap (fitAll tables mask (forms :: rest)) =
      (narrowAgreed tables mask forms agreed).filterMap (fitAll tables mask rest) := by
  rw [narrowAgreed, List.filterMap_filterMap]
  rfl

theorem agreeWords_spec (p : PhraseWords) (words : List ℕ) (agreed : List GramBits) :
    match agreeWords tables correctIndex mask p words agreed with
    | some result => result = agreed.filterMap (fitAll tables mask
        ((lemmaWords correctIndex words p).map fun i => (p.word i).iterGrammems))
    | none => agreed.filterMap (fitAll tables mask
        ((lemmaWords correctIndex words p).map fun i => (p.word i).iterGrammems)) = [] := by
  induction words generalizing agreed with
  | nil =>
    change agreed = agreed.filterMap some
    rw [List.filterMap_some]
  | cons word rest ih =>
    rw [agreeWords]
    dsimp only
    cases hexact : (p.word (correctIndex word)).exactWordFromKey with
    | true =>
      have hnamed : lemmaWords correctIndex (word :: rest) p = lemmaWords correctIndex rest p := by
        simp [lemmaWords, hexact]
      rw [if_pos rfl, hnamed]
      exact ih agreed
    | false =>
      have hnamed : lemmaWords correctIndex (word :: rest) p =
          correctIndex word :: lemmaWords correctIndex rest p := by
        simp [lemmaWords, hexact]
      rw [hnamed, List.map_cons]
      simp only [Bool.false_eq_true, if_false, filterMap_fitAll_cons]
      by_cases hempty : ((narrowAgreed tables mask (p.word (correctIndex word)).iterGrammems
          agreed).isEmpty && !agreed.isEmpty) = true
      · rw [if_pos hempty]
        simp only [Bool.and_eq_true, List.isEmpty_iff] at hempty
        dsimp only
        rw [hempty.1]
        rfl
      · rw [if_neg hempty]
        exact ih _

end Narrow

section Check
variable (tables : MatchTables) {mask : Finset ℕ} {correctIndex : ℕ → ℕ}

theorem fit_eq_some {forms chosen : List GramBits} {common result : GramBits}
    (hcommon : Common mask chosen common) :
    fit tables.withGleiche mask forms common = some result ↔
      ∃ before form after, forms = before ++ form :: after ∧
        (∀ g ∈ before, ¬Agree mask (g :: chosen)) ∧ Agree mask (form :: chosen) ∧
        result = strongNormalize form mask ∩ common := by
  have hagreed (g : GramBits) :
      isAgreed (strongNormalize g mask ∩ common) mask = true ↔ Agree mask (g :: chosen) :=
    (hcommon.cons g).isAgreed_iff
  unfold fit
  rw [List.find?_map, Option.map_eq_some_iff]
  constructor
  · rintro ⟨form, hfind, rfl⟩
    obtain ⟨hform, before, after, rfl, hbefore⟩ := List.find?_eq_some_iff_append.mp hfind
    refine ⟨before, form, after, rfl, ?_, (hagreed form).mp hform, rfl⟩
    intro g hg hagree
    have hnot := hbefore g hg
    have hyes := (hagreed g).mpr hagree
    simp only [MatchTables.withGleiche, Function.comp_apply, hyes] at hnot
    cases hnot
  · rintro ⟨before, form, after, rfl, hbefore, hform, rfl⟩
    refine ⟨form, List.find?_eq_some_iff_append.mpr ⟨(hagreed form).mpr hform, before, after, rfl,
      ?_⟩, rfl⟩
    intro g hg
    have hnot : isAgreed (strongNormalize g mask ∩ common) mask = false := by
      rw [Bool.eq_false_iff]
      intro hyes
      exact hbefore g hg ((hagreed g).mp hyes)
    simp only [MatchTables.withGleiche, Function.comp_apply, hnot]
    rfl

theorem fitAll_eq_some {lists : List (List GramBits)} {chosen : List GramBits}
    {common result : GramBits} (hcommon : Common mask chosen common) :
    fitAll tables.withGleiche mask lists common = some result →
      ∃ final, FirstFit mask chosen lists final ∧ Common mask final result := by
  induction lists generalizing chosen common with
  | nil =>
    intro h
    rw [fitAll, Option.some.injEq] at h
    rw [← h]
    exact ⟨chosen, FirstFit.done chosen, hcommon⟩
  | cons forms rest ih =>
    intro h
    rw [fitAll, Option.bind_eq_some_iff] at h
    obtain ⟨next, hnext, h⟩ := h
    obtain ⟨before, form, after, rfl, hbefore, hform, rfl⟩ := (fit_eq_some tables hcommon).mp hnext
    obtain ⟨final, hfinal, hresult⟩ := ih (hcommon.cons form) h
    exact ⟨final, FirstFit.next hbefore hform hfinal, hresult⟩

theorem FirstFit.fitAll {lists : List (List GramBits)} {chosen final : List GramBits}
    (h : FirstFit mask chosen lists final) {common : GramBits}
    (hcommon : Common mask chosen common) :
    ∃ result, PhraseWords.fitAll tables.withGleiche mask lists common = some result ∧
      Common mask final result := by
  induction h generalizing common with
  | done chosen => exact ⟨common, rfl, hcommon⟩
  | @next chosen before after final form rest hskip hfit h ih =>
    obtain ⟨result, hresult, hfinal⟩ := ih (hcommon.cons form)
    have hnext := (fit_eq_some tables hcommon).mpr ⟨before, form, after, rfl, hskip, hfit, rfl⟩
    refine ⟨result, ?_, hfinal⟩
    rw [PhraseWords.fitAll, hnext]
    exact hresult

/-- The grammemes that the words agree on after narrowing. -/
def agreedGrammems (mask : Finset ℕ) (p : PhraseWords) : List ℕ → List GramBits
  | [] => []
  | first :: rest =>
    ((p.word first).iterGrammems.map (strongNormalize · mask)).filterMap
      (PhraseWords.fitAll tables.withGleiche mask (rest.map fun i => (p.word i).iterGrammems))

theorem disagrees_eq_false_iff (p : PhraseWords) (named : List ℕ) (g : GramBits) :
    disagrees tables.withGleiche mask (agreedGrammems tables mask p named) g = false ↔
      FitsFirst mask p named g := by
  unfold disagrees
  rw [Bool.not_eq_false', List.any_eq_true]
  constructor
  · rintro ⟨common, hcommon, hagreed⟩
    cases named with
    | nil => cases hcommon
    | cons first rest =>
      obtain ⟨base', hbase', hfit⟩ := List.mem_filterMap.mp hcommon
      obtain ⟨base, hbase, rfl⟩ := List.mem_map.mp hbase'
      obtain ⟨final, hfinal, hresult⟩ :=
        fitAll_eq_some tables (common_singleton mask base) hfit
      exact ⟨first, rest, rfl, base, hbase, final, hfinal,
        (hresult.cons g).isAgreed_iff.mp hagreed⟩
  · rintro ⟨first, rest, rfl, base, hbase, final, hfit, hagree⟩
    obtain ⟨result, hresult, hfinal⟩ := hfit.fitAll tables (common_singleton mask base)
    exact ⟨result, List.mem_filterMap.mpr ⟨_, List.mem_map_of_mem hbase, hresult⟩,
      (hfinal.cons g).isAgreed_iff.mpr hagree⟩

/-- Two words found by their exact forms stand first. -/
def TwoExact (correctIndex : ℕ → ℕ) (p : PhraseWords) : List ℕ → Prop
  | w₁ :: w₂ :: _ => (p.word (correctIndex w₁)).exactWordFromKey = true ∧
      (p.word (correctIndex w₂)).exactWordFromKey = true
  | _ => False

theorem iterGrammems_of_exact {w : InputWord} (h : w.exactWordFromKey = true) :
    w.iterGrammems = [] := by
  have hlemma : w.lemma? = none := by
    simp only [exactWordFromKey, isLemma, Bool.and_eq_true, Bool.not_eq_true',
      Option.isSome_eq_false_iff, Option.isNone_iff_eq_none] at h
    exact h.1
  simp [iterGrammems, sourceGrammems, hlemma]

omit tables in
theorem agreeWords_nil (tables : MatchTables) (p : PhraseWords) (words : List ℕ) :
    agreeWords tables correctIndex mask p words [] = some [] := by
  induction words with
  | nil => rfl
  | cons word rest ih =>
    rw [agreeWords]
    dsimp only
    split_ifs with h h'
    · exact ih
    · simp at h'
    · exact ih

omit tables in
theorem lemmaWords_cons (word : ℕ) (rest : List ℕ) (p : PhraseWords) :
    lemmaWords correctIndex (word :: rest) p =
      if (p.word (correctIndex word)).exactWordFromKey then lemmaWords correctIndex rest p
      else correctIndex word :: lemmaWords correctIndex rest p := by
  unfold lemmaWords
  rw [List.map_cons, List.filter_cons]
  cases (p.word (correctIndex word)).exactWordFromKey
  · rfl
  · rfl

/-- The loops after the first word is chosen. -/
def agreeFrom (mask : Finset ℕ) (correctIndex : ℕ → ℕ) (words : List ℕ) (p : PhraseWords)
    (first : ℕ) (rest : List ℕ) : Bool × PhraseWords :=
  match agreeWords tables correctIndex mask p rest
      ((p.word (correctIndex first)).iterGrammems.map (tables.strongNormalize · mask)) with
  | none => (false, p)
  | some agreed => removeDisagreed tables correctIndex mask agreed words p

theorem checkSingleAgreement_eq (words : List ℕ) (p : PhraseWords) :
    checkSingleAgreement tables correctIndex words mask p =
      match (match words with
        | word :: rest => if (p.word (correctIndex word)).exactWordFromKey then rest else words
        | [] => []) with
      | [] => (true, p)
      | first :: rest => agreeFrom tables mask correctIndex words p first rest :=
  rfl

theorem agreeFrom_cases (words : List ℕ) (p : PhraseWords) (first : ℕ) (rest : List ℕ) :
    agreeFrom tables.withGleiche mask correctIndex words p first rest =
        removeDisagreed tables.withGleiche correctIndex mask
          (agreedGrammems tables mask p (correctIndex first :: lemmaWords correctIndex rest p))
          words p ∨
      agreedGrammems tables mask p (correctIndex first :: lemmaWords correctIndex rest p) = [] ∧
        agreeFrom tables.withGleiche mask correctIndex words p first rest = (false, p) := by
  have hspec := @agreeWords_spec tables.withGleiche mask correctIndex p rest
    ((p.word (correctIndex first)).iterGrammems.map (tables.withGleiche.strongNormalize · mask))
  unfold agreeFrom
  cases hagree : agreeWords tables.withGleiche correctIndex mask p rest
      ((p.word (correctIndex first)).iterGrammems.map
        (tables.withGleiche.strongNormalize · mask)) with
  | none =>
    rw [hagree] at hspec
    exact Or.inr ⟨hspec, rfl⟩
  | some result =>
    rw [hagree] at hspec
    left
    dsimp only at hspec ⊢
    rw [hspec]
    rfl

/-- The words are narrowed from the first one that was not found by its exact form, unless two
exact ones stand before it: then there is nothing to agree with. -/
theorem checkSingleAgreement_cases (words : List ℕ) (p : PhraseWords)
    (hnamed : lemmaWords correctIndex words p ≠ []) :
    ∃ agreed, (TwoExact correctIndex p words → agreed = []) ∧
      (¬TwoExact correctIndex p words →
        agreed = agreedGrammems tables mask p (lemmaWords correctIndex words p)) ∧
      (checkSingleAgreement tables.withGleiche correctIndex words mask p =
          removeDisagreed tables.withGleiche correctIndex mask agreed words p ∨
        agreed = [] ∧
          checkSingleAgreement tables.withGleiche correctIndex words mask p = (false, p)) := by
  rw [checkSingleAgreement_eq]
  cases words with
  | nil => exact absurd rfl hnamed
  | cons w₁ words =>
    cases h₁ : (p.word (correctIndex w₁)).exactWordFromKey with
    | false =>
      have hlemma : lemmaWords correctIndex (w₁ :: words) p =
          correctIndex w₁ :: lemmaWords correctIndex words p := by
        rw [lemmaWords_cons, h₁]
        rfl
      have hnot : ¬TwoExact correctIndex p (w₁ :: words) := by
        cases words with
        | nil => exact id
        | cons w₂ words =>
          intro h
          rw [TwoExact, h₁] at h
          exact Bool.false_ne_true h.1
      refine ⟨agreedGrammems tables mask p (lemmaWords correctIndex (w₁ :: words) p),
        fun h => absurd h hnot, fun _ => rfl, ?_⟩
      rw [hlemma]
      dsimp only
      rw [h₁]
      exact agreeFrom_cases tables (w₁ :: words) p w₁ words
    | true =>
      cases words with
      | nil =>
        rw [lemmaWords_cons, h₁] at hnamed
        exact absurd rfl hnamed
      | cons w₂ words =>
        dsimp only
        rw [h₁]
        cases h₂ : (p.word (correctIndex w₂)).exactWordFromKey with
        | false =>
          have hlemma : lemmaWords correctIndex (w₁ :: w₂ :: words) p =
              correctIndex w₂ :: lemmaWords correctIndex words p := by
            rw [lemmaWords_cons, h₁, if_pos rfl, lemmaWords_cons, h₂]
            rfl
          have hnot : ¬TwoExact correctIndex p (w₁ :: w₂ :: words) := by
            intro h
            rw [TwoExact, h₂] at h
            exact Bool.false_ne_true h.2
          refine ⟨agreedGrammems tables mask p (lemmaWords correctIndex (w₁ :: w₂ :: words) p),
            fun h => absurd h hnot, fun _ => rfl, ?_⟩
          rw [hlemma]
          exact agreeFrom_cases tables (w₁ :: w₂ :: words) p w₂ words
        | true =>
          refine ⟨[], fun _ => rfl, fun h => absurd ⟨h₁, h₂⟩ h, Or.inl ?_⟩
          simp only [if_true, agreeFrom, iterGrammems_of_exact h₂, List.map_nil, agreeWords_nil]

end Check

theorem mem_leftOf {remove : GramBits → Bool} {l : List (GramBits × ℕ)} {f : GramBits × ℕ} :
    f ∈ leftOf remove l ↔ f ∈ l ∧
      (∃ h ∈ l, h.2 < maxHomoformCount ∧ remove h.1 = false) ∧
      (maxHomoformCount ≤ f.2 ∨ remove f.1 = false) := by
  simp [leftOf]

theorem leftOf_eq_nil {remove : GramBits → Bool} (h : ∀ g, remove g = true)
    (l : List (GramBits × ℕ)) : leftOf remove l = [] := by
  rw [List.eq_nil_iff_forall_not_mem]
  intro f hf
  obtain ⟨-, ⟨h', -, -, hremove⟩, -⟩ := mem_leftOf.mp hf
  rw [h] at hremove
  cases hremove

theorem mem_filter_iff_of_perm {l kept : List (GramBits × ℕ)} (hkept : kept.Sublist l)
    {keep : GramBits → Bool} (h : (kept.map Prod.fst).Perm ((l.map Prod.fst).filter keep)) :
    ∀ f ∈ l, f ∈ kept ↔ keep f.1 = true := by
  have hall : ∀ f ∈ kept, keep f.1 = true := by
    intro f hf
    exact (List.mem_filter.mp (h.mem_iff.mp (List.mem_map_of_mem hf))).2
  have hfilter : kept = l.filter fun f => keep f.1 := by
    apply List.Sublist.eq_of_length
    · have hsub := hkept.filter fun f => keep f.1
      rwa [List.filter_eq_self.mpr hall] at hsub
    · have hlength := h.length_eq
      rw [List.length_map, List.filter_map, List.length_map] at hlength
      exact hlength
  intro f hf
  rw [hfilter, List.mem_filter]
  exact and_iff_right hf

/-- The masks of the words are words of bits. -/
def Masked (p : PhraseWords) : Prop := ∀ i, (p.word i).Masked

/-- The same words with their homoforms in another order. -/
structure Reordered (p p' : PhraseWords) : Prop where
  exact : ∀ i, (p'.word i).exactWordFromKey = (p.word i).exactWordFromKey
  forms : ∀ i, (p'.word i).iterGrammems.Perm (p.word i).iterGrammems

theorem Reordered.refl (p : PhraseWords) : Reordered p p :=
  ⟨fun _ => rfl, fun _ => List.Perm.refl _⟩

section Orders
variable {mask : Finset ℕ} {correctIndex : ℕ → ℕ} {p p' : PhraseWords} {words words' : List ℕ}

theorem Reordered.mem_lemmaWords (h : Reordered p p') (hwords : words'.Perm words) (i : ℕ) :
    i ∈ lemmaWords correctIndex words' p' ↔ i ∈ lemmaWords correctIndex words p := by
  rw [PhraseWords.mem_lemmaWords, PhraseWords.mem_lemmaWords, h.exact,
    (hwords.map correctIndex).mem_iff]

theorem Reordered.joint_iff (h : Reordered p p') (hwords : words'.Perm words)
    (choice : ℕ → GramBits) : Joint mask p' (lemmaWords correctIndex words' p') choice ↔
      Joint mask p (lemmaWords correctIndex words p) choice := by
  have hmem (i : ℕ) : i ∈ lemmaWords correctIndex words' p' ↔
      i ∈ lemmaWords correctIndex words p := h.mem_lemmaWords hwords i
  constructor
  · intro hjoint
    refine ⟨fun i hi => (h.forms i).mem_iff.mp (hjoint.forms i ((hmem i).mpr hi)), ?_⟩
    apply hjoint.agree.mono
    intro form hform
    obtain ⟨i, hi, rfl⟩ := List.mem_map.mp hform
    exact List.mem_map_of_mem ((hmem i).mpr hi)
  · intro hjoint
    refine ⟨fun i hi => (h.forms i).mem_iff.mpr (hjoint.forms i ((hmem i).mp hi)), ?_⟩
    apply hjoint.agree.mono
    intro form hform
    obtain ⟨i, hi, rfl⟩ := List.mem_map.mp hform
    exact List.mem_map_of_mem ((hmem i).mp hi)

theorem Reordered.occurs_iff (h : Reordered p p') (hwords : words'.Perm words) (i : ℕ)
    (g : GramBits) : Occurs mask p' (lemmaWords correctIndex words' p') i g ↔
      Occurs mask p (lemmaWords correctIndex words p) i g := by
  unfold Occurs
  simp only [h.joint_iff hwords]

open Classical in
theorem Reordered.filter_perm (h : Reordered p p') (hwords : words'.Perm words) (i : ℕ) :
    ((p'.word i).iterGrammems.filter fun g =>
      decide (Occurs mask p' (lemmaWords correctIndex words' p') i g)).Perm
    ((p.word i).iterGrammems.filter fun g =>
      decide (Occurs mask p (lemmaWords correctIndex words p) i g)) := by
  have hoccurs : (fun g => decide (Occurs mask p' (lemmaWords correctIndex words' p') i g)) =
      fun g => decide (Occurs mask p (lemmaWords correctIndex words p) i g) := by
    funext g
    exact decide_eq_decide.mpr (h.occurs_iff hwords i g)
  rw [hoccurs]
  exact (h.forms i).filter _

end Orders

section Found
variable (tables : MatchTables) (mask : Finset ℕ) (correctIndex : ℕ → ℕ)

open Classical in
/-- The check succeeds where some choice agrees, and leaves the homoforms that occur in one. -/
def Finds (words : List ℕ) (p : PhraseWords) : Prop :=
  let named := lemmaWords correctIndex words p
  let r := checkSingleAgreement tables.withGleiche correctIndex words mask p
  (r.1 = true ↔ ∃ choice, Joint mask p named choice) ∧
    (r.1 = true → ∀ i ∈ named, (r.2.word i).iterGrammems.Perm
      ((p.word i).iterGrammems.filter fun g => decide (Occurs mask p named i g)))

/-- Two orders have one result. -/
def SameResult (words : List ℕ) (p : PhraseWords) (words' : List ℕ) (p' : PhraseWords) : Prop :=
  let r := checkSingleAgreement tables.withGleiche correctIndex words mask p
  let r' := checkSingleAgreement tables.withGleiche correctIndex words' mask p'
  r'.1 = r.1 ∧ (r.1 = true → ∀ i ∈ lemmaWords correctIndex words p,
    (r'.2.word i).iterGrammems.Perm (r.2.word i).iterGrammems)

/-- Where some choice agrees: at most one exact word stands first, the homoforms in the mask that
occur in a choice agree with a first fitting choice, and those past the mask occur in a choice and
stand beside a kept one. -/
def Covered (words : List ℕ) (p : PhraseWords) : Prop :=
  let named := lemmaWords correctIndex words p
  named ≠ [] → (∃ choice, Joint mask p named choice) →
    ¬TwoExact correctIndex p words ∧
      ∀ i ∈ named, ∀ f ∈ (p.word i).homoforms,
        (f.2 < maxHomoformCount → Occurs mask p named i f.1 → FitsFirst mask p named f.1) ∧
        (maxHomoformCount ≤ f.2 → Occurs mask p named i f.1 ∧
          ∃ f' ∈ (p.word i).homoforms, f'.2 < maxHomoformCount ∧ FitsFirst mask p named f'.1)

variable {mask correctIndex} {words : List ℕ} {p : PhraseWords}

theorem checkSingleAgreement_of_exact (h : lemmaWords correctIndex words p = []) :
    (checkSingleAgreement tables correctIndex words mask p).1 = true := by
  have hexact : ∀ word ∈ words, (p.word (correctIndex word)).exactWordFromKey = true := by
    intro word hword
    rw [← Bool.not_eq_false]
    intro hnot
    have hmem : correctIndex word ∈ lemmaWords correctIndex words p :=
      mem_lemmaWords.mpr ⟨List.mem_map_of_mem hword, hnot⟩
    rw [h] at hmem
    cases hmem
  rw [checkSingleAgreement_eq]
  cases words with
  | nil => rfl
  | cons w₁ words =>
    have h₁ := hexact w₁ List.mem_cons_self
    cases words with
    | nil =>
      dsimp only
      rw [h₁]
      rfl
    | cons w₂ words =>
      have h₂ := hexact w₂ (List.mem_cons_of_mem w₁ List.mem_cons_self)
      simp only [h₁, if_true, agreeFrom, iterGrammems_of_exact h₂, List.map_nil, agreeWords_nil]
      have hall : ∀ ws : List ℕ,
          (∀ word ∈ ws, (p.word (correctIndex word)).exactWordFromKey = true) →
          (removeDisagreed tables correctIndex mask [] ws p).1 = true := by
        intro ws hws
        induction ws with
        | nil => rfl
        | cons word ws ih =>
          rw [removeDisagreed]
          dsimp only
          rw [if_pos (hws word List.mem_cons_self)]
          exact ih fun v hv => hws v (List.mem_cons_of_mem word hv)
      exact hall _ hexact

/-- The result for words that are not all exact, by what the last loop removes. -/
theorem checkSingleAgreement_spec (hp : p.Masked) (hnamed : lemmaWords correctIndex words p ≠ []) :
    ∃ remove : GramBits → Bool,
      (TwoExact correctIndex p words → ∀ g, remove g = true) ∧
      (¬TwoExact correctIndex p words → ∀ g, remove g = false ↔
        FitsFirst mask p (lemmaWords correctIndex words p) g) ∧
      ((checkSingleAgreement tables.withGleiche correctIndex words mask p).1 = true ↔
        ∀ i ∈ lemmaWords correctIndex words p, leftOf remove (p.word i).homoforms ≠ []) ∧
      ((checkSingleAgreement tables.withGleiche correctIndex words mask p).1 = true →
        ∀ i ∈ lemmaWords correctIndex words p,
          ((checkSingleAgreement tables.withGleiche correctIndex words mask p).2.word i).homoforms =
            leftOf remove (p.word i).homoforms) := by
  obtain ⟨agreed, hexact, hfirst, hcheck⟩ :=
    @checkSingleAgreement_cases tables mask correctIndex words p hnamed
  have hnone : agreed = [] → ∀ g, disagrees tables.withGleiche mask agreed g = true := by
    rintro rfl g
    rfl
  refine ⟨disagrees tables.withGleiche mask agreed, fun h => hnone (hexact h), ?_, ?_⟩
  · intro h g
    rw [hfirst h]
    exact disagrees_eq_false_iff tables p _ g
  · rcases hcheck with hcheck | ⟨hagreed, hcheck⟩
    · rw [hcheck]
      have hstage : ∀ i, Stage (disagrees tables.withGleiche mask agreed) (p.word i) (p.word i) :=
        fun i => ⟨rfl, hp i, Or.inl rfl⟩
      obtain ⟨hok, hleft⟩ := @removeDisagreed_spec correctIndex tables.withGleiche mask agreed p p
        words hstage
      exact ⟨hok, fun h i hi => hleft h i (Or.inl hi)⟩
    · rw [hcheck]
      obtain ⟨i, hi⟩ := List.exists_mem_of_ne_nil _ hnamed
      constructor
      · constructor
        · intro h
          cases h
        · intro h
          exact absurd (leftOf_eq_nil (hnone hagreed) _) (h i hi)
      · intro h
        cases h

theorem exists_joint_of_left {remove : GramBits → Bool} {named : List ℕ} {i : ℕ}
    (hfits : ∀ g, remove g = false → FitsFirst mask p named g)
    (hleft : leftOf remove (p.word i).homoforms ≠ []) : ∃ choice, Joint mask p named choice := by
  obtain ⟨f, hf⟩ := List.exists_mem_of_ne_nil _ hleft
  obtain ⟨-, ⟨h, hh, -, hremove⟩, -⟩ := mem_leftOf.mp hf
  have hmem : h.1 ∈ (p.word i).iterGrammems := by
    rw [iterGrammems_eq]
    exact List.mem_map_of_mem hh
  obtain ⟨choice, hjoint, -⟩ := (hfits h.1 hremove).occurs hmem
  exact ⟨choice, hjoint⟩

theorem joint_nil (choice : ℕ → GramBits) : Joint mask p [] choice :=
  ⟨fun _ hi => absurd hi List.not_mem_nil, agree_nil mask⟩

open Classical in
theorem Finds.covered (hp : p.Masked) (h : Finds tables mask correctIndex words p) :
    Covered mask correctIndex words p := by
  intro hnamed hjoint
  obtain ⟨remove, hexact, hfits, hok, hleft⟩ := @checkSingleAgreement_spec tables mask correctIndex
    words p hp hnamed
  have hr := h.1.mpr hjoint
  have hne := hok.mp hr
  have hfirst : ¬TwoExact correctIndex p words := by
    intro htwo
    obtain ⟨i, hi⟩ := List.exists_mem_of_ne_nil _ hnamed
    exact hne i hi (leftOf_eq_nil (hexact htwo) _)
  refine ⟨hfirst, fun i hi f hf => ?_⟩
  have hperm := h.2 hr i hi
  rw [iterGrammems_eq, hleft hr i hi, iterGrammems_eq] at hperm
  have hkept := mem_filter_iff_of_perm List.filter_sublist hperm f hf
  rw [decide_eq_true_eq] at hkept
  change f ∈ leftOf remove (p.word i).homoforms ↔ _ at hkept
  constructor
  · intro hlow hoccurs
    obtain ⟨-, -, hf'⟩ := mem_leftOf.mp (hkept.mpr hoccurs)
    rcases hf' with hge | hremove
    · exact absurd hlow (Nat.not_lt.mpr hge)
    · exact (hfits hfirst f.1).mp hremove
  · intro hge
    obtain ⟨f', hf'⟩ := List.exists_mem_of_ne_nil _ (hne i hi)
    obtain ⟨-, ⟨low, hlow, hlt, hremove⟩, -⟩ := mem_leftOf.mp hf'
    refine ⟨hkept.mp (mem_leftOf.mpr ⟨hf, ⟨low, hlow, hlt, hremove⟩, Or.inl hge⟩), ?_⟩
    exact ⟨low, hlow, hlt, (hfits hfirst low.1).mp hremove⟩

open Classical in
theorem Covered.finds (hp : p.Masked) (h : Covered mask correctIndex words p) :
    Finds tables mask correctIndex words p := by
  by_cases hnamed : lemmaWords correctIndex words p = []
  · have hok := @checkSingleAgreement_of_exact tables.withGleiche mask correctIndex words p hnamed
    unfold Finds
    dsimp only
    rw [hnamed]
    exact ⟨⟨fun _ => ⟨fun _ => ∅, joint_nil _⟩, fun _ => hok⟩,
      fun _ _ hi => absurd hi List.not_mem_nil⟩
  obtain ⟨remove, hexact, hfits, hok, hleft⟩ := @checkSingleAgreement_spec tables mask correctIndex
    words p hp hnamed
  have hsome : (∃ choice, Joint mask p (lemmaWords correctIndex words p) choice) →
      ∀ i ∈ lemmaWords correctIndex words p, ∀ f ∈ (p.word i).homoforms,
        f ∈ leftOf remove (p.word i).homoforms ↔
          Occurs mask p (lemmaWords correctIndex words p) i f.1 := by
    intro hjoint i hi f hf
    obtain ⟨hfirst, hforms⟩ := h hnamed hjoint
    obtain ⟨hlow, hhigh⟩ := hforms i hi f hf
    have hmem : f.1 ∈ (p.word i).iterGrammems := by
      rw [iterGrammems_eq]
      exact List.mem_map_of_mem hf
    rw [mem_leftOf]
    by_cases hlt : f.2 < maxHomoformCount
    · constructor
      · rintro ⟨-, -, hge | hremove⟩
        · exact absurd hlt (Nat.not_lt.mpr hge)
        · exact ((hfits hfirst f.1).mp hremove).occurs hmem
      · intro hoccurs
        have hremove := (hfits hfirst f.1).mpr (hlow hlt hoccurs)
        exact ⟨hf, ⟨f, hf, hlt, hremove⟩, Or.inr hremove⟩
    · have hge := Nat.not_lt.mp hlt
      obtain ⟨hoccurs, f', hf', hlt', hfits'⟩ := hhigh hge
      exact ⟨fun _ => hoccurs, fun _ =>
        ⟨hf, ⟨f', hf', hlt', (hfits hfirst f'.1).mpr hfits'⟩, Or.inl hge⟩⟩
  have hright : (checkSingleAgreement tables.withGleiche correctIndex words mask p).1 = true ↔
      ∃ choice, Joint mask p (lemmaWords correctIndex words p) choice := by
    rw [hok]
    constructor
    · intro hne
      obtain ⟨i, hi⟩ := List.exists_mem_of_ne_nil _ hnamed
      have hfirst : ¬TwoExact correctIndex p words :=
        fun htwo => hne i hi (leftOf_eq_nil (hexact htwo) _)
      exact exists_joint_of_left (fun g => (hfits hfirst g).mp) (hne i hi)
    · intro hjoint i hi
      obtain ⟨choice, hchoice⟩ := hjoint
      have hmem := hchoice.forms i hi
      rw [iterGrammems_eq] at hmem
      obtain ⟨f, hf, hfst⟩ := List.mem_map.mp hmem
      apply List.ne_nil_of_mem
      exact (hsome ⟨choice, hchoice⟩ i hi f hf).mpr ⟨choice, hchoice, hfst.symm⟩
  refine ⟨hright, fun hr i hi => ?_⟩
  have hkept : leftOf remove (p.word i).homoforms = (p.word i).homoforms.filter fun f =>
      decide (Occurs mask p (lemmaWords correctIndex words p) i f.1) := by
    have hmem := hsome (hright.mp hr) i hi
    unfold leftOf at hmem ⊢
    apply List.filter_congr
    intro f hf
    rw [Bool.eq_iff_iff, decide_eq_true_eq, ← hmem f hf, List.mem_filter]
    exact (and_iff_right hf).symm
  rw [iterGrammems_eq, hleft hr i hi, hkept, iterGrammems_eq, List.filter_map]
  exact List.Perm.refl _

/-- The check finds every joint agreement, and gives the same result for the words and homoforms in
any other order, exactly where the first fitting choices cover the agreeing ones in each order. -/
theorem checkSingleAgreement_finds_iff (hp : p.Masked) :
    (Finds tables mask correctIndex words p ∧
      ∀ words' p', words'.Perm words → Reordered p p' → p'.Masked →
        SameResult tables mask correctIndex words p words' p') ↔
      ∀ words' p', words'.Perm words → Reordered p p' → p'.Masked →
        Covered mask correctIndex words' p' := by
  constructor
  · rintro ⟨hfinds, hsame⟩ words' p' hwords hre hp'
    apply Finds.covered tables hp'
    obtain ⟨hok, hforms⟩ := hsame words' p' hwords hre hp'
    constructor
    · rw [hok, hfinds.1]
      simp only [hre.joint_iff hwords]
    · intro hr i hi
      rw [hok] at hr
      have hi' := (hre.mem_lemmaWords hwords i).mp hi
      exact (hforms hr i hi').trans ((hfinds.2 hr i hi').trans (hre.filter_perm hwords i).symm)
  · intro hcovered
    have hfinds := (hcovered words p (List.Perm.refl _) (Reordered.refl p) hp).finds tables hp
    refine ⟨hfinds, fun words' p' hwords hre hp' => ?_⟩
    have hfinds' := (hcovered words' p' hwords hre hp').finds tables hp'
    have hok : (checkSingleAgreement tables.withGleiche correctIndex words' mask p').1 =
        (checkSingleAgreement tables.withGleiche correctIndex words mask p).1 := by
      rw [Bool.eq_iff_iff, hfinds'.1, hfinds.1]
      simp only [hre.joint_iff hwords]
    refine ⟨hok, fun hr i hi => ?_⟩
    have hi' := (hre.mem_lemmaWords hwords i).mpr hi
    exact (hfinds'.2 (hok.trans hr) i hi').trans
      ((hre.filter_perm hwords i).trans (hfinds.2 hr i hi).symm)

end Found

/-- Tables without letters. -/
def plainTables : MatchTables where
  isLower _ := false
  isUpper _ := false
  isDigit _ := false
  strongNormalize g _ := g
  isAgreed _ _ := true

/-- An indeclinable word in the singular, and one that is in the nominative or the accusative. -/
def indeclinablePhrase : PhraseWords where
  input := []
  wordCount := 2
  words := [{ lemma? := some { text := "беж", grammems := [{174}] } },
    { lemma? := some { text := "пальто", grammems := [{165, 174}, {168, 174}] } }]

theorem indeclinablePhrase_masked : indeclinablePhrase.Masked := by
  intro i
  have hbad : (indeclinablePhrase.word i).badHomoforms = ∅ := by
    match i with
    | 0 => rfl
    | 1 => rfl
    | _ + 2 => rfl
  unfold InputWord.Masked
  rw [hbad]
  exact Finset.empty_subset _

theorem finds_indeclinable_iff :
    (Finds plainTables {0, 2, 5} id [0, 1] indeclinablePhrase ∧
      ∀ words' p', words'.Perm [0, 1] → Reordered indeclinablePhrase p' → p'.Masked →
        SameResult plainTables {0, 2, 5} id [0, 1] indeclinablePhrase words' p') ↔
      ∀ words' p', words'.Perm [0, 1] → Reordered indeclinablePhrase p' → p'.Masked →
        Covered {0, 2, 5} id words' p' :=
  checkSingleAgreement_finds_iff plainTables indeclinablePhrase_masked

open Classical in
/-- The accusative agrees as well as the nominative, and is removed. -/
theorem indeclinable_not_found :
    ¬Finds plainTables {0, 2, 5} id [0, 1] indeclinablePhrase := by
  intro h
  have hok : (checkSingleAgreement plainTables.withGleiche id [0, 1] {0, 2, 5}
      indeclinablePhrase).1 = true := by decide
  have hleft : ((checkSingleAgreement plainTables.withGleiche id [0, 1] {0, 2, 5}
      indeclinablePhrase).2.word 1).iterGrammems = [{165, 174}] := by decide
  have hperm := h.2 hok 1 (by decide)
  rw [hleft] at hperm
  have hoccurs : Occurs {0, 2, 5} indeclinablePhrase
      (lemmaWords id [0, 1] indeclinablePhrase) 1 {168, 174} := by
    refine ⟨fun i => if i = 0 then {174} else {168, 174}, ⟨by decide, ?_⟩, rfl⟩
    unfold Agree
    decide
  have hmem := hperm.mem_iff.mpr
    (List.mem_filter.mpr ⟨by decide, decide_eq_true hoccurs⟩)
  exact absurd hmem (by decide)

end TomitaParser.Gzt.PhraseWords
