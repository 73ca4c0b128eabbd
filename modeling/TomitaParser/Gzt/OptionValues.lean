import TomitaParser.Gzt.ArticleFilter
/-! # Values of the options

The options of a key are collected word by word: a word gets the values of each option that gives
its number, and no others.
-/

namespace TomitaParser.Gzt

section Collect
variable {V W : Type} {holds : W → V → Prop} {init : W} {f : W → W}

theorem updateWord_self (init : W) (f : W → W) (word : ℕ) (m : List (ℕ × W)) :
    ∃ w, (word, f w) ∈ updateWord init f word m := by
  induction m with
  | nil => exact ⟨init, List.mem_singleton_self _⟩
  | cons entry m ih =>
    obtain ⟨k, v⟩ := entry
    rw [updateWord]
    split_ifs with hlt heq
    · exact ⟨init, List.mem_cons_self⟩
    · subst heq
      exact ⟨v, List.mem_cons_self⟩
    · obtain ⟨w, hw⟩ := ih
      exact ⟨w, List.mem_cons_of_mem _ hw⟩

theorem mem_updateWord_of_mem {word p : ℕ} {w : W} {m : List (ℕ × W)} (h : (p, w) ∈ m) :
    (p, w) ∈ updateWord init f word m ∨ (p, f w) ∈ updateWord init f word m := by
  induction m with
  | nil => cases h
  | cons entry m ih =>
    obtain ⟨k, v⟩ := entry
    rw [updateWord]
    split_ifs with hlt heq
    · exact Or.inl (List.mem_cons_of_mem _ h)
    · subst heq
      rcases List.mem_cons.mp h with heq | h
      · rw [Prod.mk.injEq] at heq
        obtain ⟨rfl, rfl⟩ := heq
        exact Or.inr List.mem_cons_self
      · exact Or.inl (List.mem_cons_of_mem _ h)
    · rcases List.mem_cons.mp h with heq | h
      · rw [heq]
        exact Or.inl List.mem_cons_self
      · rcases ih h with hmem | hmem
        · exact Or.inl (List.mem_cons_of_mem _ hmem)
        · exact Or.inr (List.mem_cons_of_mem _ hmem)

theorem of_mem_updateWord {word p : ℕ} {w : W} {m : List (ℕ × W)}
    (h : (p, w) ∈ updateWord init f word m) :
    (p, w) ∈ m ∨ p = word ∧ (w = f init ∨ ∃ w₀, (p, w₀) ∈ m ∧ w = f w₀) := by
  induction m with
  | nil =>
    rw [updateWord, List.mem_singleton, Prod.mk.injEq] at h
    exact Or.inr ⟨h.1, Or.inl h.2⟩
  | cons entry m ih =>
    obtain ⟨k, v⟩ := entry
    rw [updateWord] at h
    split_ifs at h with hlt heq
    · rcases List.mem_cons.mp h with heq | h
      · rw [Prod.mk.injEq] at heq
        exact Or.inr ⟨heq.1, Or.inl heq.2⟩
      · exact Or.inl h
    · subst heq
      rcases List.mem_cons.mp h with heq | h
      · rw [Prod.mk.injEq] at heq
        obtain ⟨rfl, rfl⟩ := heq
        exact Or.inr ⟨rfl, Or.inr ⟨v, List.mem_cons_self, rfl⟩⟩
      · exact Or.inl (List.mem_cons_of_mem _ h)
    · rcases List.mem_cons.mp h with heq | h
      · rw [heq]
        exact Or.inl List.mem_cons_self
      · rcases ih h with hmem | ⟨hword, hinit | ⟨w₀, hw₀, hw⟩⟩
        · exact Or.inl (List.mem_cons_of_mem _ hmem)
        · exact Or.inr ⟨hword, Or.inl hinit⟩
        · exact Or.inr ⟨hword, Or.inr ⟨w₀, List.mem_cons_of_mem _ hw₀, hw⟩⟩

theorem pairwise_updateWord (word : ℕ) {m : List (ℕ × W)} (h : m.Pairwise (·.1 < ·.1)) :
    (updateWord init f word m).Pairwise (·.1 < ·.1) := by
  induction m with
  | nil => exact List.pairwise_singleton _ _
  | cons entry m ih =>
    obtain ⟨k, v⟩ := entry
    obtain ⟨hfirst, hrest⟩ := List.pairwise_cons.mp h
    rw [updateWord]
    split_ifs with hlt heq
    · refine List.pairwise_cons.mpr ⟨?_, h⟩
      intro e he
      rcases List.mem_cons.mp he with rfl | he
      · exact hlt
      · exact hlt.trans (hfirst e he)
    · exact List.pairwise_cons.mpr ⟨hfirst, hrest⟩
    · refine List.pairwise_cons.mpr ⟨?_, ih hrest⟩
      intro e he
      rcases of_mem_updateWord he with hmem | ⟨hword, -⟩
      · exact hfirst e hmem
      · have hlt' : k < word := by omega
        rwa [← hword] at hlt'

theorem pairwise_updateWords (words : List ℕ) {m : List (ℕ × W)} (h : m.Pairwise (·.1 < ·.1)) :
    (updateWords init f words m).Pairwise (·.1 < ·.1) := by
  induction words generalizing m with
  | nil => exact h
  | cons word words ih => exact ih (pairwise_updateWord word h)

/-- What holds of every changed value holds of every value. -/
theorem forall_mem_updateWords {P : W → Prop} (hf : ∀ w, P (f w)) (words : List ℕ)
    {m : List (ℕ × W)} (h : ∀ k ∈ m, P k.2) : ∀ k ∈ updateWords init f words m, P k.2 := by
  induction words generalizing m with
  | nil => exact h
  | cons word words ih =>
    apply ih
    intro k hk
    rcases of_mem_updateWord hk with hmem | ⟨-, heq | ⟨w₀, -, heq⟩⟩
    · exact h k hmem
    · rw [heq]
      exact hf init
    · rw [heq]
      exact hf w₀

/-- How a loop collects the values of an option: each word gets them, keeps what it had, and gets
nothing else. -/
structure Collects (holds : W → V → Prop)
    (collect : List V → List ℕ → List (ℕ × W) → List (ℕ × W)) : Prop where
  stored : ∀ values words m p, values ≠ [] → p ∈ words →
    ∃ w, (p, w) ∈ collect values words m ∧ ∀ v ∈ values, holds w v
  keeps : ∀ values words m p w, (p, w) ∈ m →
    ∃ w', (p, w') ∈ collect values words m ∧ ∀ v, holds w v → holds w' v
  only : ∀ values words m p w v, (p, w) ∈ collect values words m → holds w v →
    v ∈ values ∧ p ∈ words ∨ ∃ w₀, (p, w₀) ∈ m ∧ holds w₀ v

theorem updateWords_keeps {values : List V} (hf : ∀ w v, holds (f w) v ↔ holds w v ∨ v ∈ values)
    (words : List ℕ) {m : List (ℕ × W)} {p : ℕ} {w : W} (h : (p, w) ∈ m) :
    ∃ w', (p, w') ∈ updateWords init f words m ∧ ∀ v, holds w v → holds w' v := by
  induction words generalizing m w with
  | nil => exact ⟨w, h, fun _ hv => hv⟩
  | cons word words ih =>
    rcases @mem_updateWord_of_mem _ init f word p w m h with hmem | hmem
    · exact ih hmem
    · obtain ⟨w', hw', hholds⟩ := ih hmem
      exact ⟨w', hw', fun v hv => hholds v ((hf w v).mpr (Or.inl hv))⟩

theorem collects_updateWords {collect : List V → List ℕ → List (ℕ × W) → List (ℕ × W)} {init : W}
    (add : List V → W → W) (hcollect : ∀ values words m, collect values words m =
      if values = [] then m else updateWords init (add values) words m)
    (hadd : ∀ values w v, holds (add values w) v ↔ holds w v ∨ v ∈ values)
    (hinit : ∀ v, ¬holds init v) : Collects holds collect where
  stored values words m p hne hp := by
    rw [hcollect, if_neg hne]
    induction words generalizing m with
    | nil => cases hp
    | cons word words ih =>
      rcases List.mem_cons.mp hp with rfl | hp
      · obtain ⟨w, hw⟩ := updateWord_self init (add values) p m
        obtain ⟨w', hw', hholds⟩ := updateWords_keeps (hadd values) words hw
        exact ⟨w', hw', fun v hv => hholds v ((hadd values w v).mpr (Or.inr hv))⟩
      · exact ih _ hp
  keeps values words m p w h := by
    rw [hcollect]
    split_ifs
    · exact ⟨w, h, fun _ hv => hv⟩
    · exact updateWords_keeps (hadd values) words h
  only values words m p w v h hv := by
    rw [hcollect] at h
    split_ifs at h
    · exact Or.inr ⟨w, h, hv⟩
    · induction words generalizing m with
      | nil => exact Or.inr ⟨w, h, hv⟩
      | cons word words ih =>
        rcases ih _ h with ⟨hmem, hp⟩ | ⟨w₀, hw₀, hv₀⟩
        · exact Or.inl ⟨hmem, List.mem_cons_of_mem _ hp⟩
        · rcases of_mem_updateWord hw₀ with hmem | ⟨rfl, rfl | ⟨w₁, hw₁, rfl⟩⟩
          · exact Or.inr ⟨w₀, hmem, hv₀⟩
          · rcases (hadd values init v).mp hv₀ with hnone | hmem
            · exact absurd hnone (hinit v)
            · exact Or.inl ⟨hmem, List.mem_cons_self⟩
          · rcases (hadd values w₁ v).mp hv₀ with hold | hmem
            · exact Or.inr ⟨w₁, hw₁, hold⟩
            · exact Or.inl ⟨hmem, List.mem_cons_self⟩

theorem collectGramBitSets_collects :
    Collects (fun w v => v ∈ w) collectGramBitSets :=
  collects_updateWords (fun grams w => w ++ grams) (fun _ _ _ => rfl)
    (fun _ _ _ => List.mem_append) (fun _ => List.not_mem_nil)

theorem collectLangMask_collects : Collects (fun w v => v ∈ w) collectLangMask :=
  collects_updateWords (fun langs w => w ∪ langs.toFinset) (fun _ _ _ => rfl)
    (fun _ _ _ => by simp) (fun _ => Finset.notMem_empty _)

theorem collectCapitalizations_collects : Collects (fun w v => v ∈ w) collectCapitalizations :=
  collects_updateWords (fun cases w => w ∪ cases) (fun _ _ _ => rfl)
    (fun _ _ _ => List.mem_union_iff) (fun _ => List.not_mem_nil)

/-- The words that the filter builder takes an option to name. -/
def Applies (n : ℕ) (named : List ℕ) (p : ℕ) : Prop :=
  ∃ words, collectWordIndexes named n = some words ∧ p ∈ words

/-- What some options have collected. -/
structure Collected (holds : W → V → Prop) (n : ℕ) (options : List (WordOption V))
    (values : WordOption V → List V) (m m' : List (ℕ × W)) : Prop where
  settled : ∀ o ∈ options, (collectWordIndexes o.words n).isSome = true
  stored : ∀ o ∈ options, values o ≠ [] → ∀ p, Applies n o.words p →
    ∃ w, (p, w) ∈ m' ∧ ∀ v ∈ values o, holds w v
  keeps : ∀ p w, (p, w) ∈ m → ∃ w', (p, w') ∈ m' ∧ ∀ v, holds w v → holds w' v
  only : ∀ p w, (p, w) ∈ m' → ∀ v, holds w v →
    (∃ o ∈ options, v ∈ values o ∧ Applies n o.words p) ∨ ∃ w₀, (p, w₀) ∈ m ∧ holds w₀ v

theorem Collected.nil (n : ℕ) (values : WordOption V → List V) (m : List (ℕ × W)) :
    Collected holds n [] values m m :=
  ⟨by simp, by simp, fun _ w h => ⟨w, h, fun _ hv => hv⟩, fun _ w h _ hv => Or.inr ⟨w, h, hv⟩⟩

theorem Collected.cons {collect : List V → List ℕ → List (ℕ × W) → List (ℕ × W)}
    (hcollect : Collects holds collect) {n : ℕ} {o : WordOption V} {options : List (WordOption V)}
    {values : WordOption V → List V} {words : List ℕ} {m m' : List (ℕ × W)}
    (hwords : collectWordIndexes o.words n = some words)
    (h : Collected holds n options values (collect (values o) words m) m') :
    Collected holds n (o :: options) values m m' := by
  refine ⟨?_, ?_, ?_, ?_⟩
  · intro o' ho'
    rcases List.mem_cons.mp ho' with rfl | ho'
    · rw [hwords]
      rfl
    · exact h.settled o' ho'
  · intro o' ho' hne p hp
    rcases List.mem_cons.mp ho' with rfl | ho'
    · obtain ⟨words', hwords', hmem⟩ := hp
      obtain rfl : words = words' := Option.some.inj (hwords.symm.trans hwords')
      obtain ⟨w, hw, hholds⟩ := hcollect.stored _ _ m p hne hmem
      obtain ⟨w', hw', hmore⟩ := h.keeps p w hw
      exact ⟨w', hw', fun v hv => hmore v (hholds v hv)⟩
    · exact h.stored o' ho' hne p hp
  · intro p w hw
    obtain ⟨w₁, hw₁, hholds⟩ := hcollect.keeps (values o) words m p w hw
    obtain ⟨w₂, hw₂, hmore⟩ := h.keeps p w₁ hw₁
    exact ⟨w₂, hw₂, fun v hv => hmore v (hholds v hv)⟩
  · intro p w hw v hv
    rcases h.only p w hw v hv with ⟨o', ho', hrest⟩ | ⟨w₀, hw₀, hv₀⟩
    · exact Or.inl ⟨o', List.mem_cons_of_mem _ ho', hrest⟩
    · rcases hcollect.only _ _ _ _ _ _ hw₀ hv₀ with ⟨hmem, hp⟩ | hold
      · exact Or.inl ⟨o, List.mem_cons_self, hmem, words, hwords, hp⟩
      · exact Or.inr hold

theorem collectOptions_collected {collect : List V → List ℕ → List (ℕ × W) → List (ℕ × W)}
    (hcollect : Collects holds collect) {n : ℕ} {options : List (WordOption V)}
    {allowed forbidden : List (ℕ × W)} {r : List (ℕ × W) × List (ℕ × W)}
    (h : collectOptions collect n options allowed forbidden = some r) :
    Collected holds n options (·.allow) allowed r.1 ∧
      Collected holds n options (·.forbid) forbidden r.2 := by
  induction options generalizing allowed forbidden with
  | nil =>
    rw [collectOptions, Option.some.injEq] at h
    subst h
    exact ⟨Collected.nil n _ allowed, Collected.nil n _ forbidden⟩
  | cons o options ih =>
    rw [collectOptions, Option.bind_eq_bind, Option.bind_eq_some_iff] at h
    obtain ⟨words, hwords, hrest⟩ := h
    obtain ⟨hallowed, hforbidden⟩ := ih hrest
    exact ⟨Collected.cons hcollect hwords hallowed, Collected.cons hcollect hwords hforbidden⟩

end Collect

end TomitaParser.Gzt
