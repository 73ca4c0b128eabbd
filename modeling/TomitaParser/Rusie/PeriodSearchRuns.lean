import TomitaParser.Rusie.PeriodSearch
/-! # Runs of searches in periods

What is found in a period belongs to it, as long as the periods do not cross; and the keywords of an
article are found, as long as something has searched for them. -/

namespace TomitaParser.Rusie

namespace CWordsPair

theorem lt_iff {p q : CWordsPair} :
    p.lt q = true ↔ ((q.first ≤ p.first ∧ p.last ≤ q.last) ∨ p.last < q.first) ∧
      ¬ (p.first = q.first ∧ p.last = q.last) := by
  have hne : p = q ↔ p.first = q.first ∧ p.last = q.last := by
    cases p
    cases q
    simp
  have hq := q.le
  simp only [lt, includes, fromRight, Bool.and_eq_true, Bool.or_eq_true, decide_eq_true_eq, ne_eq,
    hne]
  constructor
  · rintro ⟨h | h, hnot⟩
    · exact ⟨Or.inl h, hnot⟩
    · exact ⟨Or.inr h.1, hnot⟩
  · rintro ⟨h | h, hnot⟩
    · exact ⟨Or.inl h, hnot⟩
    · exact ⟨Or.inr ⟨h, by omega⟩, hnot⟩

theorem not_crosses_iff {p q : CWordsPair} :
    ¬ p.Crosses q ↔ (q.first ≤ p.last ∧ p.first ≤ q.last) →
      (p.first ≤ q.first ∧ q.last ≤ p.last) ∨ (q.first ≤ p.first ∧ p.last ≤ q.last) := by
  simp only [Crosses, intersects, includes, Bool.and_eq_true, Bool.and_eq_false_iff,
    decide_eq_true_eq, decide_eq_false_iff_not]
  omega

theorem not_crosses_self (p : CWordsPair) : ¬ p.Crosses p := by
  rw [not_crosses_iff]
  omega

theorem not_crosses_symm {p q : CWordsPair} (h : ¬ p.Crosses q) : ¬ q.Crosses p := by
  rw [not_crosses_iff] at h ⊢
  omega

theorem totalOn_of_not_crosses {periods : CWordsPair → Prop}
    (h : ∀ p q, periods p → periods q → ¬ p.Crosses q) : ComparedMap.TotalOn lt periods where
  irrefl := by
    intro p _
    rw [← Bool.not_eq_true, lt_iff]
    simp
  trans := by
    intro p q r hp hq hr hpq hqr
    have hpr := h p r hp hr
    rw [not_crosses_iff] at hpr
    rw [lt_iff] at hpq hqr ⊢
    have := p.le
    have := q.le
    have := r.le
    omega
  connected := by
    intro p q hp hq hne
    have hpq := h p q hp hq
    rw [not_crosses_iff] at hpq
    have hne' : ¬ (p.first = q.first ∧ p.last = q.last) := by
      rintro ⟨hfirst, hlast⟩
      cases p
      cases q
      exact hne (by simp_all)
    rw [lt_iff, lt_iff]
    omega

end CWordsPair

namespace MultiWordCreator
variable {WordSequence : Type} {d : Dictionaries} {search : Searchers WordSequence}
variable {s s' s'' : MultiWordCreator}

theorem Grows.refl (s : MultiWordCreator) : Grows s s := ⟨id, id⟩

theorem Grows.trans (h : Grows s s') (h' : Grows s' s'') : Grows s s'' where
  textKWFound := fun ht => h'.textKWFound (h.textKWFound ht)
  recorded := fun hr => h'.recorded (h.recorded hr)

theorem GrowsOutside.refl (s : MultiWordCreator) : GrowsOutside s s := ⟨Grows.refl s, rfl, rfl⟩

theorem GrowsOutside.trans (h : GrowsOutside s s') (h' : GrowsOutside s' s'') :
    GrowsOutside s s'' where
  toGrows := h.toGrows.trans h'.toGrows
  foundWordsByPeriod := h'.foundWordsByPeriod.trans h.foundWordsByPeriod
  found := h'.found.trans h.found

theorem KeysFirst.trans (h : KeysFirst s s') (h' : KeysFirst s' s'') (hgrows : Grows s' s'') :
    KeysFirst s s'' := by
  rcases h' with heq' | ht
  · rcases h with heq | ht
    · exact Or.inl (heq'.trans heq)
    · exact Or.inr (hgrows.textKWFound ht)
  · exact Or.inr ht

theorem Extends.refl (s : MultiWordCreator) : Extends s s := ⟨GrowsOutside.refl s, Or.inl rfl⟩

theorem Extends.trans (h : Extends s s') (h' : Extends s' s'') : Extends s s'' where
  toGrowsOutside := h.toGrowsOutside.trans h'.toGrowsOutside
  keysFirst := h.keysFirst.trans h'.keysFirst h'.toGrows

theorem foldl_rel {α : Type} {rel : MultiWordCreator → MultiWordCreator → Prop}
    (hrefl : ∀ s, rel s s) (htrans : ∀ {s s' s''}, rel s s' → rel s' s'' → rel s s'')
    {f : MultiWordCreator → α → MultiWordCreator} :
    ∀ {l : List α} (s : MultiWordCreator), (∀ a ∈ l, ∀ s, rel s (f s a)) → rel s (l.foldl f s) := by
  intro l
  induction l with
  | nil =>
    intro s _
    exact hrefl s
  | cons a l ih =>
    intro s h
    exact htrans (h a List.mem_cons_self s)
      (ih (f s a) fun b hb => h b (List.mem_cons_of_mem a hb))

theorem addFound_extends (s : MultiWordCreator) (o : FoundWord) : Extends s (s.addFound o) where
  textKWFound := id
  recorded := by
    intro hrecorded o' ho'
    obtain ⟨htype, htitle⟩ := hrecorded o' ho'
    constructor
    · intro kwType hkw
      have hmem := htype kwType hkw
      show _ ∈ if o.kwType = some kwType then s.kw2Words kwType ++ [o.word] else s.kw2Words kwType
      split_ifs
      · exact List.mem_append_left _ hmem
      · exact hmem
    · show _ ∈ if o.title = o'.title then s.title2Words o'.title ++ [o.word]
        else s.title2Words o'.title
      split_ifs
      · exact List.mem_append_left _ htitle
      · exact htitle
  foundWordsByPeriod := rfl
  found := rfl
  keysFirst := Or.inl rfl

theorem mem_addFound (s : MultiWordCreator) (o : FoundWord) :
    (∀ kwType, o.kwType = some kwType → o.word ∈ (s.addFound o).kw2Words kwType) ∧
      o.word ∈ (s.addFound o).title2Words o.title := by
  constructor
  · intro kwType hkw
    simp [addFound, hkw]
  · simp [addFound]

theorem addFound_subset (s : MultiWordCreator) (o : FoundWord) :
    (∀ kwType, s.kw2Words kwType ⊆ (s.addFound o).kw2Words kwType) ∧
      ∀ title, s.title2Words title ⊆ (s.addFound o).title2Words title := by
  constructor
  · intro kwType w hw
    show w ∈ if o.kwType = some kwType then s.kw2Words kwType ++ [o.word] else s.kw2Words kwType
    split_ifs
    · exact List.mem_append_left _ hw
    · exact hw
  · intro title w hw
    show w ∈ if o.title = title then s.title2Words title ++ [o.word] else s.title2Words title
    split_ifs
    · exact List.mem_append_left _ hw
    · exact hw

theorem foldl_addFound_subset : ∀ (l : List FoundWord) (s : MultiWordCreator),
    (∀ kwType, s.kw2Words kwType ⊆ (l.foldl addFound s).kw2Words kwType) ∧
      ∀ title, s.title2Words title ⊆ (l.foldl addFound s).title2Words title := by
  intro l
  induction l with
  | nil =>
    intro s
    exact ⟨fun _ => List.Subset.refl _, fun _ => List.Subset.refl _⟩
  | cons o l ih =>
    intro s
    obtain ⟨htype, htitle⟩ := addFound_subset s o
    obtain ⟨htype', htitle'⟩ := ih (s.addFound o)
    exact ⟨fun kwType => List.Subset.trans (htype kwType) (htype' kwType),
      fun title => List.Subset.trans (htitle title) (htitle' title)⟩

theorem mem_foldl_addFound : ∀ {l : List FoundWord} {s : MultiWordCreator} {o : FoundWord}, o ∈ l →
    (∀ kwType, o.kwType = some kwType → o.word ∈ (l.foldl addFound s).kw2Words kwType) ∧
      o.word ∈ (l.foldl addFound s).title2Words o.title := by
  intro l
  induction l with
  | nil => simp
  | cons a l ih =>
    intro s o ho
    rcases List.mem_cons.mp ho with rfl | ho
    · obtain ⟨htype, htitle⟩ := mem_addFound s o
      obtain ⟨htype', htitle'⟩ := foldl_addFound_subset l (s.addFound o)
      exact ⟨fun kwType hkw => htype' kwType (htype kwType hkw), htitle' o.title htitle⟩
    · exact ih ho

theorem findKeyWords_extends (s : MultiWordCreator) : Extends s (findKeyWords search s) := by
  rw [findKeyWords]
  by_cases ht : s.textKWFound = true
  · rw [if_pos ht]
    exact Extends.refl s
  · rw [if_neg ht]
    have hfold := foldl_rel Extends.refl Extends.trans
      { s with words := (search.findKeyWords s.words).1 }
      (fun o (_ : o ∈ (search.findKeyWords s.words).2) s => addFound_extends s o)
    refine ⟨⟨⟨fun _ => rfl, ?_⟩, hfold.foundWordsByPeriod, hfold.found⟩, Or.inr rfl⟩
    intro _ o ho
    exact mem_foldl_addFound ho

theorem findKeyWords_textKWFound (s : MultiWordCreator) :
    (findKeyWords search s).textKWFound = true := by
  rw [findKeyWords]
  by_cases ht : s.textKWFound = true
  · rw [if_pos ht, ht]
  · rw [if_neg ht]

theorem findAuxKWWords_extends (articles : List AuxArticle) (s : MultiWordCreator) :
    Extends s (findAuxKWWords search articles s) ∧
      (findAuxKWWords search articles s).textKWFound = true := by
  have hkey := @findKeyWords_extends _ search s
  have ht := @findKeyWords_textKWFound _ search s
  rw [findAuxKWWords]
  have htomita := foldl_rel Extends.refl Extends.trans (findKeyWords search s)
    (fun a (_ : a ∈ ((articles.filter fun a => { strType := a.title } ∉ s.foundArticles).filter
      fun a => !a.hasTextContent && a.gramFileName.isSome)) s =>
      search.processTomitaAuxArticle_extends a s)
  have hboth := hkey.trans htomita
  cases (((articles.filter fun a => { strType := a.title } ∉ s.foundArticles).filter
      fun a => !a.hasTextContent && a.gramFileName.isNone && a.hasAlg).getLast?) with
  | none => exact ⟨hboth, htomita.textKWFound ht⟩
  | some a =>
    have halg := search.processAlgArticle_extends a
    exact ⟨hboth.trans (halg _), (halg _).textKWFound (htomita.textKWFound ht)⟩

theorem findGztArticle_grows (artP : SArtPointer) (s : MultiWordCreator) (a : GztArticle) :
    GrowsOutside s (findGztArticle search artP s a) := by
  rw [findGztArticle]
  dsimp only
  split_ifs with hfound
  · exact GrowsOutside.refl s
  · have hprocess := (search.processGztArticle_extends a s).toGrowsOutside
    exact ⟨⟨hprocess.textKWFound, hprocess.recorded⟩, hprocess.foundWordsByPeriod, hprocess.found⟩

theorem findKWWords_extends (artP : SArtPointer) (s : MultiWordCreator) :
    Extends s (findKWWords d search artP s) ∧
      (artP.isValid = true → artP ∉ s.foundArticles →
        (findKWWords d search artP s).textKWFound = true) := by
  rw [findKWWords]
  by_cases hskip : (!artP.isValid || decide (artP ∈ s.foundArticles)) = true
  · rw [if_pos hskip]
    refine ⟨Extends.refl s, ?_⟩
    intro hvalid hnot
    simp [hvalid, hnot] at hskip
  · rw [if_neg hskip]
    have hgzt := foldl_rel GrowsOutside.refl GrowsOutside.trans s
      (fun a (_ : a ∈ (collectArticleInfo d artP).1) s =>
        @findGztArticle_grows _ search artP s a)
    obtain ⟨haux, ht⟩ := @findAuxKWWords_extends _ search (collectArticleInfo d artP).2.1
      ((collectArticleInfo d artP).1.foldl (findGztArticle search artP) s)
    have hall := hgzt.trans haux.toGrowsOutside
    exact ⟨⟨⟨⟨hall.textKWFound, hall.recorded⟩, hall.foundWordsByPeriod, hall.found⟩,
      Or.inr ht⟩, fun _ _ => ht⟩

/-- Each of the periods finds what was found in it, and nothing else is kept. -/
structure OwnWords (periods : CWordsPair → Prop) (s : MultiWordCreator) : Prop where
  keys : ∀ e ∈ s.foundWordsByPeriod, periods e.1
  history : ∀ f ∈ s.found, periods f.1
  own : ∀ wp, periods wp → ComparedMap.valuesAt CWordsPair.lt wp s.foundWordsByPeriod = s.foundIn wp

theorem OwnWords.of_growsOutside {periods : CWordsPair → Prop} (h : OwnWords periods s)
    (hgrows : GrowsOutside s s') : OwnWords periods s' where
  keys := by
    rw [hgrows.foundWordsByPeriod]
    exact h.keys
  history := by
    rw [hgrows.found]
    exact h.history
  own := by
    rw [hgrows.foundWordsByPeriod]
    have hfound : s'.foundIn = s.foundIn := by
      funext wp
      rw [foundIn, foundIn, hgrows.found]
    rw [hfound]
    exact h.own

theorem OwnWords.add_period {periods : CWordsPair → Prop} (h : OwnWords periods s)
    {wp : CWordsPair} (hcross : ∀ p q, (p = wp ∨ periods p) → (q = wp ∨ periods q) → ¬ p.Crosses q) :
    OwnWords (fun p => p = wp ∨ periods p) s where
  keys := fun e he => Or.inr (h.keys e he)
  history := fun f hf => Or.inr (h.history f hf)
  own := by
    intro wp' hwp'
    by_cases hold : periods wp'
    · exact h.own wp' hold
    · have htotal := CWordsPair.totalOn_of_not_crosses hcross
      have hkeys : ∀ e ∈ s.foundWordsByPeriod, e.1 ≠ wp' := by
        rintro e he rfl
        exact hold (h.keys e he)
      have hnone : s.foundIn wp' = [] := by
        rw [foundIn, List.map_eq_nil_iff, List.filter_eq_nil_iff]
        intro f hf heq
        rw [decide_eq_true_eq] at heq
        exact hold (heq ▸ h.history f hf)
      rw [hnone]
      exact ComparedMap.valuesAt_of_not_mem htotal hwp' (fun e he => Or.inr (h.keys e he)) hkeys

theorem foundIn_append (wp wp' : CWordsPair) (w : WordHomonymNum) :
    foundIn { s with found := s.found ++ [(wp, w)] } wp' =
      if wp' = wp then s.foundIn wp ++ [w] else s.foundIn wp' := by
  rw [foundIn, List.filter_append, List.map_append]
  by_cases heq : wp' = wp
  · subst heq
    simp [foundIn]
  · have hne : ¬ wp = wp' := fun h => heq h.symm
    simp [foundIn, heq, hne]

theorem OwnWords.addFoundArticle {periods : CWordsPair → Prop} (h : OwnWords periods s)
    (htotal : ComparedMap.TotalOn CWordsPair.lt periods) {wp : CWordsPair} (hwp : periods wp)
    (o : FoundWord) : OwnWords periods (s.addFoundArticle o wp) := by
  rw [MultiWordCreator.addFoundArticle]
  by_cases hvalid : wp.isValid = true
  · rw [if_pos hvalid]
    refine ⟨?_, ?_, ?_⟩
    · intro e he
      rcases ComparedMap.key_of_mem_pushBack he with heq | ⟨e', he', heq⟩
      · rw [heq]
        exact hwp
      · rw [← heq]
        exact h.keys e' he'
    · intro f hf
      rcases List.mem_append.mp hf with hf | hf
      · exact h.history f hf
      · rw [List.mem_singleton] at hf
        rw [hf]
        exact hwp
    · intro wp' hwp'
      show ComparedMap.valuesAt _ wp' (ComparedMap.pushBack _ wp o.word s.foundWordsByPeriod) =
        foundIn { s with found := s.found ++ [(wp, o.word)] } wp'
      rw [ComparedMap.valuesAt_pushBack htotal hwp hwp' o.word h.keys, foundIn_append, h.own wp hwp,
        h.own wp' hwp']
  · rw [if_neg hvalid]
    exact h.of_growsOutside (addFound_extends s o).toGrowsOutside

theorem addFoundArticle_grows (s : MultiWordCreator) (o : FoundWord) (wp : CWordsPair) :
    Grows s (s.addFoundArticle o wp) ∧ KeysFirst s (s.addFoundArticle o wp) := by
  rw [addFoundArticle]
  split_ifs
  · exact ⟨⟨id, id⟩, Or.inl rfl⟩
  · have hadd := addFound_extends s o
    exact ⟨hadd.toGrows, hadd.keysFirst⟩

/-- What a search in one of the periods keeps. -/
structure PeriodStep (periods : CWordsPair → Prop) (s s' : MultiWordCreator) : Prop
    extends Grows s s' where
  keysFirst : KeysFirst s s'
  ownWords : OwnWords periods s → OwnWords periods s'

variable {periods : CWordsPair → Prop} {wp : CWordsPair}

theorem PeriodStep.refl (s : MultiWordCreator) : PeriodStep periods s s :=
  ⟨Grows.refl s, Or.inl rfl, id⟩

theorem PeriodStep.trans (h : PeriodStep periods s s') (h' : PeriodStep periods s' s'') :
    PeriodStep periods s s'' where
  toGrows := h.toGrows.trans h'.toGrows
  keysFirst := h.keysFirst.trans h'.keysFirst h'.toGrows
  ownWords := fun hown => h'.ownWords (h.ownWords hown)

theorem Extends.periodStep (h : Extends s s') : PeriodStep periods s s' where
  toGrows := h.toGrows
  keysFirst := h.keysFirst
  ownWords := fun hown => hown.of_growsOutside h.toGrowsOutside

theorem addMultiWordInt_step (htotal : ComparedMap.TotalOn CWordsPair.lt periods)
    (hwp : periods wp) (kwType : Option ℕ) (title : List ℕ) (s : MultiWordCreator)
    (ws : WordSequence) : PeriodStep periods s (addMultiWordInt search kwType title wp s ws) := by
  rw [addMultiWordInt]
  have hwords : Extends s { s with words := (search.newMultiWord ws title s.words).1 } :=
    ⟨⟨⟨id, id⟩, rfl, rfl⟩, Or.inl rfl⟩
  refine hwords.periodStep.trans ?_
  obtain ⟨hgrows, hkeys⟩ := addFoundArticle_grows
    { s with words := (search.newMultiWord ws title s.words).1 }
    ⟨kwType, title, (search.newMultiWord ws title s.words).2⟩ wp
  exact ⟨hgrows, hkeys, fun hown => hown.addFoundArticle htotal hwp _⟩

theorem searchInPeriod_step (htotal : ComparedMap.TotalOn CWordsPair.lt periods)
    (hwp : periods wp) (gram : ℕ) (kwType : Option ℕ) (title : List ℕ) (s : MultiWordCreator) :
    PeriodStep periods s (searchInPeriod search gram kwType title wp s) := by
  rw [searchInPeriod]
  refine (search.runFactGrammar_extends gram wp s).periodStep.trans ?_
  exact foldl_rel PeriodStep.refl PeriodStep.trans _
    fun ws _ s => addMultiWordInt_step htotal hwp kwType title s ws

theorem findGztInPeriod_step (htotal : ComparedMap.TotalOn CWordsPair.lt periods)
    (hwp : periods wp) (s : MultiWordCreator) (a : GztArticle) :
    PeriodStep periods s (findGztInPeriod search wp s a) :=
  foldl_rel PeriodStep.refl PeriodStep.trans s
    fun gram _ s => searchInPeriod_step htotal hwp gram _ _ s

theorem findAuxInPeriod_step (htotal : ComparedMap.TotalOn CWordsPair.lt periods)
    (hwp : periods wp) (keys : Bool) (s : MultiWordCreator) (a : AuxArticle) :
    PeriodStep periods s (findAuxInPeriod d search keys wp s a) := by
  rw [findAuxInPeriod]
  by_cases htext : a.hasTextContent = true
  · rw [if_pos htext]
    cases keys with
    | true => exact PeriodStep.refl s
    | false => exact (@findKWWords_extends _ d search _ s).1.periodStep
  · rw [if_neg htext]
    cases a.gramFileName with
    | none => exact PeriodStep.refl s
    | some gram => exact searchInPeriod_step htotal hwp gram _ _ s

theorem findWordsInPeriod_step (htotal : ComparedMap.TotalOn CWordsPair.lt periods)
    (hwp : periods wp) (artP : SArtPointer) (s : MultiWordCreator) :
    PeriodStep periods s (findWordsInPeriod d search artP wp s) := by
  rw [findWordsInPeriod]
  by_cases hfound : (!(s.getFoundWordsInPeriod artP wp).isEmpty) = true
  · rw [if_pos hfound]
    exact PeriodStep.refl s
  · rw [if_neg hfound]
    simp only [Bool.false_eq_true, if_false]
    exact PeriodStep.trans
      (foldl_rel PeriodStep.refl PeriodStep.trans s
        fun a _ s => findGztInPeriod_step htotal hwp s a)
      (foldl_rel PeriodStep.refl PeriodStep.trans _
        fun a _ s => findAuxInPeriod_step htotal hwp false s a)

/-- An article with text that has not been searched for. -/
def TextLeft (s : MultiWordCreator) (a : AuxArticle) : Prop :=
  a.hasTextContent = true ∧ a.title ≠ [] ∧ { strType := a.title } ∉ s.foundArticles

theorem foldl_findAuxInPeriod_textKWFound (htotal : ComparedMap.TotalOn CWordsPair.lt periods)
    (hwp : periods wp) {start : MultiWordCreator} :
    ∀ {articles : List AuxArticle} {s : MultiWordCreator}, KeysFirst start s →
    (s.textKWFound = true ∨ ∃ a ∈ articles, start.TextLeft a) →
    (articles.foldl (findAuxInPeriod d search false wp) s).textKWFound = true := by
  intro articles
  induction articles with
  | nil =>
    intro s _ h
    rcases h with ht | ⟨a, ha, -⟩
    · exact ht
    · cases ha
  | cons a articles ih =>
    intro s hkeys h
    have hstep : PeriodStep periods s (findAuxInPeriod d search false wp s a) :=
      findAuxInPeriod_step htotal hwp false s a
    refine ih (hkeys.trans hstep.keysFirst hstep.toGrows) ?_
    rcases h with ht | ⟨b, hb, hleft⟩
    · exact Or.inl (hstep.textKWFound ht)
    · rcases List.mem_cons.mp hb with rfl | hb
      · left
        rcases hkeys with heq | ht
        · obtain ⟨htext, htitle, hnot⟩ := hleft
          rw [findAuxInPeriod, if_pos htext]
          refine (@findKWWords_extends _ d search _ s).2 ?_ (by rw [heq]; exact hnot)
          simpa [SArtPointer.isValid] using htitle
        · exact hstep.textKWFound ht
      · exact Or.inr ⟨b, hb, hleft⟩

/-- What leads to a search for keywords: it has been made, or nothing is found and an article with
text is left. -/
def KeysSearched (d : Dictionaries) (s : MultiWordCreator) (artP : SArtPointer)
    (wp : CWordsPair) : Prop :=
  s.textKWFound = true ∨
    (s.getFoundWordsInPeriod artP wp = [] ∧ ∃ a ∈ (collectArticleInfo d artP).2.1, s.TextLeft a)

theorem findWordsInPeriod_textKWFound (htotal : ComparedMap.TotalOn CWordsPair.lt periods)
    (hwp : periods wp) {artP : SArtPointer} (h : KeysSearched d s artP wp) :
    (findWordsInPeriod d search artP wp s).textKWFound = true := by
  rcases h with ht | ⟨hnone, hleft⟩
  · exact (findWordsInPeriod_step htotal hwp artP s).textKWFound ht
  · rw [findWordsInPeriod, hnone]
    simp only [List.isEmpty_nil, Bool.not_true, Bool.false_eq_true, if_false]
    have hgzt := foldl_rel PeriodStep.refl PeriodStep.trans s
      (fun a (_ : a ∈ (collectArticleInfo d artP).1) s =>
        @findGztInPeriod_step _ search periods wp htotal hwp s a)
    exact foldl_findAuxInPeriod_textKWFound htotal hwp hgzt.keysFirst (Or.inr hleft)

/-- A recorded keyword of an article is found in every period that includes it. -/
theorem mem_getFoundWords (hrecorded : s.Recorded) {artP : SArtPointer} {o : FoundWord}
    (ho : o ∈ s.keyWords) (hof : o.IsOf artP)
    (hinside : wp.includes (s.words.sourcePair o.word) = true) (other : List WordHomonymNum) :
    o.word ∈ s.getFoundWords artP wp other := by
  obtain ⟨htype, htitle⟩ := hrecorded o ho
  obtain ⟨hoftype, hoftitle, hvalid⟩ := hof
  rw [getFoundWords]
  cases hkw : artP.kwType with
  | some kwType =>
    have hmem : o.word ∈ (s.kw2Words kwType).filter
        fun wh => wp.includes (s.words.sourcePair wh) :=
      List.mem_filter.mpr ⟨htype kwType (hoftype kwType hkw), hinside⟩
    have hne : (!((s.kw2Words kwType).filter
        fun wh => wp.includes (s.words.sourcePair wh)).isEmpty) = true := by
      simpa using List.ne_nil_of_mem hmem
    simp only [Option.elim_some, hne, if_true]
    exact hmem
  | none =>
    have hstr : artP.strType ≠ [] := by
      intro hempty
      simp [SArtPointer.isValid, hkw, hempty] at hvalid
    have hmem : o.word ∈ (s.title2Words artP.strType).filter
        fun wh => wp.includes (s.words.sourcePair wh) := by
      rw [← hoftitle hstr]
      exact List.mem_filter.mpr ⟨htitle, hinside⟩
    have hne : (!((s.title2Words artP.strType).filter
        fun wh => wp.includes (s.words.sourcePair wh)).isEmpty) = true := by
      simpa using List.ne_nil_of_mem hmem
    have hstr' : (!artP.strType.isEmpty) = true := by simpa using hstr
    simp only [Option.elim_none, List.filter_nil, List.isEmpty_nil, Bool.not_true,
      Bool.false_eq_true, if_false, hstr', if_true, hne]
    exact hmem

/-- The periods that have been searched. -/
def Searched (calls : List Call) (wp : CWordsPair) : Prop := ∃ artP, .inPeriod artP wp ∈ calls

/-- What is found belongs to the period it was searched in, and after a search for an article with
plain text keys its keywords in the period are found. -/
structure Belongs (d : Dictionaries) (s : MultiWordCreator) (calls : List Call) : Prop where
  own : ∀ artP wp, Searched calls wp →
    s.getFoundWordsInPeriod artP wp = s.getFoundWords artP wp (s.foundIn wp)
  keyWords : ∀ artP wp, .inPeriod artP wp ∈ calls → hasTextKeys d artP = true →
    s.textKWFound = true ∧ ∀ o ∈ s.keyWords, o.IsOf artP →
      wp.includes (s.words.sourcePair o.word) = true → o.word ∈ s.getFoundWordsInPeriod artP wp

/-- The period of a call crosses none that has been searched, and if the article has plain text
keys, something leads to the search for them. -/
def StepOk (d : Dictionaries) (s : MultiWordCreator) (before : List Call) : Call → Prop
  | .inPeriod artP wp =>
    (∀ p, Searched before p → ¬ wp.Crosses p) ∧
      (hasTextKeys d artP = true → KeysSearched d s artP wp)
  | .inSentence _ => True

/-- Every call of a run is in order. -/
def RunOk (d : Dictionaries) (search : Searchers WordSequence) :
    MultiWordCreator → List Call → List Call → Prop
  | _, _, [] => True
  | s, before, c :: calls =>
    StepOk d s before c ∧ RunOk d search (step d search s c) (before ++ [c]) calls

/-- What holds after calls that are in order. -/
structure Inv (d : Dictionaries) (s : MultiWordCreator) (calls : List Call) : Prop where
  ownWords : OwnWords (Searched calls) s
  notCrosses : ∀ p q, Searched calls p → Searched calls q → ¬ p.Crosses q
  recorded : s.Recorded
  keys : ∀ artP wp, .inPeriod artP wp ∈ calls → hasTextKeys d artP = true → s.textKWFound = true

theorem Inv.belongs {calls : List Call} (h : Inv d s calls) : Belongs d s calls where
  own := by
    intro artP wp hwp
    rw [getFoundWordsInPeriod, h.ownWords.own wp hwp]
  keyWords := by
    intro artP wp hcall hkeys
    refine ⟨h.keys artP wp hcall hkeys, ?_⟩
    intro o ho hof hinside
    exact mem_getFoundWords h.recorded ho hof hinside _

theorem searched_inPeriod (calls : List Call) (artP : SArtPointer) (wp : CWordsPair) :
    Searched (calls ++ [.inPeriod artP wp]) = fun p => p = wp ∨ Searched calls p := by
  funext p
  simp only [Searched, List.mem_append, List.mem_singleton, Call.inPeriod.injEq, eq_iff_iff]
  constructor
  · rintro ⟨a, h | ⟨-, rfl⟩⟩
    · exact Or.inr ⟨a, h⟩
    · exact Or.inl rfl
  · rintro (rfl | ⟨a, h⟩)
    · exact ⟨artP, Or.inr ⟨rfl, rfl⟩⟩
    · exact ⟨a, Or.inl h⟩

theorem searched_inSentence (calls : List Call) (artP : SArtPointer) :
    Searched (calls ++ [.inSentence artP]) = Searched calls := by
  funext p
  simp [Searched]

/-- A call that is in order keeps the invariant. -/
theorem Inv.step {calls : List Call} (h : Inv d s calls) {c : Call} (hok : StepOk d s calls c) :
    Inv d (step d search s c) (calls ++ [c]) := by
  cases c with
  | inSentence artP =>
    have hextends := (@findKWWords_extends _ d search artP s).1
    refine ⟨?_, ?_, hextends.recorded h.recorded, ?_⟩
    · rw [searched_inSentence]
      exact h.ownWords.of_growsOutside hextends.toGrowsOutside
    · rw [searched_inSentence]
      exact h.notCrosses
    · intro a wp hcall hkeys
      rw [List.mem_append, List.mem_singleton] at hcall
      rcases hcall with hcall | hcall
      · exact hextends.textKWFound (h.keys a wp hcall hkeys)
      · cases hcall
  | inPeriod artP wp =>
    obtain ⟨hcross, hsearched⟩ := hok
    have hnot : ∀ p q, (p = wp ∨ Searched calls p) → (q = wp ∨ Searched calls q) →
        ¬ p.Crosses q := by
      rintro p q (rfl | hp) (rfl | hq)
      · exact CWordsPair.not_crosses_self _
      · exact hcross q hq
      · exact CWordsPair.not_crosses_symm (hcross p hp)
      · exact h.notCrosses p q hp hq
    have htotal := CWordsPair.totalOn_of_not_crosses hnot
    have hwp : wp = wp ∨ Searched calls wp := Or.inl rfl
    have hstep := @findWordsInPeriod_step _ d search _ wp htotal hwp artP s
    refine ⟨?_, ?_, hstep.recorded h.recorded, ?_⟩
    · rw [searched_inPeriod]
      exact hstep.ownWords (h.ownWords.add_period hnot)
    · rw [searched_inPeriod]
      exact hnot
    · intro a p hcall hkeys
      rw [List.mem_append, List.mem_singleton, Call.inPeriod.injEq] at hcall
      rcases hcall with hcall | ⟨rfl, rfl⟩
      · exact hstep.textKWFound (h.keys a p hcall hkeys)
      · exact findWordsInPeriod_textKWFound htotal hwp (hsearched hkeys)

theorem Inv.run {calls : List Call} : ∀ {s : MultiWordCreator} {before : List Call},
    Inv d s before → RunOk d search s before calls →
    Inv d (calls.foldl (MultiWordCreator.step d search) s) (before ++ calls) := by
  induction calls with
  | nil =>
    intro s before h _
    rw [List.append_nil]
    exact h
  | cons c calls ih =>
    intro s before h hok
    have hnext := ih (h.step hok.1) hok.2
    rw [List.append_assoc, List.singleton_append] at hnext
    exact hnext

theorem inv_init (d : Dictionaries) (words : Words) : Inv d { words } [] where
  ownWords := by
    refine ⟨?_, ?_, ?_⟩ <;> simp [Searched]
  notCrosses := by simp [Searched]
  recorded := by simp [Recorded]
  keys := by simp

/-- In every run whose calls are in order, what is found belongs to its period. -/
theorem run_belongs (d : Dictionaries) (search : Searchers WordSequence) (words : Words)
    (calls : List Call) (hok : RunOk d search { words } [] calls) :
    Belongs d (run d search words calls) calls := by
  have hinv := (inv_init d words).run hok
  rw [List.nil_append] at hinv
  exact hinv.belongs

/-- Type 1 has an article with a plain text key, type 2 one with a grammar. -/
def textAndGrammar : Dictionaries where
  customArticleByName := fun _ => none
  auxArticle := fun _ => none
  isAuxDicArticleType := fun _ => false
  kwTypeInfo := fun _ => some ⟨false, []⟩
  customArticlesByType := fun kwType =>
    if kwType = 1 then [⟨[0x61], 1, true, []⟩]
    else if kwType = 2 then [⟨[0x62], 2, false, [0]⟩]
    else []

/-- One keyword, and a grammar that finds a word in each period from the first word on. -/
def oneWord : Searchers Unit where
  findKeyWords := fun words => (words, [⟨some 1, [0x61], { wordNum := 0 }⟩])
  runFactGrammar := fun _ wp s => (s, if wp.first = 0 then [()] else [])
  newMultiWord := fun _ _ words => (words, { wordNum := 0 })
  processGztArticle := fun _ s => s
  processTomitaAuxArticle := fun _ s => s
  processAlgArticle := fun _ s => s
  runFactGrammar_extends := fun _ _ s => Extends.refl s
  processGztArticle_extends := fun _ s => Extends.refl s
  processTomitaAuxArticle_extends := fun _ s => Extends.refl s
  processAlgArticle_extends := fun _ s => Extends.refl s

def fourWords : Words where
  sourcePair := fun wh => ⟨wh.wordNum, wh.wordNum, Int.le_refl _⟩
  hasArticle := fun _ _ => true

def firstThree : CWordsPair := ⟨0, 2, by decide⟩

def lastThree : CWordsPair := ⟨1, 3, by decide⟩

def lastWord : CWordsPair := ⟨3, 3, by decide⟩

/-- A sentence is searched for keywords, and then two periods without a common word. -/
theorem run_belongs_firstThree_lastWord :
    Belongs textAndGrammar
      (run textAndGrammar oneWord fourWords
        [.inSentence { kwType := some 1 }, .inPeriod { kwType := some 1 } firstThree,
          .inPeriod { kwType := some 2 } lastWord])
      [.inSentence { kwType := some 1 }, .inPeriod { kwType := some 1 } firstThree,
        .inPeriod { kwType := some 2 } lastWord] := by
  refine run_belongs textAndGrammar oneWord fourWords _ ⟨trivial, ⟨?_, ?_⟩, ⟨?_, ?_⟩, trivial⟩
  · rintro p ⟨artP, hp⟩
    simp at hp
  · intro _
    exact Or.inl (by decide)
  · rintro p ⟨artP, hp⟩
    simp only [List.nil_append, List.singleton_append, List.mem_cons, reduceCtorEq,
      Call.inPeriod.injEq, List.not_mem_nil, or_false, false_or] at hp
    rw [hp.2]
    unfold CWordsPair.Crosses
    decide
  · intro hkeys
    exact absurd hkeys (by decide)

/-- The keyword is not searched for, and the words of a period are found in one that crosses it. -/
theorem run_not_belongs :
    ¬ Belongs textAndGrammar
        (run textAndGrammar oneWord fourWords [.inPeriod { kwType := some 1 } firstThree])
        [.inPeriod { kwType := some 1 } firstThree] ∧
      ¬ Belongs textAndGrammar
        (run textAndGrammar oneWord fourWords
          [.inPeriod { kwType := some 2 } firstThree, .inPeriod { kwType := some 2 } lastThree])
        [.inPeriod { kwType := some 2 } firstThree, .inPeriod { kwType := some 2 } lastThree] := by
  constructor
  · intro h
    have hkeys := (h.keyWords { kwType := some 1 } firstThree (by simp) (by decide)).1
    exact absurd hkeys (by decide)
  · intro h
    have hown := h.own { kwType := some 2 } lastThree ⟨{ kwType := some 2 }, by simp⟩
    exact absurd hown (by decide)

end MultiWordCreator
end TomitaParser.Rusie
