import Mathlib.Order.WellFounded
import TomitaParser.Toma.OptionTexts
/-! # The loop of downgraded options ends

Every new name is an old name with a set of option texts. Each turn of the loop uses up one of these
finitely many names, or takes an entry off the map of pending names. -/

namespace TomitaParser
open LoopRun OrderedSet OptionPrinter TerminalPostfixSet

/-- A term that is renamed and cleared. -/
def clearedItem (name : String) (item : RuleItemProto) : RuleItemProto :=
  { item with term := { item.term with
    name := name, termPostfix := clear item.term.termPostfix } }

theorem itemAt_renameTerm (name : String) (rules : List RuleProto) (pos p : ℕ × ℕ) :
    itemAt (renameTerm name rules pos) p =
      if pos = p then (itemAt rules p).map (clearedItem name) else itemAt rules p := by
  obtain ⟨i, j⟩ := pos
  obtain ⟨i', j'⟩ := p
  simp only [itemAt, renameTerm, List.getElem?_modify, Prod.mk.injEq]
  by_cases hi : i = i'
  · subst hi
    cases rules[i]? with
    | none => simp
    | some rule =>
      simp only [if_true, Option.map_eq_map, Option.map_some, Option.bind_some,
        List.getElem?_modify, true_and]
      split_ifs
      · rfl
      · cases rule.items[j']? <;> rfl
  · simp only [hi, false_and, if_false]
    cases rules[i']? <;> rfl

theorem itemAt_foldl_renameTerm (name : String) (positions : List (ℕ × ℕ))
    (rules : List RuleProto) (p : ℕ × ℕ) :
    itemAt (positions.foldl (renameTerm name) rules) p =
      if p ∈ positions then (itemAt rules p).map (clearedItem name) else itemAt rules p := by
  induction positions generalizing rules with
  | nil => simp
  | cons pos positions ih =>
    rw [List.foldl_cons, ih, itemAt_renameTerm]
    by_cases hpos : pos = p
    · subst hpos
      simp only [if_true, List.mem_cons_self, Option.map_map]
      split_ifs <;> rfl
    · have hpos' : ¬ p = pos := fun h => hpos h.symm
      simp [hpos, hpos']

theorem itemAt_append (rules : List RuleProto) (rule : RuleProto) (p : ℕ × ℕ) :
    itemAt (rules ++ [rule]) p =
      if p.1 = rules.length then rule.items[p.2]? else itemAt rules p := by
  rw [itemAt, List.getElem?_append]
  rcases lt_trichotomy p.1 rules.length with hlt | heq | hgt
  · rw [if_pos hlt, if_neg (by omega)]
    rfl
  · simp [heq]
  · have : rules[p.1]? = none := List.getElem?_eq_none (by omega)
    rw [if_neg (by omega), if_neg (by omega), itemAt, this, List.getElem?_eq_none (by simp; omega)]

theorem exists_itemAt_of_mem {rules : List RuleProto} {rule : RuleProto} {item : RuleItemProto}
    (hrule : rule ∈ rules) (hitem : item ∈ rule.items) : ∃ p, itemAt rules p = some item := by
  obtain ⟨i, hi⟩ := List.mem_iff_getElem?.mp hrule
  obtain ⟨j, hj⟩ := List.mem_iff_getElem?.mp hitem
  exact ⟨(i, j), by simp [itemAt, hi, hj]⟩

namespace PostfixIndex

/-- Some name of the map has the position. -/
def Pending (m : OrderedMap TermName (List (ℕ × ℕ))) (p : ℕ × ℕ) : Prop :=
  ∃ k ps, m.find k = some ps ∧ p ∈ ps

/-- The names of the map are allowed. -/
def KeysIn (K : Set TermName) (m : OrderedMap TermName (List (ℕ × ℕ))) : Prop :=
  ∀ k ps, m.find k = some ps → k ∈ K

theorem addItem_keeps {i : ℕ} {m : OrderedMap TermName (List (ℕ × ℕ))}
    {item : RuleItemProto × ℕ} {p : ℕ × ℕ} (h : Pending m p) : Pending (addItem i m item) p := by
  obtain ⟨k, ps, hk, hp⟩ := h
  rw [addItem]
  split_ifs
  · by_cases heq : toLex (item.1.term.name, extract item.1.term) = k
    · refine ⟨k, ps ++ [(i, item.2)], ?_, List.mem_append_left _ hp⟩
      rw [heq, OrderedMap.find_insert, if_pos rfl, hk]
      rfl
    · refine ⟨k, ps, ?_, hp⟩
      rw [OrderedMap.find_insert, if_neg heq, hk]
  · exact ⟨k, ps, hk, hp⟩

theorem addItem_enters {i : ℕ} {m : OrderedMap TermName (List (ℕ × ℕ))}
    {item : RuleItemProto × ℕ} (hnt : item.1.term.type = .nonTerminal)
    (hne : extract item.1.term ≠ []) : Pending (addItem i m item) (i, item.2) := by
  let key : TermName := toLex (item.1.term.name, extract item.1.term)
  have hlast : (i, item.2) ∈ (m.find key).getD [] ++ [(i, item.2)] :=
    List.mem_append_right _ (List.mem_singleton_self _)
  rw [addItem, if_pos ⟨hnt, hne⟩]
  refine ⟨key, _, ?_, hlast⟩
  rw [OrderedMap.find_insert, if_pos rfl]

theorem addItem_keysIn {K : Set TermName} {i : ℕ} {m : OrderedMap TermName (List (ℕ × ℕ))}
    {item : RuleItemProto × ℕ} (h : KeysIn K m)
    (hitem : item.1.term.type = .nonTerminal →
      (toLex (item.1.term.name, extract item.1.term) : TermName) ∈ K) :
    KeysIn K (addItem i m item) := by
  rw [addItem]
  split_ifs with hnew
  · intro k ps hk
    rw [OrderedMap.find_insert] at hk
    split_ifs at hk with heq
    · exact heq ▸ hitem hnew.1
    · exact h k ps hk
  · exact h

theorem foldl_addItem_keeps {i : ℕ} {m : OrderedMap TermName (List (ℕ × ℕ))}
    {items : List (RuleItemProto × ℕ)} {p : ℕ × ℕ} (h : Pending m p) :
    Pending (items.foldl (addItem i) m) p := by
  induction items generalizing m with
  | nil => exact h
  | cons item items ih => exact ih (addItem_keeps h)

theorem foldl_addItem_enters {i : ℕ} {m : OrderedMap TermName (List (ℕ × ℕ))}
    {items : List (RuleItemProto × ℕ)} {item : RuleItemProto × ℕ} (hmem : item ∈ items)
    (hnt : item.1.term.type = .nonTerminal) (hne : extract item.1.term ≠ []) :
    Pending (items.foldl (addItem i) m) (i, item.2) := by
  induction items generalizing m with
  | nil => exact absurd hmem List.not_mem_nil
  | cons first items ih =>
    rcases List.mem_cons.mp hmem with rfl | hmem
    · rw [List.foldl_cons]
      exact foldl_addItem_keeps (addItem_enters hnt hne)
    · exact ih hmem

theorem foldl_addItem_keysIn {K : Set TermName} {i : ℕ}
    {m : OrderedMap TermName (List (ℕ × ℕ))} {items : List (RuleItemProto × ℕ)} (h : KeysIn K m)
    (hitems : ∀ item ∈ items, item.1.term.type = .nonTerminal →
      (toLex (item.1.term.name, extract item.1.term) : TermName) ∈ K) :
    KeysIn K (items.foldl (addItem i) m) := by
  induction items generalizing m with
  | nil => exact h
  | cons item items ih =>
    apply ih
    · exact addItem_keysIn h (hitems item List.mem_cons_self)
    · exact fun other hother => hitems other (List.mem_cons_of_mem _ hother)

/-- A name is in use. -/
def Used (index : PostfixIndex) (name : String) : Prop := (index.usedNames.find name).isSome = true

end PostfixIndex

open PostfixIndex

/-- What stays true of the file and its index: names go back to the names `B` of the file, option
texts to its keywords `O`, and no option is forgotten. -/
structure Indexed (B : Set String) (O : List KeyWordsProto) (s : DowngradeState) : Prop where
  items : ∀ p item, itemAt s.rules p = some item →
    Arises O item.term.termPostfix.kwType ∧ Arises O item.term.termPostfix.label ∧
      (item.term.name ∈ B ∨ s.index.Used item.term.name)
  used : ∀ name base options, s.index.usedNames.find name = some (base, options) →
    base ∈ B ∧ SortedTexts (Texts O) options
  keys : KeysIn {k | ((ofLex k).1 ∈ B ∨ s.index.Used (ofLex k).1) ∧
    SortedTexts (Texts O) (ofLex k).2} s.index.postfixMap
  pending : ∀ p item, itemAt s.rules p = some item → item.term.type = .nonTerminal →
    extract item.term ≠ [] → Pending s.index.postfixMap p

variable {B : Set String} {O : List KeyWordsProto} {s : DowngradeState}

theorem PostfixIndex.KeysIn.mono {K K' : Set TermName} {m : OrderedMap TermName (List (ℕ × ℕ))}
    (h : KeysIn K m) (hsub : ∀ k ∈ K, k ∈ K') : KeysIn K' m :=
  fun k ps hk => hsub k (h k ps hk)

theorem used_addToIndex {index : PostfixIndex} {i : ℕ} {rule : RuleProto} {name : String}
    (h : index.Used name) : (index.addToIndex i rule).Used name := by
  rw [Used, addToIndex, OrderedMap.find_insertNew]
  split_ifs
  · rfl
  · exact h

theorem used_afterPop {index : PostfixIndex} {k : TermName} {name : String}
    (h : index.Used name) : (index.afterPop k).Used name := by
  rw [Used, afterPop, OrderedMap.find_insertNew]
  split_ifs
  · rfl
  · exact h

theorem newRuleName_used (index : PostfixIndex) (k : TermName) :
    (index.afterPop k).Used (index.newRuleName k) := by
  rw [Used, afterPop, OrderedMap.find_insertNew]
  split_ifs with h
  · rfl
  · cases hf : index.usedNames.find (index.newRuleName k) with
    | none => exact absurd ⟨rfl, hf⟩ h
    | some v => rfl

/-- A rule may be added when its items are as the invariant says. -/
structure Addable (B : Set String) (O : List KeyWordsProto) (index : PostfixIndex)
    (rule : RuleProto) : Prop where
  name : rule.name ∈ B ∨ index.Used rule.name
  items : ∀ item ∈ rule.items, Arises O item.term.termPostfix.kwType ∧
    Arises O item.term.termPostfix.label ∧ (item.term.name ∈ B ∨ index.Used item.term.name)

theorem Indexed.addRule (h : Indexed B O s) {rule : RuleProto} (hr : Addable B O s.index rule) :
    Indexed B O (s.addRule rule) where
  items := by
    intro p item hitem
    rw [DowngradeState.addRule, itemAt_append] at hitem
    have hold : Arises O item.term.termPostfix.kwType ∧ Arises O item.term.termPostfix.label ∧
        (item.term.name ∈ B ∨ s.index.Used item.term.name) := by
      split_ifs at hitem
      · exact hr.items item (List.mem_of_getElem? hitem)
      · exact h.items p item hitem
    exact ⟨hold.1, hold.2.1, hold.2.2.imp_right used_addToIndex⟩
  used := by
    intro name base options hfind
    rw [DowngradeState.addRule, addToIndex, OrderedMap.find_insertNew] at hfind
    split_ifs at hfind with hnew
    · obtain ⟨rfl, rfl⟩ := Prod.mk.inj (Option.some.inj hfind)
      refine ⟨hr.name.resolve_right fun hused => ?_, sortedTexts_nil _⟩
      rw [Used, hnew.1, hnew.2] at hused
      simp at hused
    · exact h.used name base options hfind
  keys := by
    apply foldl_addItem_keysIn
    · exact h.keys.mono fun k hk => ⟨hk.1.imp_right used_addToIndex, hk.2⟩
    · intro item hitem hnt
      obtain ⟨hkw, hlabel, hname⟩ := hr.items item.1 (List.fst_mem_of_mem_zipIdx hitem)
      exact ⟨hname.imp_right used_addToIndex, extract_sortedTexts hnt hkw hlabel⟩
  pending := by
    intro p item hitem hnt hne
    rw [DowngradeState.addRule, itemAt_append] at hitem
    split_ifs at hitem with hp
    · obtain ⟨i, j⟩ := p
      dsimp only at hp hitem
      subst hp
      have hmem : (item, j) ∈ rule.items.zipIdx := List.mk_mem_zipIdx_iff_getElem?.mpr hitem
      exact foldl_addItem_enters hmem hnt hne
    · exact foldl_addItem_keeps (h.pending p item hitem hnt hne)

theorem Indexed.normalizeName (h : Indexed B O s) {k : TermName} {positions : List (ℕ × ℕ)}
    (hk : s.index.postfixMap.find k = some positions) :
    (s.index.normalizeName k).1 ∈ B ∧ SortedTexts (Texts O) (s.index.normalizeName k).2 := by
  obtain ⟨hname, hsorted⟩ := h.keys k positions hk
  rw [PostfixIndex.normalizeName]
  cases hfind : s.index.usedNames.find (ofLex k).1 with
  | none =>
    refine ⟨hname.resolve_right fun hused => ?_, hsorted⟩
    rw [Used, hfind] at hused
    simp at hused
  | some entry =>
    obtain ⟨base, options⟩ := entry
    obtain ⟨hbase, hoptions⟩ := h.used _ base options hfind
    exact ⟨hbase, hsorted.insertAll hoptions.2⟩

theorem Indexed.afterRename (h : Indexed B O s) {k : TermName} {positions : List (ℕ × ℕ)}
    (hk : s.index.postfixMap.find k = some positions) :
    Indexed B O (s.afterRename k positions) where
  items := by
    intro p item hitem
    rw [DowngradeState.afterRename, itemAt_foldl_renameTerm] at hitem
    split_ifs at hitem
    · obtain ⟨old, -, rfl⟩ := Option.map_eq_some_iff.mp hitem
      exact ⟨Or.inl rfl, Or.inl rfl, Or.inr (newRuleName_used s.index k)⟩
    · obtain ⟨hkw, hlabel, hname⟩ := h.items p item hitem
      exact ⟨hkw, hlabel, hname.imp_right used_afterPop⟩
  used := by
    intro name base options hfind
    rw [DowngradeState.afterRename, afterPop, OrderedMap.find_insertNew] at hfind
    split_ifs at hfind
    · have heq := Option.some.inj hfind
      have := h.normalizeName hk
      rw [heq] at this
      exact this
    · exact h.used name base options hfind
  keys := by
    intro k' ps hk'
    rw [DowngradeState.afterRename, afterPop, OrderedMap.find_erase] at hk'
    split_ifs at hk'
    obtain ⟨hname, hsorted⟩ := h.keys k' ps hk'
    exact ⟨hname.imp_right used_afterPop, hsorted⟩
  pending := by
    intro p item hitem hnt hne
    rw [DowngradeState.afterRename, itemAt_foldl_renameTerm] at hitem
    split_ifs at hitem with hp
    · obtain ⟨old, -, rfl⟩ := Option.map_eq_some_iff.mp hitem
      exact absurd (extract_clear hnt _) hne
    · obtain ⟨k', ps, hk', hps⟩ := h.pending p item hitem hnt hne
      refine ⟨k', ps, ?_, hps⟩
      rw [DowngradeState.afterRename, afterPop, OrderedMap.find_erase, if_neg]
      · exact hk'
      · rintro rfl
        rw [hk] at hk'
        exact hp (Option.some.inj hk' ▸ hps)

theorem mergeItem_keywords (src : PostfixProto) (j : ℕ) (p : PostfixProto) :
    (mergeItem src j p).kwType = (if p.root then mergeKeywords src.kwType p.kwType else p.kwType) ∧
    (mergeItem src j p).label = (if p.root then mergeKeywords src.label p.label else p.label) := by
  by_cases hj : j = 0 <;> cases hroot : p.root <;>
    simp [mergeItem, hj, hroot, mergeFirstWord, mergeMainWord, mergeSimplePostfix, mergeAllWords]

theorem addable_cloneRule {index : PostfixIndex} {rule : RuleProto} {src : PostfixProto}
    {newRuleName : String} (hname : index.Used newRuleName) (hkw : Arises O src.kwType)
    (hlabel : Arises O src.label)
    (hitems : ∀ item ∈ rule.items, Arises O item.term.termPostfix.kwType ∧
      Arises O item.term.termPostfix.label ∧ (item.term.name ∈ B ∨ index.Used item.term.name)) :
    Addable B O index (cloneRule rule newRuleName src) := by
  refine ⟨Or.inr hname, ?_⟩
  intro item hitem
  obtain ⟨j, hj, rfl⟩ := List.mem_mapIdx.mp hitem
  obtain ⟨hk, hl, hn⟩ := hitems _ (List.getElem_mem hj)
  obtain ⟨hmk, hml⟩ := mergeItem_keywords src j rule.items[j].term.termPostfix
  refine ⟨?_, ?_, hn⟩
  · show Arises O (mergeItem src j rule.items[j].term.termPostfix).kwType
    rw [hmk]
    split_ifs
    · exact hkw.mergeKeywords hk
    · exact hk
  · show Arises O (mergeItem src j rule.items[j].term.termPostfix).label
    rw [hml]
    split_ifs
    · exact hlabel.mergeKeywords hl
    · exact hl

theorem Indexed.srcPostfix (h : Indexed B O s) (positions : List (ℕ × ℕ)) :
    Arises O (s.srcPostfix positions).kwType ∧ Arises O (s.srcPostfix positions).label := by
  rw [DowngradeState.srcPostfix]
  cases hitem : positions.head?.bind (itemAt s.rules) with
  | none => exact ⟨Or.inl rfl, Or.inl rfl⟩
  | some item =>
    obtain ⟨p, -, hp⟩ := Option.bind_eq_some_iff.mp hitem
    exact ⟨(h.items p item hp).1, (h.items p item hp).2.1⟩

theorem used_foldl_cloneAt {newRuleName : String} {src : PostfixProto} {indexes : List ℕ}
    {name : String} (h : s.index.Used name) :
    (indexes.foldl (DowngradeState.cloneAt newRuleName src) s).index.Used name := by
  induction indexes generalizing s with
  | nil => exact h
  | cons i indexes ih =>
    rw [List.foldl_cons]
    apply ih
    rw [DowngradeState.cloneAt]
    cases s.rules[i]? with
    | none => exact h
    | some rule => exact used_addToIndex h

theorem Indexed.foldl_cloneAt (h : Indexed B O s) {newRuleName : String} {src : PostfixProto}
    (hname : s.index.Used newRuleName) (hkw : Arises O src.kwType) (hlabel : Arises O src.label)
    (indexes : List ℕ) :
    Indexed B O (indexes.foldl (DowngradeState.cloneAt newRuleName src) s) := by
  induction indexes generalizing s with
  | nil => exact h
  | cons i indexes ih =>
    rw [List.foldl_cons]
    cases hrule : s.rules[i]? with
    | none =>
      have hsame : s.cloneAt newRuleName src i = s := by rw [DowngradeState.cloneAt, hrule]
      rw [hsame]
      exact ih h hname
    | some rule =>
      have hadd : s.cloneAt newRuleName src i = s.addRule (cloneRule rule newRuleName src) := by
        rw [DowngradeState.cloneAt, hrule]
      rw [hadd]
      apply ih
      · apply h.addRule
        apply addable_cloneRule hname hkw hlabel
        intro item hitem
        obtain ⟨j, hj⟩ := List.mem_iff_getElem?.mp hitem
        exact h.items (i, j) item (by simp [itemAt, hrule, hj])
      · exact used_addToIndex hname

theorem Indexed.downgrade (h : Indexed B O s) {k : TermName} {positions : List (ℕ × ℕ)}
    (hk : s.index.postfixMap.find k = some positions) : Indexed B O (s.downgrade k positions) := by
  have hrenamed := h.afterRename hk
  rw [DowngradeState.downgrade]
  split_ifs
  · exact hrenamed
  · obtain ⟨hkw, hlabel⟩ := h.srcPostfix positions
    exact hrenamed.foldl_cloneAt (newRuleName_used s.index k) hkw hlabel _

theorem used_downgrade {k : TermName} {positions : List (ℕ × ℕ)} {name : String}
    (h : (s.index.afterPop k).Used name) : (s.downgrade k positions).index.Used name := by
  rw [DowngradeState.downgrade]
  split_ifs
  · exact h
  · exact used_foldl_cloneAt h

/-- The names that a file begins with. -/
def baseNames (rules : List RuleProto) : Set String :=
  {n | n ∈ rules.flatMap fun rule => rule.name :: rule.items.map (·.term.name)}

/-- The keywords and labels that a file begins with. -/
def baseKeywords (rules : List RuleProto) : List KeyWordsProto :=
  rules.flatMap fun rule => rule.items.flatMap fun item =>
    [item.term.termPostfix.kwType, item.term.termPostfix.label]

theorem addable_of_mem {rules : List RuleProto} {rule : RuleProto} (h : rule ∈ rules)
    (index : PostfixIndex) : Addable (baseNames rules) (baseKeywords rules) index rule := by
  constructor
  · exact Or.inl (List.mem_flatMap.mpr ⟨rule, h, List.mem_cons_self⟩)
  · intro item hitem
    have harises : ∀ k ∈ [item.term.termPostfix.kwType, item.term.termPostfix.label],
        Arises (baseKeywords rules) k := by
      intro k hk
      apply Or.inr
      apply Or.inl
      apply List.mem_map_of_mem
      exact List.mem_flatMap.mpr ⟨rule, h, List.mem_flatMap.mpr ⟨item, hitem, hk⟩⟩
    refine ⟨harises _ (by simp), harises _ (by simp), Or.inl ?_⟩
    exact List.mem_flatMap.mpr ⟨rule, h, List.mem_cons_of_mem _ (List.mem_map_of_mem hitem)⟩

theorem indexed_start (rules : List RuleProto) :
    Indexed (baseNames rules) (baseKeywords rules) (DowngradeState.start rules) := by
  have h (added : List RuleProto) (hsub : ∀ rule ∈ added, rule ∈ rules) (s : DowngradeState)
      (hs : Indexed (baseNames rules) (baseKeywords rules) s) :
      Indexed (baseNames rules) (baseKeywords rules) (added.foldl DowngradeState.addRule s) := by
    induction added generalizing s with
    | nil => exact hs
    | cons rule added ih =>
      apply ih
      · exact fun other hother => hsub other (List.mem_cons_of_mem _ hother)
      · exact hs.addRule (addable_of_mem (hsub rule List.mem_cons_self) s.index)
  apply h rules (fun _ hrule => hrule)
  constructor
  · intro p item hitem
    simp [itemAt] at hitem
  · intro name base options hfind
    exact absurd hfind (by simp [PostfixIndex.empty])
  · intro k ps hk
    exact absurd hk (by simp [PostfixIndex.empty])
  · intro p item hitem
    simp [itemAt] at hitem

/-- The names that the loop can make. -/
def newNames (B : Set String) (O : List KeyWordsProto) : Set String :=
  Set.image2 (fun base options => appendOptionToName base (optionString options)) B
    {options | SortedTexts (Texts O) options}

theorem finite_newNames (hB : B.Finite) (O : List KeyWordsProto) : (newNames B O).Finite :=
  hB.image2 _ (finite_sortedTexts (finite_texts O))

theorem Indexed.newRuleName_mem (h : Indexed B O s) {k : TermName} {positions : List (ℕ × ℕ)}
    (hk : s.index.postfixMap.find k = some positions) :
    s.index.newRuleName k ∈ newNames B O := by
  obtain ⟨hbase, hoptions⟩ := h.normalizeName hk
  exact ⟨_, hbase, _, hoptions, rfl⟩

/-- The names still to be made, and the pending names. -/
noncomputable def downgradeMeasure (names : Finset String) (s : DowngradeState) : ℕ ×ₗ ℕ :=
  toLex ((names.filter fun n => s.index.usedNames.find n = none).card,
    s.index.postfixMap.entries.length)

theorem used_iff {index : PostfixIndex} {name : String} :
    index.Used name ↔ index.usedNames.find name ≠ none := by
  rw [Used, Option.isSome_iff_ne_none]

theorem downgradeMeasure_lt {names : Finset String} {k : TermName} {positions : List (ℕ × ℕ)}
    (hk : s.index.postfixMap.find k = some positions) (hname : s.index.newRuleName k ∈ names) :
    downgradeMeasure names (s.downgrade k positions) < downgradeMeasure names s := by
  have hsub : (names.filter fun n => (s.downgrade k positions).index.usedNames.find n = none) ⊆
      names.filter fun n => s.index.usedNames.find n = none := by
    intro n hn
    obtain ⟨hmem, hnone⟩ := Finset.mem_filter.mp hn
    refine Finset.mem_filter.mpr ⟨hmem, ?_⟩
    by_contra hused
    exact used_iff.mp (used_downgrade (used_afterPop (used_iff.mpr hused))) hnone
  apply Prod.Lex.toLex_lt_toLex.mpr
  by_cases hnew : s.index.Used (s.index.newRuleName k)
  · -- the name exists: nothing is copied, and the entry is gone
    rcases (Finset.card_le_card hsub).lt_or_eq with hlt | heq
    · exact Or.inl hlt
    · refine Or.inr ⟨heq, ?_⟩
      have hmap : (s.downgrade k positions).index.postfixMap = s.index.postfixMap.erase k := by
        have hused : (s.index.usedNames.find (s.index.newRuleName k)).isSome = true := hnew
        rw [DowngradeState.downgrade, if_pos hused]
        rfl
      show (s.downgrade k positions).index.postfixMap.entries.length <
        s.index.postfixMap.entries.length
      rw [hmap]
      apply List.length_filter_lt_length_iff_exists.mpr
      exact ⟨(k, positions), s.index.postfixMap.find_eq_some.mp hk, by simp⟩
  · apply Or.inl
    apply Finset.card_lt_card
    refine ⟨hsub, fun hsup => ?_⟩
    have hin : s.index.newRuleName k ∈
        names.filter fun n => s.index.usedNames.find n = none := by
      refine Finset.mem_filter.mpr ⟨hname, ?_⟩
      by_contra hused
      exact hnew (used_iff.mpr hused)
    have hnone := (Finset.mem_filter.mp (hsup hin)).2
    exact used_iff.mp (used_downgrade (newRuleName_used s.index k)) hnone

/-- No non-terminal in a right part has an option of terminal type. -/
def NoTerminalOptions (rules : List RuleProto) : Prop :=
  ∀ rule ∈ rules, ∀ item ∈ rule.items, item.term.type = .nonTerminal →
    ∀ option ∈ collectTypedOptions item.term, option.type ≠ .terminal

theorem Indexed.noTerminalOptions (h : Indexed B O s) (hend : s.index.postfixMap.entries = []) :
    NoTerminalOptions s.rules := by
  intro rule hrule item hitem hnt
  apply no_terminal_of_extract
  by_contra hne
  obtain ⟨p, hp⟩ := exists_itemAt_of_mem hrule hitem
  obtain ⟨k, ps, hk, -⟩ := h.pending p item hp hnt hne
  rw [OrderedMap.find_eq_some, hend] at hk
  exact absurd hk List.not_mem_nil

theorem removeUnrefRules_rules_subset {file out : FileProto}
    (h : removeUnrefRules file = .ok out) : out.rules ⊆ file.rules := by
  rw [removeUnrefRules] at h
  split_ifs at h
  · rw [← Except.ok.inj h]
    show removeUnref file.rules file.grammarRoot ⊆ file.rules
    rw [removeUnref_eq]
    exact List.filter_subset_self _
  · split at h
    · rename_i root _
      rw [← Except.ok.inj h]
      show removeUnref file.rules root ⊆ file.rules
      rw [removeUnref_eq]
      exact List.filter_subset_self _
    · exact absurd h (by simp)

/-- The loop of `DowngradePostfixes` ends for every file, and no option of terminal type is left on
a non-terminal, neither in the file nor after unreferenced rules are removed. -/
theorem downgradePostfixes_ends (file : FileProto) :
    ∃ s, EndsAt DowngradeState.downgradeStep (DowngradeState.start file.rules) s ∧
      NoTerminalOptions s.rules ∧
      (∃ N, ∀ fuel, N ≤ fuel → downgradePostfixes fuel file =
        some (removeUnrefRules { file with rules := s.rules })) ∧
      ∀ out, removeUnrefRules { file with rules := s.rules } = .ok out →
        NoTerminalOptions out.rules := by
  have hB : (baseNames file.rules).Finite := List.finite_toSet _
  let names := (finite_newNames hB (baseKeywords file.rules)).toFinset
  have hwf : WellFounded fun s s' : DowngradeState =>
      downgradeMeasure names s < downgradeMeasure names s' :=
    InvImage.wf (downgradeMeasure names) wellFounded_lt
  obtain ⟨N, hstop | ⟨b, s, hrun, rfl, hdone⟩⟩ := @runLoop_eventually _ _
    (fun _ => DowngradeState.downgradeStep) false _ hwf
    (Indexed (baseNames file.rules) (baseKeywords file.rules)) (fun _ => False)
    (fun b s => b = true ∧ NoTerminalOptions s.rules)
    (by
      intro s hs _
      refine ⟨0, _, fun _ _ => rfl, ?_⟩
      rw [DowngradeState.downgradeStep]
      split
      · rename_i hend
        exact ⟨rfl, hs.noTerminalOptions hend⟩
      · rename_i k positions rest hentries
        have hk : s.index.postfixMap.find k = some positions := by
          rw [OrderedMap.find_eq_some, hentries]
          exact List.mem_cons_self
        refine ⟨hs.downgrade hk, downgradeMeasure_lt hk ?_⟩
        exact (Set.Finite.mem_toFinset _).mpr (hs.newRuleName_mem hk))
    (fun _ _ h => h.elim) (DowngradeState.start file.rules) (indexed_start file.rules)
  · exact (hstop N le_rfl N le_rfl).elim
  · refine ⟨s, ⟨N, fun fuel hf => hrun N le_rfl fuel hf⟩, hdone, ⟨N, fun fuel hf => ?_⟩, ?_⟩
    · rw [downgradePostfixes, hrun N le_rfl fuel hf]
      rfl
    · intro out hout rule hrule
      exact hdone rule (removeUnrefRules_rules_subset hout hrule)

end TomitaParser
