import Mathlib.Data.List.Nodup
import Mathlib.Data.List.Perm.Basic
import Mathlib.Data.List.TakeWhile
import TomitaParser.Rusie.TerminalsAssigner
/-! # The order of the homonyms

Which homonyms get a terminal, and when it depends on the order in which they stand. -/

namespace TomitaParser.Rusie
namespace CTerminalsAssigner
variable {H : Type} [DecidableEq H] {g : CWorkGrammar} {first last : ℕ} {w : CWord H}

/-- What a terminal asks of the word alone. -/
def guard (w : CWord H) : ETerminals → Bool
  | .word => checkTerminalWord w
  | .unPOS => w.typ = .word || w.typ = .hyphen
  | .conjAnd => w.isAndConj
  | .quoteDbl => w.isDoubleQuote
  | .quoteSng => w.isSingleQuote
  | .lBracket => w.isOpenBracket
  | .rBracket => w.isCloseBracket
  | .bracket => w.isOpenBracket || w.isCloseBracket
  | .hyphen => w.isDash
  | .punct => w.isPunct
  | .comma => w.isComma
  | .colon => w.isColon
  | .percent => decide ('%'.toNat ∈ w.txt)
  | .dollar => decide ('$'.toNat ∈ w.txt)
  | .numSign => isSymbolWith w '#'
  | .plusSign => isSymbolWith w '+'
  | .ampersand => isSymbolWith w '&'
  | .termCount | .anyWord | .noun | .ordNum | .adv | .participle | .verb | .infinitive
  | .adj | .adjPartOrdNum | .prep | .date => true
  | .file | .fio | .any | .zero | .geo | .quotedWords | .eosent | .artificialEOS => false

/-- The terminals of signs: all homonyms get them. -/
def isSign : ETerminals → Bool
  | .conjAnd | .quoteDbl | .quoteSng | .lBracket | .rBracket | .bracket | .hyphen | .punct
  | .comma | .colon => true
  | _ => false

/-- What a terminal asks of a homonym. -/
def fits (g : CWorkGrammar) (w : CWord H) (item : CGrammarItem) (h : CHomonym) :
    ETerminals → Bool
  | .termCount =>
    decide (h.lemmaText = item.lemmaText) && checkGrammemsPostfix h item &&
      checkKWPostfix g h item
  | .anyWord | .word =>
    checkKWPostfix g h item && (checkGrammemsPostfix h item && checkLabelPostfix h item)
  | .noun => isNoun w h && fitsFull g item h
  | .ordNum => h.grammems.hasPOS .adjNumeral && fitsFull g item h
  | .adv => h.grammems.hasPOS .adverb && fitsFull g item h
  | .participle => h.grammems.hasPOS .participle && fitsFull g item h
  | .verb => h.grammems.hasPOS .verb && fitsFull g item h
  | .infinitive => h.grammems.hasPOS .infinitive && fitsFull g item h
  | .adj => checkTerminalAdj h .adj && fitsFull g item h
  | .adjPartOrdNum => checkTerminalAdj h .adjPartOrdNum && fitsFull g item h
  | .unPOS => h.hasUnknownPOS && fitsFull g item h
  | .prep => h.grammems.hasPOS .preposition && fitsWeak g item h
  | _ => fitsWeak g item h

/-- The homonym ends the loop: only nouns are looked for in this way. -/
def stops (w : CWord H) (symb : ETerminals) (h : CHomonym) : Bool :=
  decide (symb = .noun) && isLowerAbbreviation w h

/-- A word without a type of keywords is asked for, and a homonym has one. -/
def denied (g : CWorkGrammar) (w : CWord H) (item : CGrammarItem) (symb : ETerminals) : Bool :=
  (symb = .anyWord || symb = .word) && item.isNonePostfixKWType &&
    w.live32.any fun h => !checkKWPostfix g (w.homonym h) item

/-- Who gets a terminal. -/
def Assigned (g : CWorkGrammar) (first : ℕ) (w : CWord H) (item : CGrammarItem)
    (symb : ETerminals) (h : H) : Prop :=
  guard w symb = true ∧
    if isSign symb then h ∈ w.homonyms
    else
      checkWordPostfix g first w item = true ∧ denied g w item symb = false ∧
        h ∈ w.live32.takeWhile (fun h => !stops w symb (w.homonym h)) ∧
        fits g w item (w.homonym h) symb = true

theorem mem_addTerminalSymbol {s : Symbols H} {h h' : H} {t t' : ℕ} :
    t' ∈ (s.addTerminalSymbol h t).homonym h' ↔
      t' ∈ s.homonym h' ∨ (t' = t ∧ h' = h) := by
  by_cases hh : h' = h
  · subst hh
    simp only [Symbols.addTerminalSymbol, Function.update_self, Finset.mem_insert, and_true]
    exact or_comm
  · simp [Symbols.addTerminalSymbol, hh]

theorem mem_eraseTerminalSymbol {s : Symbols H} {h h' : H} {t t' : ℕ} :
    t' ∈ (s.eraseTerminalSymbol h t).homonym h' ↔
      t' ∈ s.homonym h' ∧ ¬ (t' = t ∧ h' = h) := by
  by_cases hh : h' = h
  · subst hh
    simp only [Symbols.eraseTerminalSymbol, Function.update_self, Finset.mem_erase, and_true]
    exact and_comm
  · simp [Symbols.eraseTerminalSymbol, hh]

theorem mem_assignWhere (p : H → Bool) {t t' : ℕ} {h : H} : ∀ {l : List H} {s : Symbols H},
    t' ∈ (assignWhere p t l s).homonym h ↔
      t' ∈ s.homonym h ∨ (t' = t ∧ h ∈ l ∧ p h = true) := by
  intro l
  induction l with
  | nil => simp [assignWhere]
  | cons a l ih =>
    intro s
    have hstep : assignWhere p t (a :: l) s =
        assignWhere p t l (if p a then s.addTerminalSymbol a t else s) := rfl
    rw [hstep, ih]
    by_cases ha : p a = true
    · rw [if_pos ha, mem_addTerminalSymbol]
      constructor
      · rintro ((h₁ | ⟨h₁, rfl⟩) | ⟨h₁, h₂, h₃⟩)
        · exact Or.inl h₁
        · exact Or.inr ⟨h₁, List.mem_cons_self, ha⟩
        · exact Or.inr ⟨h₁, List.mem_cons_of_mem a h₂, h₃⟩
      · rintro (h₁ | ⟨h₁, h₂, h₃⟩)
        · exact Or.inl (Or.inl h₁)
        · rcases List.mem_cons.mp h₂ with rfl | h₂
          · exact Or.inl (Or.inr ⟨h₁, rfl⟩)
          · exact Or.inr ⟨h₁, h₂, h₃⟩
    · rw [if_neg ha]
      constructor
      · rintro (h₁ | ⟨h₁, h₂, h₃⟩)
        · exact Or.inl h₁
        · exact Or.inr ⟨h₁, List.mem_cons_of_mem a h₂, h₃⟩
      · rintro (h₁ | ⟨h₁, h₂, h₃⟩)
        · exact Or.inl h₁
        · rcases List.mem_cons.mp h₂ with rfl | h₂
          · exact absurd h₃ ha
          · exact Or.inr ⟨h₁, h₂, h₃⟩

theorem assignNounLoop_eq (item : CGrammarItem) (t : ℕ) : ∀ (l : List H) (s : Symbols H),
    assignNounLoop g w item t l s =
      assignWhere (fun h => isNoun w (w.homonym h) && fitsFull g item (w.homonym h)) t
        (l.takeWhile fun h => !isLowerAbbreviation w (w.homonym h)) s := by
  intro l
  induction l with
  | nil => simp [assignNounLoop, assignWhere]
  | cons a l ih =>
    intro s
    rw [assignNounLoop]
    by_cases ha : isLowerAbbreviation w (w.homonym a) = true
    · simp [ha, assignWhere]
    · have htake : (a :: l).takeWhile (fun h => !isLowerAbbreviation w (w.homonym h)) =
          a :: l.takeWhile (fun h => !isLowerAbbreviation w (w.homonym h)) := by
        simp [ha]
      rw [if_neg ha, ih, htake]
      rfl

theorem mem_foldl_erase {t t' : ℕ} {h : H} : ∀ {l : List H} {s : Symbols H},
    t' ∈ (l.foldl (fun s h => s.eraseTerminalSymbol h t) s).homonym h ↔
      t' ∈ s.homonym h ∧ ¬ (t' = t ∧ h ∈ l) := by
  intro l
  induction l with
  | nil => simp
  | cons a l ih =>
    intro s
    rw [List.foldl_cons, ih, mem_eraseTerminalSymbol, List.mem_cons]
    tauto

/-- The loop over the homonyms that clears what it has done: only homonyms that it has seen have
the terminal. -/
theorem mem_assignWordLoop (item : CGrammarItem) {t t' : ℕ} {h : H} :
    ∀ {rest previous : List H} {s : Symbols H},
    (∀ x, t ∈ s.homonym x → x ∈ previous) →
    (t' ∈ (assignWordLoop g w item t previous rest s).homonym h ↔
      (t' ≠ t ∧ t' ∈ s.homonym h) ∨
        (t' = t ∧
          (item.isNonePostfixKWType &&
            rest.any fun x => !checkKWPostfix g (w.homonym x) item) = false ∧
          (t ∈ s.homonym h ∨ (h ∈ rest ∧ (checkKWPostfix g (w.homonym h) item &&
            (checkGrammemsPostfix (w.homonym h) item &&
              checkLabelPostfix (w.homonym h) item)) = true)))) := by
  intro rest
  induction rest with
  | nil =>
    intro previous s _
    simp only [assignWordLoop, List.any_nil, Bool.and_false, List.not_mem_nil, false_and,
      or_false, true_and]
    by_cases ht : t' = t <;> simp [ht]
  | cons a rest ih =>
    intro previous s hprevious
    rw [assignWordLoop]
    by_cases hkw : checkKWPostfix g (w.homonym a) item = true
    · simp only [hkw, if_true, List.any_cons, Bool.not_true, Bool.false_or]
      by_cases hfit : (checkGrammemsPostfix (w.homonym a) item &&
        checkLabelPostfix (w.homonym a) item) = true
      · have hprevious' : ∀ x, t ∈ (s.addTerminalSymbol a t).homonym x → x ∈ previous ++ [a] := by
          intro x hx
          rw [mem_addTerminalSymbol] at hx
          rcases hx with hx | ⟨-, rfl⟩
          · exact List.mem_append_left _ (hprevious x hx)
          · simp
        rw [if_pos hfit, ih hprevious', mem_addTerminalSymbol, mem_addTerminalSymbol]
        by_cases ha : h = a
        · subst ha
          simp only [List.mem_cons, true_or, hkw, hfit, Bool.and_self, and_true]
          tauto
        · simp only [List.mem_cons, ha, and_false, or_false, false_or]
      · have hprevious' : ∀ x, t ∈ s.homonym x → x ∈ previous ++ [a] :=
          fun x hx => List.mem_append_left _ (hprevious x hx)
        rw [if_neg hfit, ih hprevious']
        by_cases ha : h = a
        · subst ha
          simp only [List.mem_cons, true_or, hkw, eq_false_of_ne_true hfit, Bool.and_false,
            Bool.false_eq_true, and_false]
        · simp only [List.mem_cons, ha, false_or]
    · simp only [hkw, Bool.false_eq_true, if_false, List.any_cons]
      by_cases hnone : item.isNonePostfixKWType = true
      · simp only [hnone, if_true, mem_foldl_erase, Bool.not_false, Bool.true_or,
           Bool.and_self, Bool.true_eq_false, false_and, and_false, or_false]
        by_cases ht : t' = t
        · subst ht
          simp only [true_and, ne_eq, not_true_eq_false, false_and, iff_false, not_and, not_not]
          exact hprevious h
        · simp [ht]
      · have hprevious' : ∀ x, t ∈ s.homonym x → x ∈ previous ++ [a] :=
          fun x hx => List.mem_append_left _ (hprevious x hx)
        rw [if_neg hnone, ih hprevious']
        simp only [eq_false_of_ne_true hnone, Bool.false_and, true_and, List.mem_cons]
        by_cases ha : h = a
        · subst ha
          simp [eq_false_of_ne_true hkw]
        · simp [ha]

omit [DecidableEq H] in
theorem takeWhile_true (l : List H) : l.takeWhile (fun _ => true) = l := by
  rw [List.takeWhile_eq_self_iff]
  simp

theorem mem_assignIf (word : Bool) (p : CHomonym → Bool) (item : CGrammarItem) {t t' : ℕ} {h : H}
    {s : Symbols H} :
    t' ∈ (assignIf g first w word p item t s).homonym h ↔
      t' ∈ s.homonym h ∨ (t' = t ∧ word = true ∧ checkWordPostfix g first w item = true ∧
        h ∈ w.live32 ∧ p (w.homonym h) = true) := by
  by_cases hword : (word && checkWordPostfix g first w item) = true
  · rw [assignIf, if_pos hword, mem_assignWhere]
    rw [Bool.and_eq_true] at hword
    simp [hword.1, hword.2]
  · rw [assignIf, if_neg hword]
    rw [Bool.and_eq_true] at hword
    tauto

theorem mem_all (word : Bool) {t t' : ℕ} {h : H} {s : Symbols H} :
    t' ∈ (if word then addTerminalSymbolToAllHomonyms w t s else s).homonym h ↔
      t' ∈ s.homonym h ∨ (t' = t ∧ word = true ∧ h ∈ w.homonyms) := by
  cases word with
  | false => simp
  | true => simp [addTerminalSymbolToAllHomonyms, mem_assignWhere]

theorem mem_assignNounTerminal (item : CGrammarItem) {t t' : ℕ} {h : H} {s : Symbols H} :
    t' ∈ (assignNounTerminal g first w item t s).homonym h ↔
      t' ∈ s.homonym h ∨ (t' = t ∧ checkWordPostfix g first w item = true ∧
        h ∈ w.live32.takeWhile (fun h => !isLowerAbbreviation w (w.homonym h)) ∧
        (isNoun w (w.homonym h) && fitsFull g item (w.homonym h)) = true) := by
  by_cases hword : checkWordPostfix g first w item = true
  · simp only [assignNounTerminal, hword, Bool.not_true, Bool.false_eq_true, if_false,
      assignNounLoop_eq, mem_assignWhere, true_and]
  · simp [assignNounTerminal, hword]

theorem mem_assignWordTerminal (item : CGrammarItem) {t t' : ℕ} {h : H} {s : Symbols H}
    (hfresh : ∀ x, t ∉ s.homonym x) :
    t' ∈ (assignWordTerminal g first w item t s).homonym h ↔
      t' ∈ s.homonym h ∨ (t' = t ∧ checkWordPostfix g first w item = true ∧
        (item.isNonePostfixKWType &&
          w.live32.any fun x => !checkKWPostfix g (w.homonym x) item) = false ∧
        h ∈ w.live32 ∧ (checkKWPostfix g (w.homonym h) item &&
          (checkGrammemsPostfix (w.homonym h) item &&
            checkLabelPostfix (w.homonym h) item)) = true) := by
  have hnot : t' = t → t' ∉ s.homonym h := by
    rintro rfl
    exact hfresh h
  by_cases hword : checkWordPostfix g first w item = true
  · rw [assignWordTerminal, hword, Bool.not_true, if_neg Bool.false_ne_true,
      mem_assignWordLoop item (fun x hx => absurd hx (hfresh x))]
    have := hfresh h
    tauto
  · simp [assignWordTerminal, hword]

theorem mem_buildTerminalSymbolsLoop {t t' : ℕ} {symb : ETerminals} {h : H} {s : Symbols H}
    (hfresh : ∀ x, t ∉ s.homonym x) :
    t' ∈ (buildTerminalSymbolsLoop g first w t symb s).homonym h ↔
      t' ∈ s.homonym h ∨
        (t' = t ∧ Assigned g first w (g.uniqueGrammarItems t) symb h) := by
  cases symb <;>
    simp only [buildTerminalSymbolsLoop, Assigned, guard, isSign, fits, stops, denied, mem_assignIf,
      mem_all, mem_assignNounTerminal, mem_assignWordTerminal _ hfresh, mem_assignWhere,
      assignPOSTerminal, reduceCtorEq, decide_true, decide_false, Bool.true_and, Bool.false_and,
      Bool.not_false, Bool.true_or, Bool.or_true, Bool.or_self, Bool.false_eq_true, if_true,
      if_false, true_and, false_and, and_false, or_false, takeWhile_true]
  case termCount =>
    simp only [Bool.and_eq_true, decide_eq_true_eq]
    tauto
  case word =>
    by_cases hword : checkTerminalWord w = true
    · rw [if_pos hword, mem_assignWordTerminal _ hfresh]
      simp [hword]
    · simp [hword]

/-- The loop over the terminals of a grammar. -/
theorem mem_foldl_terminals {t' : ℕ} {h : H} :
    ∀ {ids : List (ℕ × ETerminals)} {s : Symbols H}, (ids.map Prod.fst).Nodup →
    (∀ t ∈ ids.map Prod.fst, ∀ x, t ∉ s.homonym x) →
    (t' ∈ (ids.foldl (fun s (t, symb) => buildTerminalSymbolsLoop g first w t symb s)
        s).homonym h ↔
      t' ∈ s.homonym h ∨ ∃ symb, (t', symb) ∈ ids ∧
        Assigned g first w (g.uniqueGrammarItems t') symb h) := by
  intro ids
  induction ids with
  | nil => simp
  | cons a ids ih =>
    intro s hnodup hfresh
    obtain ⟨t, symb⟩ := a
    rw [List.map_cons, List.nodup_cons] at hnodup
    have hhead : ∀ x, t ∉ s.homonym x := hfresh t (by simp)
    have htail : ∀ u ∈ ids.map Prod.fst, ∀ x,
        u ∉ (buildTerminalSymbolsLoop g first w t symb s).homonym x := by
      intro u hu x hx
      rw [mem_buildTerminalSymbolsLoop hhead] at hx
      rcases hx with hx | ⟨rfl, -⟩
      · exact hfresh u (by simp only [List.map_cons, List.mem_cons, hu, or_true]) x hx
      · exact hnodup.1 hu
    rw [List.foldl_cons, ih hnodup.2 htail, mem_buildTerminalSymbolsLoop hhead]
    constructor
    · rintro ((hs | ⟨rfl, hassigned⟩) | ⟨symb', hmem, hassigned⟩)
      · exact Or.inl hs
      · exact Or.inr ⟨symb, List.mem_cons_self, hassigned⟩
      · exact Or.inr ⟨symb', List.mem_cons_of_mem _ hmem, hassigned⟩
    · rintro (hs | ⟨symb', hmem, hassigned⟩)
      · exact Or.inl (Or.inl hs)
      · rcases List.mem_cons.mp hmem with heq | hmem
        · rw [Prod.mk.injEq] at heq
          obtain ⟨rfl, rfl⟩ := heq
          exact Or.inl (Or.inr ⟨rfl, hassigned⟩)
        · exact Or.inr ⟨symb', hmem, hassigned⟩

omit [DecidableEq H] in
theorem mem_foldl_union {f : H → Finset ℕ} {t : ℕ} : ∀ {l : List H} {acc : Finset ℕ},
    t ∈ l.foldl (fun union h => union ∪ f h) acc ↔ t ∈ acc ∨ ∃ h ∈ l, t ∈ f h := by
  intro l
  induction l with
  | nil => simp
  | cons a l ih =>
    intro acc
    rw [List.foldl_cons, ih, Finset.mem_union]
    constructor
    · rintro ((h | h) | ⟨x, hx, h⟩)
      · exact Or.inl h
      · exact Or.inr ⟨a, List.mem_cons_self, h⟩
      · exact Or.inr ⟨x, List.mem_cons_of_mem a hx, h⟩
    · rintro (h | ⟨x, hx, h⟩)
      · exact Or.inl (Or.inl h)
      · rcases List.mem_cons.mp hx with rfl | hx
        · exact Or.inl (Or.inr h)
        · exact Or.inr ⟨x, hx, h⟩

/-- The loop over all terminals for a word without symbols. -/
def allTerminals (g : CWorkGrammar) (first : ℕ) (w : CWord H) : Symbols H :=
  g.uniqueGrammarTerminalIDs.foldl
    (fun s (t, symb) => buildTerminalSymbolsLoop g first w t symb s) (Symbols.cleared H)

theorem mem_allTerminals {t : ℕ} {h : H} :
    t ∈ (allTerminals g first w).homonym h ↔
      ∃ symb, (t, symb) ∈ g.uniqueGrammarTerminalIDs ∧
        Assigned g first w (g.uniqueGrammarItems t) symb h := by
  rw [allTerminals, mem_foldl_terminals g.nodup (by simp [Symbols.cleared])]
  simp [Symbols.cleared]

/-- The terminals of the homonyms, and so of the word, are the same in every order. -/
def OrderFree (g : CWorkGrammar) (first last : ℕ) (w : CWord H) : Prop :=
  ∀ homonyms, w.homonyms.Perm homonyms →
    buildTerminalSymbols g first last { w with homonyms } (Symbols.cleared H) =
      buildTerminalSymbols g first last w (Symbols.cleared H)

/-- The homonym passes where a geographical type is asked for. -/
def isGeographical (item : CGrammarItem) (h : CHomonym) : Bool :=
  h.isGeo || h.hasKWType item.dictKWType.kwType

/-- No other homonyms are wanted, the type is geographical, and one homonym of several is not: the
check passes if it is the first. -/
def OddOneOut (g : CWorkGrammar) (w : CWord H) (item : CGrammarItem) : Prop :=
  item.nohomonyms = .noHomonyms ∧ 1 < w.homonyms.length ∧ item.isNonePostfixKWType = false ∧
    item.dictKWType.kwType.any g.isGeoKWType = true ∧ 2 ≤ w.live.length ∧
    w.live.countP (fun h => !isGeographical item (w.homonym h)) = 1

/-- The postfixes of a terminal without the one against other homonyms. -/
def otherPostfixes (item : CGrammarItem) : CGrammarItem := { item with nohomonyms := .count }

/-- Some homonym gets the terminal in one order, and in another the check of the first homonym or an
abbreviation in front prevents it. -/
def OrderDecides (g : CWorkGrammar) (first : ℕ) (w : CWord H) (item : CGrammarItem)
    (symb : ETerminals) : Prop :=
  guard w symb = true ∧ isSign symb = false ∧ denied g w item symb = false ∧
    checkWordPostfix g first w (otherPostfixes item) = true ∧
    (∃ h ∈ w.live, stops w symb (w.homonym h) = false ∧
      fits g w item (w.homonym h) symb = true) ∧
    ((OddOneOut g w item ∧ ∃ h ∈ w.live, isGeographical item (w.homonym h) = false ∧
        stops w symb (w.homonym h) = false) ∨
      (¬ OddOneOut g w item ∧ checkWordPostfix g first w item = true ∧
        ∃ h ∈ w.live, stops w symb (w.homonym h) = true))

section Orders
omit [DecidableEq H]
variable {homonyms : List H}

theorem live_perm (h : w.homonyms.Perm homonyms) :
    w.live.Perm ({ w with homonyms } : CWord H).live :=
  h.filter _

theorem live32_eq (hlen : w.homonyms.length ≤ 32) : w.live32 = w.live := by
  rw [CWord.live32, CWord.live, List.take_of_length_le hlen]

theorem exists_order {live : List H} (h : w.live.Perm live) :
    ∃ homonyms, w.homonyms.Perm homonyms ∧ ({ w with homonyms } : CWord H).live = live := by
  have hdeleted := w.homonyms.filter_append_perm fun h => !(w.homonym h).isDeleted
  refine ⟨_, hdeleted.symm.trans (h.append_right _), ?_⟩
  have hlive : live.filter (fun h => !(w.homonym h).isDeleted) = live := by
    rw [List.filter_eq_self]
    intro x hx
    exact (List.mem_filter.mp (h.mem_iff.mpr hx)).2
  have hrest : (w.homonyms.filter fun h => !!(w.homonym h).isDeleted).filter
      (fun h => !(w.homonym h).isDeleted) = [] := by
    rw [List.filter_eq_nil_iff]
    intro x hx
    simpa using (List.mem_filter.mp hx).2
  show List.filter _ (live ++ _) = live
  rw [List.filter_append, hlive, hrest, List.append_nil]

theorem guard_perm (h : w.homonyms.Perm homonyms) (symb : ETerminals) :
    guard { w with homonyms } symb = guard w symb := by
  have hand : ({ w with homonyms } : CWord H).isAndConj = w.isAndConj := h.symm.any_eq
  cases symb <;> first | rfl | exact hand

theorem otherPostfixes_perm (h : w.homonyms.Perm homonyms) (item : CGrammarItem) :
    checkWordPostfix g first { w with homonyms } (otherPostfixes item) =
      checkWordPostfix g first w (otherPostfixes item) := by
  have hlive := live_perm h
  have hpos : ∀ pos, ({ w with homonyms } : CWord H).hasPOS pos = w.hasPOS pos :=
    fun pos => hlive.symm.any_eq
  have hunknown : ({ w with homonyms } : CWord H).hasUnknownPOS = w.hasUnknownPOS :=
    hlive.symm.any_eq
  have hgeo : ({ w with homonyms } : CWord H).hasGeoHom = w.hasGeoHom := hlive.symm.any_eq
  have hname : ({ w with homonyms } : CWord H).hasNameHom = w.hasNameHom := hlive.symm.any_eq
  have hnot : (otherPostfixes item).nohomonyms ≠ .noHomonyms := by
    show EPostfix.count ≠ .noHomonyms
    decide
  simp only [checkWordPostfix, hpos, hunknown, hgeo, hname, hnot, false_and, if_false]
  rfl

theorem checkWordPostfix_eq (item : CGrammarItem) :
    checkWordPostfix g first w item =
      (checkWordPostfix g first w (otherPostfixes item) &&
        (decide (item.nohomonyms ≠ .noHomonyms) || checkNoHomonyms g w item)) := by
  have hnot : (otherPostfixes item).nohomonyms ≠ .noHomonyms := by
    show EPostfix.count ≠ .noHomonyms
    decide
  by_cases hno : item.nohomonyms = .noHomonyms ∧ (!checkNoHomonyms g w item) = true
  · have hfalse : (decide (item.nohomonyms ≠ .noHomonyms) || checkNoHomonyms g w item) = false := by
      have := hno.2
      simp only [hno.1, ne_eq, not_true_eq_false, decide_false, Bool.false_or]
      simpa using this
    rw [hfalse, Bool.and_false, checkWordPostfix]
    simp only [hno, and_self, if_true]
    split_ifs <;> rfl
  · have htrue : (decide (item.nohomonyms ≠ .noHomonyms) || checkNoHomonyms g w item) = true := by
      by_cases heq : item.nohomonyms = .noHomonyms
      · have : ¬ (!checkNoHomonyms g w item) = true := fun h => hno ⟨heq, h⟩
        simp only [heq, ne_eq, not_true_eq_false, decide_false, Bool.false_or]
        simpa using this
      · simp [heq]
    rw [htrue, Bool.and_true]
    simp only [checkWordPostfix, hno, hnot, false_and, if_false]
    rfl

theorem countP_eq_zero_iff {p : H → Bool} {l : List H} :
    l.countP (fun x => !p x) = 0 ↔ ∀ x ∈ l, p x = true := by
  rw [List.countP_eq_zero]
  simp

theorem tail_all_iff (p : H → Bool) (l : List H) :
    (∀ x ∈ l.tail, p x = true) ↔
      l.countP (fun x => !p x) = 0 ∨
        (l.countP (fun x => !p x) = 1 ∧ ∃ a rest, l = a :: rest ∧ p a = false) := by
  cases l with
  | nil => simp
  | cons a rest =>
    rw [List.tail_cons, ← countP_eq_zero_iff, List.countP_cons]
    by_cases ha : p a = true
    · simp only [ha, Bool.not_true, Bool.false_eq_true, if_false, Nat.add_zero]
      constructor
      · exact Or.inl
      · rintro (h | ⟨-, b, rest', hcons, hb⟩)
        · exact h
        · rw [List.cons.injEq] at hcons
          rw [← hcons.1, ha] at hb
          cases hb
    · simp only [eq_false_of_ne_true ha, Bool.not_false, if_true]
      constructor
      · intro h
        exact Or.inr ⟨by omega, a, rest, rfl, eq_false_of_ne_true ha⟩
      · rintro (h | ⟨h, -⟩) <;> omega

theorem checkNoHomonyms_geo {item : CGrammarItem} (hcount : 1 < w.homonyms.length)
    (hnone : item.isNonePostfixKWType = false)
    (hgeo : item.dictKWType.kwType.any g.isGeoKWType = true) :
    checkNoHomonyms g w item = true ↔
      ∀ x ∈ w.live32.tail, isGeographical item (w.homonym x) = true := by
  rw [checkNoHomonyms, if_pos ⟨hcount, hnone⟩]
  cases w.live32 with
  | nil => simp
  | cons a rest =>
    simp only [hgeo, if_true, List.all_eq_true, List.tail_cons]
    rfl

theorem checkNoHomonyms_pos {item : CGrammarItem} (hcount : 1 < w.homonyms.length)
    (hnone : item.isNonePostfixKWType = false)
    (hgeo : item.dictKWType.kwType.any g.isGeoKWType = false) :
    checkNoHomonyms g w item = true ↔
      ∀ x ∈ w.live32, ∀ y ∈ w.live32,
        (w.homonym x).grammems.getMinimalPOS = (w.homonym y).grammems.getMinimalPOS := by
  rw [checkNoHomonyms, if_pos ⟨hcount, hnone⟩]
  cases w.live32 with
  | nil => simp
  | cons a rest =>
    simp only [hgeo, Bool.false_eq_true, if_false, List.all_eq_true, CHomonym.hasSamePOS,
      decide_eq_true_eq]
    constructor
    · intro h
      have hfirst : ∀ x ∈ a :: rest,
          (w.homonym x).grammems.getMinimalPOS = (w.homonym a).grammems.getMinimalPOS := by
        intro x hx
        rcases List.mem_cons.mp hx with rfl | hx
        · rfl
        · exact (h x hx).symm
      intro x hx y hy
      rw [hfirst x hx, hfirst y hy]
    · intro h x hx
      exact h a List.mem_cons_self x (List.mem_cons_of_mem a hx)

theorem oddOneOut_perm {item : CGrammarItem} (h : w.homonyms.Perm homonyms) :
    OddOneOut g { w with homonyms } item ↔ OddOneOut g w item := by
  have hlive := live_perm h
  unfold OddOneOut
  rw [← hlive.length_eq, ← hlive.countP_eq, ← h.length_eq]

theorem checkNoHomonyms_odd {item : CGrammarItem} (hlen : w.homonyms.length ≤ 32)
    (hodd : OddOneOut g w item) :
    checkNoHomonyms g w item = true ↔
      ∃ a rest, w.live = a :: rest ∧ isGeographical item (w.homonym a) = false := by
  obtain ⟨-, hcount, hnone, hgeo, -, hone⟩ := hodd
  rw [checkNoHomonyms_geo hcount hnone hgeo, live32_eq hlen, tail_all_iff]
  constructor
  · rintro (h | ⟨-, h⟩)
    · omega
    · exact h
  · intro h
    exact Or.inr ⟨hone, h⟩

/-- Elsewhere the order does not matter to the check. -/
theorem checkNoHomonyms_perm {item : CGrammarItem} (hlen : w.homonyms.length ≤ 32)
    (h : w.homonyms.Perm homonyms) (hasked : item.nohomonyms = .noHomonyms)
    (hodd : ¬ OddOneOut g w item) :
    checkNoHomonyms g { w with homonyms } item = checkNoHomonyms g w item := by
  have hlive := live_perm h
  have hlen' : ({ w with homonyms } : CWord H).homonyms.length ≤ 32 := by
    rw [← h.length_eq]
    exact hlen
  by_cases hcheck : 1 < w.homonyms.length ∧ item.isNonePostfixKWType = false
  · obtain ⟨hcount, hnone⟩ := hcheck
    have hcount' : 1 < ({ w with homonyms } : CWord H).homonyms.length := by
      rw [← h.length_eq]
      exact hcount
    rw [Bool.eq_iff_iff]
    cases hgeo : item.dictKWType.kwType.any g.isGeoKWType with
    | true =>
      rw [checkNoHomonyms_geo hcount' hnone hgeo, checkNoHomonyms_geo hcount hnone hgeo,
        live32_eq hlen, live32_eq hlen']
      by_cases hshort : w.live.length ≤ 1
      · have htail : ∀ l : List H, l.length ≤ 1 → l.tail = [] := by
          intro l hl
          rw [← List.length_eq_zero_iff, List.length_tail]
          omega
        rw [htail _ hshort, htail _ (by rw [← hlive.length_eq]; exact hshort)]
      · have hone : w.live.countP (fun h => !isGeographical item (w.homonym h)) ≠ 1 := by
          intro hone
          exact hodd ⟨hasked, hcount, hnone, hgeo, by omega, hone⟩
        have hone' := hlive.countP_eq (fun h => !isGeographical item (w.homonym h))
        rw [tail_all_iff, tail_all_iff, ← hone']
        simp [hone]
    | false =>
      rw [checkNoHomonyms_pos hcount' hnone hgeo, checkNoHomonyms_pos hcount hnone hgeo,
        live32_eq hlen, live32_eq hlen']
      simp only [hlive.mem_iff]
  · rw [checkNoHomonyms, checkNoHomonyms, if_neg hcheck, if_neg]
    rw [← h.length_eq]
    exact hcheck

end Orders

section
omit [DecidableEq H]
variable {homonyms : List H}

theorem denied_perm (hlen : w.homonyms.length ≤ 32) (h : w.homonyms.Perm homonyms)
    (item : CGrammarItem) (symb : ETerminals) :
    denied g { w with homonyms } item symb = denied g w item symb := by
  have hlen' : ({ w with homonyms } : CWord H).homonyms.length ≤ 32 := by
    rw [← h.length_eq]
    exact hlen
  rw [denied, denied, live32_eq hlen, live32_eq hlen']
  congr 1
  exact (live_perm h).symm.any_eq

theorem assigned_order_iff {item : CGrammarItem} {symb : ETerminals} {h : H}
    (hlen : w.homonyms.length ≤ 32) (hperm : w.homonyms.Perm homonyms)
    (hsign : isSign symb = false) :
    Assigned g first { w with homonyms } item symb h ↔
      guard w symb = true ∧ denied g w item symb = false ∧
        checkWordPostfix g first { w with homonyms } item = true ∧
        h ∈ ({ w with homonyms } : CWord H).live.takeWhile
          (fun h => !stops w symb (w.homonym h)) ∧
        fits g w item (w.homonym h) symb = true := by
  have hlen' : ({ w with homonyms } : CWord H).homonyms.length ≤ 32 := by
    rw [← hperm.length_eq]
    exact hlen
  unfold Assigned
  rw [hsign, guard_perm hperm, denied_perm hlen hperm, live32_eq hlen']
  have hfits : ∀ hom, fits g ({ w with homonyms } : CWord H) item hom symb =
      fits g w item hom symb := by
    intro hom
    cases symb <;> rfl
  simp only [Bool.false_eq_true, if_false, hfits]
  tauto

theorem checkWordPostfix_perm {item : CGrammarItem} (hlen : w.homonyms.length ≤ 32)
    (hperm : w.homonyms.Perm homonyms) (hodd : ¬ OddOneOut g w item) :
    checkWordPostfix g first { w with homonyms } item = checkWordPostfix g first w item := by
  rw [checkWordPostfix_eq, @checkWordPostfix_eq _ g first w, otherPostfixes_perm hperm]
  by_cases hasked : item.nohomonyms = .noHomonyms
  · rw [checkNoHomonyms_perm hlen hperm hasked hodd]
  · simp [hasked]

/-- Unless the order decides, a homonym has the terminal in every order. -/
theorem assigned_of_not_orderDecides {item : CGrammarItem} {symb : ETerminals} {h : H}
    {homonyms' : List H} (hlen : w.homonyms.length ≤ 32) (hperm : w.homonyms.Perm homonyms)
    (hperm' : w.homonyms.Perm homonyms') (hnot : ¬ OrderDecides g first w item symb)
    (hassigned : Assigned g first { w with homonyms } item symb h) :
    Assigned g first { w with homonyms := homonyms' } item symb h := by
  cases hsign : isSign symb with
  | true =>
    unfold Assigned at hassigned ⊢
    rw [hsign, if_pos rfl, guard_perm hperm] at hassigned
    rw [hsign, if_pos rfl, guard_perm hperm']
    exact ⟨hassigned.1, hperm'.mem_iff.mp (hperm.mem_iff.mpr hassigned.2)⟩
  | false =>
    rw [assigned_order_iff hlen hperm hsign] at hassigned
    rw [assigned_order_iff hlen hperm' hsign]
    obtain ⟨hguard, hdenied, hcheck, hmem, hfits⟩ := hassigned
    have hlen₁ : ({ w with homonyms } : CWord H).homonyms.length ≤ 32 := by
      rw [← hperm.length_eq]
      exact hlen
    have hlive := List.takeWhile_subset _ hmem
    have hstops := List.mem_takeWhile_imp hmem
    have hlive' : h ∈ w.live := (live_perm hperm).mem_iff.mpr hlive
    have hother : checkWordPostfix g first w (otherPostfixes item) = true := by
      rw [checkWordPostfix_eq, Bool.and_eq_true] at hcheck
      rw [← otherPostfixes_perm hperm]
      exact hcheck.1
    have hstop : stops w symb (w.homonym h) = false := by simpa using hstops
    by_cases hodd : OddOneOut g w item
    · exfalso
      -- the odd one stands first and ends the loop at once
      have hcheck' := hcheck
      rw [checkWordPostfix_eq, Bool.and_eq_true] at hcheck'
      have hno : checkNoHomonyms g { w with homonyms } item = true := by
        have := hcheck'.2
        rw [hodd.1] at this
        simpa using this
      rw [checkNoHomonyms_odd hlen₁ ((oddOneOut_perm hperm).mpr hodd)] at hno
      obtain ⟨a, rest, hcons, ha⟩ := hno
      have hamem : a ∈ w.live := by
        rw [(live_perm hperm).mem_iff, hcons]
        exact List.mem_cons_self
      have hastop : stops w symb (w.homonym a) = true := by
        by_contra hne
        exact hnot ⟨hguard, hsign, hdenied, hother, ⟨h, hlive', hstop, hfits⟩,
          Or.inl ⟨hodd, a, hamem, ha, eq_false_of_ne_true hne⟩⟩
      rw [hcons, List.takeWhile_cons, if_neg (by simp [hastop])] at hmem
      cases hmem
    · rw [checkWordPostfix_perm hlen hperm hodd] at hcheck
      have hcheck' := @checkWordPostfix_perm _ g first w homonyms' item hlen hperm' hodd
      refine ⟨hguard, hdenied, hcheck'.trans hcheck, ?_, hfits⟩
      have hnostop : ∀ x ∈ ({ w with homonyms := homonyms' } : CWord H).live,
          (!stops w symb (w.homonym x)) = true := by
        intro x hx
        by_contra hne
        refine hnot ⟨hguard, hsign, hdenied, hother, ⟨h, hlive', hstop, hfits⟩,
          Or.inr ⟨hodd, hcheck, x, (live_perm hperm').mem_iff.mpr hx, ?_⟩⟩
        simpa using hne
      rw [List.takeWhile_eq_self_iff.mpr hnostop]
      exact (live_perm hperm').mem_iff.mp hlive'

end

theorem exists_order_cons {a : H} (h : a ∈ w.live) :
    ∃ homonyms, w.homonyms.Perm homonyms ∧
      ({ w with homonyms } : CWord H).live = a :: w.live.erase a :=
  exists_order (List.perm_cons_erase h)

/-- Where the order decides, one order gives some homonym the terminal and another does not. -/
theorem exists_orders_of_orderDecides {item : CGrammarItem} {symb : ETerminals}
    (hlen : w.homonyms.length ≤ 32) (hdecides : OrderDecides g first w item symb) :
    ∃ homonyms homonyms' h, w.homonyms.Perm homonyms ∧ w.homonyms.Perm homonyms' ∧
      Assigned g first { w with homonyms } item symb h ∧
      ¬ Assigned g first { w with homonyms := homonyms' } item symb h := by
  obtain ⟨hguard, hsign, hdenied, hother, ⟨h, hlive, hstop, hfits⟩, hwhy⟩ := hdecides
  have hlen' : ∀ {homs}, w.homonyms.Perm homs →
      ({ w with homonyms := homs } : CWord H).homonyms.length ≤ 32 := by
    intro homs hhoms
    rw [← hhoms.length_eq]
    exact hlen
  rcases hwhy with ⟨hodd, d, hd, hdgeo, hdstop⟩ | ⟨hodd, hcheck, a, ha, hastop⟩
  · -- the odd one in front, and then the homonym itself
    have hfront : ∃ live, w.live.Perm live ∧ (∃ rest, live = d :: rest) ∧
        h ∈ live.takeWhile fun h => !stops w symb (w.homonym h) := by
      by_cases heq : h = d
      · subst heq
        refine ⟨h :: w.live.erase h, List.perm_cons_erase hd, ⟨_, rfl⟩, ?_⟩
        simp [hstop]
      · have hmem : h ∈ w.live.erase d := (List.mem_erase_of_ne heq).mpr hlive
        refine ⟨d :: h :: (w.live.erase d).erase h,
          (List.perm_cons_erase hd).trans ((List.perm_cons_erase hmem).cons d), ⟨_, rfl⟩, ?_⟩
        simp [hstop, hdstop]
    obtain ⟨live, hperm, ⟨rest, hcons⟩, htake⟩ := hfront
    obtain ⟨homonyms, hhoms, hlive₁⟩ := exists_order hperm
    -- a geographical one in front
    have hother_geo : ∃ e ∈ w.live, isGeographical item (w.homonym e) = true := by
      by_contra hnone
      have hcount := hodd.2.2.2.2.2
      have hall : w.live.countP (fun h => !isGeographical item (w.homonym h)) = w.live.length := by
        rw [List.countP_eq_length]
        intro x hx
        by_contra hne
        exact hnone ⟨x, hx, by simpa using hne⟩
      have := hodd.2.2.2.2.1
      omega
    obtain ⟨e, he, hegeo⟩ := hother_geo
    obtain ⟨homonyms', hhoms', hlive₂⟩ := exists_order_cons he
    refine ⟨homonyms, homonyms', h, hhoms, hhoms', ?_, ?_⟩
    · rw [assigned_order_iff hlen hhoms hsign]
      refine ⟨hguard, hdenied, ?_, by rw [hlive₁]; exact htake, hfits⟩
      rw [checkWordPostfix_eq, otherPostfixes_perm hhoms, hother,
        (checkNoHomonyms_odd (hlen' hhoms) ((oddOneOut_perm hhoms).mpr hodd)).mpr
          ⟨d, rest, hlive₁.trans hcons, hdgeo⟩]
      simp
    · rw [assigned_order_iff hlen hhoms' hsign]
      rintro ⟨-, -, hcheck, -⟩
      rw [checkWordPostfix_eq, Bool.and_eq_true, hodd.1] at hcheck
      have hno : checkNoHomonyms g { w with homonyms := homonyms' } item = true := by
        simpa using hcheck.2
      rw [checkNoHomonyms_odd (hlen' hhoms') ((oddOneOut_perm hhoms').mpr hodd)] at hno
      obtain ⟨b, rest', hcons', hb⟩ := hno
      rw [hlive₂, List.cons.injEq] at hcons'
      have hb' : isGeographical item (w.homonym b) = false := hb
      rw [← hcons'.1, hegeo] at hb'
      cases hb'
  · obtain ⟨homonyms, hhoms, hlive₁⟩ := exists_order_cons hlive
    obtain ⟨homonyms', hhoms', hlive₂⟩ := exists_order_cons ha
    refine ⟨homonyms, homonyms', h, hhoms, hhoms', ?_, ?_⟩
    · rw [assigned_order_iff hlen hhoms hsign]
      refine ⟨hguard, hdenied, ?_, ?_, hfits⟩
      · rw [checkWordPostfix_perm hlen hhoms hodd]
        exact hcheck
      · rw [hlive₁]
        simp [hstop]
    · rw [assigned_order_iff hlen hhoms' hsign]
      rintro ⟨-, -, -, hmem, -⟩
      rw [hlive₂] at hmem
      simp [hastop] at hmem

theorem buildTerminalSymbols_inside (heos : w.isEndOfStreamWord = false)
    (hinside : (first ≤ w.firstWord && w.lastWord ≤ last) = true) :
    buildTerminalSymbols g first last w (Symbols.cleared H) =
      some (uniteHomonymsTerminalSymbols w (allTerminals g first w)) := by
  simp [buildTerminalSymbols, heos, hinside, allTerminals]

/-- What the word for the end of the stream gets. -/
def eosSymbols (g : CWorkGrammar) (live : List H) (s : Symbols H) : Option (Symbols H) :=
  match g.eosentNum with
  | some eosent =>
    match live with
    | [h] =>
      let s := s.addTerminalSymbol h eosent
      some { s with word := insert g.endOfStreamSymbol (insert eosent s.word) }
    | _ => none
  | none => some { s with word := insert g.endOfStreamSymbol s.word }

theorem buildTerminalSymbols_eos (heos : w.isEndOfStreamWord = true) {s : Symbols H} :
    buildTerminalSymbols g first last w s = eosSymbols g w.live s := by
  rw [buildTerminalSymbols, if_pos heos]
  rfl

theorem eosSymbols_perm {live live' : List H} (h : live.Perm live') {s : Symbols H} :
    eosSymbols g live s = eosSymbols g live' s := by
  have hlength := h.length_eq
  cases live with
  | nil => rw [h.symm.eq_nil]
  | cons a rest =>
    cases rest with
    | nil => rw [h.symm.eq_singleton]
    | cons b rest =>
      obtain ⟨a', b', rest', rfl⟩ : ∃ a' b' rest', live' = a' :: b' :: rest' := by
        match live', hlength with
        | a' :: b' :: rest', _ => exact ⟨a', b', rest', rfl⟩
      rfl

/-- The terminals of the homonyms and of the word do not depend on the order of the homonyms,
unless the order decides about some terminal of the grammar. -/
theorem buildTerminalSymbols_orderFree_iff (g : CWorkGrammar) (first last : ℕ) (w : CWord H)
    (hlen : w.homonyms.length ≤ 32) :
    OrderFree g first last w ↔
      (w.isEndOfStreamWord = false → (first ≤ w.firstWord && w.lastWord ≤ last) = true →
        ∀ t symb, (t, symb) ∈ g.uniqueGrammarTerminalIDs →
          ¬ OrderDecides g first w (g.uniqueGrammarItems t) symb) := by
  constructor
  · intro hfree heos hinside t symb hmem hdecides
    obtain ⟨homonyms, homonyms', h, hperm, hperm', hassigned, hnot⟩ :=
      exists_orders_of_orderDecides hlen hdecides
    have hequal := (hfree homonyms hperm).trans (hfree homonyms' hperm').symm
    rw [@buildTerminalSymbols_inside _ _ g first last { w with homonyms } heos hinside,
      @buildTerminalSymbols_inside _ _ g first last { w with homonyms := homonyms' } heos hinside,
      Option.some.injEq] at hequal
    have hhomonym : (allTerminals g first { w with homonyms }).homonym h =
        (allTerminals g first { w with homonyms := homonyms' }).homonym h :=
      congrFun (congrArg Symbols.homonym hequal) h
    have ht : t ∈ (allTerminals g first { w with homonyms }).homonym h :=
      mem_allTerminals.mpr ⟨symb, hmem, hassigned⟩
    rw [hhomonym, mem_allTerminals] at ht
    obtain ⟨symb', hmem', hassigned'⟩ := ht
    have hsymb : symb = symb' := by
      have := List.inj_on_of_nodup_map g.nodup hmem hmem' rfl
      rw [Prod.mk.injEq] at this
      exact this.2
    exact hnot (hsymb ▸ hassigned')
  · intro hnot homonyms hperm
    by_cases heos : w.isEndOfStreamWord = true
    · have hlive := live_perm hperm
      rw [buildTerminalSymbols_eos (w := { w with homonyms }) heos, buildTerminalSymbols_eos heos]
      exact (eosSymbols_perm hlive).symm
    · have heos' : w.isEndOfStreamWord = false := eq_false_of_ne_true heos
      by_cases hinside : (first ≤ w.firstWord && w.lastWord ≤ last) = true
      · have hterminal := hnot heos' hinside
        rw [@buildTerminalSymbols_inside _ _ g first last { w with homonyms } heos' hinside,
          @buildTerminalSymbols_inside _ _ g first last w heos' hinside]
        have hhomonym : (allTerminals g first { w with homonyms }).homonym =
            (allTerminals g first w).homonym := by
          funext h
          ext t
          rw [mem_allTerminals, mem_allTerminals]
          constructor
          · rintro ⟨symb, hmem, hassigned⟩
            exact ⟨symb, hmem, assigned_of_not_orderDecides hlen hperm (List.Perm.refl _)
              (hterminal t symb hmem) hassigned⟩
          · rintro ⟨symb, hmem, hassigned⟩
            exact ⟨symb, hmem, assigned_of_not_orderDecides hlen (List.Perm.refl _) hperm
              (hterminal t symb hmem) hassigned⟩
        have hword : (uniteHomonymsTerminalSymbols { w with homonyms }
            (allTerminals g first { w with homonyms })).word =
            (uniteHomonymsTerminalSymbols w (allTerminals g first w)).word := by
          ext t
          simp only [uniteHomonymsTerminalSymbols, mem_foldl_union, hhomonym,
            (live_perm hperm).mem_iff]
        rw [Option.some.injEq]
        exact Symbols.ext hhomonym hword
      · have hinside' := eq_false_of_ne_true hinside
        simp [buildTerminalSymbols, heos', hinside']

/-- A word that names a bird and a town, in this order. -/
def birdAndTown : CWord (Fin 2) where
  homonyms := [0, 1]
  homonym := fun h =>
    if h = 0 then { grammems := [.substantive] }
    else
      { grammems := [.substantive, .geo]
        matchArticlePtr := fun p => p.kwType = some 7 || !p.isValid }
  bUp := true

/-- Any word of a geographical type without other homonyms. -/
def townGrammar : CWorkGrammar where
  uniqueGrammarItems := fun _ =>
    { nohomonyms := .noHomonyms, dictKWType := { kwType := some 7 } }
  uniqueGrammarTerminalIDs := [(0, .anyWord)]
  nodup := by decide
  isGeoKWType := fun kwType => kwType = 7

/-- The order in which the bird is first decides about the only terminal. -/
theorem buildTerminalSymbols_orderFree_iff_birdAndTown :
    OrderFree townGrammar 0 0 birdAndTown ↔
      (birdAndTown.isEndOfStreamWord = false →
        (0 ≤ birdAndTown.firstWord && birdAndTown.lastWord ≤ 0) = true →
        ∀ t symb, (t, symb) ∈ townGrammar.uniqueGrammarTerminalIDs →
          ¬ OrderDecides townGrammar 0 birdAndTown (townGrammar.uniqueGrammarItems t) symb) :=
  buildTerminalSymbols_orderFree_iff townGrammar 0 0 birdAndTown (by decide)

/-- If the bird stands first the town gets the terminal, otherwise nothing does. -/
theorem birdAndTown_not_orderFree : ¬ OrderFree townGrammar 0 0 birdAndTown := by
  intro hfree
  have hswapped := hfree [1, 0] (List.Perm.swap 1 0 [])
  have htown := congrArg (Option.map fun s : Symbols (Fin 2) => s.homonym 1) hswapped
  exact absurd htown (by decide)

end CTerminalsAssigner
end TomitaParser.Rusie
