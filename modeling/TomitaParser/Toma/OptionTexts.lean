import Mathlib.Data.Finite.Prod
import Mathlib.Data.Finset.Sort
import Mathlib.Data.Set.Finite.Lattice
import Mathlib.Data.Set.Finite.Powerset
import TomitaParser.Toma.Downgrade
/-! # Texts of downgraded options

The texts that options of terminal type can have while they are moved down come from finitely many:
merged keywords are sets of words that were there before. -/

namespace TomitaParser
open OrderedSet OptionPrinter TerminalPostfixSet

/-- The texts that are printed among options as terminal ones. -/
def terminalTexts (options : List TypedOption) : List String :=
  (options.filter (·.type == .terminal)).map (·.text)

@[simp] theorem terminalTexts_append (as bs : List TypedOption) :
    terminalTexts (as ++ bs) = terminalTexts as ++ terminalTexts bs := by
  simp [terminalTexts]

@[simp] theorem terminalTexts_pushOption (text : String) :
    terminalTexts (pushOption text .terminal) = [text].filter (· ≠ "") := by
  rw [pushOption]
  split_ifs with h <;> simp [terminalTexts, h]

theorem terminalTexts_pushOption_of_ne (text : String) {kind : OptionKind}
    (h : kind ≠ .terminal) : terminalTexts (pushOption text kind) = [] := by
  rw [pushOption]
  split_ifs <;> simp [terminalTexts, h]

@[simp] theorem terminalTexts_flatMap_of_ne {α : Type} (l : List α) (f : α → String)
    {kind : OptionKind} (h : kind ≠ .terminal) :
    terminalTexts (l.flatMap fun a => pushOption (f a) kind) = [] := by
  induction l with
  | nil => rfl
  | cons a l ih =>
    rw [List.flatMap_cons, terminalTexts_append, ih, terminalTexts_pushOption_of_ne _ h]
    rfl

/-- The printed terminal options apart from keywords and labels. -/
def simpleTexts (p : PostfixProto) : List String :=
  [printBool p.bastard "~dict", printBool p.noPrep "~prep", printBool p.noHom "~hom",
    printBool p.lReg "lreg", printBool p.hReg "hreg", printBool p.hReg1 "hreg1",
    printEOption p.hReg2 "hreg2", printEOption p.latin "lat", printEOption p.isName "name",
    printEOption p.isGeo "geo", printEOption p.multiWord "mw", printBool p.excludeFromNorm "cut"]

theorem terminalTexts_collect {term : TermProto} (hnt : term.type = .nonTerminal) :
    terminalTexts (collectTypedOptions term) =
      (simpleTexts term.termPostfix ++ [printKeywords term.termPostfix.kwType "kw",
        printKeywords term.termPostfix.label "label"]).filter (· ≠ "") := by
  obtain ⟨name, type, p⟩ := term
  dsimp only at hnt
  subst hnt
  have hquot : terminalTexts (if p.leftQuoted = p.rightQuoted then
        pushOption (printEOption p.leftQuoted "quot") .reduce
      else pushOption (printEOption p.leftQuoted "lquot") .reduce ++
        pushOption (printEOption p.rightQuoted "rquot") .reduce) = [] := by
    split_ifs <;> simp [terminalTexts_pushOption_of_ne]
  simp only [collectTypedOptions, terminalTexts_append, terminalTexts_pushOption, hquot]
  simp [terminalTexts_pushOption_of_ne, simpleTexts, ← List.filter_append]
  cases p.gztWeight with
  | none => rfl
  | some w => exact terminalTexts_pushOption_of_ne _ (by decide)

theorem mem_extract {term : TermProto} (hnt : term.type = .nonTerminal) {text : String} :
    text ∈ extract term ↔ (text ∈ simpleTexts term.termPostfix ∨
      text = printKeywords term.termPostfix.kwType "kw" ∨
      text = printKeywords term.termPostfix.label "label") ∧ text ≠ "" := by
  have h : extract term = insertAll textLt (terminalTexts (collectTypedOptions term)) [] := rfl
  rw [h, mem_insertAll_textLt, terminalTexts_collect hnt]
  simp only [List.not_mem_nil, or_false, List.mem_filter, List.mem_append, List.mem_cons,
    decide_eq_true_eq]

theorem extract_clear {term : TermProto} (hnt : term.type = .nonTerminal) (name : String) :
    extract { term with name := name, termPostfix := clear term.termPostfix } = [] := by
  apply List.eq_nil_iff_forall_not_mem.mpr
  intro text htext
  have hmem := (@mem_extract { term with name := name, termPostfix := clear term.termPostfix } hnt
    text).mp htext
  apply hmem.2
  simpa [simpleTexts, clear, printBool, printEOption, printKeywords] using hmem.1

theorem no_terminal_of_extract {term : TermProto} (h : extract term = []) :
    ∀ o ∈ collectTypedOptions term, o.type ≠ .terminal := by
  intro o ho htype
  have : o.text ∈ extract term := by
    rw [extract, mem_insertAll_textLt]
    exact Or.inl (List.mem_map_of_mem (List.mem_filter.mpr ⟨ho, beq_iff_eq.mpr htype⟩))
  rw [h] at this
  exact absurd this List.not_mem_nil

theorem textLt_trans (a b c : String) (hab : textLt a b = true) (hbc : textLt b c = true) :
    textLt a c = true := by
  simp only [textLt, decide_eq_true_eq] at *
  exact hab.trans hbc

/-- A set over `U` as it is kept, in order. -/
def SortedTexts (U : Set String) (l : List String) : Prop :=
  l.Pairwise (textLt · · = true) ∧ ∀ t ∈ l, t ∈ U

theorem sortedTexts_nil (U : Set String) : SortedTexts U [] := ⟨List.Pairwise.nil, by simp⟩

theorem SortedTexts.insertAll {U : Set String} {l as : List String} (h : SortedTexts U l)
    (has : ∀ t ∈ as, t ∈ U) : SortedTexts U (insertAll textLt as l) := by
  refine ⟨pairwise_insertAll textLt_trans h.1, fun t ht => ?_⟩
  exact (mem_insertAll_textLt.mp ht).elim (has t) (h.2 t)

theorem finite_sortedTexts {U : Set String} (hU : U.Finite) :
    {l : List String | SortedTexts U l}.Finite := by
  apply Set.Finite.subset (hU.toFinset.powerset.finite_toSet.image fun s => s.sort (· ≤ ·))
  rintro l ⟨hsorted, hsub⟩
  have hlt : l.Pairwise (· < ·) := hsorted.imp fun h => by simpa [textLt] using h
  refine ⟨l.toFinset, ?_, ?_⟩
  · rw [Finset.mem_coe, Finset.mem_powerset]
    intro t ht
    exact hU.mem_toFinset.mpr (hsub t (List.mem_toFinset.mp ht))
  · exact (List.toFinset_sort (· ≤ ·) (hlt.imp fun h => h.ne)).mpr (hlt.imp fun h => h.le)

/-- Keywords taken over from `O`, or put together of words from there. -/
def Arises (O : List KeyWordsProto) (k : KeyWordsProto) : Prop :=
  k.keyWord = [] ∨ k.keyWord ∈ O.map (·.keyWord) ∨
    SortedTexts {w | ∃ o ∈ O, w ∈ o.keyWord} k.keyWord

theorem Arises.words {O : List KeyWordsProto} {k : KeyWordsProto} (h : Arises O k) :
    ∀ w ∈ k.keyWord, w ∈ {w | ∃ o ∈ O, w ∈ o.keyWord} := by
  intro w hw
  rcases h with h | h | h
  · simp [h] at hw
  · obtain ⟨o, ho, heq⟩ := List.mem_map.mp h
    exact ⟨o, ho, heq ▸ hw⟩
  · exact h.2 w hw

theorem Arises.mergeKeywords {O : List KeyWordsProto} {src dst : KeyWordsProto}
    (hs : Arises O src) (hd : Arises O dst) : Arises O (mergeKeywords src dst) := by
  rw [TerminalPostfixSet.mergeKeywords]
  split_ifs
  · exact hd
  · exact hs
  · exact hd
  · apply Or.inr
    apply Or.inr
    apply (sortedTexts_nil _).insertAll
    intro w hw
    exact (List.mem_append.mp hw).elim (hs.words w) (hd.words w)

theorem finite_arises (O : List KeyWordsProto) : {k | Arises O k}.Finite := by
  have hwords : {w | ∃ o ∈ O, w ∈ o.keyWord}.Finite := by
    apply (O.flatMap (·.keyWord)).finite_toSet.subset
    rintro w ⟨o, ho, hw⟩
    exact List.mem_flatMap.mpr ⟨o, ho, hw⟩
  have hlists : ({[]} ∪ ({l | l ∈ O.map (·.keyWord)} ∪
      {l | SortedTexts {w | ∃ o ∈ O, w ∈ o.keyWord} l})).Finite :=
    (Set.finite_singleton []).union
      ((List.finite_toSet (O.map (·.keyWord))).union (finite_sortedTexts hwords))
  apply ((hlists.prod (Set.finite_univ (α := Bool × Bool))).image fun x =>
    (⟨x.1, x.2.1, x.2.2⟩ : KeyWordsProto)).subset
  intro k hk
  exact ⟨(k.keyWord, k.negative, k.firstWord), ⟨hk, trivial⟩, rfl⟩

/-- The texts that options can have. -/
def Texts (O : List KeyWordsProto) : Set String :=
  {t | ∃ p, t ∈ simpleTexts p} ∪
    ((printKeywords · "kw") '' {k | Arises O k} ∪ (printKeywords · "label") '' {k | Arises O k})

theorem finite_texts (O : List KeyWordsProto) : (Texts O).Finite := by
  have hsimple : {t | ∃ p, t ∈ simpleTexts p}.Finite := by
    let names := ["~dict", "~prep", "~hom", "lreg", "hreg", "hreg1", "hreg2", "lat", "name", "geo",
      "mw", "cut"]
    apply ("" :: (names ++ names.map ("~" ++ ·))).finite_toSet.subset
    rintro t ⟨p, ht⟩
    have hbool : ∀ b, ∀ name ∈ names, printBool b name ∈ "" :: (names ++ names.map ("~" ++ ·)) := by
      intro b name hname
      cases b with
      | false => exact List.mem_cons_self
      | true => exact List.mem_cons_of_mem _ (List.mem_append_left _ hname)
    have heoption : ∀ e, ∀ name ∈ names,
        printEOption e name ∈ "" :: (names ++ names.map ("~" ++ ·)) := by
      intro e name hname
      cases e with
      | undef => exact List.mem_cons_self
      | deny =>
        exact List.mem_cons_of_mem _ (List.mem_append_right _ (List.mem_map_of_mem hname))
      | allow => exact List.mem_cons_of_mem _ (List.mem_append_left _ hname)
    simp only [simpleTexts, List.mem_cons, List.not_mem_nil, or_false] at ht
    rcases ht with rfl | rfl | rfl | rfl | rfl | rfl | rfl | rfl | rfl | rfl | rfl | rfl
    all_goals first
      | exact hbool _ _ (by simp [names])
      | exact heoption _ _ (by simp [names])
  exact hsimple.union (((finite_arises O).image _).union ((finite_arises O).image _))

theorem extract_sortedTexts {O : List KeyWordsProto} {term : TermProto}
    (hnt : term.type = .nonTerminal) (hkw : Arises O term.termPostfix.kwType)
    (hlabel : Arises O term.termPostfix.label) : SortedTexts (Texts O) (extract term) := by
  constructor
  · exact pairwise_insertAll textLt_trans List.Pairwise.nil
  · intro t ht
    rcases ((mem_extract hnt).mp ht).1 with h | rfl | rfl
    · exact Or.inl ⟨_, h⟩
    · exact Or.inr (Or.inl ⟨_, hkw, rfl⟩)
    · exact Or.inr (Or.inr ⟨_, hlabel, rfl⟩)

end TomitaParser
