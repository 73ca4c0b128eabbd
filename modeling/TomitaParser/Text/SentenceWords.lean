import TomitaParser.Text.Sentences
/-! # The words of a sentence

What the words of a sentence stand for: each group of the stretch once and in order, unless two
quotes close the same word. -/

namespace TomitaParser.Text
variable {isQuotation : ℕ → Bool}

/-- What is read off a word: its group, and its marks for quotes. -/
inductive Reading
  | word (no : ℕ)
  | mark (bSingle : Bool)
deriving DecidableEq, Repr

def WordBase.readings (w : WordBase) : List Reading :=
  (if w.bHasOpenQuote then [.mark w.bSingleOpenQuote] else []) ++ [.word w.no] ++
    (if w.bHasCloseQuote then [.mark w.bSingleCloseQuote] else [])

/-- A mark stands for a quote, and a word for its group. -/
def Represents (isQuotation : ℕ → Bool) : Reading → TextGroup → Prop
  | .word no, g => no = g.no
  | .mark bSingle, g =>
    WordBase.isQuote isQuotation g.text = true ∧ bSingle = WordBase.isSingleQuote g.text

/-- The words stand for each group of the stretch, once and in order. -/
def Represented (isQuotation : ℕ → Bool) (words : List WordBase) (stretch : List TextGroup) :
    Prop :=
  List.Forall₂ (Represents isQuotation) (words.flatMap WordBase.readings)
    (stretch.filter TextGroup.isToken)

/-- A quote behind some groups that are no tokens, and not behind a space, or a symbol. -/
def ClosesAfter (isQuotation : ℕ → Bool) (gap : List TextGroup) (q : TextGroup) : Prop :=
  (∀ g ∈ gap, g.isToken = false) ∧ q.isToken = true ∧
    WordBase.isQuote isQuotation q.text = true ∧
    (q.gtyp = .symbol ∨ gap.getLast?.any TextGroup.isNZ = false)

/-- A word that can be closed by a quote. -/
def Closable (isQuotation : ℕ → Bool) (g : TextGroup) : Prop :=
  g.isToken = true ∧ WordBase.isQuote isQuotation g.text = false ∧
    canAddCloseQuote (createWord g) = true

/-- Two quotes close one word. -/
def TwoClosingQuotes (isQuotation : ℕ → Bool) (stretch : List TextGroup) : Prop :=
  ∃ before g gap q gap' q' after,
    stretch = before ++ g :: (gap ++ q :: (gap' ++ q' :: after)) ∧ Closable isQuotation g ∧
      ClosesAfter isQuotation gap q ∧ ClosesAfter isQuotation gap' q'

theorem TwoClosingQuotes.append {stretch : List TextGroup}
    (h : TwoClosingQuotes isQuotation stretch) (rest : List TextGroup) :
    TwoClosingQuotes isQuotation (stretch ++ rest) := by
  obtain ⟨before, g, gap, q, gap', q', after, rfl, hg, hq, hq'⟩ := h
  exact ⟨before, g, gap, q, gap', q', after ++ rest, by simp, hg, hq, hq'⟩

@[simp] theorem readings_createWord (g : TextGroup) :
    (createWord g).readings = [.word g.no] := rfl

@[simp] theorem readings_createQuoteWord (g : TextGroup) :
    (createQuoteWord g).readings = [.word g.no] := rfl

theorem readings_putIsOpenQuote (g : TextGroup) (bSingle : Bool) :
    ((createWord g).putIsOpenQuote bSingle).readings = [.mark bSingle, .word g.no] := rfl

theorem readings_putIsCloseQuote {w : WordBase} (h : w.bHasCloseQuote = false) (bSingle : Bool) :
    (w.putIsCloseQuote bSingle).readings = w.readings ++ [.mark bSingle] := by
  have hopen : w.readings =
      (if w.bHasOpenQuote then [.mark w.bSingleOpenQuote] else []) ++ [.word w.no] := by
    rw [WordBase.readings, h]
    simp
  rw [hopen]
  rfl

/-- The word is that of a group, perhaps with marks. -/
def IsWordOf (w : WordBase) (g : TextGroup) : Prop :=
  w.typ = (createWord g).typ ∧ w.txt = (createWord g).txt

theorem IsWordOf.canAddCloseQuote {w : WordBase} {g : TextGroup} (h : IsWordOf w g) :
    canAddCloseQuote w = canAddCloseQuote (createWord g) := by
  cases w with
  | mk no typ txt bHasOpenQuote bSingleOpenQuote bHasCloseQuote bSingleCloseQuote =>
    obtain ⟨htyp, htxt⟩ := h
    dsimp only at htyp htxt
    rw [htyp, htxt]
    rfl

/-- The last word, closed or not, and the groups since. -/
inductive LastWord (isQuotation : ℕ → Bool) (done : List TextGroup) (w : WordBase) : Prop
  | opened (before : List TextGroup) (g : TextGroup) (gap : List TextGroup)
      (heq : done = before ++ g :: gap) (hword : IsWordOf w g) (htoken : g.isToken = true)
      (hquote : WordBase.isQuote isQuotation g.text = false)
      (hgap : ∀ x ∈ gap, x.isToken = false) (hclose : w.bHasCloseQuote = false)
  | closed (before : List TextGroup) (g : TextGroup) (gap : List TextGroup) (q : TextGroup)
      (gap' : List TextGroup) (heq : done = before ++ g :: (gap ++ q :: gap'))
      (hword : IsWordOf w g) (hg : Closable isQuotation g)
      (hq : ClosesAfter isQuotation gap q) (hgap : ∀ x ∈ gap', x.isToken = false)

/-- What holds after some groups of a stretch. -/
structure After (isQuotation : ℕ → Bool) (done : List TextGroup) (s : SentenceState) : Prop where
  represented : ∃ tokens, List.Forall₂ (Represents isQuotation)
      (s.words.flatMap WordBase.readings) tokens ∧
    done.filter TextGroup.isToken = tokens ++ s.prevQuote.toList
  quote : ∀ q, s.prevQuote = some q → WordBase.isQuote isQuotation q.text = true
  space : s.bPrevSpace = done.getLast?.any TextGroup.isNZ
  word : s.prevQuote = none →
    (s.prevWord = none ∨ ∃ words w, s.words = words ++ [w] ∧ s.prevWord = some words.length ∧
      LastWord isQuotation done w)

theorem after_init : After isQuotation [] {} where
  represented := ⟨[], List.Forall₂.nil, rfl⟩
  quote := by simp
  space := rfl
  word := fun _ => Or.inl rfl

theorem LastWord.skip {done : List TextGroup} {w : WordBase} {g : TextGroup}
    (h : LastWord isQuotation done w) (hg : g.isToken = false) :
    LastWord isQuotation (done ++ [g]) w := by
  have hadd : ∀ {gap : List TextGroup}, (∀ x ∈ gap, x.isToken = false) →
      ∀ x ∈ gap ++ [g], x.isToken = false := by
    intro gap hgap x hx
    rcases List.mem_append.mp hx with hx | hx
    · exact hgap x hx
    · rw [List.mem_singleton] at hx
      rw [hx]
      exact hg
  cases h with
  | opened before g' gap heq hword htoken hquote hgap hclose =>
    exact .opened before g' (gap ++ [g]) (by simp [heq]) hword htoken hquote (hadd hgap) hclose
  | closed before g' gap q gap' heq hword hg' hq hgap =>
    exact .closed before g' gap q (gap' ++ [g]) (by simp [heq]) hword hg' hq (hadd hgap)

theorem After.skip {done : List TextGroup} {s : SentenceState} {g : TextGroup}
    (h : After isQuotation done s) (hg : g.isToken = false) :
    After isQuotation (done ++ [g]) { s with bPrevSpace := g.isNZ } where
  represented := by
    obtain ⟨tokens, hrep, htokens⟩ := h.represented
    refine ⟨tokens, hrep, ?_⟩
    rw [List.filter_append, htokens]
    simp [hg]
  quote := h.quote
  space := by simp
  word := by
    intro hnone
    rcases h.word hnone with hno | ⟨words, w, hwords, hprev, hlast⟩
    · exact Or.inl hno
    · exact Or.inr ⟨words, w, hwords, hprev, hlast.skip hg⟩

theorem isNZ_eq_false {g : TextGroup} (hg : g.isToken = true) : g.isNZ = false := by
  simp only [TextGroup.isToken, Bool.and_eq_true, Bool.not_eq_true'] at hg
  exact hg.1

theorem filter_isToken_append {done : List TextGroup} {g : TextGroup} (hg : g.isToken = true) :
    (done ++ [g]).filter TextGroup.isToken = done.filter TextGroup.isToken ++ [g] := by
  rw [List.filter_append]
  simp [hg]

/-- A word, with the quote in front of it. -/
theorem After.addWord {done : List TextGroup} {s : SentenceState} {g : TextGroup}
    (h : After isQuotation done s) (hg : g.isToken = true)
    (hquote : WordBase.isQuote isQuotation g.text = false) (bPrevSpace : Bool) :
    After isQuotation (done ++ [g]) (addWord { s with bPrevSpace } g) := by
  obtain ⟨tokens, hrep, htokens⟩ := h.represented
  have hlast : ∀ w : WordBase, IsWordOf w g → w.bHasCloseQuote = false →
      LastWord isQuotation (done ++ [g]) w := fun w hw hclose =>
    .opened done g [] rfl hw hg hquote (by simp) hclose
  have hword : Represents isQuotation (.word g.no) g := rfl
  rcases Option.eq_none_or_eq_some s.prevQuote with hprev | ⟨q, hprev⟩
  · rw [hprev, Option.toList_none, List.append_nil] at htokens
    have hstate : Text.addWord { s with bPrevSpace } g =
        ⟨none, false, some s.words.length, s.words ++ [createWord g]⟩ := by
      simp [Text.addWord, hprev]
    rw [hstate]
    refine ⟨⟨tokens ++ [g], ?_, ?_⟩, by simp, by simp [isNZ_eq_false hg], fun _ =>
      Or.inr ⟨s.words, createWord g, rfl, rfl, hlast _ ⟨rfl, rfl⟩ rfl⟩⟩
    · rw [List.flatMap_append]
      exact List.rel_append hrep (List.Forall₂.cons hword List.Forall₂.nil)
    · rw [filter_isToken_append hg, htokens]
      simp
  · rw [hprev, Option.toList_some] at htokens
    have hq := h.quote q hprev
    by_cases hopen : (!bPrevSpace && !(createWord g).isPunct) = true
    · have hstate : Text.addWord { s with bPrevSpace } g = ⟨none, false, some s.words.length,
          s.words ++ [(createWord g).putIsOpenQuote (WordBase.isSingleQuote q.text)]⟩ := by
        simp only [Text.addWord, hprev, hopen, if_true]
      rw [hstate]
      refine ⟨⟨tokens ++ [q, g], ?_, ?_⟩, by simp, by simp [isNZ_eq_false hg], fun _ =>
        Or.inr ⟨s.words, _, rfl, rfl, hlast _ ⟨rfl, rfl⟩ rfl⟩⟩
      · rw [List.flatMap_append, List.flatMap_singleton, readings_putIsOpenQuote]
        exact List.rel_append hrep
          (List.Forall₂.cons ⟨hq, rfl⟩ (List.Forall₂.cons hword List.Forall₂.nil))
      · rw [filter_isToken_append hg, htokens]
        simp
    · have hstate : Text.addWord { s with bPrevSpace } g =
          ⟨none, false, some (s.words ++ [createQuoteWord q]).length,
            s.words ++ [createQuoteWord q] ++ [createWord g]⟩ := by
        simp only [Text.addWord, hprev, hopen, Bool.false_eq_true, if_false]
      rw [hstate]
      refine ⟨⟨tokens ++ [q, g], ?_, ?_⟩, by simp, by simp [isNZ_eq_false hg], fun _ =>
        Or.inr ⟨s.words ++ [createQuoteWord q], _, rfl, rfl, hlast _ ⟨rfl, rfl⟩ rfl⟩⟩
      · rw [List.append_assoc, List.flatMap_append]
        exact List.rel_append hrep
          (List.Forall₂.cons rfl (List.Forall₂.cons hword List.Forall₂.nil))
      · rw [filter_isToken_append hg, htokens]
        simp

theorem modify_append_singleton (words : List WordBase) (w : WordBase) (f : WordBase → WordBase) :
    (words ++ [w]).modify words.length f = words ++ [f w] := by
  induction words with
  | nil => rfl
  | cons v words ih =>
    show v :: (words ++ [w]).modify words.length f = v :: (words ++ [f w])
    rw [ih]

theorem getLast_any_of_append {before gap : List TextGroup} {g : TextGroup}
    (h : (before ++ g :: gap).getLast?.any TextGroup.isNZ = false) :
    gap.getLast?.any TextGroup.isNZ = false := by
  cases gap with
  | nil => rfl
  | cons x gap =>
    rw [List.getLast?_append_of_ne_nil _ (by simp), List.getLast?_cons_cons] at h
    exact h

/-- A quote, which waits or closes the word before. -/
theorem After.addQuote {done : List TextGroup} {s : SentenceState} {g : TextGroup}
    (h : After isQuotation done s) (hg : g.isToken = true)
    (hquote : WordBase.isQuote isQuotation g.text = true) {bPrevSpace : Bool}
    (hspace : bPrevSpace = false →
      g.gtyp = .symbol ∨ done.getLast?.any TextGroup.isNZ = false)
    (htwo : ¬ TwoClosingQuotes isQuotation (done ++ [g])) :
    After isQuotation (done ++ [g]) (addQuote { s with bPrevSpace } g) := by
  obtain ⟨tokens, hrep, htokens⟩ := h.represented
  have hfilter := @filter_isToken_append done g hg
  -- the quote waits, with no other one waiting
  have hwait : s.prevQuote = none → ∀ prevWord words, words = s.words →
      After isQuotation (done ++ [g]) ⟨some g, false, prevWord, words⟩ := by
    rintro hnone prevWord words rfl
    refine ⟨⟨tokens, hrep, ?_⟩, ?_, by simp [isNZ_eq_false hg], by simp⟩
    · rw [hfilter, htokens, hnone]
      simp
    · rintro q hq
      rw [Option.some.injEq] at hq
      rw [← hq]
      exact hquote
  rcases Option.eq_none_or_eq_some s.prevQuote with hprev | ⟨q, hprev⟩
  · rcases h.word hprev with hno | ⟨words, w, hwords, hword, hlast⟩
    · have hstate : Text.addQuote { s with bPrevSpace } g =
          ⟨some g, false, s.prevWord, s.words⟩ := by
        simp [Text.addQuote, hprev, hno]
      rw [hstate]
      exact hwait hprev _ _ rfl
    · have hget : (s.prevWord.bind fun i => s.words[i]?) = some w := by
        rw [hword, hwords]
        simp
      by_cases hclose : (!bPrevSpace && canAddCloseQuote w) = true
      · have hstate : Text.addQuote { s with bPrevSpace } g =
            ⟨none, false, s.prevWord,
              words ++ [w.putIsCloseQuote (WordBase.isSingleQuote g.text)]⟩ := by
          simp only [Text.addQuote, hprev, hget, hclose, if_true]
          rw [hword, hwords, Option.getD_some, modify_append_singleton]
        rw [hstate]
        rw [Bool.and_eq_true, Bool.not_eq_true'] at hclose
        have hgap : ∀ {gap : List TextGroup}, (∀ x ∈ gap, x.isToken = false) →
            (∃ before x, done = before ++ x :: gap) → ClosesAfter isQuotation gap g := by
          rintro gap hgap ⟨before, x, rfl⟩
          exact ⟨hgap, hg, hquote, (hspace hclose.1).imp_right getLast_any_of_append⟩
        cases hlast with
        | closed before g' gap q gap' heq hword' hg' hq hgap' =>
          exfalso
          apply htwo
          have hq' := hgap hgap' ⟨before ++ g' :: gap, q, by rw [heq]; simp⟩
          exact ⟨before, g', gap, q, gap', g, [], by rw [heq]; simp, hg', hq, hq'⟩
        | opened before g' gap heq hword' htoken hquote' hgap' hopen =>
          have hq := hgap hgap' ⟨before, g', heq⟩
          have hclosable : Closable isQuotation g' :=
            ⟨htoken, hquote', by rw [← hword'.canAddCloseQuote]; exact hclose.2⟩
          refine ⟨⟨tokens ++ [g], ?_, ?_⟩, by simp, by simp [isNZ_eq_false hg], fun _ =>
            Or.inr ⟨words, _, rfl, hword, ?_⟩⟩
          · rw [hwords, List.flatMap_append, List.flatMap_singleton] at hrep
            rw [List.flatMap_append, List.flatMap_singleton, readings_putIsCloseQuote hopen,
              ← List.append_assoc]
            exact List.rel_append hrep (List.Forall₂.cons ⟨hquote, rfl⟩ List.Forall₂.nil)
          · rw [hfilter, htokens, hprev]
            simp
          · exact .closed before g' gap g [] (by rw [heq]; simp) hword' hclosable hq (by simp)
      · have hstate : Text.addQuote { s with bPrevSpace } g =
            ⟨some g, false, s.prevWord, s.words⟩ := by
          simp only [Text.addQuote, hprev, hget, hclose, Bool.false_eq_true, if_false]
        rw [hstate]
        exact hwait hprev _ _ rfl
  · rw [hprev, Option.toList_some] at htokens
    have hstate : Text.addQuote { s with bPrevSpace } g =
        ⟨some g, false, s.prevWord, s.words ++ [createQuoteWord q]⟩ := by
      simp [Text.addQuote, hprev]
    rw [hstate]
    refine ⟨⟨tokens ++ [q], ?_, ?_⟩, ?_, by simp [isNZ_eq_false hg], by simp⟩
    · rw [List.flatMap_append]
      exact List.rel_append hrep (List.Forall₂.cons rfl List.Forall₂.nil)
    · rw [hfilter, htokens]
      simp
    · rintro q' hq'
      rw [Option.some.injEq] at hq'
      rw [← hq']
      exact hquote

theorem isToken_eq_false_iff {g : TextGroup} :
    g.isToken = false ↔ g.isNZ = true ∨ g.gtyp = .unknownPrim := by
  simp only [TextGroup.isToken, Bool.and_eq_false_iff, Bool.not_eq_false', ne_eq, decide_not,
    decide_eq_true_eq]

/-- One group of a stretch. -/
theorem After.addGroup {done : List TextGroup} {s : SentenceState} {g : TextGroup}
    (h : After isQuotation done s) (htwo : ¬ TwoClosingQuotes isQuotation (done ++ [g])) :
    After isQuotation (done ++ [g]) (addGroup isQuotation s g) := by
  rw [Text.addGroup]
  by_cases hnz : g.isNZ = true
  · rw [if_pos hnz]
    have hskip := h.skip (isToken_eq_false_iff.mpr (Or.inl hnz))
    rw [hnz] at hskip
    exact hskip
  · rw [if_neg hnz]
    by_cases hunknown : g.gtyp = .unknownPrim
    · rw [if_pos hunknown]
      have hskip := h.skip (isToken_eq_false_iff.mpr (Or.inr hunknown))
      rw [eq_false_of_ne_true hnz] at hskip
      exact hskip
    · rw [if_neg hunknown]
      have htoken : g.isToken = true := by
        by_contra hnot
        rcases isToken_eq_false_iff.mp (eq_false_of_ne_true hnot) with hnz' | hunknown'
        · exact hnz hnz'
        · exact hunknown hunknown'
      -- the flag for spaces, which a symbol resets
      have hstate : (if g.gtyp = .symbol then { s with bPrevSpace := false } else s) =
          { s with bPrevSpace := if g.gtyp = .symbol then false else s.bPrevSpace } := by
        split_ifs <;> rfl
      simp only [hstate]
      cases hquote : WordBase.isQuote isQuotation g.text with
      | false => exact h.addWord htoken hquote _
      | true =>
        refine h.addQuote htoken hquote ?_ htwo
        intro hspace
        by_cases hsymbol : g.gtyp = .symbol
        · exact Or.inl hsymbol
        · rw [if_neg hsymbol, h.space] at hspace
          exact Or.inr hspace

theorem After.run {rest : List TextGroup} : ∀ {done : List TextGroup} {s : SentenceState},
    After isQuotation done s → ¬ TwoClosingQuotes isQuotation (done ++ rest) →
    After isQuotation (done ++ rest) (rest.foldl (Text.addGroup isQuotation) s) := by
  induction rest with
  | nil =>
    intro done s h _
    rw [List.append_nil]
    exact h
  | cons g rest ih =>
    intro done s h htwo
    have hsplit : done ++ g :: rest = done ++ [g] ++ rest := by simp
    rw [hsplit] at htwo ⊢
    exact ih (h.addGroup fun htwo' => htwo (htwo'.append rest)) htwo

theorem createSentence_represented {stretch : List TextGroup}
    (htwo : ¬ TwoClosingQuotes isQuotation stretch) :
    Represented isQuotation (createSentence isQuotation stretch) stretch := by
  have h := @After.run isQuotation stretch [] {} after_init htwo
  rw [List.nil_append] at h
  obtain ⟨tokens, hrep, htokens⟩ := h.represented
  rw [Represented, createSentence, SentenceState.finish, htokens]
  cases hprev : (stretch.foldl (Text.addGroup isQuotation) {}).prevQuote with
  | none =>
    rw [Option.toList_none, List.append_nil]
    exact hrep
  | some q =>
    rw [Option.toList_some, List.flatMap_append]
    exact List.rel_append hrep (List.Forall₂.cons rfl List.Forall₂.nil)

/-- How many groups the words and the quote that waits stand for. -/
def SentenceState.weight (s : SentenceState) : ℕ :=
  (s.words.flatMap WordBase.readings).length + s.prevQuote.toList.length

theorem weight_finish (s : SentenceState) :
    (s.finish.flatMap WordBase.readings).length = s.weight := by
  rw [SentenceState.finish, SentenceState.weight]
  cases s.prevQuote with
  | none => simp
  | some q => simp

theorem length_readings_putIsCloseQuote (w : WordBase) (bSingle : Bool) :
    (w.putIsCloseQuote bSingle).readings.length ≤ w.readings.length + 1 := by
  cases hclose : w.bHasCloseQuote with
  | false =>
    simp only [readings_putIsCloseQuote hclose, List.length_append, List.length_singleton,
      Nat.le_refl]
  | true =>
    have hsame : (w.putIsCloseQuote bSingle).readings.length = w.readings.length := by
      simp only [WordBase.readings, WordBase.putIsCloseQuote, hclose, if_true, List.length_append,
        List.length_singleton]
      rfl
    omega

theorem length_readings_modify (bSingle : Bool) : ∀ (words : List WordBase) (i : ℕ),
    ((words.modify i fun w => w.putIsCloseQuote bSingle).flatMap WordBase.readings).length ≤
      (words.flatMap WordBase.readings).length + 1 := by
  intro words
  induction words with
  | nil =>
    intro i
    cases i <;> simp
  | cons w words ih =>
    intro i
    cases i with
    | zero =>
      have hle := length_readings_putIsCloseQuote w bSingle
      simp only [List.modify_zero_cons, List.flatMap_cons, List.length_append]
      omega
    | succ i =>
      have hle := ih i
      simp only [List.modify_succ_cons, List.flatMap_cons, List.length_append]
      omega

theorem weight_addQuote (s : SentenceState) (g : TextGroup) :
    (addQuote s g).weight ≤ s.weight + 1 := by
  rw [Text.addQuote, SentenceState.weight, SentenceState.weight]
  cases hprev : s.prevQuote with
  | some q => simp
  | none =>
    cases s.prevWord.bind fun i => s.words[i]? with
    | none => simp
    | some w =>
      dsimp only
      split_ifs
      · have hle := length_readings_modify (WordBase.isSingleQuote g.text) s.words
          (s.prevWord.getD 0)
        simpa [hprev] using hle
      · simp

theorem weight_addWord (s : SentenceState) (g : TextGroup) :
    (addWord s g).weight ≤ s.weight + 1 := by
  rw [Text.addWord, SentenceState.weight, SentenceState.weight]
  cases hprev : s.prevQuote with
  | none => simp
  | some q =>
    dsimp only
    split_ifs
    · simp [readings_putIsOpenQuote]
    · simp

theorem weight_addGroup (s : SentenceState) (g : TextGroup) :
    (addGroup isQuotation s g).weight ≤ s.weight + if g.isToken then 1 else 0 := by
  rw [Text.addGroup]
  by_cases hnz : g.isNZ = true
  · rw [if_pos hnz]
    exact Nat.le_add_right _ _
  · rw [if_neg hnz]
    by_cases hunknown : g.gtyp = .unknownPrim
    · rw [if_pos hunknown]
      exact Nat.le_add_right _ _
    · have htoken : g.isToken = true := by simp [TextGroup.isToken, hnz, hunknown]
      have hweight : (if g.gtyp = .symbol then { s with bPrevSpace := false } else s).weight =
          s.weight := by
        split_ifs <;> rfl
      rw [if_neg hunknown, if_pos htoken]
      dsimp only
      rw [← hweight]
      by_cases hquote : WordBase.isQuote isQuotation g.text = true
      · rw [if_pos hquote]
        exact weight_addQuote _ _
      · rw [if_neg hquote]
        exact weight_addWord _ _

theorem weight_foldl : ∀ (groups : List TextGroup) (s : SentenceState),
    (groups.foldl (addGroup isQuotation) s).weight ≤
      s.weight + (groups.filter TextGroup.isToken).length := by
  intro groups
  induction groups with
  | nil =>
    intro s
    exact Nat.le_add_right _ _
  | cons g groups ih =>
    intro s
    have hrest := ih (addGroup isQuotation s g)
    have hstep := @weight_addGroup isQuotation s g
    rw [List.foldl_cons, List.filter_cons]
    split_ifs at hstep ⊢
    · rw [List.length_cons]
      omega
    · omega

theorem foldl_skip : ∀ {gap : List TextGroup} {s : SentenceState},
    (∀ g ∈ gap, g.isToken = false) →
    gap.foldl (addGroup isQuotation) s =
      { s with bPrevSpace := gap.getLast?.elim s.bPrevSpace TextGroup.isNZ } := by
  intro gap
  induction gap with
  | nil =>
    intro s _
    rfl
  | cons g gap ih =>
    intro s hgap
    have hg : addGroup isQuotation s g = { s with bPrevSpace := g.isNZ } := by
      rw [Text.addGroup]
      by_cases hnz : g.isNZ = true
      · rw [if_pos hnz, hnz]
      · rcases isToken_eq_false_iff.mp (hgap g List.mem_cons_self) with hnz' | hunknown
        · exact absurd hnz' hnz
        · rw [if_neg hnz, if_pos hunknown, eq_false_of_ne_true hnz]
    rw [List.foldl_cons, hg, ih fun x hx => hgap x (List.mem_cons_of_mem g hx)]
    cases gap with
    | nil => rfl
    | cons x gap =>
      obtain ⟨y, hy⟩ : ∃ y, (x :: gap).getLast? = some y :=
        Option.ne_none_iff_exists'.mp (by simp)
      rw [List.getLast?_cons_cons, hy]
      rfl

/-- A quote closes the last word, also if that is closed. -/
theorem foldl_closesAfter {gap : List TextGroup} {q : TextGroup} {words : List WordBase}
    {w : WordBase} (hq : ClosesAfter isQuotation gap q) (hw : canAddCloseQuote w = true) :
    (gap ++ [q]).foldl (addGroup isQuotation) ⟨none, false, some words.length, words ++ [w]⟩ =
      ⟨none, false, some words.length,
        words ++ [w.putIsCloseQuote (WordBase.isSingleQuote q.text)]⟩ := by
  obtain ⟨hgap, htoken, hquote, hspace⟩ := hq
  rw [List.foldl_append, foldl_skip hgap, List.foldl_cons, List.foldl_nil, Text.addGroup]
  have hnz : q.isNZ = false := isNZ_eq_false htoken
  have hunknown : q.gtyp ≠ .unknownPrim := by
    intro h
    simp [TextGroup.isToken, h] at htoken
  rw [if_neg (by simp [hnz]), if_neg hunknown]
  have hflag : (if q.gtyp = .symbol then false
      else gap.getLast?.elim false TextGroup.isNZ) = false := by
    by_cases hsymbol : q.gtyp = .symbol
    · rw [if_pos hsymbol]
    · rw [if_neg hsymbol]
      have hlast := hspace.resolve_left hsymbol
      cases hl : gap.getLast? with
      | none => rfl
      | some x =>
        rw [hl] at hlast
        exact hlast
  have hstate : ∀ b : Bool, (if q.gtyp = .symbol then
      (⟨none, false, some words.length, words ++ [w]⟩ : SentenceState)
      else ⟨none, b, some words.length, words ++ [w]⟩) =
        ⟨none, if q.gtyp = .symbol then false else b, some words.length, words ++ [w]⟩ := by
    intro b
    split_ifs <;> rfl
  simp only [hstate, hflag, hquote, if_true]
  simp [Text.addQuote, hw, modify_append_singleton]

theorem exists_addWord (s : SentenceState) (g : TextGroup) :
    ∃ words w, addWord s g = ⟨none, false, some words.length, words ++ [w]⟩ ∧ IsWordOf w g := by
  rw [Text.addWord]
  cases s.prevQuote with
  | none => exact ⟨s.words, createWord g, rfl, rfl, rfl⟩
  | some q =>
    dsimp only
    split_ifs
    · exact ⟨s.words, _, rfl, rfl, rfl⟩
    · exact ⟨s.words ++ [createQuoteWord q], _, rfl, rfl, rfl⟩

theorem addGroup_word {g : TextGroup} (hg : Closable isQuotation g) (s : SentenceState) :
    ∃ words w, addGroup isQuotation s g = ⟨none, false, some words.length, words ++ [w]⟩ ∧
      canAddCloseQuote w = true := by
  obtain ⟨htoken, hquote, hclose⟩ := hg
  have hunknown : g.gtyp ≠ .unknownPrim := by
    intro h
    simp [TextGroup.isToken, h] at htoken
  rw [Text.addGroup, if_neg (by simp [isNZ_eq_false htoken]), if_neg hunknown]
  dsimp only
  rw [if_neg (by simp [hquote])]
  obtain ⟨words, w, hstate, hword⟩ := exists_addWord
    (if g.gtyp = .symbol then { s with bPrevSpace := false } else s) g
  exact ⟨words, w, hstate, by rw [hword.canAddCloseQuote, hclose]⟩

/-- Where two quotes close a word, the words stand for fewer groups than there are. -/
theorem not_represented_of_twoClosingQuotes {stretch : List TextGroup}
    (h : TwoClosingQuotes isQuotation stretch) :
    ¬ Represented isQuotation (createSentence isQuotation stretch) stretch := by
  obtain ⟨before, g, gap, q, gap', q', after, rfl, hg, hq, hq'⟩ := h
  intro hrep
  have hlength := hrep.length_eq
  rw [createSentence, weight_finish] at hlength
  have hsplit : before ++ g :: (gap ++ q :: (gap' ++ q' :: after)) =
      before ++ [g] ++ (gap ++ [q]) ++ (gap' ++ [q']) ++ after := by simp
  obtain ⟨words, w, hword, hclose⟩ := addGroup_word hg (before.foldl (addGroup isQuotation) {})
  -- the word after its first quote, and after the second one
  have hfirst : (before ++ [g] ++ (gap ++ [q])).foldl (addGroup isQuotation) {} =
      ⟨none, false, some words.length,
        words ++ [w.putIsCloseQuote (WordBase.isSingleQuote q.text)]⟩ := by
    have hbefore : (before ++ [g]).foldl (addGroup isQuotation) {} =
        ⟨none, false, some words.length, words ++ [w]⟩ := by
      rw [List.foldl_append]
      exact hword
    rw [List.foldl_append, hbefore]
    exact foldl_closesAfter hq hclose
  have hsecond : (before ++ [g] ++ (gap ++ [q]) ++ (gap' ++ [q'])).foldl
      (addGroup isQuotation) {} = ⟨none, false, some words.length,
        words ++ [(w.putIsCloseQuote (WordBase.isSingleQuote q.text)).putIsCloseQuote
          (WordBase.isSingleQuote q'.text)]⟩ := by
    rw [List.foldl_append, hfirst]
    exact foldl_closesAfter hq' hclose
  have hweight : (SentenceState.mk none false (some words.length)
      (words ++ [(w.putIsCloseQuote (WordBase.isSingleQuote q.text)).putIsCloseQuote
        (WordBase.isSingleQuote q'.text)])).weight =
      ((before ++ [g] ++ (gap ++ [q])).foldl (addGroup isQuotation) {}).weight := by
    rw [hfirst]
    simp [SentenceState.weight, WordBase.readings, WordBase.putIsCloseQuote]
  have hbefore := @weight_foldl isQuotation (before ++ [g] ++ (gap ++ [q])) {}
  have hafter := @weight_foldl isQuotation after
    ((before ++ [g] ++ (gap ++ [q]) ++ (gap' ++ [q'])).foldl (addGroup isQuotation) {})
  have hnone : (gap' ++ [q']).filter TextGroup.isToken = [q'] := by
    obtain ⟨hgap', htoken, -, -⟩ := hq'
    rw [List.filter_append, List.filter_eq_nil_iff.mpr fun x hx => by simp [hgap' x hx]]
    simp [htoken]
  have hzero : ({} : SentenceState).weight = 0 := rfl
  rw [hsplit, List.foldl_append, List.filter_append, List.filter_append, hnone,
    List.length_append, List.length_append, List.length_singleton] at hlength
  rw [← hsecond] at hweight
  omega

theorem addQuote_started (s : SentenceState) (g : TextGroup) :
    (addQuote s g).prevQuote ≠ none ∨ (addQuote s g).words ≠ [] := by
  rw [Text.addQuote]
  cases s.prevQuote with
  | some q => simp
  | none =>
    cases hget : s.prevWord.bind fun i => s.words[i]? with
    | none => simp
    | some w =>
      have hne : s.words ≠ [] := by
        intro hnil
        rw [hnil] at hget
        simp at hget
      dsimp only
      split_ifs
      · right
        simpa using hne
      · simp

theorem addGroup_started {s : SentenceState} {g : TextGroup}
    (h : g.isToken = true ∨ s.prevQuote ≠ none ∨ s.words ≠ []) :
    (addGroup isQuotation s g).prevQuote ≠ none ∨ (addGroup isQuotation s g).words ≠ [] := by
  cases htoken : g.isToken with
  | false =>
    have hskip := @foldl_skip isQuotation [g] s (by simp [htoken])
    rw [List.foldl_cons, List.foldl_nil] at hskip
    rw [hskip]
    simpa [htoken] using h
  | true =>
    have hunknown : g.gtyp ≠ .unknownPrim := by
      intro hunknown
      simp [TextGroup.isToken, hunknown] at htoken
    rw [Text.addGroup, if_neg (by simp [isNZ_eq_false htoken]), if_neg hunknown]
    dsimp only
    by_cases hquote : WordBase.isQuote isQuotation g.text = true
    · rw [if_pos hquote]
      exact addQuote_started _ _
    · rw [if_neg hquote]
      obtain ⟨words, w, hstate, -⟩ := exists_addWord
        (if g.gtyp = .symbol then { s with bPrevSpace := false } else s) g
      rw [hstate]
      simp

theorem foldl_started : ∀ {groups : List TextGroup} {s : SentenceState},
    ((∃ g ∈ groups, g.isToken = true) ∨ s.prevQuote ≠ none ∨ s.words ≠ []) →
    (groups.foldl (addGroup isQuotation) s).prevQuote ≠ none ∨
      (groups.foldl (addGroup isQuotation) s).words ≠ [] := by
  intro groups
  induction groups with
  | nil =>
    intro s h
    simpa using h
  | cons x groups ih =>
    intro s h
    rw [List.foldl_cons]
    apply ih
    rcases h with ⟨g, hg, htoken⟩ | h
    · rcases List.mem_cons.mp hg with rfl | hg
      · exact Or.inr (addGroup_started (Or.inl htoken))
      · exact Or.inl ⟨g, hg, htoken⟩
    · exact Or.inr (addGroup_started (Or.inr h))

theorem createSentence_isEmpty (stretch : List TextGroup) :
    (createSentence isQuotation stretch).isEmpty = !stretch.any TextGroup.isToken := by
  cases hany : stretch.any TextGroup.isToken with
  | true =>
    have hstarted := @foldl_started isQuotation stretch {}
      (Or.inl (by simpa using hany))
    rw [createSentence, SentenceState.finish]
    cases hprev : (stretch.foldl (addGroup isQuotation) {}).prevQuote with
    | some q => simp
    | none => simpa [hprev] using hstarted
  | false =>
    have hskip := @foldl_skip isQuotation stretch {} (by simpa using hany)
    rw [createSentence, SentenceState.finish, hskip]
    rfl

end TomitaParser.Text
