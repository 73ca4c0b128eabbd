import Mathlib.Data.List.TakeWhile
import TomitaParser.Text.SentenceWords
/-! # The sentences of a text

The rounds of `createSentences` go over all groups, and the sentences keep the groups and the breaks
of paragraphs. -/

namespace TomitaParser.Text
variable {isQuotation : ℕ → Bool}

namespace Segment

/-- The groups that are skipped in a round. -/
def skipped : Segment → List TextGroup
  | .stretch lead _ => lead
  | .tooLong lead g => lead ++ [g]
  | .onlyLead lead => lead

/-- The stretch of a round. -/
def taken : Segment → List TextGroup
  | .stretch _ taken => taken
  | .tooLong _ _ => []
  | .onlyLead _ => []

def groups (s : Segment) : List TextGroup := s.skipped ++ s.taken

/-- There is a sentence for the stretch. -/
def hasWords (s : Segment) : Bool := !isEmptyStretch s.taken && s.taken.any TextGroup.isToken

/-- What a round is: what is skipped is a space, unknown or too long, and a break of paragraphs ends
the stretch. -/
structure WellFormed (s : Segment) : Prop where
  skipped : ∀ g ∈ s.skipped, isLead g = true ∨ maxLength ≤ g.len
  taken : ∀ g ∈ s.taken, g.brk = .paraBreak → endsParagraph s.taken = true

end Segment

theorem takeStretch_append (pos : ℕ) : ∀ (groups : List TextGroup) (size : ℕ),
    (takeStretch pos size groups).1 ++ (takeStretch pos size groups).2 = groups := by
  intro groups
  induction groups with
  | nil =>
    intro size
    rfl
  | cons g groups ih =>
    intro size
    rw [takeStretch]
    split_ifs
    · show g :: ((takeStretch pos (size + 1) groups).1 ++ (takeStretch pos (size + 1) groups).2) = _
      rw [ih]
    · rfl
    · rfl

theorem endsParagraph_cons {g : TextGroup} {groups : List TextGroup} (h : groups ≠ []) :
    endsParagraph (g :: groups) = endsParagraph groups := by
  cases groups with
  | nil => exact absurd rfl h
  | cons x groups => rw [endsParagraph, endsParagraph, List.getLast?_cons_cons]

theorem takeStretch_para (pos : ℕ) : ∀ (groups : List TextGroup) (size : ℕ),
    ∀ g ∈ (takeStretch pos size groups).1, g.brk = .paraBreak →
      endsParagraph (takeStretch pos size groups).1 = true := by
  intro groups
  induction groups with
  | nil =>
    intro size g hg
    cases hg
  | cons x groups ih =>
    intro size g hg hpara
    rw [takeStretch] at hg ⊢
    by_cases hcont : continues pos size x = true
    · simp only [hcont, if_true] at hg ⊢
      rcases List.mem_cons.mp hg with rfl | hg
      · simp [continues, hpara] at hcont
      · rw [endsParagraph_cons (List.ne_nil_of_mem hg)]
        exact ih (size + 1) g hg hpara
    · simp only [hcont, Bool.false_eq_true, if_false] at hg ⊢
      by_cases hend : endFrom pos x < maxLength
      · simp only [hend, if_true, List.mem_singleton] at hg ⊢
        rw [← hg]
        simp [endsParagraph, hpara]
      · simp only [hend, if_false, List.not_mem_nil] at hg

theorem endFrom_self {g : TextGroup} (h : g.len < maxLength) : endFrom g.pos g = g.len := by
  rw [maxLength] at h
  rw [endFrom]
  omega

/-- A round goes on, and is well formed. -/
theorem firstSegment_spec (g : TextGroup) (groups : List TextGroup) :
    (firstSegment (g :: groups)).1.groups ++ (firstSegment (g :: groups)).2 = g :: groups ∧
      (firstSegment (g :: groups)).1.WellFormed ∧ (firstSegment (g :: groups)).1.groups ≠ [] := by
  have hall : (g :: groups).takeWhile isLead ++ (g :: groups).dropWhile isLead = g :: groups :=
    List.takeWhile_append_dropWhile
  have hlead : ∀ x ∈ (g :: groups).takeWhile isLead, isLead x = true ∨ maxLength ≤ x.len :=
    fun x hx => Or.inl (List.mem_takeWhile_imp hx)
  rw [firstSegment]
  cases hdrop : (g :: groups).dropWhile isLead with
  | nil =>
    rw [hdrop, List.append_nil] at hall
    refine ⟨?_, ⟨hlead, by simp [Segment.taken]⟩, ?_⟩
    · simpa [Segment.groups, Segment.skipped, Segment.taken] using hall
    · simp [Segment.groups, Segment.skipped, Segment.taken, hall]
  | cons x rest =>
    rw [hdrop] at hall
    by_cases hlong : (!continues ((g :: groups).headD {}).pos 0 x) = true ∧ maxLength ≤ x.len
    · simp only [hlong, and_self, if_true]
      refine ⟨?_, ⟨?_, by simp [Segment.taken]⟩, by simp [Segment.groups, Segment.skipped]⟩
      · simpa [Segment.groups, Segment.skipped, Segment.taken] using hall
      · intro y hy
        rcases List.mem_append.mp hy with hy | hy
        · exact hlead y hy
        · rw [List.mem_singleton] at hy
          rw [hy]
          exact Or.inr hlong.2
    · simp only [hlong, if_false]
      have happend := takeStretch_append ((g :: groups).headD {}).pos (x :: rest) 0
      refine ⟨?_, ⟨hlead, takeStretch_para _ _ _⟩, ?_⟩
      · simp only [Segment.groups, Segment.skipped, Segment.taken, List.append_assoc, happend, hall]
      · -- without groups in front the first group is not too far from itself
        intro hnil
        simp only [Segment.groups, Segment.skipped, Segment.taken, List.append_eq_nil_iff] at hnil
        obtain ⟨hnolead, hnone⟩ := hnil
        rw [hnolead, List.nil_append, List.cons.injEq] at hall
        rw [hall.1] at hlong hnone
        rw [takeStretch] at hnone
        simp only [List.headD_cons] at hlong hnone
        by_cases hcont : continues g.pos 0 g = true
        · simp [hcont] at hnone
        · have hlen : g.len < maxLength := by
            by_contra hge
            exact hlong ⟨by simpa using hcont, by omega⟩
          simp [hcont, endFrom_self hlen, hlen] at hnone

/-- There are enough rounds, and they go over all groups. -/
theorem segments_spec : ∀ (fuel : ℕ) (groups : List TextGroup), groups.length ≤ fuel →
    ∃ segs, segments fuel groups = some segs ∧ segs.flatMap Segment.groups = groups ∧
      ∀ s ∈ segs, s.WellFormed := by
  intro fuel
  induction fuel with
  | zero =>
    intro groups hlen
    have hnil : groups = [] := List.length_eq_zero_iff.mp (by omega)
    exact ⟨[], by rw [hnil]; rfl, by rw [hnil]; rfl, by simp⟩
  | succ fuel ih =>
    intro groups hlen
    cases groups with
    | nil => exact ⟨[], rfl, rfl, by simp⟩
    | cons g groups =>
      obtain ⟨hall, hwell, hne⟩ := firstSegment_spec g groups
      have hshorter : (firstSegment (g :: groups)).2.length ≤ fuel := by
        have hlength := congrArg List.length hall
        have hpos := List.length_pos_iff.mpr hne
        rw [List.length_append] at hlength
        simp only [List.length_cons] at hlength hlen
        omega
      obtain ⟨segs, hsegs, hgroups, hall'⟩ := ih _ hshorter
      refine ⟨(firstSegment (g :: groups)).1 :: segs, ?_, ?_, ?_⟩
      · rw [segments]
        simp [hsegs]
      · rw [List.flatMap_cons, hgroups, hall]
      · intro s hs
        rcases List.mem_cons.mp hs with rfl | hs
        · exact hwell
        · exact hall' s hs

/-- The groups in front of the first sentence, and each round with a sentence, with the groups
between its stretch and the next one. -/
def blocks : List Segment → List TextGroup × List (Segment × List TextGroup)
  | [] => ([], [])
  | s :: segs =>
    if s.hasWords then (s.skipped, (s, (blocks segs).1) :: (blocks segs).2)
    else (s.groups ++ (blocks segs).1, (blocks segs).2)

/-- What need not be in a sentence: spaces, new lines, unknown and too long groups, and stretches of
punctuation and symbols only. -/
def Dropped (segs : List Segment) (g : TextGroup) : Prop :=
  g.isToken = false ∨ maxLength ≤ g.len ∨
    ∃ s ∈ segs, g ∈ s.taken ∧ isEmptyStretch s.taken = true

def HasParaBreak (groups : List TextGroup) : Prop := ∃ g ∈ groups, g.brk = .paraBreak

/-- The sentence stands for its stretch, and a break of paragraphs up to the next sentence marks
it. -/
structure KeepsBlock (isQuotation : ℕ → Bool) (block : Segment × List TextGroup)
    (sentence : Sentence) : Prop where
  stretch : sentence.stretch = block.1.taken
  represented : Represented isQuotation sentence.words sentence.stretch
  para : HasParaBreak (block.1.taken ++ block.2) → sentence.bPBreak = true

/-- The stretches with the groups between them are the text, what is between them need not be in a
sentence, and the sentences keep the rest. -/
structure SentencesKeep (isQuotation : ℕ → Bool) (segs : List Segment) (groups : List TextGroup)
    (sentences : List Sentence) : Prop where
  groups : groups =
    (blocks segs).1 ++ (blocks segs).2.flatMap fun block => block.1.taken ++ block.2
  dropped : ∀ g ∈ (blocks segs).1 ++ (blocks segs).2.flatMap Prod.snd, Dropped segs g
  sentences : List.Forall₂ (KeepsBlock isQuotation) (blocks segs).2 sentences

theorem blocks_groups (segs : List Segment) : segs.flatMap Segment.groups =
    (blocks segs).1 ++ (blocks segs).2.flatMap fun block => block.1.taken ++ block.2 := by
  induction segs with
  | nil => rfl
  | cons s segs ih =>
    rw [List.flatMap_cons, ih, blocks]
    split_ifs <;> simp [Segment.groups]

theorem Dropped.mono {segs segs' : List Segment} {g : TextGroup} (h : Dropped segs g)
    (hsub : ∀ s ∈ segs, s ∈ segs') : Dropped segs' g := by
  rcases h with h | h | ⟨s, hs, h⟩
  · exact Or.inl h
  · exact Or.inr (Or.inl h)
  · exact Or.inr (Or.inr ⟨s, hsub s hs, h⟩)

theorem dropped_of_lead {segs : List Segment} {g : TextGroup}
    (h : isLead g = true ∨ maxLength ≤ g.len) : Dropped segs g := by
  rcases h with h | h
  · left
    rw [isToken_eq_false_iff, TextGroup.isNZ]
    simp only [isLead, Bool.or_eq_true, decide_eq_true_eq] at h ⊢
    tauto
  · exact Or.inr (Or.inl h)

theorem dropped_of_hasWords {segs : List Segment} {s : Segment} (hs : s ∈ segs)
    (hwell : s.WellFormed) (hwords : s.hasWords = false) : ∀ g ∈ s.groups, Dropped segs g := by
  intro g hg
  rcases List.mem_append.mp hg with hg | hg
  · exact dropped_of_lead (hwell.skipped g hg)
  · rw [Segment.hasWords, Bool.and_eq_false_iff, Bool.not_eq_false', List.any_eq_false] at hwords
    rcases hwords with hempty | htokens
    · exact Or.inr (Or.inr ⟨s, hs, hg, hempty⟩)
    · exact Or.inl (eq_false_of_ne_true (htokens g hg))

theorem blocks_dropped {segs : List Segment} (hwell : ∀ s ∈ segs, s.WellFormed) :
    ∀ g ∈ (blocks segs).1 ++ (blocks segs).2.flatMap Prod.snd, Dropped segs g := by
  induction segs with
  | nil =>
    intro g hg
    cases hg
  | cons s segs ih =>
    intro g hg
    have hrest : ∀ g ∈ (blocks segs).1 ++ (blocks segs).2.flatMap Prod.snd,
        Dropped (s :: segs) g := fun g hg =>
      (ih (fun r hr => hwell r (List.mem_cons_of_mem s hr)) g hg).mono
        fun r hr => List.mem_cons_of_mem s hr
    have hs : s.WellFormed := hwell s List.mem_cons_self
    rw [blocks] at hg
    cases hwords : s.hasWords with
    | true =>
      rw [hwords, if_pos rfl, List.flatMap_cons] at hg
      rcases List.mem_append.mp hg with hg | hg
      · exact dropped_of_lead (hs.skipped g hg)
      · exact hrest g hg
    | false =>
      rw [hwords, if_neg (by simp), List.append_assoc] at hg
      rcases List.mem_append.mp hg with hg | hg
      · exact dropped_of_hasWords List.mem_cons_self hs hwords g hg
      · exact hrest g hg

namespace Segment

/-- The group in front of the next round has a break of paragraphs, where the round has come to a
stretch. -/
def marks : Segment → Bool
  | .stretch lead taken => endsParagraph (lead ++ taken)
  | .tooLong _ _ => false
  | .onlyLead _ => false

/-- The sentence of a round ends its paragraph, by a break or since the paragraph is full. -/
def closes (pCnt : ℕ) (s : Segment) : Bool := s.marks || decide (maxSentInParagraph - 1 ≤ pCnt)

end Segment

/-- A round marks the sentence before these rounds, or there are no more sentences. -/
def marksBefore : List Segment → Bool
  | [] => true
  | s :: segs => !s.hasWords && (s.marks || marksBefore segs)

/-- The number of sentences in the paragraph after a round with a sentence. -/
def nextCnt (pCnt : ℕ) (s : Segment) : ℕ := if s.closes pCnt then 0 else pCnt + 1

/-- The sentences of the rounds. -/
def sentencesOf (isQuotation : ℕ → Bool) : ℕ → List Segment → List Sentence
  | _, [] => []
  | pCnt, s :: segs =>
    if s.hasWords then
      ⟨createSentence isQuotation s.taken, s.closes pCnt || marksBefore segs, s.taken⟩ ::
        sentencesOf isQuotation (nextCnt pCnt s) segs
    else sentencesOf isQuotation pCnt segs

theorem markLastSentParEnd_append (sentences : List Sentence) (s : Sentence) :
    markLastSentParEnd (sentences ++ [s]) = sentences ++ [{ s with bPBreak := true }] := by
  have hmodify : ∀ (l : List Sentence), (l ++ [s]).modify l.length
      (fun s => { s with bPBreak := true }) = l ++ [{ s with bPBreak := true }] := by
    intro l
    induction l with
    | nil => rfl
    | cons x l ih =>
      show x :: (l ++ [s]).modify l.length _ = x :: (l ++ _)
      rw [ih]
  rw [markLastSentParEnd]
  simpa using hmodify sentences

theorem addSegment_eq (sentences : List Sentence) (pCnt : ℕ) (s : Segment) :
    addSegment isQuotation (sentences, pCnt) s =
      if s.hasWords then
        (sentences ++ [⟨createSentence isQuotation s.taken, s.closes pCnt, s.taken⟩],
          nextCnt pCnt s)
      else (if s.marks then markLastSentParEnd sentences else sentences, pCnt) := by
  cases s with
  | onlyLead lead => rfl
  | tooLong lead g => rfl
  | stretch lead taken =>
    have hcloses : (endsParagraph (lead ++ taken) || decide (maxSentInParagraph - 1 ≤ pCnt)) =
        (Segment.stretch lead taken).closes pCnt := rfl
    simp only [Text.addSegment, hcloses, Segment.hasWords, Segment.taken, createSentence_isEmpty,
      Segment.marks]
    by_cases hempty : isEmptyStretch taken = true
    · simp only [hempty, Bool.not_true, Bool.false_and, Bool.false_eq_true, if_true, if_false]
      rfl
    · by_cases htokens : taken.any TextGroup.isToken = true
      · by_cases hclose : (Segment.stretch lead taken).closes pCnt = true
        · simp only [hempty, htokens, hclose, nextCnt, Bool.not_true, Bool.not_false,
            Bool.and_true, Bool.false_eq_true, if_true, if_false]
        · simp only [hempty, htokens, hclose, nextCnt, Bool.not_true, Bool.not_false,
            Bool.and_true, Bool.false_eq_true, if_true, if_false]
      · simp only [hempty, htokens, Bool.not_false, Bool.and_false, Bool.false_eq_true, if_true,
          if_false]
        rfl

theorem foldl_addSegment_append : ∀ (segs : List Segment) (pCnt : ℕ) (before : List Sentence)
    (last : Sentence),
    markLastSentParEnd (segs.foldl (addSegment isQuotation) (before ++ [last], pCnt)).1 =
      before ++ { last with bPBreak := last.bPBreak || marksBefore segs } ::
        sentencesOf isQuotation pCnt segs := by
  intro segs
  induction segs with
  | nil =>
    intro pCnt before last
    rw [List.foldl_nil, markLastSentParEnd_append, marksBefore, Bool.or_true]
    rfl
  | cons s segs ih =>
    intro pCnt before last
    rw [List.foldl_cons, addSegment_eq, marksBefore, sentencesOf]
    cases s.hasWords with
    | true =>
      rw [if_pos rfl, if_pos rfl, ih]
      simp
    | false =>
      rw [if_neg Bool.false_ne_true, if_neg Bool.false_ne_true]
      cases s.marks with
      | true =>
        rw [if_pos rfl, markLastSentParEnd_append, ih]
        simp
      | false =>
        rw [if_neg Bool.false_ne_true, ih]
        simp

theorem foldl_addSegment : ∀ (segs : List Segment) (pCnt : ℕ),
    markLastSentParEnd (segs.foldl (addSegment isQuotation) ([], pCnt)).1 =
      sentencesOf isQuotation pCnt segs := by
  intro segs
  induction segs with
  | nil =>
    intro pCnt
    rfl
  | cons s segs ih =>
    intro pCnt
    rw [List.foldl_cons, addSegment_eq, sentencesOf]
    cases s.hasWords with
    | true =>
      rw [if_pos rfl, if_pos rfl, foldl_addSegment_append]
      rfl
    | false =>
      rw [if_neg Bool.false_ne_true, if_neg Bool.false_ne_true]
      have hnil : (if s.marks then markLastSentParEnd ([] : List Sentence) else []) = [] := by
        split_ifs <;> rfl
      rw [hnil, ih]

/-- In no stretch with a sentence two quotes close one word. -/
def QuotesOk (isQuotation : ℕ → Bool) (segs : List Segment) : Prop :=
  ∀ s ∈ segs, s.hasWords = true → ¬ TwoClosingQuotes isQuotation s.taken

/-- A group that is skipped before the next stretch with a sentence has a break of paragraphs. -/
def skipsBreak : List Segment → Bool
  | [] => false
  | s :: segs => s.skipped.any (fun g => g.brk = .paraBreak) || (!s.hasWords && skipsBreak segs)

/-- Where a break of paragraphs is skipped behind a sentence, the sentence is marked for another
reason. -/
def BreaksOk : ℕ → List Segment → Prop
  | _, [] => True
  | pCnt, s :: segs =>
    if s.hasWords then
      (skipsBreak segs = true → (s.closes pCnt || marksBefore segs) = true) ∧
        BreaksOk (nextCnt pCnt s) segs
    else BreaksOk pCnt segs

theorem endsParagraph_append {lead taken : List TextGroup} (h : endsParagraph taken = true) :
    endsParagraph (lead ++ taken) = true := by
  have hne : taken ≠ [] := by
    intro hnil
    rw [hnil] at h
    cases h
  rw [endsParagraph, List.getLast?_append_of_ne_nil _ hne]
  exact h

theorem Segment.WellFormed.marks {s : Segment} (hwell : s.WellFormed)
    (hpara : HasParaBreak s.taken) : s.marks = true := by
  obtain ⟨g, hg, hbrk⟩ := hpara
  have hends := hwell.taken g hg hbrk
  cases s with
  | stretch lead taken => exact endsParagraph_append hends
  | tooLong lead x => cases hg
  | onlyLead lead => cases hg

theorem hasParaBreak_append {groups rest : List TextGroup} :
    HasParaBreak (groups ++ rest) ↔ HasParaBreak groups ∨ HasParaBreak rest := by
  simp only [HasParaBreak, List.mem_append, or_and_right, exists_or]

theorem hasParaBreak_of_any {groups : List TextGroup} :
    groups.any (fun g => g.brk = .paraBreak) = true ↔ HasParaBreak groups := by
  simp [HasParaBreak]

theorem hasParaBreak_blocks {segs : List Segment} (hwell : ∀ s ∈ segs, s.WellFormed) :
    HasParaBreak (blocks segs).1 → skipsBreak segs = true ∨ marksBefore segs = true := by
  induction segs with
  | nil =>
    intro _
    exact Or.inr rfl
  | cons s segs ih =>
    have hrest := ih fun r hr => hwell r (List.mem_cons_of_mem s hr)
    intro hpara
    rw [blocks] at hpara
    rw [skipsBreak, marksBefore, Bool.or_eq_true, hasParaBreak_of_any]
    cases hwords : s.hasWords with
    | true =>
      rw [hwords, if_pos rfl] at hpara
      exact Or.inl (Or.inl hpara)
    | false =>
      rw [hwords, if_neg (by simp), Segment.groups, hasParaBreak_append, hasParaBreak_append]
        at hpara
      simp only [Bool.not_false, Bool.true_and, Bool.or_eq_true]
      rcases hpara with (hskipped | htaken) | hlater
      · exact Or.inl (Or.inl hskipped)
      · exact Or.inr (Or.inl ((hwell s List.mem_cons_self).marks htaken))
      · rcases hrest hlater with h | h
        · exact Or.inl (Or.inr h)
        · exact Or.inr (Or.inr h)

theorem hasParaBreak_of_skipsBreak {segs : List Segment} (h : skipsBreak segs = true) :
    HasParaBreak (blocks segs).1 := by
  induction segs with
  | nil => cases h
  | cons s segs ih =>
    rw [skipsBreak, Bool.or_eq_true, hasParaBreak_of_any] at h
    rw [blocks]
    cases hwords : s.hasWords with
    | true =>
      rw [if_pos rfl]
      simpa [hwords] using h
    | false =>
      rw [if_neg (by simp), Segment.groups, hasParaBreak_append, hasParaBreak_append]
      rcases h with h | h
      · exact Or.inl (Or.inl h)
      · rw [hwords, Bool.not_false, Bool.true_and] at h
        exact Or.inr (ih h)

theorem keepsBlock_iff {s : Segment} {segs : List Segment} (hwell : s.WellFormed)
    (hrest : ∀ r ∈ segs, r.WellFormed) (pCnt : ℕ) :
    KeepsBlock isQuotation (s, (blocks segs).1)
        ⟨createSentence isQuotation s.taken, s.closes pCnt || marksBefore segs, s.taken⟩ ↔
      ¬ TwoClosingQuotes isQuotation s.taken ∧
        (skipsBreak segs = true → (s.closes pCnt || marksBefore segs) = true) := by
  constructor
  · intro h
    refine ⟨fun htwo => not_represented_of_twoClosingQuotes htwo h.represented, ?_⟩
    intro hskips
    exact h.para (hasParaBreak_append.mpr (Or.inr (hasParaBreak_of_skipsBreak hskips)))
  · intro h
    obtain ⟨hquotes, hskips⟩ := h
    refine ⟨rfl, createSentence_represented hquotes, ?_⟩
    intro hpara
    rcases hasParaBreak_append.mp hpara with htaken | hgap
    · show (s.closes pCnt || marksBefore segs) = true
      rw [Segment.closes, hwell.marks htaken]
      rfl
    · rcases hasParaBreak_blocks hrest hgap with h | h
      · exact hskips h
      · show (s.closes pCnt || marksBefore segs) = true
        rw [h, Bool.or_true]

theorem quotesOk_cons {s : Segment} {segs : List Segment} :
    QuotesOk isQuotation (s :: segs) ↔
      (s.hasWords = true → ¬ TwoClosingQuotes isQuotation s.taken) ∧
        QuotesOk isQuotation segs := by
  simp only [QuotesOk, List.forall_mem_cons]

theorem forall₂_keepsBlock_iff : ∀ {segs : List Segment}, (∀ s ∈ segs, s.WellFormed) →
    ∀ pCnt : ℕ, List.Forall₂ (KeepsBlock isQuotation) (blocks segs).2
        (sentencesOf isQuotation pCnt segs) ↔
      QuotesOk isQuotation segs ∧ BreaksOk pCnt segs := by
  intro segs
  induction segs with
  | nil =>
    intro _ pCnt
    simp [blocks, sentencesOf, QuotesOk, BreaksOk]
  | cons s segs ih =>
    intro hwell pCnt
    have hrest : ∀ r ∈ segs, r.WellFormed := fun r hr => hwell r (List.mem_cons_of_mem s hr)
    rw [blocks, sentencesOf, quotesOk_cons, BreaksOk]
    cases hwords : s.hasWords with
    | true =>
      rw [if_pos rfl, if_pos rfl, if_pos rfl, List.forall₂_cons,
        keepsBlock_iff (hwell s List.mem_cons_self) hrest pCnt, ih hrest]
      tauto
    | false =>
      rw [if_neg (by simp), if_neg (by simp), if_neg (by simp), ih hrest]
      simp

/-- The rounds over the groups of a text are enough, and the sentences keep the groups and the
breaks of paragraphs if and only if no word is closed by two quotes, and no sentence misses a break
that is skipped behind it. -/
theorem createSentences_keep_iff (isQuotation : ℕ → Bool) (groups : List TextGroup) :
    ∃ segs sentences, segments groups.length groups = some segs ∧
      createSentences isQuotation groups = some sentences ∧
      (SentencesKeep isQuotation segs groups sentences ↔
        QuotesOk isQuotation segs ∧ BreaksOk 0 segs) := by
  obtain ⟨segs, hsegs, hgroups, hwell⟩ := segments_spec groups.length groups le_rfl
  refine ⟨segs, _, hsegs, by rw [createSentences, hsegs]; rfl, ?_⟩
  show SentencesKeep isQuotation segs groups
    (markLastSentParEnd (segs.foldl (addSegment isQuotation) ([], 0)).1) ↔ _
  rw [foldl_addSegment, ← forall₂_keepsBlock_iff hwell]
  constructor
  · intro h
    exact h.sentences
  · intro h
    exact ⟨by rw [← blocks_groups, hgroups], blocks_dropped hwell, h⟩

/-- A word and two quotes: the second mark takes the place of the first. -/
theorem createSentences_loses_quote :
    ¬ ∀ groups : List TextGroup, ∃ segs sentences, segments groups.length groups = some segs ∧
      createSentences (fun c => c = 34) groups = some sentences ∧
      SentencesKeep (fun c => c = 34) segs groups sentences := by
  intro h
  obtain ⟨segs, sentences, hsegs, hsentences, hkeep⟩ := h [
    { no := 0, text := [97] },
    { no := 1, gtyp := .punct, pos := 1, text := [34] },
    { no := 2, gtyp := .punct, pos := 2, text := [34] }]
  have hsegs' : some segs = some [Segment.stretch [] [
      { no := 0, text := [97] },
      { no := 1, gtyp := .punct, pos := 1, text := [34] },
      { no := 2, gtyp := .punct, pos := 2, text := [34] }]] := by
    rw [← hsegs]
    decide
  have hsentences' : some sentences = some [⟨[⟨0, .word, [97], false, false, true, false⟩], true, [
      { no := 0, text := [97] },
      { no := 1, gtyp := .punct, pos := 1, text := [34] },
      { no := 2, gtyp := .punct, pos := 2, text := [34] }]⟩] := by
    rw [← hsentences]
    decide
  rw [Option.some.injEq] at hsegs' hsentences'
  have hkept := hkeep.sentences
  rw [hsegs', hsentences'] at hkept
  cases hkept with
  | cons hblock _ =>
    have hlength := hblock.represented.length_eq
    revert hlength
    decide

/-- A space with a break of paragraphs that is skipped between two sentences. -/
example : (createSentences (fun c => c = 34) [
    { no := 0, brk := .sentBreak, text := [97] },
    { no := 1, gtyp := .space, pos := 1, brk := .paraBreak, text := [32] },
    { no := 2, pos := 2, text := [98] }]).map (List.map Sentence.bPBreak) =
      some [false, true] := by
  decide

end TomitaParser.Text
