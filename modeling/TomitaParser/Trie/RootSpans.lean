import TomitaParser.Glr.Enabled
import TomitaParser.Trie.InputSequence
/-! # Root spans

What the input sequence hands on: below the limit of the parser, the occurrences are exactly the
non-empty spans of the words that the root of the grammar derives. -/

set_option linter.unusedSectionVars false

namespace TomitaParser
open OrderedSet LoopRun Cfg TrieHolder

variable {σ Agr Item : Type*} [Inhabited Item]

/-- The input that a robust parser reads: the words with their start flags, then the end of the
stream. -/
def startedInput (G : EncodedGrammar) (starts : List ℕ) (words : List (List ℕ)) :
    List (List ℕ × Bool) :=
  words.mapIdx (fun i w => (w, starts.contains i)) ++
    [([G.augmentedGrammar.getEndOfStreamSymbol], false)]

section Input
variable {G : EncodedGrammar} {starts : List ℕ} {words : List (List ℕ)} {i : ℕ}

theorem getElem?_startedInput {w : List ℕ} (h : words[i]? = some w) :
    (startedInput G starts words)[i]? = some (w, starts.contains i) := by
  have hlt := (List.getElem?_eq_some_iff.mp h).1
  rw [startedInput, List.getElem?_append_left (by simpa using hlt), List.getElem?_mapIdx, h]
  rfl

theorem getElem?_startedInput_last : (startedInput G starts words)[words.length]? =
    some ([G.augmentedGrammar.getEndOfStreamSymbol], false) := by
  simp [startedInput]

theorem wordHas_startedInput {a : ℕ} (h : WordHas (startedInput G starts words) i a)
    (ha : a ≠ G.augmentedGrammar.getEndOfStreamSymbol) : ∃ w, words[i]? = some w ∧ a ∈ w := by
  obtain ⟨w, hw, hmem⟩ := h
  rcases Nat.lt_or_ge i words.length with hlt | hge
  · rw [getElem?_startedInput (List.getElem?_eq_getElem hlt)] at hw
    cases hw
    exact ⟨_, List.getElem?_eq_getElem hlt, hmem⟩
  · have hend : i = words.length := by
      have := (List.getElem?_eq_some_iff.mp hw).1
      simp only [startedInput, List.length_append, List.length_mapIdx,
        List.length_singleton] at this
      omega
    rw [hend, getElem?_startedInput_last] at hw
    cases hw
    exact absurd (List.mem_singleton.mp hmem) ha

theorem startedInput_endOfStream
    (hwords : ∀ w ∈ words, G.augmentedGrammar.getEndOfStreamSymbol ∈ w) (hi : i ≤ words.length) :
    WordHas (startedInput G starts words) i G.augmentedGrammar.getEndOfStreamSymbol := by
  rcases Nat.lt_or_eq_of_le hi with hlt | rfl
  · exact ⟨_, getElem?_startedInput (List.getElem?_eq_getElem hlt), hwords _ (List.getElem_mem hlt)⟩
  · exact ⟨_, getElem?_startedInput_last, List.mem_singleton_self _⟩

end Input

/-- A robust parser stops only where a call is interrupted. -/
theorem parseWords_eq_parseSymbols {cfg : ParserConfig σ Agr Item}
    (hrobust : cfg.options.robust = true) (endOfStream fuel : ℕ) (starts : List ℕ)
    (words : List (List ℕ)) : ∀ (wordNo : ℕ) (p : GlrParser σ Item), words ≠ [] →
      parseWords cfg endOfStream fuel starts wordNo words p = parseSymbols cfg fuel
        (words.mapIdx (fun i w => (w, starts.contains (wordNo + i))) ++ [([endOfStream], false)])
          p := by
  have hresult : ∀ (symbols : List ℕ) (start : Bool) (p : GlrParser σ Item),
      (parseSymbol cfg fuel symbols start p).2.1 =
        decide ((parseSymbol cfg fuel symbols start p).1 = .finished) := by
    intro symbols start p
    rw [parseSymbol_eq, finishCall]
    split_ifs with h
    · exact (decide_eq_false h).symm
    · simp [hrobust]
  induction words with
  | nil => exact fun _ _ h => absurd rfl h
  | cons word words ih =>
    intro wordNo p _
    rw [parseWords, List.mapIdx_cons, List.cons_append, parseSymbols, Nat.add_zero]
    have hword := hresult word (starts.contains wordNo) p
    generalize parseSymbol cfg fuel word (starts.contains wordNo) p = r at hword ⊢
    dsimp only
    rw [hword]
    by_cases hfinished : r.1 = .finished
    · rw [if_pos (decide_eq_true hfinished), if_neg (not_not.mpr hfinished)]
      cases words with
      | nil =>
        have hlast := hresult [endOfStream] false r.2.2
        rw [if_pos List.isEmpty_nil, List.mapIdx_nil, List.nil_append, parseSymbols, parseSymbols]
        dsimp only
        split_ifs with hend
        · rfl
        · rw [not_not.mp hend]
      | cons word' words =>
        rw [if_neg (by simp), ih (wordNo + 1) r.2.2 (List.cons_ne_nil _ _)]
        simp only [Nat.add_assoc, Nat.add_comm 1]
    · rw [if_neg (by simpa using hfinished), if_pos hfinished]

/-- The symbols that the words are assigned: terminals of the grammar, and the end of the stream
beside them. -/
structure EncodedGrammar.Assigned (G : EncodedGrammar) (words : List (List ℕ)) : Prop where
  symbol_lt : ∀ w ∈ words, ∀ a ∈ w, a < G.augmentedGrammar.symbolCount
  terminal : ∀ w ∈ words, ∀ a ∈ w, G.augmentedGrammar.isMeta a = false
  endOfStream : ∀ w ∈ words, G.augmentedGrammar.getEndOfStreamSymbol ∈ w

/-- The root derives terminals of the words from `i` up to `j`. -/
def EncodedGrammar.RootSpan (G : EncodedGrammar) (words : List (List ℕ)) (i j : ℕ) : Prop :=
  ∃ t : List ℕ, Derives G.Production [G.rootIndex] t ∧ (∀ a ∈ t, G.isMeta a = false) ∧
    i + t.length = j ∧ ∀ k (hk : k < t.length), ∃ w, words[i + k]? = some w ∧ t[k] ∈ w

namespace EncodedGrammar
variable {G : EncodedGrammar} {T : TrieHolder} {words : List (List ℕ)} {i j : ℕ}

theorem RootSpan.le_length (h : G.RootSpan words i j) (hij : i < j) : j ≤ words.length := by
  obtain ⟨t, _, _, rfl, hread⟩ := h
  obtain ⟨w, hw, _⟩ := hread (t.length - 1) (by omega)
  have := (List.getElem?_eq_some_iff.mp hw).1
  omega

theorem Assigned.terminal_of_ne (hwords : G.Assigned words) {w : List ℕ} (hw : w ∈ words) {a : ℕ}
    (ha : a ∈ w) (hne : a ≠ G.augmentedGrammar.getEndOfStreamSymbol) :
    a < G.symbolCount ∧ G.isMeta a = false := by
  have hlt := hwords.symbol_lt w hw a ha
  have hterm := hwords.terminal w hw a ha
  have hroot : a ≠ G.symbolCount + 1 := by
    rintro rfl
    have hmeta := WorkGrammar.augmented_isMeta_newRoot G.toWorkGrammar G.agreementCount
    rw [← augmentedGrammar, hterm] at hmeta
    cases hmeta
  rw [augmentedGrammar_getEndOfStreamSymbol] at hne
  rw [augmentedGrammar_symbolCount] at hlt
  have hlt' : a < G.symbolCount := by omega
  exact ⟨hlt', by rwa [← G.augmentedGrammar_isMeta hlt']⟩

theorem rootSpan_of_spans (hwords : G.Assigned words) {starts : List ℕ}
    (h : Spans G.Production (WordHas (startedInput G starts words)) [G.rootIndex] i j) :
    G.RootSpan words i j := by
  obtain ⟨t, ht, hlen, hread⟩ := h.yields (Q := fun a => a < G.symbolCount)
    (by
      rintro A rhs ⟨R, hR, _, rfl⟩ a ha
      exact G.wellFormed.right_lt R hR a ha)
    (by
      intro a ha
      rw [List.mem_singleton.mp ha]
      exact G.rootIndex_lt)
  have hword : ∀ k (hk : k < t.length), ∃ w, words[i + k]? = some w ∧ t[k] ∈ w := by
    intro k hk
    obtain ⟨hhas, hlt⟩ := hread k hk
    refine wordHas_startedInput hhas ?_
    rw [augmentedGrammar_getEndOfStreamSymbol]
    exact hlt.ne
  refine ⟨t, ht.derives, ?_, hlen, hword⟩
  intro a ha
  obtain ⟨k, hk, rfl⟩ := List.mem_iff_getElem.mp ha
  obtain ⟨w, hw, hmem⟩ := hword k hk
  refine (hwords.terminal_of_ne (List.mem_of_getElem? hw) hmem ?_).2
  rw [augmentedGrammar_getEndOfStreamSymbol]
  exact (hread k hk).2.ne

theorem RootSpan.spans (h : G.RootSpan words i j) (starts : List ℕ) :
    Spans G.augmentedGrammar.InnerProduction
      (WordTerminal G.augmentedGrammar (startedInput G starts words)) [G.rootIndex] i j := by
  obtain ⟨t, ht, hterm, rfl, hread⟩ := h
  refine spans_of_reads ht hterm fun k hk => ?_
  obtain ⟨w, hw, ha⟩ := hread k hk
  exact ⟨_, getElem?_startedInput hw, ha⟩

end EncodedGrammar

theorem mem_rootOccurrences {G : WorkGrammar} {nodes : List (SymbolNode Item)}
    {o : Occurrence Item} : o ∈ rootOccurrences G nodes ↔ ∃ s sn, nodes[s]? = some sn ∧
      (G.item sn.symbolNo).grammarRoot = true ∧ sn.disabled = false ∧
      sn.symbolNo ≠ G.getEndOfStreamSymbol ∧ o = { first := sn.inputStart
                                                   second := sn.inputEnd
                                                   grammarRuleNo := s
                                                   inputItem := some sn.item } := by
  rw [rootOccurrences, List.mem_filterMap]
  constructor
  · rintro ⟨⟨s, sn⟩, hmem, hsome⟩
    obtain ⟨i, hi, heq⟩ := List.mem_mapIdx.mp hmem
    cases heq
    dsimp only at hsome
    split_ifs at hsome with hcond
    simp only [Bool.and_eq_true, Bool.not_eq_true', decide_eq_true_eq] at hcond
    cases hsome
    exact ⟨s, _, List.getElem?_eq_getElem hi, hcond.1, hcond.2.1, hcond.2.2, rfl⟩
  · rintro ⟨s, sn, hs, hroot, hdisabled, hne, rfl⟩
    obtain ⟨hlt, rfl⟩ := List.getElem?_eq_some_iff.mp hs
    refine ⟨(s, nodes[s]), List.mem_mapIdx.mpr ⟨s, hlt, rfl⟩, ?_⟩
    simp only [hroot, hdisabled, hne, ne_eq, not_false_eq_true, decide_true, Bool.not_false,
      Bool.and_self, if_true]

section Exact
variable {G : EncodedGrammar} {T : TrieHolder} {words : List (List ℕ)}

theorem parseWords_startedInput {cfg : ParserConfig σ Agr Item}
    (hrobust : cfg.options.robust = true) (fuel : ℕ) (starts : List ℕ) (hne : words ≠ [])
    (p : GlrParser σ Item) :
    parseWords cfg G.augmentedGrammar.getEndOfStreamSymbol fuel starts 0 words p =
      parseSymbols cfg fuel (startedInput G starts words) p := by
  rw [parseWords_eq_parseSymbols hrobust _ _ _ _ _ _ hne, startedInput]
  simp only [Nat.zero_add]

/-- However the run ended, what is reported spans the words as a derivation of the root. -/
theorem rootOccurrences_sound (hT : G.buildAutomat = some T) (hwords : G.Assigned words)
    (agreements : List (List Agr)) (factory : InputItemFactory σ Agr Item)
    (options : ParserOptions) (fuel : ℕ) (starts : List ℕ) (p : GlrParser σ Item)
    {o : Occurrence Item} (ho : o ∈ rootOccurrences G.augmentedGrammar
      (parseSymbols (G.parserConfig agreements factory options) fuel (startedInput G starts words)
        (initGlrParser p)).2.symbolNodes) :
    o.first < o.second ∧ G.RootSpan words o.first o.second := by
  obtain ⟨s, sn, hs, hroot, _, hne, rfl⟩ := mem_rootOccurrences.mp ho
  have hsound := parseSymbols_sound G agreements factory options fuel
    (startedInput G starts words) p
  dsimp only at hsound
  have hinv := (parseSymbols_spec G.augmentedGrammar_wellFormed
    G.augmentedGrammar_augmented.endOfStream_terminal
    (computeCollection_automaton G.augmentedGrammar_wellFormed.toNumbered)
    (G.parserConfig_tableFor agreements factory options) fuel (startedInput G starts words)
    (initGlrParser p) rfl (initGlrParser_idle _ _ _ _ p)).1
  generalize (parseSymbols (G.parserConfig agreements factory options) fuel
    (startedInput G starts words) (initGlrParser p)).2 = q at hs hsound hinv
  have hlt : s < q.symbolNodes.length := (List.getElem?_eq_some_iff.mp hs).1
  have hnode : q.symbolNode s = sn := by
    rw [Gss.symbolNode, List.getD_eq_getElem?_getD, hs, Option.getD_some]
  obtain ⟨hparse, hleaf, hspans⟩ := hsound s hlt
  have hstart := (hinv.symbol s hlt).start_lt
  rw [hnode] at hparse hleaf hspans hstart
  refine ⟨hstart, ?_⟩
  have hsymbol : sn.symbolNo = G.rootIndex := by
    cases hchildren : sn.parseChildren with
    | cons pc rest =>
      -- the left part of a rule is a symbol of the grammar itself
      obtain ⟨⟨R, hR, _, hleft, _⟩, _⟩ := hparse pc (by rw [hchildren]; exact List.mem_cons_self)
      have hsym := G.wellFormed.left_lt R hR
      rw [hleft] at hsym
      rw [G.augmentedGrammar_item hsym] at hroot
      exact G.eq_rootIndex hsym hroot
    | nil =>
      -- a leaf is a terminal, and the root is none
      obtain ⟨w, hw, hmem⟩ := wordHas_startedInput (hleaf hchildren).2 hne
      obtain ⟨hsym, hterm⟩ := hwords.terminal_of_ne (List.mem_of_getElem? hw) hmem hne
      rw [G.augmentedGrammar_item hsym] at hroot
      rw [G.eq_rootIndex hsym hroot, G.isMeta_rootIndex hT] at hterm
      cases hterm
  rw [hsymbol] at hspans
  exact EncodedGrammar.rootSpan_of_spans hwords hspans

/-- Below the limit of the parser, `Process` with enough fuel reports exactly the non-empty spans of
the words that the root of the grammar derives. -/
theorem process_rootSpans (G : EncodedGrammar) (agreements : List (List Agr))
    (factory : InputItemFactory σ Agr Item) (hacc : Accepting factory)
    (hT : G.buildAutomat = some T) (hwords : G.Assigned words) (heap : σ) :
    ∃ N, ∀ fuel, N ≤ fuel →
      let cfg := G.parserConfig agreements factory { robust := true }
      limitReached (parseWords cfg G.augmentedGrammar.getEndOfStreamSymbol fuel
          (startPoints T words) 0 words (initGlrParser (newGlrParser heap))).2 = false →
        let r := process cfg G.augmentedGrammar T fuel words heap
        r.1 = .finished ∧ ∀ i j, (∃ o ∈ r.2.2, o.first = i ∧ o.second = j) ↔
          i < j ∧ G.RootSpan words i j := by
  have hstart : ∀ {i j}, i < j → G.RootSpan words i j → i ∈ startPoints T words := by
    rintro i j _ ⟨t, ht, hterm, _, hread⟩
    exact G.derivation_mem_startPoints hT ht hterm hread
  by_cases hnone : (startPoints T words).isEmpty = true
  · -- without a start point nothing is parsed, and there is nothing to find
    refine ⟨0, fun fuel _ => ?_⟩
    intro cfg _ r
    have hr : r = (.finished, 0, []) := if_pos hnone
    rw [hr]
    refine ⟨rfl, fun i j => ⟨?_, ?_⟩⟩
    · rintro ⟨o, ho, _⟩
      exact absurd ho List.not_mem_nil
    · rintro ⟨hij, hspan⟩
      have hmem := hstart hij hspan
      rw [List.isEmpty_iff.mp hnone] at hmem
      exact absurd hmem List.not_mem_nil
  · have hne : words ≠ [] := by
      rintro rfl
      exact hnone rfl
    have hG := G.augmentedGrammar_augmented
    have hC := computeCollection_automaton hG.toNumbered
    have htable := G.parserConfig_tableFor agreements factory { robust := true }
    obtain ⟨N, hN⟩ := parseSymbols_completeAt hG.toWellFormed hG.endOfStream_terminal hC htable hacc
      rfl (startedInput G (startPoints T words) words) (initGlrParser (newGlrParser heap)) rfl
      (initGlrParser_idle _ _ _ _ _) fun j w _ hj => absurd hj (Nat.not_lt_zero j)
    refine ⟨N, fun fuel hfuel => ?_⟩
    intro cfg hlimit r
    have hr : r = collectOccurrences G.augmentedGrammar (parseSymbols cfg fuel
        (startedInput G (startPoints T words) words) (initGlrParser (newGlrParser heap))) := by
      rw [← @parseWords_startedInput _ _ _ _ G words cfg rfl fuel (startPoints T words) hne]
      exact if_neg hnone
    rw [@parseWords_startedInput _ _ _ _ G words cfg rfl fuel _ hne] at hlimit
    rcases hN with hstop | ⟨p', hrun, hinv, hcomplete⟩
    · rw [hstop fuel hfuel] at hlimit
      cases hlimit
    · have hp' : parseSymbols cfg fuel (startedInput G (startPoints T words) words)
          (initGlrParser (newGlrParser heap)) = (.finished, p') := hrun fuel hfuel
      have hsound := fun o => @rootOccurrences_sound _ _ _ _ _ _ _ hT hwords agreements factory
        { robust := true } fuel (startPoints T words) (newGlrParser heap) o
      have hinit : Enabled (initGlrParser (newGlrParser heap) : GlrParser σ Item) :=
        ⟨fun sn hsn => absurd hsn List.not_mem_nil, rfl⟩
      have henabled := @Enabled.parseSymbols _ _ _ _ cfg _ rfl fuel
        (startedInput G (startPoints T words) words) hinit
      change ∀ o, o ∈ rootOccurrences G.augmentedGrammar (parseSymbols cfg fuel _ _).2.symbolNodes →
        _ at hsound
      rw [hp'] at hsound henabled hr
      rw [hr]
      refine ⟨rfl, fun i j => ⟨?_, ?_⟩⟩
      · rintro ⟨o, ho, rfl, rfl⟩
        exact hsound o ho
      · rintro ⟨hij, hspan⟩
        obtain ⟨w, hw⟩ : ∃ w, words[i]? = some w := by
          have := hspan.le_length hij
          exact ⟨_, List.getElem?_eq_getElem (by omega)⟩
        obtain ⟨sn, hsn, hroot, hfirst, hsecond⟩ := exists_rootNode hG hC hinv hcomplete
          (hspan.spans _) ⟨_, getElem?_startedInput hw, by simpa using hstart hij hspan⟩
          (startedInput_endOfStream hwords.endOfStream (hspan.le_length hij))
        obtain ⟨s, hs⟩ := List.mem_iff_getElem?.mp hsn
        refine ⟨_, mem_rootOccurrences.mpr ⟨s, sn, hs, ?_, henabled.symbols sn hsn, ?_, rfl⟩,
          hfirst, hsecond⟩
        · rw [hroot, G.augmentedGrammar_item G.rootIndex_lt]
          exact G.item_rootIndex
        · rw [hroot, G.augmentedGrammar_getEndOfStreamSymbol]
          exact G.rootIndex_lt.ne

end Exact

/-- The grammar of one word derives the first word of a text. -/
theorem rootSpan_oneWord : oneWordGrammar.RootSpan [[1, 2], [2]] 0 1 := by
  have hderives : Cfg.Derives oneWordGrammar.Production [0] [1] :=
    (Cfg.Yields.rule ⟨⟨0, 0, ⟨[1], 0⟩⟩, by decide, rfl, rfl⟩ (Cfg.Yields.refl [1])
      Cfg.Yields.nil).derives
  refine ⟨[1], hderives, by decide, rfl, ?_⟩
  intro k hk
  obtain rfl : k = 0 := Nat.lt_one_iff.mp hk
  exact ⟨[1, 2], rfl, List.mem_cons_self⟩

end TomitaParser
