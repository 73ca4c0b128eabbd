import TomitaParser.Glr.StartPoints
import TomitaParser.Glr.Completeness
import TomitaParser.Trie.AhoKorasick
/-! # Input sequences

`CInputSequenceGLR`: the trie finds the positions where a prefix of the grammar root begins, and the
parser starts at these positions only. No occurrence of the root is lost by that. -/

namespace TomitaParser
open OrderedSet LoopRun Cfg TrieHolder

section Trie
variable {Item : Type*}

/-- The states after one word, from one state. -/
def stepSymbol (T : TrieHolder) (wordNo state : ℕ) (s : List ℕ × List (Occurrence Item))
    (symbol : ℕ) : List ℕ × List (Occurrence Item) :=
  let r : ℕ × List (Occurrence Item) := T.nextState state wordNo symbol
  (insertBy natLt r.1 s.1, s.2 ++ r.2)

/-- One word of `FindOccurrencesWithTrie`; a word without symbols goes back to the root. -/
def stepWord (T : TrieHolder) (wordNo : ℕ) (word : List ℕ)
    (s : List ℕ × List (Occurrence Item)) : List ℕ × List (Occurrence Item) :=
  let r := s.1.foldl (fun s' state => word.foldl (stepSymbol T wordNo state) s') ([], s.2)
  (if r.1.isEmpty then [0] else r.1, r.2)

def findOccurrencesFrom (T : TrieHolder) :
    ℕ → List (List ℕ) → List ℕ × List (Occurrence Item) → List (Occurrence Item)
  | _, [], s => s.2
  | wordNo, word :: words, s => findOccurrencesFrom T (wordNo + 1) words (stepWord T wordNo word s)

/-- `FindOccurrencesWithTrie`. -/
def findOccurrencesWithTrie (T : TrieHolder) (words : List (List ℕ)) : List (Occurrence Item) :=
  findOccurrencesFrom T 0 words ([0], [])

end Trie

/-- The start points that `Process` collects. -/
def startPoints (T : TrieHolder) (words : List (List ℕ)) : List ℕ :=
  insertAll natLt ((findOccurrencesWithTrie T words : List (Occurrence Unit)).map (·.first)) []

variable {σ Agr Item : Type*} [Inhabited Item]

/-- The words from `wordNo` on, then the end of the stream; a call with the result `false` is the
last one. -/
def parseWords (cfg : ParserConfig σ Agr Item) (endOfStream fuel : ℕ) (starts : List ℕ) :
    ℕ → List (List ℕ) → GlrParser σ Item → RunStatus × GlrParser σ Item
  | _, [], p => (.finished, p)
  | wordNo, word :: words, p =>
    let r := parseSymbol cfg fuel word (starts.contains wordNo) p
    if r.2.1 then
      if words.isEmpty then
        let last := parseSymbol cfg fuel [endOfStream] false r.2.2
        (last.1, last.2.2)
      else parseWords cfg endOfStream fuel starts (wordNo + 1) words r.2.2
    else (r.1, r.2.2)

/-- The symbol nodes for grammar roots, as occurrences that carry the number of the node. -/
def rootOccurrences (G : WorkGrammar) (symbolNodes : List (SymbolNode Item)) :
    List (Occurrence Item) :=
  (symbolNodes.mapIdx fun i sn => (i, sn)).filterMap fun (i, sn) =>
    if (G.item sn.symbolNo).grammarRoot && (!sn.disabled &&
        decide (sn.symbolNo ≠ G.getEndOfStreamSymbol)) then
      some { first := sn.inputStart, second := sn.inputEnd, grammarRuleNo := i
             inputItem := some sn.item }
    else none

/-- The occurrences of a finished run; the result is 0 if there are none. -/
def collectOccurrences (G : WorkGrammar) (r : RunStatus × GlrParser σ Item) :
    RunStatus × ℕ × List (Occurrence Item) :=
  let output := rootOccurrences G r.2.symbolNodes
  (r.1, if output.isEmpty then 0 else r.2.symbolNodes.length, output)

/-- `ApplyGLR_Parsing`: how the run ended, the result, and the occurrences it adds. -/
def applyGlrParsing (cfg : ParserConfig σ Agr Item) (G : WorkGrammar) (fuel : ℕ)
    (words : List (List ℕ)) (starts : List ℕ) (heap : σ) :
    RunStatus × ℕ × List (Occurrence Item) :=
  if starts.isEmpty then (.finished, 0, [])
  else collectOccurrences G (parseWords cfg G.getEndOfStreamSymbol fuel starts 0 words
    (initGlrParser (newGlrParser heap)))

/-- `CInputSequenceGLR::Process`. -/
def process (cfg : ParserConfig σ Agr Item) (G : WorkGrammar) (T : TrieHolder) (fuel : ℕ)
    (words : List (List ℕ)) (heap : σ) : RunStatus × ℕ × List (Occurrence Item) :=
  applyGlrParsing cfg G fuel words (startPoints T words) heap

/-- The trie over the root prefixes, as `BuildGrammar` makes it. -/
def WorkGrammar.buildAutomat (G : WorkGrammar) : Option TrieHolder :=
  TrieHolder.create G.symbolCount (G.rootPrefixes 1)

section Trie
variable {T : TrieHolder}

private theorem stepSymbol_foldl {Item : Type*} (hT : OneLevel T) (wordNo : ℕ) {state : ℕ}
    (hs : state < T.nodes.length) (word : List ℕ) (s : List ℕ × List (Occurrence Item))
    (hstates : ∀ q ∈ s.1, q < T.nodes.length) :
    (∀ q ∈ (word.foldl (stepSymbol T wordNo state) s).1, q < T.nodes.length) ∧
      (∀ o ∈ s.2, o ∈ (word.foldl (stepSymbol T wordNo state) s).2) ∧
      ∀ a ∈ word, ∀ j, (a, j) ∈ (T.node 0).children →
        ∃ o ∈ (word.foldl (stepSymbol T wordNo state) s).2, o.first = wordNo := by
  induction word generalizing s with
  | nil => exact ⟨hstates, fun _ h => h, fun a ha => absurd ha List.not_mem_nil⟩
  | cons b word ih =>
    have hstates' : ∀ q ∈ (stepSymbol T wordNo state s b).1, q < T.nodes.length := by
      intro q hq
      rcases mem_insertBy_natLt.mp hq with rfl | hq
      · exact hT.nextState_lt state wordNo b
      · exact hstates q hq
    obtain ⟨h₁, h₂, h₃⟩ := ih (stepSymbol T wordNo state s b) hstates'
    refine ⟨h₁, fun o ho => h₂ o (List.mem_append_left _ ho), ?_⟩
    intro a ha j hj
    rcases List.mem_cons.mp ha with rfl | ha
    · obtain ⟨o, ho, hfirst⟩ := @OneLevel.mem_nextState T Item hT state wordNo a j hs hj
      exact ⟨o, h₂ o (List.mem_append_right _ ho), hfirst⟩
    · exact h₃ a ha j hj

private theorem stepWord_spec {Item : Type*} (hT : OneLevel T) (wordNo : ℕ) (word : List ℕ)
    (s : List ℕ × List (Occurrence Item)) (hne : s.1 ≠ [])
    (hstates : ∀ q ∈ s.1, q < T.nodes.length) :
    (stepWord T wordNo word s).1 ≠ [] ∧
      (∀ q ∈ (stepWord T wordNo word s).1, q < T.nodes.length) ∧
      (∀ o ∈ s.2, o ∈ (stepWord T wordNo word s).2) ∧
      ∀ a ∈ word, ∀ j, (a, j) ∈ (T.node 0).children →
        ∃ o ∈ (stepWord T wordNo word s).2, o.first = wordNo := by
  obtain ⟨states, occurrences⟩ := s
  -- over the states one after the other
  have hfold : ∀ (states : List ℕ), (∀ q ∈ states, q < T.nodes.length) →
      ∀ s : List ℕ × List (Occurrence Item), (∀ q ∈ s.1, q < T.nodes.length) →
        let r := states.foldl (fun s' state => word.foldl (stepSymbol T wordNo state) s') s
        (∀ q ∈ r.1, q < T.nodes.length) ∧ (∀ o ∈ s.2, o ∈ r.2) ∧
          (states ≠ [] → ∀ a ∈ word, ∀ j, (a, j) ∈ (T.node 0).children →
            ∃ o ∈ r.2, o.first = wordNo) := by
    intro states
    induction states with
    | nil => exact fun _ s hs => ⟨hs, fun _ h => h, fun h => absurd rfl h⟩
    | cons q states ih =>
      intro hq s hs
      obtain ⟨h₁, h₂, h₃⟩ :=
        stepSymbol_foldl hT wordNo (hq q List.mem_cons_self) word s hs
      obtain ⟨k₁, k₂, _⟩ := ih (fun q' hq' => hq q' (List.mem_cons_of_mem q hq')) _ h₁
      refine ⟨k₁, fun o ho => k₂ o (h₂ o ho), ?_⟩
      intro _ a ha j hj
      obtain ⟨o, ho, hfirst⟩ := h₃ a ha j hj
      exact ⟨o, k₂ o ho, hfirst⟩
  obtain ⟨h₁, h₂, h₃⟩ := hfold states hstates ([], occurrences) (by simp)
  refine ⟨?_, ?_, h₂, h₃ hne⟩
  · simp only [stepWord]
    split_ifs with hempty
    · exact List.cons_ne_nil _ _
    · simpa using hempty
  · simp only [stepWord]
    split_ifs with hempty
    · intro q hq
      rw [List.mem_singleton.mp hq]
      exact hT.nonempty
    · exact h₁

private theorem findOccurrencesFrom_spec {Item : Type*} (hT : OneLevel T) (words : List (List ℕ)) :
    ∀ (wordNo : ℕ) (s : List ℕ × List (Occurrence Item)), s.1 ≠ [] →
      (∀ q ∈ s.1, q < T.nodes.length) →
      (∀ o ∈ s.2, o ∈ findOccurrencesFrom T wordNo words s) ∧
        ∀ i w, words[i]? = some w → ∀ a ∈ w, ∀ j, (a, j) ∈ (T.node 0).children →
          ∃ o ∈ findOccurrencesFrom T wordNo words s, o.first = wordNo + i := by
  induction words with
  | nil => exact fun _ _ _ _ => ⟨fun _ h => h, fun i w h => by simp at h⟩
  | cons word words ih =>
    intro wordNo s hne hstates
    obtain ⟨hne', hstates', hkeep, hfound⟩ := stepWord_spec hT wordNo word s hne hstates
    obtain ⟨h₁, h₂⟩ := ih (wordNo + 1) (stepWord T wordNo word s) hne' hstates'
    refine ⟨fun o ho => h₁ o (hkeep o ho), ?_⟩
    intro i w hw a ha j hj
    cases i with
    | zero =>
      obtain rfl : word = w := Option.some.inj hw
      obtain ⟨o, ho, hfirst⟩ := hfound a ha j hj
      exact ⟨o, h₁ o ho, hfirst⟩
    | succ i =>
      obtain ⟨o, ho, hfirst⟩ := h₂ i w hw a ha j hj
      exact ⟨o, ho, by omega⟩

theorem mem_startPoints {patterns : List WorkRule} (hT : OneLevel T)
    (hpatterns : T.HasPatterns patterns) {words : List (List ℕ)} {i a : ℕ} {w : List ℕ}
    (hw : words[i]? = some w) (ha : a ∈ w) {P : WorkRule} (hP : P ∈ patterns)
    (hitems : P.rightPart.items = [a]) : i ∈ startPoints T words := by
  obtain ⟨j, hj⟩ := hpatterns P hP a hitems
  obtain ⟨o, ho, hfirst⟩ := (@findOccurrencesFrom_spec T Unit hT words 0 ([0], [])
    (List.cons_ne_nil _ _) (by simpa using hT.nonempty)).2 i w hw a ha j hj
  rw [startPoints, mem_insertAll_natLt]
  refine Or.inl (List.mem_map.mpr ⟨o, ho, ?_⟩)
  omega

end Trie

section Runs
variable {G : WorkGrammar} {C : CollectionSet} {cfg : ParserConfig σ Agr Item}

/-- The invariant of an idle parser, whatever the words were. -/
abbrev Idle (G : WorkGrammar) (C : CollectionSet) (cfg : ParserConfig σ Agr Item)
    (p : GlrParser σ Item) : Prop := IdleInv G C cfg.table (fun _ _ => True) p

private theorem idle_of_result (hG : G.WellFormed)
    (heos : G.isMeta G.getEndOfStreamSymbol = false) (hC : Automaton G C)
    (hT : TableFor G C cfg.table) {p : GlrParser σ Item} (hp : Idle G C cfg p) (fuel : ℕ)
    (symbols : List ℕ) (startPoint : Bool)
    (h : (parseSymbol cfg fuel symbols startPoint p).2.1 = true) :
    Idle G C cfg (parseSymbol cfg fuel symbols startPoint p).2.2 := by
  refine ((parseSymbol_spec hG heos hC hT hp (fun _ _ => trivial) fuel startPoint).idle ?_).1
  rw [parseSymbol_eq, finishCall] at h ⊢
  split_ifs at h ⊢
  rfl

omit [Inhabited Item] in
private theorem limitReached_congr {p q : GlrParser σ Item} (hs : q.symbolNodes = p.symbolNodes)
    (hc : q.createdGroups = p.createdGroups) : limitReached q = limitReached p := by
  rw [limitReached, limitReached, hs, hc]

private theorem parseWords_limit (hG : G.WellFormed)
    (heos : G.isMeta G.getEndOfStreamSymbol = false) (hC : Automaton G C)
    (hT : TableFor G C cfg.table) (hbreak : cfg.options.breakAfterMaxSymbolNodesCount = true)
    (endOfStream : ℕ) {fuel : ℕ} (hfuel : 0 < fuel) (starts : List ℕ) (words : List (List ℕ)) :
    ∀ (wordNo : ℕ) (p : GlrParser σ Item), Idle G C cfg p → limitReached p = true →
      (parseWords cfg endOfStream fuel starts wordNo words p).1 ≠ .outOfFuel ∧
        (parseWords cfg endOfStream fuel starts wordNo words p).2.symbolNodes =
          p.symbolNodes := by
  induction words with
  | nil => exact fun _ _ _ _ => ⟨nofun, rfl⟩
  | cons word words ih =>
    intro wordNo p hp hlimit
    obtain ⟨hstatus, hsymbols, hgroups⟩ :=
      parseSymbol_limit hbreak hp hlimit word (starts.contains wordNo) hfuel
    have hidle := idle_of_result hG heos hC hT hp fuel word (starts.contains wordNo)
    rw [parseWords]
    generalize parseSymbol cfg fuel word (starts.contains wordNo) p = r
      at hstatus hsymbols hgroups hidle ⊢
    have hlimit' : limitReached r.2.2 = true := by
      rw [limitReached_congr hsymbols hgroups, hlimit]
    dsimp only
    split_ifs with hgo hlast
    · have hcall := parseSymbol_limit hbreak (hidle hgo) hlimit' [endOfStream] false hfuel
      exact ⟨hcall.1, hcall.2.1.trans hsymbols⟩
    · obtain ⟨h₁, h₂⟩ := ih (wordNo + 1) r.2.2 (hidle hgo) hlimit'
      exact ⟨h₁, h₂.trans hsymbols⟩
    · exact ⟨hstatus, hsymbols⟩

private theorem lastCall_ends (hG : G.WellFormed)
    (heos : G.isMeta G.getEndOfStreamSymbol = false) (hC : Automaton G C)
    (hT : TableFor G C cfg.table) (hbreak : cfg.options.breakAfterMaxSymbolNodesCount = true)
    (symbols : List ℕ) {p : GlrParser σ Item} (hp : Idle G C cfg p) :
    ∃ N, ∀ fuel, N ≤ fuel → (parseSymbol cfg fuel symbols false p).1 ≠ .outOfFuel := by
  by_cases hlimit : limitReached p = true
  · exact ⟨1, fun fuel hfuel => (parseSymbol_limit hbreak hp hlimit symbols false hfuel).1⟩
  · obtain ⟨N, r, hrun, hr⟩ := parseSymbol_ends hG heos hC hT hbreak hp (by simpa using hlimit)
      symbols (fun _ _ => trivial) false
    refine ⟨N, fun fuel hfuel => ?_⟩
    rw [hrun fuel hfuel]
    exact hr

/-- Two runs over the same words agree on the symbol nodes if the one starts wherever the other does
and the start state has a transition. -/
theorem parseWords_agree (hG : G.WellFormed)
    (heos : G.isMeta G.getEndOfStreamSymbol = false) (hC : Automaton G C)
    (hT : TableFor G C cfg.table) (hbreak : cfg.options.breakAfterMaxSymbolNodesCount = true)
    (endOfStream : ℕ) {starts all : List ℕ} (words : List (List ℕ)) :
    ∀ (wordNo : ℕ) (p : GlrParser σ Item), Idle G C cfg p →
      (∀ i w, words[i]? = some w → all.contains (wordNo + i) = true ∧
        (starts.contains (wordNo + i) = true ∨ NoStart C w)) →
      ∃ N, ∀ fuel, N ≤ fuel →
        (parseWords cfg endOfStream fuel starts wordNo words p).1 ≠ .outOfFuel ∧
          (parseWords cfg endOfStream fuel all wordNo words p).1 ≠ .outOfFuel ∧
            (parseWords cfg endOfStream fuel starts wordNo words p).2.symbolNodes =
              (parseWords cfg endOfStream fuel all wordNo words p).2.symbolNodes := by
  induction words with
  | nil => exact fun _ _ _ _ => ⟨0, fun _ _ => ⟨nofun, nofun, rfl⟩⟩
  | cons word words ih =>
    intro wordNo p hp hstarts
    by_cases hlimit : limitReached p = true
    · refine ⟨1, fun fuel hfuel => ?_⟩
      obtain ⟨h₁, h₂⟩ := parseWords_limit hG heos hC hT hbreak endOfStream hfuel starts
        (word :: words) wordNo p hp hlimit
      obtain ⟨h₃, h₄⟩ := parseWords_limit hG heos hC hT hbreak endOfStream hfuel all
        (word :: words) wordNo p hp hlimit
      exact ⟨h₁, h₃, h₂.trans h₄.symm⟩
    · have hlimit' : limitReached p = false := by simpa using hlimit
      obtain ⟨hall, hword⟩ := hstarts 0 word rfl
      rw [Nat.add_zero] at hall hword
      -- the calls for this word have one and the same result
      obtain ⟨N, r, hcall, hr⟩ : ∃ N r, (∀ fuel, N ≤ fuel →
          parseSymbol cfg fuel word (starts.contains wordNo) p = r ∧
            parseSymbol cfg fuel word (all.contains wordNo) p = r) ∧ r.1 ≠ .outOfFuel := by
        rw [hall]
        rcases hword with hstart | hno
        · rw [hstart]
          obtain ⟨N, r, hrun, hr⟩ := parseSymbol_ends hG heos hC hT hbreak hp hlimit' word
            (fun _ _ => trivial) true
          exact ⟨N, r, fun fuel hfuel => ⟨hrun fuel hfuel, hrun fuel hfuel⟩, hr⟩
        · exact parseSymbol_noStart hG heos hC hT hbreak hp (fun _ _ => trivial) hlimit' hno
            (starts.contains wordNo)
      have hidle : r.2.1 = true → Idle G C cfg r.2.2 := by
        have h := idle_of_result hG heos hC hT hp N word (starts.contains wordNo)
        rw [(hcall N (le_refl N)).1] at h
        exact h
      by_cases hgo : r.2.1 = true
      · by_cases hlast : words.isEmpty = true
        · obtain ⟨M, hM⟩ := lastCall_ends hG heos hC hT hbreak [endOfStream] (hidle hgo)
          refine ⟨max N M, fun fuel hfuel => ?_⟩
          obtain ⟨h₁, h₂⟩ := hcall fuel (le_trans (le_max_left N M) hfuel)
          have h₃ := hM fuel (le_trans (le_max_right N M) hfuel)
          simp only [parseWords, h₁, h₂, hgo, hlast, if_true]
          exact ⟨h₃, h₃, trivial⟩
        · obtain ⟨M, hM⟩ := ih (wordNo + 1) r.2.2 (hidle hgo) fun i w hw => by
            have := hstarts (i + 1) w hw
            rwa [show wordNo + (i + 1) = wordNo + 1 + i by omega] at this
          refine ⟨max N M, fun fuel hfuel => ?_⟩
          obtain ⟨h₁, h₂⟩ := hcall fuel (le_trans (le_max_left N M) hfuel)
          have h₃ := hM fuel (le_trans (le_max_right N M) hfuel)
          simp only [parseWords, h₁, h₂, hgo, hlast, if_true]
          exact h₃
      · refine ⟨N, fun fuel hfuel => ?_⟩
        obtain ⟨h₁, h₂⟩ := hcall fuel hfuel
        simp only [parseWords, h₁, h₂, hgo]
        exact ⟨hr, hr, rfl⟩

theorem parseWords_barren (hG : G.WellFormed)
    (heos : G.isMeta G.getEndOfStreamSymbol = false) (hC : Automaton G C)
    (hT : TableFor G C cfg.table) {endOfStream : ℕ} (hend : NoStart C [endOfStream]) (fuel : ℕ)
    (starts : List ℕ) (words : List (List ℕ)) :
    ∀ (wordNo : ℕ) (p : GlrParser σ Item), Idle G C cfg p → p.stateNodes.length = 1 →
      (∀ w ∈ words, NoStart C w) →
        (parseWords cfg endOfStream fuel starts wordNo words p).2.symbolNodes = p.symbolNodes := by
  induction words with
  | nil => exact fun _ _ _ _ _ => rfl
  | cons word words ih =>
    intro wordNo p hp hone hwords
    obtain ⟨hsymbols, hstates⟩ := parseSymbol_barren hT hp hone
      (hwords word List.mem_cons_self) fuel (starts.contains wordNo)
    have hidle := idle_of_result hG heos hC hT hp fuel word (starts.contains wordNo)
    rw [parseWords]
    generalize parseSymbol cfg fuel word (starts.contains wordNo) p = r
      at hsymbols hstates hidle ⊢
    have hone' : r.2.2.stateNodes.length = 1 := by rw [hstates, hone]
    dsimp only
    split_ifs with hgo hlast
    · exact (parseSymbol_barren hT (hidle hgo) hone' hend fuel false).1.trans hsymbols
    · exact (ih (wordNo + 1) r.2.2 (hidle hgo) hone' fun w hw =>
        hwords w (List.mem_cons_of_mem word hw)).trans hsymbols
    · exact hsymbols

end Runs

namespace EncodedGrammar
variable (G : EncodedGrammar) {T : TrieHolder}

theorem startsWith_meta {X a : ℕ} (hX : G.isMeta X = true) (h : G.StartsWith X a) :
    [a] ∈ (G.firstKSets 1).2.get X := by
  rw [WorkGrammar.StartsWith, WorkGrammar.prefixAdditions, if_pos hX] at h
  exact h

theorem buildAutomat_oneLevel (hT : G.buildAutomat = some T) :
    T.OneLevel ∧ T.HasPatterns (G.rootPrefixes 1) := by
  refine create_oneLevel ?_ hT
  intro P hP
  have hmem := WorkGrammar.mem_rootPrefixes hP
  obtain ⟨_, _, hp⟩ := WorkGrammar.mem_rootsWithPrefixes.mp hmem
  obtain ⟨a, _, ha⟩ := WorkGrammar.mem_singletons.mp
    ((WorkGrammar.firstKSets_saturated G.wellFormed).mem _ _ hp)
  exact ⟨a, ha⟩

theorem isMeta_rootIndex (hT : G.buildAutomat = some T) : G.isMeta G.rootIndex = true := by
  cases hpatterns : G.rootPrefixes 1 with
  | nil =>
    rw [WorkGrammar.buildAutomat, hpatterns] at hT
    cases hT
  | cons P patterns =>
    have hP : P ∈ G.rootPrefixes 1 := by
      rw [hpatterns]
      exact List.mem_cons_self
    have hmem := WorkGrammar.mem_rootPrefixes hP
    obtain ⟨hlt, hroot, hp⟩ := WorkGrammar.mem_rootsWithPrefixes.mp hmem
    rw [← G.eq_rootIndex hlt hroot]
    exact WorkGrammar.isMeta_of_mem_firstK G.wellFormed hp

theorem mem_startPoints (hT : G.buildAutomat = some T) {words : List (List ℕ)} {i a : ℕ}
    {w : List ℕ} (hw : words[i]? = some w) (ha : a ∈ w) (hstart : G.StartsWith G.rootIndex a) :
    i ∈ startPoints T words := by
  obtain ⟨hone, hpatterns⟩ := G.buildAutomat_oneLevel hT
  have hprefix := G.startsWith_meta (G.isMeta_rootIndex hT) hstart
  obtain ⟨P, hP, hitems⟩ := WorkGrammar.exists_rootPrefix
    (WorkGrammar.mem_rootsWithPrefixes.mpr ⟨G.rootIndex_lt, G.item_rootIndex, hprefix⟩)
  exact TomitaParser.mem_startPoints hone hpatterns hw ha hP hitems

/-- A terminal that leads out of the start state is one the root can start with. -/
theorem startsWith_of_goto {C : CollectionSet} (hC : Automaton G.augmentedGrammar C) {a q : ℕ}
    (ha : G.augmentedGrammar.isMeta a = false) (hgoto : C.getGotoValue a 0 = some q) :
    G.StartsWith G.rootIndex a := by
  have hG := G.augmentedGrammar_augmented
  have hsymbol : ∀ (R : WorkRule) (X : ℕ) (rest : List ℕ), R.rightPart.items = X :: rest →
      LrItem.getSymbolNo ⟨R, 0⟩ = X := by
    intro R X rest hitems
    simp [LrItem.getSymbolNo, hitems]
  -- whatever the symbol after the dot can start with, the root can
  have hleast := hC.start_least (fun it => it.getSymbolNo < G.symbolCount ∧
    ∀ b, G.StartsWith it.getSymbolNo b → G.StartsWith G.rootIndex b) ?_ ?_
  · obtain ⟨it, hit, hnext⟩ := hC.goto_from 0 a q hgoto
    obtain ⟨hlt, hstart⟩ := hleast it hit
    rw [hnext.2] at hlt hstart
    refine hstart a (WorkGrammar.startsWith_self ?_)
    rw [← G.augmentedGrammar_isMeta hlt]
    exact ha
  · intro R hR hleft
    rw [hsymbol R _ _ (hG.newRoot_right R hR hleft)]
    exact ⟨G.rootIndex_lt, fun b hb => hb⟩
  · rintro it ⟨hlt, hstart⟩ R hR hnext
    rw [hnext.2] at hlt hstart
    rcases G.mem_augmentedGrammar_rules.mp hR with rfl | hmem
    · simp only [WorkGrammar.newRootRule] at hlt
      omega
    · obtain ⟨X, rest, hitems⟩ := List.exists_cons_of_ne_nil (G.wellFormed.right_ne R hmem)
      rw [hsymbol R X rest hitems]
      refine ⟨?_, fun b hb => hstart b (hb.rule G.wellFormed hmem hitems)⟩
      refine G.wellFormed.right_lt R hmem X ?_
      rw [hitems]
      exact List.mem_cons_self

theorem noStart_of_not_mem {C : CollectionSet} (hC : Automaton G.augmentedGrammar C)
    (hT : G.buildAutomat = some T) {words : List (List ℕ)}
    (hterminal : ∀ w ∈ words, ∀ a ∈ w, G.augmentedGrammar.isMeta a = false) {i : ℕ} {w : List ℕ}
    (hw : words[i]? = some w) (hi : i ∉ startPoints T words) : NoStart C w := by
  intro a ha
  cases hgoto : C.getGotoValue a 0 with
  | none => rfl
  | some q =>
    have hterm := hterminal w (List.mem_of_getElem? hw) a ha
    exact absurd (G.mem_startPoints hT hw ha (G.startsWith_of_goto hC hterm hgoto)) hi

theorem derivation_mem_startPoints (hT : G.buildAutomat = some T) {words : List (List ℕ)} {i : ℕ}
    {t : List ℕ} (ht : Derives G.Production [G.rootIndex] t) (hterm : ∀ a ∈ t, G.isMeta a = false)
    (hread : ∀ k (hk : k < t.length), ∃ w, words[i + k]? = some w ∧ t[k] ∈ w) :
    i ∈ startPoints T words := by
  obtain ⟨a, hhead, hstart⟩ := WorkGrammar.startsWith_of_yields G.wellFormed ht.yields hterm rfl
  obtain ⟨rest, rfl⟩ : ∃ rest, t = a :: rest := by
    cases t with
    | nil => cases hhead
    | cons b rest =>
      cases hhead
      exact ⟨rest, rfl⟩
  obtain ⟨w, hw, ha⟩ := hread 0 (Nat.succ_pos _)
  exact G.mem_startPoints hT hw ha hstart

end EncodedGrammar

/-- The trie loses no parse: every position where a derivation of the root can start is a start
point, and with enough fuel the parser ends with the same occurrences as if it had started at every
position. -/
theorem process_eq_everywhere (G : EncodedGrammar) (agreements : List (List Agr))
    (factory : InputItemFactory σ Agr Item) {T : TrieHolder} (hT : G.buildAutomat = some T)
    (words : List (List ℕ))
    (hterminal : ∀ w ∈ words, ∀ a ∈ w, G.augmentedGrammar.isMeta a = false) (heap : σ) :
    (∀ i, ∀ t : List ℕ, Derives G.Production [G.rootIndex] t → (∀ a ∈ t, G.isMeta a = false) →
        (∀ k (hk : k < t.length), ∃ w, words[i + k]? = some w ∧ t[k] ∈ w) →
          i ∈ startPoints T words) ∧
      ∃ N, ∀ fuel, N ≤ fuel →
        let cfg := G.parserConfig agreements factory { robust := true }
        let r := process cfg G.augmentedGrammar T fuel words heap
        let r' := applyGlrParsing cfg G.augmentedGrammar fuel words (List.range words.length) heap
        r.1 ≠ .outOfFuel ∧ r'.1 ≠ .outOfFuel ∧ r.2 = r'.2 := by
  refine ⟨fun i t ht hterm hread => G.derivation_mem_startPoints hT ht hterm hread, ?_⟩
  have hG := G.augmentedGrammar_augmented
  have hC := computeCollection_automaton hG.toNumbered
  have htable := G.parserConfig_tableFor agreements factory { robust := true }
  have hstart : Idle G.augmentedGrammar (computeCollection G.augmentedGrammar)
      (G.parserConfig agreements factory { robust := true })
      (initGlrParser (newGlrParser heap)) := initGlrParser_idle _ _ _ _ _
  have hbreak : (G.parserConfig agreements factory
      { robust := true }).options.breakAfterMaxSymbolNodesCount = true := rfl
  have heverywhere : ∀ i w, words[i]? = some w → (List.range words.length).contains (0 + i) = true ∧
      ((startPoints T words).contains (0 + i) = true ∨
        NoStart (computeCollection G.augmentedGrammar) w) := by
    intro i w hw
    have hlt := (List.getElem?_eq_some_iff.mp hw).1
    rw [Nat.zero_add]
    refine ⟨by simpa using hlt, ?_⟩
    by_cases hi : i ∈ startPoints T words
    · exact Or.inl (by simpa using hi)
    · exact Or.inr (G.noStart_of_not_mem hC hT hterminal hw hi)
  obtain ⟨N, hN⟩ := parseWords_agree hG.toWellFormed hG.endOfStream_terminal hC htable hbreak
    G.augmentedGrammar.getEndOfStreamSymbol words 0 _ hstart heverywhere
  refine ⟨N, fun fuel hfuel => ?_⟩
  obtain ⟨h₁, h₂, h₃⟩ := hN fuel hfuel
  intro cfg r r'
  by_cases hnone : (startPoints T words).isEmpty = true
  · have hr : r = (.finished, 0, []) := if_pos hnone
    by_cases hwords : (List.range words.length).isEmpty = true
    · have hr' : r' = (.finished, 0, []) := if_pos hwords
      rw [hr, hr']
      exact ⟨nofun, nofun, rfl⟩
    · -- no word leads out of the start state
      have hbarren : ∀ w ∈ words, NoStart (computeCollection G.augmentedGrammar) w := by
        intro w hw
        obtain ⟨i, hi⟩ := List.mem_iff_getElem?.mp hw
        refine G.noStart_of_not_mem hC hT hterminal hi ?_
        rw [List.isEmpty_iff.mp hnone]
        exact List.not_mem_nil
      have hend : NoStart (computeCollection G.augmentedGrammar)
          [G.augmentedGrammar.getEndOfStreamSymbol] := by
        intro a ha
        rw [List.mem_singleton.mp ha]
        by_contra hgoto
        obtain ⟨q, hq⟩ := Option.ne_none_iff_exists'.mp hgoto
        exact hC.goto_ne_endOfStream 0 _ q hq rfl
      have hnodes := parseWords_barren hG.toWellFormed hG.endOfStream_terminal hC htable hend fuel
        (List.range words.length) words 0 _ hstart rfl hbarren
      have hr' : r' = collectOccurrences _ _ := if_neg hwords
      rw [hr, hr', collectOccurrences, hnodes]
      exact ⟨nofun, h₂, rfl⟩
  · have hwords : ¬(List.range words.length).isEmpty = true := by
      intro h
      have hnil : words = [] := by simpa using h
      rw [hnil] at hnone
      exact hnone rfl
    have hr : r = collectOccurrences _ _ := if_neg hnone
    have hr' : r' = collectOccurrences _ _ := if_neg hwords
    rw [hr, hr', collectOccurrences, collectOccurrences, h₃]
    exact ⟨h₁, h₂, rfl⟩

/-- The trie of the grammar with the rule `S → a`. -/
def oneWordTrie : TrieHolder where
  alphabetSize := 2
  nodes := [{ children := [(1, 1)] },
    { failureFunction := some 0, parent := some 0, incomingSymbol := some 1
      grammarRuleNo := some 0, depth := 1 }]

theorem process_eq_everywhere_oneWord :
    0 ∈ startPoints oneWordTrie [[1, 2], [2]] ∧ ∃ N, ∀ fuel, N ≤ fuel →
      let cfg := oneWordGrammar.parserConfig [[()], []] acceptAllFactory { robust := true }
      let G := oneWordGrammar.augmentedGrammar
      (process cfg G oneWordTrie fuel [[1, 2], [2]] ()).2 =
        (applyGlrParsing cfg G fuel [[1, 2], [2]] [0, 1] ()).2 := by
  obtain ⟨hstart, N, hN⟩ := process_eq_everywhere oneWordGrammar [[()], []] acceptAllFactory
    (show oneWordGrammar.buildAutomat = some oneWordTrie by decide) [[1, 2], [2]] (by decide) ()
  have hderives : Derives oneWordGrammar.Production [0] [1] :=
    (Yields.rule ⟨⟨0, 0, ⟨[1], 0⟩⟩, by decide, rfl, rfl⟩ (Yields.refl [1]) Yields.nil).derives
  refine ⟨hstart 0 [1] hderives (by decide) ?_, N, fun fuel hfuel => (hN fuel hfuel).2.2⟩
  intro k hk
  obtain rfl : k = 0 := Nat.lt_one_iff.mp hk
  exact ⟨[1, 2], rfl, List.mem_cons_self⟩

end TomitaParser
