import TomitaParser.Trie.ChildrenArray
import TomitaParser.Trie.Failure
/-! # The occurrences of the patterns

`GetOccurrences`: the state after a part of the text stands for the longest suffix of the part that
the trie spells, and the chain of terminated nodes meets every pattern that ends there. -/

namespace TomitaParser.TrieHolder
open LongestSuffix

/-- The rest of the text from position `textPositionNo` on. -/
def getOccurrencesFrom {Item : Type*} (T : TrieHolder) :
    ℕ → ℕ → List ℕ → List (Occurrence Item)
  | _, _, [] => []
  | textPositionNo, state, symbol :: text =>
    let r := T.nextState state textPositionNo symbol
    r.2 ++ getOccurrencesFrom T (textPositionNo + 1) r.1 text

/-- `GetOccurrences`. -/
def getOccurrences {Item : Type*} (T : TrieHolder) (text : List ℕ) : List (Occurrence Item) :=
  T.getOccurrencesFrom 0 0 text

/-- The node after `n` links, or `none` when the walk is over. -/
def walk (link : ℕ → Option ℕ) : ℕ → Option ℕ → Option ℕ
  | 0, o => o
  | n + 1, o => walk link n (o.bind link)

/-- The trie of the patterns `ps` with its failure function. -/
structure Finished (T : TrieHolder) (L ps : List (List ℕ)) : Prop where
  spells : Spells T L
  numbered : Numbered T L fun w => ps.idxOf? w
  mem : ∀ w, w ∈ L ↔ w = [] ∨ ∃ p ∈ ps, w <+: p
  failure : ∀ v, v < T.nodes.length → FailureAt T L v

theorem create_finished {alphabetSize : ℕ} {patterns : List WorkRule} (hne : patterns ≠ [])
    (hset : PatternSet alphabetSize patterns) :
    ∃ T L, create alphabetSize patterns = some T ∧
      Finished T L (patterns.map (·.rightPart.items)) := by
  obtain ⟨T, L, hT, hH⟩ := createTrie_holds hne hset
  obtain ⟨hrel, hfailure⟩ := hH.spells.initFailureFunction hH.unlinked
  refine ⟨T.initFailureFunction, L, ?_, hrel.spells hH.spells, hrel.numbered hH.numbered,
    hH.mem, ?_⟩
  · rw [create, hT, Option.map_some]
  · intro v hv
    exact hfailure v (hrel.length_eq ▸ hv)

variable {T : TrieHolder} {L ps : List (List ℕ)} {Item : Type*}

theorem walk_none (link : ℕ → Option ℕ) (n : ℕ) : walk link n none = none := by
  induction n with
  | zero => rfl
  | succ n ih => exact ih

theorem Spells.walk_ends (hT : Spells T L) {link : ℕ → Option ℕ}
    (h : ∀ v, v < T.nodes.length → ∀ r, link v = some r →
      r < T.nodes.length ∧ (label L r).length < (label L v).length) {v : ℕ}
    (hv : v < T.nodes.length) : walk link T.nodes.length (some v) = none := by
  have hshort : ∀ n v, v < T.nodes.length → (label L v).length < n →
      walk link n (some v) = none := by
    intro n
    induction n with
    | zero => exact fun v _ hlt => absurd hlt (Nat.not_lt_zero _)
    | succ n ih =>
      intro v hv hlt
      rw [walk, Option.bind_some]
      cases hr : link v with
      | none => exact walk_none link n
      | some r =>
        obtain ⟨hrlt, hlen⟩ := h v hv r hr
        exact ih r hrlt (by omega)
  apply hshort _ v hv
  have := hT.length_label_le hv
  omega

theorem Finished.failure_walk_ends (hT : Finished T L ps) {v : ℕ} (hv : v < T.nodes.length) :
    walk (fun u => (T.node u).failureFunction) T.nodes.length (some v) = none := by
  apply hT.spells.walk_ends _ hv
  intro u hu r hr
  have hlink := (hT.failure u hu).link
  rw [hr, Option.map_some] at hlink
  exact ⟨(hT.failure u hu).lt r hr, hlink.length_lt⟩

theorem Finished.getTerminatedPeriodNext (hT : Finished T L ps) {v : ℕ}
    (hv : v < T.nodes.length) :
    IsLongest (fun x => x ∈ L ∧ x ≠ label L v ∧ x ≠ []) (label L v)
        ((T.getTerminatedPeriodNext v).map (label L)) ∧
      ∀ j, T.getTerminatedPeriodNext v = some j → j < T.nodes.length := by
  rcases Nat.eq_zero_or_pos v with rfl | hpos
  · -- the root
    rw [TrieHolder.getTerminatedPeriodNext, if_pos rfl, hT.spells.label_zero]
    refine ⟨?_, nofun⟩
    intro x hx hmem
    exact hmem.2.2 (List.suffix_nil.mp hx)
  · obtain ⟨u, a, huv, hparent, hsymbol, hlabel⟩ := hT.spells.origin v hpos hv
    have hword := label_of_getElem? hlabel
    obtain ⟨way, hway, hdown, hlt⟩ := hT.spells.descend_above (a := a)
      (hT.failure u (by omega)) fun w hw _ => hT.failure w hw
    rw [TrieHolder.getTerminatedPeriodNext, if_neg (Nat.ne_of_gt hpos), hparent, hsymbol]
    simp only [Option.bind_some, Option.getD_some]
    refine ⟨?_, hlt⟩
    rw [hdown, hword]
    apply IsLongest.concat
    · apply (isLongest_congr _).mp hway
      intro x _
      simp
    · simp

theorem Finished.terminated_walk_ends (hT : Finished T L ps) {v : ℕ} (hv : v < T.nodes.length) :
    walk T.getTerminatedPeriodNext T.nodes.length (some v) = none := by
  apply hT.spells.walk_ends _ hv
  intro u hu r hr
  obtain ⟨hlink, hlt⟩ := hT.getTerminatedPeriodNext hu
  rw [hr, Option.map_some] at hlink
  refine ⟨hlt r hr, ?_⟩
  by_contra hge
  exact hlink.1.2.1 (hlink.2.1.eq_of_length_le (by omega))

/-- The occurrence of the pattern of a node. -/
def occurrenceAt (T : TrieHolder) (textPositionNo v ruleNo : ℕ) : Occurrence Item where
  first := textPositionNo + 1 - (T.node v).depth
  second := textPositionNo + 1
  grammarRuleNo := ruleNo

theorem terminated_none (pos fuel : ℕ) :
    (T.terminated pos fuel none : List (Occurrence Item)) = [] := by
  cases fuel <;> rfl

theorem terminated_succ (pos fuel v : ℕ) :
    (T.terminated pos (fuel + 1) (some v) : List (Occurrence Item)) =
      ((T.node v).grammarRuleNo.map (T.occurrenceAt pos v)).toList ++
        T.terminated pos fuel (T.getTerminatedPeriodNext v) := by
  rw [terminated]
  cases (T.node v).grammarRuleNo <;> rfl

/-- The chain from a node meets the patterns that are suffixes of its word. -/
theorem Finished.mem_terminated (hT : Finished T L ps) (hne : [] ∉ ps) {pos : ℕ}
    {o : Occurrence Item} :
    ∀ {fuel v : ℕ}, v < T.nodes.length → (label L v).length < fuel →
      (o ∈ T.terminated pos fuel (some v) ↔ ∃ j k, j < T.nodes.length ∧
        label L j <:+ label L v ∧ (T.node j).grammarRuleNo = some k ∧
          o = T.occurrenceAt pos j k) := by
  have hrule : ∀ j k, j < T.nodes.length → (T.node j).grammarRuleNo = some k → label L j ≠ [] := by
    intro j k hj hk hnil
    rw [hT.numbered.rule j hj, hnil, List.idxOf?_eq_none_iff.mpr hne] at hk
    cases hk
  intro fuel
  induction fuel with
  | zero => exact fun _ hlt => absurd hlt (Nat.not_lt_zero _)
  | succ fuel ih =>
    intro v hv hfuel
    obtain ⟨hlink, hnext⟩ := hT.getTerminatedPeriodNext hv
    -- what the rest of the chain has
    have hrest : o ∈ T.terminated pos fuel (T.getTerminatedPeriodNext v) ↔
        ∃ j k, j < T.nodes.length ∧ label L j <:+ label L v ∧ j ≠ v ∧
          (T.node j).grammarRuleNo = some k ∧ o = T.occurrenceAt pos j k := by
      cases hr : T.getTerminatedPeriodNext v with
      | none =>
        rw [terminated_none]
        rw [hr] at hlink
        constructor
        · intro h
          exact absurd h List.not_mem_nil
        · rintro ⟨j, k, hj, hsuffix, hjv, hk, _⟩
          have hdiff : label L j ≠ label L v := fun h => hjv (hT.spells.label_inj hj hv h)
          exact absurd ⟨hT.spells.label_mem hj, hdiff, hrule j k hj hk⟩ (hlink _ hsuffix)
      | some r =>
        rw [hr, Option.map_some] at hlink
        have hshort : (label L r).length < (label L v).length := by
          by_contra hge
          exact hlink.1.2.1 (hlink.2.1.eq_of_length_le (by omega))
        rw [ih (hnext r hr) (by omega)]
        constructor
        · rintro ⟨j, k, hj, hsuffix, hk, ho⟩
          refine ⟨j, k, hj, hsuffix.trans hlink.2.1, ?_, hk, ho⟩
          rintro rfl
          have := hsuffix.length_le
          omega
        · rintro ⟨j, k, hj, hsuffix, hjv, hk, ho⟩
          have hdiff : label L j ≠ label L v := fun h => hjv (hT.spells.label_inj hj hv h)
          exact ⟨j, k, hj, hlink.2.2 _ ⟨hT.spells.label_mem hj, hdiff, hrule j k hj hk⟩ hsuffix,
            hk, ho⟩
    rw [terminated_succ, List.mem_append, hrest]
    simp only [Option.mem_toList, Option.map_eq_some_iff]
    constructor
    · rintro (⟨k, hk, rfl⟩ | ⟨j, k, hj, hsuffix, _, hk, ho⟩)
      · exact ⟨v, k, hv, List.suffix_rfl, hk, rfl⟩
      · exact ⟨j, k, hj, hsuffix, hk, ho⟩
    · rintro ⟨j, k, hj, hsuffix, hk, rfl⟩
      by_cases hjv : j = v
      · subst hjv
        exact Or.inl ⟨k, hk, rfl⟩
      · exact Or.inr ⟨j, k, hj, hsuffix, hjv, hk, rfl⟩

theorem Finished.depth_eq (hT : Finished T L ps) (hlen : ∀ p ∈ ps, p.length ≤ 255) {v : ℕ}
    (hv : v < T.nodes.length) : (T.node v).depth = (label L v).length := by
  rw [hT.spells.depth v hv]
  apply Nat.mod_eq_of_lt
  rcases (hT.mem _).mp (hT.spells.label_mem hv) with h | ⟨p, hp, hpre⟩
  · rw [h]
    exact Nat.zero_lt_succ _
  · have := hpre.length_le
    have := hlen p hp
    omega

/-- The chain reports no pattern twice. -/
theorem Finished.terminated_nodup (hT : Finished T L ps) (hne : [] ∉ ps)
    (hlen : ∀ p ∈ ps, p.length ≤ 255) {pos : ℕ} :
    ∀ {fuel v : ℕ}, v < T.nodes.length → (label L v).length < fuel → (label L v).length ≤ pos + 1 →
      (T.terminated pos fuel (some v) : List (Occurrence Item)).Nodup := by
  intro fuel
  induction fuel with
  | zero => exact fun _ hlt => absurd hlt (Nat.not_lt_zero _)
  | succ fuel ih =>
    intro v hv hfuel hpos
    obtain ⟨hlink, hnext⟩ := hT.getTerminatedPeriodNext hv
    rw [terminated_succ]
    cases hr : T.getTerminatedPeriodNext v with
    | none =>
      rw [terminated_none, List.append_nil]
      cases (T.node v).grammarRuleNo <;> simp
    | some r =>
      rw [hr, Option.map_some] at hlink
      have hr' := hnext r hr
      have hshort : (label L r).length < (label L v).length := by
        by_contra hge
        exact hlink.1.2.1 (hlink.2.1.eq_of_length_le (by omega))
      have htail := ih hr' (by omega) (by omega)
      cases (T.node v).grammarRuleNo with
      | none => exact htail
      | some k =>
        refine List.nodup_cons.mpr ⟨?_, htail⟩
        intro hmem
        obtain ⟨j, k', hj, hsuffix, _, heq⟩ := (hT.mem_terminated hne hr' (by omega)).mp hmem
        have hfirst := congrArg Occurrence.first heq
        simp only [occurrenceAt, hT.depth_eq hlen hv, hT.depth_eq hlen hj] at hfirst
        have := hsuffix.length_le
        omega

theorem nextState_eq (state pos symbol : ℕ) :
    (T.nextState state pos symbol : ℕ × List (Occurrence Item)) =
      (T.goDown (some state) symbol,
        T.terminated pos T.nodes.length (some (T.goDown (some state) symbol))) := by
  simp only [nextState, goDown]
  cases T.followFailures symbol T.nodes.length (some state) <;> rfl

theorem Finished.goDown (hT : Finished T L ps) {state : ℕ} (hs : state < T.nodes.length)
    {read : List ℕ} (hread : IsLongest (· ∈ L) read (some (label L state))) (symbol : ℕ) :
    T.goDown (some state) symbol < T.nodes.length ∧
      IsLongest (· ∈ L) (read ++ [symbol]) (some (label L (T.goDown (some state) symbol))) := by
  obtain ⟨way, hway, hdown, hlt⟩ := hT.spells.descend (a := symbol) hs fun u hu _ =>
    hT.failure u hu
  have hnew : label L (T.goDown (some state) symbol) = (way.map (· ++ [symbol])).getD [] := by
    rw [TrieHolder.goDown, ← hdown]
    cases (T.followFailures symbol T.nodes.length (some state)).bind (T.findChild · symbol) with
    | none => exact hT.spells.label_zero
    | some j => rfl
  constructor
  · rw [TrieHolder.goDown]
    cases hdesc : (T.followFailures symbol T.nodes.length (some state)).bind
        (T.findChild · symbol) with
    | none => exact hT.spells.pos
    | some j => exact hlt j hdesc
  · rw [hnew]
    apply IsLongest.concat_nil _ hT.spells.nil_mem
    exact (hread.search fun x _ => hT.spells.mem_of_concat).mpr hway

/-- What is reported for the rest of a text of which `read` has been read. -/
theorem Finished.getOccurrencesFrom (hT : Finished T L ps) (hne : [] ∉ ps)
    (hlen : ∀ p ∈ ps, p.length ≤ 255) (text : List ℕ) :
    ∀ {read : List ℕ} {state : ℕ}, state < T.nodes.length →
      IsLongest (· ∈ L) read (some (label L state)) →
      (T.getOccurrencesFrom read.length state text : List (Occurrence Item)).Nodup ∧
        ∀ o : Occurrence Item, o ∈ T.getOccurrencesFrom read.length state text ↔
          ∃ e, read.length < e ∧ e ≤ read.length + text.length ∧ ∃ w k,
            w <:+ (read ++ text).take e ∧ ps.idxOf? w = some k ∧
              o = { first := e - w.length, second := e, grammarRuleNo := k } := by
  induction text with
  | nil =>
    intro read state _ _
    refine ⟨List.nodup_nil, fun o => ?_⟩
    constructor
    · intro h
      exact absurd h List.not_mem_nil
    · rintro ⟨e, h₁, h₂, _⟩
      rw [List.length_nil] at h₂
      omega
  | cons symbol text ih =>
    intro read state hs hread
    obtain ⟨hnext, hlongest⟩ := hT.goDown hs hread symbol
    obtain ⟨hnodup, hmem⟩ := ih hnext hlongest
    have hread' : (read ++ [symbol]).length = read.length + 1 := by
      rw [List.length_append, List.length_singleton]
    have hfuel : (label L (T.goDown (some state) symbol)).length < T.nodes.length := by
      have := hT.spells.length_label_le hnext
      omega
    have hfits := hlongest.2.1.length_le
    rw [hread'] at hnodup hmem hfits
    rw [TrieHolder.getOccurrencesFrom, nextState_eq]
    dsimp only
    -- the occurrences that end with the symbol
    have hhead : ∀ o : Occurrence Item,
        o ∈ T.terminated read.length T.nodes.length (some (T.goDown (some state) symbol)) ↔
          ∃ w k, w <:+ read ++ [symbol] ∧ ps.idxOf? w = some k ∧
            o = { first := read.length + 1 - w.length, second := read.length + 1
                  grammarRuleNo := k } := by
      intro o
      rw [hT.mem_terminated hne hnext hfuel]
      constructor
      · rintro ⟨j, k, hj, hsuffix, hk, rfl⟩
        refine ⟨label L j, k, hsuffix.trans hlongest.2.1, ?_, ?_⟩
        · rw [← hk, hT.numbered.rule j hj]
        · rw [occurrenceAt, hT.depth_eq hlen hj]
      · rintro ⟨w, k, hsuffix, hk, rfl⟩
        have hw : w ∈ L := by
          apply (hT.mem w).mpr
          have hps : w ∈ ps := List.isSome_idxOf?.mp (by rw [hk]; rfl)
          exact Or.inr ⟨w, hps, List.prefix_rfl⟩
        obtain ⟨j, hj, rfl⟩ := hT.spells.exists_label hw
        refine ⟨j, k, hj, hlongest.2.2 _ hw hsuffix, ?_, ?_⟩
        · rw [hT.numbered.rule j hj, hk]
        · rw [occurrenceAt, hT.depth_eq hlen hj]
    have hassoc : (read ++ [symbol]) ++ text = read ++ symbol :: text := by
      rw [List.append_assoc, List.singleton_append]
    constructor
    · refine List.nodup_append.mpr ⟨hT.terminated_nodup hne hlen hnext hfuel hfits, hnodup, ?_⟩
      rintro o ho o' ho' rfl
      obtain ⟨w, k, _, _, heq⟩ := (hhead o).mp ho
      obtain ⟨e, he, _, w', k', _, _, heq'⟩ := (hmem o).mp ho'
      have := congrArg Occurrence.second (heq.symm.trans heq')
      dsimp only at this
      omega
    · intro o
      rw [List.mem_append, hhead, hmem, hassoc, List.length_cons]
      have htake : (read ++ symbol :: text).take (read.length + 1) = read ++ [symbol] := by
        rw [← hassoc, ← hread', List.take_left]
      constructor
      · rintro (⟨w, k, hw⟩ | ⟨e, h₁, h₂, hw⟩)
        · refine ⟨read.length + 1, by omega, by omega, w, k, ?_⟩
          rw [htake]
          exact hw
        · exact ⟨e, by omega, by omega, hw⟩
      · rintro ⟨e, h₁, h₂, w, k, hw⟩
        by_cases he : e = read.length + 1
        · rw [he, htake] at hw
          exact Or.inl ⟨w, k, hw⟩
        · exact Or.inr ⟨e, by omega, by omega, w, k, hw⟩

theorem idxOf?_rightParts {patterns : List WorkRule} {w : List ℕ} {k : ℕ} :
    (patterns.map (·.rightPart.items)).idxOf? w = some k ↔
      ∃ P, patterns[k]? = some P ∧ P.rightPart.items = w ∧
        ∀ i < k, ∀ Q, patterns[i]? = some Q → Q.rightPart.items ≠ w := by
  rw [List.idxOf?_eq_some_iff]
  constructor
  · rintro ⟨hk, hw, hfirst⟩
    have hk' : k < patterns.length := by simpa using hk
    refine ⟨patterns[k], List.getElem?_eq_getElem hk', by simpa using hw, ?_⟩
    intro i hi Q hQ
    obtain ⟨hi', hQi⟩ := List.getElem?_eq_some_iff.mp hQ
    have := hfirst i hi
    rw [List.getElem_map, hQi] at this
    exact this
  · rintro ⟨P, hP, hw, hfirst⟩
    obtain ⟨hk, hPk⟩ := List.getElem?_eq_some_iff.mp hP
    refine ⟨by simpa using hk, by rw [List.getElem_map, hPk]; exact hw, ?_⟩
    intro i hi
    rw [List.getElem_map]
    exact hfirst i hi _ (List.getElem?_eq_getElem (by omega))

theorem suffix_take_iff {text w : List ℕ} {e : ℕ} (he : e ≤ text.length) :
    w <:+ text.take e ↔ w.length ≤ e ∧ w <+: text.drop (e - w.length) := by
  constructor
  · intro h
    obtain ⟨u, hu⟩ := h
    have hlen : u.length + w.length = e := by
      have := congrArg List.length hu
      rw [List.length_append, List.length_take] at this
      omega
    have hsplit : text = u ++ (w ++ text.drop e) := by
      rw [← List.append_assoc, hu, List.take_append_drop]
    have hdrop : text.drop (e - w.length) = w ++ text.drop e := by
      conv_lhs => rw [show e - w.length = u.length by omega, hsplit, List.drop_left]
    refine ⟨by omega, ?_⟩
    rw [hdrop]
    exact List.prefix_append w _
  · rintro ⟨hle, z, hz⟩
    refine ⟨text.take (e - w.length), ?_⟩
    have hsplit : text.take e =
        text.take (e - w.length) ++ (text.drop (e - w.length)).take w.length := by
      rw [← List.take_add, Nat.sub_add_cancel hle]
    rw [hsplit, ← hz, List.take_left]

/-- Matching is exact: the trie of a sorted set of patterns reports every place of every distinct
right part once, with the number of the first pattern that has it, and all walks end. -/
theorem getOccurrences_exact {alphabetSize : ℕ} {patterns : List WorkRule} (hne : patterns ≠ [])
    (hset : PatternSet alphabetSize patterns)
    (hlen : ∀ P ∈ patterns, P.rightPart.items.length ≤ 255) :
    ∃ T, create alphabetSize patterns = some T ∧
      (∀ v, v < T.nodes.length →
        getChildren T.convertAuxChildrenToNormal v = (T.node v).children ∧
        walk (fun u => (T.node u).failureFunction) T.nodes.length (some v) = none ∧
        walk T.getTerminatedPeriodNext T.nodes.length (some v) = none) ∧
      ∀ text : List ℕ, (T.getOccurrences text : List (Occurrence Item)).Nodup ∧
        ∀ o : Occurrence Item, o ∈ T.getOccurrences text ↔
          ∃ k P, patterns[k]? = some P ∧
            (∀ i < k, ∀ Q, patterns[i]? = some Q → Q.rightPart.items ≠ P.rightPart.items) ∧
            P.rightPart.items <+: text.drop o.first ∧
            o = { first := o.first, second := o.first + P.rightPart.items.length
                  grammarRuleNo := k } := by
  obtain ⟨T, L, hT, hF⟩ := create_finished hne hset
  have hitems : [] ∉ patterns.map (·.rightPart.items) := by
    intro h
    obtain ⟨P, hP, hnil⟩ := List.mem_map.mp h
    exact hset.items_ne P hP hnil
  have hshort : ∀ p ∈ patterns.map (·.rightPart.items), p.length ≤ 255 := by
    intro p hp
    obtain ⟨P, hP, rfl⟩ := List.mem_map.mp hp
    exact hlen P hP
  refine ⟨T, hT, ?_, ?_⟩
  · intro v hv
    exact ⟨hF.spells.getChildren hv, hF.failure_walk_ends hv, hF.terminated_walk_ends hv⟩
  · intro text
    have hroot : IsLongest (· ∈ L) [] (some (label L 0)) := by
      rw [hF.spells.label_zero]
      exact isLongest_self hF.spells.nil_mem
    obtain ⟨hnodup, hmem⟩ := @Finished.getOccurrencesFrom T L _ Item hF hitems hshort text [] 0
      hF.spells.pos hroot
    refine ⟨hnodup, fun o => ?_⟩
    rw [getOccurrences]
    refine (hmem o).trans ?_
    simp only [List.length_nil, List.nil_append, Nat.zero_add]
    constructor
    · rintro ⟨e, _, he, w, k, hsuffix, hk, rfl⟩
      obtain ⟨P, hP, rfl, hfirst⟩ := idxOf?_rightParts.mp hk
      obtain ⟨hle, hpre⟩ := (suffix_take_iff he).mp hsuffix
      refine ⟨k, P, hP, hfirst, hpre, ?_⟩
      rw [Nat.sub_add_cancel hle]
    · rintro ⟨k, P, hP, hfirst, hpre, ho⟩
      have hpos : 0 < P.rightPart.items.length :=
        List.length_pos_iff.mpr (hset.items_ne P (List.mem_of_getElem? hP))
      have hfit := hpre.length_le
      rw [List.length_drop] at hfit
      have he : o.first + P.rightPart.items.length ≤ text.length := by omega
      refine ⟨o.first + P.rightPart.items.length, by omega, he, P.rightPart.items, k, ?_, ?_, ?_⟩
      · apply (suffix_take_iff he).mpr
        rw [Nat.add_sub_cancel]
        exact ⟨by omega, hpre⟩
      · exact idxOf?_rightParts.mpr ⟨P, hP, rfl, hfirst⟩
      · rw [Nat.add_sub_cancel]
        exact ho

/-- The patterns `0 1` and `1`, the second one twice. -/
def twoPatterns : List WorkRule :=
  [⟨0, 2, ⟨[0, 1], 0⟩⟩, ⟨1, 2, ⟨[1], 0⟩⟩, ⟨2, 3, ⟨[1], 0⟩⟩]

theorem getOccurrences_twoPatterns : ∃ T, create 2 twoPatterns = some T ∧
    (⟨1, 2, 1, false, none⟩ : Occurrence Unit) ∈ T.getOccurrences [0, 1] ∧
    (⟨1, 2, 2, false, none⟩ : Occurrence Unit) ∉ T.getOccurrences [0, 1] := by
  obtain ⟨T, hT, _, hmatch⟩ := @getOccurrences_exact Unit 2 twoPatterns (by decide)
    ⟨by decide, by decide, by decide⟩ (by decide)
  refine ⟨T, hT, ?_, ?_⟩
  · apply ((hmatch [0, 1]).2 _).mpr
    exact ⟨1, _, rfl, by decide, by decide, rfl⟩
  · intro h
    obtain ⟨k, P, hP, hfirst, _, ho⟩ := ((hmatch [0, 1]).2 _).mp h
    obtain rfl : 2 = k := congrArg Occurrence.grammarRuleNo ho
    obtain rfl : _ = P := Option.some.inj hP
    exact hfirst 1 (by decide) _ rfl rfl

end TomitaParser.TrieHolder
