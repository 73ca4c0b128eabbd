import Mathlib.Data.List.Lex
import TomitaParser.Trie.Spelling
/-! # The patterns of a trie

The trie is built by comparing each pattern with the one before it only. As the patterns come in
order, the prefixes a pattern shares with any earlier one are shared with the previous one too, so
the trie spells exactly the prefixes of the patterns. -/

namespace TomitaParser.TrieHolder
open OrderedSet

theorem prefix_of_between {α : Type*} [LinearOrder α] {u p q r : List α} (hp : u <+: p)
    (hr : u <+: r) (hpq : ¬q < p) (hqr : ¬r < q) : u <+: q := by
  induction u generalizing p q r with
  | nil => exact List.nil_prefix
  | cons a u ih =>
    obtain ⟨p', rfl⟩ := hp
    obtain ⟨r', rfl⟩ := hr
    cases q with
    | nil => exact absurd (List.nil_lt_cons _ _) hpq
    | cons b q =>
      rw [List.cons_append, List.cons_lt_cons_iff, not_or, not_and] at hpq hqr
      have hab : a = b := le_antisymm (not_lt.mp hpq.1) (not_lt.mp hqr.1)
      refine List.cons_prefix_cons.mpr ⟨hab, ?_⟩
      exact ih (List.prefix_append u p') (List.prefix_append u r') (hpq.2 hab.symm) (hqr.2 hab)

theorem idxOf?_concat (ps : List (List ℕ)) (q w : List ℕ) :
    (ps ++ [q]).idxOf? w = if w ∈ ps then ps.idxOf? w
      else if w = q then some ps.length else none := by
  have happend : (ps ++ [q]).idxOf? w =
      (ps.idxOf? w).or (([q].idxOf? w).map (· + ps.length)) := List.findIdx?_append
  rw [happend]
  by_cases hw : w ∈ ps
  · rw [if_pos hw, Option.or_of_isSome (List.isSome_idxOf?.mpr hw)]
  · rw [if_neg hw, List.idxOf?_eq_none_iff.mpr hw, Option.none_or, List.idxOf?_singleton]
    by_cases hq : w = q
    · simp [hq]
    · simp [hq, Ne.symm hq]

/-- The trie of the patterns `ps`, before its failure function. -/
structure Holds (T : TrieHolder) (L ps : List (List ℕ)) : Prop where
  spells : Spells T L
  numbered : Numbered T L fun w => ps.idxOf? w
  unlinked : Unlinked T
  mem : ∀ w, w ∈ L ↔ w = [] ∨ ∃ p ∈ ps, w <+: p

variable {T : TrieHolder} {L ps : List (List ℕ)}

/-- The starter stands at the longest common prefix of the two patterns. -/
theorem Spells.starter (hT : Spells T L) (prev cur : List ℕ) {v : ℕ} (hv : v < T.nodes.length)
    (hmem : label L v ++ prev ∈ L) :
    ∃ c u prevRest rest, T.starter prev cur v = some (u, rest) ∧ u < T.nodes.length ∧
      label L u = label L v ++ c ∧ cur = c ++ rest ∧ prev = c ++ prevRest ∧
      ∀ a, [a] <+: rest → ¬[a] <+: prevRest := by
  induction prev generalizing cur v with
  | nil =>
    refine ⟨[], v, [], cur, ?_, hv, (List.append_nil _).symm, rfl, rfl, ?_⟩
    · cases cur <;> rfl
    · intro a _ h
      exact absurd (List.prefix_nil.mp h) (List.cons_ne_nil a [])
  | cons b prev ih =>
    cases cur with
    | nil =>
      refine ⟨[], v, b :: prev, [], rfl, hv, (List.append_nil _).symm, rfl, rfl, ?_⟩
      intro a h
      exact absurd (List.prefix_nil.mp h) (List.cons_ne_nil a [])
    | cons a cur =>
      by_cases hab : a = b
      · subst hab
        have hsplit : label L v ++ a :: prev = (label L v ++ [a]) ++ prev := by
          rw [List.append_assoc, List.singleton_append]
        have hnext : label L v ++ [a] ∈ L := by
          rw [hsplit] at hmem
          exact hT.mem_of_append hmem
        cases hj : T.findChild v a with
        | none => exact absurd hnext ((hT.findChild_eq_none hv).mp hj)
        | some j =>
          obtain ⟨hjlt, hlabel⟩ := hT.findChild_eq_some hj
          obtain ⟨c, u, prevRest, rest, hstart, hu, hword, rfl, rfl, hdiff⟩ :=
            ih cur hjlt (by rw [hlabel, ← hsplit]; exact hmem)
          refine ⟨a :: c, u, prevRest, rest, ?_, hu, ?_, rfl, rfl, hdiff⟩
          · rw [TrieHolder.starter, if_neg (not_not.mpr rfl), hj]
            exact hstart
          · rw [hword, hlabel, List.append_assoc, List.singleton_append]
      · refine ⟨[], v, b :: prev, a :: cur, ?_, hv, (List.append_nil _).symm, rfl, rfl, ?_⟩
        · rw [TrieHolder.starter, if_pos hab]
        · intro c hc hc'
          exact hab ((List.cons_prefix_cons.mp hc).1.symm.trans (List.cons_prefix_cons.mp hc').1)

/-- A pattern that comes after all others enters the trie with its number. -/
theorem Holds.addPattern (hT : Holds T L ps) {prev cur : List ℕ} (hprev : prev ∈ ps)
    (hle : ∀ p ∈ ps, ¬prev < p) (hcur : ¬cur < prev) (hne : cur ≠ [])
    (hlt : ∀ a ∈ cur, a < T.alphabetSize) :
    ∃ T' L', T.addPattern prev cur ps.length = some T' ∧ T'.alphabetSize = T.alphabetSize ∧
      Holds T' L' (ps ++ [cur]) := by
  have hroot := hT.spells.label_zero
  have hprevMem : label L 0 ++ prev ∈ L := by
    rw [hroot, List.nil_append]
    exact (hT.mem prev).mpr (Or.inr ⟨prev, hprev, List.prefix_rfl⟩)
  obtain ⟨c, u, prevRest, rest, hstart, hu, hword, hcurEq, hprevEq, hdiff⟩ :=
    hT.spells.starter prev cur hT.spells.pos hprevMem
  rw [hroot, List.nil_append] at hword
  rw [TrieHolder.addPattern, if_neg hne, hstart, Option.bind_some]
  dsimp only
  by_cases hrest : rest = []
  · -- the pattern is the previous one
    have hsame : cur = prev := by
      have hge : ¬prev < cur := by
        rw [hcurEq, hrest, List.append_nil, hprevEq]
        exact List.not_lt.mpr List.le_append_left
      exact le_antisymm (not_lt.mp hge) (not_lt.mp hcur)
    rw [if_neg (not_not.mpr hrest), if_pos (by rw [hsame])]
    refine ⟨T, L, rfl, rfl, hT.spells, ?_, hT.unlinked, ?_⟩
    · constructor
      · intro j hj
        rw [hT.numbered.rule j hj, idxOf?_concat]
        split_ifs with hmem hq
        · rfl
        · exact absurd (hq ▸ hsame ▸ hprev) hmem
        · exact List.idxOf?_eq_none_iff.mpr hmem
      · intro w hw
        rw [List.idxOf?_eq_none_iff, List.mem_append, List.mem_singleton, hsame]
        rintro (h | rfl)
        · exact hw ((hT.mem w).mpr (Or.inr ⟨w, h, List.prefix_rfl⟩))
        · exact hw ((hT.mem w).mpr (Or.inr ⟨w, hprev, List.prefix_rfl⟩))
    · intro w
      rw [hT.mem, hsame]
      apply or_congr Iff.rfl
      simp only [List.mem_append, List.mem_singleton]
      constructor
      · rintro ⟨p, hp, hw⟩
        exact ⟨p, Or.inl hp, hw⟩
      · rintro ⟨p, hp | rfl, hw⟩
        · exact ⟨p, hp, hw⟩
        · exact ⟨p, hprev, hw⟩
  · -- no earlier pattern goes on as this one does
    have hnew : ∀ p, p ≠ [] → p <+: rest → label L u ++ p ∉ L := by
      intro p hp hpre hmem
      obtain ⟨a, p, rfl⟩ := List.exists_cons_of_ne_nil hp
      rw [hword] at hmem
      have hone : [a] <+: rest := (List.prefix_append [a] p).trans hpre
      have hca : c ++ [a] <+: c ++ a :: p :=
        (List.prefix_append_right_inj c).mpr (List.prefix_append [a] p)
      rcases (hT.mem _).mp hmem with hnil | ⟨q, hq, hcq⟩
      · simp at hnil
      · have hbetween : c ++ [a] <+: prev := by
          apply prefix_of_between (hca.trans hcq) _ (hle q hq) hcur
          rw [hcurEq]
          exact (List.prefix_append_right_inj c).mpr hone
        rw [hprevEq, List.prefix_append_right_inj] at hbetween
        exact hdiff a hone hbetween
    obtain ⟨T', L', hT', hG⟩ := hT.spells.createChildrenSequence ps.length hrest
      hT.numbered hT.unlinked hu (fun a ha => hlt a (hcurEq ▸ List.mem_append_right c ha)) hnew
    have hcurWord : label L u ++ rest = cur := by rw [hword, hcurEq]
    have hcurNew : cur ∉ L := by
      rw [← hcurWord]
      exact hnew rest hrest List.prefix_rfl
    rw [if_pos hrest]
    refine ⟨T', L', hT', hG.alphabet, hG.spells, ?_, hG.unlinked, ?_⟩
    · have hfun : (fun w => if w = label L u ++ rest then some ps.length else ps.idxOf? w) =
          fun w => (ps ++ [cur]).idxOf? w := by
        funext w
        rw [idxOf?_concat, hcurWord]
        by_cases hw : w = cur
        · have hnot : cur ∉ ps := fun h =>
            hcurNew ((hT.mem cur).mpr (Or.inr ⟨cur, h, List.prefix_rfl⟩))
          rw [hw, if_pos rfl, if_neg hnot, if_pos rfl]
        · rw [if_neg hw, if_neg hw]
          split_ifs with hmem
          · rfl
          · exact List.idxOf?_eq_none_iff.mpr hmem
      have := hG.numbered
      rw [hfun] at this
      exact this
    · intro w
      rw [hG.mem, hT.mem]
      simp only [List.mem_append, List.mem_singleton]
      constructor
      · rintro ((h | ⟨p, hp, hw⟩) | ⟨p, _, hpre, rfl⟩)
        · exact Or.inl h
        · exact Or.inr ⟨p, Or.inl hp, hw⟩
        · refine Or.inr ⟨cur, Or.inr rfl, ?_⟩
          rw [← hcurWord]
          exact (List.prefix_append_right_inj _).mpr hpre
      · rintro (h | ⟨p, hp | rfl, hw⟩)
        · exact Or.inl (Or.inl h)
        · exact Or.inl (Or.inr ⟨p, hp, hw⟩)
        · -- a prefix of the new pattern is in its new part or in the common one
          rcases List.prefix_or_prefix_of_prefix hw (hcurEq ▸ List.prefix_append c rest)
            with hwc | hcw
          · exact Or.inl (Or.inr ⟨prev, hprev, hwc.trans (hprevEq ▸ List.prefix_append c _)⟩)
          · obtain ⟨d, rfl⟩ := hcw
            by_cases hd : d = []
            · refine Or.inl (Or.inr ⟨prev, hprev, ?_⟩)
              rw [hd, List.append_nil, hprevEq]
              exact List.prefix_append c _
            · refine Or.inr ⟨d, hd, ?_, by rw [hword]⟩
              rw [hcurEq, List.prefix_append_right_inj] at hw
              exact hw

theorem items_not_lt {P Q : WorkRule} (h : P.lt Q = true) :
    ¬Q.rightPart.items < P.rightPart.items := by
  by_cases hitems : P.rightPart.items = Q.rightPart.items
  · rw [hitems]
    exact lt_irrefl _
  · have hparts : P.rightPart ≠ Q.rightPart := fun h => hitems (by rw [h])
    simp only [WorkRule.lt, WorkRightRulePart.lt, ne_eq, hparts, hitems, not_false_eq_true, if_true,
      decide_eq_true_eq] at h
    exact not_lt.mpr h.le

/-- A sorted set of patterns that the symbols of the alphabet can make up. -/
structure PatternSet (alphabetSize : ℕ) (patterns : List WorkRule) : Prop where
  sorted : patterns.Pairwise (WorkRule.lt · · = true)
  items_ne : ∀ P ∈ patterns, P.rightPart.items ≠ []
  symbol_lt : ∀ P ∈ patterns, ∀ a ∈ P.rightPart.items, a < alphabetSize

theorem PatternSet.tail {alphabetSize : ℕ} {P : WorkRule} {patterns : List WorkRule}
    (h : PatternSet alphabetSize (P :: patterns)) : PatternSet alphabetSize patterns where
  sorted := (List.pairwise_cons.mp h.sorted).2
  items_ne Q hQ := h.items_ne Q (List.mem_cons_of_mem P hQ)
  symbol_lt Q hQ := h.symbol_lt Q (List.mem_cons_of_mem P hQ)

theorem Holds.addPatterns {patterns : List WorkRule} {alphabetSize : ℕ} {prev : WorkRule} :
    ∀ {ps : List (List ℕ)} {T : TrieHolder} {L : List (List ℕ)}, Holds T L ps →
      T.alphabetSize = alphabetSize → PatternSet alphabetSize (prev :: patterns) →
      prev.rightPart.items ∈ ps → (∀ p ∈ ps, ¬prev.rightPart.items < p) →
      ∃ T' L', TrieHolder.addPatterns prev.rightPart.items ps.length patterns T = some T' ∧
        Holds T' L' (ps ++ patterns.map (·.rightPart.items)) := by
  induction patterns generalizing prev with
  | nil =>
    intro ps T L hT _ _ _ _
    exact ⟨T, L, rfl, by simpa using hT⟩
  | cons P patterns ih =>
    intro ps T L hT halpha hset hprev hle
    have hP : P ∈ prev :: P :: patterns := List.mem_cons_of_mem prev List.mem_cons_self
    have hcur := items_not_lt ((List.pairwise_cons.mp hset.sorted).1 P List.mem_cons_self)
    obtain ⟨T₁, L₁, h₁, halpha₁, hT₁⟩ := hT.addPattern hprev hle hcur (hset.items_ne P hP)
      (halpha ▸ hset.symbol_lt P hP)
    obtain ⟨T', L', h', hT'⟩ := ih hT₁ (halpha₁.trans halpha) hset.tail
      (List.mem_append_right ps List.mem_cons_self) (by
        intro p hp
        rcases List.mem_append.mp hp with hp | hp
        · have hpPrev := not_lt.mp (hle p hp)
          exact not_lt.mpr (hpPrev.trans (not_lt.mp hcur))
        · rw [List.mem_singleton.mp hp]
          exact lt_irrefl _)
    refine ⟨T', L', ?_, ?_⟩
    · rw [TrieHolder.addPatterns, h₁, Option.bind_some]
      rw [List.length_append, List.length_singleton] at h'
      exact h'
    · rw [List.map_cons, ← List.singleton_append, ← List.append_assoc]
      exact hT'

/-- The trie of a sorted set of patterns spells their prefixes, with the number of the first
pattern at the end of each right part. -/
theorem createTrie_holds {alphabetSize : ℕ} {patterns : List WorkRule} (hne : patterns ≠ [])
    (hset : PatternSet alphabetSize patterns) :
    ∃ T L, createTrie alphabetSize patterns = some T ∧
      Holds T L (patterns.map (·.rightPart.items)) := by
  obtain ⟨P, patterns, rfl⟩ := List.exists_cons_of_ne_nil hne
  have hempty := spells_empty alphabetSize
  have hnode : ∀ v, node ⟨alphabetSize, [{}]⟩ v = {} := by
    intro v
    cases v with
    | zero => rfl
    | succ v => exact node_of_length_le (Nat.succ_le_succ (Nat.zero_le v))
  obtain ⟨T₁, L₁, h₁, hG⟩ := hempty.createChildrenSequence (f := fun _ => none) 0
    (hset.items_ne P List.mem_cons_self)
    (by
      constructor
      · intro j _
        rw [hnode]
      · intro w _
        rfl)
    (by
      intro v
      rw [hnode]) hempty.pos (hset.symbol_lt P List.mem_cons_self) (by
      intro p hp _ hmem
      exact hp (List.mem_singleton.mp hmem))
  have hzero : ∀ s, label [[]] 0 ++ s = s := fun s => rfl
  have hT₁ : Holds T₁ L₁ [P.rightPart.items] := by
    refine ⟨hG.spells, ?_, hG.unlinked, ?_⟩
    · have hfun : (fun w => if w = label [[]] 0 ++ P.rightPart.items then some 0 else none) =
          fun w => [P.rightPart.items].idxOf? w := by
        funext w
        rw [List.idxOf?_singleton, hzero]
        by_cases hw : w = P.rightPart.items
        · simp [hw]
        · simp [hw, Ne.symm hw]
      have := hG.numbered
      rw [hfun] at this
      exact this
    · intro w
      rw [hG.mem]
      simp only [hzero, List.mem_singleton, exists_eq_left]
      constructor
      · rintro (h | ⟨p, _, hpre, rfl⟩)
        · exact Or.inl h
        · exact Or.inr hpre
      · rintro (h | h)
        · exact Or.inl h
        · by_cases hw : w = []
          · exact Or.inl hw
          · exact Or.inr ⟨w, hw, h, rfl⟩
  obtain ⟨T, L, h, hT⟩ := hT₁.addPatterns hG.alphabet hset List.mem_cons_self (by
    intro p hp
    rw [List.mem_singleton.mp hp]
    exact lt_irrefl _)
  refine ⟨T, L, ?_, hT⟩
  rw [createTrie, h₁, Option.bind_some]
  exact h

end TomitaParser.TrieHolder
