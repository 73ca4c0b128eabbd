import TomitaParser.Lib.LevelOrder
import TomitaParser.Lib.LongestSuffix
import TomitaParser.Trie.Patterns
/-! # The failure function of a trie

The failure function of a node leads to the longest proper suffix of its word that the trie spells.
The breadth-first search sets it level by level, so the walk for a child meets only nodes where it
is set. -/

namespace TomitaParser.TrieHolder
open LongestSuffix LevelOrder LoopRun

/-- The failure function is set at the node. -/
structure FailureAt (T : TrieHolder) (L : List (List ℕ)) (v : ℕ) : Prop where
  lt : ∀ r, (T.node v).failureFunction = some r → r < T.nodes.length
  link : IsFailure (· ∈ L) (label L v) ((T.node v).failureFunction.map (label L))

variable {T T' : TrieHolder} {L : List (List ℕ)}

/-- The first node on the way up with a way down by the symbol. -/
theorem Spells.followFailures (hT : Spells T L) {a : ℕ} :
    ∀ {fuel r : ℕ}, r < T.nodes.length → (label L r).length < fuel →
      (∀ u, u < T.nodes.length → (label L u).length ≤ (label L r).length → FailureAt T L u) →
      (∀ u, T.followFailures a fuel (some r) = some u → u < T.nodes.length) ∧
        IsLongest (fun x => x ++ [a] ∈ L) (label L r)
          ((T.followFailures a fuel (some r)).map (label L)) := by
  intro fuel
  induction fuel with
  | zero =>
    intro r _ hfuel
    exact absurd hfuel (Nat.not_lt_zero _)
  | succ fuel ih =>
    intro r hr hfuel hlinks
    have hlink := hlinks r hr (le_refl _)
    have hprefix : ∀ x, x ++ [a] ∈ L → x ∈ L := fun x => hT.mem_of_concat
    rw [TrieHolder.followFailures]
    by_cases hchild : T.findChild r a = none
    · have hnot : ¬label L r ++ [a] ∈ L := (hT.findChild_eq_none hr).mp hchild
      rw [if_pos hchild]
      cases hfail : (T.node r).failureFunction with
      | none =>
        have hstop := hlink.link
        rw [hfail] at hstop
        cases fuel with
        | zero => exact ⟨fun _ hu => (by cases hu), hstop.stop hprefix hnot⟩
        | succ fuel => exact ⟨fun _ hu => (by cases hu), hstop.stop hprefix hnot⟩
      | some u =>
        have hu := hlink.lt u hfail
        have hstep := hlink.link
        rw [hfail, Option.map_some] at hstep
        have hshort := hstep.length_lt
        obtain ⟨hlt, hlongest⟩ := ih hu (by omega) fun w hw hle => hlinks w hw (by omega)
        exact ⟨hlt, (hstep.step hprefix hnot).mpr hlongest⟩
    · rw [if_neg hchild]
      refine ⟨fun u hu => Option.some.inj hu ▸ hr, ?_⟩
      have hmem : label L r ++ [a] ∈ L := by
        by_contra hnot
        exact hchild ((hT.findChild_eq_none hr).mpr hnot)
      exact isLongest_self hmem

theorem Spells.descend (hT : Spells T L) {a r : ℕ} (hr : r < T.nodes.length)
    (hlinks : ∀ u, u < T.nodes.length → (label L u).length ≤ (label L r).length →
      FailureAt T L u) :
    ∃ way : Option (List ℕ), IsLongest (fun x => x ++ [a] ∈ L) (label L r) way ∧
      ((T.followFailures a T.nodes.length (some r)).bind (T.findChild · a)).map (label L) =
        way.map (· ++ [a]) ∧
      ∀ j, (T.followFailures a T.nodes.length (some r)).bind (T.findChild · a) = some j →
        j < T.nodes.length := by
  have hfuel : (label L r).length < T.nodes.length := by
    have := hT.length_label_le hr
    omega
  obtain ⟨hlt, hway⟩ := hT.followFailures (a := a) hr hfuel hlinks
  cases hfollow : T.followFailures a T.nodes.length (some r) with
  | none =>
    rw [hfollow] at hway
    exact ⟨none, hway, rfl, nofun⟩
  | some u =>
    rw [hfollow] at hway
    cases hj : T.findChild u a with
    | none => exact absurd hway.1 ((hT.findChild_eq_none (hlt u hfollow)).mp hj)
    | some j =>
      obtain ⟨hjlt, hlabel⟩ := hT.findChild_eq_some hj
      refine ⟨some (label L u), hway, ?_, ?_⟩
      · rw [Option.bind_some, hj, Option.map_some, hlabel, Option.map_some]
      · intro k hk
        rw [Option.bind_some, hj] at hk
        exact Option.some.inj hk ▸ hjlt

/-- The way down from above a node: the node itself is left out. -/
theorem Spells.descend_above (hT : Spells T L) {a v : ℕ} (hv : FailureAt T L v)
    (hlinks : ∀ u, u < T.nodes.length → (label L u).length < (label L v).length →
      FailureAt T L u) :
    ∃ way : Option (List ℕ),
      IsLongest (fun x => x ++ [a] ∈ L ∧ x ≠ label L v) (label L v) way ∧
      ((T.followFailures a T.nodes.length (T.node v).failureFunction).bind
        (T.findChild · a)).map (label L) = way.map (· ++ [a]) ∧
      ∀ j, (T.followFailures a T.nodes.length (T.node v).failureFunction).bind
        (T.findChild · a) = some j → j < T.nodes.length := by
  have hweaker : ∀ x, x <:+ label L v → x ++ [a] ∈ L ∧ x ≠ label L v →
      x ∈ L ∧ x ≠ label L v := fun x _ hx => ⟨hT.mem_of_concat hx.1, hx.2⟩
  have hlink := hv.link
  cases hfail : (T.node v).failureFunction with
  | none =>
    rw [hfail] at hlink
    have hnone : T.followFailures a T.nodes.length none = none := by
      cases T.nodes.length <;> rfl
    rw [hnone]
    exact ⟨none, IsLongest.search_none hlink hweaker, rfl, nofun⟩
  | some r =>
    rw [hfail, Option.map_some] at hlink
    have hshort := hlink.length_lt
    obtain ⟨way, hway, hdown, hlt⟩ := hT.descend (a := a) (hv.lt r hfail) fun u hu hle =>
      hlinks u hu (by omega)
    refine ⟨way, ?_, hdown, hlt⟩
    apply (IsLongest.search hlink hweaker).mpr
    apply (isLongest_congr _).mp hway
    intro x hx
    have hne : x ≠ label L v := by
      rintro rfl
      have := hx.length_le
      omega
    simp [hne]

/-- The node without its failure function. -/
def unlinked (n : TrieNode) : TrieNode := { n with failureFunction := none }

/-- The tries differ in their failure functions only. -/
structure Relinked (T T' : TrieHolder) : Prop where
  length_eq : T'.nodes.length = T.nodes.length
  alphabet_eq : T'.alphabetSize = T.alphabetSize
  node : ∀ v, unlinked (T'.node v) = unlinked (T.node v)

namespace Relinked

theorem refl (T : TrieHolder) : Relinked T T := ⟨rfl, rfl, fun _ => rfl⟩

theorem trans {T'' : TrieHolder} (h : Relinked T T') (h' : Relinked T' T'') : Relinked T T'' where
  length_eq := h'.length_eq.trans h.length_eq
  alphabet_eq := h'.alphabet_eq.trans h.alphabet_eq
  node v := (h'.node v).trans (h.node v)

theorem children_eq (h : Relinked T T') (v : ℕ) :
    (T'.node v).children = (T.node v).children := by
  have := congrArg TrieNode.children (h.node v)
  exact this

theorem rule_eq (h : Relinked T T') (v : ℕ) :
    (T'.node v).grammarRuleNo = (T.node v).grammarRuleNo := by
  have := congrArg TrieNode.grammarRuleNo (h.node v)
  exact this

theorem spells (h : Relinked T T') (hT : Spells T L) : Spells T' L := by
  apply hT.of_same h.length_eq h.alphabet_eq
  intro v
  have hparent := congrArg TrieNode.parent (h.node v)
  have hsymbol := congrArg TrieNode.incomingSymbol (h.node v)
  have hdepth := congrArg TrieNode.depth (h.node v)
  exact ⟨h.children_eq v, hparent, hsymbol, hdepth⟩

theorem numbered {f : List ℕ → Option ℕ} (h : Relinked T T') (hT : Numbered T L f) :
    Numbered T' L f where
  rule j hj := by
    rw [h.rule_eq]
    exact hT.rule j (h.length_eq ▸ hj)
  outside := hT.outside

end Relinked

/-- The node below the first node on the way up that has a way down by the symbol. -/
def goDown (T : TrieHolder) (start : Option ℕ) (a : ℕ) : ℕ :=
  ((T.followFailures a T.nodes.length start).bind (T.findChild · a)).getD 0

theorem setFailure_eq (parentFailure : Option ℕ) (T : TrieHolder) (p : ℕ × ℕ) :
    setFailure parentFailure T p = { T with
      nodes := T.nodes.modify p.2 (TrieNode.setFailure (T.goDown parentFailure p.1)) } := by
  simp only [setFailure, goDown]
  cases T.followFailures p.1 T.nodes.length parentFailure <;> rfl

theorem node_setFailure (parentFailure : Option ℕ) (T : TrieHolder) {p : ℕ × ℕ}
    (hp : p.2 < T.nodes.length) (v : ℕ) :
    (setFailure parentFailure T p).node v =
      if v = p.2 then (T.node v).setFailure (T.goDown parentFailure p.1) else T.node v := by
  rw [setFailure_eq]
  simp only [node, List.getD_eq_getElem?_getD, List.getElem?_modify]
  by_cases hv : v = p.2
  · subst hv
    simp [hp]
  · simp [hv, Ne.symm hv]

theorem relinked_setFailure (parentFailure : Option ℕ) (T : TrieHolder) {p : ℕ × ℕ}
    (hp : p.2 < T.nodes.length) : Relinked T (setFailure parentFailure T p) where
  length_eq := by
    rw [setFailure_eq]
    exact List.length_modify _ _ _
  alphabet_eq := by rw [setFailure_eq]
  node v := by
    rw [node_setFailure parentFailure T hp]
    split_ifs <;> rfl

theorem FailureAt.of_node {v : ℕ} (h : FailureAt T L v) (hlen : T'.nodes.length = T.nodes.length)
    (hnode : (T'.node v).failureFunction = (T.node v).failureFunction) : FailureAt T' L v where
  lt r hr := hlen ▸ h.lt r (hnode ▸ hr)
  link := hnode ▸ h.link

/-- The failure function of a child of `v`, when it is set up to the level of `v`. -/
theorem Spells.failureAt_child (hT : Spells T L) {v : ℕ}
    (hv : v < T.nodes.length)
    (hlinks : ∀ u, u < T.nodes.length → (label L u).length ≤ (label L v).length → FailureAt T L u)
    {p : ℕ × ℕ} (hp : p ∈ (T.node v).children) :
    FailureAt (setFailure (T.node v).failureFunction T p) L p.2 := by
  obtain ⟨_, hlt, hlabel⟩ := hT.child_lt hp
  obtain ⟨way, hway, hdown, hjlt⟩ := hT.descend_above (a := p.1) (hlinks v hv (le_refl _))
    fun u hu hle => hlinks u hu (by omega)
  have hlink : IsFailure (· ∈ L) (label L p.2)
      (some (label L (T.goDown (T.node v).failureFunction p.1))) := by
    have hnew : label L (T.goDown (T.node v).failureFunction p.1) =
        (way.map (· ++ [p.1])).getD [] := by
      rw [goDown, ← hdown]
      cases (T.followFailures p.1 T.nodes.length (T.node v).failureFunction).bind
        (T.findChild · p.1) with
      | none => exact hT.label_zero
      | some j => rfl
    rw [hnew, hlabel]
    apply IsLongest.concat_nil
    · apply (isLongest_congr _).mp hway
      intro x _
      simp
    · exact ⟨hT.nil_mem, by simp⟩
  have hnode : ((setFailure (T.node v).failureFunction T p).node p.2).failureFunction =
      some (T.goDown (T.node v).failureFunction p.1) := by
    rw [node_setFailure _ T hlt, if_pos rfl]
    rfl
  constructor
  · intro r hr
    rw [hnode] at hr
    rw [(relinked_setFailure _ T hlt).length_eq, ← Option.some.inj hr, goDown]
    cases hdesc : (T.followFailures p.1 T.nodes.length (T.node v).failureFunction).bind
        (T.findChild · p.1) with
    | none => exact hT.pos
    | some j => exact hjlt j hdesc
  · rw [hnode]
    exact hlink

/-- All children of `v`. -/
theorem Spells.foldl_setFailure {v : ℕ} {o : Option ℕ} (relations : List (ℕ × ℕ)) :
    ∀ {T : TrieHolder}, Spells T L → v < T.nodes.length → (T.node v).failureFunction = o →
      (∀ u, u < T.nodes.length → (label L u).length ≤ (label L v).length → FailureAt T L u) →
      (∀ p ∈ relations, p ∈ (T.node v).children) →
      Relinked T (relations.foldl (setFailure o) T) ∧
        (∀ p ∈ relations, FailureAt (relations.foldl (setFailure o) T) L p.2) ∧
        ∀ u, u ∉ relations.map Prod.snd →
          (relations.foldl (setFailure o) T).node u = T.node u := by
  induction relations with
  | nil => exact fun _ _ _ _ _ => ⟨Relinked.refl _, nofun, fun _ _ => rfl⟩
  | cons p relations ih =>
    intro T hT hv ho hlinks hchildren
    have hp := hchildren p List.mem_cons_self
    obtain ⟨_, hlt, hlabel⟩ := hT.child_lt hp
    have hchild := hT.failureAt_child hv hlinks hp
    rw [ho] at hchild
    have hrel := relinked_setFailure o T hlt
    have hnode := node_setFailure o T hlt
    -- the nodes up to the level of `v` are not among the children
    have hupper : ∀ u, (label L u).length ≤ (label L v).length →
        (setFailure o T p).node u = T.node u := by
      intro u hle
      rw [hnode, if_neg]
      rintro rfl
      rw [hlabel, List.length_append, List.length_singleton] at hle
      omega
    obtain ⟨hrel', hset, hsame⟩ := ih (hrel.spells hT) (hrel.length_eq ▸ hv)
      (by rw [hupper v (le_refl _), ho])
      (by
        intro u hu hle
        exact (hlinks u (hrel.length_eq ▸ hu) hle).of_node hrel.length_eq (by rw [hupper u hle]))
      (by
        intro q hq
        rw [hrel.children_eq]
        exact hchildren q (List.mem_cons_of_mem p hq))
    rw [List.foldl_cons]
    refine ⟨hrel.trans hrel', ?_, ?_⟩
    · intro q hq
      by_cases hmem : q.2 ∈ relations.map Prod.snd
      · obtain ⟨q', hq', heq⟩ := List.mem_map.mp hmem
        rw [← heq]
        exact hset q' hq'
      · rcases List.mem_cons.mp hq with rfl | hq
        · exact hchild.of_node hrel'.length_eq (by rw [hsame _ hmem])
        · exact absurd (List.mem_map_of_mem hq) hmem
    · intro u hu
      rw [List.map_cons, List.mem_cons, not_or] at hu
      rw [hsame u hu.2, hnode, if_neg hu.1]

def childNos (T : TrieHolder) (v : ℕ) : List ℕ := (T.node v).children.map Prod.snd

theorem Spells.mem_childNos (hT : Spells T L) {v j : ℕ} (h : j ∈ T.childNos v) :
    ∃ a, (a, j) ∈ (T.node v).children ∧ v < T.nodes.length ∧ j < T.nodes.length ∧
      label L j = label L v ++ [a] := by
  obtain ⟨⟨a, k⟩, hp, rfl⟩ := List.mem_map.mp h
  exact ⟨a, hp, hT.child_lt hp⟩

theorem Spells.levelTree (hT : Spells T L) :
    LevelTree (Finset.range T.nodes.length) 0 T.childNos fun v => (label L v).length where
  root_mem := Finset.mem_range.mpr hT.pos
  level_root := by rw [hT.label_zero, List.length_nil]
  nodup v := by
    apply List.pairwise_map.mpr
    apply (hT.sorted v).imp_of_mem
    intro p q hp hq hlt heq
    have hlabel := (hT.child_lt hp).2.2
    rw [heq, (hT.child_lt hq).2.2, List.append_cancel_left_eq, List.cons.injEq] at hlabel
    simp only [relationLt, decide_eq_true_eq] at hlt
    omega
  mem v j hj := by
    obtain ⟨_, _, _, hlt, _⟩ := hT.mem_childNos hj
    exact Finset.mem_range.mpr hlt
  level_child v j hj := by
    obtain ⟨a, _, _, _, hlabel⟩ := hT.mem_childNos hj
    rw [hlabel, List.length_append, List.length_singleton]
  parent_unique u v j hu hv := by
    obtain ⟨a, _, hult, _, ha⟩ := hT.mem_childNos hu
    obtain ⟨b, _, hvlt, _, hb⟩ := hT.mem_childNos hv
    exact hT.label_inj hult hvlt (List.append_inj_left' (ha.symm.trans hb) rfl)
  parent j hj hne := by
    have hlt := Finset.mem_range.mp hj
    obtain ⟨v, a, hv, _, _, hlabel⟩ := hT.origin j (Nat.pos_of_ne_zero hne) hlt
    have hvlt : v < T.nodes.length := by omega
    refine ⟨v, Finset.mem_range.mpr hvlt, ?_⟩
    exact List.mem_map_of_mem (f := Prod.snd) ((hT.child v a j).mpr ⟨hvlt, hlabel⟩)

/-- The state of the search through `T`. -/
structure Searching (T : TrieHolder) (L : List (List ℕ)) (s : TrieHolder × List ℕ × ℕ) : Prop where
  relinked : Relinked T s.1
  queue : SearchQueue (Finset.range T.nodes.length) 0 T.childNos (fun v => (label L v).length)
    s.2.1 s.2.2
  failure : ∀ v ∈ s.2.1, FailureAt s.1 L v

/-- One node of the search: its children are linked and enter the queue. -/
theorem Searching.step (hT : Spells T L) {s : TrieHolder × List ℕ × ℕ} (hs : Searching T L s) :
    (failureStep s).Spec (fun s' => Searching T L s' ∧
        T.nodes.length - s'.2.2 < T.nodes.length - s.2.2)
      fun _ s' => Relinked T s'.1 ∧ ∀ v, v < T.nodes.length → FailureAt s'.1 L v := by
  obtain ⟨S, bfs, i⟩ := s
  have hrel : Relinked T S := hs.relinked
  have hqueue : SearchQueue (Finset.range T.nodes.length) 0 T.childNos
    (fun v => (label L v).length) bfs i := hs.queue
  have hfailure : ∀ v ∈ bfs, FailureAt S L v := hs.failure
  have htree := hT.levelTree
  simp only [failureStep]
  cases hv : bfs[i]? with
  | none =>
    refine ⟨hrel, fun v hlt => ?_⟩
    exact hfailure v (hqueue.mem_of_end htree hv (Finset.mem_range.mpr hlt))
  | some v =>
    have hi := (List.getElem?_eq_some_iff.mp hv).1
    have hlength := hqueue.length_le
    rw [Finset.card_range] at hlength
    have hvlt := Finset.mem_range.mp (hqueue.mem v (List.mem_of_getElem? hv))
    have hS := hrel.spells hT
    have hnos : (S.node v).children.map Prod.snd = T.childNos v := by
      rw [hrel.children_eq, childNos]
    obtain ⟨hrel', hset, hsame⟩ := hS.foldl_setFailure (v := v) (S.node v).children
      (hrel.length_eq ▸ hvlt) rfl
      (by
        intro u hu hle
        apply hfailure u
        exact hqueue.mem_of_level_le htree hv (Finset.mem_range.mpr (hrel.length_eq ▸ hu)) hle)
      (fun p hp => hp)
    refine ⟨⟨hrel.trans hrel', ?_, ?_⟩, ?_⟩
    · show SearchQueue _ 0 _ _ (bfs ++ (S.node v).children.map Prod.snd) (i + 1)
      rw [hnos]
      exact hqueue.step htree hv
    · intro u hu
      by_cases hchild : u ∈ (S.node v).children.map Prod.snd
      · obtain ⟨p, hp, rfl⟩ := List.mem_map.mp hchild
        exact hset p hp
      · rcases List.mem_append.mp hu with hu | hu
        · exact (hfailure u hu).of_node hrel'.length_eq (by rw [hsame u hchild])
        · exact absurd hu hchild
    · show T.nodes.length - (i + 1) < T.nodes.length - i
      omega

theorem Spells.initFailureFunction (hT : Spells T L) (hU : Unlinked T) :
    Relinked T T.initFailureFunction ∧
      ∀ v, v < T.nodes.length → FailureAt T.initFailureFunction L v := by
  have hstart : Searching T L (T, [0], 0) := by
    refine ⟨Relinked.refl T, searchQueue_start hT.levelTree, ?_⟩
    intro v hv
    rw [List.mem_singleton.mp hv]
    constructor
    · intro r hr
      rw [hU 0] at hr
      cases hr
    · rw [hU 0, hT.label_zero]
      intro x hx hmem
      exact hmem.2 (List.suffix_nil.mp hx)
  exact @runLoop_post_of_measure _ _ failureStep () (fun s => T.nodes.length - s.2.2)
    (Searching T L) (fun _ s => Relinked T s.1 ∧ ∀ v, v < T.nodes.length → FailureAt s.1 L v)
    (fun s hs => hs.step hT) (T.nodes.length + 1) (T, [0], 0) hstart (Nat.lt_succ_self _)

end TomitaParser.TrieHolder
