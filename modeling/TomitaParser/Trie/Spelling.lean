import TomitaParser.Trie.AhoKorasick
/-! # The words a trie spells

Each node of a trie stands for a word, the symbols on the way from the root. The words are kept
beside the trie, in the order of the nodes, and every operation that builds the trie is described
by what it does to them. -/

namespace TomitaParser.TrieHolder
open OrderedSet

/-- The word of a node. -/
def label (L : List (List ℕ)) (v : ℕ) : List ℕ := L.getD v []

/-- The nodes of the trie spell the words `L`. -/
structure Spells (T : TrieHolder) (L : List (List ℕ)) : Prop where
  length_eq : L.length = T.nodes.length
  root : L[0]? = some []
  nodup : L.Nodup
  child : ∀ v a j, (a, j) ∈ (T.node v).children ↔
    v < T.nodes.length ∧ L[j]? = some (label L v ++ [a])
  origin : ∀ j, 0 < j → j < T.nodes.length → ∃ v a, v < j ∧ (T.node j).parent = some v ∧
    (T.node j).incomingSymbol = some a ∧ L[j]? = some (label L v ++ [a])
  depth : ∀ j, j < T.nodes.length → (T.node j).depth = (label L j).length % 256
  sorted : ∀ v, (T.node v).children.Pairwise (relationLt · · = true)
  symbol_lt : ∀ v, ∀ p ∈ (T.node v).children, p.1 < T.alphabetSize

/-- The rule numbers at the ends of the patterns; `f` is where the patterns have theirs. -/
structure Numbered (T : TrieHolder) (L : List (List ℕ)) (f : List ℕ → Option ℕ) : Prop where
  rule : ∀ j, j < T.nodes.length → (T.node j).grammarRuleNo = f (label L j)
  outside : ∀ w, w ∉ L → f w = none

/-- No failure function is set. -/
def Unlinked (T : TrieHolder) : Prop := ∀ v, (T.node v).failureFunction = none

variable {T T' : TrieHolder} {L : List (List ℕ)} {f : List ℕ → Option ℕ}

theorem label_of_getElem? {j : ℕ} {w : List ℕ} (h : L[j]? = some w) : label L j = w := by
  rw [label, List.getD_eq_getElem?_getD, h, Option.getD_some]

theorem getElem?_label {j : ℕ} (h : j < L.length) : L[j]? = some (label L j) := by
  rw [label, List.getD_eq_getElem _ _ h, List.getElem?_eq_getElem h]

theorem label_append {L' : List (List ℕ)} {j : ℕ} (h : j < L.length) :
    label (L ++ L') j = label L j := by
  rw [label, label, List.getD_append _ _ _ _ h]

theorem relationLt_trans (a b c : ℕ × ℕ) (hab : relationLt a b = true)
    (hbc : relationLt b c = true) : relationLt a c = true := by
  simp only [relationLt, decide_eq_true_eq] at hab hbc ⊢
  omega

theorem node_of_length_le {v : ℕ} (h : T.nodes.length ≤ v) : T.node v = {} := by
  rw [node, List.getD_eq_default _ _ h]
  rfl

namespace Spells

theorem pos (hT : Spells T L) : 0 < T.nodes.length := by
  have := (List.getElem?_eq_some_iff.mp hT.root).1
  rw [hT.length_eq] at this
  exact this

theorem label_zero (hT : Spells T L) : label L 0 = [] := label_of_getElem? hT.root

theorem label_mem (hT : Spells T L) {v : ℕ} (hv : v < T.nodes.length) : label L v ∈ L := by
  rw [← hT.length_eq] at hv
  exact List.mem_of_getElem? (getElem?_label hv)

theorem exists_label (hT : Spells T L) {w : List ℕ} (hw : w ∈ L) :
    ∃ j, j < T.nodes.length ∧ label L j = w := by
  obtain ⟨j, hj⟩ := List.mem_iff_getElem?.mp hw
  have hlt := (List.getElem?_eq_some_iff.mp hj).1
  rw [hT.length_eq] at hlt
  exact ⟨j, hlt, label_of_getElem? hj⟩

theorem label_inj (hT : Spells T L) {v u : ℕ} (hv : v < T.nodes.length) (hu : u < T.nodes.length)
    (h : label L v = label L u) : v = u := by
  rw [← hT.length_eq] at hv hu
  have heq : L[v]? = L[u]? := by rw [getElem?_label hv, getElem?_label hu, h]
  exact (List.getElem?_inj hv hT.nodup).mp heq

theorem child_lt (hT : Spells T L) {v a j : ℕ} (h : (a, j) ∈ (T.node v).children) :
    v < T.nodes.length ∧ j < T.nodes.length ∧ label L j = label L v ++ [a] := by
  obtain ⟨hv, hj⟩ := (hT.child v a j).mp h
  have hlt := (List.getElem?_eq_some_iff.mp hj).1
  rw [hT.length_eq] at hlt
  exact ⟨hv, hlt, label_of_getElem? hj⟩

theorem findChild_eq_some (hT : Spells T L) {v a j : ℕ} (h : T.findChild v a = some j) :
    j < T.nodes.length ∧ label L j = label L v ++ [a] :=
  (hT.child_lt (mem_of_findChild h)).2

theorem findChild_eq_none (hT : Spells T L) {v a : ℕ} (hv : v < T.nodes.length) :
    T.findChild v a = none ↔ label L v ++ [a] ∉ L := by
  constructor
  · intro h hmem
    obtain ⟨j, hj⟩ := List.mem_iff_getElem?.mp hmem
    obtain ⟨k, hk⟩ := exists_findChild ((hT.child v a j).mpr ⟨hv, hj⟩)
    rw [h] at hk
    cases hk
  · intro h
    rw [Option.eq_none_iff_forall_ne_some]
    intro j hj
    apply h
    obtain ⟨hlt, hlabel⟩ := hT.findChild_eq_some hj
    rw [← hlabel]
    exact hT.label_mem hlt

theorem length_label_le (hT : Spells T L) {v : ℕ} (hv : v < T.nodes.length) :
    (label L v).length ≤ v := by
  induction v using Nat.strong_induction_on with
  | h v ih =>
    rcases Nat.eq_zero_or_pos v with rfl | hpos
    · rw [hT.label_zero, List.length_nil]
    · obtain ⟨u, a, hlt, _, _, hlabel⟩ := hT.origin v hpos hv
      have := ih u hlt (by omega)
      rw [label_of_getElem? hlabel, List.length_append, List.length_singleton]
      omega

theorem mem_of_concat (hT : Spells T L) {x : List ℕ} {a : ℕ} (h : x ++ [a] ∈ L) : x ∈ L := by
  obtain ⟨j, hj, hlabel⟩ := hT.exists_label h
  rcases Nat.eq_zero_or_pos j with rfl | hpos
  · rw [hT.label_zero] at hlabel
    simp at hlabel
  · obtain ⟨v, b, hlt, _, _, heq⟩ := hT.origin j hpos hj
    rw [← hlabel, label_of_getElem? heq] at h
    have happend := (label_of_getElem? heq).symm.trans hlabel
    rw [← (List.append_inj_left' happend rfl)]
    exact hT.label_mem (by omega)

theorem mem_of_append (hT : Spells T L) {x y : List ℕ} (h : x ++ y ∈ L) : x ∈ L := by
  induction y using List.reverseRecOn with
  | nil => simpa using h
  | append_singleton y a ih =>
    rw [← List.append_assoc] at h
    exact ih (hT.mem_of_concat h)

theorem nil_mem (hT : Spells T L) : [] ∈ L := List.mem_of_getElem? hT.root

theorem of_same (hT : Spells T L) (hlen : T'.nodes.length = T.nodes.length)
    (halphabet : T'.alphabetSize = T.alphabetSize)
    (hnode : ∀ v, (T'.node v).children = (T.node v).children ∧
      (T'.node v).parent = (T.node v).parent ∧
      (T'.node v).incomingSymbol = (T.node v).incomingSymbol ∧
      (T'.node v).depth = (T.node v).depth) : Spells T' L where
  length_eq := hT.length_eq.trans hlen.symm
  root := hT.root
  nodup := hT.nodup
  child v a j := by
    rw [(hnode v).1, hlen]
    exact hT.child v a j
  origin j hj hlt := by
    rw [(hnode j).2.1, (hnode j).2.2.1]
    exact hT.origin j hj (by omega)
  depth j hj := by
    rw [(hnode j).2.2.2]
    exact hT.depth j (by omega)
  sorted v := by
    rw [(hnode v).1]
    exact hT.sorted v
  symbol_lt v := by
    rw [(hnode v).1, halphabet]
    exact hT.symbol_lt v

end Spells

/-- The trie of the empty word. -/
theorem spells_empty (alphabetSize : ℕ) : Spells ⟨alphabetSize, [{}]⟩ [[]] := by
  have hnode : ∀ v, node ⟨alphabetSize, [{}]⟩ v = {} := by
    intro v
    cases v with
    | zero => rfl
    | succ v => exact node_of_length_le (Nat.succ_le_succ (Nat.zero_le v))
  constructor
  · rfl
  · rfl
  · exact List.nodup_singleton []
  · intro v a j
    rw [hnode]
    constructor
    · intro h
      exact absurd h List.not_mem_nil
    · intro h
      have := List.mem_singleton.mp (List.mem_of_getElem? h.2)
      simp at this
  · intro j hpos hlt
    simp only [List.length_singleton] at hlt
    omega
  · intro j hj
    simp only [List.length_singleton, Nat.lt_one_iff] at hj
    rw [hnode, hj]
    rfl
  · intro v
    rw [hnode]
    exact List.Pairwise.nil
  · intro v p hp
    rw [hnode] at hp
    exact absurd hp List.not_mem_nil

theorem node_addChild {v a : ℕ} (hv : v < T.nodes.length) (h : T.addChild v a = some T') (u : ℕ) :
    T'.node u = if u = v then { T.node v with
        children := insertBy relationLt (a, T.nodes.length) (T.node v).children }
      else if u = T.nodes.length then T.newNode v a else T.node u := by
  rw [addChild] at h
  split_ifs at h with hadd
  simp only [Option.some.injEq] at h
  subst h
  have hid : (T.nodes.modify v (fun n => { n with
        children := insertBy relationLt (a, T.nodes.length) n.children }) ++
      [T.newNode v a]).modify T.nodes.length id = T.nodes.modify v (fun n => { n with
        children := insertBy relationLt (a, T.nodes.length) n.children }) ++
      [T.newNode v a] := List.modify_id _ _
  exact node_of_nodes hv hid.symm u

/-- A new child spells the word of its parent with one more symbol. -/
theorem Spells.addChild (hT : Spells T L) {v a : ℕ} (hv : v < T.nodes.length)
    (ha : a < T.alphabetSize) (hnew : label L v ++ [a] ∉ L) :
    ∃ T', T.addChild v a = some T' ∧ T'.nodes.length = T.nodes.length + 1 ∧
      T'.alphabetSize = T.alphabetSize ∧ Spells T' (L ++ [label L v ++ [a]]) := by
  have hnone : T.findChild v a = none := (hT.findChild_eq_none hv).mpr hnew
  have hlen := hT.length_eq
  obtain ⟨T', hT'⟩ : ∃ T', T.addChild v a = some T' := by
    rw [TrieHolder.addChild, if_pos ⟨ha, hnone⟩]
    exact ⟨_, rfl⟩
  have hnode := fun u => node_addChild hv hT' u
  have hsize : T'.nodes.length = T.nodes.length + 1 ∧ T'.alphabetSize = T.alphabetSize := by
    rw [TrieHolder.addChild, if_pos ⟨ha, hnone⟩] at hT'
    simp only [Option.some.injEq] at hT'
    subst hT'
    simp
  have hold : ∀ u, u < T.nodes.length → label (L ++ [label L v ++ [a]]) u = label L u := by
    intro u hu
    exact label_append (hlen ▸ hu)
  have hlast : (L ++ [label L v ++ [a]])[T.nodes.length]? = some (label L v ++ [a]) := by
    rw [← hlen, List.getElem?_concat_length]
  have hfind : ∀ j w, (L ++ [label L v ++ [a]])[j]? = some w ↔
      L[j]? = some w ∨ (j = T.nodes.length ∧ w = label L v ++ [a]) := by
    intro j w
    rcases Nat.lt_trichotomy j L.length with hj | hj | hj
    · rw [List.getElem?_append_left hj]
      constructor
      · exact Or.inl
      · rintro (h | h)
        · exact h
        · omega
    · rw [hj, List.getElem?_concat_length, List.getElem?_eq_none (le_refl _), hlen]
      simp [eq_comm]
    · rw [List.getElem?_eq_none (by simp; omega), List.getElem?_eq_none (by omega)]
      simp
      omega
  refine ⟨T', hT', hsize.1, hsize.2, ?_⟩
  constructor
  · rw [List.length_append, hlen, hsize.1, List.length_singleton]
  · rw [hfind]
    exact Or.inl hT.root
  · exact List.nodup_append.mpr ⟨hT.nodup, List.nodup_singleton _, fun x hx y hy => by
      rw [List.mem_singleton.mp hy]
      exact fun h => hnew (h ▸ hx)⟩
  · intro u b j
    rw [hnode, hfind, hsize.1]
    by_cases huv : u = v
    · subst huv
      rw [if_pos rfl, hold u hv]
      dsimp only
      rw [mem_insertBy_relation hnone, hT.child, Prod.mk.injEq]
      constructor
      · rintro (⟨rfl, rfl⟩ | h)
        · exact ⟨by omega, Or.inr ⟨rfl, rfl⟩⟩
        · exact ⟨by omega, Or.inl h.2⟩
      · rintro ⟨_, h | ⟨hj, hb⟩⟩
        · exact Or.inr ⟨hv, h⟩
        · simp only [List.append_cancel_left_eq, List.cons.injEq, and_true] at hb
          exact Or.inl ⟨hb, hj⟩
    · rw [if_neg huv]
      by_cases hu : u = T.nodes.length
      · -- the new node has no children yet
        rw [if_pos hu]
        constructor
        · intro h
          exact absurd h List.not_mem_nil
        · rintro ⟨_, h⟩
          rw [hu, label_of_getElem? hlast] at h
          exfalso
          rcases h with h | ⟨_, h⟩
          · exact hnew (hT.mem_of_concat (List.mem_of_getElem? h))
          · simp at h
      · rw [if_neg hu, hT.child]
        constructor
        · rintro ⟨hlt, h⟩
          rw [hold u hlt]
          exact ⟨by omega, Or.inl h⟩
        · rintro ⟨hlt, h⟩
          have hlt' : u < T.nodes.length := by omega
          rw [hold u hlt'] at h
          refine ⟨hlt', ?_⟩
          rcases h with h | ⟨_, h⟩
          · exact h
          · exact absurd (hT.label_inj hlt' hv (List.append_inj_left' h rfl)) huv
  · intro j hpos hlt
    by_cases hj : j = T.nodes.length
    · subst hj
      refine ⟨v, a, hv, ?_, ?_, ?_⟩
      · rw [hnode, if_neg (Nat.ne_of_gt hv), if_pos rfl, newNode]
      · rw [hnode, if_neg (Nat.ne_of_gt hv), if_pos rfl, newNode]
      · rw [hold v hv]
        exact hlast
    · obtain ⟨u, b, huj, hparent, hsymbol, hlabel⟩ := hT.origin j hpos (by omega)
      refine ⟨u, b, huj, ?_, ?_, ?_⟩
      · rw [hnode, if_neg hj]
        split_ifs with hjv
        · rw [← hparent, hjv]
        · exact hparent
      · rw [hnode, if_neg hj]
        split_ifs with hjv
        · rw [← hsymbol, hjv]
        · exact hsymbol
      · rw [hold u (by omega), hfind]
        exact Or.inl hlabel
  · intro j hlt
    rw [hnode]
    split_ifs with hjv hj
    · rw [hjv, hold v hv]
      exact hT.depth v hv
    · rw [hj, label_of_getElem? hlast]
      simp only [newNode, hT.depth v hv, List.length_append, List.length_singleton]
      omega
    · rw [hold j (by omega)]
      exact hT.depth j (by omega)
  · intro u
    rw [hnode]
    split_ifs
    · exact pairwise_insertBy relationLt_trans (hT.sorted v)
    · exact List.Pairwise.nil
    · exact hT.sorted u
  · intro u p hp
    rw [hsize.2]
    rw [hnode] at hp
    split_ifs at hp
    · rcases (mem_insertBy_relation hnone).mp hp with rfl | hp
      · exact ha
      · exact hT.symbol_lt v p hp
    · exact absurd hp List.not_mem_nil
    · exact hT.symbol_lt u p hp

theorem Numbered.addChild (hN : Numbered T L f) (hT : Spells T L) {v a : ℕ}
    (hv : v < T.nodes.length) (hnew : label L v ++ [a] ∉ L) (h : T.addChild v a = some T')
    (hlen : T'.nodes.length = T.nodes.length + 1) : Numbered T' (L ++ [label L v ++ [a]]) f where
  rule j hj := by
    rw [node_addChild hv h]
    split_ifs with hjv hjn
    · rw [hjv, label_append (hT.length_eq ▸ hv)]
      exact hN.rule v hv
    · have hlast : (L ++ [label L v ++ [a]])[j]? = some (label L v ++ [a]) := by
        rw [hjn, ← hT.length_eq, List.getElem?_concat_length]
      rw [label_of_getElem? hlast, hN.outside _ hnew, newNode]
    · have hlt : j < T.nodes.length := by omega
      rw [label_append (hT.length_eq ▸ hlt)]
      exact hN.rule j hlt
  outside w hw := hN.outside w fun h => hw (List.mem_append_left _ h)

theorem Unlinked.addChild (hU : Unlinked T) {v a : ℕ} (hv : v < T.nodes.length)
    (h : T.addChild v a = some T') : Unlinked T' := by
  intro u
  rw [node_addChild hv h]
  split_ifs
  · exact hU v
  · rfl
  · exact hU u

/-- The trie `T'` has the word `w` below the node `v` of `T`, with the rule at its end. -/
structure Grown (T : TrieHolder) (L : List (List ℕ)) (f : List ℕ → Option ℕ) (v : ℕ) (s : List ℕ)
    (ruleNo : ℕ) (T' : TrieHolder) (L' : List (List ℕ)) : Prop where
  spells : Spells T' L'
  numbered : Numbered T' L' fun w => if w = label L v ++ s then some ruleNo else f w
  unlinked : Unlinked T'
  alphabet : T'.alphabetSize = T.alphabetSize
  mem : ∀ w, w ∈ L' ↔ w ∈ L ∨ ∃ p, p ≠ [] ∧ p <+: s ∧ w = label L v ++ p

theorem node_setRule (T : TrieHolder) (j ruleNo v : ℕ) (hj : j < T.nodes.length) :
    ({ T with nodes := T.nodes.modify j fun n => { n with grammarRuleNo := some ruleNo } } :
      TrieHolder).node v =
        if v = j then { T.node v with grammarRuleNo := some ruleNo } else T.node v := by
  simp only [node, List.getD_eq_getElem?_getD, List.getElem?_modify]
  by_cases hv : v = j
  · subst hv
    simp [hj]
  · simp [hv, Ne.symm hv]

theorem Spells.createChildrenSequence {s : List ℕ} (ruleNo : ℕ) (hs : s ≠ []) :
    ∀ {T : TrieHolder} {L : List (List ℕ)} {v : ℕ}, Spells T L → Numbered T L f → Unlinked T →
      v < T.nodes.length → (∀ a ∈ s, a < T.alphabetSize) →
      (∀ p, p ≠ [] → p <+: s → label L v ++ p ∉ L) →
      ∃ T' L', TrieHolder.createChildrenSequence s v ruleNo T = some T' ∧
        Grown T L f v s ruleNo T' L' := by
  induction s with
  | nil => exact absurd rfl hs
  | cons a rest ih =>
    intro T L v hT hN hU hv hlt hnew
    have hnew₁ : label L v ++ [a] ∉ L :=
      hnew [a] (List.cons_ne_nil a []) (List.prefix_append [a] rest)
    obtain ⟨T₁, h₁, hlen₁, halpha₁, hT₁⟩ := hT.addChild hv (hlt a List.mem_cons_self) hnew₁
    have hN₁ := hN.addChild hT hv hnew₁ h₁ hlen₁
    have hU₁ := hU.addChild hv h₁
    have hn₁ : T.nodes.length < T₁.nodes.length := by omega
    have hlast : label (L ++ [label L v ++ [a]]) T.nodes.length = label L v ++ [a] := by
      apply label_of_getElem?
      rw [← hT.length_eq, List.getElem?_concat_length]
    cases rest with
    | nil =>
      -- the pattern ends here
      rw [TrieHolder.createChildrenSequence, h₁, Option.map_some]
      refine ⟨_, L ++ [label L v ++ [a]], rfl, ?_⟩
      have hnode := fun u => node_setRule T₁ T.nodes.length ruleNo u hn₁
      constructor
      · apply hT₁.of_same
        · exact List.length_modify _ _ _
        · rfl
        · intro u
          rw [hnode]
          split_ifs <;> exact ⟨rfl, rfl, rfl, rfl⟩
      · constructor
        · intro j hj
          have hj₁ : j < T₁.nodes.length := by simpa using hj
          rw [hnode]
          by_cases hjn : j = T.nodes.length
          · rw [if_pos hjn, hjn, hlast, if_pos rfl]
          · rw [if_neg hjn, hN₁.rule j hj₁, if_neg]
            intro heq
            exact hjn (hT₁.label_inj hj₁ hn₁ (heq.trans hlast.symm))
        · intro w hw
          rw [if_neg, hN₁.outside w hw]
          rintro rfl
          exact hw (List.mem_append_right _ List.mem_cons_self)
      · intro u
        rw [hnode]
        split_ifs
        · exact hU₁ u
        · exact hU₁ u
      · exact halpha₁
      · intro w
        rw [List.mem_append, List.mem_singleton]
        apply or_congr Iff.rfl
        constructor
        · rintro rfl
          exact ⟨[a], List.cons_ne_nil a [], List.prefix_rfl, rfl⟩
        · rintro ⟨p, hp, hpre, rfl⟩
          have hone : p.length = 1 := by
            have := hpre.length_le
            have := List.length_pos_iff.mpr hp
            simp only [List.length_singleton] at *
            omega
          rw [hpre.eq_of_length hone]
    | cons b rest =>
      obtain ⟨T', L', h', hG⟩ := @ih (List.cons_ne_nil b rest) T₁ (L ++ [label L v ++ [a]])
        T.nodes.length hT₁ hN₁ hU₁ hn₁
        (fun c hc => halpha₁ ▸ hlt c (List.mem_cons_of_mem a hc)) (by
          intro p hp hpre hmem
          rw [hlast, List.append_assoc, List.singleton_append, List.mem_append,
            List.mem_singleton] at hmem
          rcases hmem with hmem | hmem
          · exact hnew (a :: p) (List.cons_ne_nil a p) (List.prefix_cons_inj a |>.mpr hpre) hmem
          · simp only [List.append_cancel_left_eq, List.cons.injEq, true_and] at hmem
            exact hp hmem)
      have hword : ∀ p, label (L ++ [label L v ++ [a]]) T.nodes.length ++ p =
          label L v ++ a :: p := by
        intro p
        rw [hlast, List.append_assoc, List.singleton_append]
      refine ⟨T', L', ?_, ⟨hG.spells, ?_, hG.unlinked, hG.alphabet.trans halpha₁, ?_⟩⟩
      · rw [TrieHolder.createChildrenSequence, h₁, Option.bind_some]
        · exact h'
        · exact List.cons_ne_nil b rest
      · have := hG.numbered
        rw [hword] at this
        exact this
      · intro w
        rw [hG.mem, List.mem_append, List.mem_singleton, or_assoc]
        apply or_congr Iff.rfl
        constructor
        · rintro (rfl | ⟨p, _, hpre, rfl⟩)
          · exact ⟨[a], List.cons_ne_nil a [], List.prefix_append [a] _, rfl⟩
          · exact ⟨a :: p, List.cons_ne_nil a p, (List.prefix_cons_inj a).mpr hpre, hword p⟩
        · rintro ⟨p, hp, hpre, rfl⟩
          obtain ⟨c, q, rfl⟩ := List.exists_cons_of_ne_nil hp
          obtain ⟨rfl, hq⟩ := List.cons_prefix_cons.mp hpre
          by_cases hnil : q = []
          · exact Or.inl (by rw [hnil])
          · exact Or.inr ⟨q, hnil, hq, (hword q).symm⟩

end TomitaParser.TrieHolder
