import TomitaParser.Comptrie.UpperBound
/-! # Iteration over a compact trie

An iterator is described by the entries that it goes through before it comes to the end. -/

namespace TomitaParser.Comptrie
open TernaryTree
variable {extra : ℕ} {Data : Type} (packer : Packer Data)

/-- From an iterator `operator++` goes through some entries to the end. At each of them `Get`,
`GetKey` and `GetKeySize` agree. -/
def Visits (trie : CompactTrie) (it : ConstIterator) : List (List (Symbol extra) × Data) → Prop
  | [] => it = ConstIterator.endOf
  | item :: items => it ≠ ConstIterator.endOf ∧ it.get packer trie = some item ∧ it.getKey = item.1 ∧
      it.getKeySize extra = item.1.length ∧
      ∃ next, it.forward packer trie = some next ∧ Visits trie next items

/-- After each of so many steps `operator--` goes back to where the step came from. -/
def Retraced (trie : CompactTrie) (it : ConstIterator) : ℕ → Prop
  | 0 => True
  | n + 1 => ∃ next, it.forward packer trie = some next ∧ next.backward packer trie = some it ∧
      Retraced trie next n

theorem widenKey_convert (key : List (Symbol extra)) :
    widenKey (convertSymbolArrayToChar key) = key := by
  induction key with
  | nil =>
    rw [convertSymbolArrayToChar, List.flatMap_nil, widenKey]
  | cons label key ih =>
    obtain ⟨b, bs, hbytes⟩ := List.exists_cons_of_ne_nil
      (convert_ne_nil (List.cons_ne_nil label key))
    have htake : (b :: bs).take (extra + 1) = symbolBytes label := by
      rw [← hbytes, convert_cons, List.take_left' (length_symbolBytes label)]
    have hdrop : (b :: bs).drop (extra + 1) = convertSymbolArrayToChar key := by
      rw [← hbytes, convert_cons, List.drop_left' (length_symbolBytes label)]
    rw [hbytes, widenKey]
    simp only [htake, hdrop, ih, length_symbolBytes, Nat.sub_self, List.replicate_zero,
      List.append_nil]
    congr 1
    apply Fin.ext
    simp only
    rw [symbolBytes, BigEndian.read_bytes, Nat.zero_mul, Nat.zero_add, Nat.mod_mod,
      Nat.mod_eq_of_lt label.isLt]

/-- The key that is shown for some stored bytes. -/
def shownKey (bytes : List ℕ) : List (Symbol extra) :=
  widenKey (if bytes = [0] then [] else bytes)

/-- The bytes of some key, as they are stored. -/
def IsStored (extra : ℕ) (bytes : List ℕ) : Prop :=
  ∃ key : List (Symbol extra), storedKey key = bytes

theorem IsStored.exists_shown {bytes : List ℕ} (h : IsStored extra bytes) :
    ∃ key : List (Symbol extra), convertSymbolArrayToChar key = (if bytes = [0] then [] else bytes) ∧
      storedKey key = bytes := by
  obtain ⟨key, rfl⟩ := h
  by_cases hzero : storedKey key = [0]
  · refine ⟨[], ?_, ?_⟩
    · rw [if_pos hzero]
      rfl
    · rw [hzero]
      rfl
  · refine ⟨key, ?_, rfl⟩
    rw [if_neg hzero, storedKey, if_neg]
    intro hnil
    rw [storedKey, if_pos hnil] at hzero
    exact hzero rfl

theorem IsStored.storedKey_shownKey {bytes : List ℕ} (h : IsStored extra bytes) :
    storedKey (shownKey bytes : List (Symbol extra)) = bytes := by
  obtain ⟨key, hconvert, hstored⟩ := h.exists_shown
  rw [shownKey, ← hconvert, widenKey_convert, hstored]

theorem length_convert (key : List (Symbol extra)) :
    (convertSymbolArrayToChar key).length = key.length * (extra + 1) := by
  induction key with
  | nil => simp [convertSymbolArrayToChar]
  | cons label key ih =>
    rw [convert_cons, List.length_append, ih, length_symbolBytes, List.length_cons, Nat.succ_mul,
      Nat.add_comm]

theorem IsStored.length_shownKey {bytes : List ℕ} (h : IsStored extra bytes) :
    (if bytes = [0] then [] else bytes).length / (extra + 1) =
      (shownKey bytes : List (Symbol extra)).length := by
  obtain ⟨key, hconvert, -⟩ := h.exists_shown
  rw [shownKey, ← hconvert, widenKey_convert, length_convert,
    Nat.mul_div_cancel _ (Nat.succ_pos extra)]

theorem measureForks_eq (forks : List Fork) : (measureForks forks).1 = (rawKey forks).length := by
  induction forks with
  | nil => rfl
  | cons top forks ih =>
    rw [measureForks, rawKey, List.length_append, ih]
    split_ifs <;> rfl

theorem measureKeyImpl_eq {top : Fork} (htop : top.current = some .final) (forks : List Fork) :
    measureKeyImpl (top :: forks) = (getKeyImpl (top :: forks)).length := by
  have hkey : top.inKey = true := by
    rw [Fork.inKey, htop]
    rfl
  have hlength := measureForks_eq (top :: forks)
  have hraw : rawKey (top :: forks) = rawKey forks ++ [top.node.label] := by
    rw [rawKey, if_pos hkey]
  have hfirst : (measureForks (top :: forks)).1 = 1 →
      (measureForks (top :: forks)).2 = top.node.label := by
    intro hone
    rw [measureForks] at hone ⊢
    simp only at hone ⊢
    rw [if_pos hone]
  rw [measureKeyImpl, getKeyImpl]
  by_cases hone : (measureForks (top :: forks)).1 = 1
  · have hnil : rawKey forks = [] := by
      rw [hlength, hraw, List.length_append, List.length_singleton] at hone
      exact List.eq_nil_of_length_eq_zero (by omega)
    rw [hraw, hnil, List.nil_append, hfirst hone]
    by_cases hzero : top.node.label = 0
    · simp [hone, hzero]
    · simp [hone, hzero]
  · have hne : rawKey (top :: forks) ≠ [0] := by
      intro hzero
      rw [hlength, hzero] at hone
      exact hone rfl
    simp only [hone, false_and, if_false]
    rw [if_neg hne, hlength]

variable {packer}

/-- The item at an entry of the tree. -/
def shown (entry : List ℕ × Data) : List (Symbol extra) × Data := (shownKey entry.1, entry.2)

/-- A stack is at a leaf of the tree. -/
structure StandsAt (packer : Packer Data) (stack : List Fork) (entry : List ℕ × Data) : Prop where
  key : rawKey stack = entry.1
  value : (leafOf stack).map packer.unpackLeaf = some entry.2

theorem StandsAt.exists_top {stack : List Fork} {entry : List ℕ × Data}
    (h : StandsAt packer stack entry) : ∃ top forks leaf, stack = top :: forks ∧
      top.current = some .final ∧ top.node.leafPos = some leaf ∧
      packer.unpackLeaf leaf = entry.2 := by
  obtain ⟨leaf, hleaf, hvalue⟩ := Option.map_eq_some_iff.mp h.value
  cases stack with
  | nil => simp [leafOf] at hleaf
  | cons top forks =>
    rw [leafOf] at hleaf
    split_ifs at hleaf with hcurrent
    exact ⟨top, forks, leaf, rfl, hcurrent, hleaf, hvalue⟩

theorem StandsAt.getKeyImpl_eq {stack : List Fork} {entry : List ℕ × Data}
    (h : StandsAt packer stack entry) :
    getKeyImpl stack = if entry.1 = [0] then [] else entry.1 := by
  rw [getKeyImpl, h.key]

theorem StandsAt.shows {stack : List Fork} {entry : List ℕ × Data}
    (h : StandsAt packer stack entry) (hstored : IsStored extra entry.1) (trie : CompactTrie) :
    let it : ConstIterator := { forks := stack, atEmptyValue := false }
    it ≠ ConstIterator.endOf ∧ it.get packer trie = some (shown entry : List (Symbol extra) × Data) ∧
      it.getKey = (shown entry : List (Symbol extra) × Data).1 ∧
      it.getKeySize extra = (shown entry : List (Symbol extra) × Data).1.length := by
  have hkey : widenKey (getKeyImpl stack) = (shownKey entry.1 : List (Symbol extra)) := by
    rw [h.getKeyImpl_eq, shownKey]
  obtain ⟨top, forks, leaf, rfl, hcurrent, hleaf, hvalue⟩ := h.exists_top
  refine ⟨?_, ?_, hkey, ?_⟩
  · simp [ConstIterator.endOf]
  · simp only [ConstIterator.get, Bool.false_eq_true, if_false, ConstIterator.getValuePtr, hcurrent, if_true, hleaf,
      Option.map_some, hvalue]
    rw [ConstIterator.getKey, hkey]
    rfl
  · rw [ConstIterator.getKeySize]
    simp only
    rw [measureKeyImpl_eq hcurrent, h.getKeyImpl_eq]
    exact hstored.length_shownKey

theorem forward_stack {trie : CompactTrie} {stack : List Fork} (hne : stack ≠ [])
    (hdata : trie.data.length ≠ 0) :
    ConstIterator.forward packer trie { forks := stack, atEmptyValue := false } =
      (advance packer trie.data stack).map fun r => { forks := r.2, atEmptyValue := false } := by
  obtain ⟨top, forks, rfl⟩ := List.exists_cons_of_ne_nil hne
  simp only [ConstIterator.forward, forwardForks, Bool.false_eq_true, if_false]
  rw [if_neg hdata]

/-- Stacks in a row up to the end, each at its entry. -/
structure Chained (packer : Packer Data) (data : List ℕ) (ways : List (List Fork))
    (entries : List (List ℕ × Data)) : Prop where
  chain : ways.IsChain (Neighbours packer data)
  stands : List.Forall₂ (StandsAt packer) ways entries
  advance_last : ∀ s, ways.getLast? = some s → advance packer data s = some (false, [])
  backward_end : ∀ s, ways.getLast? = some s → backwardForks packer data [] = some (true, s)

theorem Chained.tail {data : List ℕ} {s : List Fork} {ways : List (List Fork)}
    {entry : List ℕ × Data} {entries : List (List ℕ × Data)}
    (h : Chained packer data (s :: ways) (entry :: entries)) : Chained packer data ways entries := by
  have hlast : ∀ s', ways.getLast? = some s' → (s :: ways).getLast? = some s' := by
    intro s' hs'
    rw [List.getLast?_cons, hs']
    rfl
  exact ⟨h.chain.tail, (List.forall₂_cons.mp h.stands).2,
    fun s' hs' => h.advance_last s' (hlast s' hs'), fun s' hs' => h.backward_end s' (hlast s' hs')⟩

theorem Chained.drop {data : List ℕ} {ways : List (List Fork)} {entries : List (List ℕ × Data)}
    (h : Chained packer data ways entries) (n : ℕ) :
    Chained packer data (ways.drop n) (entries.drop n) := by
  induction n generalizing ways entries with
  | zero => exact h
  | succ n ih =>
    cases ways with
    | nil =>
      have hentries := List.forall₂_nil_left_iff.mp h.stands
      rw [hentries] at h ⊢
      exact h
    | cons s ways =>
      obtain ⟨entry, rest, -, -, rfl⟩ := List.forall₂_cons_left_iff.mp h.stands
      exact ih h.tail

theorem Chained.forward_eq {trie : CompactTrie} {s : List Fork} {ways : List (List Fork)} {entries : List (List ℕ × Data)}
    (h : Chained packer trie.data (s :: ways) entries) :
    advance packer trie.data s = some (!ways.isEmpty, ways.headD []) := by
  cases ways with
  | nil => exact h.advance_last s rfl
  | cons s' ways => exact (List.isChain_cons_cons.mp h.chain).1.1

theorem Chained.visits {trie : CompactTrie} (hdata : trie.data.length ≠ 0)
    {ways : List (List Fork)} {entries : List (List ℕ × Data)}
    (h : Chained packer trie.data ways entries) (hstored : ∀ e ∈ entries, IsStored extra e.1) :
    Visits packer trie { forks := ways.headD [], atEmptyValue := false }
      (entries.map shown : List (List (Symbol extra) × Data)) := by
  induction ways generalizing entries with
  | nil =>
    rw [List.forall₂_nil_left_iff.mp h.stands]
    rfl
  | cons s ways ih =>
    obtain ⟨entry, rest, hentry, hrest, rfl⟩ := List.forall₂_cons_left_iff.mp h.stands
    obtain ⟨hend, hget, hkey, hsize⟩ := hentry.shows (hstored entry List.mem_cons_self) trie
    have hne : s ≠ [] := by
      obtain ⟨top, forks, -, rfl, -⟩ := hentry.exists_top
      exact List.cons_ne_nil _ _
    refine ⟨hend, hget, hkey, hsize, { forks := ways.headD [], atEmptyValue := false }, ?_,
      ih h.tail fun e he => hstored e (List.mem_cons_of_mem _ he)⟩
    rw [List.headD_cons, forward_stack hne hdata, h.forward_eq]
    rfl

theorem Chained.backward_eq {trie : CompactTrie} {s : List Fork} {ways : List (List Fork)}
    {entries : List (List ℕ × Data)} (h : Chained packer trie.data (s :: ways) entries) :
    backwardForks packer trie.data (ways.headD []) = some (true, s) := by
  cases ways with
  | nil => exact h.backward_end s rfl
  | cons s' ways =>
    obtain ⟨entry, rest, -, hrest, rfl⟩ := List.forall₂_cons_left_iff.mp h.stands
    obtain ⟨entry', rest', hentry', -, rfl⟩ := List.forall₂_cons_left_iff.mp hrest
    obtain ⟨top, forks, -, rfl, -⟩ := hentry'.exists_top
    exact (List.isChain_cons_cons.mp h.chain).1.2

theorem Chained.retraced {trie : CompactTrie} (hdata : trie.data.length ≠ 0)
    {ways : List (List Fork)} {entries : List (List ℕ × Data)}
    (h : Chained packer trie.data ways entries) (hkeys : ∀ e ∈ entries, e.1 ≠ [] ∧ e.1 ≠ [0]) :
    Retraced packer trie { forks := ways.headD [], atEmptyValue := false } entries.length := by
  induction ways generalizing entries with
  | nil =>
    rw [List.forall₂_nil_left_iff.mp h.stands]
    trivial
  | cons s ways ih =>
    obtain ⟨entry, rest, hentry, hrest, rfl⟩ := List.forall₂_cons_left_iff.mp h.stands
    have hne : s ≠ [] := by
      obtain ⟨top, forks, -, rfl, -⟩ := hentry.exists_top
      exact List.cons_ne_nil _ _
    have hkey : getKeyImpl s ≠ [] := by
      rw [hentry.getKeyImpl_eq, if_neg (hkeys entry List.mem_cons_self).2]
      exact (hkeys entry List.mem_cons_self).1
    refine ⟨{ forks := ways.headD [], atEmptyValue := false }, ?_, ?_,
      ih h.tail fun e he => hkeys e (List.mem_cons_of_mem _ he)⟩
    · rw [List.headD_cons, forward_stack hne hdata, h.forward_eq]
      rfl
    · simp only [ConstIterator.backward, h.backward_eq, Bool.false_eq_true, if_false, hdata, hkey]
      rfl

theorem positions_chained {data : List ℕ} {t : Tree ℕ Data} (hne : t ≠ .nil) (hlive : t.Live)
    (h : ReadsAs packer data t 0) : Chained packer data (positions packer data t 0 []) t.entries := by
  obtain ⟨fork, hfork, hspans⟩ := spans_positions hne hlive h []
  constructor
  · exact hspans.chain
  · have hmap := map_positions h []
    rw [← List.forall₂_eq_eq_eq, List.forall₂_map_left_iff, List.forall₂_map_right_iff] at hmap
    apply hmap.imp
    intro stack entry heq
    simp only [rawKey, List.nil_append, Prod.mk.injEq] at heq
    exact ⟨heq.1, heq.2⟩
  · intro s hs
    rw [hspans.advance_back s hs]
    rfl
  · intro s hs
    rw [backwardForks, hfork]
    simp only
    rw [hspans.descend_back s hs _ (le_refl _)]
    rfl

theorem forwardForks_start {data : List ℕ} (hdata : data.length ≠ 0) {t : Tree ℕ Data}
    (hne : t ≠ .nil) (hlive : t.Live) (h : ReadsAs packer data t 0) :
    ∃ s ways, positions packer data t 0 [] = s :: ways ∧
      forwardForks packer data [] = some (true, s) := by
  obtain ⟨fork, hfork, hspans⟩ := spans_positions hne hlive h []
  obtain ⟨s, ways, hways⟩ := List.exists_cons_of_ne_nil hspans.ne_nil
  refine ⟨s, ways, hways, ?_⟩
  have hfirst := hspans.descend_front s (by rw [hways]; rfl) data.length (le_refl _)
  simp only [forwardForks, if_neg hdata, hfork, hfirst]
  rfl

/-- Whether the first entry of a tree is that of the zero byte, and its value. -/
structure HasEmpty (packer : Packer Data) (t : Tree ℕ Data) (emptyValue : Option (List ℕ)) :
    Prop where
  some : ∀ leaf, emptyValue = some leaf → ∃ entry rest, t.entries = entry :: rest ∧
    entry.1 = [0] ∧ packer.unpackLeaf leaf = entry.2 ∧ ∀ e ∈ rest, e.1 ≠ [0]
  none : emptyValue = none → ∀ e ∈ t.entries, e.1 ≠ [0]

theorem length_data_ne_zero {data : List ℕ} {t : Tree ℕ Data} (hne : t ≠ .nil)
    (h : ReadsAs packer data t 0) : data.length ≠ 0 := by
  cases t with
  | nil => exact absurd rfl hne
  | node label payload left forward right =>
    obtain ⟨node, hread, -⟩ := h
    have := (readNode_bounds hread).inside
    omega

/-- From `Begin` to `End` the iterator visits all entries of the tree in its order, and goes back
the same way. -/
theorem begin_visits {trie : CompactTrie} {t : Tree ℕ Data} (hne : t ≠ .nil) (hlive : t.Live)
    (h : ReadsAs packer trie.data t 0) (hempty : HasEmpty packer t trie.emptyValue)
    (hstored : ∀ e ∈ t.entries, IsStored extra e.1) (hkeys : ∀ e ∈ t.entries, e.1 ≠ []) :
    ∃ it, ConstIterator.begin packer trie = some it ∧
      Visits packer trie it (t.entries.map shown : List (List (Symbol extra) × Data)) ∧
      Retraced packer trie it t.entries.length := by
  have hdata := length_data_ne_zero hne h
  have hchained := positions_chained hne hlive h
  obtain ⟨s, ways, hways, hstart⟩ := forwardForks_start hdata hne hlive h
  rw [hways] at hchained
  cases hvalue : trie.emptyValue with
  | none =>
    refine ⟨{ forks := s, atEmptyValue := false }, ?_, hchained.visits hdata hstored,
      hchained.retraced hdata fun e he => ⟨hkeys e he, hempty.none hvalue e he⟩⟩
    simp [ConstIterator.begin, ConstIterator.forward, hvalue, hstart]
  | some leaf =>
    obtain ⟨entry, rest, hentries, hzero, hleaf, hrest⟩ := hempty.some leaf hvalue
    rw [hentries] at hchained hstored hkeys ⊢
    have hentry := (List.forall₂_cons.mp hchained.stands).1
    have hkey : getKeyImpl s = [] := by
      rw [hentry.getKeyImpl_eq, if_pos hzero]
    have hshown : (shown entry : List (Symbol extra) × Data) = ([], entry.2) := by
      rw [shown, shownKey, if_pos hzero, widenKey]
    have hs : s ≠ [] := by
      obtain ⟨top, forks, -, rfl, -⟩ := hentry.exists_top
      exact List.cons_ne_nil _ _
    have hforward : ({ forks := [], atEmptyValue := true } : ConstIterator).forward packer trie =
        some { forks := ways.headD [], atEmptyValue := false } := by
      obtain ⟨top, forks, rfl⟩ := List.exists_cons_of_ne_nil hs
      have hnext : forwardForks packer trie.data (top :: forks) =
          advance packer trie.data (top :: forks) := by
        rw [forwardForks, if_neg hdata]
      simp only [ConstIterator.forward, if_true, hstart, hkey, ne_eq, not_true_eq_false, and_false,
        if_false, hnext, hchained.forward_eq]
      rfl
    have hbackward : ({ forks := ways.headD [], atEmptyValue := false } : ConstIterator).backward
        packer trie = some { forks := [], atEmptyValue := true } := by
      simp only [ConstIterator.backward, hchained.backward_eq, Bool.false_eq_true, if_false, hdata,
        hkey, if_true]
    refine ⟨{ forks := [], atEmptyValue := true }, ?_, ?_, ?_⟩
    · simp [ConstIterator.begin, hvalue]
    · refine ⟨by simp [ConstIterator.endOf], ?_, ?_, ?_, _, hforward,
        hchained.tail.visits hdata fun e he => hstored e (List.mem_cons_of_mem _ he)⟩
      · simp [ConstIterator.get, hvalue, hshown, hleaf]
      · rw [hshown, ConstIterator.getKey, getKeyImpl]
        simp [rawKey, widenKey]
      · rw [hshown]
        simp [ConstIterator.getKeySize, measureKeyImpl, measureForks]
    · exact ⟨_, hforward, hbackward, hchained.tail.retraced hdata fun e he =>
        ⟨hkeys e (List.mem_cons_of_mem _ he), hrest e he⟩⟩

/-- The forks that `UpperBound` builds. -/
theorem upperBoundForks_eq {data : List ℕ} {t : Tree ℕ Data} (hne : t ≠ .nil) (hlive : t.Live)
    (hordered : t.Ordered) (h : ReadsAs packer data t 0) (key : List ℕ) :
    (¬ PassesRoot t key → upperBoundForks packer data key =
        some (((positions packer data t 0 []).drop (t.rank key)).headD [])) ∧
      (PassesRoot t key → t.rank key = t.entries.length ∧
        upperBoundForks packer data key = some ((positions packer data t 0 []).headD [])) := by
  have hdata := length_data_ne_zero hne h
  obtain ⟨s, ways, hways, hstart⟩ := forwardForks_start hdata hne hlive h
  cases key with
  | nil =>
    obtain ⟨fork, hfork, hspans⟩ := spans_positions hne hlive h []
    have hfirst := hspans.descend_front s (by rw [hways]; rfl) data.length (le_refl _)
    constructor
    · intro _
      simp [upperBoundForks, hfork, longestPrefix, hfirst, Tree.rank_nil_key, hways]
    · intro hpasses
      cases t <;> exact absurd hpasses id
  | cons c cs =>
    constructor
    · intro hnot
      obtain ⟨fork, r, stack, hfork, hlongest, hleads⟩ :=
        @longestPrefix_leads Data packer data t hne hlive hordered 0 h [] c cs (data.length + 1)
          (by omega)
      rw [List.headD_eq_head?_getD, List.head?_drop]
      generalize (positions packer data t 0 [])[t.rank (c :: cs)]? = next at hleads
      rw [upperBoundForks, hfork]
      simp only [hlongest]
      cases hleads with
      | matched found hnext => simp [hnext]
      | above _ found hnext hdescend => simp [hnext, hdescend data.length (le_refl _)]
      | below _ hne' hnext =>
        obtain ⟨top, forks, rfl⟩ := List.exists_cons_of_ne_nil hne'
        have hforward : forwardForks packer data (top :: forks) =
            advance packer data (top :: forks) := by
          rw [forwardForks, if_neg hdata]
        rw [if_neg (by norm_num), if_pos (by norm_num), hforward]
        unfold NextIs at hnext
        rw [hnext]
        cases next <;> rfl
      | passed hpasses _ => exact absurd hpasses hnot
    · intro hpasses
      cases t with
      | nil => exact absurd rfl hne
      | node label payload left forward right =>
        obtain ⟨node, hread, rfl, -, -, -, hright, -⟩ := h
        obtain ⟨hgt, rfl⟩ := hpasses
        have hd : Direction.right ∉ node.directions := by
          rw [mem_directions, not_not]
          exact hright.mpr rfl
        constructor
        · simp [Tree.rank, Tree.entries, not_lt_of_gt hgt, hgt]
        · rw [upperBoundForks, newFork_eq hread]
          simp only [longestPrefix, if_neg (not_lt_of_gt hgt), if_pos hgt,
            setDirection_eq_none hd]
          rw [if_neg (by norm_num), if_pos (by norm_num), hstart, hways]
          rfl

/-- The iterator that `UpperBound` gives visits the entries not below the key, unless the key passes
the root. In that case it starts over with all entries. -/
theorem upperBound_visits {trie : CompactTrie} (hasData : trie.hasData = true) {t : Tree ℕ Data}
    (hne : t ≠ .nil) (hlive : t.Live) (hordered : t.Ordered)
    (h : ReadsAs packer trie.data t 0) (hempty : HasEmpty packer t trie.emptyValue)
    (hstored : ∀ e ∈ t.entries, IsStored extra e.1) (hkeys : ∀ e ∈ t.entries, e.1 ≠ [])
    (key : List (Symbol extra)) :
    ∃ it, upperBound packer trie key = some it ∧
      (¬ PassesRoot t (convertSymbolArrayToChar key) → Visits packer trie it
        ((t.entries.drop (t.rank (convertSymbolArrayToChar key))).map shown :
          List (List (Symbol extra) × Data))) ∧
      (PassesRoot t (convertSymbolArrayToChar key) →
        t.rank (convertSymbolArrayToChar key) = t.entries.length ∧
          Visits packer trie it (t.entries.map shown : List (List (Symbol extra) × Data))) := by
  have hdata := length_data_ne_zero hne h
  have hchained := positions_chained hne hlive h
  obtain ⟨hnot, hpasses⟩ := upperBoundForks_eq hne hlive hordered h (convertSymbolArrayToChar key)
  by_cases hstart : trie.emptyValue.isSome ∧ key = []
  · obtain ⟨hvalue, rfl⟩ := hstart
    obtain ⟨it, hbegin, hvisits, -⟩ := begin_visits hne hlive h hempty hstored hkeys
    rw [ConstIterator.begin, if_pos hvalue] at hbegin
    refine ⟨it, ?_, ?_, ?_⟩
    · rw [upperBound, if_pos ⟨hvalue, rfl⟩, hbegin]
    · intro _
      have hconvert : convertSymbolArrayToChar ([] : List (Symbol extra)) = [] := rfl
      rw [hconvert, Tree.rank_nil_key]
      exact hvisits
    · intro h
      cases t <;> exact absurd h id
  · rw [upperBound, if_neg hstart, if_pos hasData]
    by_cases hp : PassesRoot t (convertSymbolArrayToChar key)
    · obtain ⟨hrank, hforks⟩ := hpasses hp
      rw [hforks]
      refine ⟨_, rfl, fun hn => absurd hp hn, fun _ => ⟨hrank, ?_⟩⟩
      exact hchained.visits hdata hstored
    · rw [hnot hp]
      refine ⟨_, rfl, fun _ => ?_, fun h => absurd h hp⟩
      exact (hchained.drop _).visits hdata fun e he => hstored e (List.mem_of_mem_drop he)

end TomitaParser.Comptrie
