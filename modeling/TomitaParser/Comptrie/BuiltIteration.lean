import TomitaParser.Comptrie.BuiltTries
import TomitaParser.Comptrie.Iteration
/-! # Iteration over a built trie

What the builder saves is gone through in the order of the keys. -/

namespace TomitaParser.Comptrie
open TernaryTree
variable {extra : ℕ} {Data : Type} {packer : Packer Data}

/-- The trie that `Init` makes of saved data. -/
def CompactTrie.init (data : List ℕ) : CompactTrie where
  data := data
  hasData := true
  emptyValue := Comptrie.emptyValue data

/-- Each key that has been added with its last value, in the order of the keys. -/
structure Lists (entries items : List (List (Symbol extra) × Data)) : Prop where
  sorted : items.Pairwise fun item later => item.1 < later.1
  last : ∀ item ∈ items, lastAdded entries item.1 = some item.2
  all : ∀ entry ∈ entries, ∃ item ∈ items, SameKey item.1 entry.1

/-- The key starts with a byte past those of the root, which has one arc or two. -/
def PassesArcs (root : Arcs Data) (key : List ℕ) : Prop :=
  root.firsts.length ≤ 2 ∧ ∃ c cs, key = c :: cs ∧ ∀ b ∈ root.firsts, b < c

theorem append_lt_append {xs ys : List ℕ} (hlength : xs.length = ys.length) (h : xs < ys)
    (xs' ys' : List ℕ) : xs ++ xs' < ys ++ ys' := by
  induction xs generalizing ys with
  | nil =>
    rw [List.eq_nil_of_length_eq_zero hlength.symm] at h
    exact absurd h (lt_irrefl _)
  | cons x xs ih =>
    cases ys with
    | nil => simp at hlength
    | cons y ys =>
      rw [List.cons_append, List.cons_append, List.cons_lt_cons_iff]
      rcases List.cons_lt_cons_iff.mp h with hlt | ⟨rfl, hlt⟩
      · exact Or.inl hlt
      · exact Or.inr ⟨rfl, ih (by simpa using hlength) hlt⟩

theorem bytes_lt_bytes {len m n : ℕ} (h : m % 256 ^ len < n % 256 ^ len) :
    BigEndian.bytes len m < BigEndian.bytes len n := by
  induction len with
  | zero => simp [Nat.mod_one] at h
  | succ len ih =>
    rw [Nat.pow_succ, Nat.mod_mul, Nat.mod_mul] at h
    rw [BigEndian.bytes, BigEndian.bytes, List.cons_lt_cons_iff]
    have hm := Nat.mod_lt m (Nat.pow_pos (n := len) (show 0 < 256 by norm_num))
    have hn := Nat.mod_lt n (Nat.pow_pos (n := len) (show 0 < 256 by norm_num))
    rcases lt_trichotomy (m / 256 ^ len % 256) (n / 256 ^ len % 256) with hlt | heq | hgt
    · exact Or.inl hlt
    · rw [heq] at h
      exact Or.inr ⟨heq, ih (by omega)⟩
    · have hstep := Nat.mul_le_mul_left (256 ^ len) hgt
      rw [Nat.mul_succ] at hstep
      omega

theorem convert_strictMono : StrictMono (@convertSymbolArrayToChar extra) := by
  intro key
  induction key with
  | nil =>
    intro other h
    obtain ⟨b, bs, hbytes⟩ := List.exists_cons_of_ne_nil (convert_ne_nil (ne_of_gt h))
    rw [hbytes]
    exact List.nil_lt_cons b bs
  | cons label key ih =>
    intro other h
    cases other with
    | nil => exact absurd h (List.not_lt_nil _)
    | cons label' other =>
      rw [convert_cons, convert_cons]
      rcases List.cons_lt_cons_iff.mp h with hlt | ⟨rfl, hlt⟩
      · apply append_lt_append (by simp)
        apply bytes_lt_bytes
        rwa [Nat.mod_eq_of_lt label.isLt, Nat.mod_eq_of_lt label'.isLt]
      · exact List.append_left_lt (ih hlt)

/-- Stored bytes are in the order of the keys that are shown for them. -/
theorem IsStored.shownKey_lt {bytes bytes' : List ℕ} (h : IsStored extra bytes)
    (h' : IsStored extra bytes') (hlt : bytes < bytes') :
    (shownKey bytes : List (Symbol extra)) < shownKey bytes' := by
  obtain ⟨key, hkey, hstored⟩ := h.exists_shown
  obtain ⟨key', hkey', hstored'⟩ := h'.exists_shown
  have hshown : shownKey bytes = key := by
    rw [shownKey, ← hkey, widenKey_convert]
  have hshown' : shownKey bytes' = key' := by
    rw [shownKey, ← hkey', widenKey_convert]
  rw [hshown, hshown', ← convert_strictMono.lt_iff_lt, hkey, hkey']
  have hpos : bytes' ≠ [] := by
    rintro rfl
    exact List.not_lt_nil _ hlt
  by_cases hzero : bytes = [0]
  · rw [if_pos hzero, if_neg]
    · obtain ⟨b, bs, rfl⟩ := List.exists_cons_of_ne_nil hpos
      exact List.nil_lt_cons b bs
    · rintro rfl
      rw [hzero] at hlt
      exact lt_irrefl _ hlt
  · rw [if_neg hzero, if_neg]
    · exact hlt
    · rintro rfl
      obtain ⟨b, bs, rfl⟩ := List.exists_cons_of_ne_nil (fun hnil => by
        rw [← hstored, storedKey] at hnil
        split_ifs at hnil with hkeyNil
        exact convert_ne_nil hkeyNil hnil : bytes ≠ [])
      rcases List.cons_lt_cons_iff.mp hlt with hlt | ⟨-, hlt⟩
      · exact absurd hlt (Nat.not_lt_zero b)
      · exact List.not_lt_nil _ hlt

theorem Arcs.Good.firsts_sorted {arcs : Arcs Data} (h : arcs.Good) :
    arcs.firsts.Pairwise (· < ·) := by
  induction arcs with
  | nil => exact List.Pairwise.nil
  | cons first more payload children rest _ ih =>
    exact List.pairwise_cons.mpr ⟨h.1, ih h.2.2.2⟩

theorem passesRoot_tree_iff {arcs : Arcs Data} (h : arcs.Good) (hne : arcs ≠ .nil) (key : List ℕ) :
    PassesRoot arcs.tree key ↔ PassesArcs arcs key := by
  have hdrop : arcs.branches.drop (arcs.branches.length / 2) ≠ [] := by
    intro hnil
    apply hne
    rw [← Arcs.tree_eq_nil, Arcs.tree, searchTree_eq_nil]
    have hlength := congrArg List.length hnil
    rw [List.length_drop, List.length_nil] at hlength
    exact List.eq_nil_of_length_eq_zero (by omega)
  obtain ⟨b, right, hright⟩ := List.exists_cons_of_ne_nil hdrop
  have hsplit := List.take_append_drop (arcs.branches.length / 2) arcs.branches
  rw [hright] at hsplit
  generalize hleft : arcs.branches.take (arcs.branches.length / 2) = left at hsplit
  have hcount := congrArg List.length hsplit
  rw [List.length_append, List.length_cons] at hcount
  have hmiddle : Median.IsMiddle left right := by
    have hlength := congrArg List.length hleft
    rw [List.length_take] at hlength
    rw [Median.IsMiddle]
    omega
  have hfirsts : arcs.firsts = left.map Branch.first ++ b.first :: right.map Branch.first := by
    rw [← Arcs.first_branches, ← hsplit, List.map_append, List.map_cons]
  have hsorted := h.firsts_sorted
  rw [hfirsts] at hsorted
  rw [Arcs.tree, ← hsplit, searchTree_node hmiddle, PassesArcs, hfirsts]
  rw [Median.IsMiddle] at hmiddle
  cases key with
  | nil => simp [Branch.node, PassesRoot]
  | cons c cs =>
    simp only [Branch.node, PassesRoot, searchTree_eq_nil, List.length_append, List.length_map,
      List.length_cons]
    constructor
    · rintro ⟨hlt, rfl⟩
      rw [List.length_nil] at hmiddle ⊢
      refine ⟨by omega, c, cs, rfl, ?_⟩
      intro x hx
      rcases List.mem_append.mp hx with hx | hx
      · exact ((List.pairwise_append.mp hsorted).2.2 x hx b.first List.mem_cons_self).trans hlt
      · rw [List.map_nil, List.mem_singleton] at hx
        rwa [hx]
    · rintro ⟨htwo, c', cs', heq, hall⟩
      obtain ⟨rfl, rfl⟩ := List.cons.inj heq
      exact ⟨hall _ (by simp), List.eq_nil_of_length_eq_zero (by omega)⟩

/-- The value of the empty key is that of the first entry, if this is the entry of the zero byte. -/
theorem Arcs.Good.hasEmpty {root : Arcs Data} (h : root.Good)
    (hsize : nodeMeasureSubtree packer root < 2 ^ 56)
    (hkeys : ∀ e ∈ root.tree.entries, e.1 ≠ []) :
    HasEmpty packer root.tree (emptyValue (nodeSaveSubtree packer root)) := by
  have hfind := h.find_eq hsize ([] : List (Symbol 0))
  rw [find_nil, storedKey, if_pos rfl] at hfind
  constructor
  · intro leaf hleaf
    rw [hleaf, Option.map_some, eq_comm, ← h.mem_entries] at hfind
    have hsorted := h.tree_ordered.sorted
    cases hentries : root.tree.entries with
    | nil =>
      rw [hentries] at hfind
      cases hfind
    | cons entry rest =>
      rw [hentries] at hfind hsorted hkeys
      obtain ⟨hfirst, hrest⟩ := List.pairwise_cons.mp hsorted
      have hentry : entry = ([0], packer.unpackLeaf leaf) := by
        rcases List.mem_cons.mp hfind with heq | hmem
        · exact heq.symm
        · obtain ⟨b, bs, hb⟩ := List.exists_cons_of_ne_nil (hkeys entry List.mem_cons_self)
          have hlt := hfirst _ hmem
          rw [hb] at hlt
          rcases List.cons_lt_cons_iff.mp hlt with hlt | ⟨-, hlt⟩
          · exact absurd hlt (Nat.not_lt_zero b)
          · exact absurd hlt (List.not_lt_nil _)
      subst hentry
      exact ⟨_, rest, rfl, rfl, rfl, fun e he heq => (hfirst e he).ne heq.symm⟩
  · intro hnone e he heq
    rw [hnone, Option.map_none] at hfind
    have hmem := (h.mem_entries e.1 e.2).mp he
    rw [heq, ← hfind] at hmem
    cases hmem

theorem Holds.lists {root : Arcs Data} {entries : List (List (Symbol extra) × Data)}
    (h : Holds root entries) : (∀ e ∈ root.tree.entries, IsStored extra e.1) ∧
      Lists entries (root.tree.entries.map shown) := by
  have hmem := h.good.mem_entries
  have hstored : ∀ e ∈ root.tree.entries, IsStored extra e.1 := by
    intro e he
    obtain ⟨entry, -, hbytes⟩ := (h.stored e.1).mp (by simp [(hmem e.1 e.2).mp he])
    exact ⟨entry.1, hbytes⟩
  refine ⟨hstored, ?_, ?_, ?_⟩
  · rw [List.pairwise_map]
    apply h.good.tree_ordered.sorted.imp_of_mem
    intro e later he hlater hlt
    exact (hstored e he).shownKey_lt (hstored later hlater) hlt
  · intro item hitem
    obtain ⟨e, he, rfl⟩ := List.mem_map.mp hitem
    rw [shown, ← h.lookup_eq, (hstored e he).storedKey_shownKey]
    exact (hmem e.1 e.2).mp he
  · intro entry hentry
    obtain ⟨v, hv⟩ := Option.ne_none_iff_exists'.mp
      ((h.stored (storedKey entry.1)).mpr ⟨entry, hentry, rfl⟩)
    have he := (hmem _ v).mpr hv
    refine ⟨shown (storedKey entry.1, v), List.mem_map_of_mem he, ?_⟩
    rw [← storedKey_eq_iff]
    exact (hstored _ he).storedKey_shownKey

theorem drop_rank_eq_filter {t : Tree ℕ Data} (h : t.Ordered) (key : List ℕ) :
    t.entries.drop (t.rank key) = t.entries.filter fun e => key ≤ e.1 := by
  rw [← h.countP_eq key]
  have hsorted := h.sorted
  generalize t.entries = entries at hsorted
  induction entries with
  | nil => rfl
  | cons e entries ih =>
    obtain ⟨hfirst, hrest⟩ := List.pairwise_cons.mp hsorted
    by_cases hlt : e.1 < key
    · rw [List.countP_cons_of_pos (by simpa using hlt), List.drop_succ_cons, ih hrest,
        List.filter_cons_of_neg (by simpa using hlt)]
    · have hle := not_lt.mp hlt
      have hall : ∀ later ∈ e :: entries, key ≤ later.1 := by
        intro later hlater
        rcases List.mem_cons.mp hlater with rfl | hlater
        · exact hle
        · exact hle.trans (hfirst later hlater).le
      rw [List.countP_eq_zero.mpr, List.drop_zero, List.filter_eq_self.mpr]
      · intro later hlater
        simpa using hall later hlater
      · intro later hlater
        simpa using hall later hlater

/-- The trie of added keys goes through each of them with its last value, in the order of the keys
and back. `UpperBound` comes to the first key whose bytes are not below those asked for, except
where these pass the arcs of the root: there is no such key then, and it starts over with the first
key. -/
theorem save_iterates (packer : Packer Data) (entries : List (List (Symbol extra) × Data))
    (hne : entries ≠ []) (hempty : ¬ EmptyKeyHidden entries)
    (hsize : nodeMeasureSubtree packer (build entries).1 < 2 ^ 56) :
    ∃ data items, save packer (build entries).1 = some data ∧ Lists entries items ∧
      (∃ it, ConstIterator.begin packer (CompactTrie.init data) = some it ∧
        Visits packer (CompactTrie.init data) it items ∧
        Retraced packer (CompactTrie.init data) it items.length) ∧
      ∀ key : List (Symbol extra), ∃ it, upperBound packer (CompactTrie.init data) key = some it ∧
        (¬ PassesArcs (build entries).1 (convertSymbolArrayToChar key) →
          Visits packer (CompactTrie.init data) it
            (items.filter fun item => convertSymbolArrayToChar key ≤ storedKey item.1)) ∧
        (PassesArcs (build entries).1 (convertSymbolArrayToChar key) →
          (∀ item ∈ items, storedKey item.1 < convertSymbolArrayToChar key) ∧
            Visits packer (CompactTrie.init data) it items) := by
  obtain ⟨h, -⟩ := @Holds.run extra Data .nil [] entries holds_nil (by
    intro before value later hentries hgo
    exact hempty ⟨before, value, later, hentries, hgo⟩)
  rw [List.nil_append] at h
  change Holds (build entries).1 entries at h
  obtain ⟨hstored, hlists⟩ := h.lists
  generalize (build entries).1 = root at h hsize hstored hlists ⊢
  have hkeys : ∀ e ∈ root.tree.entries, e.1 ≠ [] := by
    intro e he hnil
    have hlookup := (h.good.mem_entries e.1 e.2).mp he
    rw [hnil, Arcs.lookup_nil_key] at hlookup
    cases hlookup
  have hroot : root ≠ .nil := by
    rintro rfl
    obtain ⟨entry, hentry⟩ := List.exists_mem_of_ne_nil entries hne
    exact (h.stored (storedKey entry.1)).mpr ⟨entry, hentry, rfl⟩ rfl
  have htree : root.tree ≠ .nil := mt Arcs.tree_eq_nil.mp hroot
  have hread := (h.good.live.readsAs hsize []).1
  rw [List.append_nil] at hread
  have hzero := h.good.hasEmpty hsize hkeys
  refine ⟨nodeSaveSubtree packer root, root.tree.entries.map shown, save_eq hsize, hlists, ?_, ?_⟩
  · rw [List.length_map]
    exact @begin_visits extra Data packer (CompactTrie.init _) _ htree h.good.live.tree hread hzero
      hstored hkeys
  · intro key
    obtain ⟨it, hit, hvisits, hover⟩ := @upperBound_visits extra Data packer (CompactTrie.init _)
      rfl _ htree h.good.live.tree h.good.tree_ordered hread hzero hstored hkeys key
    rw [passesRoot_tree_iff h.good hroot] at hvisits hover
    have hfilter : (root.tree.entries.map shown).filter
        (fun item : List (Symbol extra) × Data => convertSymbolArrayToChar key ≤ storedKey item.1) =
        (root.tree.entries.filter fun e => convertSymbolArrayToChar key ≤ e.1).map shown := by
      rw [List.filter_map]
      congr 1
      apply List.filter_congr
      intro e he
      simp [shown, (hstored e he).storedKey_shownKey]
    refine ⟨it, hit, ?_, ?_⟩
    · intro hnot
      rw [hfilter, ← drop_rank_eq_filter h.good.tree_ordered]
      exact hvisits hnot
    · intro hpasses
      obtain ⟨hrank, hall⟩ := hover hpasses
      refine ⟨?_, hall⟩
      have hnone := drop_rank_eq_filter h.good.tree_ordered (convertSymbolArrayToChar key)
      rw [hrank, List.drop_length, eq_comm, ← List.map_eq_nil_iff, ← hfilter,
        List.filter_eq_nil_iff] at hnone
      intro item hitem
      simpa using hnone item hitem

/-- A key, a longer one that starts with it, and a greater one. -/
def threeKeys : List (List (Symbol 0) × ℕ) := [([0x61], 1), ([0x63], 3), ([0x61, 0x62], 2)]

theorem build_threeKeys : (build threeKeys).1 =
    .cons 0x61 [] (some 1) (.cons 0x62 [] (some 2) .nil .nil)
      (.cons 0x63 [] (some 3) .nil .nil) := by
  rfl

theorem measureRange_leaf {row : Row} (hleaf : row.leafSize = 1) (htree : row.treeSize = 0)
    (hmore : row.more = []) : measureRange [row] = 3 := by
  have hnil : measureRange [] = 0 := Median.recurse_nil _ _
  have hnode := @measureRange_node [] [] rfl row
  rw [hnil] at hnode
  refine hnode.trans ?_
  simp [arcMeasure, offsetSize, hleaf, htree, hmore]

theorem size_threeKeys : nodeMeasureSubtree asIsPacker (build threeKeys).1 < 2 ^ 56 := by
  rw [build_threeKeys]
  have hnil : measureRange [] = 0 := Median.recurse_nil _ _
  have hone : ∀ n, n ≠ 0 → n < 256 → measureOffset n = 1 := by
    intro n hn hlt
    rw [measureOffset, BigEndian.size, if_neg hn, Nat.div_eq_of_lt hlt, BigEndian.size_zero]
  have hvalue : ∀ v, nodeMeasureLeafValue asIsPacker (some v) = 1 := fun _ => rfl
  have hchild : (arcRow asIsPacker 0x61 [] (some 1) (.cons 0x62 [] (some 2) .nil .nil)).treeSize =
      3 := measureRange_leaf rfl hnil rfl
  have hfirst : measureRange
      [arcRow asIsPacker 0x61 [] (some 1) (.cons 0x62 [] (some 2) .nil .nil)] = 6 := by
    have hnode := @measureRange_node [] [] rfl
      (arcRow asIsPacker 0x61 [] (some 1) (.cons 0x62 [] (some 2) .nil .nil))
    rw [hnil] at hnode
    refine hnode.trans ?_
    simp only [arcMeasure, offsetSize, hchild]
    simp [arcRow, hvalue]
  have hmid : Median.IsMiddle
      [arcRow asIsPacker 0x61 [] (some 1) (.cons 0x62 [] (some 2) .nil .nil)] [] := by
    simp [Median.IsMiddle]
  have hnode := measureRange_node hmid (arcRow asIsPacker 0x63 [] (some 3) .nil)
  have hlast : (arcRow asIsPacker 0x63 [] (some 3) .nil).treeSize = 0 := hnil
  rw [hfirst, hnil] at hnode
  refine lt_of_eq_of_lt (hnode.trans ?_) (show (10 : ℕ) < 2 ^ 56 by decide)
  simp only [arcMeasure, offsetSize, hlast]
  simp [arcRow, hvalue, hone]

theorem save_iterates_threeKeys : ∃ data items,
    save asIsPacker (build threeKeys).1 = some data ∧ Lists threeKeys items ∧
      (∃ it, ConstIterator.begin asIsPacker (CompactTrie.init data) = some it ∧
        Visits asIsPacker (CompactTrie.init data) it items ∧
        Retraced asIsPacker (CompactTrie.init data) it items.length) ∧
      (∃ it, upperBound asIsPacker (CompactTrie.init data) ([0x61, 0x62] : List (Symbol 0)) =
          some it ∧ Visits asIsPacker (CompactTrie.init data) it
            (items.filter fun item => [0x61, 0x62] ≤ storedKey item.1)) ∧
      ∃ it, upperBound asIsPacker (CompactTrie.init data) ([0x64] : List (Symbol 0)) = some it ∧
        (∀ item ∈ items, storedKey item.1 < [0x64]) ∧
        Visits asIsPacker (CompactTrie.init data) it items := by
  obtain ⟨data, items, hsave, hlists, hbegin, hupper⟩ := save_iterates asIsPacker threeKeys
    (by simp [threeKeys]) (by
      rintro ⟨added, value, later, heq, -⟩
      have hmem : (([] : List (Symbol 0)), value) ∈ threeKeys := by
        rw [heq]
        simp
      simp [threeKeys] at hmem) size_threeKeys
  have hfirsts : (build threeKeys).1.firsts = [0x61, 0x63] := by rfl
  obtain ⟨middle, hmiddle, hvisits, -⟩ := hupper [0x61, 0x62]
  obtain ⟨behind, hbehind, -, hpasses⟩ := hupper [0x64]
  refine ⟨data, items, hsave, hlists, hbegin, ⟨middle, hmiddle, hvisits ?_⟩, behind, hbehind,
    hpasses ⟨by rw [hfirsts]; decide, 0x64, [], by decide, by simp [hfirsts]⟩⟩
  rintro ⟨-, c, cs, hkey, hall⟩
  have hc : c = 0x61 := by
    have hbytes : convertSymbolArrayToChar ([0x61, 0x62] : List (Symbol 0)) = [0x61, 0x62] := by
      decide
    rw [hbytes] at hkey
    exact (List.cons.inj hkey).1.symm
  have hlt := hall 0x63 (by simp [hfirsts])
  omega

end TomitaParser.Comptrie
