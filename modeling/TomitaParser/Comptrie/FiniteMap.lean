import TomitaParser.Comptrie.Lookup
import TomitaParser.Lib.Machine
/-! # The compact trie as a finite map

The trie after a sequence of additions is compared with the last value added for each key. The
empty key is looked for as an arc of one zero byte. It is lost when the bytes of the keys before it
have made a longer label of that byte. -/

namespace TomitaParser.Comptrie

variable {extra : ℕ} {Data : Type}

/-- `AddEntry`: the arcs of the root, and `isNewAddition`. -/
def addEntry (root : Arcs Data) (key : List (Symbol extra)) (value : Data) : Arcs Data × Bool :=
  match convertSymbolArrayToChar key with
  | [] => root.addEmpty value
  | c :: cs => root.add value c cs

/-- The calls of `Add` on a new builder: the root and what the calls return. -/
def build (entries : List (List (Symbol extra) × Data)) : Arcs Data × List Bool :=
  Machine.run (fun root entry => addEntry root entry.1 entry.2) .nil entries

/-- The last value added for a key. -/
noncomputable def lastAdded (entries : List (List (Symbol extra) × Data))
    (key : List (Symbol extra)) : Option Data :=
  open Classical in
  (entries.reverse.find? fun entry => SameKey entry.1 key).map Prod.snd

/-- For each entry whether its key is not among those added before. -/
noncomputable def newKeys (added : List (List (Symbol extra) × Data)) :
    List (List (Symbol extra) × Data) → List Bool
  | [] => []
  | entry :: entries => (lastAdded added entry.1).isNone :: newKeys (added ++ [entry]) entries

/-- The trie of some entries is the finite map that they describe. -/
structure IsFiniteMap (packer : Packer Data) (entries : List (List (Symbol extra) × Data)) :
    Prop where
  add_eq : (build entries).2 = newKeys [] entries
  save_eq : ∃ data, save packer (build entries).1 = some data ∧
    ∀ key, find packer data key = lastAdded entries key

/-- The empty key is added when the keys that start with a zero byte, of which there are some, all
go on with one and the same byte. -/
def EmptyKeyHidden (entries : List (List (Symbol extra) × Data)) : Prop :=
  ∃ added value later, entries = added ++ ([], value) :: later ∧
    ∃ b, Arcs.GoOnWith b fun bytes => ∃ entry ∈ added, storedKey entry.1 = bytes

theorem lastAdded_append (added : List (List (Symbol extra) × Data))
    (entry : List (Symbol extra) × Data) (key : List (Symbol extra)) :
    lastAdded (added ++ [entry]) key =
      open Classical in if SameKey entry.1 key then some entry.2 else lastAdded added key := by
  classical
  rw [lastAdded, lastAdded, List.reverse_append, List.reverse_singleton, List.singleton_append,
    List.find?_cons]
  by_cases hsame : SameKey entry.1 key
  · simp [hsame]
  · simp [hsame]

/-- The arcs hold the last values, and nothing else. -/
structure Holds (root : Arcs Data) (entries : List (List (Symbol extra) × Data)) : Prop where
  good : root.Good
  lookup_eq : ∀ key, root.lookup (storedKey key) = lastAdded entries key
  stored : ∀ bytes, root.lookup bytes ≠ none ↔ ∃ entry ∈ entries, storedKey entry.1 = bytes

theorem Holds.zeroFree_iff {root : Arcs Data} {entries : List (List (Symbol extra) × Data)}
    (h : Holds root entries) :
    ¬ root.ZeroFree ↔
      ∃ b, Arcs.GoOnWith b fun bytes => ∃ entry ∈ entries, storedKey entry.1 = bytes := by
  rw [h.good.not_zeroFree_iff]
  simp only [h.stored]

theorem storedKey_nil : storedKey ([] : List (Symbol extra)) = [0] := rfl

theorem addEntry_eq {root : Arcs Data} {key : List (Symbol extra)}
    (hfree : key = [] → root.ZeroFree) (value : Data) : ∃ c cs, storedKey key = c :: cs ∧
      addEntry root key value = root.add value c cs := by
  by_cases hkey : key = []
  · refine ⟨0, [], by rw [hkey]; rfl, ?_⟩
    rw [hkey]
    exact Arcs.addEmpty_eq (hfree hkey) value
  · obtain ⟨c, cs, hbytes⟩ := List.exists_cons_of_ne_nil (convert_ne_nil hkey)
    refine ⟨c, cs, by rw [storedKey, if_neg hkey, hbytes], ?_⟩
    rw [addEntry, hbytes]

theorem Holds.addEntry {root : Arcs Data} {entries : List (List (Symbol extra) × Data)}
    (h : Holds root entries) {entry : List (Symbol extra) × Data}
    (hfree : entry.1 = [] → root.ZeroFree) :
    Holds (addEntry root entry.1 entry.2).1 (entries ++ [entry]) ∧
      (Comptrie.addEntry root entry.1 entry.2).2 = (lastAdded entries entry.1).isNone := by
  obtain ⟨c, cs, hkey, hadd⟩ := addEntry_eq hfree entry.2
  have hadds := @Arcs.adds_add Data entry.2 root h.good c cs
  rw [hadd]
  refine ⟨⟨hadds.good h.good, ?_, ?_⟩, ?_⟩
  · intro key
    rw [hadds.lookup, h.lookup_eq, lastAdded_append, ← hkey]
    by_cases hsame : storedKey key = storedKey entry.1
    · rw [if_pos hsame, if_pos ((storedKey_eq_iff _ _).mp hsame.symm)]
    · rw [if_neg hsame, if_neg fun h => hsame ((storedKey_eq_iff _ _).mpr h).symm]
  · intro bytes
    rw [hadds.lookup, ← hkey]
    by_cases hsame : bytes = storedKey entry.1
    · rw [if_pos hsame]
      simp [hsame]
    · rw [if_neg hsame, h.stored]
      constructor
      · rintro ⟨other, hother, hbytes⟩
        exact ⟨other, List.mem_append_left _ hother, hbytes⟩
      · rintro ⟨other, hother, hbytes⟩
        rcases List.mem_append.mp hother with hother | hother
        · exact ⟨other, hother, hbytes⟩
        · rw [List.mem_singleton.mp hother] at hbytes
          exact absurd hbytes.symm hsame
  · rw [hadds.isNew_eq, ← hkey, h.lookup_eq]

theorem Holds.run {root : Arcs Data} {added entries : List (List (Symbol extra) × Data)}
    (h : Holds root added)
    (hfree : ∀ before value later, entries = before ++ ([], value) :: later →
      ¬ ∃ b, Arcs.GoOnWith b fun bytes => ∃ entry ∈ added ++ before, storedKey entry.1 = bytes) :
    Holds (Machine.run (fun root entry => Comptrie.addEntry root entry.1 entry.2) root entries).1
        (added ++ entries) ∧
      (Machine.run (fun root entry => Comptrie.addEntry root entry.1 entry.2) root entries).2 =
        newKeys added entries := by
  induction entries generalizing root added with
  | nil =>
    rw [List.append_nil]
    exact ⟨h, rfl⟩
  | cons entry entries ih =>
    have hzero : entry.1 = [] → root.ZeroFree := by
      intro hkey
      by_contra hlong
      apply hfree [] entry.2 entries
      · rw [← hkey]
        rfl
      · rw [List.append_nil]
        exact h.zeroFree_iff.mp hlong
    obtain ⟨hholds, hnew⟩ := h.addEntry hzero
    obtain ⟨hrest, hresults⟩ := ih hholds (by
      intro before value later hentries
      have hnot := hfree (entry :: before) value later (by rw [hentries]; rfl)
      rwa [List.append_cons] at hnot)
    rw [List.append_cons]
    exact ⟨hrest, congrArg₂ List.cons hnew hresults⟩

theorem holds_nil : Holds (.nil : Arcs Data) ([] : List (List (Symbol extra) × Data)) where
  good := trivial
  lookup_eq _ := rfl
  stored bytes := by
    constructor
    · intro h
      exact absurd rfl h
    · rintro ⟨entry, hentry, -⟩
      exact absurd hentry List.not_mem_nil

/-- With two arcs for the zero byte the search comes to the second. -/
theorem search_second {α : Type*} {first : α → ℕ} {arc₀ arc₁ : α} {rest : List α}
    (hzero : first arc₁ = 0) (hrest : ∀ arc ∈ rest, 0 < first arc) :
    Median.search first 0 (arc₀ :: arc₁ :: rest) = some arc₁ := by
  induction hn : rest.length using Nat.strong_induction_on generalizing rest with
  | _ n ih =>
    by_cases hmiddle : (n + 2) / 2 = 1
    · have hmid : Median.IsMiddle [arc₀] rest := by
        rw [Median.IsMiddle, List.length_singleton, hn]
        omega
      have hnode := Median.search_node first 0 hmid arc₁
      rw [hzero, if_neg (lt_irrefl 0), if_neg (lt_irrefl 0)] at hnode
      exact hnode
    · obtain ⟨arc, right, hdrop⟩ : ∃ arc right, rest.drop ((n + 2) / 2 - 2) = arc :: right := by
        apply List.exists_cons_of_ne_nil
        intro hnil
        have hlen := congrArg List.length hnil
        rw [List.length_drop, List.length_nil] at hlen
        omega
      have hright := congrArg List.length hdrop
      rw [List.length_drop, List.length_cons] at hright
      have hleft : (rest.take ((n + 2) / 2 - 2)).length = (n + 2) / 2 - 2 := by
        rw [List.length_take]
        omega
      have hmid : Median.IsMiddle (arc₀ :: arc₁ :: rest.take ((n + 2) / 2 - 2)) right := by
        rw [Median.IsMiddle, List.length_cons, List.length_cons, hleft]
        omega
      have hnode := Median.search_node first 0 hmid arc
      have harc : 0 < first arc := by
        apply hrest
        have hmem : arc ∈ rest.drop ((n + 2) / 2 - 2) := by
          rw [hdrop]
          exact List.mem_cons_self
        exact List.mem_of_mem_drop hmem
      rw [List.cons_append, List.cons_append, ← hdrop, List.take_append_drop, if_pos harc] at hnode
      rw [hnode]
      apply ih (rest.take ((n + 2) / 2 - 2)).length (by omega) _ rfl
      intro row hrow
      exact hrest row (List.mem_of_mem_take hrow)

/-- The reader does not find the empty key behind the longer label. -/
theorem ZeroHidden.emptyValue_eq {packer : Packer Data} {root : Arcs Data} (h : root.ZeroHidden)
    (hsize : nodeMeasureSubtree packer root < 2 ^ 56) :
    emptyValue (nodeSaveSubtree packer root) = none := by
  match root, h with
  | .cons 0 [] (some w) children (.cons 0 (b :: label) payload others rest), h =>
    have hexact := Arcs.rows_exact hsize
    have hlive : ∀ row ∈ (Arcs.cons 0 [] (some w) children
        (.cons 0 (b :: label) payload others rest)).rows packer, row.Live := by
      intro row hrow
      rcases List.mem_cons.mp hrow with rfl | hrow
      · exact Or.inl rfl
      · rcases List.mem_cons.mp hrow with rfl | hrow
        · exact Or.inr rfl
        · obtain ⟨more, payload, children, heq, -, hnode, -, -⟩ := h.2.exists_arc hrow
          rw [heq]
          exact arcRow_live hnode _ _
    have hleap := leapByte_saveRange 0 hexact hlive hsize []
    have hsecond := @search_second Row Row.first (arcRow packer 0 [] (some w) children)
      (arcRow packer 0 (b :: label) payload others) (rest.rows packer) rfl (by
        intro row hrow
        apply h.1
        rw [← @Arcs.first_rows Data packer]
        exact List.mem_map_of_mem hrow)
    rw [show Median.search Row.first 0 ((Arcs.cons 0 [] (some w) children
      (.cons 0 (b :: label) payload others rest)).rows packer) = _ from hsecond] at hleap
    obtain ⟨flags, after, hleap, hfinal, -⟩ := hleap
    rw [List.append_nil] at hleap
    rw [emptyValue, nodeSaveSubtree, hleap]
    simp only [hfinal]
    rfl

theorem ZeroHidden.addEntry {root : Arcs Data} (h : root.ZeroHidden) (key : List (Symbol extra))
    (value : Data) : (Comptrie.addEntry root key value).1.ZeroHidden := by
  rw [Comptrie.addEntry]
  split
  · exact h.addEmpty value
  · exact h.add value _ _

theorem lastAdded_ne_none {entries : List (List (Symbol extra) × Data)}
    {entry : List (Symbol extra) × Data} (h : entry ∈ entries) :
    lastAdded entries entry.1 ≠ none := by
  classical
  rw [lastAdded, ne_eq, Option.map_eq_none_iff, List.find?_eq_none]
  intro hnone
  have hnot := hnone entry (List.mem_reverse.mpr h)
  simp [SameKey] at hnot

theorem EmptyKeyHidden.find_eq {packer : Packer Data}
    {entries : List (List (Symbol extra) × Data)} (h : EmptyKeyHidden entries)
    (hsize : nodeMeasureSubtree packer (build entries).1 < 2 ^ 56) :
    find packer (nodeSaveSubtree packer (build entries).1) ([] : List (Symbol extra)) = none ∧
      lastAdded entries [] ≠ none := by
  obtain ⟨added, value, later, rfl, b, hgo⟩ := h
  have hadded : Holds (build added).1 added := by
    apply (holds_nil.run _).1
    rintro before value' later' rfl -
    obtain ⟨left, hleft⟩ := hgo.all [] ⟨([], value'), by simp, storedKey_nil⟩
    exact absurd hleft (by simp)
  have hfirst : (addEntry (build added).1 ([] : List (Symbol extra)) value).1.ZeroHidden :=
    hadded.good.zeroHidden_addEmpty (hadded.zeroFree_iff.mpr ⟨b, hgo⟩) value
  have hhidden : (build (added ++ ([], value) :: later)).1.ZeroHidden := by
    rw [build, Machine.run_append]
    exact @Machine.run_invariant _ _ _ _ Arcs.ZeroHidden
      (fun _ entry h => ZeroHidden.addEntry h entry.1 entry.2) _ hfirst later
  constructor
  · rw [find_nil, ZeroHidden.emptyValue_eq hhidden hsize]
    rfl
  · exact @lastAdded_ne_none extra Data _ ([], value) (by simp)

theorem EmptyKeyHidden.not_isFiniteMap {packer : Packer Data}
    {entries : List (List (Symbol extra) × Data)} (h : EmptyKeyHidden entries)
    (hsize : nodeMeasureSubtree packer (build entries).1 < 2 ^ 56) :
    ¬ IsFiniteMap packer entries := by
  rintro ⟨-, data, hsave, hfind⟩
  rw [save_eq hsize] at hsave
  obtain rfl := Option.some.inj hsave
  obtain ⟨hnone, hsome⟩ := h.find_eq hsize
  apply hsome
  rw [← hfind, hnone]

/-- The trie is the finite map of its entries just when the empty key is not hidden. -/
theorem isFiniteMap_iff (packer : Packer Data) (entries : List (List (Symbol extra) × Data))
    (hsize : nodeMeasureSubtree packer (build entries).1 < 2 ^ 56) :
    IsFiniteMap packer entries ↔ ¬ EmptyKeyHidden entries := by
  constructor
  · intro hmap hhidden
    exact hhidden.not_isFiniteMap hsize hmap
  · intro hnot
    obtain ⟨hholds, hnew⟩ := @Holds.run extra Data .nil [] entries holds_nil (by
      intro before value later hentries hgo
      exact hnot ⟨before, value, later, hentries, hgo⟩)
    refine ⟨hnew, nodeSaveSubtree packer (build entries).1, save_eq hsize, ?_⟩
    intro key
    have hfind := hholds.good.find_eq hsize key
    rwa [hholds.lookup_eq] at hfind

/-- `TAsIsPacker` for values of one byte. -/
def asIsPacker : Packer ℕ where
  packLeaf v := [v]
  unpackLeaf p := p.headD 0
  skipLeaf _ := 1
  skipLeaf_packLeaf _ _ := rfl
  unpackLeaf_packLeaf _ _ := rfl

/-- Symbols of two bytes: the key of one letter, and then the empty key. -/
def letterThenEmpty : List (List (Symbol 1) × ℕ) := [([0x61], 1), ([], 2)]

theorem build_letterThenEmpty : (build letterThenEmpty).1 =
    .cons 0 [] (some 2) .nil (.cons 0 [0x61] (some 1) .nil .nil) := by
  rfl

theorem size_letterThenEmpty :
    nodeMeasureSubtree asIsPacker (build letterThenEmpty).1 < 2 ^ 56 := by
  rw [build_letterThenEmpty]
  have hnil : measureRange [] = 0 := Median.recurse_nil _ _
  have hone : ∀ n, n ≠ 0 → n < 256 → measureOffset n = 1 := by
    intro n hn hlt
    rw [measureOffset, BigEndian.size, if_neg hn, Nat.div_eq_of_lt hlt, BigEndian.size_zero]
  have hzero : ∀ row : Row, row.leafSize = 1 → row.treeSize = 0 → row.more = [] →
      measureRange [row] = 3 := by
    intro row hleaf htree hmore
    have hnode := @measureRange_node [] [] rfl row
    rw [hnil] at hnode
    refine hnode.trans ?_
    simp [arcMeasure, offsetSize, hleaf, htree, hmore]
  have hboth : ∀ row other : Row, measureRange [row] = 3 → other.leafSize = 1 →
      other.treeSize = 0 → other.more.length = 1 → measureRange [row, other] = 9 := by
    intro row other hrow hleaf htree hmore
    have hmid : Median.IsMiddle [row] [] := by
      simp [Median.IsMiddle]
    have hnode := measureRange_node hmid other
    rw [hrow, hnil] at hnode
    refine hnode.trans ?_
    simp [arcMeasure, offsetSize, hleaf, htree, hmore, hone]
  have htotal := hboth (arcRow asIsPacker 0 [] (some 2) .nil)
    (arcRow asIsPacker 0 [0x61] (some 1) .nil) (hzero _ rfl hnil rfl) rfl hnil rfl
  exact lt_of_eq_of_lt htotal (by decide)

theorem emptyKeyHidden_letterThenEmpty : EmptyKeyHidden letterThenEmpty := by
  refine ⟨[([0x61], 1)], 2, [], rfl, 0x61, ⟨[], ([0x61], 1), by simp, rfl⟩, ?_⟩
  rintro ks ⟨entry, hentry, hbytes⟩
  rw [List.mem_singleton.mp hentry] at hbytes
  exact ⟨[], (List.cons.inj hbytes).2.symm⟩

theorem isFiniteMap_iff_letterThenEmpty :
    IsFiniteMap asIsPacker letterThenEmpty ↔ ¬ EmptyKeyHidden letterThenEmpty :=
  isFiniteMap_iff asIsPacker letterThenEmpty size_letterThenEmpty

/-- The empty key is not found after a letter has been added before it. -/
theorem not_isFiniteMap_letterThenEmpty : ¬ IsFiniteMap asIsPacker letterThenEmpty :=
  emptyKeyHidden_letterThenEmpty.not_isFiniteMap size_letterThenEmpty

end TomitaParser.Comptrie
