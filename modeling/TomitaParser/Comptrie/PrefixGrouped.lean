import TomitaParser.Comptrie.GroupedOrder
/-! # Prefix-grouped keys

Between two keys with a common prefix there are only keys with that prefix. Where this is so for the
bytes of the keys, no key goes on below a closed subtree. It need not be so for the bytes where it is
so for the symbols. -/

namespace TomitaParser.Comptrie

variable {Data : Type} {extra : ℕ}

/-- All keys between two with the same prefix have that prefix, too. -/
def PrefixGrouped {α : Type} (keys : List (List α)) : Prop :=
  ∀ x y z, [x, y, z].Sublist keys → ∀ path, path ≠ [] → path <+: x → path <+: z → path <+: y

theorem prefixGrouped_of_length_one {α : Type} {keys : List (List α)} (hnodup : keys.Nodup)
    (hone : ∀ key ∈ keys, key.length = 1) : PrefixGrouped keys := by
  intro x y z hsub path hne hx hz
  have hpath : ∀ key ∈ [x, y, z], path <+: key → path = key := by
    intro key hkey hprefix
    apply hprefix.eq_of_length
    have hlength := hone key (hsub.subset hkey)
    have hle := hprefix.length_le
    have hpos := List.length_pos_iff.mpr hne
    omega
  have hxz : x ≠ z := by
    intro heq
    have hthree := hnodup.sublist hsub
    simp [heq] at hthree
  exact absurd ((hpath x (by simp) hx).symm.trans (hpath z (by simp) hz)) hxz

/-- Symbols of two bytes: keys of one symbol each, of which all but the third have the same first
byte. -/
theorem groupedBuild_throws :
    ¬ ∀ entries : List (List (Symbol 1) × ℕ), PrefixGrouped (entries.map Prod.fst) →
      ∃ root, GroupedArcs.build asIsPacker entries = some (root, (build entries).2) ∧
        root.save asIsPacker = save asIsPacker (build entries).1 := by
  intro h
  have hgrouped : PrefixGrouped ([([0x401], 1), ([0x402], 2), ([0x501], 3), ([0x403], 4)].map
      Prod.fst : List (List (Symbol 1))) :=
    prefixGrouped_of_length_one (by decide) (by decide)
  have hsame : SameAs asIsPacker .nil .nil
    ([([0x401], 1), ([0x402], 2), ([0x501], 3), ([0x403], 4)] : List (List (Symbol 1) × ℕ)) :=
    h _ hgrouped
  rw [sameAs_iff .nil trivial] at hsame
  obtain ⟨-, -, -, hclosed, -⟩ := hsame
  revert hclosed
  decide

namespace Arcs

/-- The path of each node is a prefix of a key. -/
def From : (List ℕ → Prop) → Arcs Data → Prop
  | _, nil => True
  | keys, cons first more _ children rest =>
    (∃ key, keys key ∧ first :: more <+: key) ∧
      From (fun key => keys (first :: more ++ key)) children ∧ From keys rest

theorem From.mono {keys keys' : List ℕ → Prop} {arcs : Arcs Data} (h : arcs.From keys)
    (hsub : ∀ key, keys key → keys' key) : arcs.From keys' := by
  induction arcs generalizing keys keys' with
  | nil => trivial
  | cons first more payload children rest ihChildren ih =>
    obtain ⟨⟨key, hkey, hprefix⟩, hchildren, hrest⟩ := h
    exact ⟨⟨key, hsub key hkey, hprefix⟩, ihChildren hchildren fun key => hsub _, ih hrest hsub⟩

theorem From.link {keys : List ℕ → Prop} {arcs : Arcs Data} (h : arcs.From keys) {c : ℕ}
    {cs : List ℕ} (hkey : keys (c :: cs)) (v : Data) : (arcs.link c cs v).From keys := by
  induction arcs with
  | nil => exact ⟨⟨_, hkey, List.prefix_rfl⟩, trivial, trivial⟩
  | cons first more payload children rest _ ih =>
    obtain ⟨hself, hchildren, hrest⟩ := h
    rw [Arcs.link]
    split_ifs
    · exact ⟨hself, hchildren, ih hrest⟩
    · exact ⟨⟨_, hkey, List.prefix_rfl⟩, trivial, hself, hchildren, hrest⟩

theorem From.add {keys : List ℕ → Prop} {arcs : Arcs Data} (h : arcs.From keys)
    (hsorted : arcs.Sorted) {c : ℕ} {cs : List ℕ} (hkey : keys (c :: cs)) (v : Data) :
    (arcs.add v c cs).1.From keys := by
  induction arcs generalizing keys c cs with
  | nil => exact ⟨⟨_, hkey, List.prefix_rfl⟩, trivial, trivial⟩
  | cons first more payload children rest ihChildren ih =>
    have hself := hsorted
    have hall := h
    obtain ⟨⟨key, hkeys, hprefix⟩, hchildren, hrest⟩ := h
    obtain ⟨hle, hchildrenSorted, hrestSorted⟩ := hsorted
    by_cases hc : c = first
    · rw [hc, Arcs.add_cons_self]
      rw [hc] at hkey
      have hspec := diverge_spec more cs
      generalize diverge more cs = parts at hspec ⊢
      obtain ⟨common, tail, target⟩ := parts
      obtain ⟨hmore, hcs, -⟩ := hspec
      simp only at hmore hcs
      subst hmore hcs
      cases tail with
      | nil =>
        cases target with
        | nil => exact hall
        | cons d ds =>
          refine ⟨⟨key, hkeys, hprefix⟩, ihChildren hchildren hchildrenSorted ?_, hrest⟩
          simpa using hkey
      | cons e es =>
        have hcommon : ∃ key, keys key ∧ first :: common <+: key := by
          refine ⟨key, hkeys, List.IsPrefix.trans ?_ hprefix⟩
          exact ⟨e :: es, by simp⟩
        -- the node at the end of the label, below the part that is left in front
        have hsingle : (Arcs.cons e es payload children .nil).From
            fun key => keys (first :: common ++ key) := by
          refine ⟨?_, ?_, trivial⟩
          · obtain ⟨left, rfl⟩ := hprefix
            exact ⟨e :: es ++ left, by simpa using hkeys, List.prefix_append _ _⟩
          · simpa using hchildren
        cases target with
        | nil => exact ⟨hcommon, hsingle, hrest⟩
        | cons d ds => exact ⟨hcommon, hsingle.link (by simpa using hkey) v, hrest⟩
    · by_cases hmem : c ∈ rest.firsts
      · have hlt : first < c := lt_of_le_of_ne (hle c hmem) (Ne.symm hc)
        rw [Arcs.add, if_pos hlt]
        exact ⟨⟨key, hkeys, hprefix⟩, hchildren, ih hrest hrestSorted hkey⟩
      · rw [hself.add_of_not_mem v cs (by simp [Arcs.firsts, hc, hmem])]
        exact hall.link hkey v

theorem From.addEmpty {keys : List ℕ → Prop} {arcs : Arcs Data} (h : arcs.From keys)
    (hkey : keys [0]) (v : Data) : (arcs.addEmpty v).1.From keys := by
  unfold Arcs.addEmpty
  split
  · exact h
  · exact h.link hkey v

theorem From.addEntry {keys : List ℕ → Prop} {arcs : Arcs Data} (h : arcs.From keys)
    (hsorted : arcs.Sorted) {key : List (Symbol extra)} (hkey : keys (storedKey key)) (v : Data) :
    (addEntry arcs key v).1.From keys := by
  rw [Comptrie.addEntry]
  by_cases hnil : key = []
  · rw [storedKey, if_pos hnil] at hkey
    rw [hnil]
    exact h.addEmpty hkey v
  · rw [storedKey, if_neg hnil] at hkey
    cases hbytes : convertSymbolArrayToChar key with
    | nil => exact absurd hbytes (convert_ne_nil hnil)
    | cons c cs =>
      rw [hbytes] at hkey
      exact h.add hsorted hkey v

theorem From.back {keys : List ℕ → Prop} {arcs : Arcs Data} (h : arcs.From keys)
    {path : List ℕ} (hback : arcs.back = some path) : ∃ key, keys key ∧ path <+: key := by
  induction arcs with
  | nil => cases hback
  | cons first more payload children rest _ ih =>
    obtain ⟨hself, -, hrest⟩ := h
    by_cases hnil : rest = .nil
    · rw [hnil] at hback
      rw [← Option.some.inj hback]
      exact hself
    · rw [Arcs.back_cons hnil, Option.filter_eq_some_iff] at hback
      exact ih hrest hback.1

theorem From.closedBy {keys : List ℕ → Prop} {arcs : Arcs Data} (h : arcs.From keys) {c : ℕ}
    {cs path : List ℕ} (hclosed : arcs.closedBy c cs = some path) :
    ∃ key, keys key ∧ path <+: key := by
  induction arcs generalizing keys c cs path with
  | nil => cases hclosed
  | cons first more payload children rest ihChildren ih =>
    have hall := h
    obtain ⟨hself, hchildren, hrest⟩ := h
    rw [Arcs.closedBy] at hclosed
    split_ifs at hclosed
    · exact hall.back hclosed
    · exact ih hrest hclosed
    · split at hclosed
      · obtain ⟨below, hbelow, rfl⟩ := Option.map_eq_some_iff.mp hclosed
        obtain ⟨key, hkey, hprefix⟩ := ihChildren hchildren hbelow
        exact ⟨_, hkey, (List.prefix_append_right_inj _).mpr hprefix⟩
      · rw [← Option.some.inj hclosed]
        exact hself
      · cases hclosed

theorem head_mem_of_back {arcs : Arcs Data} {first : ℕ} {more : List ℕ}
    (h : arcs.back = some (first :: more)) : first ∈ arcs.firsts := by
  induction arcs with
  | nil => cases h
  | cons g label payload children rest _ ih =>
    by_cases hnil : rest = .nil
    · rw [hnil] at h
      rw [firsts, (List.cons.inj (Option.some.inj h)).1]
      exact List.mem_cons_self
    · rw [Arcs.back_cons hnil, Option.filter_eq_some_iff] at h
      exact List.mem_cons_of_mem g (ih h.1)

/-- The path of the subtree that a key closes is not a prefix of the key. -/
theorem not_prefix_of_closedBy {arcs : Arcs Data} {c : ℕ} {cs path : List ℕ}
    (h : arcs.closedBy c cs = some path) : ¬ path <+: c :: cs := by
  induction arcs generalizing c cs path with
  | nil => cases h
  | cons first more payload children rest ihChildren ih =>
    rw [Arcs.closedBy] at h
    split_ifs at h with hnone hc
    · obtain ⟨g, label, rfl⟩ := Arcs.exists_back h
      intro hprefix
      have hg : g = c := (List.cons_prefix_cons.mp hprefix).1
      have hmem := head_mem_of_back h
      rw [hg] at hmem
      rcases List.mem_cons.mp hmem with hmem | hmem
      · exact hnone.1 hmem
      · exact hnone.2 hmem
    · exact ih h
    · have hspec := diverge_spec more cs
      generalize diverge more cs = parts at hspec h
      obtain ⟨common, tail, target⟩ := parts
      obtain ⟨hmore, hcs, hne⟩ := hspec
      simp only at hmore hcs hne
      subst hmore hcs
      cases tail with
      | nil =>
        cases target with
        | nil => cases h
        | cons d ds =>
          obtain ⟨below, hbelow, rfl⟩ := Option.map_eq_some_iff.mp h
          intro hprefix
          rw [List.cons_append, List.cons_prefix_cons, List.append_nil,
            List.prefix_append_right_inj] at hprefix
          exact ihChildren hbelow hprefix.2
      | cons e es =>
        cases target with
        | nil => cases h
        | cons d ds =>
          rw [← Option.some.inj h]
          intro hprefix
          rw [List.cons_prefix_cons, List.prefix_append_right_inj, List.cons_prefix_cons] at hprefix
          exact hne e es d ds rfl rfl hprefix.2.1

theorem Sorted.hasZeroArc_of_back {arcs : Arcs Data} (h : arcs.Sorted)
    (hback : arcs.back = some [0]) : arcs.hasZeroArc = true := by
  cases arcs with
  | nil => cases hback
  | cons first more payload children rest =>
    obtain ⟨hle, -, -⟩ := h
    by_cases hnil : rest = .nil
    · rw [hnil] at hback
      obtain ⟨rfl, rfl⟩ := List.cons.inj (Option.some.inj hback)
      rfl
    · rw [Arcs.back_cons hnil, Option.filter_eq_some_iff] at hback
      have hzero := hle 0 (head_mem_of_back hback.1)
      have hne : (0 : ℕ) ≠ first := by simpa using hback.2
      omega

end Arcs

/-- The keys that are kept out have a prefix that an earlier key has, and a later one has not. -/
def ClosedBetween (done : List (List ℕ)) (closed : List ℕ → Bool) : Prop :=
  ∀ bytes, closed bytes = true → ∃ x y path, [x, y].Sublist done ∧ path ≠ [] ∧ path <+: x ∧
    path <+: bytes ∧ ¬ path <+: y

theorem ClosedBetween.append {done : List (List ℕ)} {closed : List ℕ → Bool}
    (h : ClosedBetween done closed) (later : List (List ℕ)) :
    ClosedBetween (done ++ later) closed := by
  intro bytes hbytes
  obtain ⟨x, y, path, hsub, hpath⟩ := h bytes hbytes
  exact ⟨x, y, path, hsub.trans (List.sublist_append_left done later), hpath⟩

theorem closedBetween_path {done : List (List ℕ)} {path key : List ℕ}
    (hdone : ∃ x ∈ done, path <+: x) (hne : path ≠ []) (hkey : ¬ path <+: key) :
    ClosedBetween (done ++ [key]) (goesBelow path) := by
  intro bytes hbytes
  obtain ⟨x, hx, hprefix⟩ := hdone
  obtain ⟨d, ds, rfl⟩ := goesBelow_iff.mp hbytes
  refine ⟨x, key, path, ?_, hne, hprefix, List.prefix_append _ _, hkey⟩
  exact (List.singleton_sublist.mpr hx).append (List.Sublist.refl [key])

theorem ClosedBetween.closing {done : List (List ℕ)} {closed : List ℕ → Bool} {root : Arcs Data}
    (h : ClosedBetween done closed) (hsorted : root.Sorted) (hfrom : root.From (· ∈ done))
    (key : List (Symbol extra)) :
    ClosedBetween (done ++ [storedKey key]) (closing root key closed) := by
  intro bytes hbytes
  have hbefore := h.append [storedKey key] bytes
  rw [Comptrie.closing] at hbytes
  by_cases hnil : key = []
  · rw [hnil] at hbytes hbefore ⊢
    have hclosed : (if root.hasZeroArc then closed bytes else bytes.head? ≠ some 0 &&
        (closed bytes || root.back.any fun path => goesBelow path bytes)) = true := hbytes
    by_cases hzero : root.hasZeroArc = true
    · rw [if_pos hzero] at hclosed
      exact hbefore hclosed
    · rw [if_neg hzero, Bool.and_eq_true, Bool.or_eq_true, Option.any_eq_true] at hclosed
      rcases hclosed.2 with hclosed | ⟨path, hpath, hbelow⟩
      · exact hbefore hclosed
      · obtain ⟨first, more, rfl⟩ := Arcs.exists_back hpath
        refine closedBetween_path (hfrom.back hpath) (by simp) ?_ bytes hbelow
        intro hprefix
        apply hzero
        apply hsorted.hasZeroArc_of_back
        obtain ⟨hfirst, hmore⟩ := List.cons_prefix_cons.mp hprefix
        rw [hpath, hfirst, List.prefix_nil.mp hmore]
  · have hstored : storedKey key = convertSymbolArrayToChar key := if_neg hnil
    rw [hstored] at hbefore ⊢
    cases hconvert : convertSymbolArrayToChar key with
    | nil => exact absurd hconvert (convert_ne_nil hnil)
    | cons c cs =>
      rw [hconvert] at hbefore hbytes
      rw [Bool.or_eq_true, Option.any_eq_true] at hbytes
      rcases hbytes with hclosed | ⟨path, hpath, hbelow⟩
      · exact hbefore hclosed
      · have hne : path ≠ [] := by
          intro hpathNil
          apply Arcs.not_prefix_of_closedBy hpath
          rw [hpathNil]
          exact List.nil_prefix
        exact closedBetween_path (hfrom.closedBy hpath) hne
          (Arcs.not_prefix_of_closedBy hpath) bytes hbelow

theorem inOrder_of_prefixGrouped {entries : List (List (Symbol extra) × Data)} :
    ∀ {done : List (List ℕ)} {closed : List ℕ → Bool} {root : Arcs Data},
    PrefixGrouped (done ++ entries.map fun entry => storedKey entry.1) → root.Sorted →
    root.From (· ∈ done) → ClosedBetween done closed → closed [] = false →
    InOrder root closed entries := by
  induction entries with
  | nil =>
    intro done closed root _ _ _ _ _
    trivial
  | cons entry entries ih =>
    intro done closed root hgrouped hsorted hfrom hclosed hempty
    have hsplit : done ++ (entry :: entries).map (fun entry => storedKey entry.1) =
        done ++ [storedKey entry.1] ++ entries.map fun entry => storedKey entry.1 := by simp
    rw [InOrder]
    constructor
    · by_cases hnil : entry.1 = []
      · rw [hnil]
        exact hempty
      · by_contra hkept
        have hstored : storedKey entry.1 = convertSymbolArrayToChar entry.1 := if_neg hnil
        obtain ⟨x, y, path, hsub, hne, hx, hz, hy⟩ := hclosed _ (eq_true_of_ne_false hkept)
        rw [← hstored] at hz
        apply hy
        refine hgrouped x y (storedKey entry.1) ?_ path hne hx hz
        rw [hsplit]
        refine List.Sublist.trans ?_ (List.sublist_append_left _ _)
        exact hsub.append (List.Sublist.refl [storedKey entry.1])
    · rw [hsplit] at hgrouped
      have hkey : storedKey entry.1 ∈ done ++ [storedKey entry.1] := by simp
      refine ih hgrouped (hsorted.addEntry entry.1 entry.2) ?_ (hclosed.closing hsorted hfrom
        entry.1) ?_
      · exact (hfrom.mono fun key hkey => List.mem_append_left _ hkey).addEntry hsorted hkey entry.2
      · rw [Comptrie.closing]
        cases convertSymbolArrayToChar entry.1 with
        | nil => simp [hempty, goesBelow_nil]
        | cons c cs => simp [hempty, goesBelow_nil]

theorem inOrder_of_grouped_bytes {entries : List (List (Symbol extra) × Data)}
    (h : PrefixGrouped (entries.map fun entry => storedKey entry.1)) :
    InOrder (.nil : Arcs Data) (fun _ => false) entries := by
  refine @inOrder_of_prefixGrouped Data extra entries [] _ _ (by simpa using h) trivial trivial
    ?_ rfl
  intro bytes hbytes
  cases hbytes

theorem convert_eq_map (key : List (Symbol 0)) :
    convertSymbolArrayToChar key = key.map Fin.val := by
  induction key with
  | nil => rfl
  | cons label key ih =>
    have hlt : label.val < 256 := label.isLt
    rw [convert_cons, ih, List.map_cons, symbolBytes]
    simp [BigEndian.bytes, Nat.mod_eq_of_lt hlt]

theorem PrefixGrouped.map {α β : Type} {f : α → β} (hf : Function.Injective f)
    {keys : List (List α)} (h : PrefixGrouped keys) : PrefixGrouped (keys.map (List.map f)) := by
  intro x y z hsub path hne hx hz
  obtain ⟨keys', hkeys', hmap⟩ := List.sublist_map_iff.mp hsub
  obtain ⟨x', _, rfl, rfl, htwo⟩ := List.map_eq_cons_iff.mp hmap.symm
  obtain ⟨y', _, rfl, rfl, hone⟩ := List.map_eq_cons_iff.mp htwo
  obtain ⟨z', _, rfl, rfl, hnil⟩ := List.map_eq_cons_iff.mp hone
  obtain rfl := List.map_eq_nil_iff.mp hnil
  obtain ⟨p, hp, rfl⟩ := List.prefix_map_iff.mp hx
  obtain ⟨p', hp', heq⟩ := List.prefix_map_iff.mp hz
  obtain rfl := List.map_injective_iff.mpr hf heq
  refine (h x' y' z' hkeys' p ?_ hp hp').map f
  rintro rfl
  exact hne rfl

/-- For symbols of one byte the order that the flag asks for is enough, without the empty key. -/
theorem groupedBuild_of_prefixGrouped (packer : Packer Data)
    (entries : List (List (Symbol 0) × Data)) (hgrouped : PrefixGrouped (entries.map Prod.fst))
    (hkeys : ∀ entry ∈ entries, entry.1 ≠ []) :
    ∃ root, GroupedArcs.build packer entries = some (root, (build entries).2) ∧
      root.save packer = save packer (build entries).1 := by
  have hbytes : (entries.map fun entry => storedKey entry.1) =
      (entries.map Prod.fst).map (List.map Fin.val) := by
    rw [List.map_map]
    apply List.map_congr_left
    intro entry hentry
    rw [storedKey, if_neg (hkeys entry hentry), convert_eq_map]
    rfl
  have horder : InOrder .nil (fun _ => false) entries := by
    apply inOrder_of_grouped_bytes
    rw [hbytes]
    exact hgrouped.map Fin.val_injective
  exact (sameAs_iff (@Buffers.nil Data packer) trivial).mpr horder

/-- Three keys, two of which share their first byte. -/
theorem groupedBuild_of_prefixGrouped_threeWords :
    let entries : List (List (Symbol 0) × ℕ) := [([0x62, 0x61], 1), ([0x62, 0x63], 2), ([0x61], 3)]
    ∃ root, GroupedArcs.build asIsPacker entries = some (root, [true, true, true]) ∧
      root.save asIsPacker = save asIsPacker (build entries).1 :=
  groupedBuild_of_prefixGrouped asIsPacker _ (by
    intro x y z hsub path hne hx hz
    have hkeys : [x, y, z] = [[0x62, 0x61], [0x62, 0x63], [0x61]] := hsub.eq_of_length rfl
    simp only [List.cons.injEq, and_true] at hkeys
    obtain ⟨rfl, rfl, rfl⟩ := hkeys
    -- no byte is shared by the first key and the last one
    cases path with
    | nil => exact absurd rfl hne
    | cons b path =>
      rw [List.cons_prefix_cons] at hx hz
      exact absurd (hx.1.symm.trans hz.1) (by decide)) (by simp)

end TomitaParser.Comptrie
