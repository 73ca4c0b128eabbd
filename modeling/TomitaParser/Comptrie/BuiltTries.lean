import TomitaParser.Comptrie.LookupAgreement
import TomitaParser.Comptrie.SavedTree
/-! # The lookups of a built trie

What the builder saves reads as a tree, whose keys are those that have been added. -/

namespace TomitaParser.Comptrie
open TernaryTree
variable {extra : ℕ} {Data : Type} {packer : Packer Data}

/-- What is found in a tree is one of its entries. -/
theorem mem_entries_of_follow {payload : Option Data} {t t' : Tree ℕ Data} {bs : List ℕ}
    (hne : bs ≠ []) {v : Data} (h : follow (payload, t) bs = some (some v, t')) :
    (bs, v) ∈ t.entries := by
  have hsearch : ∀ {t : Tree ℕ Data} {b : ℕ} {payload : Option Data} {forward : Tree ℕ Data},
      t.search b = some (payload, forward) →
      (∀ v, payload = some v → ([b], v) ∈ t.entries) ∧
        ∀ entry ∈ forward.entries, extend b entry ∈ t.entries := by
    intro t b payload forward h
    induction t with
    | nil => simp [Tree.search] at h
    | node label payload' left forward' right ihLeft _ ihRight =>
      rw [Tree.search] at h
      simp only [Tree.entries, List.mem_append]
      split_ifs at h with hlt hgt
      · obtain ⟨hown, hlater⟩ := ihLeft h
        exact ⟨fun v hv => Or.inl (hown v hv), fun entry he => Or.inl (hlater entry he)⟩
      · obtain ⟨hown, hlater⟩ := ihRight h
        exact ⟨fun v hv => Or.inr (Or.inr (Or.inr (hown v hv))),
          fun entry he => Or.inr (Or.inr (Or.inr (hlater entry he)))⟩
      · obtain ⟨rfl, rfl⟩ := Prod.mk.inj (Option.some.inj h)
        obtain rfl : b = label := by omega
        refine ⟨fun v hv => Or.inr (Or.inl ?_), fun entry he =>
          Or.inr (Or.inr (Or.inl (List.mem_map_of_mem he)))⟩
        rw [hv, own]
        exact List.mem_singleton.mpr rfl
  induction bs generalizing payload t with
  | nil => exact absurd rfl hne
  | cons b bs ih =>
    rw [follow_cons] at h
    obtain ⟨⟨mid, forward⟩, hmid, h⟩ := Option.bind_eq_some_iff.mp h
    obtain ⟨hown, hlater⟩ := hsearch hmid
    by_cases hbs : bs = []
    · subst hbs
      exact hown v (Prod.mk.inj (Option.some.inj h)).1
    · exact hlater _ (ih hbs h)

/-- What `Init` makes of data that read as a tree. -/
theorem describes_init {data : List ℕ} {t : Tree ℕ Data} (hread : ReadsAs packer data t 0)
    (hnull : t = .nil → data = []) (hlive : t.Live)
    (hkeys : ∀ entry ∈ t.entries, ∃ key : List (Symbol extra), entry.1 = storedKey key) :
    ∃ value, (follow (none, t) [0]).bind Prod.fst = value ∧
      Describes packer extra (ByteTrie.init data) (value, t) := by
  have hempty : (emptyValue data).map packer.unpackLeaf =
      (follow (none, t) [0]).bind Prod.fst := by
    rw [emptyValue, follow_cons]
    by_cases hne : t = .nil
    · rw [hnull hne, hne, leapByte_nil]
      rfl
    · have hleap := (hread.reads hne).leapFinds 0
      rw [List.drop_zero] at hleap
      simp only
      cases hs : t.search 0 with
      | none =>
        rw [hs] at hleap
        rw [show leapByte 0 data = none from hleap]
        rfl
      | some s =>
        rw [hs] at hleap
        obtain ⟨flags, datapos, hleap, hto⟩ := hleap
        rw [hleap]
        simp only [hto.isFinal, Option.bind_some, follow_nil]
        cases hvalue : s.1 with
        | none => rfl
        | some v =>
          rw [Option.isSome_some, if_pos rfl, Option.map_some, hto.value v hvalue]
  refine ⟨_, rfl, hempty, hnull, fun hne => ?_, hlive, fun bs v t' hbs hfollow => ?_⟩
  · have hreads := hread.reads hne
    rwa [List.drop_zero] at hreads
  · rw [follow_of_ne_nil _ t hbs] at hfollow
    obtain ⟨key, hkey⟩ := hkeys _ (mem_entries_of_follow hbs hfollow)
    by_cases hnil : key = []
    · rw [storedKey, if_pos hnil] at hkey
      obtain rfl : bs = [0] := hkey
      refine Or.inr ⟨rfl, ?_⟩
      rw [hfollow]
      rfl
    · rw [storedKey, if_neg hnil] at hkey
      exact Or.inl ⟨key, hkey⟩

theorem Arcs.Good.live {arcs : Arcs Data} (h : arcs.Good) : arcs.Live := by
  induction arcs with
  | nil => trivial
  | cons first more payload children rest ihChildren ihRest =>
    refine ⟨?_, ihChildren h.2.2.1, ihRest h.2.2.2⟩
    rintro hnone rfl
    have := h.2.1 hnone
    simp [firsts] at this

theorem Holds.describes {root : Arcs Data} {entries : List (List (Symbol extra) × Data)}
    (h : Holds root entries) (hsize : nodeMeasureSubtree packer root < 2 ^ 56) :
    ∃ s, Describes packer extra (ByteTrie.init (nodeSaveSubtree packer root)) s := by
  have hread := (h.good.live.readsAs hsize []).1
  rw [List.append_nil] at hread
  obtain ⟨value, -, hdescribes⟩ := @describes_init extra Data packer _ _ hread (fun hnil => by
    rw [Arcs.tree_eq_nil.mp hnil]
    exact Median.recurse_nil _ _) h.good.live.tree (fun entry hentry => by
      obtain ⟨added, -, hkey⟩ := (h.stored entry.1).mp (by
        rw [(h.good.mem_entries entry.1 entry.2).mp hentry]
        simp)
      exact ⟨added.1, hkey.symm⟩)
  exact ⟨_, hdescribes⟩

/-- The saved trie of the empty key with the value 1 and a key of two letters with the value 2. -/
def emptyAndTwoLetters : List ℕ := [192, 0, 1, 64, 0x61, 64, 0, 128, 0x62, 2]

def twoLettersTree : Tree ℕ ℕ :=
  .node 0 (some 1) .nil
    (.node 0x61 none .nil (.node 0 none .nil (.node 0x62 (some 2) .nil .nil .nil) .nil) .nil) .nil

theorem emptyAndTwoLetters_readsAs : ReadsAs asIsPacker emptyAndTwoLetters twoLettersTree 0 := by
  have hfirst : readNode asIsPacker emptyAndTwoLetters 0 =
      some ⟨0, some (1 :: [64, 0x61, 64, 0, 128, 0x62, 2]), 1, 3, 3, 0, 0, 0⟩ := by decide
  have hsecond : readNode asIsPacker emptyAndTwoLetters 3 =
      some ⟨3, none, 0, 2, 5, 0, 0, 0x61⟩ := by decide
  have hthird : readNode asIsPacker emptyAndTwoLetters 5 =
      some ⟨5, none, 0, 2, 7, 0, 0, 0⟩ := by decide
  have hfourth : readNode asIsPacker emptyAndTwoLetters 7 =
      some ⟨7, some (2 :: []), 1, 3, 0, 0, 0, 0x62⟩ := by decide
  have hlast : ReadsAs asIsPacker emptyAndTwoLetters (.node 0x62 (some 2) .nil .nil .nil) 7 :=
    ⟨_, hfourth, rfl, ⟨[], rfl⟩, by simp, by simp, by simp, trivial, trivial, trivial⟩
  have hzero : ReadsAs asIsPacker emptyAndTwoLetters
      (.node 0 none .nil (.node 0x62 (some 2) .nil .nil .nil) .nil) 5 :=
    ⟨_, hthird, rfl, rfl, by simp, by simp, by simp, trivial, hlast, trivial⟩
  have hletter : ReadsAs asIsPacker emptyAndTwoLetters (.node 0x61 none .nil
      (.node 0 none .nil (.node 0x62 (some 2) .nil .nil .nil) .nil) .nil) 3 :=
    ⟨_, hsecond, rfl, rfl, by simp, by simp, by simp, trivial, hzero, trivial⟩
  exact ⟨_, hfirst, rfl, ⟨_, rfl⟩, by simp, by simp, by simp, trivial, hletter, trivial⟩

theorem emptyAndTwoLetters_describes :
    Describes asIsPacker 1 (ByteTrie.init emptyAndTwoLetters) (some 1, twoLettersTree) := by
  obtain ⟨value, rfl, h⟩ := @describes_init 1 ℕ asIsPacker _ _ emptyAndTwoLetters_readsAs
    (by simp [twoLettersTree]) (by simp [twoLettersTree, Tree.Live]) (by
      intro entry hentry
      have hentries : twoLettersTree.entries = [([0], 1), ([0, 0x61, 0, 0x62], 2)] := by rfl
      rw [hentries] at hentry
      rcases List.mem_pair.mp hentry with rfl | rfl
      · exact ⟨[], rfl⟩
      · exact ⟨[0x61, 0x62], by decide⟩)
  exact h

/-- The key of two letters is found by every lookup. -/
theorem lookupsAgree_iff_twoLetters :
    LookupsAgree asIsPacker (ByteTrie.init emptyAndTwoLetters)
      (contents (some 1, twoLettersTree)) ([0x61, 0x62] : List (Symbol 1)) := by
  refine (lookupsAgree_iff emptyAndTwoLetters_describes [0x61, 0x62]).mpr ⟨?_, ?_, ?_⟩
  · exact fun h => absurd h.1 (by decide)
  · rintro ⟨p, rest, hp, hne, hne', hvalue, -⟩
    cases p with
    | nil => exact hne rfl
    | cons a p =>
      obtain ⟨rfl, htail⟩ := List.cons.inj hp
      cases p with
      | nil => exact hvalue (by decide)
      | cons b p =>
        have hrest := (List.cons.inj htail).2
        exact hne' (List.append_eq_nil_iff.mp hrest.symm).2
  · rintro ⟨-, hnil | hnone⟩
    · exact absurd hnil (by decide)
    · exact absurd hnone.1 (by decide)

/-- The first letter is no key, but with the value of the empty key the iterator reads a null pointer
there, and it reads one as well when it goes on from the end of the trie. -/
theorem twoLetters_not_lookupsAgree :
    (∀ m, ¬ LookupsAgree asIsPacker (ByteTrie.init emptyAndTwoLetters) m
      ([0x61] : List (Symbol 1))) ∧
    ∀ m, ¬ LookupsAgree asIsPacker (ByteTrie.init emptyAndTwoLetters) m
      ([0x61, 0x62, 0x63] : List (Symbol 1)) := by
  have hdata : (ByteTrie.init emptyAndTwoLetters).data ≠ [] := by decide
  have hwrong : ∀ (m : List (Symbol 1) → Option ℕ) (key : List (Symbol 1)),
      LookupsAgree asIsPacker (ByteTrie.init emptyAndTwoLetters) m key →
      ¬ PassesLeaf (contents (some 1, twoLettersTree)) key ∧
        ¬ EmptyKeyShows (contents (some 1, twoLettersTree)) key := by
    intro m key h
    rw [← emptyAndTwoLetters_describes.search_iff hdata key, h.search, ← h.find,
      emptyAndTwoLetters_describes.find]
  refine ⟨fun m h => (hwrong m _ h).2 ⟨by decide, Or.inr ⟨by decide, [0x62], by decide, by decide⟩⟩,
    fun m h => (hwrong m _ h).1 ⟨[0x61, 0x62], [0x63], rfl, by decide, by decide, by decide, ?_⟩⟩
  intro more hmore
  rw [contents_append]
  have hfollow : follow (some 1, twoLettersTree)
      (convertSymbolArrayToChar ([0x61, 0x62] : List (Symbol 1))) = some (some 2, .nil) := by
    rfl
  rw [hfollow, Option.bind_some, contents, follow_empty _ (convert_ne_nil hmore)]
  rfl

end TomitaParser.Comptrie
