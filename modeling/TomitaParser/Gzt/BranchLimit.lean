import TomitaParser.Gzt.PhraseSearch
/-! # The limit of pending branches

When there are too many pending branches the longest are dropped. The sizes are of 64 bits. -/

namespace TomitaParser.Gzt.SearchTree

variable {branches : List (Branch ArticleBucket)} {goalSize : ℕ}

/-- The loop of `ClearLongestBranches`. -/
def dropLoop (branches : List (Branch ArticleBucket)) (goalSize : ℕ) : ℕ → ℕ × ℕ → Option (ℕ × ℕ)
  | 0, _ => none
  | fuel + 1, (dropLen, dropCount) =>
    if (goalSize + dropCount) % 2 ^ 64 < branches.length then
      dropLoop branches goalSize fuel (dropLen / 2, countFrom branches (dropLen / 2))
    else some (dropLen, dropCount)

/-- `ClearLongestBranches` as far as the fuel lasts. -/
def runClearLongestBranches (fuel : ℕ) (branches : List (Branch ArticleBucket)) (goalSize : ℕ) :
    Option (List (Branch ArticleBucket)) :=
  (dropLoop branches goalSize fuel (longest branches)).map fun drop =>
    keepShort drop.1 (goalSize - (branches.length - drop.2)) branches

theorem countFrom_le (branches : List (Branch ArticleBucket)) (dropLen : ℕ) :
    countFrom branches dropLen ≤ branches.length := List.countP_le_length

theorem countFrom_zero (branches : List (Branch ArticleBucket)) :
    countFrom branches 0 = branches.length := by
  rw [countFrom, List.countP_eq_length]
  intro b _
  simp

theorem countFrom_append (before : List (Branch ArticleBucket)) (b : Branch ArticleBucket)
    (dropLen : ℕ) : countFrom (before ++ [b]) dropLen =
      countFrom before dropLen + if dropLen ≤ b.length then 1 else 0 := by
  rw [countFrom, countFrom, List.countP_append, List.countP_singleton]
  simp

/-- No branch is longer than the longest, and those as long have been counted. -/
theorem longest_spec (branches : List (Branch ArticleBucket)) :
    (∀ b ∈ branches, b.length ≤ (longest branches).1) ∧
      (longest branches).2 = countFrom branches (longest branches).1 := by
  induction branches using List.reverseRecOn with
  | nil => exact ⟨by simp, rfl⟩
  | append_singleton before b ih =>
    obtain ⟨hmax, hcount⟩ := ih
    have hstep : longest (before ++ [b]) =
        if (longest before).1 < b.length then (b.length, 1)
        else if b.length = (longest before).1 then ((longest before).1, (longest before).2 + 1)
        else longest before := by
      rw [longest, List.foldl_append]
      rfl
    rw [hstep]
    by_cases hlonger : (longest before).1 < b.length
    · rw [if_pos hlonger]
      have hzero : countFrom before b.length = 0 := by
        rw [countFrom, List.countP_eq_zero]
        intro c hc
        have := hmax c hc
        simp only [decide_eq_true_eq]
        omega
      refine ⟨?_, ?_⟩
      · intro c hc
        rcases List.mem_append.mp hc with hc | hc
        · exact (hmax c hc).trans hlonger.le
        · rw [List.mem_singleton.mp hc]
      · rw [countFrom_append, hzero, if_pos (le_refl _)]
    · rw [if_neg hlonger]
      have hall : ∀ c ∈ before ++ [b], c.length ≤ (longest before).1 := by
        intro c hc
        rcases List.mem_append.mp hc with hc | hc
        · exact hmax c hc
        · rw [List.mem_singleton.mp hc]
          omega
      by_cases hsame : b.length = (longest before).1
      · rw [if_pos hsame]
        refine ⟨hall, ?_⟩
        rw [countFrom_append, if_pos (by omega), hcount]
      · rw [if_neg hsame]
        refine ⟨hall, ?_⟩
        rw [countFrom_append, if_neg (by omega), hcount, Nat.add_zero]

/-- The branches from a length on are counted, and the others are few enough. -/
structure DropsFrom (branches : List (Branch ArticleBucket)) (goalSize : ℕ) (drop : ℕ × ℕ) :
    Prop where
  count : drop.2 = countFrom branches drop.1
  enough : branches.length ≤ goalSize + drop.2

/-- The loop ends, with the same bound whatever the fuel. -/
theorem dropLoop_ends (hsize : goalSize + branches.length < 2 ^ 64) (dropLen dropCount : ℕ)
    (hcount : dropCount = countFrom branches dropLen) :
    DropsFrom branches goalSize (dropFrom branches goalSize dropLen dropCount) ∧
      ∀ fuel, dropLen < fuel → dropLoop branches goalSize fuel (dropLen, dropCount) =
        some (dropFrom branches goalSize dropLen dropCount) := by
  induction dropLen using Nat.strong_induction_on generalizing dropCount with
  | _ dropLen ih =>
    have hle := countFrom_le branches dropLen
    have hmod : (goalSize + dropCount) % 2 ^ 64 = goalSize + dropCount :=
      Nat.mod_eq_of_lt (by omega)
    rw [dropFrom]
    by_cases hmore : goalSize + dropCount < branches.length
    · have hpos : dropLen ≠ 0 := by
        rintro rfl
        rw [countFrom_zero] at hcount
        omega
      have hhalf : dropLen / 2 < dropLen := Nat.div_lt_self (Nat.pos_of_ne_zero hpos) (by omega)
      obtain ⟨hdrops, hruns⟩ := ih (dropLen / 2) hhalf (countFrom branches (dropLen / 2)) rfl
      rw [dif_pos ⟨hmore, hpos⟩]
      refine ⟨hdrops, ?_⟩
      intro fuel hfuel
      cases fuel with
      | zero => omega
      | succ fuel =>
        rw [dropLoop, hmod, if_pos hmore]
        exact hruns fuel (by omega)
    · rw [dif_neg (fun h => hmore h.1)]
      refine ⟨⟨hcount, by omega⟩, ?_⟩
      intro fuel hfuel
      cases fuel with
      | zero => omega
      | succ fuel => rw [dropLoop, hmod, if_neg hmore]

theorem keepShort_short {dropLen : ℕ} {b : Branch ArticleBucket} (h : ¬ dropLen ≤ b.length)
    (survive : ℕ) (rest : List (Branch ArticleBucket)) :
    keepShort dropLen survive (b :: rest) = b :: keepShort dropLen survive rest := by
  cases survive with
  | zero => rw [keepShort, if_neg h]
  | succ survive => rw [keepShort, if_neg h]

theorem length_keepShort (dropLen survive : ℕ) (branches : List (Branch ArticleBucket)) :
    (keepShort dropLen survive branches).length =
      branches.length - countFrom branches dropLen + min survive (countFrom branches dropLen) := by
  induction branches generalizing survive with
  | nil => simp [keepShort, countFrom]
  | cons b rest ih =>
    have hle := countFrom_le rest dropLen
    have hcons : countFrom (b :: rest) dropLen =
        countFrom rest dropLen + if dropLen ≤ b.length then 1 else 0 := by
      simp [countFrom, List.countP_cons]
    rw [hcons, List.length_cons]
    by_cases hlong : dropLen ≤ b.length
    · rw [if_pos hlong]
      cases survive with
      | zero =>
        rw [keepShort, if_pos hlong, ih]
        omega
      | succ survive =>
        rw [keepShort, if_pos hlong, List.length_cons, ih]
        omega
    · rw [keepShort_short hlong, if_neg hlong, List.length_cons, ih]
      omega

/-- The places of the branches that stay. -/
structure Keeps (branches kept : List (Branch ArticleBucket)) (dropLen : ℕ) (places : List ℕ) :
    Prop where
  increasing : places.Pairwise (· < ·)
  kept : places.map (branches[·]?) = kept.map some
  dropped : ∀ (i : ℕ) (b : Branch ArticleBucket), branches[i]? = some b → i ∉ places →
    dropLen ≤ b.length

theorem Keeps.skip {rest kept : List (Branch ArticleBucket)} {dropLen : ℕ} {places : List ℕ}
    (h : Keeps rest kept dropLen places) {b : Branch ArticleBucket} (hb : dropLen ≤ b.length) :
    Keeps (b :: rest) kept dropLen (places.map (· + 1)) where
  increasing := by
    rw [List.pairwise_map]
    exact h.increasing.imp fun hlt => by omega
  kept := by
    rw [List.map_map, ← h.kept]
    rfl
  dropped i c hc hi := by
    cases i with
    | zero =>
      rw [List.getElem?_cons_zero, Option.some.injEq] at hc
      rwa [← hc]
    | succ i =>
      rw [List.getElem?_cons_succ] at hc
      exact h.dropped i c hc fun hmem => hi (List.mem_map.mpr ⟨i, hmem, rfl⟩)

theorem Keeps.take {rest kept : List (Branch ArticleBucket)} {dropLen : ℕ} {places : List ℕ}
    (h : Keeps rest kept dropLen places) (b : Branch ArticleBucket) :
    Keeps (b :: rest) (b :: kept) dropLen (0 :: places.map (· + 1)) where
  increasing := by
    rw [List.pairwise_cons, List.pairwise_map]
    refine ⟨?_, h.increasing.imp fun hlt => by omega⟩
    intro i hi
    obtain ⟨j, -, rfl⟩ := List.mem_map.mp hi
    omega
  kept := by
    rw [List.map_cons, List.map_map, List.map_cons, ← h.kept]
    rfl
  dropped i c hc hi := by
    cases i with
    | zero => exact absurd List.mem_cons_self hi
    | succ i =>
      rw [List.getElem?_cons_succ] at hc
      refine h.dropped i c hc fun hmem => hi ?_
      exact List.mem_cons_of_mem 0 (List.mem_map.mpr ⟨i, hmem, rfl⟩)

theorem keepShort_keeps (dropLen survive : ℕ) (branches : List (Branch ArticleBucket)) :
    ∃ places, Keeps branches (keepShort dropLen survive branches) dropLen places := by
  induction branches generalizing survive with
  | nil => exact ⟨[], List.Pairwise.nil, rfl, by simp⟩
  | cons b rest ih =>
    by_cases hlong : dropLen ≤ b.length
    · cases survive with
      | zero =>
        obtain ⟨places, hplaces⟩ := ih 0
        rw [keepShort, if_pos hlong]
        exact ⟨_, hplaces.skip hlong⟩
      | succ survive =>
        obtain ⟨places, hplaces⟩ := ih survive
        rw [keepShort, if_pos hlong]
        exact ⟨_, hplaces.take b⟩
    · rw [keepShort_short hlong]
      obtain ⟨places, hplaces⟩ := ih survive
      exact ⟨_, hplaces.take b⟩

theorem dropsFrom_clear (hsize : goalSize + branches.length < 2 ^ 64) :
    DropsFrom branches goalSize
        (dropFrom branches goalSize (longest branches).1 (longest branches).2) ∧
      ∀ fuel, (longest branches).1 < fuel → runClearLongestBranches fuel branches goalSize =
        some (clearLongestBranches branches goalSize) := by
  obtain ⟨hdrops, hruns⟩ := dropLoop_ends hsize _ _ (longest_spec branches).2
  refine ⟨hdrops, ?_⟩
  intro fuel hfuel
  rw [runClearLongestBranches, hruns fuel hfuel]
  rfl

theorem length_clearLongestBranches (hsize : goalSize + branches.length < 2 ^ 64) :
    (clearLongestBranches branches goalSize).length = min goalSize branches.length := by
  obtain ⟨hdrops, -⟩ := dropsFrom_clear hsize
  have hle := countFrom_le branches (dropFrom branches goalSize (longest branches).1
    (longest branches).2).1
  rw [clearLongestBranches, length_keepShort]
  have hcount := hdrops.count
  have henough := hdrops.enough
  omega

/-- What `AddNextStateNewBranch` is called with. -/
structure NewBranch where
  parent : Branch ArticleBucket
  tails : Trie ArticleBucket
  word : InputWord

def addNew (t : SearchTree) (new : NewBranch) : SearchTree :=
  t.addNextStateNewBranch new.parent new.tails new.word

theorem length_addNew {t : SearchTree} (h : t.nextBranches.length ≤ maxBranches + 1)
    (new : NewBranch) : (t.addNew new).nextBranches.length ≤ maxBranches + 1 := by
  rw [addNew, addNextStateNewBranch]
  dsimp only
  rw [List.length_append, List.length_singleton]
  by_cases hmany : maxBranches < t.nextBranches.length
  · have hmax : maxBranches = 10000 := rfl
    have hlength := @length_clearLongestBranches t.nextBranches (maxBranches / 10) (by omega)
    rw [if_pos hmany, hlength]
    omega
  · rw [if_neg hmany]
    omega

theorem length_foldl_addNew (calls : List NewBranch) {t : SearchTree}
    (h : t.nextBranches.length ≤ maxBranches + 1) :
    (calls.foldl addNew t).nextBranches.length ≤ maxBranches + 1 := by
  induction calls generalizing t with
  | nil => exact h
  | cons new calls ih => exact ih (length_addNew h new)

/-- The length at which the halving ends: branches that are not shorter may be dropped. -/
def dropLength (branches : List (Branch ArticleBucket)) (goalSize : ℕ) : ℕ :=
  (dropFrom branches goalSize (longest branches).1 (longest branches).2).1

/-- The longest branches are dropped as long as the goal and the number of branches do not overflow
when they are added up, and the pending branches stay within their limit. -/
theorem clearLongestBranches_keepsShort (branches : List (Branch ArticleBucket)) (goalSize : ℕ)
    (hsize : goalSize + branches.length < 2 ^ 64) :
    ∃ (kept : List (Branch ArticleBucket)) (places : List ℕ), (∃ N, ∀ fuel, N ≤ fuel →
        runClearLongestBranches fuel branches goalSize = some kept) ∧
      kept.length = min goalSize branches.length ∧
      places.Pairwise (· < ·) ∧ places.map (branches[·]?) = kept.map some ∧
      (∀ (i : ℕ) (b : Branch ArticleBucket), branches[i]? = some b → i ∉ places →
        dropLength branches goalSize ≤ b.length ∧
          ∀ (j : ℕ) (c : Branch ArticleBucket), branches[j]? = some c →
            c.length < dropLength branches goalSize → j ∈ places) ∧
      ∀ (t : SearchTree) (calls : List NewBranch), t.nextBranches = [] →
        (calls.foldl addNew t).nextBranches.length ≤ maxBranches + 1 := by
  obtain ⟨-, hruns⟩ := dropsFrom_clear hsize
  obtain ⟨places, hplaces⟩ := keepShort_keeps
    (dropFrom branches goalSize (longest branches).1 (longest branches).2).1
    (goalSize - (branches.length -
      (dropFrom branches goalSize (longest branches).1 (longest branches).2).2)) branches
  refine ⟨clearLongestBranches branches goalSize, places,
    ⟨(longest branches).1 + 1, fun fuel hfuel => hruns fuel (by omega)⟩,
    length_clearLongestBranches hsize, hplaces.increasing, hplaces.kept, ?_, ?_⟩
  · intro i b hb hi
    refine ⟨hplaces.dropped i b hb hi, ?_⟩
    intro j c hc hshort
    by_contra hj
    exact absurd (hplaces.dropped j c hc hj) (not_le_of_gt hshort)
  · intro t calls hnone
    exact length_foldl_addNew calls (by rw [hnone]; exact Nat.zero_le _)

def twoBranches : List (Branch ArticleBucket) := [⟨[], []⟩, ⟨[], [⟨{}, 1⟩]⟩]

/-- Of two branches the longer one is dropped. -/
theorem clearLongestBranches_keepsShort_twoBranches :
    ∃ (kept : List (Branch ArticleBucket)) (places : List ℕ), (∃ N, ∀ fuel, N ≤ fuel →
        runClearLongestBranches fuel twoBranches 1 = some kept) ∧
      kept.length = min 1 twoBranches.length ∧
      places.Pairwise (· < ·) ∧ places.map (twoBranches[·]?) = kept.map some ∧
      (∀ (i : ℕ) (b : Branch ArticleBucket), twoBranches[i]? = some b → i ∉ places →
        dropLength twoBranches 1 ≤ b.length ∧
          ∀ (j : ℕ) (c : Branch ArticleBucket), twoBranches[j]? = some c →
            c.length < dropLength twoBranches 1 → j ∈ places) ∧
      ∀ (t : SearchTree) (calls : List NewBranch), t.nextBranches = [] →
        (calls.foldl addNew t).nextBranches.length ≤ maxBranches + 1 :=
  clearLongestBranches_keepsShort twoBranches 1 (by decide)

/-- With a goal of `2 ^ 64 - 1` the sum is zero, and the loop does not end. -/
theorem runClearLongestBranches_overflows :
    ¬ ∃ N kept, ∀ fuel, N ≤ fuel →
      runClearLongestBranches fuel [⟨[], []⟩] (2 ^ 64 - 1) = some kept := by
  have hloop : ∀ fuel, dropLoop [⟨[], []⟩] (2 ^ 64 - 1) fuel (0, 1) = none := by
    intro fuel
    induction fuel with
    | zero => rfl
    | succ fuel ih =>
      rw [dropLoop, if_pos (by decide)]
      exact ih
  intro hends
  obtain ⟨N, kept, hruns⟩ := hends
  have hnone : runClearLongestBranches N [⟨[], []⟩] (2 ^ 64 - 1) = none :=
    congrArg (Option.map _) (hloop N)
  rw [hruns N (le_refl N)] at hnone
  cases hnone

end TomitaParser.Gzt.SearchTree
