import Mathlib.Data.Finset.Image
import TomitaParser.Grammar.FirstFollow
/-! # Prefixes of the grammar root

`Build_FIRST_Set_k`: the terminal sequences of length at most `k` that the symbols can start with,
and the slot `m_RootPrefixes` that is made of those of the root symbols. -/

namespace TomitaParser
open OrderedSet Saturation Cfg

/-- The order of prefixes. -/
def prefixLt (a b : List ℕ) : Bool := decide (a < b)

theorem prefixLt_separates : Separates prefixLt := by
  intro a b h
  simp only [Equivalent, prefixLt, decide_eq_false_iff_not, not_lt] at h
  exact le_antisymm h.1 h.2

/-- A prefix shorter than `k` is continued by an addition, up to the length `k`. -/
def updatedPrefix (k : ℕ) (addition pre : List ℕ) : List ℕ :=
  if pre.length < k then pre ++ addition.take (k - pre.length) else pre

namespace WorkGrammar

/-- What a symbol adds to a prefix, given the sets so far. -/
def prefixAdditions (G : WorkGrammar) (firstK : Family (List ℕ)) (symbol : ℕ) : List (List ℕ) :=
  if G.isMeta symbol then firstK.get symbol else [[symbol]]

/-- The cycle through a right part; a symbol without additions leaves no prefix. -/
def rulePrefixes (G : WorkGrammar) (k : ℕ) (firstK : Family (List ℕ)) :
    List ℕ → List (List ℕ) → List (List ℕ)
  | [], result => result
  | symbol :: rest, result =>
    let additions := G.prefixAdditions firstK symbol
    if additions.isEmpty then []
    else G.rulePrefixes k firstK rest
      (insertAll prefixLt (additions.flatMap fun a => result.map (updatedPrefix k a)) [])

def firstKCommand (G : WorkGrammar) (k : ℕ) (R : WorkRule) : Command (List ℕ) where
  target := R.leftPart
  source F := G.rulePrefixes k F (R.rightPart.items.take k) [[]]

/-- The sets `First_k`, and whether the last pass changed nothing. -/
def firstKSets (G : WorkGrammar) (k : ℕ) : Bool × Family (List ℕ) :=
  saturate prefixLt (G.encodedRules.map (G.firstKCommand k))
    (G.symbolCount * (G.symbolCount + 1) ^ k + 1) (List.replicate G.symbolCount [])

/-- The prefixes of the symbols that are marked as roots, each with its symbol. -/
def rootsWithPrefixes (G : WorkGrammar) (k : ℕ) : List (ℕ × List ℕ) :=
  (List.range G.symbolCount).flatMap fun s =>
    if (G.item s).grammarRoot then ((G.firstKSets k).2.get s).map fun p => (s, p) else []

/-- `Build_FIRST_Set_k`, which fills the slot `m_RootPrefixes`: the prefixes of the root symbols are
numbered as they come and kept in the order of rules. -/
def rootPrefixes (G : WorkGrammar) (k : ℕ) : List WorkRule :=
  insertAll WorkRule.lt
    ((G.rootsWithPrefixes k).mapIdx fun ruleId p => ⟨ruleId, p.1, ⟨p.2, 0⟩⟩) []

variable {G : WorkGrammar}

/-- The prefixes of length one over the symbols of the grammar. -/
def singletons (G : WorkGrammar) : Finset (List ℕ) :=
  (Finset.range G.symbolCount).image fun a => [a]

theorem mem_singletons {p : List ℕ} : p ∈ G.singletons ↔ ∃ a, a < G.symbolCount ∧ p = [a] := by
  simp only [singletons, Finset.mem_image, Finset.mem_range]
  constructor
  · rintro ⟨a, ha, rfl⟩
    exact ⟨a, ha, rfl⟩
  · rintro ⟨a, ha, rfl⟩
    exact ⟨a, ha, rfl⟩

theorem prefixAdditions_mem {F : Family (List ℕ)} (hF : ∀ j, ∀ p ∈ F.get j, p ∈ G.singletons)
    {s : ℕ} (hs : s < G.symbolCount) : ∀ p ∈ G.prefixAdditions F s, p ∈ G.singletons := by
  intro p hp
  unfold prefixAdditions at hp
  split_ifs at hp
  · exact hF s p hp
  · rw [List.mem_singleton.mp hp]
    exact mem_singletons.mpr ⟨s, hs, rfl⟩

theorem mem_rulePrefixes_one {F : Family (List ℕ)} (hF : ∀ j, ∀ p ∈ F.get j, p ∈ G.singletons)
    {s : ℕ} (hs : s < G.symbolCount) {p : List ℕ} :
    p ∈ G.rulePrefixes 1 F [s] [[]] ↔ p ∈ G.prefixAdditions F s := by
  have hadd := prefixAdditions_mem hF hs
  have hkeep : (G.prefixAdditions F s).flatMap (fun a => [[]].map (updatedPrefix 1 a)) =
      G.prefixAdditions F s := by
    have hid : ∀ a ∈ G.prefixAdditions F s, [[]].map (updatedPrefix 1 a) = [a] := by
      intro a ha
      obtain ⟨x, _, rfl⟩ := mem_singletons.mp (hadd a ha)
      rfl
    rw [List.flatMap_congr hid]
    exact List.flatMap_pure_eq_map id _ ▸ List.map_id _
  rw [rulePrefixes]
  split_ifs with hempty
  · rw [List.isEmpty_iff.mp hempty]
  · rw [rulePrefixes, hkeep, mem_insertAll fun a _ b _ => prefixLt_separates a b]
    simp

theorem firstKCommands_bounded (hG : G.WellFormed) :
    Bounded G.symbolCount G.singletons (G.encodedRules.map (G.firstKCommand 1)) := by
  refine ⟨?_, ?_⟩
  · intro c hc
    obtain ⟨R, hR, rfl⟩ := List.mem_map.mp hc
    exact hG.left_lt R hR
  · intro c hc F hF p hp
    obtain ⟨R, hR, rfl⟩ := List.mem_map.mp hc
    simp only [firstKCommand] at hp
    cases hitems : R.rightPart.items with
    | nil => exact absurd hitems (hG.right_ne R hR)
    | cons s rest =>
      have hs : s < G.symbolCount := by
        refine hG.right_lt R hR s ?_
        rw [hitems]
        exact List.mem_cons_self
      rw [hitems, List.take_succ_cons, List.take_zero, mem_rulePrefixes_one hF hs] at hp
      exact prefixAdditions_mem hF hs p hp

theorem firstKSets_saturated (hG : G.WellFormed) :
    Saturated G.symbolCount G.singletons (G.encodedRules.map (G.firstKCommand 1))
      (G.firstKSets 1) := by
  refine saturate_replicate_nil prefixLt_separates (firstKCommands_bounded hG) ?_
  have hcard : G.singletons.card ≤ G.symbolCount := by
    refine Finset.card_image_le.trans ?_
    rw [Finset.card_range]
  have := Nat.mul_le_mul_left G.symbolCount hcard
  rw [pow_one, Nat.mul_add]
  omega

theorem isMeta_of_mem_firstK (hG : G.WellFormed) {k s : ℕ} {p : List ℕ}
    (hp : p ∈ (G.firstKSets k).2.get s) : G.isMeta s = true := by
  by_contra hs
  have hne : ∀ c ∈ G.encodedRules.map (G.firstKCommand k), c.target ≠ s := by
    intro c hc
    obtain ⟨R, hR, rfl⟩ := List.mem_map.mp hc
    rintro rfl
    exact hs (hG.left_meta R hR)
  rw [firstKSets, saturate_get_of_ne hne, get_replicate_nil] at hp
  exact absurd hp List.not_mem_nil

/-- A symbol can start with the terminal `a`, as `First_1` has it. -/
def StartsWith (G : WorkGrammar) (X a : ℕ) : Prop :=
  [a] ∈ G.prefixAdditions (G.firstKSets 1).2 X

theorem startsWith_self {a : ℕ} (ha : G.isMeta a = false) : G.StartsWith a a := by
  simp [StartsWith, prefixAdditions, ha]

theorem StartsWith.rule (hG : G.WellFormed) {R : WorkRule} (hR : R ∈ G.encodedRules) {X : ℕ}
    {rest : List ℕ} (hitems : R.rightPart.items = X :: rest) {a : ℕ} (h : G.StartsWith X a) :
    G.StartsWith R.leftPart a := by
  have hsat := firstKSets_saturated hG
  have hX : X < G.symbolCount := by
    refine hG.right_lt R hR X ?_
    rw [hitems]
    exact List.mem_cons_self
  have hclosed := hsat.closed (G.firstKCommand 1 R) (List.mem_map_of_mem hR) [a]
  simp only [firstKCommand, hitems, List.take_succ_cons, List.take_zero] at hclosed
  rw [StartsWith, prefixAdditions, if_pos (hG.left_meta R hR)]
  exact hclosed ((mem_rulePrefixes_one hsat.mem hX).mpr h)

theorem startsWith_of_yields (hG : G.WellFormed) {u t : List ℕ} (h : Yields G.Production u t)
    (ht : ∀ a ∈ t, G.isMeta a = false) {X : ℕ} (hX : u.head? = some X) :
    ∃ a, t.head? = some a ∧ G.StartsWith X a := by
  induction h generalizing X with
  | nil => cases hX
  | @keep u t a _ ih =>
    obtain rfl : a = X := Option.some.inj hX
    exact ⟨a, rfl, startsWith_self (ht a List.mem_cons_self)⟩
  | @rule A rhs u s t hprod _ _ ih _ =>
    obtain rfl : A = X := Option.some.inj hX
    obtain ⟨R, hR, rfl, rfl⟩ := hprod
    obtain ⟨Y, rest, hitems⟩ := List.exists_cons_of_ne_nil (hG.right_ne R hR)
    obtain ⟨a, ha, hstart⟩ := @ih (fun b hb => ht b (List.mem_append_left t hb)) Y
      (by rw [hitems, List.head?_cons])
    refine ⟨a, ?_, hstart.rule hG hR hitems⟩
    rw [List.head?_append, ha, Option.some_or]

theorem mem_rootsWithPrefixes {k s : ℕ} {p : List ℕ} :
    (s, p) ∈ G.rootsWithPrefixes k ↔ s < G.symbolCount ∧ (G.item s).grammarRoot = true ∧
      p ∈ (G.firstKSets k).2.get s := by
  simp only [rootsWithPrefixes, List.mem_flatMap, List.mem_range]
  constructor
  · rintro ⟨s', hs', hp⟩
    split_ifs at hp with hroot
    · obtain ⟨q, hq, heq⟩ := List.mem_map.mp hp
      cases heq
      exact ⟨hs', hroot, hq⟩
    · exact absurd hp List.not_mem_nil
  · rintro ⟨hs, hroot, hp⟩
    refine ⟨s, hs, ?_⟩
    rw [if_pos hroot]
    exact List.mem_map_of_mem hp

theorem mem_rootPrefixes {k : ℕ} {R : WorkRule} (hR : R ∈ G.rootPrefixes k) :
    (R.leftPart, R.rightPart.items) ∈ G.rootsWithPrefixes k := by
  rcases mem_of_mem_insertAll hR with hmem | hmem
  · obtain ⟨i, hi, rfl⟩ := List.mem_mapIdx.mp hmem
    exact List.getElem_mem hi
  · exact absurd hmem List.not_mem_nil

theorem exists_rootPrefix {k s : ℕ} {p : List ℕ} (h : (s, p) ∈ G.rootsWithPrefixes k) :
    ∃ R ∈ G.rootPrefixes k, R.rightPart.items = p := by
  obtain ⟨i, hi, hget⟩ := List.mem_iff_getElem.mp h
  have hmem : (⟨i, s, ⟨p, 0⟩⟩ : WorkRule) ∈
      (G.rootsWithPrefixes k).mapIdx fun ruleId p => ⟨ruleId, p.1, ⟨p.2, 0⟩⟩ := by
    refine List.mem_mapIdx.mpr ⟨i, hi, ?_⟩
    rw [hget]
  obtain ⟨R, hR, heq | heq⟩ := @exists_equiv_mem_insertAll _ WorkRule.lt _ [] _ hmem
  · exact ⟨R, hR, by rw [heq]⟩
  · exact ⟨R, hR, by rw [← (WorkRule.sides_eq_of_equiv heq).2]⟩

end WorkGrammar
end TomitaParser
