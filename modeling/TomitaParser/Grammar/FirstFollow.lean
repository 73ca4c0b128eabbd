import TomitaParser.Grammar.WorkGrammar
import TomitaParser.Lib.Saturate
/-! # FIRST and FOLLOW sets -/

namespace TomitaParser
open OrderedSet Saturation

namespace WorkGrammar

/-- What a symbol can start with, given the FIRST sets: a terminal starts itself. -/
def firstOf (G : WorkGrammar) (firstSets : Family ℕ) (symbol : ℕ) : List ℕ :=
  if G.isMeta symbol then firstSets.get symbol else [symbol]

/-- The part of `Build_FIRST_Set` that handles one rule. -/
def firstCommand (G : WorkGrammar) (R : WorkRule) : Command ℕ where
  target := R.leftPart
  source F :=
    match R.rightPart.items with
    | [] => []
    | symbol :: _ => G.firstOf F symbol

def buildFirstSet (G : WorkGrammar) : Family ℕ :=
  (saturate natLt (G.encodedRules.map G.firstCommand) (G.symbolCount * G.symbolCount + 1)
    (List.replicate G.symbolCount [])).2

/-- The part of `Build_FOLLOW_Set` that handles one rule: each symbol is followed by what the next
one starts with, and the last one by what follows the left part. -/
def followCommands (G : WorkGrammar) (firstSets : Family ℕ) (R : WorkRule) : List (Command ℕ) :=
  (R.rightPart.items.zip R.rightPart.items.tail).map
      (fun p => ⟨p.1, fun _ => G.firstOf firstSets p.2⟩) ++
    match R.rightPart.items.getLast? with
    | none => []
    | some symbol => if G.isMeta symbol then [⟨symbol, fun F => F.get R.leftPart⟩] else []

def buildFollowSet (G : WorkGrammar) : Family ℕ :=
  (saturate natLt (G.encodedRules.flatMap (G.followCommands G.buildFirstSet))
    (G.symbolCount * G.symbolCount + 1) (List.replicate G.symbolCount [])).2

private theorem bounded_range {n : ℕ} {cmds : List (Command ℕ)} (htarget : ∀ c ∈ cmds, c.target < n)
    (hsource : ∀ c ∈ cmds, ∀ F : Family ℕ, (∀ j, ∀ x ∈ F.get j, x < n) → ∀ x ∈ c.source F, x < n) :
    Bounded n (Finset.range n) cmds := by
  refine ⟨htarget, fun c hc F hF x hx => Finset.mem_range.mpr ?_⟩
  exact hsource c hc F (fun j y hy => Finset.mem_range.mp (hF j y hy)) x hx

theorem saturated_of_bounded {n : ℕ} {cmds : List (Command ℕ)}
    (h : Bounded n (Finset.range n) cmds) :
    Saturated n (Finset.range n) cmds (saturate natLt cmds (n * n + 1) (List.replicate n [])) := by
  refine saturate_replicate_nil (fun _ _ => natLt_ext) h ?_
  rw [Finset.card_range]
  exact Nat.lt_succ_self _

variable {G : WorkGrammar}

theorem firstOf_lt {F : Family ℕ} (hF : ∀ j, ∀ x ∈ F.get j, x < G.symbolCount) {s : ℕ}
    (hs : s < G.symbolCount) : ∀ x ∈ G.firstOf F s, x < G.symbolCount := by
  intro x hx
  unfold firstOf at hx
  split_ifs at hx
  · exact hF s x hx
  · rw [List.mem_singleton.mp hx]
    exact hs

theorem firstCommands_bounded (hG : G.Encoded) :
    Bounded G.symbolCount (Finset.range G.symbolCount) (G.encodedRules.map G.firstCommand) := by
  refine bounded_range ?_ ?_
  · intro c hc
    obtain ⟨R, hR, rfl⟩ := List.mem_map.mp hc
    exact hG.left_lt R hR
  · intro c hc F hF x hx
    obtain ⟨R, hR, rfl⟩ := List.mem_map.mp hc
    simp only [firstCommand] at hx
    cases hitems : R.rightPart.items with
    | nil =>
      rw [hitems] at hx
      exact absurd hx List.not_mem_nil
    | cons s rest =>
      rw [hitems] at hx
      refine firstOf_lt hF (hG.right_lt R hR s ?_) x hx
      rw [hitems]
      exact List.mem_cons_self

theorem buildFirstSet_saturated (hG : G.Encoded) :
    Closed (G.encodedRules.map G.firstCommand) G.buildFirstSet ∧
      ∀ j, ∀ x ∈ G.buildFirstSet.get j, x < G.symbolCount := by
  have h := saturated_of_bounded (firstCommands_bounded hG)
  exact ⟨h.closed, fun j x hx => Finset.mem_range.mp (h.mem j x hx)⟩

theorem mem_buildFirstSet (hG : G.Encoded) {R : WorkRule} (hR : R ∈ G.encodedRules) {b : ℕ}
    {rest : List ℕ} (hitems : R.rightPart.items = b :: rest) {a : ℕ}
    (ha : a ∈ G.firstOf G.buildFirstSet b) : a ∈ G.buildFirstSet.get R.leftPart := by
  have h := (buildFirstSet_saturated hG).1 (G.firstCommand R) (List.mem_map_of_mem hR) a
  simp only [firstCommand, hitems] at h
  exact h ha

theorem followCommands_bounded (hG : G.Encoded) :
    Bounded G.symbolCount (Finset.range G.symbolCount)
      (G.encodedRules.flatMap (G.followCommands G.buildFirstSet)) := by
  have hfirst := (buildFirstSet_saturated hG).2
  refine bounded_range ?_ ?_
  · intro c hc
    obtain ⟨R, hR, hc⟩ := List.mem_flatMap.mp hc
    rcases List.mem_append.mp hc with hc | hc
    · obtain ⟨p, hp, rfl⟩ := List.mem_map.mp hc
      exact hG.right_lt R hR _ (List.of_mem_zip hp).1
    · split at hc
      · exact absurd hc List.not_mem_nil
      · rename_i s hs
        split_ifs at hc
        · rw [List.mem_singleton.mp hc]
          exact hG.right_lt R hR s (List.mem_of_getLast? hs)
        · exact absurd hc List.not_mem_nil
  · intro c hc F hF x hx
    obtain ⟨R, hR, hc⟩ := List.mem_flatMap.mp hc
    rcases List.mem_append.mp hc with hc | hc
    · obtain ⟨p, hp, rfl⟩ := List.mem_map.mp hc
      have hmem := List.mem_of_mem_tail (List.of_mem_zip hp).2
      exact firstOf_lt hfirst (hG.right_lt R hR _ hmem) x hx
    · split at hc
      · exact absurd hc List.not_mem_nil
      · split_ifs at hc
        · rw [List.mem_singleton.mp hc] at hx
          exact hF _ x hx
        · exact absurd hc List.not_mem_nil

theorem buildFollowSet_saturated (hG : G.Encoded) :
    Closed (G.encodedRules.flatMap (G.followCommands G.buildFirstSet)) G.buildFollowSet ∧
      ∀ j, ∀ x ∈ G.buildFollowSet.get j, x < G.symbolCount := by
  have h := saturated_of_bounded (followCommands_bounded hG)
  exact ⟨h.closed, fun j x hx => Finset.mem_range.mp (h.mem j x hx)⟩

theorem mem_buildFollowSet_of_next (hG : G.Encoded) {R : WorkRule} (hR : R ∈ G.encodedRules)
    {α β : List ℕ} {B b : ℕ} (hitems : R.rightPart.items = α ++ B :: b :: β) {a : ℕ}
    (ha : a ∈ G.firstOf G.buildFirstSet b) : a ∈ G.buildFollowSet.get B := by
  have hzip : (B, b) ∈ R.rightPart.items.zip R.rightPart.items.tail := by
    rw [hitems]
    clear hitems
    induction α with
    | nil => exact List.mem_cons_self
    | cons c α ih =>
      cases α with
      | nil => exact List.mem_cons_of_mem _ ih
      | cons d α => exact List.mem_cons_of_mem _ ih
  have hmem : (⟨B, fun _ => G.firstOf G.buildFirstSet b⟩ : Command ℕ) ∈
      G.encodedRules.flatMap (G.followCommands G.buildFirstSet) := by
    refine List.mem_flatMap.mpr ⟨R, hR, List.mem_append.mpr (Or.inl ?_)⟩
    exact List.mem_map.mpr ⟨(B, b), hzip, rfl⟩
  exact (buildFollowSet_saturated hG).1 _ hmem a ha

theorem mem_buildFollowSet_of_last (hG : G.Encoded) {R : WorkRule} (hR : R ∈ G.encodedRules)
    {α : List ℕ} {B : ℕ} (hitems : R.rightPart.items = α ++ [B]) (hB : G.isMeta B = true) {a : ℕ}
    (ha : a ∈ G.buildFollowSet.get R.leftPart) : a ∈ G.buildFollowSet.get B := by
  have hmem : (⟨B, fun F => F.get R.leftPart⟩ : Command ℕ) ∈
      G.encodedRules.flatMap (G.followCommands G.buildFirstSet) := by
    refine List.mem_flatMap.mpr ⟨R, hR, List.mem_append.mpr (Or.inr ?_)⟩
    rw [hitems, List.getLast?_concat]
    simp [hB]
  exact (buildFollowSet_saturated hG).1 _ hmem a ha

end WorkGrammar
end TomitaParser
