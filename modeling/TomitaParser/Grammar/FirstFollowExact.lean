import Mathlib.Order.Bounds.Defs
import Mathlib.Data.Set.Lattice
import TomitaParser.Grammar.FirstFollow
import TomitaParser.Lib.LeadingSymbols
/-! # What the FIRST and FOLLOW sets contain -/

namespace TomitaParser
open OrderedSet Saturation LoopRun Cfg

namespace WorkGrammar

/-- A family of sets closed under the leading-symbol rule. -/
def FirstClosed (G : WorkGrammar) (F : ℕ → Set ℕ) : Prop :=
  ∀ R ∈ G.encodedRules, ∀ Y rest, R.rightPart.items = Y :: rest →
    if G.isMeta Y then F Y ⊆ F R.leftPart else Y ∈ F R.leftPart

/-- Some sentential form of a left part has `X` right before a string that starts with `a`. -/
def FollowedBy (G : WorkGrammar) (X a : ℕ) : Prop :=
  ∃ R ∈ G.encodedRules, ∃ pre β, Derives G.Production [R.leftPart] (pre ++ X :: β) ∧
    StartsWith G.Production β a

/-- Some right part has `X` right before a string that starts with `a`. -/
def FollowedInRule (G : WorkGrammar) (X a : ℕ) : Prop :=
  ∃ R ∈ G.encodedRules, ∃ pre β, R.rightPart.items = pre ++ X :: β ∧
    StartsWith G.Production β a

variable {G : WorkGrammar}

private theorem production_ne (hne : ∀ R ∈ G.encodedRules, R.rightPart.items ≠ []) :
    ∀ A rhs, G.Production A rhs → rhs ≠ [] := by
  rintro A rhs ⟨R, hR, _, rfl⟩
  exact hne R hR

theorem buildFirstSet_ends (hG : G.Encoded) :
    EndsAt (passStep natLt (G.encodedRules.map G.firstCommand)) (List.replicate G.symbolCount [])
      G.buildFirstSet := by
  apply endsAt_of_done
  exact (saturated_of_bounded (firstCommands_bounded hG)).done

theorem buildFirstSet_forall {Q : ℕ → ℕ → Prop}
    (hrule : ∀ R ∈ G.encodedRules, ∀ b rest, R.rightPart.items = b :: rest → ∀ F : Family ℕ,
      (∀ j, ∀ x ∈ F.get j, Q j x) → ∀ x ∈ G.firstOf F b, Q R.leftPart x) :
    ∀ j, ∀ x ∈ G.buildFirstSet.get j, Q j x := by
  apply saturate_forall (Q := Q) (fun _ _ => natLt_ext)
  · intro c hc F hF x hx
    obtain ⟨R, hR, rfl⟩ := List.mem_map.mp hc
    cases hitems : R.rightPart.items with
    | nil =>
      simp only [firstCommand, hitems] at hx
      exact absurd hx List.not_mem_nil
    | cons b rest =>
      simp only [firstCommand, hitems] at hx ⊢
      exact hrule R hR b rest hitems F hF x hx
  · intro j x hx
    rw [get_replicate_nil] at hx
    exact absurd hx List.not_mem_nil

theorem startsWith_of_mem_firstOf {F : Family ℕ} (hF : ∀ j, ∀ x ∈ F.get j,
    G.isMeta j = true ∧ G.isMeta x = false ∧ StartsWith G.Production [j] x) {b x : ℕ}
    (hx : x ∈ G.firstOf F b) : G.isMeta x = false ∧ StartsWith G.Production [b] x := by
  unfold firstOf at hx
  split_ifs at hx with hb
  · exact (hF b x hx).2
  · rw [List.mem_singleton.mp hx]
    exact ⟨Bool.eq_false_iff.mpr hb, StartsWith.self b []⟩

theorem startsWith_of_mem_buildFirstSet (hG : G.Encoded) :
    ∀ A, ∀ a ∈ G.buildFirstSet.get A,
      G.isMeta A = true ∧ G.isMeta a = false ∧ StartsWith G.Production [A] a := by
  apply buildFirstSet_forall (Q := fun A a =>
    G.isMeta A = true ∧ G.isMeta a = false ∧ StartsWith G.Production [A] a)
  intro R hR b rest hitems F hF x hx
  obtain ⟨hterm, hb⟩ := startsWith_of_mem_firstOf hF hx
  exact ⟨hG.left_meta R hR, hterm, StartsWith.rule ⟨R, hR, rfl, hitems⟩ hb⟩

theorem mem_firstOf_iff (hG : G.Encoded) (hne : ∀ R ∈ G.encodedRules, R.rightPart.items ≠ [])
    {a b : ℕ} : a ∈ G.firstOf G.buildFirstSet b ↔
      G.isMeta a = false ∧ StartsWith G.Production [b] a := by
  constructor
  · exact startsWith_of_mem_firstOf (startsWith_of_mem_buildFirstSet hG)
  · rintro ⟨hterm, h⟩
    apply @StartsWith.induction ℕ G.Production (production_ne hne)
      (fun c => a ∈ G.firstOf G.buildFirstSet c) a _ _ b [] h
    · rw [firstOf, hterm]
      exact List.mem_singleton_self a
    · rintro A c rest ⟨R, hR, rfl, hitems⟩ hc
      rw [firstOf, if_pos (hG.left_meta R hR)]
      exact mem_buildFirstSet hG hR hitems hc

theorem mem_buildFirstSet_iff (hG : G.Encoded)
    (hne : ∀ R ∈ G.encodedRules, R.rightPart.items ≠ []) {A a : ℕ} :
    a ∈ G.buildFirstSet.get A ↔
      G.isMeta A = true ∧ G.isMeta a = false ∧ StartsWith G.Production [A] a := by
  constructor
  · exact startsWith_of_mem_buildFirstSet hG A a
  · rintro ⟨hA, hterm, h⟩
    have hmem := (mem_firstOf_iff hG hne).mpr ⟨hterm, h⟩
    rwa [firstOf, if_pos hA] at hmem

theorem buildFirstSet_isLeast (hG : G.Encoded) :
    IsLeast {F | G.FirstClosed F} (fun A => {a | a ∈ G.buildFirstSet.get A}) := by
  constructor
  · intro R hR Y rest hitems
    by_cases hY : G.isMeta Y = true
    · rw [if_pos hY]
      intro a ha
      apply mem_buildFirstSet hG hR hitems
      rw [firstOf, if_pos hY]
      exact ha
    · rw [if_neg hY]
      apply mem_buildFirstSet hG hR hitems
      rw [firstOf, if_neg hY]
      exact List.mem_singleton_self Y
  · intro F hF A a ha
    apply buildFirstSet_forall (Q := fun A a => a ∈ F A) _ A a ha
    intro R hR b rest hitems F' hF' x hx
    have hclosed := hF R hR b rest hitems
    unfold firstOf at hx
    by_cases hb : G.isMeta b = true
    · rw [if_pos hb] at hx hclosed
      exact hclosed (hF' b x hx)
    · rw [if_neg hb] at hx hclosed
      rw [List.mem_singleton.mp hx]
      exact hclosed

theorem buildFollowSet_ends (hG : G.Encoded) :
    EndsAt (passStep natLt (G.encodedRules.flatMap (G.followCommands G.buildFirstSet)))
      (List.replicate G.symbolCount []) G.buildFollowSet := by
  apply endsAt_of_done
  exact (saturated_of_bounded (followCommands_bounded hG)).done

private theorem mem_zip_tail {l : List ℕ} {X Y : ℕ} (h : (X, Y) ∈ l.zip l.tail) :
    ∃ pre post, l = pre ++ X :: Y :: post := by
  induction l with
  | nil => exact absurd h List.not_mem_nil
  | cons x l ih =>
    cases l with
    | nil => exact absurd h (by simp)
    | cons y l =>
      rcases List.mem_cons.mp h with h | h
      · obtain ⟨rfl, rfl⟩ := Prod.mk.inj h
        exact ⟨[], l, rfl⟩
      · obtain ⟨pre, post, heq⟩ := ih h
        exact ⟨x :: pre, post, by rw [heq, List.cons_append]⟩

private theorem derives_right {R : WorkRule} (hR : R ∈ G.encodedRules) :
    Derives G.Production [R.leftPart] R.rightPart.items := by
  apply Relation.ReflTransGen.single
  have hstep := Produces.rule (P := G.Production) [] [] ⟨R, hR, rfl, rfl⟩
  simpa using hstep

theorem mem_buildFollowSet_of_rule (hG : G.Encoded)
    (hne : ∀ R ∈ G.encodedRules, R.rightPart.items ≠ []) {X a : ℕ} (hterm : G.isMeta a = false)
    (h : G.FollowedInRule X a) : a ∈ G.buildFollowSet.get X := by
  obtain ⟨R, hR, pre, β, hitems, hstarts⟩ := h
  cases β with
  | nil => exact absurd rfl hstarts.ne_nil
  | cons Y post =>
    apply mem_buildFollowSet_of_next hG hR hitems
    exact (mem_firstOf_iff hG hne).mpr ⟨hterm, hstarts.head (production_ne hne)⟩

theorem buildFollowSet_forall (hG : G.Encoded)
    (hne : ∀ R ∈ G.encodedRules, R.rightPart.items ≠ []) {Q : ℕ → ℕ → Prop}
    (hnext : ∀ X a, G.isMeta a = false → G.FollowedInRule X a → Q X a)
    (hlast : ∀ R ∈ G.encodedRules, ∀ init X a, R.rightPart.items = init ++ [X] →
      G.isMeta X = true → Q R.leftPart a → Q X a) :
    ∀ j, ∀ x ∈ G.buildFollowSet.get j, Q j x := by
  apply saturate_forall (Q := Q) (fun _ _ => natLt_ext)
  · intro c hc F hF x hx
    obtain ⟨R, hR, hc⟩ := List.mem_flatMap.mp hc
    rcases List.mem_append.mp hc with hc | hc
    · obtain ⟨⟨X, Y⟩, hp, rfl⟩ := List.mem_map.mp hc
      obtain ⟨pre, post, hitems⟩ := mem_zip_tail hp
      obtain ⟨hterm, hstarts⟩ := (mem_firstOf_iff hG hne).mp hx
      exact hnext X x hterm ⟨R, hR, pre, Y :: post, hitems, hstarts.append post⟩
    · split at hc
      · exact absurd hc List.not_mem_nil
      · rename_i X hX
        split_ifs at hc with hmeta
        · rw [List.mem_singleton.mp hc] at hx ⊢
          obtain ⟨init, hitems⟩ := List.getLast?_eq_some_iff.mp hX
          exact hlast R hR init X x hitems hmeta (hF _ x hx)
        · exact absurd hc List.not_mem_nil
  · intro j x hx
    rw [get_replicate_nil] at hx
    exact absurd hx List.not_mem_nil

theorem followedBy_of_mem_buildFollowSet (hG : G.Encoded)
    (hne : ∀ R ∈ G.encodedRules, R.rightPart.items ≠ []) :
    ∀ X, ∀ a ∈ G.buildFollowSet.get X, G.isMeta a = false ∧ G.FollowedBy X a := by
  apply buildFollowSet_forall (Q := fun X a => G.isMeta a = false ∧ G.FollowedBy X a) hG hne
  · rintro X a hterm ⟨R, hR, pre, β, hitems, hstarts⟩
    refine ⟨hterm, R, hR, pre, β, ?_, hstarts⟩
    rw [← hitems]
    exact derives_right hR
  · rintro R hR init X a hitems _ ⟨hterm, R', hR', pre, β, hform, hstarts⟩
    refine ⟨hterm, R', hR', pre ++ init, β, ?_, hstarts⟩
    have hstep := (derives_right hR).congr pre β
    rw [hitems] at hstep
    simp only [List.append_assoc, List.singleton_append] at hstep hform ⊢
    exact hform.trans hstep

theorem mem_buildFollowSet_of_followedBy (hG : G.Encoded)
    (hne : ∀ R ∈ G.encodedRules, R.rightPart.items ≠ []) {X a : ℕ} (hX : G.isMeta X = true)
    (hterm : G.isMeta a = false) (h : G.FollowedBy X a) : a ∈ G.buildFollowSet.get X := by
  obtain ⟨R, hR, pre, β, hform, hstarts⟩ := h
  cases β with
  | nil => exact absurd rfl hstarts.ne_nil
  | cons Y post =>
    have hfirst := (mem_firstOf_iff hG hne).mpr ⟨hterm, hstarts.head (production_ne hne)⟩
    apply @Adjacent.of_derives ℕ G.Production (production_ne hne)
      (fun X Y => G.isMeta X = true → ∀ a ∈ G.firstOf G.buildFirstSet Y,
        a ∈ G.buildFollowSet.get X) _ _ _ _ _ hform X Y (adjacent_iff.mpr ⟨pre, post, rfl⟩) hX a
      hfirst
    · rintro A rhs X Y ⟨R, hR, _, rfl⟩ hadj _ a ha
      obtain ⟨pre, post, hitems⟩ := adjacent_iff.mp hadj
      exact mem_buildFollowSet_of_next hG hR hitems ha
    · rintro A Y rest X ⟨R, hR, rfl, hitems⟩ ih hX a ha
      apply ih hX a
      rw [firstOf, if_pos (hG.left_meta R hR)]
      exact mem_buildFirstSet hG hR hitems ha
    · rintro A X init Y ⟨R, hR, rfl, hitems⟩ ih hX a ha
      exact mem_buildFollowSet_of_last hG hR hitems hX (ih (hG.left_meta R hR) a ha)

theorem followedInRule_of_mem_buildFollowSet (hG : G.Encoded)
    (hne : ∀ R ∈ G.encodedRules, R.rightPart.items ≠ []) {X a : ℕ} (hX : G.isMeta X = false)
    (ha : a ∈ G.buildFollowSet.get X) : G.FollowedInRule X a := by
  apply buildFollowSet_forall (Q := fun X a => G.isMeta X = false → G.FollowedInRule X a)
    hG hne _ _ X a ha hX
  · intro X a _ h _
    exact h
  · intro R _ init X a _ hmeta _ hX
    rw [hmeta] at hX
    cases hX

/-- What the FIRST and FOLLOW sets of a grammar with the given root contain. -/
structure FirstFollowExact (G : WorkGrammar) (root : ℕ) : Prop where
  first_ends : EndsAt (passStep natLt (G.encodedRules.map G.firstCommand))
    (List.replicate G.symbolCount []) G.buildFirstSet
  first_least : IsLeast {F | G.FirstClosed F} (fun A => {a | a ∈ G.buildFirstSet.get A})
  first_mem : ∀ A a, a ∈ G.buildFirstSet.get A ↔
    G.isMeta A = true ∧ G.isMeta a = false ∧ StartsWith G.Production [A] a
  follow_ends : EndsAt (passStep natLt (G.encodedRules.flatMap
    (G.followCommands G.buildFirstSet))) (List.replicate G.symbolCount []) G.buildFollowSet
  follow_mem : ∀ X, G.isMeta X = true → ∀ a, a ∈ G.buildFollowSet.get X ↔
    G.isMeta a = false ∧ G.FollowedBy X a
  follow_terminal : ∀ X, G.isMeta X = false → ∀ a, a ∈ G.buildFollowSet.get X ↔
    G.isMeta a = false ∧ G.FollowedInRule X a
  follow_root : G.getEndOfStreamSymbol ∈ G.buildFollowSet.get root

theorem augmented_firstFollowExact (G : WorkGrammar) (ruleNo : ℕ) (hG : G.Encoded)
    (hne : ∀ R ∈ G.encodedRules, R.rightPart.items ≠ []) (hroot : G.getCountOfRoots = 1) :
    FirstFollowExact (G.augmented ruleNo) G.rootIndex := by
  have hA : (G.augmented ruleNo).Encoded := hG.augmented hroot
  have hneA : ∀ R ∈ (G.augmented ruleNo).encodedRules, R.rightPart.items ≠ [] := by
    intro R hR
    rcases (mem_augmented_rules hG).mp hR with rfl | hR
    · simp [newRootRule]
    · exact hne R hR
  refine ⟨buildFirstSet_ends hA, buildFirstSet_isLeast hA, fun A a => mem_buildFirstSet_iff hA hneA,
    buildFollowSet_ends hA, ?_, ?_, ?_⟩
  · intro X hX a
    constructor
    · exact followedBy_of_mem_buildFollowSet hA hneA X a
    · rintro ⟨hterm, h⟩
      exact mem_buildFollowSet_of_followedBy hA hneA hX hterm h
  · intro X hX a
    constructor
    · intro ha
      exact ⟨(followedBy_of_mem_buildFollowSet hA hneA X a ha).1,
        followedInRule_of_mem_buildFollowSet hA hneA hX ha⟩
    · rintro ⟨hterm, h⟩
      exact mem_buildFollowSet_of_rule hA hneA hterm h
  · apply mem_buildFollowSet_of_rule hA hneA
    · rw [augmented_getEndOfStreamSymbol]
      exact G.augmented_isMeta_endOfStream ruleNo
    · refine ⟨G.newRootRule ruleNo, (mem_augmented_rules hG).mpr (Or.inl rfl), [],
        [G.symbolCount], rfl, ?_⟩
      rw [augmented_getEndOfStreamSymbol]
      exact StartsWith.self _ []

/-- The grammar with the rules `S → A b` and `A → x`. -/
def innerTerminal : WorkGrammar where
  uniqueGrammarItems := [{ type := .siMeta, itemStrId := "S" },
    { type := .siMeta, itemStrId := "A", grammarRoot := false },
    { type := .siString, itemStrId := "x", grammarRoot := false },
    { type := .siString, itemStrId := "b", grammarRoot := false }]
  encodedRules := [⟨0, 1, ⟨[2], 0⟩⟩, ⟨1, 0, ⟨[1, 3], 0⟩⟩]

theorem augmented_firstFollowExact_innerTerminal :
    FirstFollowExact (innerTerminal.augmented 2) innerTerminal.rootIndex :=
  augmented_firstFollowExact innerTerminal 2 ⟨by decide, by decide, by decide⟩ (by decide)
    (by decide)

/-- `x` ends the right part of `A`: the `b` after it in the sentential form `x b` of `S` is not in
its FOLLOW set. -/
theorem follow_misses_innerTerminal :
    innerTerminal.Encoded ∧ (∀ R ∈ innerTerminal.encodedRules, R.rightPart.items ≠ []) ∧
      innerTerminal.getCountOfRoots = 1 ∧ (innerTerminal.augmented 2).isMeta 3 = false ∧
      (innerTerminal.augmented 2).FollowedBy 2 3 ∧
      3 ∉ (innerTerminal.augmented 2).buildFollowSet.get 2 := by
  refine ⟨⟨by decide, by decide, by decide⟩, by decide, by decide, by decide, ?_, by decide⟩
  refine ⟨⟨1, 0, ⟨[1, 3], 0⟩⟩, by decide, [], [3], ?_, StartsWith.self 3 []⟩
  have hS := derives_right (G := innerTerminal.augmented 2) (R := ⟨1, 0, ⟨[1, 3], 0⟩⟩) (by decide)
  have hA := derives_right (G := innerTerminal.augmented 2) (R := ⟨0, 1, ⟨[2], 0⟩⟩) (by decide)
  exact hS.trans (hA.congr [] [3])

end WorkGrammar
end TomitaParser
