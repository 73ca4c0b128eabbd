import Mathlib.Tactic.Linarith
import Mathlib.Tactic.Positivity
import TomitaParser.Rusie.GroupWeights
/-! # Bounds on the weights of groups

A group of `n` words keeps fewer than `n` agreements of two items, so its weights stay between 0
and 1. -/

namespace TomitaParser.Reduction
open LoopRun Binary64

namespace TWeight

theorem ofDouble_le {w : ℚ} (h₀ : 0 ≤ w) (h₁ : w ≤ 1) : (ofDouble w).value ≤ precision := by
  have hle : toDouble (w * precision) ≤ precision := by
    apply toDouble_le
    · unfold precision
      positivity
    · exact mul_le_of_le_one_left (Nat.cast_nonneg _) h₁
    · unfold precision
      norm_num
  have hfloor : ⌊toDouble (w * precision)⌋₊ ≤ precision := Nat.floor_le_of_le hle
  exact le_trans (Nat.mod_le _ _) hfloor

theorem product_lt {w w' : TWeight} (h : w.value ≤ precision) (h' : w'.value ≤ precision) :
    w.value * w'.value < 2 ^ 64 := by
  calc w.value * w'.value ≤ precision * precision := Nat.mul_le_mul h h'
    _ < 2 ^ 64 := by unfold precision; norm_num

theorem mul_le {w w' : TWeight} (h : w.value ≤ precision) (h' : w'.value ≤ precision) :
    (w.mul w').value ≤ precision := by
  have hprod : w.value * w'.value ≤ precision * precision := Nat.mul_le_mul h h'
  rw [mul, u64_of_lt (product_lt h h')]
  exact Nat.div_le_of_le_mul hprod

theorem mean_le {w₁ w₂ w₃ : TWeight} (h₁ : w₁.value ≤ precision) (h₂ : w₂.value ≤ precision)
    (h₃ : w₃.value ≤ precision) : (mean w₁ w₂ w₃).value ≤ precision := by
  have hsum : u64 (w₁.value + w₂.value + w₃.value) ≤ 3 * precision :=
    le_trans (Nat.mod_le _ _) (by omega)
  exact Nat.div_le_of_le_mul hsum

theorem ratio_le {numerator denominator : ℕ} (h : numerator ≤ denominator) :
    (ratio numerator denominator).value ≤ precision := by
  have hprod : u64 (numerator * precision) ≤ denominator * precision :=
    le_trans (Nat.mod_le _ _) (Nat.mul_le_mul_right _ h)
  exact Nat.div_le_of_le_mul hprod

end TWeight

/-- An agreement of two items, or one that weighs nothing. -/
def Settled (A : CheckedAgreement) : Prop :=
  A.agreementType.agreeItems.length = 2 ∨ getAgreementWeight A = 0

theorem getAgreementWeight_le (A : CheckedAgreement) : getAgreementWeight A ≤ 3 := by
  unfold getAgreementWeight
  split <;> omega

theorem binaryCount_append (xs ys : List CheckedAgreement) :
    binaryCount (xs ++ ys) = binaryCount xs + binaryCount ys := List.countP_append

theorem agreementsFrom_sublist (child : InputItem) :
    child.agreementsFrom.Sublist child.checkedAgrs := by
  rw [InputItem.agreementsFrom]
  split_ifs
  · exact List.Sublist.refl _
  · exact List.nil_sublist _

theorem getRelevantAgrWeight_le {agrs : List CheckedAgreement} (h : ∀ A ∈ agrs, Settled A) :
    getRelevantAgrWeight agrs ≤ 3 * binaryCount agrs := by
  have hfold (weight : ℕ) : agrs.foldl (fun ret A => ret + getAgreementWeight A) weight ≤
      weight + 3 * binaryCount agrs := by
    induction agrs generalizing weight with
    | nil => exact Nat.le_refl weight
    | cons A agrs ih =>
      have hrest := ih (fun B hB => h B (List.mem_cons_of_mem A hB)) (weight + getAgreementWeight A)
      have hcount : binaryCount (A :: agrs) =
          binaryCount agrs + if A.agreementType.agreeItems.length = 2 then 1 else 0 := by
        simp [binaryCount, List.countP_cons]
      rw [List.foldl_cons, hcount]
      rcases h A List.mem_cons_self with hbinary | hzero
      · have hle := getAgreementWeight_le A
        rw [if_pos hbinary]
        omega
      · omega
  have := hfold 0
  unfold getRelevantAgrWeight
  omega

/-- The children that do not depend on the root yet. -/
def SaveState.unmarked (s : SaveState) : ℕ := s.dependOnRoot.count false

/-- What saving agreements changes: every new one of two items marks a child. -/
structure Advance (s s' : SaveState) : Prop where
  length : s'.dependOnRoot.length = s.dependOnRoot.length
  binary : binaryCount s'.checkedAgrs + s'.unmarked = binaryCount s.checkedAgrs + s.unmarked
  unmarked_le : s'.unmarked ≤ s.unmarked
  found : s'.newAgreemsFound = true → s.newAgreemsFound = true ∨ s'.unmarked < s.unmarked
  settled : (∀ A ∈ s.checkedAgrs, Settled A) → ∀ A ∈ s'.checkedAgrs, Settled A

theorem Advance.refl (s : SaveState) : Advance s s where
  length := rfl
  binary := rfl
  unmarked_le := Nat.le_refl _
  found := Or.inl
  settled := id

theorem Advance.trans {s t u : SaveState} (h₁ : Advance s t) (h₂ : Advance t u) : Advance s u where
  length := h₂.length.trans h₁.length
  binary := h₂.binary.trans h₁.binary
  unmarked_le := h₂.unmarked_le.trans h₁.unmarked_le
  found := by
    intro hu
    have hle := h₁.unmarked_le
    have hle' := h₂.unmarked_le
    rcases h₂.found hu with ht | hlt
    · rcases h₁.found ht with hs | hlt
      · exact Or.inl hs
      · exact Or.inr (by omega)
    · exact Or.inr (by omega)
  settled h := h₂.settled (h₁.settled h)

section Save
variable {agreements : List RuleAgr} {children : List InputItem}

theorem settled_of_unary {agr : RuleAgr} (h : agr.agrProcedure = none) (w₁ w₂ : ℕ) :
    Settled ⟨agr, w₁, w₂⟩ := by
  right
  simp only [getAgreementWeight, h]

theorem count_set_true {marks : List Bool} {i : ℕ} (h : marks[i]? = some false) :
    (marks.set i true).count false + 1 = marks.count false := by
  obtain ⟨hi, hget⟩ := List.getElem?_eq_some_iff.mp h
  have hmem : false ∈ marks := by
    rw [← hget]
    exact List.getElem_mem hi
  have hpos := List.count_pos_iff.mpr hmem
  rw [List.count_set hi, hget]
  simp only [beq_self_eq_true, if_true, Bool.true_eq_false, beq_iff_eq, if_false]
  omega

theorem saveAgreement_advance {s s' : SaveState} {agr : RuleAgr}
    (hunary : agr.isUnary = true → agr.agrProcedure = none)
    (h : saveAgreement children s agr = some s') : Advance s s' := by
  unfold saveAgreement at h
  by_cases hu : agr.isUnary = true
  · -- an agreement of one item is saved and marks nothing
    rw [if_pos hu] at h
    simp only [Option.bind_eq_bind, Option.bind_eq_some_iff, Option.some.injEq] at h
    obtain ⟨word, -, rfl⟩ := h
    have hlength : agr.agreeItems.length = 1 := by
      simp only [RuleAgr.isUnary, Bool.and_eq_true, beq_iff_eq] at hu
      exact hu.1
    refine ⟨rfl, ?_, Nat.le_refl _, Or.inl, ?_⟩
    · rw [binaryCount_append]
      simp [binaryCount, hlength, SaveState.unmarked]
    · intro hs A hA
      rcases List.mem_append.mp hA with hA | hA
      · exact hs A hA
      · rw [List.mem_singleton.mp hA]
        exact settled_of_unary (hunary hu) word word
  · rw [if_neg hu] at h
    split at h
    · next i₁ i₂ hitems =>
      simp only [Option.bind_eq_bind, Option.bind_eq_some_iff] at h
      obtain ⟨word₁, -, word₂, -, depend₁, h₁, depend₂, h₂, h⟩ := h
      by_cases hskip : depend₁ = depend₂ ∨ agr.negativeAgreement = true
      · have hsame : s = s' := by
          rcases hskip with heq | hneg
          · rw [if_pos heq] at h
            exact Option.some.inj h
          · rw [if_pos hneg, ite_self] at h
            exact Option.some.inj h
        rw [← hsame]
        exact Advance.refl s
      · obtain ⟨heq, hneg⟩ := not_or.mp hskip
        rw [if_neg heq, if_neg hneg] at h
        have hmark : s.dependOnRoot[if depend₁ = true then i₂ else i₁]? = some false := by
          cases depend₁
          · exact h₁
          · cases depend₂
            · exact h₂
            · exact absurd rfl heq
        have hcount := count_set_true hmark
        rw [Option.some.injEq] at h
        subst h
        refine ⟨List.length_set, ?_, ?_, ?_, ?_⟩
        · rw [binaryCount_append]
          simp only [binaryCount, hitems, SaveState.unmarked, List.countP_singleton]
          simp only [List.length_cons, List.length_nil, beq_self_eq_true, if_true]
          omega
        · simp only [SaveState.unmarked]
          omega
        · intro _
          right
          simp only [SaveState.unmarked]
          omega
        · intro hs A hA
          rcases List.mem_append.mp hA with hA | hA
          · exact hs A hA
          · rw [List.mem_singleton.mp hA]
            left
            simp [hitems]
    · rw [Option.some.injEq] at h
      rw [← h]
      exact Advance.refl s

theorem foldlM_advance (hunary : ∀ agr ∈ agreements, agr.isUnary = true → agr.agrProcedure = none)
    {s s' : SaveState} (h : agreements.foldlM (saveAgreement children) s = some s') :
    Advance s s' := by
  induction agreements generalizing s with
  | nil =>
    simp only [List.foldlM_nil, Option.pure_def, Option.some.injEq] at h
    rw [← h]
    exact Advance.refl s
  | cons agr agreements ih =>
    simp only [List.foldlM_cons, Option.bind_eq_bind, Option.bind_eq_some_iff] at h
    obtain ⟨t, ht, h⟩ := h
    have hstep := saveAgreement_advance (hunary agr List.mem_cons_self) ht
    exact hstep.trans (ih (fun a ha => hunary a (List.mem_cons_of_mem agr ha)) h)

theorem unmarked_saveStart {synMainItemNo : ℕ} (h : synMainItemNo < children.length) :
    (saveStart children synMainItemNo).unmarked + 1 = children.length := by
  have hmark : (List.replicate children.length false)[synMainItemNo]? = some false := by
    rw [List.getElem?_replicate, if_pos h]
  have hcount := count_set_true hmark
  rw [List.count_replicate_self] at hcount
  exact hcount

/-- The saved agreements: with every agreement of two items a further child of the new group
depends on its main child. -/
theorem saveCheckedAgreements_spec
    (hunary : ∀ agr ∈ agreements, agr.isUnary = true → agr.agrProcedure = none)
    {synMainItemNo : ℕ} {agrs : List CheckedAgreement}
    (h : saveCheckedAgreements agreements children synMainItemNo = some agrs)
    (hchildren : ∀ A ∈ children.flatMap InputItem.agreementsFrom, Settled A) :
    (∀ A ∈ agrs, Settled A) ∧
      binaryCount agrs <
        binaryCount (children.flatMap InputItem.agreementsFrom) + children.length := by
  let Inv : SaveState → Prop := fun s =>
    (∀ A ∈ s.checkedAgrs, Settled A) ∧
      binaryCount s.checkedAgrs + s.unmarked + 1 =
        binaryCount (children.flatMap InputItem.agreementsFrom) + children.length
  have hround (s : SaveState) (hs : Inv s) :
      (saveRound agreements children s).Spec Inv fun ok s' => ok = true → Inv s' := by
    unfold saveRound
    cases hfold : agreements.foldlM (saveAgreement children)
        { s with newAgreemsFound := false } with
    | none =>
      intro hfalse
      cases hfalse
    | some s' =>
      have hadvance := foldlM_advance hunary hfold
      have hs' : Inv s' := by
        refine ⟨hadvance.settled hs.1, ?_⟩
        have hbinary := hadvance.binary
        have hstart := hs.2
        simp only [SaveState.unmarked] at hbinary hstart ⊢
        omega
      dsimp only
      split_ifs
      · exact hs'
      · exact fun _ => hs'
  unfold saveCheckedAgreements at h
  split_ifs at h with hrange
  dsimp only at h
  split_ifs at h with hok
  have hstart : Inv (saveStart children synMainItemNo) := by
    refine ⟨hchildren, ?_⟩
    have hunmarked := unmarked_saveStart hrange.2
    simp only [saveStart] at hunmarked ⊢
    omega
  have hresult := runLoop_post Inv (fun ok s' => ok = true → Inv s') hround
    (fun _ _ hfalse => by cases hfalse) (children.length + 1) _ hstart hok
  rw [← Option.some.inj h]
  refine ⟨hresult.1, ?_⟩
  have := hresult.2
  omega

end Save

section Sound
variable {Art : Type} {H : WeightHolder Art}

/-- What every item of a parse tree keeps. -/
structure Sound (H : WeightHolder Art) (item : InputItem) : Prop where
  firstWord_le : item.group.firstWord ≤ item.group.lastWord
  lastWord_lt : item.group.lastWord < H.words
  settled : ∀ A ∈ item.checkedAgrs, Settled A
  binary : binaryCount item.checkedAgrs < item.group.size
  kwtypes : ∀ n ∈ item.kwtypesCount, 0 ≤ n ∧ n ≤ item.group.size
  user : item.userWeight.value ≤ TWeight.precision

theorem Sound.withHomonyms {item : InputItem} (h : Sound H item) (masks : List HomMask) :
    Sound H (item.withHomonyms masks) := by
  cases item with
  | primitive symbol group =>
    exact ⟨h.firstWord_le, h.lastWord_lt, h.settled, h.binary, h.kwtypes, h.user⟩
  | weight g =>
    exact ⟨h.firstWord_le, h.lastWord_lt, h.settled, h.binary, h.kwtypes, h.user⟩

theorem sound_adjustedChildren {children : List InputItem} (h : ∀ child ∈ children, Sound H child)
    (masks : List HomMask) : ∀ child ∈ adjustedChildren masks children, Sound H child := by
  induction children generalizing masks with
  | nil => exact h
  | cons child children ih =>
    intro c hc
    rw [adjustedChildren, List.mem_cons] at hc
    rcases hc with rfl | hc
    · exact (h child List.mem_cons_self).withHomonyms _
    · exact ih (fun d hd => h d (List.mem_cons_of_mem child hd)) _ c hc

theorem sound_handedDown {children : List InputItem} (h : ∀ child ∈ children, Sound H child)
    (factory : Factory) (constr : ReduceConstraints) :
    ∀ child ∈ handedDown children factory constr, Sound H child := by
  cases factory with
  | commonGrammarInterpretation => exact sound_adjustedChildren h _
  | dateChain => exact h

theorem adjacent_words {children : List InputItem} {first last : ℕ}
    (h : Adjacent children first last) (hsound : ∀ child ∈ children, Sound H child) :
    first + binaryCount (children.flatMap InputItem.agreementsFrom) + children.length ≤ last ∧
      (children ≠ [] → last ≤ H.words) := by
  induction children generalizing first with
  | nil =>
    refine ⟨?_, fun hne => absurd rfl hne⟩
    simp only [Adjacent] at h
    simp [binaryCount, h]
  | cons child children ih =>
    obtain ⟨hfirst, hrest⟩ := h
    have hchild := hsound child List.mem_cons_self
    obtain ⟨hle, hwords⟩ := ih hrest fun c hc => hsound c (List.mem_cons_of_mem child hc)
    have hbinary := hchild.binary
    have htaken : binaryCount child.agreementsFrom ≤ binaryCount child.checkedAgrs :=
      (agreementsFrom_sublist child).countP_le
    have hpair := hchild.firstWord_le
    have hlast := hchild.lastWord_lt
    unfold Group.size at hbinary
    rw [List.flatMap_cons, binaryCount_append, List.length_cons]
    refine ⟨by omega, fun _ => ?_⟩
    cases children with
    | nil =>
      simp only [Adjacent] at hrest
      omega
    | cons c cs => exact hwords (List.cons_ne_nil c cs)

theorem foldl_increment_bounds {size : ℕ} {increments : List ℤ} (h : ∀ d ∈ increments, 0 ≤ d)
    {count : ℤ} (hcount : 0 ≤ count ∧ count ≤ size) :
    0 ≤ increments.foldl (incrementKwtypesCount size) count ∧
      increments.foldl (incrementKwtypesCount size) count ≤ size := by
  induction increments generalizing count with
  | nil => exact hcount
  | cons d increments ih =>
    rw [List.foldl_cons]
    apply ih fun e he => h e (List.mem_cons_of_mem d he)
    have hd := h d List.mem_cons_self
    unfold incrementKwtypesCount
    split_ifs <;> omega

theorem initKwtypesCount_bounds {info : WeightedRule Art} {children : List InputItem}
    (h : ∀ child ∈ children, Sound H child) (size : ℕ) :
    0 ≤ initKwtypesCount H info children size ∧ initKwtypesCount H info children size ≤ size := by
  apply foldl_increment_bounds
  · intro d hd
    unfold kwtypesIncrements at hd
    simp only [List.mem_append] at hd
    rcases hd with (hd | hd) | hd
    · obtain ⟨child, hchild, hcount⟩ := List.mem_filterMap.mp hd
      exact ((h child hchild).kwtypes d hcount).1
    · split_ifs at hd
      · rw [List.mem_singleton.mp hd]
        exact Int.one_nonneg
      · cases hd
    · obtain ⟨entry, -, rfl⟩ := List.mem_map.mp hd
      exact Int.one_nonneg
  · omega

theorem foldl_mul_le {factors : List TWeight} (h : ∀ w ∈ factors, w.value ≤ TWeight.precision)
    {w : TWeight} (hw : w.value ≤ TWeight.precision) :
    (factors.foldl TWeight.mul w).value ≤ TWeight.precision := by
  induction factors generalizing w with
  | nil => exact hw
  | cons factor factors ih =>
    exact ih (fun v hv => h v (List.mem_cons_of_mem factor hv))
      (TWeight.mul_le hw (h factor List.mem_cons_self))

theorem userProducts_lt {factors : List TWeight} (h : ∀ w ∈ factors, w.value ≤ TWeight.precision)
    {w : TWeight} (hw : w.value ≤ TWeight.precision) :
    ∀ p ∈ userProducts w factors, p < 2 ^ 64 := by
  induction factors generalizing w with
  | nil =>
    intro p hp
    cases hp
  | cons factor factors ih =>
    have hfactor := h factor List.mem_cons_self
    intro p hp
    rw [userProducts, List.mem_cons] at hp
    rcases hp with rfl | hp
    · exact TWeight.product_lt hw hfactor
    · exact ih (fun v hv => h v (List.mem_cons_of_mem factor hv)) (TWeight.mul_le hw hfactor) p hp

theorem userFactors_le {info : WeightedRule Art} {agreements : List (WeightedRule Art)}
    {children : List InputItem} (hweights : UnitWeights H agreements) (hinfo : info ∈ agreements)
    (h : ∀ child ∈ children, Sound H child) :
    ∀ w ∈ userFactors H info children, w.value ≤ TWeight.precision := by
  intro w hw
  rw [userFactors, List.mem_cons] at hw
  rcases hw with rfl | hw
  · exact TWeight.ofDouble_le (hweights.rule info hinfo).1 (hweights.rule info hinfo).2
  · obtain ⟨child, hchild, hw⟩ := List.mem_flatMap.mp hw
    rcases List.mem_cons.mp hw with rfl | hw
    · exact (h child.1 (List.fst_mem_of_mem_zipIdx hchild)).user
    · obtain ⟨q, hq, rfl⟩ := Option.map_eq_some_iff.mp (Option.mem_toList.mp hw)
      unfold getGztWeight at hq
      simp only [Option.bind_eq_bind, Option.bind_eq_some_iff] at hq
      obtain ⟨entry, -, hq⟩ := hq
      obtain ⟨homonym, -, hfield⟩ := List.exists_of_findSome?_eq_some hq
      obtain ⟨h₀, h₁⟩ := hweights.article _ _ _ q hfield
      exact TWeight.ofDouble_le h₀ h₁

end Sound

/-- The weights of a group lie between 0 and 1, no product on the way exceeds 64 bits, and the
agreements of two items are fewer than the words. -/
structure WeightSynGroup.Bounded (g : WeightSynGroup) : Prop where
  agreement : g.getWeightByAgreement.value ≤ TWeight.precision
  kwTypes : g.getWeightByKwTypes.value ≤ TWeight.precision
  user : g.userWeight.value ≤ TWeight.precision
  weight : g.getWeight.value ≤ TWeight.precision
  kwtypesCount_nonneg : 0 ≤ g.kwtypesCount
  kwtypesCount_le : g.kwtypesCount ≤ g.size
  products : ∀ p ∈ g.ratioProducts, p < 2 ^ 64
  binary : binaryCount g.checkedAgrs < g.size

section Bounded
variable {Art : Type} {H : WeightHolder Art} {g : WeightSynGroup}

theorem norm_eq {n : ℕ} (hn : 3 * n < 2 ^ 31) :
    u64 (3 * n * (n - 1)) = 3 * n * (n - 1) ∧
      u64 (10 * (3 * n * (n - 1) / 2)) = 10 * (3 * n * (n - 1) / 2) := by
  have hsquare : 3 * (3 * n * (n - 1)) < 2 ^ 62 := by
    calc 3 * (3 * n * (n - 1)) = (3 * n) * (3 * (n - 1)) := by ring
      _ ≤ (3 * n) * (3 * n) := Nat.mul_le_mul_left _ (by omega)
      _ < 2 ^ 31 * 2 ^ 31 := Nat.mul_lt_mul'' hn hn
      _ = 2 ^ 62 := by norm_num
  constructor
  · exact u64_of_lt (by omega)
  · exact u64_of_lt (by omega)

theorem agreementRatio_le (h : Sound H (.weight g)) (hsize : g.size ≠ 1) :
    g.agreementRatio.1 ≤ g.agreementRatio.2 := by
  have hbinary : binaryCount g.checkedAgrs < g.size := h.binary
  have hlast : g.lastWord < H.words := h.lastWord_lt
  have hwords := H.words_int
  have hn : 3 * g.size < 2 ^ 31 := by
    unfold Group.size
    omega
  have hweight := getRelevantAgrWeight_le h.settled
  obtain ⟨hnorm, hten⟩ := norm_eq hn
  -- two words or more: the pairs of words are at least as many as the other words
  have hpairs : 6 * (g.size - 1) ≤ 3 * g.size * (g.size - 1) :=
    Nat.mul_le_mul_right _ (by omega)
  change getRelevantAgrWeight g.checkedAgrs ≤ 3 * binaryCount g.checkedAgrs at hweight
  unfold WeightSynGroup.agreementRatio
  dsimp only
  rw [hnorm, hten]
  split_ifs
  · dsimp only
    omega
  · dsimp only
    omega

theorem Sound.bounded (h : Sound H (.weight g)) : g.Bounded := by
  have hbinary : binaryCount g.checkedAgrs < g.size := h.binary
  have hlast : g.lastWord < H.words := h.lastWord_lt
  have hwords := H.words_int
  have hn : 3 * g.size < 2 ^ 31 := by
    unfold Group.size
    omega
  obtain ⟨hcount₀, hcount⟩ : 0 ≤ g.kwtypesCount ∧ g.kwtypesCount ≤ g.size := h.kwtypes _ rfl
  have hagreement : g.getWeightByAgreement.value ≤ TWeight.precision := by
    unfold WeightSynGroup.getWeightByAgreement
    split_ifs with hsize
    · exact Nat.le_refl _
    · exact TWeight.ratio_le (agreementRatio_le h hsize)
  have hkwTypes : g.getWeightByKwTypes.value ≤ TWeight.precision := TWeight.ratio_le (by omega)
  refine ⟨hagreement, hkwTypes, h.user, TWeight.mean_le hagreement hkwTypes h.user, hcount₀, hcount,
    ?_, hbinary⟩
  have hweight : getRelevantAgrWeight g.checkedAgrs ≤ 3 * binaryCount g.checkedAgrs :=
    getRelevantAgrWeight_le h.settled
  intro p hp
  simp only [WeightSynGroup.ratioProducts, List.mem_cons, List.not_mem_nil, or_false] at hp
  rcases hp with rfl | rfl
  · have hnumerator : g.agreementRatio.1 < 2 ^ 31 := by
      unfold WeightSynGroup.agreementRatio
      dsimp only
      split_ifs
      · norm_num
      · dsimp only
        omega
    unfold TWeight.precision
    omega
  · unfold TWeight.precision
    omega

end Bounded

section Built
variable {Art : Type} [DecidableEq Art] {H : WeightHolder Art}

theorem mem_of_checkedAlternative {agreements : List (WeightedRule Art)}
    {constr constr' : ReduceConstraints} {info : WeightedRule Art}
    (h : checkedAlternative H agreements constr = some (info, constr')) : info ∈ agreements := by
  induction agreements generalizing constr with
  | nil => cases h
  | cons first rest ih =>
    rw [checkedAlternative] at h
    split_ifs at h
    · rw [Option.some.injEq, Prod.mk.injEq] at h
      rw [h.1]
      exact List.mem_cons_self
    · exact List.mem_cons_of_mem first (ih h)

omit [DecidableEq Art] in
theorem sound_newGroup {info : WeightedRule Art} {agreements : List (WeightedRule Art)}
    {children : List InputItem} {factory : Factory} {constr : ReduceConstraints}
    {symbolNo firstItemNo lastItemNo synMainItemNo : ℕ} {g : WeightSynGroup}
    (hinfo : info ∈ agreements) (hweights : UnitWeights H agreements)
    (hchildren : ∀ child ∈ children, Sound H child)
    (hadjacent : Adjacent children (firstItemNo + H.curStartWord) (lastItemNo + H.curStartWord))
    (h : newGroup H info children factory constr symbolNo firstItemNo lastItemNo synMainItemNo =
      some g) : Sound H (.weight g) := by
  unfold newGroup at h
  simp only [Option.bind_eq_bind, Option.bind_eq_some_iff, Option.some.injEq] at h
  obtain ⟨main, hmain, checkedAgrs, hsaved, facts, -, rfl⟩ := h
  have hne : children ≠ [] := by
    intro hnil
    rw [hnil] at hmain
    cases hmain
  have hsettled : ∀ A ∈ children.flatMap InputItem.agreementsFrom, Settled A := by
    intro A hA
    obtain ⟨child, hchild, hA⟩ := List.mem_flatMap.mp hA
    exact (hchildren child hchild).settled A ((agreementsFrom_sublist child).subset hA)
  obtain ⟨hagrs, hbinary⟩ := saveCheckedAgreements_spec info.unary_procedure hsaved hsettled
  obtain ⟨hwords, hlast⟩ := adjacent_words hadjacent hchildren
  have hlast := hlast hne
  have hpos := List.length_pos_of_ne_nil hne
  have hhanded := sound_handedDown hchildren factory constr
  refine ⟨?_, ?_, hagrs, ?_, ?_, ?_⟩
  · dsimp only [InputItem.group]
    omega
  · dsimp only [InputItem.group]
    omega
  · dsimp only [InputItem.group, InputItem.checkedAgrs, Group.size]
    omega
  · intro n hn
    rw [← Option.mem_some_iff.mp hn]
    exact initKwtypesCount_bounds hhanded _
  · exact foldl_mul_le (userFactors_le hweights hinfo hhanded) (Nat.le_refl _)

theorem Built.sound {item : InputItem} (h : Built H item) : Sound H item := by
  induction h with
  | terminal symbolNo group hpair hword =>
    refine ⟨?_, ?_, ?_, ?_, ?_, Nat.le_refl _⟩
    · exact Nat.le_of_eq hpair.symm
    · dsimp only [InputItem.group]
      omega
    · intro A hA
      cases hA
    · simp [InputItem.checkedAgrs, InputItem.group, binaryCount, Group.size, hpair]
    · intro n hn
      cases hn
  | reduction factory trimTree leftPriorityOrder symbolNo agreements firstItemNo lastItemNo
      synMainItemNo children g hchildren hweights hadjacent hnew ih =>
    unfold createWeightedItem at hnew
    split_ifs at hnew
    simp only [Option.bind_eq_bind, Option.bind_eq_some_iff] at hnew
    obtain ⟨⟨info, constr⟩, hchecked, hnew⟩ := hnew
    exact sound_newGroup (mem_of_checkedAlternative hchecked) hweights ih hadjacent hnew
  | narrowed item masks h ih => exact ih.withHomonyms masks

/-- Weights of groups stay between 0 and 1 in every parse tree, and neither the ratios of a group
nor the user weights multiplied at a reduction exceed 64 bits. -/
theorem built_weights_bounded (H : WeightHolder Art) :
    (∀ g, Built H (.weight g) → g.Bounded) ∧
      ∀ (factory : Factory) (agreements : List (WeightedRule Art)) (children : List InputItem)
        (constr constr' : ReduceConstraints) (info : WeightedRule Art),
        (∀ child ∈ children, Built H child) → UnitWeights H agreements →
        checkedAlternative H agreements constr = some (info, constr') →
        ∀ p ∈ userProducts TWeight.one (userFactors H info (handedDown children factory constr')),
          p < 2 ^ 64 := by
  constructor
  · intro g h
    exact h.sound.bounded
  · intro factory agreements children constr constr' info hchildren hweights hchecked
    have hsound := sound_handedDown (fun child hchild => (hchildren child hchild).sound) factory
      constr'
    exact userProducts_lt
      (userFactors_le hweights (mem_of_checkedAlternative hchecked) hsound) (Nat.le_refl _)

end Built

/-- Two words of unknown parts of speech, and a rule of weight 1/2 that asks for one case. -/
def pairHolder : WeightHolder Unit where
  toHolder := { thirdWordHolder with word := fun _ => { unknownPos := true } }
  hasKwType _ := false
  numericField _ _ _ := none
  mergeFacts _ := some []
  words := 2
  words_int := by norm_num

def pairRule : WeightedRule Unit where
  rulesAgrs := [{ agreeItems := [0, 1], agrProcedure := some .caseAgr }]
  outWeight := 1 / 2
  gztWeight := []
  unary_procedure := by decide

def pairWords : List InputItem :=
  [.primitive 0 ⟨0, 0, 0, {}, [1], false, []⟩, .primitive 1 ⟨1, 1, 1, {}, [1], false, []⟩]

theorem pair_isSome : (createWeightedItem pairHolder pairWords .commonGrammarInterpretation [] [] 2
    [pairRule] 0 2 0).isSome = true := by decide

/-- The group of the two words. -/
def pairGroup : WeightSynGroup :=
  (createWeightedItem pairHolder pairWords .commonGrammarInterpretation [] [] 2 [pairRule] 0 2
    0).get pair_isSome

theorem pairGroup_built : Built pairHolder (.weight pairGroup) := by
  apply Built.reduction .commonGrammarInterpretation [] [] 2 [pairRule] 0 2 0 pairWords
  · intro child hchild
    simp only [pairWords, List.mem_cons, List.not_mem_nil, or_false] at hchild
    rcases hchild with rfl | rfl
    · exact Built.terminal 0 _ rfl (by decide)
    · exact Built.terminal 1 _ rfl (by decide)
  · constructor
    · intro info hinfo
      rw [List.mem_singleton.mp hinfo]
      norm_num [pairRule]
    · intro homonym art field w hw
      cases hw
  · exact ⟨rfl, rfl, rfl⟩
  · exact (Option.some_get pair_isSome).symm

theorem weights_pair : getRelevantAgrWeight pairGroup.checkedAgrs = 1 ∧ pairGroup.Bounded :=
  ⟨by decide, (built_weights_bounded pairHolder).1 pairGroup pairGroup_built⟩

end TomitaParser.Reduction
