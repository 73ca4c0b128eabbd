import TomitaParser.Text.ComplexGroup
import TomitaParser.Text.PrimGroups
/-! # The groups tile the text

Each query takes the primitives right behind the group, and says how many these are. So the groups
have all primitives, each once and in order. -/

namespace TomitaParser.Text
namespace TextBase
variable {d : TokenData} {t : TextBase}

theorem at?_eq {i : ℕ} (h : i < t.num) : t.at? i = some (t.prim i) := by
  rw [num] at h
  rw [at?, prim, List.getD_eq_getElem?_getD, List.getElem?_eq_getElem h]
  rfl

theorem holds_spec {asked : List (ℕ × (Primitive → Bool))} (h : ∀ a ∈ asked, a.1 < t.num) :
    ∃ b, t.holds asked = some b ∧ (b = true → ∀ a ∈ asked, a.2 (t.prim a.1) = true) := by
  induction asked with
  | nil => exact ⟨true, rfl, by simp⟩
  | cons a asked ih =>
    obtain ⟨i, p⟩ := a
    obtain ⟨b, hb, hall⟩ := ih fun a ha => h a (List.mem_cons_of_mem _ ha)
    rw [holds, at?_eq (h (i, p) List.mem_cons_self), Option.bind_some]
    by_cases hp : p (t.prim i) = true
    · rw [if_pos hp]
      refine ⟨b, hb, ?_⟩
      intro htrue a ha
      rcases List.mem_cons.mp ha with rfl | ha
      · exact hp
      · exact hall htrue a ha
    · rw [if_neg hp]
      exact ⟨false, rfl, by simp⟩

theorem guarded_spec {condition : Bool} {asked : List (ℕ × (Primitive → Bool))}
    (h : condition = true → ∀ a ∈ asked, a.1 < t.num) :
    ∃ b, t.guarded condition asked = some b ∧
      (b = true → condition = true ∧ ∀ a ∈ asked, a.2 (t.prim a.1) = true) := by
  rw [guarded]
  by_cases hcondition : condition = true
  · rw [if_pos hcondition]
    obtain ⟨b, hb, hall⟩ := holds_spec (h hcondition)
    exact ⟨b, hb, fun htrue => ⟨hcondition, hall htrue⟩⟩
  · rw [if_neg hcondition]
    exact ⟨false, rfl, by simp⟩

theorem isGroupBorder_spec (no : ℕ) : ∃ b, t.isGroupBorder d no = some b := by
  rw [isGroupBorder]
  by_cases hno : t.num ≤ no
  · exact ⟨true, by rw [if_pos hno]⟩
  · rw [if_neg hno, at?_eq (not_le.mp hno), Option.bind_some]
    by_cases hnext : t.num ≤ no + 1
    · rw [if_pos hnext]
      split_ifs <;> exact ⟨_, rfl⟩
    · rw [if_neg hnext, at?_eq (not_le.mp hnext), Option.bind_some]
      split_ifs <;> exact ⟨_, rfl⟩

/-- The group has the primitives from one number up to another, and spans them. -/
structure IsGroup (t : TextBase) (start stop : ℕ) (group : PrimGroup) : Prop where
  lt : start < stop
  le : stop ≤ t.num
  prim : group.prim = (t.primitives.drop start).take (stop - start)
  pos : group.pos = (t.prim start).pos
  len : group.len = (t.prim (stop - 1)).pos + (t.prim (stop - 1)).len - (t.prim start).pos

theorem getLastD_slice {start stop : ℕ} (hlt : start < stop) (hle : stop ≤ t.num) :
    ((t.primitives.drop start).take (stop - start)).getLastD {} = t.prim (stop - 1) := by
  rw [num] at hle
  rw [List.getLastD_eq_getLast?, List.getLast?_eq_getElem?, List.length_take, List.length_drop,
    prim, List.getD_eq_getElem?_getD]
  have hmin : min (stop - start) (t.primitives.length - start) = stop - start := by omega
  rw [hmin, List.getElem?_take_of_lt (by omega), List.getElem?_drop]
  have hindex : start + (stop - start - 1) = stop - 1 := by omega
  rw [hindex]

theorem isGroup_toGroup {i : ℕ} (h : i < t.num) : t.IsGroup i (i + 1) (t.prim i).toGroup where
  lt := Nat.lt_succ_self i
  le := h
  prim := by
    rw [num] at h
    rw [Nat.add_sub_cancel_left, List.take_one, List.head?_drop, prim,
      List.getD_eq_getElem?_getD, List.getElem?_eq_getElem h]
    rfl
  pos := rfl
  len := by
    rw [Nat.add_sub_cancel, Nat.add_sub_cancel_left]
    rfl

theorem IsGroup.gtyp {start stop : ℕ} {group : PrimGroup} (h : t.IsGroup start stop group)
    (gtyp : TypeOfPrim) : t.IsGroup start stop { group with gtyp } :=
  ⟨h.lt, h.le, h.prim, h.pos, h.len⟩

theorem IsGroup.append {start stop stop' : ℕ} {group : PrimGroup} (h : t.IsGroup start stop group)
    (hle : stop ≤ stop') (hnum : stop' ≤ t.num) :
    t.IsGroup start stop' (t.appendPrimitives group stop stop') := by
  have hlt := h.lt
  have hprim : group.prim ++ (t.primitives.drop stop).take (stop' - stop) =
      (t.primitives.drop start).take (stop' - start) := by
    have hsum : stop' - start = (stop - start) + (stop' - stop) := by omega
    have hdrop : start + (stop - start) = stop := by omega
    rw [h.prim, hsum, List.take_add, List.drop_drop, hdrop]
  refine ⟨by omega, hnum, hprim, h.pos, ?_⟩
  rw [appendPrimitives]
  dsimp only
  rw [hprim, getLastD_slice (by omega) hnum, h.pos]

theorem IsGroup.append_nil {start stop before : ℕ} {group : PrimGroup}
    (h : t.IsGroup start stop group) (hle : before ≤ stop) :
    t.IsGroup start stop (t.appendPrimitives group stop before) := by
  have hzero : before - stop = 0 := by omega
  have hsame : t.appendPrimitives group stop before = t.appendPrimitives group stop stop := by
    rw [appendPrimitives, appendPrimitives, hzero, Nat.sub_self]
  rw [hsame]
  exact h.append le_rfl h.le

/-- What a query that begins with the first primitive of the group does. -/
def Counts (t : TextBase) (start : ℕ) (r : Option (PrimGroup × ℕ)) : Prop :=
  ∃ group count, r = some (group, count) ∧
    t.IsGroup start (if count = 0 then start + 1 else start + count) group

/-- What a query that begins behind the group does. -/
def Adds (t : TextBase) (start stop : ℕ) (r : Option (PrimGroup × ℕ)) : Prop :=
  ∃ group count, r = some (group, count) ∧ t.IsGroup start (stop + count) group

theorem IsGroup.counts_zero {start : ℕ} {group : PrimGroup}
    (h : t.IsGroup start (start + 1) group) : t.Counts start (some (group, 0)) :=
  ⟨group, 0, rfl, h⟩

theorem IsGroup.counts_take {start stop : ℕ} {group : PrimGroup}
    (h : t.IsGroup start (start + 1) group) (hlt : start < stop) (hle : stop ≤ t.num)
    (gtyp : TypeOfPrim) :
    t.Counts start (t.take group gtyp (start + 1) stop (stop - start)) := by
  refine ⟨_, _, rfl, ?_⟩
  rw [if_neg (by omega), Nat.add_sub_cancel' hlt.le]
  exact (h.append hlt hle).gtyp gtyp

theorem IsGroup.adds_zero {start stop : ℕ} {group : PrimGroup} (h : t.IsGroup start stop group) :
    t.Adds start stop (some (group, 0)) :=
  ⟨group, 0, rfl, h⟩

theorem IsGroup.adds_take {start stop stop' count : ℕ} {group : PrimGroup}
    (h : t.IsGroup start stop group) (hcount : stop' = stop + count) (hnum : stop' ≤ t.num)
    (gtyp : TypeOfPrim) : t.Adds start stop (t.take group gtyp stop stop' count) := by
  refine ⟨_, _, rfl, ?_⟩
  rw [← hcount]
  exact (h.append (by omega) hnum).gtyp gtyp

theorem is3DigitChainDelimeter_spec (start : ℕ) :
    ∃ b, t.is3DigitChainDelimeter start = some b ∧ (b = true → start < t.num) := by
  obtain ⟨b, hb, hall⟩ := @guarded_spec t (start < t.num)
    [(start, fun p => (p.isNZ && p.len = 1) || t.isPunctChar '.' p)] (by simp)
  exact ⟨b, hb, fun htrue => by simpa using (hall htrue).1⟩

theorem chainLoop_spec : ∀ (left start : ℕ) (bPrevIsSpace : Bool), start + left = t.num →
    0 < start → ∃ stop, t.chainLoop left start bPrevIsSpace = some stop ∧ stop ≤ t.num ∧
      start ≤ stop + (if bPrevIsSpace then 1 else 0) := by
  intro left
  induction left with
  | zero =>
    intro start bPrevIsSpace hnum hpos
    cases bPrevIsSpace with
    | true => exact ⟨start - 1, rfl, by omega, by simp; omega⟩
    | false => exact ⟨start, rfl, by omega, by simp⟩
  | succ left ih =>
    intro start bPrevIsSpace hnum hpos
    cases bPrevIsSpace with
    | true =>
      rw [chainLoop, at?_eq (by omega), Option.bind_some, if_pos rfl]
      split_ifs
      · obtain ⟨stop, hstop, hle, hge⟩ := ih (start + 1) false (by omega) (by omega)
        refine ⟨stop, hstop, hle, ?_⟩
        simp only [Bool.false_eq_true, if_false] at hge
        omega
      · exact ⟨start - 1, rfl, by omega, by omega⟩
    | false =>
      obtain ⟨b, hb, -⟩ := @is3DigitChainDelimeter_spec t start
      rw [chainLoop, hb, Option.bind_some]
      cases b with
      | true =>
        obtain ⟨stop, hstop, hle, hge⟩ := ih (start + 1) true (by omega) (by omega)
        refine ⟨stop, hstop, hle, ?_⟩
        simp only [if_true] at hge
        simpa using hge
      | false => exact ⟨start, rfl, by omega, by simp⟩

theorem query3DigitChain_spec {start : ℕ} (h : start ≤ t.num) :
    ∃ stop, t.query3DigitChain start = some stop ∧ start ≤ stop ∧ stop ≤ t.num := by
  rw [query3DigitChain]
  by_cases hstart : t.num ≤ start
  · rw [if_pos hstart]
    exact ⟨start, rfl, le_rfl, h⟩
  · obtain ⟨b, hb, -⟩ := @is3DigitChainDelimeter_spec t start
    rw [if_neg hstart, hb, Option.bind_some]
    cases b with
    | true =>
      obtain ⟨stop, hstop, hle, hge⟩ := @chainLoop_spec t (t.num - (start + 1)) (start + 1) true
        (by omega) (by omega)
      exact ⟨stop, hstop, by simpa using hge, hle⟩
    | false => exact ⟨start, rfl, le_rfl, h⟩

theorem queryLongComplexDigit_counts {start : ℕ} {group : PrimGroup}
    (h : t.IsGroup start (start + 1) group) :
    t.Counts start (t.queryLongComplexDigit d group start) := by
  have hle := h.le
  rw [queryLongComplexDigit, at?_eq (by omega), Option.bind_some]
  split_ifs
  · exact h.counts_zero
  · obtain ⟨kk, hkk, -, hnum⟩ := query3DigitChain_spec hle
    obtain ⟨b, hb⟩ := @isGroupBorder_spec d t kk
    rw [hkk, Option.bind_some]
    split_ifs with hgt
    · rw [hb, Option.bind_some]
      split_ifs
      · exact h.counts_zero
      · exact h.counts_take (by omega) hnum _
    · exact h.counts_zero

theorem queryTurkishOrdinalNumberGroup_counts {start : ℕ} {group : PrimGroup}
    (h : t.IsGroup start (start + 1) group) :
    t.Counts start (t.queryTurkishOrdinalNumberGroup d group start) := by
  have hle := h.le
  rw [queryTurkishOrdinalNumberGroup]
  split_ifs
  · exact h.counts_zero
  · obtain ⟨digit, hdigit, -⟩ := @guarded_spec t true [(start, fun p => p.typ = .digit)]
      (by simp; omega)
    obtain ⟨dot, hdot, -⟩ := @guarded_spec t (digit && start + 1 < t.num)
      [(start + 1, t.isPunctChar '.')] (by simp)
    obtain ⟨space, hspace, -⟩ := @guarded_spec t (dot && start + 2 < t.num)
      [(start + 2, Primitive.isNZ)] (by simp)
    obtain ⟨word, hword, hall⟩ := @guarded_spec t (space && start + 3 < t.num)
      [(start + 3, Primitive.isWA)] (by simp)
    obtain ⟨joined, hjoined, -⟩ := @guarded_spec t (word && 0 < start)
      [(start - 1, fun p => !p.isNZ)] (by simp; omega)
    obtain ⟨number, hnumber, -⟩ := @guarded_spec t (word && !joined && 1 < start)
      [(start - 2, fun p => p.typ = .digit)] (by simp; omega)
    simp only [hdigit, hdot, hspace, hword, hjoined, hnumber, Option.bind_some]
    split_ifs with hnone
    · exact h.counts_zero
    · have htrue : word = true := by
        cases word <;> simp_all
      have hlt : start + 3 < t.num := by simpa using (Bool.and_eq_true_iff.mp (hall htrue).1).2
      have htake := @IsGroup.counts_take t start (start + 2) group h (by omega) (by omega) .complex
      rwa [Nat.add_sub_cancel_left] at htake

theorem matchScheme_spec : ∀ {prims : List (TypeOfPrim × ℕ)} (i : ℕ),
    ∃ b, t.matchScheme i prims = some b ∧ (b = true → prims = [] ∨ i + prims.length ≤ t.num) := by
  intro prims
  induction prims with
  | nil =>
    intro i
    exact ⟨true, rfl, fun _ => Or.inl rfl⟩
  | cons scheme prims ih =>
    intro i
    obtain ⟨typ, ch⟩ := scheme
    rw [matchScheme]
    by_cases hi : t.num ≤ i
    · rw [if_pos hi]
      exact ⟨false, rfl, by simp⟩
    · rw [if_neg hi, at?_eq (by omega), Option.bind_some]
      split_ifs
      · exact ⟨false, rfl, by simp⟩
      · obtain ⟨b, hb, hle⟩ := ih (i + 1)
        refine ⟨b, hb, ?_⟩
        intro htrue
        right
        rw [List.length_cons]
        rcases hle htrue with hnil | hle
        · rw [hnil, List.length_nil]
          omega
        · omega

theorem compareToScheme_spec (scheme : PrimScheme) (start : ℕ) :
    ∃ b, t.compareToScheme d scheme start = some b ∧
      (b = true → scheme.prims = [] ∨ start + scheme.prims.length ≤ t.num) := by
  obtain ⟨b, hb, hle⟩ := @matchScheme_spec t scheme.prims start
  rw [compareToScheme, hb, Option.bind_some]
  cases b with
  | true =>
    obtain ⟨b', hb'⟩ := @isGroupBorder_spec d t (start + scheme.prims.length)
    exact ⟨b', hb', fun _ => hle rfl⟩
  | false => exact ⟨false, rfl, by simp⟩

theorem firstScheme_spec (start : ℕ) : ∀ schemes : List PrimScheme,
    ∃ found, t.firstScheme d start schemes = some found ∧ ∀ scheme, found = some scheme →
      scheme.prims = [] ∨ start + scheme.prims.length ≤ t.num := by
  intro schemes
  induction schemes with
  | nil => exact ⟨none, rfl, by simp⟩
  | cons scheme schemes ih =>
    obtain ⟨b, hb, hle⟩ := @compareToScheme_spec d t scheme start
    rw [firstScheme, hb, Option.bind_some]
    cases b with
    | true =>
      refine ⟨some scheme, rfl, ?_⟩
      intro scheme' heq
      rw [← Option.some.inj heq]
      exact hle rfl
    | false => exact ih

theorem queryComplexDigit_counts {start : ℕ} {group : PrimGroup}
    (h : t.IsGroup start (start + 1) group) :
    t.Counts start (t.queryComplexDigit d group start) := by
  have hle := h.le
  obtain ⟨joined, hjoined, -⟩ := @guarded_spec t (0 < start) [(start - 1, fun p => !(p.isNZ ||
    (p.typ = .punct && !t.isPunctChar '-' p && !t.isPunctChar '.' p && !t.isPunctChar ',' p)))]
    (by simp; omega)
  obtain ⟨number, hnumber, -⟩ := @guarded_spec t true
    [(start, fun p => p.typ = .symbol || p.typ = .digit)] (by simp; omega)
  obtain ⟨letter, hletter, -⟩ := @guarded_spec t (!number && start < t.num - 1)
    [(start, fun p => p.isWA && p.len = 1), (start + 1, fun p => p.typ = .digit)]
    (by simp; omega)
  obtain ⟨found, hfound, hscheme⟩ := @firstScheme_spec d t start complexNumberSchemes
  rw [queryComplexDigit, hjoined, Option.bind_some]
  split_ifs
  · exact h.counts_zero
  · rw [hnumber, Option.bind_some, hletter, Option.bind_some]
    split_ifs
    · exact h.counts_zero
    · rw [hfound, Option.bind_some]
      cases found with
      | none => exact h.counts_zero
      | some scheme =>
        -- the empty scheme takes nothing
        by_cases hnil : scheme.prims = []
        · have hgroup := (h.append_nil (Nat.le_succ start)).gtyp scheme.resType
          refine ⟨_, 0, ?_, hgroup⟩
          show some (_, scheme.prims.length) = _
          rw [hnil]
          rfl
        · have hlen := (hscheme scheme rfl).resolve_left hnil
          have hpos := List.length_pos_iff.mpr hnil
          have htake := @IsGroup.counts_take t start (start + scheme.prims.length) group h
            (by omega) hlen scheme.resType
          rwa [Nat.add_sub_cancel_left] at htake

theorem queryBucksGoup_counts {start : ℕ} {group : PrimGroup}
    (h : t.IsGroup start (start + 1) group) :
    t.Counts start (t.queryBucksGoup d group start) := by
  have hle := h.le
  obtain ⟨joined, hjoined, -⟩ := @guarded_spec t (0 < start)
    [(start - 1, fun p => !p.isNZ && p.typ ≠ .punct)] (by simp; omega)
  rw [queryBucksGoup, hjoined, Option.bind_some]
  split_ifs with hnone
  · exact h.counts_zero
  · rw [Bool.or_eq_true, not_or, decide_eq_true_eq] at hnone
    obtain ⟨dollar, hdollar, -⟩ := @guarded_spec t true
      [(start, fun p => p.typ = .symbol && t.getText p = ['$'.toNat]),
        (start + 1, fun p => p.typ = .digit)] (by simp; omega)
    obtain ⟨goesOn, hgoesOn, -⟩ := @guarded_spec t (dollar && start + 2 < t.num)
      [(start + 2, fun p => !p.isNZ && !(t.isPunctSentEnd p || t.isPunctChar ',' p))] (by simp)
    rw [hdollar, Option.bind_some, hgoesOn, Option.bind_some]
    split_ifs
    · exact h.counts_zero
    · obtain ⟨kk, hkk, hge, hnum⟩ := @query3DigitChain_spec t (start + 2) (by omega)
      obtain ⟨b, hb⟩ := @isGroupBorder_spec d t kk
      rw [hkk, Option.bind_some, hb, Option.bind_some]
      split_ifs
      · exact h.counts_zero
      · exact h.counts_take (by omega) hnum _

theorem slashLoop_spec : ∀ (left stop : ℕ), stop ≤ t.num →
    ∃ stop', t.slashLoop left stop = some stop' ∧ stop ≤ stop' ∧ stop' ≤ t.num := by
  intro left
  induction left with
  | zero =>
    intro stop hle
    exact ⟨stop, rfl, le_rfl, hle⟩
  | succ left ih =>
    intro stop hle
    obtain ⟨slash, hslash, hall⟩ := @guarded_spec t (stop < t.num) [(stop, t.isPunctChar '/')]
      (by simp)
    rw [slashLoop, hslash, Option.bind_some]
    split_ifs with hnone
    · exact ⟨stop, rfl, le_rfl, hle⟩
    · have hlt : stop < t.num := by simpa using (hall (by simpa using hnone)).1
      obtain ⟨digit, hdigit, hnext⟩ := @guarded_spec t (stop + 1 < t.num)
        [(stop + 1, fun p => p.typ = .digit)] (by simp)
      rw [hdigit, Option.bind_some]
      cases digit with
      | true =>
        have hlt' : stop + 1 < t.num := by simpa using (hnext rfl).1
        obtain ⟨stop', hstop', hge, hnum⟩ := ih (stop + 2) hlt'
        exact ⟨stop', hstop', by omega, hnum⟩
      | false =>
        obtain ⟨stop', hstop', hge, hnum⟩ := ih (stop + 1) hlt
        exact ⟨stop', hstop', by omega, hnum⟩

theorem querySlashDigitGroup_counts {start : ℕ} {group : PrimGroup}
    (h : t.IsGroup start (start + 1) group) :
    t.Counts start (t.querySlashDigitGroup d group start) := by
  have hle := h.le
  obtain ⟨joined, hjoined, -⟩ := @guarded_spec t (0 < start)
    [(start - 1, fun p => !p.isNZ && p.typ ≠ .punct)] (by simp; omega)
  obtain ⟨digit, hdigit, -⟩ := @guarded_spec t true [(start, fun p => p.typ = .digit)]
    (by simp; omega)
  rw [querySlashDigitGroup, hjoined, Option.bind_some]
  split_ifs
  · exact h.counts_zero
  · rw [hdigit, Option.bind_some]
    split_ifs
    · exact h.counts_zero
    · obtain ⟨stop, hstop, -, hnum⟩ := @slashLoop_spec t (t.num - start) (start + 1) hle
      rw [hstop, Option.bind_some]
      split_ifs
      · obtain ⟨b, hb⟩ := @isGroupBorder_spec d t stop
        rw [hb, Option.bind_some]
        split_ifs
        · exact h.counts_take (by omega) hnum _
        · exact h.counts_zero
      · exact h.counts_zero

theorem queryInitialGroup_adds {start stop : ℕ} {group : PrimGroup}
    (h : t.IsGroup start stop group) : t.Adds start stop (t.queryInitialGroup d group stop) := by
  obtain ⟨dot, hdot, hall⟩ := @guarded_spec t (stop < t.num && group.isWA)
    [(stop, t.isPunctChar '.')] (by simp; tauto)
  rw [queryInitialGroup, hdot, Option.bind_some]
  split_ifs with hnone
  · exact h.adds_zero
  · have hlt : stop < t.num := by
      have hboth := (hall (by simpa using hnone)).1
      rw [Bool.and_eq_true, decide_eq_true_eq] at hboth
      exact hboth.1
    have htake : ∀ gtyp, t.Adds start stop (t.take group gtyp stop (stop + 1) 1) :=
      fun gtyp => h.adds_take rfl hlt gtyp
    dsimp only
    split_ifs <;> first | exact h.adds_zero | exact htake _

theorem abbrevTail_spec (start : ℕ) :
    ∃ no hyphen, t.abbrevTail start = some (no, hyphen) ∧ (0 < no → start + no < t.num) := by
  obtain ⟨joined, hjoined, hall₁⟩ := @guarded_spec t (start + 2 < t.num)
    [(start + 1, fun p => p.typ = .word), (start + 2, t.isPunctChar '.')] (by simp; omega)
  obtain ⟨spaced, hspaced, hall₂⟩ := @guarded_spec t (!joined && start + 3 < t.num)
    [(start + 1, fun p => p.typ = .space && p.len < 2), (start + 2, fun p => p.typ = .word),
      (start + 3, t.isPunctChar '.')] (by simp; omega)
  obtain ⟨hyphen, hhyphen, hall₃⟩ := @guarded_spec t (!joined && !spaced && start + 3 < t.num)
    [(start + 1, t.isPunctChar '-'), (start + 2, fun p => p.typ = .word),
      (start + 3, t.isPunctChar '.')] (by simp; omega)
  rw [abbrevTail, hjoined, Option.bind_some, hspaced, Option.bind_some, hhyphen, Option.bind_some]
  split_ifs with h₁ h₂ h₃
  · exact ⟨2, false, rfl, fun _ => by simpa using (hall₁ h₁).1⟩
  · have hboth := (hall₂ h₂).1
    rw [Bool.and_eq_true, decide_eq_true_eq] at hboth
    exact ⟨3, false, rfl, fun _ => hboth.2⟩
  · have hboth := (hall₃ h₃).1
    rw [Bool.and_eq_true, decide_eq_true_eq] at hboth
    exact ⟨3, true, rfl, fun _ => hboth.2⟩
  · exact ⟨0, false, rfl, by simp⟩

theorem queryAbbrevGroup_adds {start stop : ℕ} {group : PrimGroup}
    (h : t.IsGroup start stop group) : t.Adds start stop (t.queryAbbrevGroup d group stop) := by
  obtain ⟨punct, hpunct, hall⟩ := @guarded_spec t (stop < t.num && group.isWA)
    [(stop, fun p => t.isPunctChar '.' p || t.isPunctChar '-' p)] (by simp; tauto)
  rw [queryAbbrevGroup, hpunct, Option.bind_some]
  split_ifs with hnone hword
  · exact h.adds_zero
  · have hlt : stop < t.num := by
      have hboth := (hall (by simpa using hnone)).1
      rw [Bool.and_eq_true, decide_eq_true_eq] at hboth
      exact hboth.1
    obtain ⟨no, hyphen, htail, hno⟩ := @abbrevTail_spec t stop
    rw [at?_eq hlt, Option.bind_some]
    dsimp only
    rw [htail, Option.bind_some]
    dsimp only
    by_cases hzero : 0 < no
    · rw [if_pos hzero, at?_eq (by have := hno hzero; omega), Option.map_some, Option.bind_some]
      split
      · exact h.adds_take (by omega) (by have := hno hzero; omega) _
      · split
        · exact h.adds_take rfl hlt _
        · exact h.adds_zero
    · rw [if_neg hzero, Option.bind_some]
      dsimp only
      split
      · exact h.adds_take rfl hlt _
      · exact h.adds_zero
  · have hlt : stop < t.num := by
      have hboth := (hall (by simpa using hnone)).1
      rw [Bool.and_eq_true, decide_eq_true_eq] at hboth
      exact hboth.1
    rw [at?_eq hlt, Option.bind_some]
    dsimp only
    split
    · exact h.adds_take rfl hlt _
    · exact h.adds_zero

theorem canIncludePoint_spec {no : ℕ} (hpos : 0 < no) :
    ∃ b, t.canIncludePoint d no = some b := by
  rw [canIncludePoint, if_neg (by omega)]
  dsimp only
  by_cases hnum : t.num ≤ no - 1 + 3
  · rw [if_pos hnum]
    exact ⟨true, rfl⟩
  · obtain ⟨asked, hasked, -⟩ := @guarded_spec t true
      [(no - 1, fun p => p.typ = .word),
        (no - 1 + 1, fun p => t.charAt p.pos = '.'.toNat), (no - 1 + 2, fun p => p.typ = .word &&
          (d.charType (t.charAt p.pos) = .upper || d.charType (t.charAt p.pos) = .lower)),
        (no - 1 + 3, fun p => p.isNZ || t.charAt p.pos = ','.toNat || t.charAt p.pos = ':'.toNat)]
      (by simp; omega)
    rw [if_neg hnum, hasked, Option.bind_some]
    split_ifs
    · exact ⟨true, rfl⟩
    · rw [at?_eq (by omega), Option.bind_some, at?_eq (by omega), Option.bind_some]
      exact ⟨_, rfl⟩

theorem joins_spec {no : ℕ} (hpos : 0 < no) (cur : Primitive) (bComplex : Bool) :
    ∃ flags, t.joins d no cur bComplex = some flags := by
  obtain ⟨b, hb⟩ := @canIncludePoint_spec d t no hpos
  rw [joins, hb]
  split_ifs <;> exact ⟨_, rfl⟩

theorem wordsLoop_spec : ∀ (left no : ℕ) (typLst : TypeOfPrim) (bComplex : Bool),
    no + left = t.num → 0 < no → ∃ no' bComplex',
      t.wordsLoop d left no typLst bComplex = some (no', bComplex') ∧ no ≤ no' ∧ no' ≤ t.num := by
  intro left
  induction left with
  | zero =>
    intro no typLst bComplex hnum hpos
    exact ⟨no, bComplex, rfl, le_rfl, by omega⟩
  | succ left ih =>
    intro no typLst bComplex hnum hpos
    rw [wordsLoop, at?_eq (by omega), Option.bind_some]
    split_ifs
    · obtain ⟨no', bComplex', hloop, hge, hle⟩ := ih (no + 1) _ _ (by omega) (by omega)
      exact ⟨no', bComplex', hloop, by omega, hle⟩
    · obtain ⟨next, hnext, -⟩ := @guarded_spec t (no + 1 < t.num) [(no + 1, Primitive.isDWA)]
        (by simp)
      rw [hnext, Option.bind_some]
      split_ifs
      · exact ⟨no, bComplex, rfl, le_rfl, by omega⟩
      · obtain ⟨flags, hflags⟩ := @joins_spec d t no hpos (t.prim no) bComplex
        rw [hflags, Option.bind_some]
        dsimp only
        split_ifs
        · exact ⟨no, _, rfl, le_rfl, by omega⟩
        · obtain ⟨no', bComplex', hloop, hge, hle⟩ := ih (no + 1) (t.prim no).typ flags.2
            (by omega) (by omega)
          exact ⟨no', bComplex', hloop, by omega, hle⟩

theorem queryComplexGroupAt_adds {start stop : ℕ} {group : PrimGroup}
    (h : t.IsGroup start stop group) :
    t.Adds start stop (t.queryComplexGroupAt d group stop) := by
  have hlt := h.lt
  have hle := h.le
  rw [queryComplexGroupAt]
  split_ifs
  · exact h.adds_zero
  · obtain ⟨no, bComplex, hloop, hge, hnum⟩ := @wordsLoop_spec d t (t.num - stop) stop group.gtyp
      false (by omega) (by omega)
    rw [hloop, Option.bind_some]
    dsimp only
    split_ifs
    · exact h.adds_zero
    · exact h.adds_take (by omega) hnum _

section RunGrammar

/-- The two models of the language agree on what `queryComplexGroup` asks about. -/
structure Agrees (d : TokenData) (lang : LangData) : Prop where
  upper : ∀ c, lang.charType c = 'T' ↔ d.charType c = .upper
  lower : ∀ c, lang.charType c = 't' ↔ d.charType c = .lower
  toLower : lang.toLower = d.toLower
  hasWordWithPoint : lang.hasWordWithPoint = d.hasWordWithPoint

variable {lang : LangData}

theorem canIncludePoint_eq (h : Agrees d lang) {no : ℕ} (hpos : 0 < no) :
    t.canIncludePoint d no = some (t.canIncludePointBetweenWords lang (no - 1)) := by
  rw [canIncludePoint, if_neg (by omega), canIncludePointBetweenWords]
  dsimp only
  by_cases hnum : t.num ≤ no - 1 + 3
  · rw [if_pos hnum, if_pos (show no - 1 + 3 ≥ t.primitives.length from hnum)]
  · rw [if_neg hnum, if_neg (show ¬no - 1 + 3 ≥ t.primitives.length from hnum)]
    have h₀ := @at?_eq t (no - 1) (by omega)
    have h₁ := @at?_eq t (no - 1 + 1) (by omega)
    have h₂ := @at?_eq t (no - 1 + 2) (by omega)
    have h₃ := @at?_eq t (no - 1 + 3) (by omega)
    simp only [guarded, holds, h₀, h₁, h₂, h₃, Option.bind_some, if_true, firstChar, point, comma,
      colon, h.upper, h.lower, h.toLower, h.hasWordWithPoint, ne_eq]
    by_cases hword : (t.prim (no - 1)).typ = .word
    swap
    · simp [hword]
    by_cases hpoint : t.charAt (t.prim (no - 1 + 1)).pos = 46
    swap
    · simp [hword, hpoint]
    by_cases hnext : (t.prim (no - 1 + 2)).typ = .word
    swap
    · simp [hword, hpoint, hnext]
    by_cases hupper : d.charType (t.charAt (t.prim (no - 1 + 2)).pos) = .upper ∨
        d.charType (t.charAt (t.prim (no - 1 + 2)).pos) = .lower
    swap
    · simp [hword, hpoint, hnext, not_or.mp hupper]
    by_cases hthird : (t.prim (no - 1 + 3)).isNZ = true ∨
        t.charAt (t.prim (no - 1 + 3)).pos = 44 ∨ t.charAt (t.prim (no - 1 + 3)).pos = 58
    · grind
    · grind

theorem joins_eq (h : Agrees d lang) {no : ℕ} (hpos : 0 < no) (bComplex : Bool) :
    t.joins d no (t.prim no) bComplex = some (t.checkJoin lang no bComplex) := by
  rw [joins, canIncludePoint_eq h hpos, checkJoin]
  simp only [isPunctChar, firstChar, point, colon, hyphen, bar, ampersand, Option.map_some]
  grind

theorem wordsLoop_eq (h : Agrees d lang) : ∀ (left no : ℕ) (typLst : TypeOfPrim) (bComplex : Bool),
    no + left = t.num → 0 < no →
      t.wordsLoop d left no typLst bComplex = some (t.complexLoop lang left no typLst bComplex) := by
  intro left
  induction left with
  | zero => exact fun no typLst bComplex _ _ => rfl
  | succ left ih =>
    intro no typLst bComplex hnum hpos
    rw [wordsLoop, complexLoop, at?_eq (by omega), Option.bind_some]
    dsimp only
    by_cases hcur : (t.prim no).typ.isDWA = true
    · rw [if_pos hcur, if_pos hcur, ih (no + 1) _ _ (by omega) (by omega)]
      congr 2
      grind
    · rw [if_neg hcur, if_neg hcur]
      by_cases hleft : left = 0
      · rw [if_pos hleft, guarded, if_neg (by simp; omega)]
        rfl
      · rw [if_neg hleft, guarded, if_pos (by simp; omega)]
        simp only [holds, at?_eq (show no + 1 < t.num by omega), Option.bind_some]
        by_cases hnext : (t.prim (no + 1)).typ.isDWA = true
        · have hnext' : (t.prim (no + 1)).isDWA = true := hnext
          rw [if_pos hnext', Option.bind_some, joins_eq h hpos, Option.bind_some]
          cases (t.checkJoin lang no bComplex).1 with
          | false => simp [hnext]
          | true =>
            simp only [hnext, Bool.not_true, Bool.false_eq_true, if_false]
            rw [ih (no + 1) _ _ (by omega) (by omega), if_neg]
            -- the sign between the words is not a word itself
            rintro ⟨hpunct, ⟨hword, -⟩ | ⟨hword, -⟩⟩
            · rw [hpunct] at hword
              cases hword
            · rw [hpunct] at hword
              cases hword
        · have hnext' : ¬(t.prim (no + 1)).isDWA = true := hnext
          rw [if_neg hnext', Option.bind_some]
          simp [hnext]

/-- Both models of `queryComplexGroup` take the same primitives. -/
theorem queryComplexGroupAt_eq (h : Agrees d lang) {group : PrimGroup} {start : ℕ}
    (hpos : 0 < start) (hle : start ≤ t.num) : (t.queryComplexGroupAt d group start).map Prod.snd =
      some (t.queryComplexGroup lang group start).2 := by
  rw [queryComplexGroupAt, queryComplexGroup]
  by_cases hgroup : group.isDWA = true
  · simp only [hgroup, Bool.not_true, Bool.false_eq_true, if_false]
    rw [wordsLoop_eq h _ _ _ _ (by omega) hpos, Option.bind_some,
      show t.primitives.length = t.num from rfl]
    obtain ⟨no, bComplex⟩ := t.complexLoop lang (t.num - start) start group.gtyp false
    dsimp only
    split_ifs
    · rfl
    · rfl
  · simp [hgroup]

end RunGrammar

theorem apostropheLoop_spec (typ : TypeOfPrim) : ∀ (left no : ℕ), no ≤ t.num →
    ∃ found, t.apostropheLoop d typ left no = some found ∧
      ∀ no', found = some no' → no ≤ no' ∧ no' ≤ t.num := by
  intro left
  induction left with
  | zero =>
    intro no hle
    refine ⟨some no, rfl, ?_⟩
    intro no' heq
    rw [← Option.some.inj heq]
    exact ⟨le_rfl, hle⟩
  | succ left ih =>
    intro no hle
    obtain ⟨quote, hquote, -⟩ := @guarded_spec t (no < t.num) [(no, fun p => p.typ = .punct &&
      p.len = 1 && (d.isSingleQuotation (t.charAt p.pos) ||
        (d.isQuotation (t.charAt p.pos) && d.isTurkish)))] (by simp)
    obtain ⟨word, hword, hall⟩ := @guarded_spec t (no + 1 < t.num)
      [(no + 1, fun p => p.typ = typ)] (by simp)
    rw [apostropheLoop, hquote, Option.bind_some]
    split_ifs
    · refine ⟨some no, rfl, ?_⟩
      intro no' heq
      rw [← Option.some.inj heq]
      exact ⟨le_rfl, hle⟩
    · rw [hword, Option.bind_some]
      split_ifs with hnone
      · exact ⟨none, rfl, by simp⟩
      · have hlt : no + 1 < t.num := by simpa using (hall (by simpa using hnone)).1
        obtain ⟨found, hfound, hrange⟩ := ih (no + 2) hlt
        refine ⟨found, hfound, ?_⟩
        intro no' heq
        have hboth := hrange no' heq
        omega

theorem queryApostropheGroup_adds {start stop : ℕ} {group : PrimGroup}
    (h : t.IsGroup start stop group) :
    t.Adds start stop (t.queryApostropheGroup d group stop) := by
  obtain ⟨found, hfound, hrange⟩ := @apostropheLoop_spec d t group.gtyp (t.num - stop) stop h.le
  rw [queryApostropheGroup, hfound, Option.bind_some]
  cases found with
  | none => exact h.adds_zero
  | some no =>
    obtain ⟨hge, hnum⟩ := hrange no rfl
    dsimp only
    split_ifs
    · exact h.adds_zero
    · exact h.adds_take (by omega) hnum _

theorem hyphenLoop_spec : ∀ (left no : ℕ) (bDigHyp : Bool), no ≤ t.num →
    ∃ no' bDigHyp', t.hyphenLoop left no bDigHyp = some (no', bDigHyp') ∧ no ≤ no' ∧
      no' ≤ t.num := by
  intro left
  induction left with
  | zero =>
    intro no bDigHyp hle
    exact ⟨no, bDigHyp, rfl, le_rfl, hle⟩
  | succ left ih =>
    intro no bDigHyp hle
    obtain ⟨hyphen, hhyphen, hall⟩ := @guarded_spec t (no + 1 < t.num)
      [(no, t.isPunctChar '-'), (no + 1, Primitive.isDWA)] (by simp; omega)
    rw [hyphenLoop, hhyphen, Option.bind_some]
    split_ifs with hnone
    · exact ⟨no, bDigHyp, rfl, le_rfl, hle⟩
    · have hlt : no + 1 < t.num := by simpa using (hall (by simpa using hnone)).1
      rw [at?_eq hlt, Option.bind_some]
      obtain ⟨no', bDigHyp', hloop, hge, hnum⟩ := ih (no + 2) _ hlt
      exact ⟨no', bDigHyp', hloop, by omega, hnum⟩

theorem queryHyphenGroup_adds {start stop : ℕ} {group : PrimGroup}
    (h : t.IsGroup start stop group) : t.Adds start stop (t.queryHyphenGroup group stop) := by
  obtain ⟨no, bDigHyp, hloop, hge, hnum⟩ := @hyphenLoop_spec t (t.num - stop) stop
    (group.gtyp = .digit) h.le
  rw [queryHyphenGroup]
  split_ifs
  · exact h.adds_zero
  · rw [hloop, Option.bind_some]
    dsimp only
    split_ifs
    · exact h.adds_zero
    · exact h.adds_take (by omega) hnum _
    · exact h.adds_take (by omega) hnum _

theorem skipSpace_spec (no : ℕ) : ∃ no', t.skipSpace no = some no' ∧ no ≤ no' := by
  obtain ⟨space, hspace, -⟩ := @guarded_spec t (no < t.num) [(no, fun p => p.typ = .space)]
    (by simp)
  rw [skipSpace, hspace, Option.map_some]
  cases space with
  | true => exact ⟨no + 1, rfl, Nat.le_succ no⟩
  | false => exact ⟨no, rfl, le_rfl⟩

theorem queryDivWordGroup_adds {start stop : ℕ} {group : PrimGroup}
    (h : t.IsGroup start stop group) : t.Adds start stop (t.queryDivWordGroup group stop) := by
  obtain ⟨hyphen, hhyphen, -⟩ := @guarded_spec t (stop < t.num)
    [(stop, fun p => p.len = 1 && t.isPunctChar '-' p)] (by simp)
  obtain ⟨no, hno, hge⟩ := @skipSpace_spec t (stop + 1)
  obtain ⟨newLine, hnewLine, -⟩ := @guarded_spec t (no < t.num)
    [(no, fun p => p.typ = .newLine)] (by simp)
  obtain ⟨no', hno', hge'⟩ := @skipSpace_spec t (no + 1)
  obtain ⟨word, hword, hall⟩ := @guarded_spec t (no' < t.num) [(no', Primitive.isDWA)] (by simp)
  rw [queryDivWordGroup, hhyphen, Option.bind_some, hno, Option.bind_some, hnewLine,
    Option.bind_some, hno', Option.bind_some, hword, Option.bind_some]
  cases hyphen with
  | false => exact h.adds_zero
  | true =>
    cases newLine with
    | false => exact h.adds_zero
    | true =>
      cases word with
      | false => exact h.adds_zero
      | true =>
        have hlt : no' < t.num := by simpa using (hall rfl).1
        exact h.adds_take (by omega) hlt _

theorem queryWordShyGroup_adds {start stop : ℕ} {group : PrimGroup}
    (h : t.IsGroup start stop group) : t.Adds start stop (t.queryWordShyGroup group stop) := by
  obtain ⟨shy, hshy, hall⟩ := @guarded_spec t (stop + 3 < t.num)
    [(stop, fun p => t.charAt p.pos = '&'.toNat), (stop + 2, fun p => t.charAt p.pos = ';'.toNat),
      (stop + 1, fun p => t.getText p = toCodes "shy")] (by simp; omega)
  rw [queryWordShyGroup, hshy, Option.bind_some]
  split_ifs with hnone
  · exact h.adds_zero
  · have hlt : stop + 3 < t.num := by simpa using (hall (by simpa using hnone)).1
    exact h.adds_take rfl hlt _

theorem counts_foldlM {start : ℕ} : ∀ {queries : List (PrimGroup → ℕ → Option (PrimGroup × ℕ))},
    (∀ query ∈ queries, ∀ group, t.IsGroup start (start + 1) group →
      t.Counts start (query group start)) →
    ∀ {group : PrimGroup} {count : ℕ},
    t.IsGroup start (if count = 0 then start + 1 else start + count) group →
    t.Counts start (queries.foldlM (fun (r : PrimGroup × ℕ) query =>
      if 0 < r.2 then some r else query r.1 start) (group, count)) := by
  intro queries
  induction queries with
  | nil =>
    intro _ group count h
    exact ⟨group, count, rfl, h⟩
  | cons query queries ih =>
    intro hqueries group count h
    have hlater : ∀ query ∈ queries, ∀ group, t.IsGroup start (start + 1) group →
        t.Counts start (query group start) :=
      fun query hquery => hqueries query (List.mem_cons_of_mem _ hquery)
    rw [List.foldlM_cons]
    by_cases hpos : 0 < count
    · rw [if_pos hpos]
      exact ih hlater h
    · have hzero : count = 0 := by omega
      rw [if_pos hzero] at h
      obtain ⟨group', count', heq, h'⟩ := hqueries query List.mem_cons_self group h
      rw [if_neg hpos, heq]
      exact ih hlater h'

theorem queryNumbers_counts {start : ℕ} {group : PrimGroup}
    (h : t.IsGroup start (start + 1) group) : t.Counts start (queryNumbers d t group start) := by
  rw [queryNumbers]
  refine counts_foldlM ?_ h
  intro query hquery group hgroup
  simp only [List.mem_cons, List.not_mem_nil, or_false] at hquery
  rcases hquery with rfl | rfl | rfl | rfl | rfl
  · exact queryLongComplexDigit_counts hgroup
  · exact queryTurkishOrdinalNumberGroup_counts hgroup
  · exact queryComplexDigit_counts hgroup
  · exact queryBucksGoup_counts hgroup
  · exact querySlashDigitGroup_counts hgroup

/-- A group that ends behind a primitive, and the number of that. -/
def Ends (t : TextBase) (start : ℕ) (r : Option (PrimGroup × ℕ)) : Prop :=
  ∃ group stop, r = some (group, stop) ∧ t.IsGroup start stop group

theorem queryOnwards_ends {start : ℕ} :
    ∀ {queries : List (PrimGroup → ℕ → Option (PrimGroup × ℕ))},
    (∀ query ∈ queries, ∀ group stop, t.IsGroup start stop group →
      t.Adds start stop (query group stop)) →
    ∀ {group : PrimGroup} {stop : ℕ}, t.IsGroup start stop group →
    t.Ends start (queryOnwards queries group stop) := by
  intro queries
  induction queries with
  | nil =>
    intro _ group stop h
    exact ⟨group, stop, rfl, h⟩
  | cons query queries ih =>
    intro hqueries group stop h
    obtain ⟨group', count, heq, h'⟩ := hqueries query List.mem_cons_self group stop h
    have hrest := ih (fun query hquery => hqueries query (List.mem_cons_of_mem _ hquery)) h'
    rw [queryOnwards, List.foldlM_cons, heq]
    exact hrest

theorem queryWords_ends {start stop : ℕ} {group : PrimGroup} (h : t.IsGroup start stop group) :
    t.Ends start (queryWords d t group stop) := by
  have hfirst : t.Ends start (queryOnwards [queryInitialGroup d t, queryAbbrevGroup d t] group
      stop) := by
    refine queryOnwards_ends ?_ h
    intro query hquery group stop hgroup
    simp only [List.mem_cons, List.not_mem_nil, or_false] at hquery
    rcases hquery with rfl | rfl
    · exact queryInitialGroup_adds hgroup
    · exact queryAbbrevGroup_adds hgroup
  obtain ⟨group₁, stop₁, heq₁, h₁⟩ := hfirst
  obtain ⟨group₂, count₂, heq₂, h₂⟩ := @queryComplexGroupAt_adds d t start stop₁ group₁ h₁
  rw [queryWords, heq₁, Option.bind_some]
  dsimp only
  rw [heq₂, Option.bind_some]
  dsimp only
  by_cases hpos₂ : 0 < count₂
  · rw [if_pos hpos₂]
    exact ⟨_, _, rfl, h₂⟩
  · have hzero₂ : count₂ = 0 := by omega
    rw [hzero₂, Nat.add_zero] at h₂
    obtain ⟨group₃, count₃, heq₃, h₃⟩ := @queryApostropheGroup_adds d t start stop₁ group₂ h₂
    rw [if_neg hpos₂, heq₃, Option.bind_some]
    dsimp only
    by_cases hpos₃ : 0 < count₃
    · rw [if_pos hpos₃]
      exact ⟨_, _, rfl, h₃⟩
    · have hzero₃ : count₃ = 0 := by omega
      rw [hzero₃, Nat.add_zero] at h₃
      rw [if_neg hpos₃]
      refine queryOnwards_ends ?_ h₃
      intro query hquery group stop hgroup
      simp only [List.mem_cons, List.not_mem_nil, or_false] at hquery
      rcases hquery with rfl | rfl | rfl
      · exact queryHyphenGroup_adds hgroup
      · exact queryDivWordGroup_adds hgroup
      · exact queryWordShyGroup_adds hgroup

theorem nextGroup_ends {i : ℕ} (h : i < t.num) : t.Ends i (t.nextGroup d i) := by
  have hgroup := isGroup_toGroup h
  rw [nextGroup, at?_eq h, Option.bind_some]
  dsimp only
  by_cases hlast : i + 1 = t.num
  · rw [if_pos hlast, ← hlast]
    exact ⟨_, _, rfl, hgroup⟩
  · obtain ⟨group, count, heq, hcounts⟩ := @queryNumbers_counts d t i _ hgroup
    rw [if_neg hlast, heq, Option.bind_some]
    dsimp only
    by_cases hpos : 0 < count
    · rw [if_neg (by omega)] at hcounts
      rw [if_pos hpos]
      exact ⟨_, _, rfl, hcounts⟩
    · have hzero : count = 0 := by omega
      rw [if_pos hzero] at hcounts
      obtain ⟨word, hword, -⟩ := @guarded_spec t true
        [(i, Primitive.isDWA), (i + 1, fun p => !p.isNZ)] (by simp; omega)
      rw [if_neg hpos, hword, Option.bind_some]
      cases word with
      | false => exact ⟨_, _, rfl, hcounts⟩
      | true => exact queryWords_ends hcounts

/-- The group has successive primitives, and spans them. -/
def Spans (group : PrimGroup) : Prop :=
  ∃ first last, group.prim.head? = some first ∧ group.prim.getLast? = some last ∧
    group.pos = first.pos ∧ group.len = last.pos + last.len - first.pos

theorem IsGroup.spans {start stop : ℕ} {group : PrimGroup} (h : t.IsGroup start stop group) :
    Spans group := by
  have hlt := h.lt
  have hle := h.le
  have hlast := @getLastD_slice t start stop hlt hle
  rw [num] at hle
  have hne : group.prim ≠ [] := by
    rw [h.prim]
    intro hnil
    have hlength := congrArg List.length hnil
    rw [List.length_take, List.length_drop, List.length_nil] at hlength
    omega
  have hhead : group.prim.head? = some (t.prim start) := by
    rw [h.prim, List.head?_take, if_neg (by omega), List.head?_drop, TextBase.prim,
      List.getD_eq_getElem?_getD, List.getElem?_eq_getElem (by omega)]
    rfl
  have hlast' : group.prim.getLast? = some (t.prim (stop - 1)) := by
    rw [← h.prim, List.getLastD_eq_getLast?, List.getLast?_eq_some_getLast hne] at hlast
    rw [List.getLast?_eq_some_getLast hne]
    exact congrArg some hlast
  exact ⟨_, _, hhead, hlast', h.pos, h.len⟩

theorem groupsFrom_spec : ∀ (fuel i : ℕ), i ≤ t.num → t.num - i ≤ fuel →
    ∃ groups, t.groupsFrom d fuel i = some groups ∧
      groups.flatMap PrimGroup.prim = t.primitives.drop i ∧ ∀ group ∈ groups, Spans group := by
  intro fuel
  induction fuel with
  | zero =>
    intro i hle hfuel
    refine ⟨[], by rw [groupsFrom, if_pos (by omega)], ?_, by simp⟩
    rw [num] at hfuel
    rw [List.drop_eq_nil_of_le (by omega)]
    rfl
  | succ fuel ih =>
    intro i hle hfuel
    rw [groupsFrom]
    by_cases hend : t.num ≤ i
    · refine ⟨[], by rw [if_pos hend], ?_, by simp⟩
      rw [num] at hend
      rw [List.drop_eq_nil_of_le hend]
      rfl
    · obtain ⟨group, next, heq, hgroup⟩ := @nextGroup_ends d t i (by omega)
      have hlt := hgroup.lt
      obtain ⟨groups, hgroups, hprims, hspans⟩ := ih next hgroup.le (by omega)
      rw [if_neg hend, heq, Option.bind_some]
      dsimp only
      rw [hgroups]
      refine ⟨group :: groups, rfl, ?_, ?_⟩
      · have hdrop : i + (next - i) = next := by omega
        rw [List.flatMap_cons, hprims, hgroup.prim, ← hdrop, ← List.drop_drop, hdrop,
          List.take_append_drop]
      · intro g hg
        rcases List.mem_cons.mp hg with rfl | hg
        · exact hgroup.spans
        · exact hspans g hg

theorem head_rel_getLast {α : Type} {R : α → α → Prop} {l : List α} (h : l.Pairwise R) {a b : α}
    (ha : l.head? = some a) (hb : l.getLast? = some b) : a = b ∨ R a b := by
  cases l with
  | nil => cases ha
  | cons x l =>
    rw [List.head?_cons, Option.some.injEq] at ha
    rw [ha] at h hb
    cases l with
    | nil =>
      rw [List.getLast?_singleton] at hb
      exact Or.inl (Option.some.inj hb)
    | cons y l =>
      rw [List.getLast?_cons_cons] at hb
      exact Or.inr ((List.pairwise_cons.mp h).1 b (List.mem_of_getLast? hb))

/-- A plain text with the primitives of a part of it. -/
def ofText (charType : ℕ → CharClass) (text : List ℕ) (strFrom strSize : ℕ) : TextBase :=
  ⟨text, Text.createPrimitives charType strFrom ((text.drop strFrom).take strSize)⟩

/-- The group reaches from the first one of its primitives to the last one. -/
def Reaches (group : PrimGroup) : Prop :=
  ∃ first last, group.prim.head? = some first ∧ group.prim.getLast? = some last ∧
    group.pos = first.pos ∧ group.pos + group.len = last.pos + last.len

theorem Spans.reaches {group : PrimGroup} (h : Spans group)
    (hordered : group.prim.Pairwise fun p q => p.pos + p.len ≤ q.pos) : Reaches group := by
  obtain ⟨first, last, hfirst, hlast, hpos, hlen⟩ := h
  refine ⟨first, last, hfirst, hlast, hpos, ?_⟩
  rcases head_rel_getLast hordered hfirst hlast with heq | hle
  · rw [hpos, hlen, heq]
    omega
  · omega

/-- The primitives tile the text, and the groups have all primitives, each once and in order. No
query looks at a primitive that is not there. -/
theorem createPrimGroups_tile (d : TokenData) (text : List ℕ) (strFrom strSize : ℕ) :
    Tiling d.charType strFrom ((text.drop strFrom).take strSize)
        (ofText d.charType text strFrom strSize).primitives ∧
      ∃ groups, (ofText d.charType text strFrom strSize).createPrimGroups d = some groups ∧
        groups.flatMap PrimGroup.prim = (ofText d.charType text strFrom strSize).primitives ∧
        ∀ group ∈ groups, Reaches group := by
  have htiling := @tiling_createPrimitives d.charType strFrom ((text.drop strFrom).take strSize)
  obtain ⟨groups, hgroups, hprims, hspans⟩ := @groupsFrom_spec d
    (ofText d.charType text strFrom strSize) (ofText d.charType text strFrom strSize).num 0
    (Nat.zero_le _) le_rfl
  refine ⟨htiling, groups, hgroups, hprims, ?_⟩
  intro group hgroup
  apply (hspans group hgroup).reaches
  have hordered : (groups.flatMap PrimGroup.prim).Pairwise fun p q => p.pos + p.len ≤ q.pos := by
    rw [hprims]
    exact htiling.ordered
  rw [List.pairwise_flatMap] at hordered
  exact hordered.1 group hgroup

end TextBase
end TomitaParser.Text
