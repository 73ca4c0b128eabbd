import TomitaParser.Text.Primitives
/-! # Complex groups

`queryComplexGroup` joins digits and words that follow each other directly or with one joining sign
between them. -/

namespace TomitaParser.Text
namespace TextBase
variable (lang : LangData) (t : TextBase)

def point : ℕ := '.'.toNat

def colon : ℕ := ':'.toNat

def hyphen : ℕ := '-'.toNat

def comma : ℕ := ','.toNat

def bar : ℕ := '|'.toNat

def ampersand : ℕ := '&'.toNat

/-- Whether a point between two words might belong to a name, and not end a sentence. -/
def canIncludePointBetweenWords (start : ℕ) : Bool :=
  if start + 3 ≥ t.primitives.length then true
  else if (t.prim start).typ ≠ .word then true
  else if t.firstChar (start + 1) ≠ point then true
  else if (t.prim (start + 2)).typ ≠ .word then true
  else if lang.charType (t.firstChar (start + 2)) ≠ 'T' ∧
      lang.charType (t.firstChar (start + 2)) ≠ 't' then true
  else if !(t.prim (start + 3)).isNZ ∧ t.firstChar (start + 3) ≠ comma ∧
      t.firstChar (start + 3) ≠ colon then true
  else
    let strFirstPart := lang.toLower (t.getText (t.prim start))
    let strLastPart := lang.toLower (t.getText (t.prim (start + 2)))
    let strWhole := strFirstPart ++ [point] ++ strLastPart
    if strFirstPart.length ≤ 2 then true
    else
      lang.hasWordWithPoint (strFirstPart ++ [point]) ||
        lang.hasWordWithPoint ([point] ++ strLastPart) || lang.hasWordWithPoint strWhole

/-- The flags `bChkJoin` and `bComplex` for a primitive that is neither a digit nor a word. -/
def checkJoin (no : ℕ) (bComplex : Bool) : Bool × Bool :=
  let cur := t.prim no
  let ch := t.firstChar no
  let flags := (false, bComplex)
  let flags :=
    if cur.typ = .punct ∧ ch = point then
      (true, canIncludePointBetweenWords lang t (no - 1))
    else flags
  let flags := if cur.typ = .punct ∧ ch = colon then (true, true) else flags
  let flags := if cur.typ = .punct ∧ ch = hyphen then (true, flags.2) else flags
  if cur.typ = .symbol ∧ cur.len = 1 ∧ ch ≠ bar ∧ ch ≠ ampersand then (true, true) else flags

/-- The loop from a primitive on, with so many primitives left: where it ends, and `bComplex`. -/
def complexLoop : ℕ → ℕ → TypeOfPrim → Bool → ℕ × Bool
  | 0, no, _, bComplex => (no, bComplex)
  | left + 1, no, typLst, bComplex =>
    let typCur := (t.prim no).typ
    if typCur.isDWA then
      complexLoop left (no + 1) typCur
        (if typLst ≠ .punct ∧ typLst ≠ .symbol ∧ typCur ≠ typLst then true else bComplex)
    else if left = 0 then (no, bComplex)
    else
      let typNxt := (t.prim (no + 1)).typ
      if !typNxt.isDWA then (no, bComplex)
      else
        let flags := checkJoin lang t no bComplex
        if !flags.1 then (no, flags.2)
        else
          let typLst := typCur
          if typCur = .punct ∧ (typLst = .word ∧ typNxt = .altWord ∨
              typLst = .altWord ∧ typNxt = .word) then (no, flags.2)
          else complexLoop left (no + 1) typLst flags.2

/-- The group, and how many primitives it has taken. -/
def queryComplexGroup (group : PrimGroup) (start : ℕ) : PrimGroup × ℕ :=
  if !group.isDWA then (group, 0)
  else
    let (no, bComplex) :=
      complexLoop lang t (t.primitives.length - start) start group.gtyp false
    if no = start ∨ !bComplex then (group, 0)
    else
      (lang.replaceSimilarLetters (t.appendPrimitives { group with gtyp := .complex } start no),
        no - start)

/-- The signs that join: a point, a colon or a hyphen, or a symbol of one character that is neither
a bar nor an ampersand. -/
def Joiner (i : ℕ) : Prop :=
  (t.prim i).typ = .punct ∧
      (t.firstChar i = point ∨ t.firstChar i = colon ∨ t.firstChar i = hyphen) ∨
    (t.prim i).typ = .symbol ∧ (t.prim i).len = 1 ∧ t.firstChar i ≠ bar ∧
      t.firstChar i ≠ ampersand

/-- The type in front of a primitive; in front of the first is the group. -/
def typBefore (gtyp : TypeOfPrim) (start i : ℕ) : TypeOfPrim :=
  if i = start then gtyp else (t.prim (i - 1)).typ

/-- A primitive of a run: a digit, a word, or a joiner that stands between two of them. -/
def InRun (gtyp : TypeOfPrim) (start i : ℕ) : Prop :=
  (t.prim i).isDWA = true ∨
    t.Joiner i ∧ (t.typBefore gtyp start i).isDWA = true ∧ (t.prim (i + 1)).isDWA = true

/-- A run up to a primitive, which does not end with a joiner. -/
def IsRun (gtyp : TypeOfPrim) (start no : ℕ) : Prop :=
  start ≤ no ∧ (∀ i, start ≤ i → i < no → t.InRun gtyp start i) ∧
    (start < no → (t.prim (no - 1)).isDWA = true)

/-- A point, a colon or a hyphen between words of different alphabets. -/
def Mixes (gtyp : TypeOfPrim) (start i : ℕ) : Prop :=
  (t.prim i).typ = .punct ∧
    (t.typBefore gtyp start i = .word ∧ (t.prim (i + 1)).typ = .altWord ∨
      t.typBefore gtyp start i = .altWord ∧ (t.prim (i + 1)).typ = .word)

/-- A run in which no such sign joins words of different alphabets. -/
def IsPureRun (gtyp : TypeOfPrim) (start no : ℕ) : Prop :=
  t.IsRun gtyp start no ∧ ∀ i, start ≤ i → i < no → ¬ t.Mixes gtyp start i

/-- The longest way to a primitive. -/
def Longest (run : ℕ → Prop) (no : ℕ) : Prop := run no ∧ ∀ m, run m → m ≤ no

/-- What a primitive of a run says about whether the group is complex, if anything. -/
def verdict (gtyp : TypeOfPrim) (start i : ℕ) : Option Bool :=
  let cur := t.prim i
  let before := t.typBefore gtyp start i
  if cur.isDWA then if before.isDWA ∧ cur.typ ≠ before then some true else none
  else if cur.typ = .symbol then some true
  else if t.firstChar i = point then some (canIncludePointBetweenWords lang t (i - 1))
  else if t.firstChar i = colon then some true
  else none

/-- The verdicts from the first primitive up to another. -/
def verdicts (gtyp : TypeOfPrim) (start no : ℕ) : List Bool :=
  (List.range' start (no - start)).filterMap (verdict lang t gtyp start)

variable {lang} {t}

theorem typ_ne_of_isDWA {typ : TypeOfPrim} (h : typ.isDWA = true) :
    typ ≠ .punct ∧ typ ≠ .symbol := by
  cases typ <;> simp [TypeOfPrim.isDWA] at h ⊢

theorem lt_length_of_isDWA {i : ℕ} (h : (t.prim i).isDWA = true) : i < t.primitives.length := by
  by_contra hle
  have hprim : t.prim i = {} := by
    rw [prim, List.getD_eq_getElem?_getD, List.getElem?_eq_none (by omega), Option.getD_none]
  rw [hprim] at h
  exact absurd h (by decide)

/-- The check for a joiner, and what it does to the flag. -/
theorem checkJoin_spec {no : ℕ} (hdwa : (t.prim no).isDWA = false) (bComplex : Bool)
    (gtyp : TypeOfPrim) (start : ℕ) :
    ((checkJoin lang t no bComplex).1 = true ↔ t.Joiner no) ∧
      (t.Joiner no → (checkJoin lang t no bComplex).2 =
        (verdict lang t gtyp start no).getD bComplex) := by
  have hpoint : t.firstChar no = point → t.firstChar no ≠ colon ∧
      t.firstChar no ≠ hyphen := by
    intro h
    rw [h]
    decide
  have hcolon : t.firstChar no = colon → t.firstChar no ≠ hyphen := by
    intro h
    rw [h]
    decide
  unfold checkJoin verdict Joiner
  simp only [hdwa, Bool.false_eq_true, if_false]
  by_cases hpunct : (t.prim no).typ = .punct
  · have hsymbol : (t.prim no).typ ≠ .symbol := by rw [hpunct]; decide
    simp only [hpunct, true_and, reduceCtorEq, false_and, or_false, if_false]
    by_cases h₁ : t.firstChar no = point
    · have hne := hpoint h₁
      rw [h₁] at hne
      simp [h₁, hne]
    · by_cases h₂ : t.firstChar no = colon
      · have hne := hcolon h₂
        have hne' : colon ≠ point := by decide
        rw [h₂] at hne
        simp [h₂, hne, hne']
      · by_cases h₃ : t.firstChar no = hyphen
        · have hne : hyphen ≠ point ∧ hyphen ≠ colon := by decide
          simp [h₃, hne]
        · simp [h₁, h₂, h₃]
  · simp only [hpunct, false_and, if_false, false_or]
    by_cases hsymbol : (t.prim no).typ = .symbol
    · by_cases hbar : (t.prim no).len = 1 ∧ t.firstChar no ≠ bar ∧
        t.firstChar no ≠ ampersand
      · simp [hsymbol, hbar]
      · simp [hsymbol, hbar]
    · simp [hsymbol]

theorem checkJoin_flag_of_not {no : ℕ} {bComplex : Bool}
    (h : (checkJoin lang t no bComplex).1 = false) :
    (checkJoin lang t no bComplex).2 = bComplex := by
  unfold checkJoin at h ⊢
  dsimp only at h ⊢
  split_ifs at h ⊢
  simp_all

theorem not_isDWA_of_length_le {i : ℕ} (h : t.primitives.length ≤ i) :
    (t.prim i).isDWA = false := by
  by_contra hdwa
  have := lt_length_of_isDWA (eq_true_of_ne_false hdwa)
  omega

theorem not_joiner_of_isDWA {i : ℕ} (h : (t.prim i).isDWA = true) : ¬ t.Joiner i := by
  obtain ⟨hpunct, hsymbol⟩ := typ_ne_of_isDWA h
  simp [Joiner, hpunct, hsymbol]

theorem Joiner.not_isDWA {i : ℕ} (h : t.Joiner i) : (t.prim i).isDWA = false := by
  by_contra hdwa
  exact not_joiner_of_isDWA (eq_true_of_ne_false hdwa) h

@[simp] theorem typBefore_self (gtyp : TypeOfPrim) (start : ℕ) :
    t.typBefore gtyp start start = gtyp := by
  simp [typBefore]

theorem typBefore_succ (gtyp : TypeOfPrim) {start i : ℕ} (h : start ≤ i) :
    t.typBefore gtyp start (i + 1) = (t.prim i).typ := by
  rw [typBefore, if_neg (by omega), Nat.add_sub_cancel]

@[simp] theorem verdicts_self (gtyp : TypeOfPrim) (start : ℕ) :
    verdicts lang t gtyp start start = [] := by
  simp [verdicts]

theorem verdicts_succ (gtyp : TypeOfPrim) {start no : ℕ} (h : start ≤ no) :
    verdicts lang t gtyp start (no + 1) =
      verdicts lang t gtyp start no ++ (verdict lang t gtyp start no).toList := by
  have hrange : List.range' start (no + 1 - start) = List.range' start (no - start) ++ [no] := by
    have hlen : no + 1 - start = no - start + 1 := by omega
    have hend : start + 1 * (no - start) = no := by omega
    rw [hlen, List.range'_concat, hend]
  rw [verdicts, hrange, List.filterMap_append, verdicts]
  cases hv : verdict lang t gtyp start no with
  | none => simp [hv]
  | some b => simp [hv]

/-- The flag after some primitives is what the last verdict says. -/
def lastVerdict (lang : LangData) (t : TextBase) (gtyp : TypeOfPrim) (start no : ℕ) : Bool :=
  (verdicts lang t gtyp start no).getLast?.getD false

@[simp] theorem lastVerdict_self (gtyp : TypeOfPrim) (start : ℕ) :
    lastVerdict lang t gtyp start start = false := by
  simp [lastVerdict]

theorem lastVerdict_succ (gtyp : TypeOfPrim) {start no : ℕ} (h : start ≤ no) :
    lastVerdict lang t gtyp start (no + 1) =
      (verdict lang t gtyp start no).getD (lastVerdict lang t gtyp start no) := by
  rw [lastVerdict, verdicts_succ gtyp h]
  cases hv : verdict lang t gtyp start no with
  | none => simp [lastVerdict]
  | some b => simp

/-- What holds whenever the loop is at a primitive. -/
structure AtPrimitive (lang : LangData) (t : TextBase) (gtyp : TypeOfPrim) (start no : ℕ)
    (typLst : TypeOfPrim) (bComplex : Bool) : Prop where
  start_le : start ≤ no
  inRun : ∀ i, start ≤ i → i < no → t.InRun gtyp start i
  typLst_eq : typLst = t.typBefore gtyp start no
  afterJoiner : typLst.isDWA = false →
    (typLst = .punct ∨ typLst = .symbol) ∧ (t.prim no).isDWA = true
  bComplex_eq : bComplex = lastVerdict lang t gtyp start no

theorem AtPrimitive.longest {gtyp typLst : TypeOfPrim} {start no : ℕ} {bComplex : Bool}
    (h : AtPrimitive lang t gtyp start no typLst bComplex)
    (hend : ¬ t.InRun gtyp start no) : Longest (t.IsRun gtyp start) no := by
  have hdwa : typLst.isDWA = true := by
    by_contra hnot
    have hnext := (h.afterJoiner (eq_false_of_ne_true hnot)).2
    exact hend (Or.inl hnext)
  constructor
  · refine ⟨h.start_le, h.inRun, ?_⟩
    intro hlt
    rw [h.typLst_eq, typBefore, if_neg (by omega)] at hdwa
    exact hdwa
  · intro m hm
    by_contra hlt
    exact hend (hm.2.1 no h.start_le (by omega))

theorem AtPrimitive.start {gtyp : TypeOfPrim} (hgroup : gtyp.isDWA = true) (start : ℕ) :
    AtPrimitive lang t gtyp start start gtyp false where
  start_le := Nat.le_refl start
  inRun := by
    intro i hle hlt
    omega
  typLst_eq := by simp
  afterJoiner := by simp [hgroup]
  bComplex_eq := by simp

theorem AtPrimitive.next_word {gtyp typLst : TypeOfPrim} {start no : ℕ} {bComplex : Bool}
    (h : AtPrimitive lang t gtyp start no typLst bComplex)
    (hdwa : (t.prim no).isDWA = true) :
    AtPrimitive lang t gtyp start (no + 1) (t.prim no).typ
      (if typLst ≠ .punct ∧ typLst ≠ .symbol ∧ (t.prim no).typ ≠ typLst then true
        else bComplex) where
  start_le := by have := h.start_le; omega
  inRun := by
    intro i hle hlt
    rcases Nat.lt_succ_iff_lt_or_eq.mp hlt with hlt | rfl
    · exact h.inRun i hle hlt
    · exact Or.inl hdwa
  typLst_eq := (typBefore_succ gtyp h.start_le).symm
  afterJoiner := by
    intro hnot
    rw [show (t.prim no).typ.isDWA = true from hdwa] at hnot
    cases hnot
  bComplex_eq := by
    have hbefore : t.typBefore gtyp start no = typLst := h.typLst_eq.symm
    rw [lastVerdict_succ gtyp h.start_le, ← h.bComplex_eq, verdict]
    simp only [hdwa, if_true, hbefore]
    by_cases hlast : typLst.isDWA = true
    · obtain ⟨hpunct, hsymbol⟩ := typ_ne_of_isDWA hlast
      by_cases hne : (t.prim no).typ = typLst
      · simp [hne]
      · simp [hlast, hpunct, hsymbol, hne]
    · have hjoin := (h.afterJoiner (eq_false_of_ne_true hlast)).1
      rcases hjoin with hjoin | hjoin <;> simp [hjoin, TypeOfPrim.isDWA]

theorem AtPrimitive.next_joiner {gtyp typLst : TypeOfPrim} {start no : ℕ} {bComplex : Bool}
    (h : AtPrimitive lang t gtyp start no typLst bComplex) (hjoiner : t.Joiner no)
    (hnext : (t.prim (no + 1)).isDWA = true) :
    AtPrimitive lang t gtyp start (no + 1) (t.prim no).typ
      (checkJoin lang t no bComplex).2 where
  start_le := by have := h.start_le; omega
  inRun := by
    intro i hle hlt
    rcases Nat.lt_succ_iff_lt_or_eq.mp hlt with hlt | rfl
    · exact h.inRun i hle hlt
    · refine Or.inr ⟨hjoiner, ?_, hnext⟩
      rw [← h.typLst_eq]
      by_contra hlast
      have hdwa := (h.afterJoiner (eq_false_of_ne_true hlast)).2
      exact not_joiner_of_isDWA hdwa hjoiner
  typLst_eq := (typBefore_succ gtyp h.start_le).symm
  afterJoiner := by
    intro _
    refine ⟨?_, hnext⟩
    rcases hjoiner with ⟨hpunct, -⟩ | ⟨hsymbol, -⟩
    · exact Or.inl hpunct
    · exact Or.inr hsymbol
  bComplex_eq := by
    rw [lastVerdict_succ gtyp h.start_le, ← h.bComplex_eq]
    exact (checkJoin_spec hjoiner.not_isDWA bComplex gtyp start).2 hjoiner

/-- The loop ends where the longest run does, and the last verdict decides. -/
theorem complexLoop_spec {gtyp : TypeOfPrim} {start : ℕ} : ∀ {left no : ℕ} {typLst : TypeOfPrim}
    {bComplex : Bool}, left = t.primitives.length - no →
    AtPrimitive lang t gtyp start no typLst bComplex →
    Longest (t.IsRun gtyp start) (complexLoop lang t left no typLst bComplex).1 ∧
      (complexLoop lang t left no typLst bComplex).2 =
        lastVerdict lang t gtyp start (complexLoop lang t left no typLst bComplex).1 := by
  intro left
  induction left with
  | zero =>
    intro no typLst bComplex hleft h
    have hover := not_isDWA_of_length_le (t := t) (i := no + 1) (by omega)
    have hend : ¬ t.InRun gtyp start no := by
      simp [InRun, hover, not_isDWA_of_length_le (t := t) (i := no) (by omega)]
    exact ⟨h.longest hend, h.bComplex_eq⟩
  | succ left ih =>
    intro no typLst bComplex hleft h
    rw [complexLoop]
    by_cases hdwa : (t.prim no).isDWA = true
    · rw [if_pos (show (t.prim no).typ.isDWA = true from hdwa)]
      exact ih (by omega) (h.next_word hdwa)
    · rw [if_neg (show ¬ (t.prim no).typ.isDWA = true from hdwa)]
      have hnot := eq_false_of_ne_true hdwa
      by_cases hlast : left = 0
      · rw [if_pos hlast]
        have hover := not_isDWA_of_length_le (t := t) (i := no + 1) (by omega)
        have hend : ¬ t.InRun gtyp start no := by simp [InRun, hnot, hover]
        exact ⟨h.longest hend, h.bComplex_eq⟩
      · rw [if_neg hlast]
        by_cases hnext : (t.prim (no + 1)).isDWA = true
        · have hnext' : (t.prim (no + 1)).typ.isDWA = true := hnext
          simp only [hnext', Bool.not_true, Bool.false_eq_true, if_false]
          obtain ⟨hcheck, -⟩ := @checkJoin_spec lang t no hnot bComplex gtyp start
          by_cases hjoiner : t.Joiner no
          · -- the type of the sign itself stands where the type before it should
            simp only [hcheck.mpr hjoiner, Bool.not_true, Bool.false_eq_true, if_false]
            have hmix : ¬ ((t.prim no).typ = .punct ∧
                ((t.prim no).typ = .word ∧ (t.prim (no + 1)).typ = .altWord ∨
                  (t.prim no).typ = .altWord ∧ (t.prim (no + 1)).typ = .word)) := by
              rintro ⟨hpunct, h | h⟩
              · rw [hpunct] at h
                cases h.1
              · rw [hpunct] at h
                cases h.1
            rw [if_neg hmix]
            exact ih (by omega) (h.next_joiner hjoiner hnext)
          · have hcheck' : (checkJoin lang t no bComplex).1 = false := by
              rw [Bool.eq_false_iff]
              exact fun hc => hjoiner (hcheck.mp hc)
            have hflag : (checkJoin lang t no bComplex).2 = bComplex :=
              checkJoin_flag_of_not hcheck'
            simp only [hcheck', Bool.not_false, if_true, hflag]
            have hend : ¬ t.InRun gtyp start no := by simp [InRun, hnot, hjoiner]
            exact ⟨h.longest hend, h.bComplex_eq⟩
        · have hnext' : (t.prim (no + 1)).typ.isDWA = false :=
            eq_false_of_ne_true hnext
          simp only [hnext', Bool.not_false, if_true]
          have hend : ¬ t.InRun gtyp start no := by
            simp [InRun, hnot, eq_false_of_ne_true hnext]
          exact ⟨h.longest hend, h.bComplex_eq⟩

/-- If the group is extended, then by a longest run in which no sign joins words of different
alphabets, and something in the run makes the group complex: a change of kind, a colon, a symbol,
or a point that can stand between words. -/
def FollowsGrammar (lang : LangData) (t : TextBase) (group : PrimGroup) (start : ℕ) : Prop :=
  let count := (queryComplexGroup lang t group start).2
  0 < count →
    Longest (t.IsPureRun group.gtyp start) (start + count) ∧
      ∃ i, start ≤ i ∧ i < start + count ∧ verdict lang t group.gtyp start i = some true

theorem Longest.unique {run : ℕ → Prop} {n m : ℕ} (hn : Longest run n) (hm : Longest run m) :
    n = m := by
  have h₁ := hn.2 m hm.1
  have h₂ := hm.2 n hn.1
  omega

theorem exists_verdict {gtyp : TypeOfPrim} {start no : ℕ}
    (h : lastVerdict lang t gtyp start no = true) :
    ∃ i, start ≤ i ∧ i < no ∧ verdict lang t gtyp start i = some true := by
  rw [lastVerdict] at h
  cases hlast : (verdicts lang t gtyp start no).getLast? with
  | none => simp [hlast] at h
  | some b =>
    have hmem := List.mem_of_getLast? hlast
    rw [hlast, Option.getD_some] at h
    rw [h, verdicts, List.mem_filterMap] at hmem
    obtain ⟨i, hi, hverdict⟩ := hmem
    rw [List.mem_range'_1] at hi
    exact ⟨i, hi.1, by omega, hverdict⟩

theorem queryComplexGroup_count {group : PrimGroup} (hgroup : group.isDWA = true) (start : ℕ) :
    ∃ no, Longest (t.IsRun group.gtyp start) no ∧
      (queryComplexGroup lang t group start).2 =
        if lastVerdict lang t group.gtyp start no then no - start else 0 := by
  obtain ⟨hlongest, hflag⟩ := complexLoop_spec rfl
    (@AtPrimitive.start lang t _ (show group.gtyp.isDWA = true from hgroup) start)
  refine ⟨_, hlongest, ?_⟩
  rw [queryComplexGroup, hgroup]
  simp only [Bool.not_true, Bool.false_eq_true, if_false]
  rw [hflag]
  by_cases hlast : lastVerdict lang t group.gtyp start
    (complexLoop lang t (t.primitives.length - start) start group.gtyp false).1 = true
  · by_cases hstart :
      (complexLoop lang t (t.primitives.length - start) start group.gtyp false).1 = start
    · rw [if_pos (Or.inl hstart), if_pos hlast, hstart, Nat.sub_self]
    · rw [if_neg (by simp [hstart, hlast]), if_pos hlast]
  · rw [if_pos (Or.inr (by simpa using hlast)), if_neg hlast]

/-- The group follows its grammar unless a sign of the longest run joins words of different
alphabets and the last verdict on the run is that it is complex. -/
theorem queryComplexGroup_followsGrammar_iff (lang : LangData) (t : TextBase)
    (group : PrimGroup) (start : ℕ) :
    FollowsGrammar lang t group start ↔
      ¬ (group.isDWA = true ∧ ∃ no, Longest (t.IsRun group.gtyp start) no ∧
        (∃ i, start ≤ i ∧ i < no ∧ t.Mixes group.gtyp start i) ∧
        (verdicts lang t group.gtyp start no).getLast? = some true) := by
  have hlast : ∀ no, (verdicts lang t group.gtyp start no).getLast? = some true ↔
      lastVerdict lang t group.gtyp start no = true := by
    intro no
    rw [lastVerdict]
    cases (verdicts lang t group.gtyp start no).getLast? <;> simp
  by_cases hgroup : group.isDWA = true
  · obtain ⟨no, hlongest, hcount⟩ := @queryComplexGroup_count lang t _ hgroup start
    have hle := hlongest.1.1
    rw [FollowsGrammar, hcount]
    constructor
    · rintro hfollows ⟨-, m, hm, ⟨i, hi, him, hmixes⟩, hverdict⟩
      obtain rfl := hm.unique hlongest
      rw [hlast] at hverdict
      simp only [hverdict, if_true] at hfollows
      obtain ⟨hpure, -⟩ := hfollows (by omega)
      rw [Nat.add_sub_cancel' hle] at hpure
      exact hpure.1.2 i hi him hmixes
    · intro hnot
      by_cases hverdict : lastVerdict lang t group.gtyp start no = true
      · simp only [hverdict, if_true, Nat.add_sub_cancel' hle]
        intro _
        refine ⟨⟨⟨hlongest.1, ?_⟩, fun m hm => hlongest.2 m hm.1⟩, exists_verdict hverdict⟩
        intro i hi hno hmixes
        exact hnot ⟨hgroup, no, hlongest, ⟨i, hi, hno, hmixes⟩, (hlast no).mpr hverdict⟩
      · simp [hverdict]
  · have hcount : (queryComplexGroup lang t group start).2 = 0 := by
      simp [queryComplexGroup, hgroup]
    simp [FollowsGrammar, hcount, hgroup]

/-- The letters `d` and `a` of two alphabets with a colon between them. -/
def twoAlphabets : TextBase where
  text := [0x434, 0x3A, 0x61]
  primitives := [⟨.word, 0, 1⟩, ⟨.punct, 1, 1⟩, ⟨.altWord, 2, 1⟩]

def noLangData : LangData where
  charType := fun _ => ' '
  toLower := id
  hasWordWithPoint := fun _ => false
  replaceSimilarLetters := id

/-- The colon joins the words of two alphabets to one group. -/
theorem queryComplexGroup_twoAlphabets :
    ¬ FollowsGrammar noLangData twoAlphabets ⟨.word, 0, 1, [⟨.word, 0, 1⟩]⟩ 1 := by
  have hcount : (queryComplexGroup noLangData twoAlphabets
      ⟨.word, 0, 1, [⟨.word, 0, 1⟩]⟩ 1).2 = 2 := by decide
  rw [FollowsGrammar, hcount]
  intro hfollows
  have hpure := (hfollows (by decide)).1.1.2 1 (by decide) (by decide)
  exact hpure (by simp only [Mixes, typBefore]; decide)

end TextBase
end TomitaParser.Text
