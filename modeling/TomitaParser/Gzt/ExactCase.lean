import Mathlib.Algebra.Group.Nat.Defs
import TomitaParser.Gzt.ArticleFilter
/-! # The exact capitalization

The spelling of a key word becomes a mask of 64 bits, the mask becomes a capitalization, and the
capitalization is checked on a word of the input.
-/

namespace TomitaParser.Gzt
open PhraseWords

/-- `GetCapitalizationMask`. -/
def getCapitalizationMask (tables : MatchTables) (word : List Char) : ℕ :=
  (List.range (min word.length 64)).foldl (fun res i =>
    if (word[i]?).any tables.isUpper then res ||| 2 ^ i else res) 0

/-- What `AddWordCases` stores for a word of the key. -/
def storedCases (masks : List ℕ) (word : ℕ) (types : List CapitalizationType) :
    List Capitalization :=
  types.map fun type =>
    if type = .exact then ArticleFilterBuilder.exactCase (masks.getD word 0) else ⟨type, 0⟩

variable {tables : MatchTables}

theorem testBit_getCapitalizationMask (word : List Char) (i : ℕ) :
    (getCapitalizationMask tables word).testBit i =
      (decide (i < 64) && (word[i]?).any tables.isUpper) := by
  have hloop : ∀ n, ((List.range n).foldl (fun res i =>
      if (word[i]?).any tables.isUpper then res ||| 2 ^ i else res) 0).testBit i =
      (decide (i < n) && (word[i]?).any tables.isUpper) := by
    intro n
    induction n with
    | zero => simp
    | succ n ih =>
      rw [List.range_succ, List.foldl_append, List.foldl_cons, List.foldl_nil]
      by_cases hn : (word[n]?).any tables.isUpper = true
      · rw [if_pos hn, Nat.testBit_or, ih, Nat.testBit_two_pow]
        by_cases hi : n = i
        · subst hi
          simp [hn]
        · simp [hi, show i < n + 1 ↔ i < n by omega]
      · rw [if_neg hn, ih]
        by_cases hi : n = i
        · subst hi
          simp [hn]
        · simp [show i < n + 1 ↔ i < n by omega]
  rw [getCapitalizationMask, hloop]
  by_cases hlen : i < word.length
  · simp [hlen]
  · simp [List.getElem?_eq_none (not_lt.mp hlen)]

/-- A word has no small letter where a capital one is wanted, and no capital letter elsewhere. -/
def FitsCase (tables : MatchTables) (wanted : ℕ → Bool) (word : List Char) : Prop :=
  ∀ i c, word[i]? = some c →
    if wanted i then tables.isLower c = false else tables.isUpper c = false

theorem fits_cons {wanted : ℕ → Bool} {c : Char} {word : List Char} :
    FitsCase tables wanted (c :: word) ↔
      (if wanted 0 then tables.isLower c = false else tables.isUpper c = false) ∧
        FitsCase tables (fun i => wanted (i + 1)) word := by
  constructor
  · intro h
    exact ⟨h 0 c rfl, fun i d hd => h (i + 1) d (by simpa using hd)⟩
  · rintro ⟨hfirst, hrest⟩ i d hd
    cases i with
    | zero =>
      rw [List.getElem?_cons_zero, Option.some.injEq] at hd
      rwa [← hd]
    | succ i => exact hrest i d (by simpa using hd)

theorem fits_none {word : List Char} :
    FitsCase tables (fun _ => false) word ↔ (word.all fun c => !tables.isUpper c) = true := by
  induction word with
  | nil => simp [FitsCase]
  | cons c word ih => simp [fits_cons, ih]

theorem fits_all {word : List Char} :
    FitsCase tables (fun _ => true) word ↔ (word.all fun c => !tables.isLower c) = true := by
  induction word with
  | nil => simp [FitsCase]
  | cons c word ih => simp [fits_cons, ih]

theorem maskCase_iff (mask : ℕ) (word : List Char) :
    maskCase tables mask word = true ↔ FitsCase tables mask.testBit word := by
  induction word generalizing mask with
  | nil => simp [maskCase, FitsCase]
  | cons c word ih =>
    have hrest : (fun i => mask.testBit (i + 1)) = (mask / 2).testBit := by
      funext i
      exact Nat.testBit_add_one mask i
    rw [fits_cons, hrest, ← ih, maskCase, Nat.testBit_zero]
    by_cases hbit : mask % 2 = 1 <;> simp [hbit]

/-- Where the capitalization of a mask wants capital letters: the mask of 64 ones wants them
everywhere. -/
def wanted (mask : ℕ) (i : ℕ) : Bool := decide (mask = 2 ^ 64 - 1) || mask.testBit i

variable {p : PhraseWords} {index : ℕ}

theorem allowed_exactCase (mask : ℕ) :
    checkSingleWordCapitalization tables true p index (ArticleFilterBuilder.exactCase mask) = true ↔
      FitsCase tables (wanted mask) (p.getOriginalString index) := by
  unfold ArticleFilterBuilder.exactCase
  by_cases hzero : mask = 0
  · have hwanted : wanted mask = fun _ => false := by
      funext i
      simp [wanted, hzero]
    rw [if_pos hzero, hwanted, fits_none]
    simp [checkSingleWordCapitalization, isLowerCase]
  · rw [if_neg hzero]
    by_cases hone : mask = 1
    · have hwanted : wanted mask = fun i => decide (i = 0) := by
        funext i
        rw [wanted, hone, Bool.eq_iff_iff]
        cases i <;> simp [Nat.testBit_add_one]
      rw [if_pos hone, hwanted]
      simp only [checkSingleWordCapitalization, Bool.true_or, if_true, isTitleCase]
      cases p.getOriginalString index with
      | nil => simp [FitsCase]
      | cons c word =>
        rw [fits_cons, Bool.and_eq_true, ← fits_none]
        simp
    · rw [if_neg hone]
      by_cases hfull : mask = 2 ^ 64 - 1
      · have hwanted : wanted mask = fun _ => true := by
          funext i
          simp [wanted, hfull]
        rw [if_pos hfull, hwanted, fits_all]
        simp [checkSingleWordCapitalization, isUpperCase]
      · have hwanted : wanted mask = mask.testBit := by
          funext i
          rw [wanted, decide_eq_false hfull, Bool.false_or]
        rw [if_neg hfull, hwanted, ← maskCase_iff]
        rfl

theorem forbidden_exactCase (mask : ℕ) :
    checkSingleWordCapitalization tables false p index (ArticleFilterBuilder.exactCase mask) =
      (checkSingleWordCapitalization tables true p index (ArticleFilterBuilder.exactCase mask) &&
        !(decide (mask = 0 ∨ mask = 1 ∨ mask = 2 ^ 64 - 1) && p.startsWithDigit tables index)) := by
  unfold ArticleFilterBuilder.exactCase
  split_ifs with hzero hone hfull
  · simp only [checkSingleWordCapitalization, hzero]
    cases p.isLowerCase tables index <;> simp
  · simp only [checkSingleWordCapitalization, hone]
    cases p.isTitleCase tables index <;> simp
  · simp only [checkSingleWordCapitalization, hfull]
    cases p.isUpperCase tables index <;> simp
  · rw [decide_eq_false fun h => h.elim hzero fun h => h.elim hone hfull]
    simp [checkSingleWordCapitalization]

/-- What the tables of letters promise: no letter is small and capital, and a digit is neither. -/
structure CaseTables (tables : MatchTables) : Prop where
  lower : ∀ c, tables.isUpper c = true → tables.isLower c = false
  digit : ∀ c, tables.isDigit c = true → tables.isUpper c = false ∧ tables.isLower c = false

/-- Two characters are equal up to letter case: they are the same, or the small and the capital form
of one letter. A letter of title case is equal to itself only. -/
def SameLetter (tables : MatchTables) (toLower : Char → Char) (c d : Char) : Prop :=
  c = d ∨ toLower c = toLower d ∧
    (tables.isUpper c = true ∧ tables.isLower d = true ∨
      tables.isLower c = true ∧ tables.isUpper d = true)

def SameWord (tables : MatchTables) (toLower : Char → Char) (key word : List Char) : Prop :=
  List.Forall₂ (SameLetter tables toLower) key word

/-- Two words have capital letters at the same positions. -/
def SameCapitals (tables : MatchTables) (key word : List Char) : Prop :=
  key.map tables.isUpper = word.map tables.isUpper

/-- The spelling of a key word of more than 64 letters is kept: the rest has no capital letter, or
all of the first 64 letters are capital and the rest has no small one. -/
def TailKept (tables : MatchTables) (key : List Char) : Prop :=
  ((64 ≤ key.length ∧ ∀ c ∈ key.take 64, tables.isUpper c = true) →
    ∀ c ∈ key.drop 64, tables.isLower c = false) ∧
  (¬(64 ≤ key.length ∧ ∀ c ∈ key.take 64, tables.isUpper c = true) →
    ∀ c ∈ key.drop 64, tables.isUpper c = false)

theorem mask_full_iff (key : List Char) :
    getCapitalizationMask tables key = 2 ^ 64 - 1 ↔
      64 ≤ key.length ∧ ∀ c ∈ key.take 64, tables.isUpper c = true := by
  have hbits : getCapitalizationMask tables key = 2 ^ 64 - 1 ↔
      ∀ i < 64, (key[i]?).any tables.isUpper = true := by
    constructor
    · intro heq i hi
      have hbit := @testBit_getCapitalizationMask tables key i
      rw [heq, Nat.testBit_two_pow_sub_one] at hbit
      simpa [hi] using hbit.symm
    · intro hall
      apply Nat.eq_of_testBit_eq
      intro i
      rw [testBit_getCapitalizationMask, Nat.testBit_two_pow_sub_one]
      by_cases hi : i < 64 <;> simp [hi, hall]
  rw [hbits]
  constructor
  · intro hall
    have hlen : 64 ≤ key.length := by
      by_contra hlen
      have hlast := hall 63 (by decide)
      rw [List.getElem?_eq_none (by omega)] at hlast
      cases hlast
    refine ⟨hlen, ?_⟩
    intro c hc
    obtain ⟨i, hi, rfl⟩ := List.getElem_of_mem hc
    rw [List.length_take] at hi
    have hbit := hall i (by omega)
    rw [List.getElem?_eq_getElem (by omega), Option.any_some] at hbit
    rwa [List.getElem_take]
  · rintro ⟨hlen, hall⟩ i hi
    rw [List.getElem?_eq_getElem (by omega), Option.any_some]
    apply hall
    exact List.mem_take_iff_getElem.mpr ⟨i, by omega, rfl⟩

/-- A key word passes its own exact filter if its spelling is kept, and only then. -/
theorem fits_self_iff (ht : CaseTables tables) (key : List Char) :
    FitsCase tables (wanted (getCapitalizationMask tables key)) key ↔ TailKept tables key := by
  have hhead : ∀ i c, i < 64 → key[i]? = some c →
      (if wanted (getCapitalizationMask tables key) i then tables.isLower c = false
        else tables.isUpper c = false) := by
    intro i c hi hc
    have hbit : (getCapitalizationMask tables key).testBit i = tables.isUpper c := by
      rw [testBit_getCapitalizationMask, hc]
      simp [hi]
    have hwanted : wanted (getCapitalizationMask tables key) i = tables.isUpper c := by
      rw [wanted, hbit]
      by_cases hfull : getCapitalizationMask tables key = 2 ^ 64 - 1
      · rw [hfull, Nat.testBit_two_pow_sub_one] at hbit
        rw [decide_eq_true hfull, Bool.true_or, ← hbit]
        simp [hi]
      · rw [decide_eq_false hfull, Bool.false_or]
    rw [hwanted]
    cases hupper : tables.isUpper c with
    | false => simp
    | true => simpa using ht.lower c hupper
  have htail : ∀ i, 64 ≤ i → wanted (getCapitalizationMask tables key) i =
      decide (getCapitalizationMask tables key = 2 ^ 64 - 1) := by
    intro i hi
    rw [wanted, testBit_getCapitalizationMask]
    simp [not_lt.mpr hi]
  have hmem : ∀ P : Char → Prop, (∀ c ∈ key.drop 64, P c) ↔
      ∀ i c, 64 ≤ i → key[i]? = some c → P c := by
    intro P
    constructor
    · intro h i c hi hc
      apply h
      apply List.mem_of_getElem? (i := i - 64)
      rw [List.getElem?_drop, Nat.add_sub_cancel' hi, hc]
    · intro h c hc
      obtain ⟨i, hi⟩ := List.mem_iff_getElem?.mp hc
      rw [List.getElem?_drop] at hi
      exact h (64 + i) c (Nat.le_add_right _ _) hi
  rw [TailKept, hmem, hmem]
  simp only [← mask_full_iff]
  constructor
  · intro h
    constructor
    · intro hfull i c hi hc
      have := h i c hc
      rw [htail i hi, decide_eq_true hfull] at this
      simpa using this
    · intro hfull i c hi hc
      have := h i c hc
      rw [htail i hi, decide_eq_false hfull] at this
      simpa using this
  · intro h i c hc
    rcases lt_or_ge i 64 with hi | hi
    · exact hhead i c hi hc
    · rw [htail i hi]
      by_cases hfull : getCapitalizationMask tables key = 2 ^ 64 - 1
      · rw [decide_eq_true hfull]
        simpa using h.1 hfull i c hi hc
      · rw [decide_eq_false hfull]
        simpa using h.2 hfull i c hi hc

/-- Where the key fits, a word that differs in case only fits if it has the same capitals. -/
theorem fits_iff_sameCapitals (ht : CaseTables tables) {toLower : Char → Char} {want : ℕ → Bool}
    {key word : List Char} (hsame : SameWord tables toLower key word)
    (hkey : FitsCase tables want key) :
    FitsCase tables want word ↔ SameCapitals tables key word := by
  induction hsame generalizing want with
  | nil => simp [FitsCase, SameCapitals]
  | @cons c d key word hcd hrest ih =>
    rw [fits_cons] at hkey ⊢
    rw [ih hkey.2, SameCapitals, SameCapitals, List.map_cons, List.map_cons, List.cons.injEq]
    apply and_congr_left
    intro _
    have hc := hkey.1
    rcases hcd with rfl | ⟨-, ⟨hupper, hlower⟩ | ⟨hlower, hupper⟩⟩
    · simpa using hc
    · -- a small letter in place of a capital one
      cases hwant : want 0 with
      | false => simp [hwant, hupper] at hc
      | true =>
        have hd : tables.isUpper d = false := by
          by_contra h
          rw [ht.lower d (by simpa using h)] at hlower
          cases hlower
        simp [hlower, hupper, hd]
    · -- a capital letter in place of a small one
      cases hwant : want 0 with
      | true => simp [hwant, hlower] at hc
      | false =>
        have hnot : tables.isUpper c = false := by
          by_contra h
          rw [ht.lower c (by simpa using h)] at hlower
          cases hlower
        simp [hupper, hnot]

/-- The check of a filter that allows or forbids the exact case of a key word. -/
def exactCheck (tables : MatchTables) (correctIndex : ℕ → ℕ) (allow : Bool) (key : List Char)
    (word : ℕ) (p : PhraseWords) : Bool :=
  checkCapitalization tables correctIndex allow
    [(word, storedCases [getCapitalizationMask tables key] 0 [.exact])] p

/-- The exact filter of a key word is exact on a word of a phrase. -/
def ExactOn (tables : MatchTables) (correctIndex : ℕ → ℕ) (key : List Char) (word : ℕ)
    (p : PhraseWords) : Prop :=
  (exactCheck tables correctIndex true key word p = true ↔
      SameCapitals tables key (p.getOriginalString (correctIndex word))) ∧
    (exactCheck tables correctIndex false key word p = false ↔
      exactCheck tables correctIndex true key word p = true)

theorem exactCheck_allow (correctIndex : ℕ → ℕ) (key : List Char) (word : ℕ) :
    exactCheck tables correctIndex true key word p = true ↔
      FitsCase tables (wanted (getCapitalizationMask tables key))
        (p.getOriginalString (correctIndex word)) := by
  rw [← allowed_exactCase]
  simp [exactCheck, checkCapitalization, storedCases]

theorem exactCheck_forbid (correctIndex : ℕ → ℕ) (key : List Char) (word : ℕ) :
    exactCheck tables correctIndex false key word p = false ↔
      exactCheck tables correctIndex true key word p = true ∧
        ¬((getCapitalizationMask tables key = 0 ∨ getCapitalizationMask tables key = 1 ∨
            getCapitalizationMask tables key = 2 ^ 64 - 1) ∧
          p.startsWithDigit tables (correctIndex word) = true) := by
  simp only [exactCheck, checkCapitalization, storedCases, List.all_cons, List.all_nil,
    Bool.and_true, List.map_cons, List.map_nil, if_true, List.getD_cons_zero, List.any_cons,
    List.any_nil, Bool.or_false]
  rw [forbidden_exactCase]
  cases checkSingleWordCapitalization tables true p (correctIndex word)
    (ArticleFilterBuilder.exactCase (getCapitalizationMask tables key)) <;> simp

/-- The exact filter of a key word is exact on all words that differ from it in case only, exactly
if the spelling is kept past the 64th letter and the key word does not start with a digit without a
capital letter among its first 64 characters. -/
theorem exactOn_iff (ht : CaseTables tables) (toLower : Char → Char) (key : List Char) :
    (∀ (correctIndex : ℕ → ℕ) (word : ℕ) (p : PhraseWords),
        SameWord tables toLower key (p.getOriginalString (correctIndex word)) →
          ExactOn tables correctIndex key word p) ↔
      TailKept tables key ∧
        ¬(key.head?.any tables.isDigit = true ∧ ∀ c ∈ key.take 64, tables.isUpper c = false) := by
  have hzero : (∀ c ∈ key.take 64, tables.isUpper c = false) ↔
      getCapitalizationMask tables key = 0 := by
    constructor
    · intro h
      apply Nat.eq_of_testBit_eq
      intro i
      rw [testBit_getCapitalizationMask, Nat.zero_testBit]
      by_cases hi : i < 64
      · cases hc : key[i]? with
        | none => simp
        | some c =>
          have hmem : c ∈ key.take 64 := by
            apply List.mem_of_getElem? (i := i)
            rw [List.getElem?_take_of_lt hi, hc]
          simp [h c hmem]
      · simp [hi]
    · intro h c hc
      obtain ⟨i, hi⟩ := List.mem_iff_getElem?.mp hc
      have hlt : i < 64 := by
        have := (List.getElem?_eq_some_iff.mp hi).1
        rw [List.length_take] at this
        omega
      rw [List.getElem?_take_of_lt hlt] at hi
      have hbit := @testBit_getCapitalizationMask tables key i
      rw [h, Nat.zero_testBit, hi] at hbit
      simpa [hlt] using hbit.symm
  have hrefl : SameWord tables toLower key key := by
    apply List.forall₂_same.mpr
    intro c _
    exact Or.inl rfl
  constructor
  · intro h
    -- the phrase is the key word itself
    have hself := h id 0 ⟨[⟨"", key, []⟩], 1, [{}]⟩ hrefl
    have hpass := hself.1.mpr rfl
    refine ⟨(fits_self_iff ht key).mp ((exactCheck_allow id key 0).mp hpass), ?_⟩
    rintro ⟨hdigit, hlower⟩
    have hreject := (exactCheck_forbid id key 0).mp (hself.2.mpr hpass)
    exact hreject.2 ⟨Or.inl (hzero.mp hlower), hdigit⟩
  · rintro ⟨htail, hdigit⟩ correctIndex word p hsame
    have hkey := (fits_self_iff ht key).mpr htail
    have hallow := (exactCheck_allow correctIndex key word).trans
      (fits_iff_sameCapitals ht hsame hkey)
    refine ⟨hallow, ?_⟩
    rw [exactCheck_forbid]
    apply and_iff_left
    rintro ⟨hmask, hstart⟩
    -- the first letter of the key is the same digit
    obtain ⟨c, rest, hword, hc⟩ : ∃ c rest, p.getOriginalString (correctIndex word) = c :: rest ∧
        tables.isDigit c = true := by
      unfold startsWithDigit at hstart
      cases hword : p.getOriginalString (correctIndex word) with
      | nil => simp [hword] at hstart
      | cons c rest =>
        rw [hword] at hstart
        exact ⟨c, rest, rfl, by simpa using hstart⟩
    rw [hword] at hsame
    cases hsame with
    | @cons k _ key _ hkc _ =>
      have hkc : k = c := by
        rcases hkc with heq | ⟨-, ⟨-, hlower⟩ | ⟨-, hupper⟩⟩
        · exact heq
        · rw [(ht.digit c hc).2] at hlower
          cases hlower
        · rw [(ht.digit c hc).1] at hupper
          cases hupper
      have hbit := @testBit_getCapitalizationMask tables (k :: key) 0
      rw [List.getElem?_cons_zero, Option.any_some, hkc, (ht.digit c hc).1, Bool.and_false] at hbit
      rw [← hkc] at hbit
      rcases hmask with hmask | hmask | hmask
      · exact hdigit ⟨by simpa [hkc] using hc, hzero.mpr hmask⟩
      · rw [hmask] at hbit
        cases hbit
      · rw [hmask, Nat.testBit_two_pow_sub_one] at hbit
        cases hbit

def latinTables : MatchTables where
  isLower := Char.isLower
  isUpper := Char.isUpper
  isDigit := Char.isDigit
  strongNormalize := fun g _ => g
  isAgreed := fun _ _ => true

theorem latinTables_isUpper (c : Char) :
    latinTables.isUpper c = decide (c.val ≥ 65 ∧ c.val ≤ 90) := rfl

theorem latinTables_isLower (c : Char) :
    latinTables.isLower c = (decide (c.val ≥ 97) && decide (c.val ≤ 122)) := rfl

theorem latinTables_isDigit (c : Char) :
    latinTables.isDigit c = (decide (c.val ≥ 48) && decide (c.val ≤ 57)) := rfl

theorem latinTables_case : CaseTables latinTables := by
  constructor
  · intro c h
    simp only [latinTables_isUpper, latinTables_isLower, ge_iff_le, decide_eq_true_eq,
      Bool.and_eq_false_iff, decide_eq_false_iff_not, UInt32.le_iff_toNat_le,
      UInt32.toNat_ofNat] at h ⊢
    simp at h ⊢
    omega
  · intro c h
    simp only [latinTables_isUpper, latinTables_isLower, latinTables_isDigit, ge_iff_le,
      Bool.and_eq_true, decide_eq_true_eq, Bool.and_eq_false_iff, decide_eq_false_iff_not,
      UInt32.le_iff_toNat_le, UInt32.toNat_ofNat] at h ⊢
    simp at h ⊢
    omega

/-- A phrase of one word. -/
def oneWord (word : List Char) : PhraseWords := ⟨[⟨"", word, []⟩], 1, [{}]⟩

/-- The word "3d" passes a filter that allows the exact case of the key word "3d", and one that
forbids it. -/
theorem exactCheck_digit :
    exactCheck latinTables id true ['3', 'd'] 0 (oneWord ['3', 'd']) = true ∧
      exactCheck latinTables id false ['3', 'd'] 0 (oneWord ['3', 'd']) = true ∧
      ¬ ExactOn latinTables id ['3', 'd'] 0 (oneWord ['3', 'd']) := by
  have hallow : exactCheck latinTables id true ['3', 'd'] 0 (oneWord ['3', 'd']) = true := by
    decide
  have hforbid : exactCheck latinTables id false ['3', 'd'] 0 (oneWord ['3', 'd']) = true := by
    decide
  refine ⟨hallow, hforbid, ?_⟩
  intro h
  rw [h.2.mpr hallow] at hforbid
  cases hforbid

theorem exactOn_iff_mixed :
    CaseTables latinTables ∧
      ((∀ (correctIndex : ℕ → ℕ) (word : ℕ) (p : PhraseWords),
          SameWord latinTables Char.toLower ['i', 'P'] (p.getOriginalString (correctIndex word)) →
            ExactOn latinTables correctIndex ['i', 'P'] word p) ↔
        TailKept latinTables ['i', 'P'] ∧ ¬((['i', 'P'].head?.any latinTables.isDigit) = true ∧
          ∀ c ∈ ['i', 'P'].take 64, latinTables.isUpper c = false)) :=
  ⟨latinTables_case, exactOn_iff latinTables_case Char.toLower ['i', 'P']⟩

end TomitaParser.Gzt
