import TomitaParser.Gzt.AgrFilter
import TomitaParser.Gzt.CompoundKey
import TomitaParser.Gzt.ExactCase
/-! # Word numbers of the options of a key

The trie builder reads the word numbers of a key in three loops of its own, and the filter builder
in a fourth one. An index out of range ends a run here.
-/

namespace TomitaParser.Gzt

/-- `TMorphMatchRule::EType`. -/
inductive MorphType where
  | exactForm | allForms | allLemmaForms
deriving DecidableEq, Repr

/-- `TMorphMatchRule`. -/
structure MorphMatchRule where
  words : List ℕ := []
  type : MorphType

/-- The options of a key together with its morph rules. -/
structure NumberedKey extends SearchKey where
  morph : List MorphMatchRule := []

/-- `TKeyWordInfo`. -/
structure KeyWordInfo where
  originalText : List Char
  morph : MorphType := .allForms
  language : ℕ := 0
  capitalizationMask : ℕ := 0
  id : ℕ := 0
  isArticle : Bool := false

/-- The options of the wildcards, and the articles that are known by name. -/
structure PrefixOptions where
  articleSubst : Bool
  exactForm : Bool
  /-- `IsArticleIdentifier`. -/
  articleIdentifier : List Char → Option ℕ

/-- `HasExactFormMarker`. -/
def hasExactFormMarker (text : List Char) : Bool :=
  decide (2 ≤ text.length) && text.head? == some '!'

/-- The article that a word of a key names. -/
def PrefixOptions.article (options : PrefixOptions) (text : List Char) : Option ℕ :=
  if options.articleSubst then options.articleIdentifier text else none

/-- `ProcessPrefixes`. -/
def processPrefixes (options : PrefixOptions) (word : KeyWordInfo) : KeyWordInfo :=
  match options.article word.originalText with
  | some id => { word with id := id, isArticle := true }
  | none =>
    if options.exactForm && hasExactFormMarker word.originalText then
      { word with originalText := word.originalText.drop 1, morph := .exactForm }
    else word

/-- The index that a word number has in an array: the numbers have 32 bits. -/
def slotOf (number : ℕ) : ℕ := (number + 2 ^ 32 - 1) % 2 ^ 32

/-- The indices that a loop of the trie builder visits for some word numbers. -/
def keyWordIndexes (numbers : List ℕ) (size : ℕ) : List ℕ :=
  if numbers = [] then List.range size else (numbers.filter (· ≤ size)).map slotOf

/-- A loop that changes the words at some indices, unless one is out of range. -/
def modifyWords (f : KeyWordInfo → KeyWordInfo) (indexes : List ℕ) (words : List KeyWordInfo) :
    Option (List KeyWordInfo) :=
  indexes.foldlM (fun words i => if i < words.length then some (words.modify i f) else none) words

/-- `CollectWordMorph`. -/
def collectWordMorph (rules : List MorphMatchRule) (words : List KeyWordInfo) :
    Option (List KeyWordInfo) :=
  rules.foldlM (fun words rule => modifyWords (fun word => { word with morph := rule.type })
    (keyWordIndexes rule.words words.length) words) words

def langRus : ℕ := 1

/-- The first language, or Russian if it comes later. -/
def chooseLanguage (first : ℕ) (rest : List ℕ) : ℕ := if langRus ∈ rest then langRus else first

/-- `CollectWordLanguage`. -/
def collectWordLanguage (options : List (WordOption ℕ)) (words : List KeyWordInfo) :
    Option (List KeyWordInfo) :=
  options.foldlM (fun words o => match o.allow with
    | [] => some words
    | first :: rest =>
      modifyWords (fun word => { word with language := chooseLanguage first rest })
        (keyWordIndexes o.words words.length) words) words

/-- An option that allows or forbids the exact case. -/
def hasExact (o : WordOption CapitalizationType) : Bool :=
  o.allow.contains .exact || o.forbid.contains .exact

variable (tables : MatchTables)

def setMask (word : KeyWordInfo) : KeyWordInfo :=
  if word.isArticle then word
  else { word with capitalizationMask := getCapitalizationMask tables word.originalText }

/-- The loops of `CollectWordCapitalization`, with `has_any`: the `else` after the loop over all
words belongs to the `if` inside it, so an option with word numbers does nothing here. -/
def collectWordMasks (options : List (WordOption CapitalizationType)) (words : List KeyWordInfo) :
    List KeyWordInfo × Bool :=
  options.foldl (fun r o =>
    if hasExact o && o.words.isEmpty then
      (r.1.map (setMask tables), r.2 || r.1.any fun word => !word.isArticle)
    else r) (words, false)

/-- `CollectWordCapitalization`: the words, and the array of their masks. -/
def collectWordCapitalization (options : List (WordOption CapitalizationType))
    (words : List KeyWordInfo) : List KeyWordInfo × List ℕ :=
  let r := collectWordMasks tables options words
  (r.1, if r.2 then r.1.map (·.capitalizationMask) else [])

/-- The steps of `AddRawText` for the words of a key text up to the masks: a text without words
is refused after its languages. -/
def prepareKey (options : PrefixOptions) (key : NumberedKey) (texts : List (List Char)) :
    Option (List KeyWordInfo × List ℕ) := do
  let words ← collectWordLanguage key.lang (texts.map fun text => { originalText := text })
  if words.isEmpty then return ([], [])
  let words ← collectWordMorph key.morph words
  return collectWordCapitalization tables key.case (words.map (processPrefixes options))

/-- The number of words that the filter builder is given: the elements of a compound key. -/
def filterLength (words : List KeyWordInfo) : ℕ :=
  if words.any (·.isArticle) then
    (buildCompoundArticle (words.map fun word => ⟨word.id, word.isArticle⟩)).length
  else words.length

/-- `AddWordCases` reads the mask of every word that has the exact case. -/
def MasksRead (key : NumberedKey) (phraseLength : ℕ) (masks : List ℕ) : Prop :=
  ∀ o ∈ key.case, hasExact o = true → ∀ indexes,
    collectWordIndexes o.words phraseLength = some indexes → ∀ i ∈ indexes, i < masks.length

/-- Adding a key text indexes no array out of range. -/
def NumbersSafe (options : PrefixOptions) (key : NumberedKey) (texts : List (List Char)) : Prop :=
  ∃ r, prepareKey tables options key texts = some r ∧ MasksRead key (filterLength r.1) r.2

/-- The word numbers of the options that the filter builder reads. -/
def NumberedKey.filterNumbers (key : NumberedKey) : List (List ℕ) :=
  key.gram.map (·.words) ++ key.lang.map (·.words) ++ key.case.map (·.words) ++
    key.agr.map (·.words)

/-- The word numbers of the options that the trie builder applies to a key text. -/
def NumberedKey.trieNumbers (key : NumberedKey) (texts : List (List Char)) : List (List ℕ) :=
  (key.lang.filter fun o => !o.allow.isEmpty).map (·.words) ++
    if texts.isEmpty then [] else key.morph.map (·.words)

/-- Every option applies to the words that it names: the existing ones, or all if it names none. -/
def NumbersUniform (options : PrefixOptions) (key : NumberedKey) (texts : List (List Char)) :
    Prop :=
  (∀ numbers ∈ key.trieNumbers texts,
    (keyWordIndexes numbers texts.length).toFinset = namedWords numbers texts.length) ∧
  ∀ numbers ∈ key.filterNumbers, ∃ indexes,
    collectWordIndexes numbers (filterLength (texts.map fun text =>
      processPrefixes options { originalText := text })) = some indexes ∧
    indexes.toFinset = namedWords numbers texts.length

/-- What a loop over word numbers leaves as it is. -/
def KeyWordInfo.kept (word : KeyWordInfo) : List Char × ℕ × Bool :=
  (word.originalText, word.id, word.isArticle)

def SameWords (words words' : List KeyWordInfo) : Prop :=
  words'.map KeyWordInfo.kept = words.map KeyWordInfo.kept

section Loops
variable {tables : MatchTables} {words words' : List KeyWordInfo} {f : KeyWordInfo → KeyWordInfo}

theorem SameWords.length (h : SameWords words words') : words'.length = words.length := by
  simpa using congrArg List.length h

theorem SameWords.trans {words'' : List KeyWordInfo} (h : SameWords words words')
    (h' : SameWords words' words'') : SameWords words words'' := Eq.trans h' h

theorem sameWords_modify (hf : ∀ word, (f word).kept = word.kept) (i : ℕ) :
    SameWords words (words.modify i f) := by
  apply List.ext_getElem?
  intro j
  rw [List.getElem?_map, List.getElem?_map, List.getElem?_modify]
  cases words[j]? with
  | none => simp
  | some word =>
    by_cases hij : i = j
    · simp [hij, hf]
    · simp [hij]

theorem modifyWords_spec (hf : ∀ word, (f word).kept = word.kept) (indexes : List ℕ)
    (words : List KeyWordInfo) :
    ((∃ words', modifyWords f indexes words = some words') ↔ ∀ i ∈ indexes, i < words.length) ∧
      ∀ words', modifyWords f indexes words = some words' → SameWords words words' := by
  induction indexes generalizing words with
  | nil =>
    refine ⟨by simp [modifyWords], ?_⟩
    intro words' h
    rw [modifyWords, List.foldlM_nil, Option.pure_def, Option.some.injEq] at h
    rw [h, SameWords]
  | cons i indexes ih =>
    have hstep : modifyWords f (i :: indexes) words =
        if i < words.length then modifyWords f indexes (words.modify i f) else none := by
      rw [modifyWords, List.foldlM_cons]
      split <;> rfl
    rw [hstep, List.forall_mem_cons]
    by_cases hi : i < words.length
    · obtain ⟨hsome, hsame⟩ := ih (words.modify i f)
      rw [if_pos hi, hsome, List.length_modify]
      refine ⟨by simp [hi], ?_⟩
      intro words' h
      exact (sameWords_modify hf i).trans (hsame words' h)
    · rw [if_neg hi]
      simp [hi]

theorem foldlM_loops {O : Type} (step : List KeyWordInfo → O → Option (List KeyWordInfo))
    (ok : ℕ → O → Prop)
    (hstep : ∀ words o, ((∃ words', step words o = some words') ↔ ok words.length o) ∧
      ∀ words', step words o = some words' → SameWords words words')
    (options : List O) (words : List KeyWordInfo) :
    ((∃ words', options.foldlM step words = some words') ↔ ∀ o ∈ options, ok words.length o) ∧
      ∀ words', options.foldlM step words = some words' → SameWords words words' := by
  induction options generalizing words with
  | nil =>
    refine ⟨by simp, ?_⟩
    intro words' h
    rw [List.foldlM_nil, Option.pure_def, Option.some.injEq] at h
    rw [h, SameWords]
  | cons o options ih =>
    rw [List.foldlM_cons, List.forall_mem_cons, ← (hstep words o).1]
    cases ho : step words o with
    | none => simp
    | some next =>
      have hsame := (hstep words o).2 next ho
      obtain ⟨hsome, hkeep⟩ := ih next
      rw [Option.bind_eq_bind, Option.bind_some, hsome, hsame.length]
      refine ⟨by simp, ?_⟩
      intro words' h
      exact hsame.trans (hkeep words' h)

theorem collectWordMorph_spec (rules : List MorphMatchRule) (words : List KeyWordInfo) :
    ((∃ words', collectWordMorph rules words = some words') ↔
      ∀ rule ∈ rules, ∀ i ∈ keyWordIndexes rule.words words.length, i < words.length) ∧
      ∀ words', collectWordMorph rules words = some words' → SameWords words words' := by
  apply foldlM_loops _ (fun n (rule : MorphMatchRule) => ∀ i ∈ keyWordIndexes rule.words n, i < n)
  intro words rule
  exact modifyWords_spec (f := fun word => { word with morph := rule.type }) (fun _ => rfl)
    (keyWordIndexes rule.words words.length) words

theorem collectWordLanguage_spec (options : List (WordOption ℕ)) (words : List KeyWordInfo) :
    ((∃ words', collectWordLanguage options words = some words') ↔
      ∀ o ∈ options, o.allow ≠ [] → ∀ i ∈ keyWordIndexes o.words words.length, i < words.length) ∧
      ∀ words', collectWordLanguage options words = some words' → SameWords words words' := by
  apply foldlM_loops _ (fun n (o : WordOption ℕ) => o.allow ≠ [] →
    ∀ i ∈ keyWordIndexes o.words n, i < n)
  intro words o
  cases hallow : o.allow with
  | nil =>
    refine ⟨by simp, ?_⟩
    intro words' h
    rw [Option.some.injEq] at h
    rw [h, SameWords]
  | cons first rest =>
    obtain ⟨hsome, hsame⟩ := modifyWords_spec
      (f := fun word => { word with language := chooseLanguage first rest }) (fun _ => rfl)
      (keyWordIndexes o.words words.length) words
    refine ⟨?_, hsame⟩
    rw [hsome]
    simp

theorem setMask_kept (word : KeyWordInfo) : (setMask tables word).kept = word.kept := by
  rw [setMask]
  split_ifs <;> rfl

theorem any_plain_same (h : SameWords words words') :
    (words'.any fun word => !word.isArticle) = words.any fun word => !word.isArticle := by
  have hkept : ∀ words : List KeyWordInfo, (words.any fun word => !word.isArticle) =
      (words.map KeyWordInfo.kept).any fun k => !k.2.2 := by
    intro words
    rw [List.any_map]
    rfl
  rw [hkept, hkept, h]

theorem sameWords_setMask (words : List KeyWordInfo) :
    SameWords words (words.map (setMask tables)) := by
  rw [SameWords, List.map_map]
  apply List.map_congr_left
  intro word _
  exact setMask_kept word

theorem collectWordMasks_spec (options : List (WordOption CapitalizationType))
    (words : List KeyWordInfo) (any : Bool) :
    let r := options.foldl (fun (r : List KeyWordInfo × Bool) o =>
      if hasExact o && o.words.isEmpty then
        (r.1.map (setMask tables), r.2 || r.1.any fun word => !word.isArticle)
      else r) (words, any)
    SameWords words r.1 ∧ r.2 = (any || (options.any fun o => hasExact o && o.words.isEmpty) &&
      words.any fun word => !word.isArticle) := by
  induction options generalizing words any with
  | nil => exact ⟨rfl, by simp⟩
  | cons o options ih =>
    simp only [List.foldl_cons, List.any_cons]
    by_cases hexact : (hasExact o && o.words.isEmpty) = true
    · have hset := @sameWords_setMask tables words
      obtain ⟨hsame, hany⟩ := ih (words.map (setMask tables))
        (any || words.any fun word => !word.isArticle)
      rw [if_pos hexact]
      refine ⟨hset.trans hsame, ?_⟩
      rw [hany, any_plain_same hset, hexact, Bool.true_or, Bool.true_and]
      cases any <;> cases words.any fun word => !word.isArticle <;> simp
    · obtain ⟨hsame, hany⟩ := ih words any
      rw [if_neg hexact]
      refine ⟨hsame, ?_⟩
      rw [hany, Bool.not_eq_true _ |>.mp hexact, Bool.false_or]

theorem collectWordCapitalization_spec (options : List (WordOption CapitalizationType))
    (words : List KeyWordInfo) :
    let r := collectWordCapitalization tables options words
    SameWords words r.1 ∧ r.2.length =
      if ((options.any fun o => hasExact o && o.words.isEmpty) &&
        words.any fun word => !word.isArticle) then words.length else 0 := by
  obtain ⟨hsame, hany⟩ := @collectWordMasks_spec tables options words false
  rw [Bool.false_or, ← collectWordMasks] at hany
  refine ⟨hsame, ?_⟩
  rw [collectWordCapitalization, hany]
  split_ifs
  · rw [List.length_map]
    exact hsame.length
  · rfl

/-- What the prefixes of a word come to. -/
def keptPrefixes (options : PrefixOptions) (k : List Char × ℕ × Bool) : List Char × ℕ × Bool :=
  match options.article k.1 with
  | some id => (k.1, id, true)
  | none =>
    (if options.exactForm && hasExactFormMarker k.1 then k.1.drop 1 else k.1, k.2.1, k.2.2)

theorem kept_processPrefixes (options : PrefixOptions) (word : KeyWordInfo) :
    (processPrefixes options word).kept = keptPrefixes options word.kept := by
  simp only [processPrefixes, keptPrefixes, KeyWordInfo.kept]
  cases options.article word.originalText with
  | some id => rfl
  | none =>
    by_cases hmark : (options.exactForm && hasExactFormMarker word.originalText) = true
    · simp only [hmark, if_true]
    · simp only [hmark, if_false, Bool.false_eq_true]

theorem SameWords.processPrefixes (h : SameWords words words') (options : PrefixOptions) :
    SameWords (words.map (processPrefixes options)) (words'.map (processPrefixes options)) := by
  have hcomp : KeyWordInfo.kept ∘ Gzt.processPrefixes options =
      keptPrefixes options ∘ KeyWordInfo.kept := funext (kept_processPrefixes options)
  rw [SameWords, List.map_map, List.map_map, hcomp, ← List.map_map, ← List.map_map, h]

theorem SameWords.filterLength (h : SameWords words words') :
    filterLength words' = filterLength words := by
  have hany : ∀ words : List KeyWordInfo, (words.any (·.isArticle)) =
      (words.map KeyWordInfo.kept).any (·.2.2) := by
    intro words
    rw [List.any_map]
    rfl
  have hmap : ∀ words : List KeyWordInfo,
      words.map (fun word => (⟨word.id, word.isArticle⟩ : KeyWord)) =
        (words.map KeyWordInfo.kept).map fun k => ⟨k.2.1, k.2.2⟩ := by
    intro words
    rw [List.map_map]
    rfl
  rw [Gzt.filterLength, Gzt.filterLength, hany, hany, hmap, hmap, h.length, h]

end Loops

theorem length_buildCompoundLoop_le (plain : List ℕ) (words : List KeyWord) :
    (buildCompoundLoop plain words).length ≤ plain.length + words.length := by
  have hrun : ∀ ids : List ℕ, (CompoundElement.run ids).length ≤ ids.length := by
    intro ids
    cases ids <;> simp [CompoundElement.run]
  induction words generalizing plain with
  | nil => simpa [buildCompoundLoop] using hrun plain
  | cons word words ih =>
    rw [buildCompoundLoop]
    split_ifs
    · have hrest := ih []
      have hplain := hrun plain
      simp only [List.length_append, List.length_cons, List.length_nil] at hrest ⊢
      omega
    · have hrest := ih (plain ++ [word.id])
      simp only [List.length_append, List.length_cons, List.length_nil] at hrest ⊢
      omega

theorem filterLength_le (words : List KeyWordInfo) : filterLength words ≤ words.length := by
  rw [filterLength]
  split_ifs
  · have := length_buildCompoundLoop_le [] (words.map fun word => ⟨word.id, word.isArticle⟩)
    simpa [buildCompoundArticle] using this
  · exact le_refl _

theorem lt_of_mem_namedWords {numbers : List ℕ} {n i : ℕ} (h : i ∈ namedWords numbers n) :
    i < n := by
  by_cases hnumbers : numbers = []
  · rw [namedWords, if_pos hnumbers, Finset.mem_range] at h
    exact h
  · exact ((mem_namedWords hnumbers).mp h).1

theorem slotOf_eq {w : ℕ} (hpos : 0 < w) (hlt : w < 2 ^ 32) : slotOf w = w - 1 := by
  rw [slotOf]
  omega

theorem keyWordIndexes_eq_iff {numbers : List ℕ} (h : ∀ w ∈ numbers, w < 2 ^ 32) (n : ℕ) :
    (keyWordIndexes numbers n).toFinset = namedWords numbers n ↔ 0 ∉ numbers := by
  by_cases hnumbers : numbers = []
  · subst hnumbers
    simp only [keyWordIndexes, namedWords, if_true, List.not_mem_nil, not_false_eq_true, iff_true]
    ext i
    simp
  · have hmem : ∀ i, i ∈ (keyWordIndexes numbers n).toFinset ↔
        ∃ w ∈ numbers, w ≤ n ∧ slotOf w = i := by
      intro i
      simp [keyWordIndexes, hnumbers, and_assoc]
    constructor
    · intro heq hzero
      have hslot := (hmem (slotOf 0)).mpr ⟨0, hzero, Nat.zero_le n, rfl⟩
      rw [heq, mem_namedWords hnumbers] at hslot
      exact absurd (h _ hslot.2) (by simp [slotOf])
    · intro hzero
      ext i
      rw [hmem, mem_namedWords hnumbers]
      constructor
      · rintro ⟨w, hw, hle, rfl⟩
        have hpos : 0 < w := Nat.pos_of_ne_zero fun h0 => hzero (h0 ▸ hw)
        rw [slotOf_eq hpos (h w hw), Nat.sub_add_cancel hpos]
        exact ⟨by omega, hw⟩
      · rintro ⟨hlt, hw⟩
        exact ⟨i + 1, hw, hlt, slotOf_eq (Nat.succ_pos i) (h _ hw)⟩

/-- The numbers of an option mean the same for a filter of `m` words as in a key of `n` words. -/
def NumbersKept (numbers : List ℕ) (m n : ℕ) : Prop :=
  if numbers = [] then m = n ∧ n < 256 else ∀ w ∈ numbers, 0 < w → w ≤ n → w ≤ m ∧ w ≤ 256

theorem collectWordIndexes_eq_iff (numbers : List ℕ) {m n : ℕ} (hmn : m ≤ n) :
    (∃ indexes, collectWordIndexes numbers m = some indexes ∧
      indexes.toFinset = namedWords numbers n) ↔ NumbersKept numbers m n := by
  by_cases hnumbers : numbers = []
  · simp only [collectWordIndexes, NumbersKept, namedWords, if_pos hnumbers]
    by_cases hm : m < 256
    · simp only [if_pos hm, Option.some.injEq, exists_eq_left']
      have hrange : (List.range m).toFinset = Finset.range m := by
        ext i
        simp
      rw [hrange]
      constructor
      · intro heq
        have hmn := congrArg Finset.card heq
        rw [Finset.card_range, Finset.card_range] at hmn
        exact ⟨hmn, hmn ▸ hm⟩
      · intro h
        rw [h.1]
    · simp only [if_neg hm, reduceCtorEq, false_and, exists_false, false_iff, not_and]
      omega
  · obtain ⟨indexes, hindexes⟩ : ∃ indexes, collectWordIndexes numbers m = some indexes := by
      rw [collectWordIndexes, if_neg hnumbers]
      exact ⟨_, rfl⟩
    simp only [hindexes, Option.some.injEq, exists_eq_left', NumbersKept, if_neg hnumbers]
    have hmem := mem_collectWordIndexes hindexes hnumbers
    constructor
    · intro heq w hw hpos hle
      have hin : w - 1 ∈ indexes.toFinset := by
        rw [heq, mem_namedWords hnumbers, Nat.sub_add_cancel hpos]
        exact ⟨by omega, hw⟩
      obtain ⟨w', -, hpos', hle', hmod⟩ := (hmem _).mp (List.mem_toFinset.mp hin)
      have hlt := Nat.mod_lt (w' - 1) (show 0 < 256 by decide)
      have hmodle := Nat.mod_le (w' - 1) 256
      omega
    · intro hkept
      ext i
      rw [List.mem_toFinset, hmem, mem_namedWords hnumbers]
      constructor
      · rintro ⟨w, hw, hpos, hle, rfl⟩
        have h256 := (hkept w hw hpos (hle.trans hmn)).2
        rw [Nat.mod_eq_of_lt (by omega), Nat.sub_add_cancel hpos]
        exact ⟨by omega, hw⟩
      · rintro ⟨hlt, hw⟩
        obtain ⟨hle, h256⟩ := hkept _ hw (Nat.succ_pos i) hlt
        exact ⟨i + 1, hw, Nat.succ_pos i, hle, by omega⟩

section Keys
variable {tables : MatchTables} {options : PrefixOptions} {key : NumberedKey}
  {texts : List (List Char)}

/-- If an option with the exact case names a word at all, some such option has no word numbers, and
some word is no article. -/
def MasksFilled (options : PrefixOptions) (key : NumberedKey) (texts : List (List Char)) : Prop :=
  (∃ o ∈ key.case, hasExact o = true ∧ (namedWords o.words texts.length).Nonempty) →
    (∃ o ∈ key.case, hasExact o = true ∧ o.words = []) ∧
      ∃ text ∈ texts, options.article text = none

/-- The words of a key as they are after the prefixes. -/
def preparedWords (options : PrefixOptions) (texts : List (List Char)) : List KeyWordInfo :=
  texts.map fun text => processPrefixes options { originalText := text }

theorem preparedWords_plain :
    ((preparedWords options texts).any fun word => !word.isArticle) = true ↔
      ∃ text ∈ texts, options.article text = none := by
  have hword : ∀ text, (processPrefixes options { originalText := text }).isArticle = false ↔
      options.article text = none := by
    intro text
    rw [processPrefixes]
    cases options.article text with
    | some id => simp
    | none => split_ifs <;> simp
  simp [preparedWords, List.any_map, hword]

/-- The steps before the filter end exactly if every index that they visit is in range. -/
theorem prepareKey_spec :
    ((∃ r, prepareKey tables options key texts = some r) ↔ ∀ numbers ∈ key.trieNumbers texts,
      ∀ i ∈ keyWordIndexes numbers texts.length, i < texts.length) ∧
    ∀ r, prepareKey tables options key texts = some r →
      SameWords (preparedWords options texts) r.1 ∧ r.2.length =
        if ((key.case.any fun o => hasExact o && o.words.isEmpty) &&
          (preparedWords options texts).any fun word => !word.isArticle) then texts.length
        else 0 := by
  obtain ⟨hlang, hlangSame⟩ := collectWordLanguage_spec key.lang
    (texts.map fun text => ({ originalText := text } : KeyWordInfo))
  have hlangNumbers : (∀ numbers ∈ (key.lang.filter fun o => !o.allow.isEmpty).map (·.words),
      ∀ i ∈ keyWordIndexes numbers texts.length, i < texts.length) ↔
      ∀ o ∈ key.lang, o.allow ≠ [] → ∀ i ∈ keyWordIndexes o.words texts.length,
        i < texts.length := by
    rw [List.forall_mem_map]
    simp
  rw [List.length_map] at hlang
  simp only [NumberedKey.trieNumbers, List.forall_mem_append]
  rw [hlangNumbers, prepareKey, ← hlang]
  cases h₁ : collectWordLanguage key.lang
      (texts.map fun text => ({ originalText := text } : KeyWordInfo)) with
  | none => simp
  | some words₁ =>
    have hsame₁ := hlangSame words₁ h₁
    have hlength₁ : words₁.length = texts.length := by
      rw [hsame₁.length, List.length_map]
    simp only [Option.bind_eq_bind, Option.bind_some]
    cases texts with
    | nil =>
      have hnil : words₁ = [] := List.length_eq_zero_iff.mp hlength₁
      subst hnil
      refine ⟨by simp, ?_⟩
      intro r hr
      simp only [List.isEmpty_nil, if_true, Option.pure_def, Option.some.injEq] at hr
      subst hr
      exact ⟨rfl, by simp⟩
    | cons text texts =>
      have hne : words₁.isEmpty = false := by
        cases words₁ with
        | nil => simp at hlength₁
        | cons => rfl
      obtain ⟨hmorph, hmorphSame⟩ := collectWordMorph_spec key.morph words₁
      rw [hlength₁] at hmorph
      have hmorphNumbers : (∀ numbers ∈ key.morph.map (·.words),
          ∀ i ∈ keyWordIndexes numbers (text :: texts).length, i < (text :: texts).length) ↔
          ∀ rule ∈ key.morph, ∀ i ∈ keyWordIndexes rule.words (text :: texts).length,
            i < (text :: texts).length := List.forall_mem_map
      simp only [hne, List.isEmpty_cons, Bool.false_eq_true, if_false]
      rw [hmorphNumbers, ← hmorph]
      cases h₂ : collectWordMorph key.morph words₁ with
      | none => simp
      | some words₂ =>
        have hprepared := (hsame₁.trans (hmorphSame words₂ h₂)).processPrefixes options
        rw [List.map_map] at hprepared
        obtain ⟨hsame₃, hmasks⟩ := @collectWordCapitalization_spec tables key.case
          (words₂.map (processPrefixes options))
        refine ⟨by simp, ?_⟩
        intro r hr
        simp only [Option.bind_some, Option.pure_def, Option.some.injEq] at hr
        subst hr
        refine ⟨hprepared.trans hsame₃, ?_⟩
        rw [any_plain_same hprepared, hprepared.length, List.length_map] at hmasks
        exact hmasks

/-- The numbers of a key of 32-bit numbers are safe and mean the same everywhere exactly if no
option that the trie builder reads has the number 0, the numbers mean the same for the filter, and
the masks are filled if they are read. -/
theorem numbers_safe_uniform_iff
    (h32 : ∀ numbers ∈ key.trieNumbers texts, ∀ w ∈ numbers, w < 2 ^ 32) :
    NumbersSafe tables options key texts ∧ NumbersUniform options key texts ↔
      (∀ numbers ∈ key.trieNumbers texts, 0 ∉ numbers) ∧
      (∀ numbers ∈ key.filterNumbers,
        NumbersKept numbers (filterLength (preparedWords options texts)) texts.length) ∧
      MasksFilled options key texts := by
  have hle : filterLength (preparedWords options texts) ≤ texts.length := by
    have := filterLength_le (preparedWords options texts)
    rwa [preparedWords, List.length_map] at this
  have huniform : NumbersUniform options key texts ↔
      (∀ numbers ∈ key.trieNumbers texts, 0 ∉ numbers) ∧ ∀ numbers ∈ key.filterNumbers,
        NumbersKept numbers (filterLength (preparedWords options texts)) texts.length := by
    apply and_congr
    · exact forall₂_congr fun numbers hnumbers => keyWordIndexes_eq_iff (h32 numbers hnumbers) _
    · exact forall₂_congr fun numbers _ => collectWordIndexes_eq_iff numbers hle
  rw [and_comm, huniform, and_assoc]
  refine and_congr_right fun hzero => and_congr_right fun hkept => ?_
  -- without zeros every index is in range, and the filter reads the masks of the named words
  have hrange : ∀ numbers ∈ key.trieNumbers texts, ∀ i ∈ keyWordIndexes numbers texts.length,
      i < texts.length := by
    intro numbers hnumbers i hi
    apply @lt_of_mem_namedWords numbers
    rw [← (keyWordIndexes_eq_iff (h32 numbers hnumbers) _).mpr (hzero numbers hnumbers),
      List.mem_toFinset]
    exact hi
  have hread : ∀ o ∈ key.case, ∃ indexes, collectWordIndexes o.words
      (filterLength (preparedWords options texts)) = some indexes ∧
      indexes.toFinset = namedWords o.words texts.length := by
    intro o ho
    apply (collectWordIndexes_eq_iff o.words hle).mpr
    apply hkept
    simp only [NumberedKey.filterNumbers, List.mem_append, List.mem_map]
    exact Or.inl (Or.inr ⟨o, ho, rfl⟩)
  obtain ⟨r, hr⟩ := (@prepareKey_spec tables options key texts).1.mpr hrange
  obtain ⟨hsame, hmasks⟩ := prepareKey_spec.2 r hr
  have hfilled : ((key.case.any fun o => hasExact o && o.words.isEmpty) &&
      (preparedWords options texts).any fun word => !word.isArticle) = true ↔
      (∃ o ∈ key.case, hasExact o = true ∧ o.words = []) ∧
        ∃ text ∈ texts, options.article text = none := by
    rw [Bool.and_eq_true, preparedWords_plain, List.any_eq_true]
    simp
  have hsafe : NumbersSafe tables options key texts ↔ MasksRead key
      (filterLength (preparedWords options texts)) r.2 := by
    rw [NumbersSafe, hr, ← hsame.filterLength]
    simp
  rw [hsafe, MasksRead, MasksFilled, ← hfilled]
  constructor
  · intro hall hnamed
    obtain ⟨o, ho, hexact, i, hi⟩ := hnamed
    obtain ⟨indexes, hindexes, hset⟩ := hread o ho
    rw [← hset, List.mem_toFinset] at hi
    have hlt := hall o ho hexact indexes hindexes i hi
    by_contra hnone
    rw [hmasks, if_neg hnone] at hlt
    exact Nat.not_lt_zero _ hlt
  · intro hany o ho hexact indexes hindexes i hi
    obtain ⟨indexes', hindexes', hset⟩ := hread o ho
    rw [hindexes, Option.some.injEq] at hindexes'
    subst hindexes'
    have hmem : i ∈ namedWords o.words texts.length := by
      rw [← hset, List.mem_toFinset]
      exact hi
    rw [hmasks, if_pos (hany ⟨o, ho, hexact, i, hmem⟩)]
    exact lt_of_mem_namedWords hmem

end Keys

/-- A key of two words whose options name them with and without numbers. -/
def numberedKey : NumberedKey :=
  { lang := [{ words := [2], allow := [langRus] }], case := [{ allow := [.exact] }],
    agr := [{ words := [1, 2], types := [1] }], morph := [{ words := [1, 7], type := .exactForm }] }

def plainPrefixes : PrefixOptions :=
  { articleSubst := false, exactForm := true, articleIdentifier := fun _ => none }

theorem numbers_safe_uniform_two :
    NumbersSafe latinTables plainPrefixes numberedKey [['A', 'b'], ['!', 'c']] ∧
      NumbersUniform plainPrefixes numberedKey [['A', 'b'], ['!', 'c']] := by
  apply (numbers_safe_uniform_iff (by decide)).mpr
  refine ⟨by decide, ?_, ?_⟩
  · simp only [NumbersKept]
    decide
  · intro _
    exact ⟨⟨{ allow := [.exact] }, by simp [numberedKey], by decide, rfl⟩, ['A', 'b'], by simp, rfl⟩

/-- The mask of the word that an option with the exact case names by its number is not there. -/
theorem exact_number_unsafe : ¬ NumbersSafe latinTables plainPrefixes
    { case := [{ words := [1], allow := [.exact] }] } [['A', 'b']] := by
  intro h
  obtain ⟨r, hr, hread⟩ := h
  have hmasks : r = ([{ originalText := ['A', 'b'] }], []) := (Option.some.inj hr).symm
  subst hmasks
  exact Nat.not_lt_zero 0 (hread _ (List.mem_singleton.mpr rfl) (by decide) [0] (by decide) 0
    (by decide))

end TomitaParser.Gzt
