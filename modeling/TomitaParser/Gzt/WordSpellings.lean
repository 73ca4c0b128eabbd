import TomitaParser.Lib.Machine
import TomitaParser.Gzt.WordNumbers
/-! # The spellings of a key word

A key word is put into the word trie in its normalized form and, if they differ, in its lower-cased
form. The word trie is a map here.
-/

namespace TomitaParser.Gzt

abbrev Text := List Char

/-- `TWordIdTraits::Shift`: the two lowest bits are for flags. -/
def shiftWordId (word : ℕ) : ℕ := (word <<< 2) % 2 ^ 32

/-- `TWordIdTraits::SetFlags`. -/
def setFlags (shifted : ℕ) (exact isLemma : Bool) : ℕ :=
  (shifted ||| if exact then 1 else 0) ||| if isLemma then 2 else 0

/-- `TWordIdTraits::ClearFlags`. -/
def clearFlags (shifted : ℕ) : ℕ := shifted >>> 2 <<< 2

/-- A word id without its flags. -/
def wordNumber (encoded : ℕ) : ℕ := encoded >>> 2

@[simp] theorem wordNumber_setFlags (shifted : ℕ) (exact isLemma : Bool) :
    wordNumber (setFlags shifted exact isLemma) = wordNumber shifted := by
  rw [wordNumber, wordNumber, setFlags, Nat.shiftRight_or_distrib, Nat.shiftRight_or_distrib]
  cases exact <;> cases isLemma <;> simp

@[simp] theorem wordNumber_clearFlags (shifted : ℕ) :
    wordNumber (clearFlags shifted) = wordNumber shifted := by
  simp [wordNumber, clearFlags, Nat.shiftLeft_eq, Nat.shiftRight_eq_div_pow]

/-- The flags of a word id that are set. -/
def HasFlags (encoded : ℕ) (exact isLemma : Bool) : Prop :=
  (exact = true → encoded.testBit 0 = true) ∧ (isLemma = true → encoded.testBit 1 = true)

theorem hasFlags_setFlags (shifted : ℕ) (exact isLemma : Bool) :
    HasFlags (setFlags shifted exact isLemma) exact isLemma := by
  simp only [HasFlags, setFlags, Nat.testBit_or, Bool.or_eq_true]
  constructor
  · intro h
    exact Or.inl (Or.inr (by rw [h]; decide))
  · intro h
    exact Or.inr (by rw [h]; decide)

theorem HasFlags.setFlags {encoded : ℕ} {exact isLemma : Bool} (h : HasFlags encoded exact isLemma)
    (exact' isLemma' : Bool) : HasFlags (setFlags encoded exact' isLemma') exact isLemma := by
  simp only [HasFlags, Gzt.setFlags, Nat.testBit_or, Bool.or_eq_true] at h ⊢
  exact ⟨fun he => Or.inl (Or.inl (h.1 he)), fun hl => Or.inl (Or.inl (h.2 hl))⟩

/-- The conversions of the letters of a word, by languages. -/
structure AlphaRules where
  /-- `SoftDecompose` and `SoftCompose`. -/
  soft : ℕ → Text → Text
  toLower : ℕ → Text → Text
  convert : ℕ → Text → Text

def langUnk : ℕ := 0

/-- The texts of a `TKeyWordInfo`. -/
structure SpelledWord where
  originalText : Text
  lowerCasedText : Text
  normalizedText : Text
  language : ℕ := langUnk
  isAnyWord : Bool := false
deriving DecidableEq

/-- `NormalizeKeyWord`. The Russian converter is for words without a language. -/
def normalizeKeyWord (rules : AlphaRules) (language : ℕ) (text : Text) : SpelledWord :=
  let original := rules.soft language text
  let lowerCased := rules.toLower language original
  { originalText := original
    lowerCasedText := lowerCased
    normalizedText := rules.convert (if language = langUnk then langRus else language) lowerCased
    language := language }

/-- What `ProcessPrefixes` leaves of a word with the marker of an exact form. -/
def SpelledWord.skipMarker (word : SpelledWord) : SpelledWord :=
  { word with
    originalText := word.originalText.drop 1
    lowerCasedText := word.lowerCasedText.drop 1
    normalizedText := word.normalizedText.drop 1 }

/-- A lemma that the lemmer gives for a word. -/
structure LemmerWord where
  text : Text
  isDictionary : Bool

/-- A call of a function `AddWord`: for a word of a key, or for the text of a lemma. -/
inductive WordCall where
  | word (word : SpelledWord) (exact isLemma : Bool)
  | lemmaText (text : Text)

/-- The calls of `AddLemmasOfWord`. -/
def lemmaCalls (lemmer : ℕ → Text → List LemmerWord) (word : SpelledWord) : List WordCall :=
  let lemmata := lemmer (if word.language = langUnk then langRus else word.language)
    word.originalText
  if lemmata.isEmpty || lemmata.map (·.text) == [word.normalizedText] then [.word word false true]
  else
    let r := lemmata.foldl (fun (r : Bool × Bool) l =>
      let hasGoodLemma := r.2 || l.isDictionary
      (r.1 || !hasGoodLemma && word.normalizedText == l.text, hasGoodLemma)) (false, false)
    lemmata.map (fun l => .lemmaText l.text) ++
      if !r.1 && !r.2 then [.word word true false] else []

/-- The calls of `AddWordWithMorphType`. -/
def wordCalls (lemmer : ℕ → Text → List LemmerWord) (word : SpelledWord) :
    MorphType → List WordCall
  | .exactForm => [.word word true false]
  | .allForms => [.word word false true]
  | .allLemmaForms => lemmaCalls lemmer word

structure WordTrieBuilder where
  wordTrie : Text → Option ℕ := fun _ => none
  nextWordId : ℕ := 1
  metaAnyWordId : ℕ := 0

namespace WordTrieBuilder

/-- A text with a word id, new or not. -/
def set (b : WordTrieBuilder) (text : Text) (encoded : ℕ) : WordTrieBuilder :=
  { b with wordTrie := fun t => if t = text then some encoded else b.wordTrie t }

/-- The id that a text has, or gets next. -/
def idOf (b : WordTrieBuilder) (text : Text) : ℕ :=
  (b.wordTrie text).getD (shiftWordId b.nextWordId)

/-- `AddWord` for a text. -/
def addText (b : WordTrieBuilder) (text : Text) (exact isLemma : Bool) : WordTrieBuilder × ℕ :=
  let encoded := setFlags (b.idOf text) exact isLemma
  let next := if (b.wordTrie text).isSome then b.nextWordId else b.nextWordId + 1
  ({ b.set text encoded with nextWordId := next }, setFlags (clearFlags encoded) exact isLemma)

/-- `AddWord` for a word of a key. -/
def addWord (b : WordTrieBuilder) (word : SpelledWord) (exact isLemma : Bool) :
    WordTrieBuilder × ℕ :=
  if word.isAnyWord then
    if b.metaAnyWordId = 0 then
      ({ b with metaAnyWordId := shiftWordId b.nextWordId, nextWordId := b.nextWordId + 1 },
        shiftWordId b.nextWordId)
    else (b, b.metaAnyWordId)
  else
    let r := b.addText word.normalizedText exact isLemma
    if word.lowerCasedText = word.normalizedText then r
    else
      match r.1.wordTrie word.lowerCasedText with
      | none => (r.1.set word.lowerCasedText r.2, r.2)
      | some encoded => (r.1.set word.lowerCasedText (setFlags encoded exact isLemma), r.2)

def step (b : WordTrieBuilder) : WordCall → WordTrieBuilder × ℕ
  | .word word exact isLemma => b.addWord word exact isLemma
  | .lemmaText text => b.addText text false true

end WordTrieBuilder

/-- A word of a key with its options. -/
structure KeyWordText where
  text : Text
  language : ℕ := langUnk
  morph : MorphType := .allForms
  isAnyWord : Bool := false

/-- The calls for a word of a key that `AddCurrentKeyWords` makes, none for an article. -/
def keyWordCalls (rules : AlphaRules) (lemmer : ℕ → Text → List LemmerWord)
    (options : PrefixOptions) (kw : KeyWordText) : List WordCall :=
  let word := { normalizeKeyWord rules kw.language kw.text with isAnyWord := kw.isAnyWord }
  if (options.article word.originalText).isSome then []
  else if options.exactForm && hasExactFormMarker word.originalText then
    [.word word.skipMarker true false]
  else wordCalls lemmer word kw.morph

/-- The calls for all keys of a builder. -/
def keysCalls (rules : AlphaRules) (lemmer : ℕ → Text → List LemmerWord) (options : PrefixOptions)
    (keys : List (List KeyWordText)) : List WordCall :=
  keys.flatten.flatMap (keyWordCalls rules lemmer options)

namespace WordTrieBuilder

/-- A text leads to a word id, with the flags of its use. -/
def Leads (b : WordTrieBuilder) (text : Text) (exact isLemma : Bool) (id : ℕ) : Prop :=
  ∃ encoded, b.wordTrie text = some encoded ∧ wordNumber encoded = wordNumber id ∧
    HasFlags encoded exact isLemma

/-- Both spellings of every plain word lead to the id that the call for it has given. -/
def SpellingsLead (b : WordTrieBuilder) (calls : List WordCall) (ids : List ℕ) : Prop :=
  ∀ (i : ℕ) word exact isLemma id, calls[i]? = some (.word word exact isLemma) →
    word.isAnyWord = false → ids[i]? = some id →
      b.Leads word.normalizedText exact isLemma id ∧ b.Leads word.lowerCasedText exact isLemma id

/-- The text of every lemma that is stored for a word leads to the id that is used for it. -/
def LemmataLead (b : WordTrieBuilder) (calls : List WordCall) (ids : List ℕ) : Prop :=
  ∀ (i : ℕ) text id, calls[i]? = some (.lemmaText text) → ids[i]? = some id →
    b.Leads text false true id

/-- The normalized form of every plain word that is stored itself leads to its id. -/
def NormalizedLead (b : WordTrieBuilder) (calls : List WordCall) (ids : List ℕ) : Prop :=
  ∀ (i : ℕ) word exact isLemma id, calls[i]? = some (.word word exact isLemma) →
    word.isAnyWord = false → ids[i]? = some id → b.Leads word.normalizedText exact isLemma id

/-- The lower-cased form is new, or it has the id of the normalized form. -/
def CallOk (b : WordTrieBuilder) : WordCall → Prop
  | .word word _ _ => word.isAnyWord = false → word.lowerCasedText ≠ word.normalizedText →
    ∀ encoded, b.wordTrie word.lowerCasedText = some encoded →
      wordNumber encoded = wordNumber (b.idOf word.normalizedText)
  | .lemmaText _ => True

/-- Texts keep their numbers and flags. -/
def Grows (b b' : WordTrieBuilder) : Prop :=
  ∀ text encoded, b.wordTrie text = some encoded → ∃ encoded', b'.wordTrie text = some encoded' ∧
    wordNumber encoded' = wordNumber encoded ∧
      ∀ exact isLemma, HasFlags encoded exact isLemma → HasFlags encoded' exact isLemma

variable {b b' b'' : WordTrieBuilder}

theorem Grows.refl (b : WordTrieBuilder) : Grows b b :=
  fun _ encoded h => ⟨encoded, h, rfl, fun _ _ h => h⟩

theorem Grows.trans (h : Grows b b') (h' : Grows b' b'') : Grows b b'' := by
  intro text encoded htext
  obtain ⟨encoded', htext', hnumber, hflags⟩ := h text encoded htext
  obtain ⟨encoded'', htext'', hnumber', hflags'⟩ := h' text encoded' htext'
  exact ⟨encoded'', htext'', hnumber'.trans hnumber, fun e l hf => hflags' e l (hflags e l hf)⟩

theorem Grows.leads_iff (h : Grows b b') {text : Text} {encoded : ℕ}
    (htext : b.wordTrie text = some encoded) {exact isLemma : Bool}
    (hflags : HasFlags encoded exact isLemma) (id : ℕ) :
    b'.Leads text exact isLemma id ↔ wordNumber encoded = wordNumber id := by
  obtain ⟨encoded', htext', hnumber, hkeep⟩ := h text encoded htext
  constructor
  · intro hleads
    obtain ⟨found, hfound, hid, -⟩ := hleads
    rw [htext', Option.some.injEq] at hfound
    rw [← hnumber, hfound, hid]
  · intro hid
    exact ⟨encoded', htext', hnumber.trans hid, hkeep _ _ hflags⟩

theorem set_wordTrie (b : WordTrieBuilder) (text : Text) (encoded : ℕ) (t : Text) :
    (b.set text encoded).wordTrie t = if t = text then some encoded else b.wordTrie t := rfl

theorem grows_set {text : Text} {encoded : ℕ} (h : ∀ old, b.wordTrie text = some old →
    wordNumber encoded = wordNumber old ∧
      ∀ exact isLemma, HasFlags old exact isLemma → HasFlags encoded exact isLemma) :
    Grows b (b.set text encoded) := by
  intro t old hold
  rw [set_wordTrie]
  by_cases ht : t = text
  · subst ht
    rw [if_pos rfl]
    exact ⟨encoded, rfl, h old hold⟩
  · rw [if_neg ht]
    exact ⟨old, hold, rfl, fun _ _ h => h⟩

theorem addText_spec (b : WordTrieBuilder) (text : Text) (exact isLemma : Bool) :
    let r := b.addText text exact isLemma
    r.1.wordTrie text = some (setFlags (b.idOf text) exact isLemma) ∧
      (∀ t, t ≠ text → r.1.wordTrie t = b.wordTrie t) ∧ Grows b r.1 ∧
      wordNumber r.2 = wordNumber (b.idOf text) ∧ HasFlags r.2 exact isLemma := by
  refine ⟨?_, ?_, ?_, ?_, ?_⟩
  · exact if_pos rfl
  · intro t ht
    exact if_neg ht
  · have hgrows : Grows b (b.set text (setFlags (b.idOf text) exact isLemma)) := by
      apply grows_set
      intro old hold
      rw [idOf, hold, Option.getD_some]
      exact ⟨wordNumber_setFlags old exact isLemma, fun _ _ h => h.setFlags exact isLemma⟩
    exact hgrows
  · simp [addText]
  · exact hasFlags_setFlags _ _ _

/-- What `AddWord` for a plain word of a key does. -/
theorem addWord_spec (b : WordTrieBuilder) {word : SpelledWord} (hplain : word.isAnyWord = false)
    (exact isLemma : Bool) :
    let r := b.addWord word exact isLemma
    Grows b r.1 ∧
      (∃ encoded, r.1.wordTrie word.normalizedText = some encoded ∧
        wordNumber encoded = wordNumber r.2 ∧ HasFlags encoded exact isLemma) ∧
      ∃ encoded, r.1.wordTrie word.lowerCasedText = some encoded ∧
        HasFlags encoded exact isLemma ∧
        (wordNumber encoded = wordNumber r.2 ↔ b.CallOk (.word word exact isLemma)) := by
  obtain ⟨hnorm, hother, hgrows, hnumber, hflags⟩ :=
    b.addText_spec word.normalizedText exact isLemma
  have hset := hasFlags_setFlags (b.idOf word.normalizedText) exact isLemma
  have hid : wordNumber (setFlags (b.idOf word.normalizedText) exact isLemma) =
      wordNumber (b.addText word.normalizedText exact isLemma).2 := by
    rw [wordNumber_setFlags, hnumber]
  simp only [addWord, hplain, Bool.false_eq_true, if_false]
  by_cases hsame : word.lowerCasedText = word.normalizedText
  · rw [if_pos hsame]
    refine ⟨hgrows, ⟨_, hnorm, hid, hset⟩, _, by rw [hsame]; exact hnorm, hset, ?_⟩
    exact iff_of_true hid fun _ hne => absurd hsame hne
  · have hlookup := hother _ hsame
    rw [if_neg hsame, hlookup]
    have hne : word.normalizedText ≠ word.lowerCasedText := fun h => hsame h.symm
    cases hlower : b.wordTrie word.lowerCasedText with
    | none =>
      refine ⟨hgrows.trans (grows_set ?_), ⟨_, ?_, hid, hset⟩, _, if_pos rfl, hflags, ?_⟩
      · intro old hold
        rw [hlookup, hlower] at hold
        exact absurd hold (by simp)
      · rw [set_wordTrie, if_neg hne, hnorm]
      · refine iff_of_true rfl fun _ _ encoded hencoded => ?_
        rw [hlower] at hencoded
        exact absurd hencoded (by simp)
    | some encoded =>
      refine ⟨hgrows.trans (grows_set ?_), ⟨_, ?_, hid, hset⟩, _, if_pos rfl,
        hasFlags_setFlags encoded exact isLemma, ?_⟩
      · intro old hold
        rw [hlookup, hlower, Option.some.injEq] at hold
        rw [← hold]
        exact ⟨wordNumber_setFlags _ _ _, fun _ _ h => h.setFlags exact isLemma⟩
      · rw [set_wordTrie, if_neg hne, hnorm]
      · rw [wordNumber_setFlags, hnumber]
        constructor
        · intro heq _ _ found hfound
          rw [hlower, Option.some.injEq] at hfound
          rw [← hfound, heq]
        · intro hok
          exact hok hplain hsame encoded hlower

theorem step_grows (b : WordTrieBuilder) (call : WordCall) : Grows b (b.step call).1 := by
  cases call with
  | lemmaText text => exact (b.addText_spec text false true).2.2.1
  | word word exact isLemma =>
    cases hplain : word.isAnyWord with
    | false => exact (b.addWord_spec hplain exact isLemma).1
    | true =>
      simp only [step, addWord, hplain, if_true]
      split_ifs <;> exact Grows.refl b

theorem run_grows (b : WordTrieBuilder) (calls : List WordCall) :
    Grows b (Machine.run step b calls).1 := by
  induction calls generalizing b with
  | nil => exact Grows.refl b
  | cons call calls ih => exact (step_grows b call).trans (ih (b.step call).1)

theorem leads_iff_callOk {word : SpelledWord} (hplain : word.isAnyWord = false)
    (exact isLemma : Bool) (h : Grows (b.step (.word word exact isLemma)).1 b') :
    (b'.Leads word.normalizedText exact isLemma (b.step (.word word exact isLemma)).2 ∧
      b'.Leads word.lowerCasedText exact isLemma (b.step (.word word exact isLemma)).2) ↔
      b.CallOk (.word word exact isLemma) := by
  obtain ⟨-, ⟨norm, hnorm, hid, hnormFlags⟩, lower, hlower, hlowerFlags, hok⟩ :=
    b.addWord_spec hplain exact isLemma
  rw [h.leads_iff hnorm hnormFlags, h.leads_iff hlower hlowerFlags]
  constructor
  · exact fun hleads => hok.mp hleads.2
  · exact fun hcall => ⟨hid, hok.mpr hcall⟩

/-- What a call leaves is there after all later ones. -/
theorem run_of_step {P : WordTrieBuilder → WordCall → ℕ → WordTrieBuilder → Prop}
    (hstep : ∀ b call b', Grows (b.step call).1 b' → P b call (b.step call).2 b')
    (b : WordTrieBuilder) (calls : List WordCall) {i : ℕ} {call : WordCall} {id : ℕ}
    (hcall : calls[i]? = some call) (hid : (Machine.run step b calls).2[i]? = some id) :
    P (Machine.run step b (calls.take i)).1 call id (Machine.run step b calls).1 := by
  induction calls generalizing b i with
  | nil => simp at hcall
  | cons first calls ih =>
    cases i with
    | zero =>
      rw [List.getElem?_cons_zero, Option.some.injEq] at hcall
      subst hcall
      rw [← (Option.some.inj hid : (b.step first).2 = id)]
      exact hstep b first _ (run_grows (b.step first).1 calls)
    | succ i => exact ih (b.step first).1 hcall hid

theorem run_lemmataLead (b : WordTrieBuilder) (calls : List WordCall) :
    LemmataLead (Machine.run step b calls).1 calls (Machine.run step b calls).2 := by
  intro i text id hcall hid
  refine run_of_step (P := fun _ call id b' => ∀ text, call = .lemmaText text →
    b'.Leads text false true id) ?_ b calls hcall hid text rfl
  rintro b _ b' hgrows text rfl
  obtain ⟨htext, -, -, hnumber, -⟩ := b.addText_spec text false true
  rw [hgrows.leads_iff htext (hasFlags_setFlags _ _ _), wordNumber_setFlags]
  exact hnumber.symm

theorem run_normalizedLead (b : WordTrieBuilder) (calls : List WordCall) :
    NormalizedLead (Machine.run step b calls).1 calls (Machine.run step b calls).2 := by
  intro i word exact isLemma id hcall hplain hid
  refine run_of_step (P := fun _ call id b' => ∀ word exact isLemma,
    call = .word word exact isLemma → word.isAnyWord = false →
      b'.Leads word.normalizedText exact isLemma id) ?_ b calls hcall hid word exact isLemma rfl
    hplain
  rintro b _ b' hgrows word exact isLemma rfl hplain
  obtain ⟨-, ⟨norm, hnorm, hnumber, hflags⟩, -⟩ := b.addWord_spec hplain exact isLemma
  exact (hgrows.leads_iff hnorm hflags _).mpr hnumber

theorem run_spellingsLead_iff (b : WordTrieBuilder) (calls : List WordCall) :
    SpellingsLead (Machine.run step b calls).1 calls (Machine.run step b calls).2 ↔
      ∀ (i : ℕ) call, calls[i]? = some call →
        (Machine.run step b (calls.take i)).1.CallOk call := by
  induction calls generalizing b with
  | nil => simp [SpellingsLead]
  | cons call calls ih =>
    have hrest := ih (b.step call).1
    have hfirst : (∀ word exact isLemma, call = .word word exact isLemma →
        word.isAnyWord = false →
          (Machine.run step b (call :: calls)).1.Leads word.normalizedText exact isLemma
            (b.step call).2 ∧
          (Machine.run step b (call :: calls)).1.Leads word.lowerCasedText exact isLemma
            (b.step call).2) ↔ b.CallOk call := by
      cases call with
      | lemmaText text => simp [CallOk]
      | word word exact isLemma =>
        have hlater := run_grows (b.step (.word word exact isLemma)).1 calls
        constructor
        · intro hleads hplain
          exact (leads_iff_callOk hplain exact isLemma hlater).mp
            (hleads word exact isLemma rfl hplain) hplain
        · intro hok word' exact' isLemma' heq hplain
          cases heq
          exact (leads_iff_callOk hplain exact isLemma hlater).mpr hok
    constructor
    · intro hlead i next hnext
      cases i with
      | zero =>
        rw [List.getElem?_cons_zero, Option.some.injEq] at hnext
        subst hnext
        refine hfirst.mp fun word exact isLemma heq hplain => ?_
        exact hlead 0 word exact isLemma _ (by rw [heq]; rfl) hplain rfl
      | succ i =>
        refine hrest.mp (fun j word exact isLemma id hj hplain hid => ?_) i next hnext
        exact hlead (j + 1) word exact isLemma id hj hplain hid
    · intro hok i word exact isLemma id hi hplain hid
      cases i with
      | zero =>
        rw [List.getElem?_cons_zero, Option.some.injEq] at hi
        have hleads := hfirst.mpr (hok 0 call rfl) word exact isLemma hi hplain
        rw [← (Option.some.inj hid : (b.step call).2 = id)]
        exact hleads
      | succ i =>
        exact hrest.mpr (fun j next hnext => hok (j + 1) next hnext) i word exact isLemma id hi
          hplain hid

/-- The converter of the Russian language takes one letter for another. -/
def yoRules : AlphaRules where
  soft _ text := text
  toLower _ text := text
  convert language text :=
    if language = langRus then text.map fun c => if c = 'ё' then 'е' else c else text

/-- A word of another language keeps the spelling that a Russian word is to have. -/
theorem yo_spellings_lead_apart :
    let calls := keysCalls yoRules (fun _ _ => []) plainPrefixes
      [[{ text := ['ё', 'ж'], language := 2 }], [{ text := ['ё', 'ж'], language := langRus }]]
    ¬ SpellingsLead (Machine.run step {} calls).1 calls (Machine.run step {} calls).2 := by
  intro calls h
  obtain ⟨-, encoded, hencoded, hnumber, -⟩ := h 1 _ false true _ rfl rfl rfl
  have hsix : encoded = 6 := Option.some.inj (hencoded.symm.trans (by decide))
  rw [hsix] at hnumber
  exact absurd hnumber (by decide)

end WordTrieBuilder

end TomitaParser.Gzt
