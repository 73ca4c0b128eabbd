import TomitaParser.Lib.Pieces
import TomitaParser.Gzt.WordNumbers
/-! # Custom tokenization of a key

`TRetokenizer` writes spaces into the text of a key and keeps track of the words, then it changes
the word numbers of the options.
-/

namespace TomitaParser.Gzt
open Pieces

/-- The classes of characters. A space belongs to the white space only. -/
structure CharTables where
  isAlnum : Char → Bool
  isAlpha : Char → Bool
  isWhitespace : Char → Bool
  isDigit : Char → Bool
  isAlnum_space : isAlnum ' ' = false
  isAlpha_space : isAlpha ' ' = false
  isWhitespace_space : isWhitespace ' ' = true

/-- `ETokCharClass`. -/
inductive TokCharClass where
  | alpha | digit | punct | whitespace
deriving DecidableEq, Repr

/-- `IsMarkerChar`. -/
def isMarkerChar (c : Char) : Bool := c == '!' || c == '$'

/-- The state of `RetokenizeKey`: the text up to the current symbol, the last symbol first. -/
structure Retokenizer where
  text : List Char := []
  wordsMap : List ℕ := []
  curWord : ℕ := 0
  wordsMapShift : ℕ := 0
  originalSpace : Bool := true
  modified : Bool := false
  retokenized : Bool := false
  prevCharClass : TokCharClass := .whitespace

namespace Retokenizer
variable (tables : CharTables)

/-- `IsTokenMarker`, for the text before a symbol and the symbol after it. -/
def isTokenMarker (before : List Char) (c : Char) (next : Option Char) : Bool :=
  isMarkerChar c && (before.head?.all (· == ' ')) && next.any tables.isAlnum

/-- `GetTokCharClass`. -/
def tokCharClass (before : List Char) (c : Char) (next : Option Char) : TokCharClass :=
  if tables.isAlpha c then .alpha
  else if tables.isWhitespace c then .whitespace
  else if tables.isDigit c then .digit
  else if isTokenMarker tables before c next then .whitespace
  else .punct

/-- `NextWordBegins`. -/
def nextWordBegins (s : Retokenizer) (originalSpace : Bool) : Retokenizer :=
  if originalSpace then
    { s with wordsMap := s.wordsMap ++ [s.curWord + s.wordsMapShift], curWord := s.curWord + 1 }
  else { s with wordsMapShift := s.wordsMapShift + 1 }

/-- A symbol that stays. A word begins with it after a space. -/
def keep (s : Retokenizer) (c : Char) : Retokenizer :=
  let s := if s.modified || s.originalSpace then
    { s.nextWordBegins s.originalSpace with
      retokenized := s.retokenized || !s.originalSpace, modified := false, originalSpace := false }
    else s
  { s with text := c :: s.text }

/-- A space in the place of a symbol or before it. -/
def space (s : Retokenizer) : Retokenizer :=
  { s with text := ' ' :: s.text, modified := true, prevCharClass := .whitespace }

/-- The body of the loop for a symbol. If a space is inserted then the same symbol comes once more,
after the space, and it stays. -/
def visit (byClass : Bool) (s : Retokenizer) (c : Char) (next : Option Char) : Retokenizer :=
  if c = ' ' then
    { s with
      text := ' ' :: s.text, originalSpace := true
      prevCharClass := tokCharClass tables s.text ' ' next }
  else if !tables.isAlnum c && !isTokenMarker tables s.text c next then
    if byClass then { s.space with prevCharClass := tokCharClass tables s.text ' ' next }
    else { s.space with prevCharClass := s.prevCharClass }
  else if byClass then
    let cur := tokCharClass tables s.text c next
    if s.text ≠ [] ∧ cur ≠ s.prevCharClass ∧ cur ≠ .whitespace ∧ s.prevCharClass ≠ .whitespace then
      { s.space.keep c with prevCharClass := tokCharClass tables s.space.text c next }
    else { s.keep c with prevCharClass := cur }
  else s.keep c

/-- The loop of `RetokenizeKey`. -/
def loop (byClass : Bool) (s : Retokenizer) : List Char → Retokenizer
  | [] => s
  | c :: rest => loop byClass (visit tables byClass s c rest.head?) rest

/-- `RetokenizeKey`: the state after the last call of `NextWordBegins`. -/
def retokenizeKey (byClass : Bool) (keyText : List Char) : Retokenizer :=
  let s := loop tables byClass {} keyText
  s.nextWordBegins s.originalSpace

/-- `CorrectWordIndex`. -/
def correctWordIndex (s : Retokenizer) (index : ℕ) : ℕ :=
  if index = 0 ∨ s.wordsMap.length < index then index else s.wordsMap.getD (index - 1) 0 + 1

end Retokenizer

def WordOption.fixWords {V : Type} (f : ℕ → ℕ) (o : WordOption V) : WordOption V :=
  { o with words := o.words.map f }

/-- `FixWords`, which leaves the languages out. -/
def NumberedKey.fixWords (f : ℕ → ℕ) (key : NumberedKey) : NumberedKey :=
  { key with
    morph := key.morph.map fun rule => { rule with words := rule.words.map f }
    gram := key.gram.map (·.fixWords f)
    case := key.case.map (·.fixWords f)
    agr := key.agr.map fun o => { o with words := o.words.map f } }

/-- The lists of word numbers that `HasWords` and `FixWords` go over. -/
def NumberedKey.fixedLists (key : NumberedKey) : List (List ℕ) :=
  key.morph.map (·.words) ++ key.gram.map (·.words) ++ key.case.map (·.words) ++
    key.agr.map (·.words)

/-- `HasWords`. -/
def NumberedKey.hasWords (key : NumberedKey) : Bool := key.fixedLists.any (!·.isEmpty)

/-- `TRetokenizer::Do`: whether the text is tokenized anew, its new text, and `GetKey`. -/
def retokenize (tables : CharTables) (byClass : Bool) (key : NumberedKey) (keyText : List Char) :
    Bool × List Char × NumberedKey :=
  let s := Retokenizer.retokenizeKey tables byClass keyText
  (s.retokenized, s.text.reverse,
    if s.retokenized && key.hasWords then key.fixWords s.correctWordIndex else key)

namespace Retokenizer
variable {tables : CharTables} {byClass : Bool}

theorem loop_append (s : Retokenizer) (front back : List Char) (h : ∀ c ∈ back.head?, c = ' ') :
    loop tables byClass s (front ++ back) =
      loop tables byClass (loop tables byClass s front) back := by
  have hnext : ∀ (s : Retokenizer) c, visit tables byClass s c back.head? =
      visit tables byClass s c none := by
    intro s c
    cases hback : back.head? with
    | none => rfl
    | some d =>
      rw [h d (by rw [hback]; rfl)]
      simp [visit, tokCharClass, isTokenMarker, tables.isAlnum_space]
  induction front generalizing s with
  | nil => rfl
  | cons c front ih =>
    cases front with
    | nil =>
      rw [List.singleton_append, loop, hnext]
      rfl
    | cons d front => exact ih _

/-- A state in which a word may begin. -/
structure AtWord (s : Retokenizer) : Prop where
  originalSpace : s.originalSpace = true
  prevCharClass : s.prevCharClass = .whitespace
  text : s.text.head?.all (· == ' ') = true

/-- A state with what a run from the start has done after it. -/
def after (base alone : Retokenizer) : Retokenizer where
  text := alone.text ++ base.text
  wordsMap := base.wordsMap ++ alone.wordsMap.map (· + (base.curWord + base.wordsMapShift))
  curWord := base.curWord + alone.curWord
  wordsMapShift := base.wordsMapShift + alone.wordsMapShift
  originalSpace := alone.originalSpace
  modified := alone.modified || (alone.originalSpace && base.modified)
  retokenized := base.retokenized || alone.retokenized
  prevCharClass := alone.prevCharClass

variable {base alone s : Retokenizer}

theorem after_start (h : AtWord base) : base.after {} = base := by
  have hspace := h.originalSpace
  have hclass := h.prevCharClass
  cases base
  simp_all [after]

theorem space_after : (base.after alone).space = base.after alone.space := by
  simp [space, after]

theorem keep_after (c : Char) : (base.after alone).keep c = base.after (alone.keep c) := by
  cases hspace : alone.originalSpace <;> cases hmodified : alone.modified <;>
    simp [keep, after, nextWordBegins, hspace, hmodified, Nat.add_assoc, Nat.add_left_comm,
      Nat.add_comm]

theorem tokCharClass_after (h : AtWord base) (c : Char) (next : Option Char) :
    isTokenMarker tables (base.after alone).text c next =
        isTokenMarker tables alone.text c next ∧
      tokCharClass tables (base.after alone).text c next =
        tokCharClass tables alone.text c next := by
  have hmarker : isTokenMarker tables (base.after alone).text c next =
      isTokenMarker tables alone.text c next := by
    rw [isTokenMarker, isTokenMarker, after]
    cases alone.text with
    | nil => rw [List.nil_append, h.text]; rfl
    | cons d text => rfl
  exact ⟨hmarker, by rw [tokCharClass, tokCharClass, hmarker]⟩

theorem setClass_after (q : TokCharClass) :
    { base.after alone with prevCharClass := q } = base.after { alone with prevCharClass := q } :=
  rfl

/-- A symbol of a word is treated after other words as it is at the start of a text. -/
theorem visit_after (h : AtWord base)
    (hbegins : alone.text = [] → alone.prevCharClass = .whitespace) {c : Char} (hc : c ≠ ' ')
    (next : Option Char) :
    visit tables byClass (base.after alone) c next =
      base.after (visit tables byClass alone c next) := by
  have hmarker := (@tokCharClass_after tables base alone h c next).1
  have hclass : ∀ c, tokCharClass tables (base.after alone).text c next =
      tokCharClass tables alone.text c next := fun c => (tokCharClass_after h c next).2
  have hprev : (base.after alone).prevCharClass = alone.prevCharClass := rfl
  have htext : (base.after alone).prevCharClass ≠ .whitespace →
      ((base.after alone).text ≠ [] ↔ alone.text ≠ []) := by
    intro hne
    have halone : alone.text ≠ [] := fun hnil => hne (hbegins hnil)
    simp [after, halone]
  simp only [visit, if_neg hc, hmarker, hclass]
  by_cases hstays : (!tables.isAlnum c && !isTokenMarker tables alone.text c next) = true
  · simp only [if_pos hstays, space_after, hprev, setClass_after]
    split_ifs <;> rfl
  · simp only [if_neg hstays, keep_after, space_after, hprev, setClass_after]
    have hspaceClass : tokCharClass tables (base.after alone.space).text c next =
        tokCharClass tables alone.space.text c next := (tokCharClass_after h c next).2
    by_cases hinsert : tokCharClass tables alone.text c next ≠ alone.prevCharClass ∧
        tokCharClass tables alone.text c next ≠ .whitespace ∧ alone.prevCharClass ≠ .whitespace
    · simp only [htext hinsert.2.2, hspaceClass]
      split_ifs <;> rfl
    · have hnone : ∀ p : Prop, ¬ (p ∧ tokCharClass tables alone.text c next ≠
          alone.prevCharClass ∧ tokCharClass tables alone.text c next ≠ .whitespace ∧
          alone.prevCharClass ≠ .whitespace) := fun _ h => hinsert h.2
      simp only [if_neg (hnone _)]
      split_ifs <;> rfl

theorem visit_text_ne_nil (s : Retokenizer) (c : Char) (next : Option Char) :
    (visit tables byClass s c next).text ≠ [] := by
  simp only [visit]
  split_ifs <;> simp [space, keep]

theorem loop_after (h : AtWord base) (word : List Char) (hword : ' ' ∉ word)
    (hbegins : alone.text = [] → alone.prevCharClass = .whitespace) :
    loop tables byClass (base.after alone) word = base.after (loop tables byClass alone word) := by
  induction word generalizing alone with
  | nil => rfl
  | cons c word ih =>
    rw [List.mem_cons, not_or] at hword
    rw [loop, visit_after h hbegins (Ne.symm hword.1), ih hword.2]
    · rfl
    · exact fun hnil => absurd hnil (visit_text_ne_nil _ _ _)

theorem loop_word (h : AtWord base) (word : List Char) (hword : ' ' ∉ word) :
    loop tables byClass base word = base.after (loop tables byClass {} word) := by
  rw [← loop_after h word hword (fun _ => rfl), after_start h]

/-- The tokens that a part of a text without spaces is split into. -/
def tokens (tables : CharTables) (byClass : Bool) (part : List Char) : List (List Char) :=
  pieces ' ' (loop tables byClass {} part).text.reverse

/-- What a run over one word has counted. -/
structure CountsWord (s : Retokenizer) : Prop where
  tokens : (pieces ' ' s.text.reverse).length = s.curWord + s.wordsMapShift
  begins : (s.originalSpace = true ∨ s.modified = true) ↔ s.text.head?.all (· == ' ') = true
  originalSpace : s.originalSpace = true ↔ s.curWord = 0
  curWord : s.curWord ≤ 1
  shift : s.curWord = 0 → s.wordsMapShift = 0
  wordsMap : s.wordsMap = if s.curWord = 0 then [] else [0]
  retokenized : s.retokenized = decide (0 < s.wordsMapShift)

theorem endsPiece_reverse (text : List Char) :
    EndsPiece ' ' text.reverse ↔ text.head?.all (· == ' ') = true := by
  cases text <;> simp [EndsPiece]

theorem length_pieces_reverse_cons (text : List Char) {c : Char} (hc : c ≠ ' ') :
    (pieces ' ' (c :: text).reverse).length = (pieces ' ' text.reverse).length +
      if text.head?.all (· == ' ') = true then 1 else 0 := by
  classical
  rw [List.reverse_cons, length_pieces_concat _ hc]
  simp only [endsPiece_reverse]

theorem CountsWord.keep (h : CountsWord s) {c : Char} (hc : c ≠ ' ') : CountsWord (s.keep c) := by
  have hpieces := length_pieces_reverse_cons s.text hc
  rw [h.tokens] at hpieces
  have hhead : ((c :: s.text).head?.all (· == ' ')) = false := by simpa using hc
  by_cases hbegin : (s.modified || s.originalSpace) = true
  · have hends := h.begins.mp (by rw [Bool.or_eq_true] at hbegin; exact hbegin.symm)
    rw [if_pos hends] at hpieces
    rw [Retokenizer.keep, if_pos hbegin]
    cases hspace : s.originalSpace with
    | true =>
      have hcur := h.originalSpace.mp hspace
      have hshift := h.shift hcur
      constructor <;> simp_all [nextWordBegins, h.wordsMap, h.retokenized]
    | false =>
      have hcur : s.curWord ≠ 0 := fun h0 => by simp [h.originalSpace.mpr h0] at hspace
      have hone : s.curWord = 1 := by
        have := h.curWord
        omega
      constructor <;> simp_all [nextWordBegins, h.wordsMap, h.retokenized]
      omega
  · have hnone : ¬ (s.originalSpace = true ∨ s.modified = true) := by
      rw [Bool.or_eq_true] at hbegin
      exact fun h' => hbegin h'.symm
    rw [if_neg (fun hall => hnone (h.begins.mpr hall)), Nat.add_zero] at hpieces
    rw [Retokenizer.keep, if_neg hbegin]
    refine ⟨hpieces, ?_, h.originalSpace, h.curWord, h.shift, h.wordsMap, h.retokenized⟩
    rw [hhead]
    simpa using hnone

theorem CountsWord.space (h : CountsWord s) : CountsWord s.space := by
  refine ⟨?_, ?_, h.originalSpace, h.curWord, h.shift, h.wordsMap, h.retokenized⟩
  · rw [Retokenizer.space, List.reverse_cons, pieces_concat_sep]
    exact h.tokens
  · simp [Retokenizer.space]

theorem CountsWord.setClass (h : CountsWord s) (q : TokCharClass) :
    CountsWord { s with prevCharClass := q } :=
  ⟨h.tokens, h.begins, h.originalSpace, h.curWord, h.shift, h.wordsMap, h.retokenized⟩

theorem CountsWord.visit (h : CountsWord s) {c : Char} (hc : c ≠ ' ') (next : Option Char) :
    CountsWord (visit tables byClass s c next) := by
  simp only [Retokenizer.visit, if_neg hc]
  split_ifs
  · exact h.space.setClass _
  · exact h.space.setClass _
  · exact (h.space.keep hc).setClass _
  · exact (h.keep hc).setClass _
  · exact h.keep hc

theorem CountsWord.loop (h : CountsWord s) (word : List Char) (hword : ' ' ∉ word) :
    CountsWord (loop tables byClass s word) := by
  induction word generalizing s with
  | nil => exact h
  | cons c word ih =>
    rw [List.mem_cons, not_or] at hword
    exact ih (h.visit (Ne.symm hword.1) _) hword.2

theorem countsWord_start : CountsWord {} := by
  constructor <;> simp

/-- How many tokens a part of a text is split into. -/
def tokenCount (tables : CharTables) (byClass : Bool) (part : List Char) : ℕ :=
  (tokens tables byClass part).length

/-- The first tokens of the parts that have one, for the numbers of tokens of the parts. -/
def firstTokens (start : ℕ) : List ℕ → List ℕ
  | [] => []
  | count :: counts =>
    (if count = 0 then [] else [start]) ++ firstTokens (start + count) counts

/-- What a run over the parts of a text has counted. -/
structure CountsText (tables : CharTables) (byClass : Bool) (parts : List (List Char))
    (base s : Retokenizer) : Prop where
  wordsMap : s.wordsMap = base.wordsMap ++
    firstTokens (base.curWord + base.wordsMapShift) (parts.map (tokenCount tables byClass))
  total : s.curWord + s.wordsMapShift =
    base.curWord + base.wordsMapShift + (parts.map (tokenCount tables byClass)).sum
  retokenized : s.retokenized = true ↔
    base.retokenized = true ∨ ∃ part ∈ parts, 2 ≤ tokenCount tables byClass part
  originalSpace : s.originalSpace = true ↔ tokenCount tables byClass (parts.getLastD []) = 0
  tokens : pieces ' ' s.text.reverse =
    pieces ' ' base.text.reverse ++ parts.flatMap (tokens tables byClass)

theorem countsText_word (h : AtWord base) (word : List Char) (hword : ' ' ∉ word) :
    CountsText tables byClass [word] base (loop tables byClass base word) := by
  have hcounts : CountsWord (loop tables byClass {} word) := countsWord_start.loop word hword
  have hcount : tokenCount tables byClass word = (loop tables byClass {} word).curWord +
      (loop tables byClass {} word).wordsMapShift := hcounts.tokens
  have hzero : tokenCount tables byClass word = 0 ↔ (loop tables byClass {} word).curWord = 0 := by
    have := hcounts.shift
    omega
  rw [loop_word h word hword]
  constructor
  · simp only [after, hcounts.wordsMap, firstTokens, List.map_cons, List.map_nil, hzero]
    split_ifs <;> simp
  · simp only [after, List.map_cons, List.map_nil, List.sum_cons, List.sum_nil, hcount]
    omega
  · have hcur := hcounts.curWord
    have hshift := hcounts.shift
    simp only [after, hcounts.retokenized, Bool.or_eq_true, decide_eq_true_eq, List.mem_singleton,
      exists_eq_left, hcount]
    apply or_congr_right
    omega
  · rw [List.getLastD_cons, List.getLastD_nil, hzero, ← hcounts.originalSpace]
    rfl
  · have hends := (endsPiece_reverse base.text).mpr h.text
    rw [after, List.reverse_append, pieces_append_of_endsPiece hends]
    simp [Retokenizer.tokens]

/-- The counts of a text are those of its parts, one after the other. -/
theorem countsText_loop (h : AtWord base) (text : List Char) :
    CountsText tables byClass (text.splitOn ' ') base (loop tables byClass base text) := by
  induction text using Pieces.induction ' ' generalizing base with
  | hpart word hword =>
    rw [List.splitOn_eq_singleton hword]
    exact countsText_word h word hword
  | hsep word text hword ih =>
    have hfirst := @countsText_word tables byClass base h word hword
    rw [List.splitOn_append_cons_self_of_not_mem hword, loop_append _ _ _ (by simp), loop]
    have hat : AtWord (visit tables byClass (loop tables byClass base word) ' ' text.head?) := by
      constructor
      · simp [visit]
      · simp [visit, tokCharClass, tables.isAlpha_space, tables.isWhitespace_space]
      · simp [visit]
    have hrest := ih hat
    obtain ⟨part, parts, hparts⟩ := List.exists_cons_of_ne_nil (List.splitOn_ne_nil ' ' text)
    constructor
    · rw [hrest.wordsMap]
      simp only [visit, if_true, hfirst.wordsMap, hfirst.total, List.map_cons, List.map_nil,
        firstTokens, List.sum_cons, List.sum_nil, List.append_nil, Nat.add_zero, List.append_assoc]
    · rw [hrest.total]
      simp only [visit, if_true, hfirst.total, List.map_cons, List.map_nil, List.sum_cons,
        List.sum_nil, Nat.add_zero, Nat.add_assoc]
    · rw [hrest.retokenized]
      simp only [visit, if_true, hfirst.retokenized, List.mem_cons, List.not_mem_nil, or_false,
        exists_eq_left, or_assoc, exists_eq_or_imp]
    · rw [hrest.originalSpace, hparts, List.getLastD_cons, List.getLastD_cons, List.getLastD_cons]
    · rw [hrest.tokens]
      simp only [visit, if_true, List.reverse_cons, pieces_concat_sep, hfirst.tokens,
        List.flatMap_cons, List.flatMap_nil, List.append_nil, List.append_assoc]

/-- The words of a text. -/
def words (text : List Char) : List (List Char) := pieces ' ' text

/-- The numbers of tokens of the words of a text. -/
def counts (tables : CharTables) (byClass : Bool) (text : List Char) : List ℕ :=
  (words text).map (tokenCount tables byClass)

/-- The last part of a text, which may be empty, has no tokens. -/
def OpenEnd (tables : CharTables) (byClass : Bool) (text : List Char) : Prop :=
  tokenCount tables byClass ((text.splitOn ' ').getLastD []) = 0

theorem tokens_nil : tokens tables byClass [] = [] := pieces_nil

theorem firstTokens_map_filter {β : Type} (f : β → ℕ) (p : β → Bool)
    (h : ∀ b, p b = false → f b = 0) (start : ℕ) (l : List β) :
    firstTokens start ((l.filter p).map f) = firstTokens start (l.map f) := by
  induction l generalizing start with
  | nil => rfl
  | cons b l ih =>
    cases hb : p b with
    | true => simp [hb, firstTokens, ih]
    | false => simp [hb, firstTokens, ih, h b hb]

theorem sum_map_filter {β : Type} (f : β → ℕ) (p : β → Bool)
    (h : ∀ b, p b = false → f b = 0) (l : List β) :
    ((l.filter p).map f).sum = (l.map f).sum := by
  induction l with
  | nil => rfl
  | cons b l ih =>
    cases hb : p b with
    | true => simp [hb, ih]
    | false => simp [hb, ih, h b hb]

theorem flatMap_filter {β γ : Type} (f : β → List γ) (p : β → Bool)
    (h : ∀ b, p b = false → f b = []) (l : List β) : (l.filter p).flatMap f = l.flatMap f := by
  induction l with
  | nil => rfl
  | cons b l ih =>
    cases hb : p b with
    | true => simp [hb, ih]
    | false => simp [hb, ih, h b hb]

/-- What `RetokenizeKey` gives, in terms of the words of a text and their tokens. -/
theorem retokenizeKey_spec (text : List Char) :
    let s := retokenizeKey tables byClass text
    (words s.text.reverse = (words text).flatMap (tokens tables byClass)) ∧
      (s.retokenized = true ↔ ∃ count ∈ counts tables byClass text, 2 ≤ count) ∧
      (OpenEnd tables byClass text → s.wordsMap =
        firstTokens 0 (counts tables byClass text) ++ [(counts tables byClass text).sum]) ∧
      (¬ OpenEnd tables byClass text →
        s.wordsMap = firstTokens 0 (counts tables byClass text)) := by
  have hstart : AtWord {} := ⟨rfl, rfl, rfl⟩
  have h := @countsText_loop tables byClass {} hstart text
  have hempty : ∀ part : List Char, decide (part ≠ []) = false →
      tokens tables byClass part = [] := by
    intro part hpart
    have hnil : part = [] := by simpa using hpart
    rw [hnil, tokens_nil]
  have hzero : ∀ part : List Char, decide (part ≠ []) = false →
      tokenCount tables byClass part = 0 := by
    intro part hpart
    rw [tokenCount, hempty part hpart, List.length_nil]
  have hmap : (loop tables byClass {} text).wordsMap =
      firstTokens 0 (counts tables byClass text) := by
    rw [h.wordsMap, counts, words, pieces, firstTokens_map_filter _ _ hzero]
    rfl
  have hsum : (loop tables byClass {} text).curWord + (loop tables byClass {} text).wordsMapShift =
      (counts tables byClass text).sum := by
    rw [h.total, counts, words, pieces, sum_map_filter _ _ hzero]
    exact Nat.zero_add _
  refine ⟨?_, ?_, ?_, ?_⟩
  · have htext : (retokenizeKey tables byClass text).text =
        (loop tables byClass {} text).text := by
      rw [retokenizeKey, nextWordBegins]
      split_ifs <;> rfl
    have hwords : words text = (text.splitOn ' ').filter (· ≠ []) := rfl
    rw [htext, hwords, words, h.tokens, flatMap_filter _ _ hempty]
    rfl
  · have hretokenized : (retokenizeKey tables byClass text).retokenized =
        (loop tables byClass {} text).retokenized := by
      rw [retokenizeKey, nextWordBegins]
      split_ifs <;> rfl
    rw [hretokenized, h.retokenized]
    simp only [Bool.false_eq_true, false_or, counts, List.mem_map, words, pieces, List.mem_filter,
      exists_exists_and_eq_and]
    constructor
    · intro hpart
      obtain ⟨part, hmem, htwo⟩ := hpart
      refine ⟨part, ⟨hmem, ?_⟩, htwo⟩
      by_contra hnil
      rw [hzero part (Bool.not_eq_true _ |>.mp hnil)] at htwo
      omega
    · intro hpart
      obtain ⟨part, hmem, htwo⟩ := hpart
      exact ⟨part, hmem.1, htwo⟩
  · intro hopen
    rw [retokenizeKey, nextWordBegins, if_pos (h.originalSpace.mpr hopen)]
    dsimp only
    rw [hmap, hsum]
  · intro hopen
    rw [retokenizeKey, nextWordBegins, if_neg (fun hspace => hopen (h.originalSpace.mp hspace))]
    exact hmap

/-- A number names the first token of the word that the number `w` names, or no token if this word
has none. -/
def NamesFirstToken (counts : List ℕ) (w number : ℕ) : Prop :=
  0 < w → ∀ count, counts[w - 1]? = some count →
    if count = 0 then number = 0 ∨ counts.sum < number
    else number = (counts.take (w - 1)).sum + 1

/-- How many words have tokens. -/
def tokenWords (counts : List ℕ) : ℕ := (counts.filter (· ≠ 0)).length

theorem length_firstTokens (start : ℕ) (counts : List ℕ) :
    (firstTokens start counts).length = tokenWords counts := by
  induction counts generalizing start with
  | nil => rfl
  | cons count counts ih =>
    by_cases h0 : count = 0
    · simp [firstTokens, tokenWords, h0, ih]
    · simp [firstTokens, tokenWords, h0, ih, Nat.add_comm]

theorem firstTokens_bounds {start : ℕ} {counts : List ℕ} {i first : ℕ}
    (h : (firstTokens start counts)[i]? = some first) :
    start + (counts.take i).sum ≤ first ∧ first < start + counts.sum := by
  induction counts generalizing start i with
  | nil => simp [firstTokens] at h
  | cons count counts ih =>
    by_cases h0 : count = 0
    · subst h0
      simp only [firstTokens, if_true, List.nil_append, Nat.add_zero] at h
      obtain ⟨hle, hlt⟩ := ih h
      refine ⟨le_trans ?_ hle, by simpa using hlt⟩
      cases i with
      | zero => simp
      | succ i =>
        rw [List.take_succ_cons, List.sum_cons, Nat.zero_add]
        rw [List.take_add_one, List.sum_append]
        omega
    · simp only [firstTokens, if_neg h0, List.singleton_append] at h
      cases i with
      | zero =>
        rw [List.getElem?_cons_zero, Option.some.injEq] at h
        simp only [List.take_zero, List.sum_nil, List.sum_cons]
        omega
      | succ i =>
        rw [List.getElem?_cons_succ] at h
        obtain ⟨hle, hlt⟩ := ih h
        simp only [List.take_succ_cons, List.sum_cons]
        omega

theorem firstTokens_of_ne_zero {start : ℕ} {counts : List ℕ} {i : ℕ} (hi : i < counts.length)
    (h : ∀ count ∈ counts.take (i + 1), count ≠ 0) :
    (firstTokens start counts)[i]? = some (start + (counts.take i).sum) := by
  induction counts generalizing start i with
  | nil => simp at hi
  | cons count counts ih =>
    rw [List.take_succ_cons, List.forall_mem_cons] at h
    simp only [firstTokens, if_neg h.1, List.singleton_append]
    cases i with
    | zero => simp
    | succ i =>
      rw [List.getElem?_cons_succ, ih (Nat.lt_of_succ_lt_succ hi) h.2]
      simp [Nat.add_assoc]

theorem firstTokens_of_zero_mem {start : ℕ} {counts : List ℕ} {i first : ℕ}
    (h : (firstTokens start counts)[i]? = some first) (hzero : 0 ∈ counts.take (i + 1)) :
    start + (counts.take (i + 1)).sum ≤ first := by
  induction counts generalizing start i with
  | nil => simp at hzero
  | cons count counts ih =>
    by_cases h0 : count = 0
    · subst h0
      simp only [firstTokens, if_true, List.nil_append, Nat.add_zero] at h
      rw [List.take_succ_cons, List.sum_cons, Nat.zero_add]
      exact (firstTokens_bounds h).1
    · simp only [firstTokens, if_neg h0, List.singleton_append] at h
      rw [List.take_succ_cons, List.mem_cons] at hzero
      cases i with
      | zero => simp [Ne.symm h0] at hzero
      | succ i =>
        rw [List.getElem?_cons_succ] at h
        have := ih h (hzero.resolve_left (Ne.symm h0))
        rw [List.take_succ_cons, List.sum_cons]
        omega

theorem namesFirstToken_firstTokens_iff {counts : List ℕ} {i first : ℕ}
    (h : (firstTokens 0 counts)[i]? = some first) :
    NamesFirstToken counts (i + 1) (first + 1) ↔ ∀ count ∈ counts.take (i + 1), count ≠ 0 := by
  have hi : i < counts.length := by
    have hlt := (List.getElem?_eq_some_iff.mp h).1
    rw [length_firstTokens, tokenWords] at hlt
    exact hlt.trans_le (List.length_filter_le _ _)
  have hget : counts[i]? = some counts[i] := List.getElem?_eq_getElem hi
  simp only [NamesFirstToken, Nat.add_sub_cancel, hget, Option.some.injEq, forall_eq',
    Nat.succ_pos, true_imp_iff]
  constructor
  · intro hnames count hcount h0
    subst h0
    have hle := firstTokens_of_zero_mem h hcount
    have hlt := (firstTokens_bounds h).2
    split_ifs at hnames with hzero
    · have hsum := hnames.resolve_left not_false
      omega
    · rw [List.take_add_one, List.sum_append, hget] at hle
      simp only [Option.toList_some, List.sum_cons, List.sum_nil] at hle
      omega
  · intro hall
    have hne : counts[i] ≠ 0 := by
      apply hall
      rw [List.take_add_one, List.mem_append, hget]
      exact Or.inr (List.mem_singleton.mpr rfl)
    rw [if_neg hne]
    rw [firstTokens_of_ne_zero hi hall, Option.some.injEq] at h
    omega

/-- The condition under which the new number of a word is right. -/
def NumberFits (counts : List ℕ) (openEnd : Prop) (w : ℕ) : Prop :=
  (w ≤ tokenWords counts → ∀ count ∈ counts.take w, count ≠ 0) ∧
  (w = tokenWords counts + 1 → openEnd → ∀ count, counts[w - 1]? = some count → count = 0) ∧
  (tokenWords counts < w → ¬ (w = tokenWords counts + 1 ∧ openEnd) → NamesFirstToken counts w w)

theorem namesFirstToken_total_iff {counts : List ℕ} {i : ℕ} :
    NamesFirstToken counts (i + 1) (counts.sum + 1) ↔
      ∀ count, counts[i]? = some count → count = 0 := by
  simp only [NamesFirstToken, Nat.add_sub_cancel, Nat.succ_pos, true_imp_iff]
  apply forall₂_congr
  intro count hcount
  by_cases h0 : count = 0
  · simp [h0]
  · have hsplit : counts.sum = (counts.take (i + 1)).sum + (counts.drop (i + 1)).sum := by
      rw [← List.sum_append, List.take_append_drop]
    rw [List.take_add_one, List.sum_append, hcount] at hsplit
    simp only [Option.toList_some, List.sum_cons, List.sum_nil] at hsplit
    rw [if_neg h0]
    omega

/-- The map has an entry for each word with tokens, and one more if the end is open. -/
theorem correctWordIndex_eq (text : List Char) (i : ℕ) :
    let n := tokenWords (counts tables byClass text)
    let number := (retokenizeKey tables byClass text).correctWordIndex (i + 1)
    (i < n → ∃ first, (firstTokens 0 (counts tables byClass text))[i]? = some first ∧
      number = first + 1) ∧
    (i = n → OpenEnd tables byClass text → number = (counts tables byClass text).sum + 1) ∧
    (n ≤ i → ¬ (i = n ∧ OpenEnd tables byClass text) → number = i + 1) := by
  obtain ⟨-, -, hopen, hclosed⟩ := @retokenizeKey_spec tables byClass text
  have hlength := length_firstTokens 0 (counts tables byClass text)
  simp only [correctWordIndex, Nat.succ_ne_zero, false_or, Nat.add_sub_cancel]
  by_cases hend : OpenEnd tables byClass text
  · rw [hopen hend]
    refine ⟨?_, ?_, ?_⟩
    · intro hi
      have hlt : i < (firstTokens 0 (counts tables byClass text)).length := hlength.symm ▸ hi
      refine ⟨_, List.getElem?_eq_getElem hlt, ?_⟩
      rw [if_neg (by rw [List.length_append]; simp; omega), List.getD_eq_getElem?_getD,
        List.getElem?_append_left hlt, List.getElem?_eq_getElem hlt, Option.getD_some]
    · intro hi _
      rw [if_neg (by rw [List.length_append]; simp; omega), List.getD_eq_getElem?_getD, hi,
        ← hlength, List.getElem?_append_right le_rfl, Nat.sub_self]
      rfl
    · intro hi hne
      have hlt : i ≠ tokenWords (counts tables byClass text) := fun h => hne ⟨h, hend⟩
      rw [if_pos (by rw [List.length_append]; simp; omega)]
  · rw [hclosed hend]
    refine ⟨?_, fun _ h => absurd h hend, ?_⟩
    · intro hi
      have hlt : i < (firstTokens 0 (counts tables byClass text)).length := hlength.symm ▸ hi
      refine ⟨_, List.getElem?_eq_getElem hlt, ?_⟩
      rw [if_neg (by omega), List.getD_eq_getElem?_getD, List.getElem?_eq_getElem hlt,
        Option.getD_some]
    · intro hi _
      rw [if_pos (by omega)]

theorem namesFirstToken_correct_iff (text : List Char) (w : ℕ) :
    NamesFirstToken (counts tables byClass text) w
      ((retokenizeKey tables byClass text).correctWordIndex w) ↔
      NumberFits (counts tables byClass text) (OpenEnd tables byClass text) w := by
  cases w with
  | zero =>
    refine iff_of_true (fun h => absurd h (lt_irrefl 0)) ⟨?_, ?_, ?_⟩
    · simp
    · intro h
      omega
    · intro h
      omega
  | succ i =>
    obtain ⟨hfirst, htotal, hsame⟩ := @correctWordIndex_eq tables byClass text i
    rcases Nat.lt_or_ge i (tokenWords (counts tables byClass text)) with hi | hi
    · obtain ⟨first, hget, hnumber⟩ := hfirst hi
      rw [hnumber, namesFirstToken_firstTokens_iff hget]
      constructor
      · intro hall
        refine ⟨fun _ => hall, ?_, ?_⟩ <;> intro h <;> omega
      · exact fun h => h.1 hi
    · by_cases hend : i = tokenWords (counts tables byClass text) ∧ OpenEnd tables byClass text
      · rw [htotal hend.1 hend.2, namesFirstToken_total_iff]
        constructor
        · intro hall
          refine ⟨?_, fun _ _ => hall, ?_⟩
          · intro h
            omega
          · exact fun _ h => absurd ⟨by omega, hend.2⟩ h
        · exact fun h => h.2.1 (by omega) hend.2
      · rw [hsame hi hend]
        constructor
        · intro hnames
          refine ⟨?_, ?_, fun _ _ => hnames⟩
          · intro h
            omega
          · exact fun h hopen => absurd ⟨by omega, hopen⟩ hend
        · exact fun h => h.2.2 (by omega) fun h' => hend ⟨by omega, h'.2⟩

end Retokenizer

/-- The word numbers of the options whose lists `FixWords` goes over, and of the languages. -/
def NumberedKey.fixedNumbers (key : NumberedKey) : List ℕ := key.fixedLists.flatten

def NumberedKey.langNumbers (key : NumberedKey) : List ℕ := (key.lang.map (·.words)).flatten

/-- Every word number names the first token of its word in the new key. -/
structure KeepsWordNumbers (tables : CharTables) (byClass : Bool) (key : NumberedKey)
    (keyText : List Char) : Prop where
  fixed : List.Forall₂ (Retokenizer.NamesFirstToken (Retokenizer.counts tables byClass keyText))
    key.fixedNumbers (retokenize tables byClass key keyText).2.2.fixedNumbers
  lang : List.Forall₂ (Retokenizer.NamesFirstToken (Retokenizer.counts tables byClass keyText))
    key.langNumbers (retokenize tables byClass key keyText).2.2.langNumbers

theorem fixedNumbers_fixWords (f : ℕ → ℕ) (key : NumberedKey) :
    (key.fixWords f).fixedNumbers = key.fixedNumbers.map f := by
  simp [NumberedKey.fixedNumbers, NumberedKey.fixedLists, NumberedKey.fixWords,
    WordOption.fixWords, List.map_flatten, Function.comp_def]

theorem fixedNumbers_of_not_hasWords {key : NumberedKey} (h : key.hasWords = false) :
    key.fixedNumbers = [] := by
  simpa [NumberedKey.hasWords, NumberedKey.fixedNumbers] using h

/-- The word numbers are kept exactly if the numbers of a text of which a word is split fit, and the
other numbers are right as they are. -/
theorem keepsWordNumbers_iff (tables : CharTables) (byClass : Bool) (key : NumberedKey)
    (keyText : List Char) :
    let counts := Retokenizer.counts tables byClass keyText
    KeepsWordNumbers tables byClass key keyText ↔
      (∀ w ∈ key.fixedNumbers,
        if ∃ count ∈ counts, 2 ≤ count then
          Retokenizer.NumberFits counts (Retokenizer.OpenEnd tables byClass keyText) w
        else Retokenizer.NamesFirstToken counts w w) ∧
      ∀ w ∈ key.langNumbers, Retokenizer.NamesFirstToken counts w w := by
  obtain ⟨-, hretokenized, -, -⟩ :=
    @Retokenizer.retokenizeKey_spec tables byClass keyText
  have hlang : (retokenize tables byClass key keyText).2.2.langNumbers = key.langNumbers := by
    rw [retokenize]
    split_ifs <;> rfl
  have hfixed : List.Forall₂
      (Retokenizer.NamesFirstToken (Retokenizer.counts tables byClass keyText)) key.fixedNumbers
      (retokenize tables byClass key keyText).2.2.fixedNumbers ↔ ∀ w ∈ key.fixedNumbers,
        if ∃ count ∈ Retokenizer.counts tables byClass keyText, 2 ≤ count then
          Retokenizer.NumberFits (Retokenizer.counts tables byClass keyText)
            (Retokenizer.OpenEnd tables byClass keyText) w
        else Retokenizer.NamesFirstToken (Retokenizer.counts tables byClass keyText) w w := by
    cases hwords : key.hasWords with
    | false =>
      have hnone := fixedNumbers_of_not_hasWords hwords
      rw [retokenize, hwords, Bool.and_false, if_neg Bool.false_ne_true, hnone]
      simp
    | true =>
      rw [retokenize, hwords, Bool.and_true]
      by_cases hsplit : ∃ count ∈ Retokenizer.counts tables byClass keyText, 2 ≤ count
      · rw [if_pos (hretokenized.mpr hsplit), fixedNumbers_fixWords, List.forall₂_map_right_iff,
          List.forall₂_same]
        simp only [if_pos hsplit]
        exact forall₂_congr fun w _ => Retokenizer.namesFirstToken_correct_iff keyText w
      · rw [if_neg (fun h => hsplit (hretokenized.mp h)), List.forall₂_same]
        simp only [if_neg hsplit]
  constructor
  · intro h
    refine ⟨hfixed.mp h.fixed, ?_⟩
    have := h.lang
    rw [hlang, List.forall₂_same] at this
    exact this
  · intro h
    refine ⟨hfixed.mpr h.1, ?_⟩
    rw [hlang, List.forall₂_same]
    exact h.2

def asciiChars : CharTables where
  isAlnum := Char.isAlphanum
  isAlpha := Char.isAlpha
  isWhitespace := Char.isWhitespace
  isDigit := Char.isDigit
  isAlnum_space := by decide
  isAlpha_space := by decide
  isWhitespace_space := by decide

/-- The third word of "a - b-c" begins with the second token. -/
theorem dash_shifts_word_number : ¬ KeepsWordNumbers asciiChars false
    { gram := [{ words := [3] }] } ['a', ' ', '-', ' ', 'b', '-', 'c'] := by
  intro h
  have hfixed : List.Forall₂ (Retokenizer.NamesFirstToken [1, 0, 2]) [3] [3] := h.fixed
  have hthird := (List.forall₂_cons.mp hfixed).1 (by decide) 2 rfl
  exact absurd hthird (by decide)

end TomitaParser.Gzt
