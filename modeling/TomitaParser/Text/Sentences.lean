import Mathlib.Algebra.GroupWithZero.Nat
import Mathlib.Data.List.Forall2
import TomitaParser.Text.Primitives
/-! # Sentences of a text

`createSentences` cuts the groups into stretches, and `createSentence` makes the words of a stretch:
a quote becomes a mark of the word next to it, or a word. -/

namespace TomitaParser.Text

/-- `ETypeOfBreak`. -/
inductive TypeOfBreak
  | noBreak
  | sentBreak
  | paraBreak
  | wordBreak
deriving DecidableEq, Repr

/-- A group with its number, its break and its texts, `GetText` and `GetClearText`. -/
structure TextGroup where
  no : ℕ := 0
  gtyp : TypeOfPrim := .word
  pos : ℕ := 0
  len : ℕ := 1
  brk : TypeOfBreak := .noBreak
  text : List ℕ := []
  clearText : List ℕ := text
deriving DecidableEq, Repr

namespace TextGroup
variable (g : TextGroup)

def isNZ : Bool := g.gtyp = .newLine || g.gtyp = .space

def isPS : Bool := g.gtyp = .punct || g.gtyp = .symbol

/-- Neither a space nor a new line nor unknown. -/
def isToken : Bool := !g.isNZ && g.gtyp ≠ .unknownPrim

end TextGroup

/-- `CWordBase`: the number of its group, and the marks for quotes. -/
structure WordBase where
  no : ℕ
  typ : TypeOfPrim
  txt : List ℕ
  bHasOpenQuote : Bool := false
  bSingleOpenQuote : Bool := false
  bHasCloseQuote : Bool := false
  bSingleCloseQuote : Bool := false
deriving DecidableEq, Repr

namespace WordBase

def singleQuoteChar : ℕ := '\''.toNat

def isSingleQuote (str : List ℕ) : Bool := str = [singleQuoteChar]

/-- `IsQuote`, for the quotation characters of the character tables. -/
def isQuote (isQuotation : ℕ → Bool) (str : List ℕ) : Bool :=
  isSingleQuote str || (str.length = 1 && str.all isQuotation && !isSingleQuote str)

/-- The signs of `InitPunc`. -/
def punctSigns : List ℕ := "!,-.:;?'\"".toList.map Char.toNat

variable (w : WordBase)

/-- `m_bIsPunct`: `strchr` gets the first character as one byte, and finds the zero at the end. -/
def isPunct : Bool :=
  w.typ = .punct && (w.txt.headD 0 % 256 = 0 || punctSigns.contains (w.txt.headD 0 % 256))

def isCloseBracket : Bool := w.typ = .punct && w.txt = [')'.toNat]

def isPoint : Bool := w.isPunct && w.txt = ['.'.toNat]

def isExclamationMark : Bool := w.isPunct && w.txt = ['!'.toNat]

def isInterrogationMark : Bool := w.isPunct && w.txt = ['?'.toNat]

def putIsOpenQuote (bSingle : Bool) : WordBase :=
  { w with bHasOpenQuote := true, bSingleOpenQuote := bSingle }

def putIsCloseQuote (bSingle : Bool) : WordBase :=
  { w with bHasCloseQuote := true, bSingleCloseQuote := bSingle }

end WordBase

/-- The word of a group, with its text or its clear text. -/
def createWord (g : TextGroup) : WordBase :=
  let txt :=
    if g.gtyp = .word ∨ g.gtyp = .hyphen ∨ g.gtyp = .wordShy then g.text else g.clearText
  ⟨g.no, g.gtyp, txt, false, false, false, false⟩

/-- The word of a quote that is not next to another word. -/
def createQuoteWord (g : TextGroup) : WordBase :=
  ⟨g.no, g.gtyp, g.clearText, false, false, false, false⟩

def canAddCloseQuote (w : WordBase) : Bool :=
  if w.isPunct then
    w.isCloseBracket || w.isPoint || w.isExclamationMark || w.isInterrogationMark
  else true

/-- The variables of `createSentence`: the quote that waits, whether there was a space, the word
before, and the words of the sentence. -/
structure SentenceState where
  prevQuote : Option TextGroup := none
  bPrevSpace : Bool := false
  prevWord : Option ℕ := none
  words : List WordBase := []
deriving DecidableEq, Repr

variable (isQuotation : ℕ → Bool)

/-- A quote is kept back, unless it closes the word before. -/
def addQuote (s : SentenceState) (g : TextGroup) : SentenceState :=
  match s.prevQuote with
  | some q =>
    { s with words := s.words ++ [createQuoteWord q], prevQuote := some g, bPrevSpace := false }
  | none =>
    match s.prevWord.bind fun i => s.words[i]? with
    | some w =>
      if !s.bPrevSpace && canAddCloseQuote w then
        { s with
          words := s.words.modify (s.prevWord.getD 0)
            fun w => w.putIsCloseQuote (WordBase.isSingleQuote g.text)
          bPrevSpace := false }
      else { s with prevQuote := some g, bPrevSpace := false }
    | none => { s with prevQuote := some g, bPrevSpace := false }

/-- A word, which a quote that waits may open. -/
def addWord (s : SentenceState) (g : TextGroup) : SentenceState :=
  let word := createWord g
  let (words, word) :=
    match s.prevQuote with
    | some q =>
      if !s.bPrevSpace && !word.isPunct then
        (s.words, word.putIsOpenQuote (WordBase.isSingleQuote q.text))
      else (s.words ++ [createQuoteWord q], word)
    | none => (s.words, word)
  ⟨none, false, some words.length, words ++ [word]⟩

def addGroup (s : SentenceState) (g : TextGroup) : SentenceState :=
  if g.isNZ then { s with bPrevSpace := true }
  else if g.gtyp = .unknownPrim then { s with bPrevSpace := false }
  else
    let s := if g.gtyp = .symbol then { s with bPrevSpace := false } else s
    if WordBase.isQuote isQuotation g.text then addQuote s g else addWord s g

/-- The words with the quote that still waits. -/
def SentenceState.finish (s : SentenceState) : List WordBase :=
  match s.prevQuote with
  | some q => s.words ++ [createQuoteWord q]
  | none => s.words

/-- `createSentence`: the words of a stretch. -/
def createSentence (stretch : List TextGroup) : List WordBase :=
  (stretch.foldl (addGroup isQuotation) {}).finish

def maxLength : ℕ := 0xFFFF

/-- `MAX_WORD_IN_SENT / 5`. -/
def maxWords : ℕ := 6400

/-- Where a group ends, from a position on, in the unsigned numbers of the positions. -/
def endFrom (pos : ℕ) (g : TextGroup) : ℕ :=
  (g.pos + g.len + (2 ^ 64 - pos % 2 ^ 64)) % 2 ^ 64

/-- The loop goes on behind the group. -/
def continues (pos size : ℕ) (g : TextGroup) : Bool :=
  (g.brk = .noBreak || g.brk = .wordBreak) && size < maxWords && endFrom pos g < maxLength

/-- A stretch, and what is left: the loop ends at a break or a limit, and takes the group there if
it is not too far. -/
def takeStretch (pos : ℕ) : ℕ → List TextGroup → List TextGroup × List TextGroup
  | _, [] => ([], [])
  | size, g :: rest =>
    if continues pos size g then
      let (stretch, left) := takeStretch pos (size + 1) rest
      (g :: stretch, left)
    else if endFrom pos g < maxLength then ([g], rest)
    else ([], g :: rest)

/-- The groups that are skipped in front of a stretch. -/
def isLead (g : TextGroup) : Bool := g.gtyp = .space || g.gtyp = .unknownPrim

/-- A round of `createSentences`: groups are skipped, and then comes a stretch, or a group that is
skipped since it is too long. -/
inductive Segment
  | stretch (lead stretch : List TextGroup)
  | tooLong (lead : List TextGroup) (g : TextGroup)
  | onlyLead (lead : List TextGroup)
deriving DecidableEq, Repr

/-- The first round, and the groups that are left. -/
def firstSegment (groups : List TextGroup) : Segment × List TextGroup :=
  let pos := (groups.headD {}).pos
  let lead := groups.takeWhile isLead
  match groups.dropWhile isLead with
  | [] => (.onlyLead lead, [])
  | g :: rest =>
    if !continues pos 0 g ∧ maxLength ≤ g.len then (.tooLong lead g, rest)
    else
      let (stretch, left) := takeStretch pos 0 (g :: rest)
      (.stretch lead stretch, left)

/-- The rounds over all groups, if so many are enough. -/
def segments : ℕ → List TextGroup → Option (List Segment)
  | _, [] => some []
  | 0, _ :: _ => none
  | fuel + 1, g :: groups =>
    let (segment, left) := firstSegment (g :: groups)
    (segments fuel left).map (segment :: ·)

/-- A sentence with the stretch it was made from. -/
structure Sentence where
  words : List WordBase
  bPBreak : Bool
  stretch : List TextGroup
deriving DecidableEq, Repr

/-- `MAX_SENT_IN_PARAGRAPH`. -/
def maxSentInParagraph : ℕ := 64000

def markLastSentParEnd (sentences : List Sentence) : List Sentence :=
  sentences.modify (sentences.length - 1) fun s => { s with bPBreak := true }

/-- Whether the last group in front of where the next round begins has a break of paragraphs. -/
def endsParagraph (groups : List TextGroup) : Bool :=
  groups.getLast?.any fun g => g.brk = .paraBreak

/-- Spaces, punctuation and symbols only. -/
def isEmptyStretch (stretch : List TextGroup) : Bool := stretch.all fun g => g.isNZ || g.isPS

/-- What a round does to the sentences and to the number of them in the paragraph. -/
def addSegment : List Sentence × ℕ → Segment → List Sentence × ℕ
  | (sentences, pCnt), .onlyLead _ => (sentences, pCnt)
  | (sentences, pCnt), .tooLong _ _ => (sentences, pCnt)
  | (sentences, pCnt), .stretch lead stretch =>
    let para := endsParagraph (lead ++ stretch)
    let marked := if para then markLastSentParEnd sentences else sentences
    if isEmptyStretch stretch then (marked, pCnt)
    else
      let words := createSentence isQuotation stretch
      if words.isEmpty then (marked, pCnt)
      else if para || maxSentInParagraph - 1 ≤ pCnt then
        (sentences ++ [⟨words, true, stretch⟩], 0)
      else (sentences ++ [⟨words, false, stretch⟩], pCnt + 1)

/-- `createSentences`. -/
def createSentences (groups : List TextGroup) : Option (List Sentence) :=
  (segments groups.length groups).map fun segments =>
    markLastSentParEnd (segments.foldl (addSegment isQuotation) ([], 0)).1

end TomitaParser.Text
