import Mathlib.Data.Finset.Basic
import Mathlib.Data.Finset.Range
/-! # Matching of filters

The words of a found phrase with the homoforms that are left of them, and the checks of a filter. A
check of grammems or agreement marks the homoforms that it rules out as bad. -/

namespace TomitaParser.Gzt

/-- `TGramBitSet`. -/
abbrev GramBits := Finset ℕ

/-- `ECapitalization`. -/
inductive CapitalizationType where
  | any | exact | lower | upper | title
deriving DecidableEq, Repr

/-- `TCapitalization`. The mask counts for the type `exact` only. -/
structure Capitalization where
  type : CapitalizationType
  customMask : ℕ := 0
deriving DecidableEq

/-- A lemma of a word of the input. -/
structure Lemma where
  text : String
  language : ℕ := 0
  grammems : List GramBits := []
deriving DecidableEq

/-- A word of the input. -/
structure Token where
  /-- The normalized text. -/
  exactForm : String
  original : List Char
  lemmas : List Lemma := []
deriving DecidableEq

/-- `TInputWord`: a chosen lemma, or none for the exact form. -/
structure InputWord where
  lemma? : Option Lemma := none
  isAnyWord : Bool := false
  badHomoforms : Finset ℕ := ∅
  initialBadHomoforms : Finset ℕ := ∅
deriving DecidableEq

namespace InputWord

/-- A mask has one word of bits. -/
def maxHomoformCount : ℕ := 32

def allBad : Finset ℕ := Finset.range maxHomoformCount

def anyWord (lemma? : Option Lemma) : InputWord := { lemma? := lemma?, isAnyWord := true }

def isLemma (w : InputWord) : Bool := w.lemma?.isSome

def exactWordFromKey (w : InputWord) : Bool := !w.isLemma && !w.isAnyWord

def restoreGrammems (w : InputWord) : InputWord := { w with badHomoforms := w.initialBadHomoforms }

def saveGrammems (w : InputWord) : InputWord := { w with initialBadHomoforms := w.badHomoforms }

def sourceGrammems (w : InputWord) : List GramBits := (w.lemma?.map (·.grammems)).getD []

/-- `IterGrammems`: the homoforms that are not bad. -/
def iterGrammems (w : InputWord) : List GramBits :=
  if w.badHomoforms = allBad then []
  else (w.sourceGrammems.zipIdx.filter fun g => decide (g.2 ∉ w.badHomoforms)).map Prod.fst

def hasGrammems (w : InputWord) : Bool := !w.iterGrammems.isEmpty

/-- A loop of `TGrammemIter` that calls `RemoveCurrent` for some homoforms. Homoforms past the mask
are never removed. -/
def removeLoop (remove : GramBits → Bool) : List GramBits → ℕ → ℕ → Finset ℕ → Finset ℕ
  | [], index, badCount, bad => if index ≤ badCount then allBad else bad
  | g :: rest, index, badCount, bad =>
    if index ∈ bad then removeLoop remove rest (index + 1) (badCount + 1) bad
    else if bad = allBad then bad
    else if remove g && decide (index < maxHomoformCount) then
      removeLoop remove rest (index + 1) (badCount + 1) (insert index bad)
    else removeLoop remove rest (index + 1) badCount bad

def removeGrammems (remove : GramBits → Bool) (w : InputWord) : InputWord :=
  { w with badHomoforms :=
      if w.badHomoforms = allBad then allBad
      else removeLoop remove w.sourceGrammems 0 0 w.badHomoforms }

end InputWord

/-- The parts of the language libraries that the checks use. -/
structure MatchTables where
  isLower : Char → Bool
  isUpper : Char → Bool
  isDigit : Char → Bool
  /-- `StrongNormalize`. -/
  strongNormalize : GramBits → Finset ℕ → GramBits
  /-- `IsAgreed`. -/
  isAgreed : GramBits → Finset ℕ → Bool

/-- `TPhraseWords`: the words of a phrase that ends at the current word of the input. -/
structure PhraseWords where
  input : List Token
  /-- The number of words read. -/
  wordCount : ℕ
  words : List InputWord

namespace PhraseWords

/-- `FirstWordIndex`: a reverse word number is a byte. -/
def pos (p : PhraseWords) : ℕ := p.wordCount - p.words.length % 256

def word (p : PhraseWords) (index : ℕ) : InputWord := p.words.getD index {}

def resetGrammems (p : PhraseWords) : PhraseWords :=
  { p with words := p.words.map (·.restoreGrammems) }

def removeGrammems (p : PhraseWords) (index : ℕ) (remove : GramBits → Bool) : PhraseWords :=
  { p with words := p.words.modify index (·.removeGrammems remove) }

def getOriginalString (p : PhraseWords) (index : ℕ) : List Char :=
  ((p.input[p.pos + index]?).map (·.original)).getD []

/-- `GetLanguage`: unknown for an exact form. -/
def getLanguage (p : PhraseWords) (index : ℕ) : ℕ :=
  (((p.word index).lemma?).map (·.language)).getD 0

variable (tables : MatchTables)

def startsWithDigit (p : PhraseWords) (index : ℕ) : Bool :=
  (p.getOriginalString index).head?.any tables.isDigit

def isUpperCase (p : PhraseWords) (index : ℕ) : Bool :=
  (p.getOriginalString index).all fun c => !tables.isLower c

def isLowerCase (p : PhraseWords) (index : ℕ) : Bool :=
  (p.getOriginalString index).all fun c => !tables.isUpper c

def isTitleCase (p : PhraseWords) (index : ℕ) : Bool :=
  match p.getOriginalString index with
  | [] => true
  | c :: rest => !tables.isLower c && rest.all fun c => !tables.isUpper c

/-- The loops of `IsMaskCase`: the mask loses its lowest bit with each letter. -/
def maskCase (mask : ℕ) : List Char → Bool
  | [] => true
  | c :: rest =>
    if mask % 2 = 1 then !tables.isLower c && maskCase (mask / 2) rest
    else !tables.isUpper c && maskCase (mask / 2) rest

def isMaskCase (p : PhraseWords) (index mask : ℕ) : Bool :=
  maskCase tables mask (p.getOriginalString index)

/-- What a filter asks: the words of the key with what is allowed or forbidden at each, and the
agreements between words. -/
structure Constraints where
  allowedGrams : List (ℕ × List GramBits) := []
  forbiddenGrams : List (ℕ × List GramBits) := []
  allowedCases : List (ℕ × List Capitalization) := []
  forbiddenCases : List (ℕ × List Capitalization) := []
  allowedLangs : List (ℕ × List (Finset ℕ)) := []
  forbiddenLangs : List (ℕ × List (Finset ℕ)) := []
  agreements : List (List ℕ × Finset ℕ) := []

variable (correctIndex : ℕ → ℕ)

/-- `FilterGrammems`. A word that the key has as it is written is not filtered. -/
def filterGrammems (allow : Bool) : List (ℕ × List GramBits) → PhraseWords → Bool × PhraseWords
  | [], p => (true, p)
  | (word, filter) :: rest, p =>
    let index := correctIndex word
    if filter.isEmpty || (p.word index).exactWordFromKey then filterGrammems allow rest p
    else
      let p := p.removeGrammems index fun g => filter.any (fun f => decide (f ⊆ g)) != allow
      if (p.word index).hasGrammems then filterGrammems allow rest p else (false, p)

/-- `CheckLanguage`: exact forms are skipped. -/
def checkLanguage (allow : Bool) (langs : List (ℕ × List (Finset ℕ))) (p : PhraseWords) : Bool :=
  langs.all fun l =>
    let index := correctIndex l.1
    !(p.word index).isLemma || l.2.any (fun mask => decide (p.getLanguage index ∈ mask)) == allow

/-- `CheckSingleWordCapitalization`. -/
def checkSingleWordCapitalization (allow : Bool) (p : PhraseWords) (index : ℕ)
    (capitalization : Capitalization) : Bool :=
  let settled (isCase : Bool) :=
    if allow || !isCase then isCase else !p.startsWithDigit tables index
  match capitalization.type with
  | .any => true
  | .exact => p.isMaskCase tables index capitalization.customMask
  | .lower => settled (p.isLowerCase tables index)
  | .title => settled (p.isTitleCase tables index)
  | .upper => settled (p.isUpperCase tables index)

/-- `CheckCapitalization`. -/
def checkCapitalization (allow : Bool) (cases : List (ℕ × List Capitalization)) (p : PhraseWords) :
    Bool :=
  cases.all fun c =>
    c.2.any (checkSingleWordCapitalization tables allow p (correctIndex c.1)) == allow

/-- The forms of one word narrow the forms that all words so far agree on. A form takes the first
one that it agrees with, and one that agrees with none is dropped. -/
def narrowAgreed (types : Finset ℕ) (forms agreed : List GramBits) : List GramBits :=
  agreed.filterMap fun a =>
    (forms.map fun g => tables.strongNormalize g types ∩ a).find? fun form =>
      tables.isAgreed form types

/-- The second loop of `CheckSingleAgreement`. -/
def agreeWords (types : Finset ℕ) (p : PhraseWords) : List ℕ → List GramBits →
    Option (List GramBits)
  | [], agreed => some agreed
  | word :: rest, agreed =>
    let index := correctIndex word
    if (p.word index).exactWordFromKey then agreeWords types p rest agreed
    else
      let narrowed := narrowAgreed tables types (p.word index).iterGrammems agreed
      if narrowed.isEmpty && !agreed.isEmpty then none else agreeWords types p rest narrowed

/-- The last loop of `CheckSingleAgreement`: the homoforms that disagree are removed. -/
def removeDisagreed (types : Finset ℕ) (agreed : List GramBits) : List ℕ → PhraseWords →
    Bool × PhraseWords
  | [], p => (true, p)
  | word :: rest, p =>
    let index := correctIndex word
    if (p.word index).exactWordFromKey then removeDisagreed types agreed rest p
    else
      let p := p.removeGrammems index fun g =>
        !agreed.any fun a => tables.isAgreed (tables.strongNormalize g types ∩ a) types
      if (p.word index).hasGrammems then removeDisagreed types agreed rest p else (false, p)

/-- `CheckSingleAgreement`. -/
def checkSingleAgreement (words : List ℕ) (types : Finset ℕ) (p : PhraseWords) :
    Bool × PhraseWords :=
  -- only the first word may be skipped here
  let rest := match words with
    | word :: rest => if (p.word (correctIndex word)).exactWordFromKey then rest else words
    | [] => []
  match rest with
  | [] => (true, p)
  | first :: rest =>
    let forms := (p.word (correctIndex first)).iterGrammems.map (tables.strongNormalize · types)
    match agreeWords tables correctIndex types p rest forms with
    | none => (false, p)
    | some agreed => removeDisagreed tables correctIndex types agreed words p

/-- `CheckAgreements`. -/
def checkAgreements : List (List ℕ × Finset ℕ) → PhraseWords → Bool × PhraseWords
  | [], p => (true, p)
  | (words, types) :: rest, p =>
    let r := checkSingleAgreement tables correctIndex words types p
    if r.1 then checkAgreements rest r.2 else (false, r.2)

/-- The checks of `Match` in front of the agreements. -/
def grammemsPass (c : Constraints) (p : PhraseWords) : Bool :=
  let forbidden := filterGrammems correctIndex false c.forbiddenGrams p
  forbidden.1 && (filterGrammems correctIndex true c.allowedGrams forbidden.2).1

/-- `TMatcher::Match`. -/
def matchConstraints (c : Constraints) (p : PhraseWords) : Bool × PhraseWords :=
  let forbidden := filterGrammems correctIndex false c.forbiddenGrams p
  if !forbidden.1 then (false, forbidden.2)
  else
    let allowed := filterGrammems correctIndex true c.allowedGrams forbidden.2
    if !allowed.1 then (false, allowed.2)
    else
      let agreed := checkAgreements tables correctIndex c.agreements allowed.2
      if !agreed.1 then (false, agreed.2)
      else
        (checkLanguage correctIndex false c.forbiddenLangs agreed.2 &&
          checkLanguage correctIndex true c.allowedLangs agreed.2 &&
          checkCapitalization tables correctIndex false c.forbiddenCases agreed.2 &&
          checkCapitalization tables correctIndex true c.allowedCases agreed.2, agreed.2)

end PhraseWords
end TomitaParser.Gzt
