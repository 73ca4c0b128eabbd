import Mathlib.Data.Finset.Lattice.Fold
import TomitaParser.Text.Primitives
/-! # Terminals of a word

`CTerminalsAssigner`: every homonym of a word gets the terminals of the grammar that fit it. -/

namespace TomitaParser.Rusie
open Text

/-- `TGrammar`, the grammems that the assigner asks for. -/
inductive TGrammar
  | adjective
  | adverb
  | conjunction
  | interjunction
  | numeral
  | particle
  | preposition
  | substantive
  | verb
  | adjNumeral
  | adjPronoun
  | advPronoun
  | substPronoun
  | abbreviation
  | firstName
  | surname
  | patr
  | geo
  | singular
  | plural
  | gerund
  | infinitive
  | participle
  | imperative
  | short
  | comparative
  | possessive
  | praedic
  | parenth
  | simConj
  | subConj
  | pronounConj
  | correlateConj
  | auxVerb
  | other (code : ℕ)
deriving DecidableEq, Repr

/-- `TMorph::AllPOS`, in the order of the codes. -/
def allPOS : List TGrammar :=
  [.adjective, .adverb, .conjunction, .interjunction, .numeral, .particle, .preposition,
    .substantive, .verb, .adjNumeral, .adjPronoun, .advPronoun, .substPronoun, .gerund,
    .infinitive, .participle, .imperative, .short, .comparative, .possessive, .praedic, .parenth,
    .simConj, .subConj, .pronounConj, .correlateConj, .auxVerb]

/-- `TGramBitSet`. -/
abbrev TGramBitSet := List TGrammar

namespace TGramBitSet
variable (g : TGramBitSet)

def has (grammem : TGrammar) : Bool := grammem ∈ g

def hasAll (mask : TGramBitSet) : Bool := mask.all g.has

def hasAny (mask : TGramBitSet) : Bool := mask.any g.has

def isPersonalVerb : Bool :=
  g.has .verb && !g.hasAny [.participle, .gerund, .infinitive, .imperative, .auxVerb]

def isFullAdjective : Bool := g.has .adjective && !g.has .short

def isFullParticiple : Bool := g.has .participle && !g.has .short

def isMorphAdj : Bool :=
  g.hasAny [.adjPronoun, .adjective, .participle, .adjNumeral] && !g.has .short

def hasPOS : TGrammar → Bool
  | .verb => g.isPersonalVerb
  | .participle => g.isFullParticiple
  | .adjective => g.isFullAdjective
  | pos => g.has pos

def getPOS : TGramBitSet := allPOS.filter g.has

/-- The fewest grammems that tell the part of speech, the most specific ones. -/
def getMinimalPOS : TGramBitSet :=
  let res := g.getPOS
  if 2 ≤ res.length then
    let last := res.getLastD .short
    if last = .short ∨ last = .possessive then
      if 2 < res.length then res.filter (TGramBitSet.has [last, .adjective, .participle]) else res
    else [last]
  else res

end TGramBitSet

/-- `SArtPointer`: a type of keywords or the title of an article. -/
structure SArtPointer where
  kwType : Option ℕ := none
  strType : List ℕ := []
deriving DecidableEq, Repr

def SArtPointer.isValid (p : SArtPointer) : Bool := p.kwType.isSome || !p.strType.isEmpty

/-- `CHomonym`. What the dictionaries know about its articles is kept with it. -/
structure CHomonym where
  lemmaText : List ℕ := []
  grammems : TGramBitSet := []
  isDeleted : Bool := false
  labels : List (List ℕ) := []
  matchArticlePtr : SArtPointer → Bool := fun p => !p.isValid
  hasArtPointer : List SArtPointer → Bool := fun _ => false

namespace CHomonym
variable (h : CHomonym)

def hasGrammem (grammem : TGrammar) : Bool := h.grammems.has grammem

def isGeo : Bool := h.hasGrammem .geo

def isName : Bool :=
  h.grammems.hasAny [.surname, .firstName, .patr] && (h.hasGrammem .singular || !h.hasGrammem .plural)

def hasUnknownPOS : Bool := h.grammems.getPOS.isEmpty

def hasSamePOS (hom : CHomonym) : Bool := h.grammems.getMinimalPOS = hom.grammems.getMinimalPOS

def hasKWType (kwType : Option ℕ) : Bool :=
  let p : SArtPointer := { kwType }
  p.isValid && h.matchArticlePtr p

end CHomonym

/-- `ePostfix`. -/
inductive EPostfix
  | noPrep
  | noHomonyms
  | allLet
  | firstLet
  | secondLet
  | not
  | latin
  | dictOrg
  | dictGeo
  | dictName
  | yes
  | count
deriving DecidableEq, Repr

/-- `CGrammarItem`, a terminal with its postfixes. -/
structure CGrammarItem where
  lemmaText : List ℕ := []
  itemGrammems : TGramBitSet := []
  negativeItemGrammems : TGramBitSet := []
  hom : EPostfix := .count
  nohomonyms : EPostfix := .count
  hreg : EPostfix := .count
  hreg1 : EPostfix := .count
  hreg2 : EPostfix := .count
  dict : EPostfix := .count
  lat : EPostfix := .count
  orgMorphDict : EPostfix := .count
  geoMorphDict : EPostfix := .count
  nameMorphDict : EPostfix := .count
  lreg : EPostfix := .count
  fw : EPostfix := .count
  isMultiword : EPostfix := .count
  isNonePostfixKWType : Bool := false
  dictKWType : SArtPointer := {}
  dictNotKWType : SArtPointer := {}
  dictLabel : SArtPointer := {}
  dictNotLabel : SArtPointer := {}

/-- `eTerminals`. -/
inductive ETerminals
  | file | noun | adj | adjPartOrdNum | ordNum | unPOS | prep | conjAnd
  | quoteDbl | quoteSng | word | bracket | fio | comma
  | hyphen | punct | colon | any | zero | geo | quotedWords
  | eosent | artificialEOS | anyWord | adv | participle | verb | infinitive | date
  | percent | dollar | lBracket | rBracket | numSign | ampersand | plusSign | termCount
deriving DecidableEq, Repr

/-- `CWorkGrammar`: the terminals are a map from the numbers of items. -/
structure CWorkGrammar where
  uniqueGrammarItems : ℕ → CGrammarItem
  uniqueGrammarTerminalIDs : List (ℕ × ETerminals)
  nodup : (uniqueGrammarTerminalIDs.map Prod.fst).Nodup
  eosentNum : Option ℕ := none
  endOfStreamSymbol : ℕ := 0
  kwArticlePointer : List SArtPointer := []
  isGeoKWType : ℕ → Bool := fun _ => false

/-- `CWord`. Its homonyms are pointers, and `homonym` is what they point to. -/
structure CWord (H : Type) where
  homonyms : List H
  homonym : H → CHomonym
  typ : TypeOfPrim := .word
  txt : List ℕ := []
  isEndOfStreamWord : Bool := false
  firstWord : ℕ := 0
  lastWord : ℕ := 0
  bUp : Bool := false
  ignoreUpperCase : Bool := false
  hasAtLeastTwoUpper : Bool := false
  hasVariants : Bool := false
  isMultiWord : Bool := false
  isLatComplexWordAsCompName : Bool := false
  isComplexWordAsCompName : Bool := false
  isComplexWordAsDate : Bool := false
  isDoubleQuote : Bool := false
  isSingleQuote : Bool := false
  isOpenBracket : Bool := false
  isCloseBracket : Bool := false
  isDash : Bool := false
  isPunct : Bool := false
  isComma : Bool := false
  isColon : Bool := false

namespace CWord
variable {H : Type} (w : CWord H)

/-- The homonyms that the iterator goes over: those that are not deleted. -/
def live : List H := w.homonyms.filter fun h => !(w.homonym h).isDeleted

/-- The homonyms that the iterator goes over while `Ok32`. -/
def live32 : List H := (w.homonyms.take 32).filter fun h => !(w.homonym h).isDeleted

def hasPOS (pos : TGrammar) : Bool := w.live.any fun h => (w.homonym h).grammems.hasPOS pos

def hasUnknownPOS : Bool := w.live.any fun h => (w.homonym h).hasUnknownPOS

def hasGeoHom : Bool := w.live.any fun h => (w.homonym h).isGeo

def hasNameHom : Bool := w.live.any fun h => (w.homonym h).isName

def rusWordI : List ℕ := [0x438]

/-- `IsAndConj`, which looks at deleted homonyms too. -/
def isAndConj : Bool := w.homonyms.any fun h => (w.homonym h).lemmaText = rusWordI

end CWord

/-- The terminal symbols of the homonyms and of the word. -/
@[ext]
structure Symbols (H : Type) where
  homonym : H → Finset ℕ
  word : Finset ℕ

namespace Symbols
variable {H : Type} [DecidableEq H] (s : Symbols H)

/-- After `DeleteAllTerminalSymbols`. -/
def cleared (H : Type) : Symbols H := ⟨fun _ => ∅, ∅⟩

def addTerminalSymbol (h : H) (t : ℕ) : Symbols H :=
  { s with homonym := Function.update s.homonym h (insert t (s.homonym h)) }

def eraseTerminalSymbol (h : H) (t : ℕ) : Symbols H :=
  { s with homonym := Function.update s.homonym h ((s.homonym h).erase t) }

end Symbols

namespace CTerminalsAssigner
variable {H : Type} [DecidableEq H] (g : CWorkGrammar) (wpSentFirst wpSentLast : ℕ) (w : CWord H)

def checkKWPostfix (h : CHomonym) (item : CGrammarItem) : Bool :=
  if item.isNonePostfixKWType && h.hasArtPointer g.kwArticlePointer then false
  else if !h.matchArticlePtr item.dictKWType then false
  else if item.dictNotKWType.isValid && h.matchArticlePtr item.dictNotKWType then false
  else true

def checkLabelPostfix (h : CHomonym) (item : CGrammarItem) : Bool :=
  let label := item.dictLabel.strType
  let notLabel := item.dictNotLabel.strType
  if !label.isEmpty then label ∈ h.labels
  else if !notLabel.isEmpty then notLabel ∉ h.labels
  else true

def checkGrammemsPostfix (h : CHomonym) (item : CGrammarItem) : Bool :=
  h.grammems.hasAll item.itemGrammems && !h.grammems.hasAny item.negativeItemGrammems

/-- The word is of Latin letters. -/
def isLatin : Bool :=
  w.typ = .altWord || w.isLatComplexWordAsCompName ||
    w.typ = .abbEosAlt || w.typ = .abbDigAlt || w.typ = .abbAlt

/-- The homonyms after the first are compared: for a geographical type each has to be of that type,
else to have the part of speech of the first. -/
def checkNoHomonyms (item : CGrammarItem) : Bool :=
  if 1 < w.homonyms.length ∧ item.isNonePostfixKWType = false then
    match w.live32 with
    | [] => true
    | homWithPos :: rest =>
      if item.dictKWType.kwType.any g.isGeoKWType then
        rest.all fun h =>
          (w.homonym h).isGeo || (w.homonym h).hasKWType item.dictKWType.kwType
      else rest.all fun h => (w.homonym homWithPos).hasSamePOS (w.homonym h)
  else true

/-- The letters of the word. -/
def checkLetters (item : CGrammarItem) : Bool :=
  if w.ignoreUpperCase then true
  else if item.hreg1 = .firstLet ∧ !w.bUp ∧ w.typ ≠ .digit then false
  else if (item.hreg2 = .secondLet ∨ item.hreg = .allLet) ∧ !w.hasAtLeastTwoUpper then false
  else if item.hreg2 = .not ∧ w.hasAtLeastTwoUpper then false
  else if item.lreg = .allLet ∧ w.bUp then false
  else true

def checkWordPostfix (item : CGrammarItem) : Bool :=
  if !checkLetters w item then false
  else if item.hom = .noPrep ∧ w.hasPOS .preposition then false
  else if item.nohomonyms = .noHomonyms ∧ !checkNoHomonyms g w item then false
  else if item.dict = .not ∧ !w.hasUnknownPOS ∧ !(w.hasVariants && w.typ = .hyphen) then false
  else if item.lat = .latin ∧ !isLatin w then false
  else if item.lat = .not ∧ isLatin w then false
  else if item.orgMorphDict = .dictOrg then false
  else if item.geoMorphDict = .dictGeo ∧ !w.hasGeoHom then false
  else if item.geoMorphDict = .not ∧ w.hasGeoHom then false
  else if item.nameMorphDict = .dictName ∧ !w.hasNameHom then false
  else if item.nameMorphDict = .not ∧ w.hasNameHom then false
  else if item.fw = .not ∧ w.firstWord = wpSentFirst then false
  else if item.fw = .yes ∧ w.firstWord ≠ wpSentFirst then false
  else if item.isMultiword = .not ∧ w.isMultiWord then false
  else if item.isMultiword = .yes ∧ !w.isMultiWord then false
  else true

/-- Every homonym of a list that fits gets the terminal. -/
def assignWhere (fits : H → Bool) (t : ℕ) (homonyms : List H) (s : Symbols H) : Symbols H :=
  homonyms.foldl (fun s h => if fits h then s.addTerminalSymbol h t else s) s

def addTerminalSymbolToAllHomonyms (t : ℕ) (s : Symbols H) : Symbols H :=
  assignWhere (fun _ => true) t w.homonyms s

/-- What `AssignHomonymTerminalWeak` asks of a homonym. -/
def fitsWeak (item : CGrammarItem) (h : CHomonym) : Bool :=
  checkKWPostfix g h item && checkLabelPostfix h item

/-- What `AssignHomonymTerminal` asks of a homonym. -/
def fitsFull (item : CGrammarItem) (h : CHomonym) : Bool :=
  checkGrammemsPostfix h item && fitsWeak g item h

/-- The loop of `AssignWordTerminal`, with the homonyms it has seen. -/
def assignWordLoop (item : CGrammarItem) (t : ℕ) : List H → List H → Symbols H → Symbols H
  | _, [], s => s
  | previous, h :: rest, s =>
    let hom := w.homonym h
    if checkKWPostfix g hom item then
      assignWordLoop item t (previous ++ [h]) rest
        (if checkGrammemsPostfix hom item && checkLabelPostfix hom item then
          s.addTerminalSymbol h t
        else s)
    else if item.isNonePostfixKWType then
      previous.foldl (fun s h => s.eraseTerminalSymbol h t) s
    else assignWordLoop item t (previous ++ [h]) rest s

def assignWordTerminal (item : CGrammarItem) (t : ℕ) (s : Symbols H) : Symbols H :=
  if !checkWordPostfix g wpSentFirst w item then s
  else assignWordLoop g w item t [] w.live32 s

/-- An abbreviation of a word in lower case ends the loop over the homonyms. -/
def isLowerAbbreviation (h : CHomonym) : Bool :=
  h.hasGrammem .abbreviation && !w.bUp && !w.ignoreUpperCase

/-- Names are no nouns, except names in lower case. -/
def isNoun (h : CHomonym) : Bool :=
  h.grammems.hasPOS .substantive && (!h.isName || !w.bUp)

def assignNounLoop (item : CGrammarItem) (t : ℕ) : List H → Symbols H → Symbols H
  | [], s => s
  | h :: rest, s =>
    let hom := w.homonym h
    if isLowerAbbreviation w hom then s
    else
      assignNounLoop item t rest
        (if isNoun w hom && fitsFull g item hom then s.addTerminalSymbol h t else s)

def assignNounTerminal (item : CGrammarItem) (t : ℕ) (s : Symbols H) : Symbols H :=
  if !checkWordPostfix g wpSentFirst w item then s
  else assignNounLoop g w item t w.live32 s

/-- The loops that ask one question about each homonym, if the word fits. -/
def assignIf (word : Bool) (fits : CHomonym → Bool) (item : CGrammarItem) (t : ℕ)
    (s : Symbols H) : Symbols H :=
  if word && checkWordPostfix g wpSentFirst w item then
    assignWhere (fun h => fits (w.homonym h)) t w.live32 s
  else s

def assignPOSTerminal (item : CGrammarItem) (t : ℕ) (pos : TGrammar) (s : Symbols H) :
    Symbols H :=
  assignIf g wpSentFirst w true (fun h => h.grammems.hasPOS pos && fitsFull g item h) item t s

def checkTerminalAdj (h : CHomonym) (symb : ETerminals) : Bool :=
  (h.grammems.isMorphAdj && symb = .adj) ||
    ((h.grammems.isFullAdjective || h.grammems.isFullParticiple ||
      h.grammems.hasPOS .adjNumeral) && symb = .adjPartOrdNum)

def checkTerminalWord : Bool :=
  (w.typ ≠ .unknownPrim && w.typ ≠ .newLine && w.typ ≠ .space && w.typ ≠ .punct &&
      w.typ ≠ .symbol && w.typ ≠ .complex) ||
    w.isComplexWordAsCompName || w.isComplexWordAsDate || w.isMultiWord

/-- The word is a symbol with this character in it. -/
def isSymbolWith (ch : Char) : Bool := w.typ = .symbol && decide (ch.toNat ∈ w.txt)

def buildTerminalSymbolsLoop (t : ℕ) (symb : ETerminals) (s : Symbols H) : Symbols H :=
  let item := g.uniqueGrammarItems t
  let all (word : Bool) := if word then addTerminalSymbolToAllHomonyms w t s else s
  let weak (word : Bool) := assignIf g wpSentFirst w word (fitsWeak g item) item t s
  match symb with
  | .termCount =>
    assignWhere (fun h =>
      decide ((w.homonym h).lemmaText = item.lemmaText) &&
        checkGrammemsPostfix (w.homonym h) item && checkWordPostfix g wpSentFirst w item &&
        checkKWPostfix g (w.homonym h) item) t w.live32 s
  | .anyWord => assignWordTerminal g wpSentFirst w item t s
  | .word => if checkTerminalWord w then assignWordTerminal g wpSentFirst w item t s else s
  | .noun => assignNounTerminal g wpSentFirst w item t s
  | .ordNum => assignPOSTerminal g wpSentFirst w item t .adjNumeral s
  | .adv => assignPOSTerminal g wpSentFirst w item t .adverb s
  | .participle => assignPOSTerminal g wpSentFirst w item t .participle s
  | .verb => assignPOSTerminal g wpSentFirst w item t .verb s
  | .infinitive => assignPOSTerminal g wpSentFirst w item t .infinitive s
  | .adj | .adjPartOrdNum =>
    assignIf g wpSentFirst w true (fun h => checkTerminalAdj h symb && fitsFull g item h) item t s
  | .unPOS =>
    assignIf g wpSentFirst w (w.typ = .word || w.typ = .hyphen)
      (fun h => h.hasUnknownPOS && fitsFull g item h) item t s
  | .prep =>
    assignIf g wpSentFirst w true
      (fun h => h.grammems.hasPOS .preposition && fitsWeak g item h) item t s
  | .conjAnd => all w.isAndConj
  | .quoteDbl => all w.isDoubleQuote
  | .quoteSng => all w.isSingleQuote
  | .lBracket => all w.isOpenBracket
  | .rBracket => all w.isCloseBracket
  | .bracket => all (w.isOpenBracket || w.isCloseBracket)
  | .hyphen => all w.isDash
  | .punct => all w.isPunct
  | .comma => all w.isComma
  | .colon => all w.isColon
  | .date => weak true
  | .percent => weak (decide ('%'.toNat ∈ w.txt))
  | .dollar => weak (decide ('$'.toNat ∈ w.txt))
  | .numSign => weak (isSymbolWith w '#')
  | .plusSign => weak (isSymbolWith w '+')
  | .ampersand => weak (isSymbolWith w '&')
  | _ => s

/-- The union of the symbols of the homonyms that are not deleted. -/
def uniteHomonymsTerminalSymbols (s : Symbols H) : Symbols H :=
  { s with word := w.live.foldl (fun union h => union ∪ s.homonym h) ∅ }

/-- Nothing, where a word for the end of the stream has other than one homonym. -/
def buildTerminalSymbols (s : Symbols H) : Option (Symbols H) :=
  if w.isEndOfStreamWord then
    match g.eosentNum with
    | some eosent =>
      match w.live with
      | [h] =>
        let s := s.addTerminalSymbol h eosent
        some { s with word := insert g.endOfStreamSymbol (insert eosent s.word) }
      | _ => none
    | none => some { s with word := insert g.endOfStreamSymbol s.word }
  else if !(wpSentFirst ≤ w.firstWord && w.lastWord ≤ wpSentLast) then some s
  else
    some (uniteHomonymsTerminalSymbols w
      (g.uniqueGrammarTerminalIDs.foldl
        (fun s (t, symb) => buildTerminalSymbolsLoop g wpSentFirst w t symb s) s))

end CTerminalsAssigner
end TomitaParser.Rusie
