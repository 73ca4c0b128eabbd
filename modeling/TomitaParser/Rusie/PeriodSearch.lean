import TomitaParser.Lib.ComparedMap
import TomitaParser.Rusie.TerminalsAssigner
import TomitaParser.Rusie.WordIndexes
/-! # Search in a period

`CMultiWordCreator`: articles are searched in the whole sentence, or in a period of it, and what is
found is kept for the type, the title and the period. -/

namespace TomitaParser.Rusie

/-- `CWordsPair`. -/
structure CWordsPair where
  first : ℤ
  last : ℤ
  le : first ≤ last
deriving DecidableEq

namespace CWordsPair
variable (p q : CWordsPair)

def isValid : Bool := p.first ≠ -1 && p.last ≠ -1

def includes : Bool := p.first ≤ q.first && q.last ≤ p.last

def fromRight : Bool := q.last < p.first && q.last < p.last

def intersects : Bool := q.first ≤ p.last && p.first ≤ q.last

/-- `operator <`. -/
def lt : Bool := (q.includes p || q.fromRight p) && p ≠ q

/-- The pairs have words in common, and neither includes the other. -/
def Crosses : Prop := p.intersects q = true ∧ p.includes q = false ∧ q.includes p = false

end CWordsPair

structure GztArticle where
  title : List ℕ
  articleType : ℕ
  hasNonCustomKey : Bool
  tomitaKeys : List ℕ

/-- `article_t`. -/
structure AuxArticle where
  title : List ℕ
  kwType : Option ℕ
  hasTextContent : Bool
  gramFileName : Option ℕ
  hasAlg : Bool

/-- `SKWTypeInfo`. -/
structure KWTypeInfo where
  onlyTextContent : Bool
  articles : List AuxArticle

/-- The gazetteer and the dictionary of keywords. -/
structure Dictionaries where
  customArticleByName : List ℕ → Option GztArticle
  auxArticle : List ℕ → Option AuxArticle
  isAuxDicArticleType : ℕ → Bool
  kwTypeInfo : ℕ → Option KWTypeInfo
  customArticlesByType : ℕ → List GztArticle

/-- `CollectArticleInfo`: the articles, and whether there are text keys. -/
def collectArticleInfo (d : Dictionaries) (artP : SArtPointer) :
    List GztArticle × List AuxArticle × Bool :=
  let (gztArticles, auxArticles, hasTextKeys) :=
    if !artP.strType.isEmpty then
      match d.customArticleByName artP.strType with
      | some art => ([art], [], false)
      | none => ([], (d.auxArticle artP.strType).toList, false)
    else
      match artP.kwType with
      | none => ([], [], false)
      | some kwType =>
        if d.isAuxDicArticleType kwType then ([], [], false)
        else
          let gztArticles := d.customArticlesByType kwType
          match d.kwTypeInfo kwType with
          | none => (gztArticles, [], true)
          | some info =>
            if info.onlyTextContent then (gztArticles, [], true)
            else (gztArticles, info.articles, false)
  (gztArticles, auxArticles, hasTextKeys || gztArticles.any GztArticle.hasNonCustomKey)

/-- The article or type has plain text keys. -/
def hasTextKeys (d : Dictionaries) (artP : SArtPointer) : Bool := (collectArticleInfo d artP).2.2

/-- What is asked of the words. -/
structure Words where
  sourcePair : WordHomonymNum → CWordsPair
  hasArticle : WordHomonymNum → SArtPointer → Bool

/-- A word and the article it was found for. -/
structure FoundWord where
  kwType : Option ℕ
  title : List ℕ
  word : WordHomonymNum

/-- The word was found for the article or the type. -/
def FoundWord.IsOf (o : FoundWord) (artP : SArtPointer) : Prop :=
  (∀ kwType, artP.kwType = some kwType → o.kwType = some kwType) ∧
    (artP.strType ≠ [] → o.title = artP.strType) ∧ artP.isValid = true

/-- `CMultiWordCreator`. Beside its fields stand what the search for keywords has found, and what
was found in each period. -/
structure MultiWordCreator where
  words : Words
  kw2Words : ℕ → List WordHomonymNum := fun _ => []
  title2Words : List ℕ → List WordHomonymNum := fun _ => []
  foundWordsByPeriod : List (CWordsPair × List WordHomonymNum) := []
  foundArticles : List SArtPointer := []
  textKWFound : Bool := false
  keyWords : List FoundWord := []
  found : List (CWordsPair × WordHomonymNum) := []

namespace MultiWordCreator
variable (s : MultiWordCreator)

/-- `AddFoundArticle` without a period. -/
def addFound (o : FoundWord) : MultiWordCreator :=
  { s with
    kw2Words := fun kwType =>
      if o.kwType = some kwType then s.kw2Words kwType ++ [o.word] else s.kw2Words kwType
    title2Words := fun title =>
      if o.title = title then s.title2Words title ++ [o.word] else s.title2Words title }

/-- `AddFoundArticle`. -/
def addFoundArticle (o : FoundWord) (searchAreaWP : CWordsPair) : MultiWordCreator :=
  if searchAreaWP.isValid then
    { s with
      foundWordsByPeriod :=
        ComparedMap.pushBack CWordsPair.lt searchAreaWP o.word s.foundWordsByPeriod
      found := s.found ++ [(searchAreaWP, o.word)] }
  else s.addFound o

/-- What is found in the whole sentence, if it lies in a period; else some other words. -/
def getFoundWords (artP : SArtPointer) (wp : CWordsPair) (other : List WordHomonymNum) :
    List WordHomonymNum :=
  let inside := fun wh => wp.includes (s.words.sourcePair wh)
  let ofType := (artP.kwType.elim [] s.kw2Words).filter inside
  if !ofType.isEmpty then ofType
  else
    let ofTitle :=
      if !artP.strType.isEmpty then (s.title2Words artP.strType).filter inside else []
    if !ofTitle.isEmpty then ofTitle
    else other.filter fun wh => s.words.hasArticle wh artP

/-- `GetFoundWordsInPeriod`. -/
def getFoundWordsInPeriod (artP : SArtPointer) (wp : CWordsPair) : List WordHomonymNum :=
  s.getFoundWords artP wp (ComparedMap.valuesAt CWordsPair.lt wp s.foundWordsByPeriod)

/-- What was found in a period. -/
def foundIn (wp : CWordsPair) : List WordHomonymNum :=
  (s.found.filter fun f => f.1 = wp).map Prod.snd

/-- What the search for keywords has found is kept for the types and the titles. -/
def Recorded : Prop :=
  ∀ o ∈ s.keyWords,
    (∀ kwType, o.kwType = some kwType → o.word ∈ s.kw2Words kwType) ∧
      o.word ∈ s.title2Words o.title

/-- What every search keeps: keywords stay found. -/
structure Grows (s s' : MultiWordCreator) : Prop where
  textKWFound : s.textKWFound = true → s'.textKWFound = true
  recorded : s.Recorded → s'.Recorded

/-- A search that finds nothing in a period. -/
structure GrowsOutside (s s' : MultiWordCreator) : Prop extends Grows s s' where
  foundWordsByPeriod : s'.foundWordsByPeriod = s.foundWordsByPeriod
  found : s'.found = s.found

/-- Articles are only searched for in the whole sentence together with keywords. -/
def KeysFirst (s s' : MultiWordCreator) : Prop :=
  s'.foundArticles = s.foundArticles ∨ s'.textKWFound = true

/-- A complete search outside of the periods. -/
structure Extends (s s' : MultiWordCreator) : Prop extends GrowsOutside s s' where
  keysFirst : KeysFirst s s'

end MultiWordCreator

/-- The searches that find the words: the keywords of the sentence, the grammars, and the other
algorithms of articles; and the new words for what grammars find. -/
structure Searchers (WordSequence : Type) where
  findKeyWords : Words → Words × List FoundWord
  runFactGrammar : ℕ → CWordsPair → MultiWordCreator → MultiWordCreator × List WordSequence
  newMultiWord : WordSequence → List ℕ → Words → Words × WordHomonymNum
  processGztArticle : GztArticle → MultiWordCreator → MultiWordCreator
  processTomitaAuxArticle : AuxArticle → MultiWordCreator → MultiWordCreator
  processAlgArticle : AuxArticle → MultiWordCreator → MultiWordCreator
  runFactGrammar_extends : ∀ gram wp s, MultiWordCreator.Extends s (runFactGrammar gram wp s).1
  processGztArticle_extends : ∀ a s, MultiWordCreator.Extends s (processGztArticle a s)
  processTomitaAuxArticle_extends : ∀ a s, MultiWordCreator.Extends s (processTomitaAuxArticle a s)
  processAlgArticle_extends : ∀ a s, MultiWordCreator.Extends s (processAlgArticle a s)

namespace MultiWordCreator
variable {WordSequence : Type} (d : Dictionaries) (search : Searchers WordSequence)

/-- `FindKeyWords` for the dictionary of keywords. -/
def findKeyWords (s : MultiWordCreator) : MultiWordCreator :=
  if s.textKWFound then s
  else
    let (words, keyWords) := search.findKeyWords s.words
    { keyWords.foldl addFound { s with words } with textKWFound := true, keyWords }

/-- `FindAuxKWWords` for the dictionary of keywords. -/
def findAuxKWWords (articles : List AuxArticle) (s : MultiWordCreator) : MultiWordCreator :=
  let left := articles.filter fun a => { strType := a.title } ∉ s.foundArticles
  let tomita := left.filter fun a => !a.hasTextContent && a.gramFileName.isSome
  let alg := (left.filter fun a => !a.hasTextContent && a.gramFileName.isNone && a.hasAlg).getLast?
  let s := findKeyWords search s
  let s := tomita.foldl (fun s a => search.processTomitaAuxArticle a s) s
  alg.elim s fun a => search.processAlgArticle a s

/-- One article of the gazetteer in `FindKWWords`. -/
def findGztArticle (artP : SArtPointer) (s : MultiWordCreator) (a : GztArticle) :
    MultiWordCreator :=
  let subArt : SArtPointer := { strType := a.title }
  if subArt ≠ artP ∧ subArt ∈ s.foundArticles then s
  else
    let s := search.processGztArticle a s
    { s with foundArticles := subArt :: s.foundArticles }

/-- `FindKWWords`. Whether there are text keys is not known here either, but the keywords are
searched for in `FindAuxKWWords`. -/
def findKWWords (artP : SArtPointer) (s : MultiWordCreator) : MultiWordCreator :=
  if !artP.isValid || artP ∈ s.foundArticles then s
  else
    let (gztArticles, auxArticles, _) := collectArticleInfo d artP
    let s := gztArticles.foldl (findGztArticle search artP) s
    let s := findAuxKWWords search auxArticles s
    { s with foundArticles := artP :: s.foundArticles }

/-- `AddMultiWordInt` with a period. -/
def addMultiWordInt (kwType : Option ℕ) (title : List ℕ) (searchAreaWP : CWordsPair)
    (s : MultiWordCreator) (ws : WordSequence) : MultiWordCreator :=
  let (words, word) := search.newMultiWord ws title s.words
  addFoundArticle { s with words } ⟨kwType, title, word⟩ searchAreaWP

/-- A grammar is run on a period, and the words it makes are kept for the period. -/
def searchInPeriod (gram : ℕ) (kwType : Option ℕ) (title : List ℕ) (wp : CWordsPair)
    (s : MultiWordCreator) : MultiWordCreator :=
  let (s, newWordSequences) := search.runFactGrammar gram wp s
  newWordSequences.foldl (addMultiWordInt search kwType title wp) s

/-- One article of the gazetteer in `FindWordsInPeriod`. -/
def findGztInPeriod (wp : CWordsPair) (s : MultiWordCreator) (a : GztArticle) :
    MultiWordCreator :=
  a.tomitaKeys.foldl
    (fun s gram => searchInPeriod search gram (some a.articleType) a.title wp s) s

/-- One other article in `FindWordsInPeriod`. -/
def findAuxInPeriod (hasTextKeys : Bool) (wp : CWordsPair) (s : MultiWordCreator)
    (a : AuxArticle) : MultiWordCreator :=
  if a.hasTextContent then
    if !hasTextKeys then findKWWords d search { strType := a.title } s else s
  else
    match a.gramFileName with
    | some gram => searchInPeriod search gram a.kwType a.title wp s
    | none => s

/-- `FindWordsInPeriod`. `CollectArticleInfo` has the flag for text keys by value, so that it stays
false here. -/
def findWordsInPeriod (artP : SArtPointer) (wp : CWordsPair) (s : MultiWordCreator) :
    MultiWordCreator :=
  if !(s.getFoundWordsInPeriod artP wp).isEmpty then s
  else
    let (gztArticles, auxArticles, _) := collectArticleInfo d artP
    let hasTextKeys := false
    let s := if hasTextKeys then findKeyWords search s else s
    let s := gztArticles.foldl (findGztInPeriod search wp) s
    auxArticles.foldl (findAuxInPeriod d search hasTextKeys wp) s

/-- The calls: the search in a period, and the search in the whole sentence. -/
inductive Call
  | inPeriod (artP : SArtPointer) (wp : CWordsPair)
  | inSentence (artP : SArtPointer)

def step (s : MultiWordCreator) : Call → MultiWordCreator
  | .inPeriod artP wp => findWordsInPeriod d search artP wp s
  | .inSentence artP => findKWWords d search artP s

/-- The creator after some calls. -/
def run (words : Words) (calls : List Call) : MultiWordCreator :=
  calls.foldl (step d search) { words }

end MultiWordCreator
end TomitaParser.Rusie
