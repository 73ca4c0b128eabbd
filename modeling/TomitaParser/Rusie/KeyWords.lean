import TomitaParser.Rusie.Reduction
/-! # Articles of the gazetteer

`CollectGztArticles` attaches the articles that the gazetteer finds in a sentence to homonyms of
their main words. Lemmas that morphology has only predicted become lemmas of homonyms there. -/

namespace TomitaParser.KeyWords
open Reduction (GramBits HomonymGrammems)

/-- `THomonymGrammems::Delete`. -/
def delete (g : HomonymGrammems) (gr : GramBits) : HomonymGrammems :=
  if g.hasAny gr then
    { forms := (g.forms.image fun form => form \ gr).filter fun form => form ≠ ∅
      all := g.all \ gr }
  else g

/-- `gFirstName`, `gSurname`, `gPatr` and `gGeo`. -/
def nameGrammems : GramBits := {155, 156, 157, 158}

/-- `TGztArticle`; the grammems are those of its lemma info. -/
structure GztArticle where
  title : String
  type : ℕ
  isAuxDicArticle : Bool := true
  lightKW : Bool := false
  mainWord : ℕ := 0
  outputGrammems : GramBits := ∅
deriving DecidableEq

/-- `CHomonym`; `hasAuxArticle` is about `KW_DICT`. -/
structure Homonym where
  lemmaText : String
  isDictionary : Bool := false
  isDeleted : Bool := false
  grammems : HomonymGrammems := {}
  gztArticle : Option GztArticle := none
  extraGztArticles : List GztArticle := []
  hasAuxArticle : Bool := false
  labels : List String := []
deriving DecidableEq, Inhabited

namespace Homonym

def putGztArticle (h : Homonym) (article : GztArticle) : Homonym :=
  { h with
    gztArticle := some article
    hasAuxArticle := false
    extraGztArticles :=
      if h.extraGztArticles.head?.any fun extra => extra.type != article.type then []
      else h.extraGztArticles }

def addLabel (h : Homonym) (label : String) : Homonym :=
  { h with labels := h.labels.insert label }

end Homonym

/-- `CWord`. -/
structure Word where
  text : String
  homonyms : List Homonym := []
  predictedHomonyms : List Homonym := []
deriving DecidableEq, Inhabited

namespace Word
variable (w : Word)

/-- `GetRusHomonym`. -/
def rusHomonym (iH : ℕ) : Homonym := w.homonyms.getD iH default

def modifyHomonym (iH : ℕ) (f : Homonym → Homonym) : Word :=
  { w with homonyms := w.homonyms.modify iH f }

/-- The number of the first homonym that is not deleted. -/
def firstHomonym : ℕ := w.homonyms.findIdx fun h => !h.isDeleted

/-- The homonym that takes a predicted lemma: not from the dictionary, without grammems. -/
def restorable : Option ℕ :=
  w.homonyms.findIdx? fun h => !h.isDeleted && !h.isDictionary && h.grammems.empty

/-- A homonym with another article is cloned, or keeps the new one beside its own. -/
def putGztArticle (iH : ℕ) (article : GztArticle) (bClone : Bool) : ℕ × Word :=
  let h := w.rusHomonym iH
  let clone := (w.homonyms.length, { w with homonyms := w.homonyms ++ [h.putGztArticle article] })
  match h.hasAuxArticle, h.gztArticle with
  | false, none => (iH, w.modifyHomonym iH fun h => h.putGztArticle article)
  | true, _ => clone
  | false, some own =>
    if bClone || own.type != article.type then clone
    else (iH, w.modifyHomonym iH fun h =>
      { h with extraGztArticles := h.extraGztArticles.insert article })

/-- Put a predicted homonym in the place of one; grammems of names are not safe. -/
def restoreHomonym (iH : ℕ) (predicted : Homonym) : Word :=
  w.modifyHomonym iH fun h =>
    { h with
      lemmaText := predicted.lemmaText
      grammems := delete predicted.grammems nameGrammems }

/-- The word once its predicted homonym is restored, if it has one and a homonym for it. -/
def restore (predicted : Option ℕ) : Word :=
  match predicted, w.restorable with
  | some k, some iH => w.restoreHomonym iH (w.predictedHomonyms.getD k default)
  | _, _ => w

variable {w}

theorem restore_some {iH : ℕ} (h : w.restorable = some iH) (k : ℕ) :
    w.restore (some k) = w.restoreHomonym iH (w.predictedHomonyms.getD k default) := by
  unfold restore
  rw [h]

theorem restore_none (h : w.restorable = none) (predicted : Option ℕ) :
    w.restore predicted = w := by
  unfold restore
  rw [h]
  cases predicted <;> rfl

end Word

/-- `CMultiWord` with its source pair. -/
structure MultiWord where
  firstWord : ℕ
  lastWord : ℕ
  word : Word
deriving DecidableEq, Inhabited

/-- Where the lemma iterator of a word stands: at a homonym, or at a predicted one. -/
inductive LemmaIter where
  | homonym (id : ℕ)
  | predicted (index : ℕ)
deriving DecidableEq

/-- An article with the words it is found on; those that are not found by a lemma have none. -/
structure FoundArticle where
  article : GztArticle
  firstWord : ℕ
  words : List (Option LemmaIter)

namespace FoundArticle
variable (fa : FoundArticle)

def lastWord : ℕ := fa.firstWord + fa.words.length - 1

def mainRel : ℕ := if fa.words.length ≤ fa.article.mainWord then 0 else fa.article.mainWord

def mainWord : ℕ := fa.firstWord + fa.mainRel

/-- What the main word is found by. -/
def mainLemma : Option LemmaIter := fa.words.getD fa.mainRel none

/-- The words that are found by predicted homonyms, with the indexes of these. -/
def predictedWords : List (ℕ × ℕ) :=
  fa.words.zipIdx.filterMap fun li =>
    match li.1 with
    | some (.predicted index) => some (fa.firstWord + li.2, index)
    | _ => none

end FoundArticle

/-- What the dictionaries say, and `MergeGrammems`, which nothing here depends on. -/
structure Dictionaries where
  companyInQuotes : ℕ
  date : ℕ
  dateChain : ℕ
  isGeo : ℕ → Bool
  hasKWType : Homonym → ℕ → Bool
  mergeGrammems : HomonymGrammems → GramBits → HomonymGrammems
  toLower : String → String

/-- `CTextWS` for an article: its number among those found, and a main homonym. -/
structure TextWS where
  number : ℕ
  firstWord : ℕ
  lastWord : ℕ
  mainWord : ℕ
  homNum : ℕ
  article : GztArticle
deriving DecidableEq

namespace Dictionaries
variable (K : Dictionaries)

def hasToAddGrammemsFromMainWord (type : ℕ) : Bool :=
  type != K.companyInQuotes && type != K.date && type != K.dateChain

def newGrammems (words : List Word) (ws : TextWS) : HomonymGrammems :=
  let main := (words.getD ws.mainWord default).rusHomonym ws.homNum
  K.mergeGrammems (if K.hasToAddGrammemsFromMainWord ws.article.type then main.grammems else {})
    ws.article.outputGrammems

/-- The article is put to a homonym of a word, and the grammems are set. -/
def putToWord (word : Word) (homNum : ℕ) (article : GztArticle) (newGram : HomonymGrammems) :
    ℕ × Word :=
  let bCloneAnyway := (!newGram.empty && (word.rusHomonym homNum).grammems != newGram) ||
    !K.isGeo article.type
  let r := word.putGztArticle homNum article bCloneAnyway
  (r.1, if newGram.empty then r.2 else r.2.modifyHomonym r.1 fun h => { h with grammems := newGram })

/-- `TakeMultiWord` for a single word: the number of its homonym with the article. -/
def takeSingleWord (ws : TextWS) (words : List Word) : ℕ × List Word :=
  let r := K.putToWord (words.getD ws.mainWord default) ws.homNum ws.article
    (K.newGrammems words ws)
  (r.1, words.set ws.mainWord r.2)

def findBestHomonym (word : Word) (lemmaText : String) (kwtype : ℕ) (grammems : HomonymGrammems) :
    Option ℕ :=
  let same (h : Homonym) : Bool := !h.isDeleted && h.lemmaText == lemmaText
  (word.homonyms.findIdx? fun h => same h && K.hasKWType h kwtype && h.grammems == grammems) <|>
    (word.homonyms.findIdx? fun h => same h && K.hasKWType h kwtype) <|>
    word.homonyms.findIdx? same

/-- A new multiword. -/
def newMultiWord (words : List Word) (ws : TextWS) : MultiWord where
  firstWord := ws.firstWord
  lastWord := ws.lastWord
  word :=
    { text := "_".intercalate (((words.take (ws.lastWord + 1)).drop ws.firstWord).map Word.text) }

/-- `TakeMultiWord` for several words: the multiwords afterwards. -/
def takeSeveralWords (ws : TextWS) (words : List Word) (multiWords : List MultiWord) :
    List MultiWord :=
  let k := multiWords.findIdx fun m => m.firstWord == ws.firstWord && m.lastWord == ws.lastWord
  let multi := multiWords.getD k (newMultiWord words ws)
  let newGram := K.newGrammems words ws
  let lemmaText := K.toLower multi.word.text
  let word :=
    match K.findBestHomonym multi.word lemmaText ws.article.type newGram with
    | some homNum => (K.putToWord multi.word homNum ws.article newGram).2
    | none =>
      let made : Homonym := Homonym.putGztArticle { lemmaText } ws.article
      { multi.word with homonyms := multi.word.homonyms ++
          [if newGram.empty then made else { made with grammems := newGram }] }
  if k < multiWords.length then multiWords.set k { multi with word }
  else multiWords ++ [{ multi with word }]

end Dictionaries

/-- What is collected: the words, the homonyms of original words that the articles are attached to,
and the sequences of one word that wait. -/
structure Collected where
  words : List Word
  multiWords : List MultiWord
  attached : ℕ → Option (ℕ × ℕ) := fun _ => none
  singles : List TextWS := []

/-- For each word the last predicted homonym that an article is found by. -/
def predictedGood (found : List FoundArticle) : ℕ → Option ℕ :=
  found.foldl (fun good fa =>
    if fa.article.isAuxDicArticle then
      fa.predictedWords.foldl (fun good wk => Function.update good wk.1 (some wk.2)) good
    else good) fun _ => none

/-- The words, and for each word the restored homonym. -/
def restorePredictedHomonyms (good : ℕ → Option ℕ) (words : List Word) :
    List Word × (ℕ → Option ℕ) :=
  (words.zipIdx.map fun wi => wi.1.restore (good wi.2),
    fun iW => (good iW).bind fun _ => (words.getD iW default).restorable)

/-- The main homonym at first, none for a predicted one. -/
def mainHomonym (words : List Word) (fa : FoundArticle) : Option ℕ :=
  match fa.mainLemma with
  | some (.homonym id) => some id
  | some (.predicted _) => none
  | none => some (words.getD fa.mainWord default).firstHomonym

/-- The word sequence of an article with its main homonym fixed, none if it is skipped. -/
def fixMain (words : List Word) (restored : ℕ → Option ℕ) (fa : FoundArticle) (number : ℕ) :
    Option TextWS :=
  if fa.article.isAuxDicArticle then
    ((mainHomonym words fa).or (restored fa.mainWord)).map fun homNum =>
      { number, firstWord := fa.firstWord, lastWord := fa.lastWord, mainWord := fa.mainWord, homNum
        article := fa.article }
  else none

/-- All these, in the order found. -/
def foundWS (words : List Word) (found : List FoundArticle) : List TextWS :=
  let restored := (restorePredictedHomonyms (predictedGood found) words).2
  found.zipIdx.filterMap fun fi => fixMain words restored fi.1 fi.2

namespace Dictionaries
variable (K : Dictionaries)

/-- A single word is attached. -/
def attachSingle (s : Collected) (ws : TextWS) : ℕ × Collected :=
  let r := K.takeSingleWord ws s.words
  (r.1, { s with
    words := r.2
    attached := Function.update s.attached ws.number (some (ws.mainWord, r.1)) })

/-- One turn of the third step. -/
def collectOne (s : Collected) (ws : TextWS) : Collected :=
  if ws.article.lightKW then
    { s with
      words := s.words.modify ws.mainWord fun word =>
        word.modifyHomonym ws.homNum fun h => h.addLabel ws.article.title
      attached := Function.update s.attached ws.number (some (ws.mainWord, ws.homNum)) }
  else if ws.firstWord = ws.lastWord then { s with singles := s.singles ++ [ws] }
  else
    { s with
      multiWords := K.takeSeveralWords ws s.words s.multiWords
      attached := Function.update s.attached ws.number (some (ws.mainWord, ws.homNum)) }

/-- The articles of one group: all go to the homonym that the first one is put to. -/
def attachGroup (s : Collected) : List TextWS → Collected
  | [] => s
  | ws :: others =>
    let r := K.attachSingle s ws
    others.foldl (fun s ws => (K.attachSingle s { ws with homNum := r.1 }).2) r.2

end Dictionaries

/-- The word, homonym and type that sequences are grouped by. -/
def TextWS.key (ws : TextWS) : ℕ × ℕ × ℕ := (ws.mainWord, ws.homNum, ws.article.type)

/-- The order that hash tables are gone through. -/
structure HashOrder where
  order : List (ℕ × ℕ × ℕ) → List (ℕ × ℕ × ℕ)
  perm : ∀ keys, (order keys).Perm keys

/-- `CollectGztArticles`, for the articles that the gazetteer finds. -/
def collectGztArticles (K : Dictionaries) (H : HashOrder) (words : List Word)
    (multiWords : List MultiWord) (found : List FoundArticle) : Collected :=
  let restored := (restorePredictedHomonyms (predictedGood found) words).1
  let s := (foundWS words found).foldl K.collectOne { words := restored, multiWords }
  (H.order (s.singles.map TextWS.key).dedup).foldl (fun t key =>
    K.attachGroup t (s.singles.filter fun ws => ws.key = key)) s

end TomitaParser.KeyWords
