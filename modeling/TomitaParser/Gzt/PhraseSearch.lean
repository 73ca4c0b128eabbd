import TomitaParser.Gzt.ArticleFilter
import TomitaParser.Gzt.SearchTree
/-! # Search for phrases

Each word of the input is appended to the branches of the trie that are in progress, under every id
that the word can have in a key. The articles of the keys that end with the word are then found one
after the other, and what is done with a found article decides whether the search goes on. -/

namespace TomitaParser.Gzt

namespace WordId

/-- `TWordIdTraits`: the two lowest bits of an id tell how the word stands in keys. -/
def isExactForm (id : ℕ) : Bool := id.testBit 0

def isLemma (id : ℕ) : Bool := id.testBit 1

/-- `CheckAndForce`: the id with one of its flags only, if it has that flag. -/
def checkAndForce (exact : Bool) (id : ℕ) : Option ℕ :=
  if exact then if isExactForm id then some (if isLemma id then id - 2 else id) else none
  else if isLemma id then some (if isExactForm id then id - 1 else id) else none

end WordId

/-- `TGztTrie`. -/
structure GztTrie where
  wordTrie : String → Option ℕ
  /-- The id of the wildcard, zero if no key has it. -/
  metaAnyWordId : ℕ := 0
  phraseTrie : Trie ArticleBucket
  compoundTrie : Trie ArticleBucket := []
  articleFilter : ArticleFilterBuilder
  tables : MatchTables

namespace GztTrie
variable (trie : GztTrie)

def findWordId (text : String) : ℕ := (trie.wordTrie text).getD 0

/-- `IsCompoundElement`: each id of a compound key is remembered when the key is added. -/
def isCompoundElement (id : ℕ) : Bool := trie.compoundTrie.any fun key => key.1.contains id

def iterSimple (bucket : ArticleBucket) : List ℕ :=
  trie.articleFilter.simpleArticles.get bucket.simpleIndex

def iterFiltered (bucket : ArticleBucket) : List ArticleFilter :=
  trie.articleFilter.filteredArticles.base.get bucket.filterIndex

/-- `MatchFilter`. -/
def matchFilter (f : ArticleFilter) (words : PhraseWords) (indexTable : List ℕ) :
    Bool × PhraseWords :=
  words.matchConstraints trie.tables (correctIndex indexTable)
    (trie.articleFilter.filterConstraints f.dataIndex)

end GztTrie

/-- `TSearchTree`. -/
structure SearchTree where
  branches : List (Branch ArticleBucket) := []
  nextBranches : List (Branch ArticleBucket) := []

namespace SearchTree

/-- `MAX_BRANCHES`. -/
def maxBranches : ℕ := 10000

/-- The longest length and the number of branches that have it. -/
def longest (branches : List (Branch ArticleBucket)) : ℕ × ℕ :=
  branches.foldl (fun r b =>
    if r.1 < b.length then (b.length, 1) else if b.length = r.1 then (r.1, r.2 + 1) else r) (0, 0)

/-- The number of branches that are not shorter. -/
def countFrom (branches : List (Branch ArticleBucket)) (dropLen : ℕ) : ℕ :=
  branches.countP fun b => decide (dropLen ≤ b.length)

/-- The length is halved until the shorter branches are few enough. -/
def dropFrom (branches : List (Branch ArticleBucket)) (goalSize dropLen dropCount : ℕ) : ℕ × ℕ :=
  if h : goalSize + dropCount < branches.length ∧ dropLen ≠ 0 then
    dropFrom branches goalSize (dropLen / 2) (countFrom branches (dropLen / 2))
  else (dropLen, dropCount)
termination_by dropLen
decreasing_by exact Nat.div_lt_self (Nat.pos_of_ne_zero h.2) (by omega)

/-- The branches that stay: short ones, and the first `survive` of the long ones. -/
def keepShort (dropLen : ℕ) : ℕ → List (Branch ArticleBucket) → List (Branch ArticleBucket)
  | _, [] => []
  | survive, b :: rest =>
    if dropLen ≤ b.length then
      match survive with
      | 0 => keepShort dropLen 0 rest
      | survive + 1 => b :: keepShort dropLen survive rest
    else b :: keepShort dropLen survive rest

/-- `ClearLongestBranches`. -/
def clearLongestBranches (branches : List (Branch ArticleBucket)) (goalSize : ℕ) :
    List (Branch ArticleBucket) :=
  let longest := longest branches
  let drop := dropFrom branches goalSize longest.1 longest.2
  keepShort drop.1 (goalSize - (branches.length - drop.2)) branches

/-- `AddNextStateNewBranch`. -/
def addNextStateNewBranch (t : SearchTree) (parent : Branch ArticleBucket)
    (tails : Trie ArticleBucket) (word : InputWord) : SearchTree :=
  let next := if maxBranches < t.nextBranches.length then
      clearLongestBranches t.nextBranches (maxBranches / 10)
    else t.nextBranches
  { t with nextBranches := next ++ [⟨tails, parent.words ++ [⟨word, 1⟩]⟩] }

/-- A branch goes on with the id if it can. -/
def tryAppendTo (id : ℕ) (word : InputWord) (t : SearchTree) (b : Branch ArticleBucket) :
    SearchTree :=
  match b.tails.findTails id with
  | none => t
  | some tails => t.addNextStateNewBranch b tails word

/-- `TryAppendWord`. -/
def tryAppendWord (t : SearchTree) (id : ℕ) (word : InputWord) : SearchTree :=
  t.branches.foldl (tryAppendTo id word) t

theorem tryAppendTo_none {id : ℕ} {b : Branch ArticleBucket} (h : b.tails.findTails id = none)
    (word : InputWord) (t : SearchTree) : tryAppendTo id word t b = t := by
  rw [tryAppendTo, h]

theorem tryAppendTo_some {id : ℕ} {b : Branch ArticleBucket} {tails : Trie ArticleBucket}
    (h : b.tails.findTails id = some tails) (word : InputWord) (t : SearchTree) :
    tryAppendTo id word t b = t.addNextStateNewBranch b tails word := by
  rw [tryAppendTo, h]

def appendRoot (t : SearchTree) (root : Trie ArticleBucket) : SearchTree :=
  { t with branches := t.branches ++ [⟨root, []⟩] }

def switchNextState (t : SearchTree) : SearchTree := ⟨t.nextBranches, []⟩

/-- `TryAppendAsExactForm` and `TryAppendAsLemma`. -/
def tryAppendAs (exact : Bool) (t : SearchTree) (id : ℕ) (word : InputWord) : SearchTree :=
  match WordId.checkAndForce exact id with
  | none => t
  | some id => t.tryAppendWord id word

/-- `TryAppendPlainWordId`. -/
def tryAppendPlainWordId (doLemma doExact : Bool) (t : SearchTree) (id : ℕ) (word : InputWord) :
    SearchTree :=
  let t := if doExact then t.tryAppendAs true id word else t
  if doLemma then t.tryAppendAs false id word else t

/-- `TryAppendWord` of the phrase search, for a word without sub-tokens. -/
def tryAppendId (doLemma doExact : Bool) (t : SearchTree) (id : ℕ) (word : InputWord) :
    SearchTree :=
  if id ≠ 0 then t.tryAppendPlainWordId doLemma doExact id word else t

/-- `TryAppendMetaAnyWord`. -/
def tryAppendMetaAnyWord (trie : GztTrie) (token : Token) (t : SearchTree) : SearchTree :=
  if trie.metaAnyWordId ≠ 0 then
    if token.lemmas.isEmpty then t.tryAppendWord trie.metaAnyWordId (InputWord.anyWord none)
    else token.lemmas.foldl (fun t l =>
      t.tryAppendWord trie.metaAnyWordId (InputWord.anyWord (some l))) t
  else t

/-- `TakeNextWord`. -/
def takeNextWord (trie : GztTrie) (token : Token) (t : SearchTree) : SearchTree :=
  let t := t.appendRoot trie.phraseTrie
  let exactFormId := trie.findWordId token.exactForm
  let hasSameLemma := token.lemmas.any fun l =>
    decide (exactFormId ≠ 0 ∧ trie.findWordId l.text = exactFormId)
  let t := token.lemmas.foldl (fun t l =>
    t.tryAppendId true false (trie.findWordId l.text) { lemma? := some l }) t
  let t := t.tryAppendId (!hasSameLemma) true exactFormId {}
  let t := t.tryAppendMetaAnyWord trie token
  t.switchNextState

end SearchTree

/-- The part of a search state that goes over the articles of one found phrase. -/
structure PhraseCursor where
  phrase : PhraseWords
  indexTable : List ℕ := []
  simpleArticles : List ℕ := []
  filters : List ArticleFilter := []

namespace PhraseCursor
variable {C : Type} (trie : GztTrie) (resetFoundArticle : ℕ → PhraseWords → C → Bool × C)

/-- The loop of `FindNextInSimpleArticles`: the articles that are left. -/
def simpleLoop (phrase : PhraseWords) : List ℕ → C → Bool × List ℕ × C
  | [], c => (false, [], c)
  | id :: rest, c =>
    let r := resetFoundArticle id phrase c
    if r.1 then (true, rest, r.2) else simpleLoop phrase rest r.2

/-- `FindNextInSimpleArticles`. -/
def findNextInSimpleArticles (s : PhraseCursor) (c : C) : Bool × PhraseCursor × C :=
  let phrase := s.phrase.resetGrammems
  let r := simpleLoop resetFoundArticle phrase s.simpleArticles c
  (r.1, { s with phrase := phrase, simpleArticles := r.2.1 }, r.2.2)

/-- The loop of `FindNextInFilters`: the phrase and the filters that are left. -/
def filterLoop (indexTable : List ℕ) : PhraseWords → List ArticleFilter → C →
    Bool × (PhraseWords × List ArticleFilter) × C
  | phrase, [], c => (false, (phrase, []), c)
  | phrase, f :: rest, c =>
    let m := trie.matchFilter f phrase.resetGrammems indexTable
    if m.1 then
      let r := resetFoundArticle f.articleId m.2 c
      if r.1 then (true, (m.2, rest), r.2) else filterLoop indexTable m.2 rest r.2
    else filterLoop indexTable m.2 rest c

/-- `FindNextInFilters`. -/
def findNextInFilters (s : PhraseCursor) (c : C) : Bool × PhraseCursor × C :=
  let r := filterLoop trie resetFoundArticle s.indexTable s.phrase s.filters c
  (r.1, { s with phrase := r.2.1.1, filters := r.2.1.2 }, r.2.2)

/-- First the simple articles, then the filters. -/
def findNextHere (s : PhraseCursor) (c : C) : Bool × PhraseCursor × C :=
  let r := s.findNextInSimpleArticles resetFoundArticle c
  if r.1 then r else r.2.1.findNextInFilters trie resetFoundArticle r.2.2

/-- The phrase of a branch that ends at a key. -/
def ofBranch (input : List Token) (wordCount : ℕ) (b : Branch ArticleBucket) :
    Option PhraseCursor :=
  b.getFinalData.map fun bucket =>
    ⟨⟨input, wordCount, b.copyTo.1⟩, b.copyTo.2, trie.iterSimple bucket, trie.iterFiltered bucket⟩

end PhraseCursor

/-- `TPhraseSearchState`, with the word iterator: the words not read yet and the number of words
read. -/
structure PhraseSearch where
  input : List Token
  unread : List Token
  wordCount : ℕ := 0
  tree : SearchTree := {}
  branchQueue : List (Branch ArticleBucket) := []
  cursor : PhraseCursor

namespace PhraseSearch
variable {C : Type} (trie : GztTrie) (resetFoundArticle : ℕ → PhraseWords → C → Bool × C)

/-- `Reset`: no phrase yet. -/
def start (input : List Token) : PhraseSearch where
  input := input
  unread := input
  cursor := { phrase := ⟨input, 0, []⟩ }

/-- `FindNext` over the branches that are left. -/
def findNextLoop (input : List Token) (wordCount : ℕ) : List (Branch ArticleBucket) →
    PhraseCursor → C → Bool × (List (Branch ArticleBucket) × PhraseCursor) × C
  | [], cursor, c => (false, ([], cursor), c)
  | b :: rest, cursor, c =>
    match PhraseCursor.ofBranch trie input wordCount b with
    | none => findNextLoop input wordCount rest cursor c
    | some found =>
      let r := found.findNextHere trie resetFoundArticle c
      if r.1 then (true, (rest, r.2.1), r.2.2) else findNextLoop input wordCount rest r.2.1 r.2.2

/-- `FindNext`. -/
def findNext (s : PhraseSearch) (c : C) : Bool × PhraseSearch × C :=
  let r := findNextLoop trie resetFoundArticle s.input s.wordCount s.branchQueue s.cursor c
  (r.1, { s with branchQueue := r.2.1.1, cursor := r.2.1.2 }, r.2.2)

/-- The phrase that is found, then the branches that are left. -/
def findNextAtWord (s : PhraseSearch) (c : C) : Bool × PhraseSearch × C :=
  let r := s.cursor.findNextHere trie resetFoundArticle c
  if r.1 then (true, { s with cursor := r.2.1 }, r.2.2)
  else findNext trie resetFoundArticle { s with cursor := r.2.1 } r.2.2

/-- `TakeNextWord`. -/
def takeNextWord (s : PhraseSearch) (token : Token) (unread : List Token) : PhraseSearch :=
  let tree := s.tree.takeNextWord trie token
  { s with unread := unread, wordCount := s.wordCount + 1, tree := tree,
           branchQueue := tree.branches }

/-- `FindNextInWords`. -/
def findNextInWords : List Token → PhraseSearch → C → Bool × PhraseSearch × C
  | [], s, c => (false, s, c)
  | token :: unread, s, c =>
    let r := (s.takeNextWord trie token unread).findNext trie resetFoundArticle c
    if r.1 then r else findNextInWords unread r.2.1 r.2.2

end PhraseSearch
end TomitaParser.Gzt
