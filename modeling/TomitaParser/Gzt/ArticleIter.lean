import TomitaParser.Gzt.ArticlePool
import TomitaParser.Gzt.PhraseSearch
/-! # Article iterator

Found articles are elements of compound articles. An element is appended to the branches of the
compound trie that end where it begins, and the compound articles that end with it are found before
the search for phrases goes on. -/

namespace TomitaParser.Gzt

/-- `IsFakeArticle`. -/
def isFakeArticle (id : ℕ) : Bool := decide (ArticlePoolBuilder.maxValidOffset < id)

/-- What an iterator shows: an article with its words. -/
structure FoundArticle where
  articleId : ℕ
  words : PhraseWords
  /-- It was found by the compound search. -/
  isCompound : Bool

/-- `TFullSearchTree` with `FoundArticles` and the article that is shown. -/
structure CompoundTree where
  branches : List (Branch ArticleBucket) := []
  /-- The branches that end at a position. -/
  positionIndex : ℕ → List ℕ := fun _ => []
  foundArticles : List (ℕ × ℕ) := []
  article : Option FoundArticle := none

namespace CompoundTree

/-- `TryAppendTo`. -/
def tryAppendTo (source : Branch ArticleBucket) (id : ℕ) (words : List InputWord)
    (nextWordIndex : ℕ) (t : CompoundTree) : CompoundTree :=
  match source.tails.findTails id with
  | none => t
  | some tails =>
    { t with branches := t.branches ++ [⟨tails, source.words ++ words.map (⟨·, 1⟩)⟩],
             positionIndex := fun p =>
               if p = nextWordIndex then t.positionIndex p ++ [t.branches.length]
               else t.positionIndex p }

/-- The branch of an index goes on. -/
def tryAppendAt (id : ℕ) (words : List InputWord) (nextWordIndex : ℕ) (t : CompoundTree) (i : ℕ) :
    CompoundTree :=
  match t.branches[i]? with
  | none => t
  | some b => t.tryAppendTo b id words nextWordIndex

/-- `TryAppendSequence`. A sequence has words, so the list of the start does not grow on the way. -/
def tryAppendSequence (trie : GztTrie) (id : ℕ) (words : List InputWord) (startIndex : ℕ)
    (t : CompoundTree) : CompoundTree :=
  let nextWordIndex := startIndex + words.length
  let t := t.tryAppendTo ⟨trie.compoundTrie, []⟩ id words nextWordIndex
  (t.positionIndex startIndex).foldl (tryAppendAt id words nextWordIndex) t

/-- `TryAppendArticle`: the homoforms that are left are saved. -/
def tryAppendArticle (trie : GztTrie) (id : ℕ) (phrase : PhraseWords) (t : CompoundTree) :
    CompoundTree :=
  t.tryAppendSequence trie id (phrase.words.map (·.saveGrammems)) phrase.pos

/-- `ResetFoundArticle`: an article is found once with each length. -/
def resetFoundArticle (trie : GztTrie) (id : ℕ) (phrase : PhraseWords) (t : CompoundTree) :
    Bool × CompoundTree :=
  if t.foundArticles.contains (id, phrase.words.length) then (false, t)
  else
    let t := { t with foundArticles := t.foundArticles ++ [(id, phrase.words.length)] }
    let t := if trie.isCompoundElement id then t.tryAppendArticle trie id phrase else t
    if isFakeArticle id then (false, t) else (true, { t with article := some ⟨id, phrase, true⟩ })

/-- `TakeNextArticle`. -/
def takeNextArticle (trie : GztTrie) (id : ℕ) (phrase : PhraseWords) (t : CompoundTree) :
    CompoundTree :=
  { t with foundArticles := [] }.tryAppendArticle trie id phrase

end CompoundTree

/-- `TCompoundSearchState`. The queue of branches is an index, and branches are added behind it. -/
structure CompoundSearch where
  tree : CompoundTree := {}
  next : ℕ := 0
  cursor : PhraseCursor
  /-- A loop has not ended in the number of steps it was given. -/
  outOfFuel : Bool := false

namespace CompoundSearch
variable (trie : GztTrie)

/-- `FindNext`. -/
def findNext (input : List Token) (wordCount : ℕ) : ℕ → CompoundSearch → Bool × CompoundSearch
  | 0, c => (false, { c with outOfFuel := true })
  | fuel + 1, c =>
    match c.tree.branches[c.next]? with
    | none => (false, c)
    | some b =>
      match PhraseCursor.ofBranch trie input wordCount b with
      | none => findNext input wordCount fuel { c with next := c.next + 1 }
      | some found =>
        let r := found.findNextHere trie (CompoundTree.resetFoundArticle trie) c.tree
        let c := { c with tree := r.2.2, next := c.next + 1, cursor := r.2.1 }
        if r.1 then (true, c) else findNext input wordCount fuel c

/-- The phrase that is found, then the branches that are left. -/
def findNextAtWord (input : List Token) (wordCount fuel : ℕ) (c : CompoundSearch) :
    Bool × CompoundSearch :=
  let r := c.cursor.findNextHere trie (CompoundTree.resetFoundArticle trie) c.tree
  let c := { c with tree := r.2.2, cursor := r.2.1 }
  if r.1 then (true, c) else findNext trie input wordCount fuel c

end CompoundSearch

/-- `TPhraseSearchState::ResetFoundArticle`. A fake article is only an element. -/
def resetFoundArticle (trie : GztTrie) (fuel : ℕ) (id : ℕ) (phrase : PhraseWords)
    (c : CompoundSearch) : Bool × CompoundSearch :=
  let c := if trie.isCompoundElement id then
      { c with tree := c.tree.takeNextArticle trie id phrase }
    else c
  if isFakeArticle id then
    if trie.isCompoundElement id then c.findNext trie phrase.input phrase.wordCount fuel
    else (false, c)
  else
    let tree := { c.tree with article := some ⟨id, phrase, false⟩ }
    (true, { c with tree := tree })

/-- `TArticleIter`. -/
structure ArticleIter where
  phrases : PhraseSearch
  compounds : CompoundSearch
  ok : Bool := true

namespace ArticleIter
variable (trie : GztTrie) (fuel : ℕ)

/-- `FindNextInWords`, from the first word that is not read. -/
def findNextInWords (s : ArticleIter) : ArticleIter :=
  let r := PhraseSearch.findNextInWords trie (resetFoundArticle trie fuel) s.phrases.unread
    s.phrases s.compounds
  ⟨r.2.1, r.2.2, r.1⟩

/-- `FindNext`: compound articles come before further phrases. -/
def findNext (s : ArticleIter) : ArticleIter :=
  let r := s.compounds.findNextAtWord trie s.phrases.input s.phrases.wordCount fuel
  if r.1 then { s with compounds := r.2 }
  else
    let q := s.phrases.findNextAtWord trie (resetFoundArticle trie fuel) r.2
    if q.1 then { s with phrases := q.2.1, compounds := q.2.2 }
    else findNextInWords trie fuel { s with phrases := q.2.1, compounds := q.2.2 }

/-- `Reset`. -/
def start (input : List Token) : ArticleIter :=
  findNextInWords trie fuel
    ⟨PhraseSearch.start input, { cursor := { phrase := ⟨input, 0, []⟩ } }, true⟩

/-- The articles that the next `n` positions of the iterator show, and the iterator after them. -/
def articles : ℕ → ArticleIter → List FoundArticle × ArticleIter
  | 0, s => ([], s)
  | n + 1, s =>
    if s.ok then
      let r := articles n (s.findNext trie fuel)
      (s.compounds.tree.article.toList ++ r.1, r.2)
    else ([], s)

/-- The iterator comes to its end, and these are the articles that it shows. -/
def Yields (input : List Token) (found : List FoundArticle) : Prop :=
  ∃ fuel n, let r := articles trie fuel n (start trie fuel input)
    r.1 = found ∧ r.2.ok = false ∧ r.2.compounds.outOfFuel = false

end ArticleIter
end TomitaParser.Gzt
