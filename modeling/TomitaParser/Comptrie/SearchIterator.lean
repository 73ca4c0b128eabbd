import TomitaParser.Comptrie.Lookup
import TomitaParser.Comptrie.Node
/-! # The lookups of a compact trie

A trie is the bytes of its nodes and the position of the value of the empty key. It is searched for a
key, for the longest prefix of a key, for all its prefixes, for the keys behind a prefix, and step by
step. -/

namespace TomitaParser.Comptrie
variable {extra : ℕ} {Data : Type} (packer : Packer Data)

/-- `TCompactTrie`, as `Init` and `FindTails` make it. Without data the blob is null. -/
structure ByteTrie where
  data : List ℕ
  emptyValue : Option (List ℕ)

namespace ByteTrie

/-- `Init`. -/
def init (data : List ℕ) : ByteTrie := ⟨data, Comptrie.emptyValue data⟩

def lookupLongestPrefix (trie : ByteTrie) (key : List (Symbol extra)) : Option Match :=
  let found := trie.emptyValue.map fun valuepos => { prefixLen := 0, valuepos, hasNext := false }
  if trie.data = [] then found else lookupSymbols packer 0 key trie.data found

def find (trie : ByteTrie) (key : List (Symbol extra)) : Option Data :=
  match trie.lookupLongestPrefix packer key with
  | none => none
  | some m => if m.prefixLen ≠ key.length then none else some (packer.unpackLeaf m.valuepos)

/-- The length of the longest prefix with its value. -/
def findLongestPrefix (trie : ByteTrie) (key : List (Symbol extra)) : Option (ℕ × Data) :=
  (trie.lookupLongestPrefix packer key).map fun m => (m.prefixLen, packer.unpackLeaf m.valuepos)

end ByteTrie

/-- A position behind an epsilon link. -/
def traverseEpsilon (datapos : List ℕ) : List ℕ :=
  match datapos with
  | [] => []
  | flags :: rest =>
    if isEpsilonLink flags then datapos.drop (unpackOffset rest (rightOffsetLen flags)) else datapos

/-- `Advance` over the bytes of a symbol: the position, null behind the last node, and the value.
Nothing stands for false. -/
def advanceBytes : List ℕ → List ℕ → Option (Option (List ℕ) × Option (List ℕ))
  | [], _ => none
  | b :: bs, datapos =>
    match leapByte b datapos with
    | none => none
    | some (flags, datapos) =>
      let value := if isFinalLink flags then some datapos else none
      let datapos :=
        if isFinalLink flags then datapos.drop (packer.skipLeaf datapos) else datapos
      if !isNextLink flags then
        if bs = [] then some (none, value) else none
      else if bs = [] then some (some (traverseEpsilon datapos), value)
      else advanceBytes bs (traverseEpsilon datapos)

def advanceSymbol (label : Symbol extra) (datapos : List ℕ) :
    Option (Option (List ℕ) × Option (List ℕ)) :=
  advanceBytes packer (symbolBytes label) datapos

def findTailsLoop : List (Symbol extra) → List ℕ → Option ByteTrie
  | [], _ => none
  | label :: key, datapos =>
    match advanceSymbol packer label datapos with
    | none => none
    | some (datapos, value) =>
      if key = [] then some { data := datapos.getD [], emptyValue := value }
      else
        match datapos with
        | none => none
        | some datapos => findTailsLoop key datapos

/-- The trie of all tails for a key. -/
def ByteTrie.findTails (trie : ByteTrie) (key : List (Symbol extra)) : Option ByteTrie :=
  if trie.data = [] then none else if key = [] then some trie else findTailsLoop packer key trie.data

/-- What an iterator has come to. -/
inductive Advanced
  /-- A null pointer has been read. -/
  | nullRead
  /-- `Advance` has returned false. -/
  | refused
  /-- The position and the value there. -/
  | stands (datapos valuepos : Option (List ℕ))

/-- The loop of `TSearchIterator::Advance`, which does not ask whether the position is null. -/
def searchLoop : List (Symbol extra) → Option (List ℕ) → Option (List ℕ) → Advanced
  | [], datapos, valuepos => .stands datapos valuepos
  | _ :: _, none, _ => .nullRead
  | label :: key, some datapos, _ =>
    match advanceSymbol packer label datapos with
    | none => .refused
    | some (datapos, valuepos) => searchLoop key datapos valuepos

def ByteTrie.searchAdvance (trie : ByteTrie) (key : List (Symbol extra)) : Advanced :=
  if trie.data = [] then .refused else searchLoop packer key (some trie.data) none

/-- `GetValue`, if `Advance` has returned true: nothing for a null pointer read, else the answer. -/
def Advanced.getValue (emptyValue : Option (List ℕ)) : Advanced → Option (Option Data)
  | .nullRead => none
  | .refused => some none
  | .stands _ valuepos =>
    match valuepos, emptyValue with
    | some valuepos, _ => some (some (packer.unpackLeaf valuepos))
    | none, some _ => none
    | none, none => some none

/-- An iterator advanced over a key and asked for the value. -/
def ByteTrie.search (trie : ByteTrie) (key : List (Symbol extra)) : Option (Option Data) :=
  (trie.searchAdvance packer key).getValue packer trie.emptyValue

/-- `TPrefixIterator`: the symbols that are left and the number of those before them. -/
structure PrefixIterator (σ : Type) where
  key : List σ
  passed : ℕ
  prefixLen : ℕ
  valuepos : Option (List ℕ)
  datapos : List ℕ

/-- What the bytes of a symbol do to `Next`: it returns false, returns true, or goes on. -/
inductive Step (σ : Type)
  | stops
  | matched (it : PrefixIterator σ)
  | goes (it : PrefixIterator σ)

/-- The bytes of a symbol. The iterator has the symbols behind it. -/
def nextBytes : List ℕ → PrefixIterator (Symbol extra) → Step (Symbol extra)
  | [], it => .goes it
  | b :: bs, it =>
    match leapByte b it.datapos with
    | none => .stops
    | some (flags, datapos) =>
      if isFinalLink flags then
        let it : PrefixIterator (Symbol extra) :=
          { it with
            prefixLen := it.passed - (if bs = [] then 0 else 1)
            valuepos := some datapos
            datapos := datapos.drop (packer.skipLeaf datapos) }
        if bs = [] then .matched (if !isNextLink flags then { it with key := [] } else it)
        else if !isNextLink flags then .stops
        else nextBytes bs it
      else if !isNextLink flags then .stops
      else nextBytes bs { it with datapos }

def nextSymbols : List (Symbol extra) → PrefixIterator (Symbol extra) → Option (PrefixIterator (Symbol extra))
  | [], _ => none
  | label :: key, it =>
    match nextBytes packer (symbolBytes label) { it with key, passed := it.passed + 1 } with
    | .stops => none
    | .matched it => some it
    | .goes it => nextSymbols key it

/-- `Next`: nothing for false. -/
def PrefixIterator.next (trie : ByteTrie) (it : PrefixIterator (Symbol extra)) :
    Option (PrefixIterator (Symbol extra)) :=
  if it.datapos = [] then none
  else if it.valuepos = none ∧ trie.emptyValue ≠ none then
    some { it with valuepos := trie.emptyValue }
  else nextSymbols packer it.key it

/-- The prefixes that an iterator comes to within so many steps, with their values. -/
def PrefixIterator.collect (trie : ByteTrie) : ℕ → PrefixIterator (Symbol extra) → List (ℕ × Data)
  | 0, _ => []
  | steps + 1, it =>
    match it.next packer trie with
    | none => []
    | some it =>
      (it.valuepos.map fun p => (it.prefixLen, packer.unpackLeaf p)).toList ++
        collect trie steps it

def ByteTrie.prefixIterator (trie : ByteTrie) (key : List (Symbol extra)) : PrefixIterator (Symbol extra) :=
  { key, passed := 0, prefixLen := 0, valuepos := none, datapos := trie.data }

end TomitaParser.Comptrie
