import Mathlib.Algebra.GroupWithZero.Nat
import TomitaParser.Gzt.FilterMatch
/-! # Branches of a search

The words found so far on the way through a trie of keys. A word of the input may stand for several
words of the key, and a table then leads from the words of the key to the words of the input. -/

namespace TomitaParser.Gzt

/-- A trie: its keys with their data. -/
abbrev Trie (Data : Type) := List (List ℕ × Data)

namespace Trie
variable {Data : Type}

/-- The keys that go on after a symbol. -/
def tails (trie : Trie Data) (id : ℕ) : Trie Data :=
  trie.filterMap fun entry => match entry.1 with
    | [] => none
    | first :: rest => if first = id then some (rest, entry.2) else none

/-- `FindTails`. -/
def findTails (trie : Trie Data) (id : ℕ) : Option (Trie Data) :=
  if trie.tails id = [] then none else some (trie.tails id)

/-- `Find` of the empty key. -/
def findEmpty (trie : Trie Data) : Option Data :=
  (trie.find? fun entry => entry.1 = []).map Prod.snd

end Trie

/-- `TLinkedWord`. -/
structure LinkedWord where
  word : InputWord
  /-- The number of words of the key that it stands for. -/
  multitokenSize : ℕ := 1
deriving DecidableEq

/-- `TBranch`. The words stand in the order of the phrase. -/
structure Branch (Data : Type) where
  tails : Trie Data
  words : List LinkedWord := []

namespace Branch
variable {Data : Type}

def length (b : Branch Data) : ℕ := b.words.length

def getFinalData (b : Branch Data) : Option Data := b.tails.findEmpty

/-- `BuildIndexTable`, from the word of the input at `index` on. -/
def buildIndexTable (index : ℕ) : List LinkedWord → List ℕ
  | [] => []
  | w :: rest => List.replicate w.multitokenSize index ++ buildIndexTable (index + 1) rest

def fullSize (words : List LinkedWord) : ℕ := (words.map (·.multitokenSize)).sum

/-- `CopyTo`: the words with their table, which is empty if every word stands for one. -/
def copyTo (b : Branch Data) : List InputWord × List ℕ :=
  (b.words.map (·.word),
    if fullSize b.words = b.length then [] else buildIndexTable 0 b.words)

end Branch

/-- `TNoTransform` for an empty table, else `TTableTransform`. -/
def correctIndex (indexTable : List ℕ) (index : ℕ) : ℕ :=
  if indexTable = [] then index else indexTable.getD index 0

theorem Branch.copyTo_single {Data : Type} {b : Branch Data}
    (h : ∀ w ∈ b.words, w.multitokenSize = 1) : b.copyTo = (b.words.map (·.word), []) := by
  have hsum : fullSize b.words = b.length := by
    rw [fullSize, Branch.length, List.map_congr_left h]
    simp
  rw [copyTo, if_pos hsum]

end TomitaParser.Gzt
