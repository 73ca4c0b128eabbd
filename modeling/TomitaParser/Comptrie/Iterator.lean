import TomitaParser.Comptrie.Node
import TomitaParser.Comptrie.Lookup
/-! # The iterator over a compact trie

An iterator stands at a leaf. It has the nodes on the way there, each with the direction in which
the way goes on. -/

namespace TomitaParser.Comptrie
open TernaryTree
variable {extra : ℕ} {Data : Type} (packer : Packer Data)

/-- `TFork`: the directions before `CurrentDirection`, the nearest first, and those from there on,
of which there are none at the end of the string. -/
structure Fork where
  node : Node
  passed : List Direction
  rest : List Direction
  deriving DecidableEq

/-- The string `Direction` of a node. -/
def Node.directions (node : Node) : List Direction :=
  (if node.leftOffset ≠ 0 then [.left] else []) ++
    ((if node.leafPos.isSome then [.final] else []) ++
      ((if node.forwardOffset ≠ 0 then [.next] else []) ++
        (if node.rightOffset ≠ 0 then [.right] else [])))

/-- The constructor of `TFork`: nothing for the exception. -/
def newFork (data : List ℕ) (offset : ℕ) : Option Fork :=
  match readNode packer data offset with
  | none => none
  | some node =>
    if data.length ≤ node.offset + 1 then none
    else some { node, passed := [], rest := node.directions }

namespace Fork

/-- `*CurrentDirection`. -/
def current (fork : Fork) : Option Direction := fork.rest.head?

def nextDirection (fork : Fork) : Bool × Fork :=
  match fork.rest with
  | [] => (false, fork)
  | d :: rest => (!rest.isEmpty, { fork with passed := d :: fork.passed, rest })

def prevDirection (fork : Fork) : Bool × Fork :=
  match fork.passed with
  | [] => (false, fork)
  | d :: passed => (true, { fork with passed, rest := d :: fork.rest })

/-- `LastDirection`: forward until there is nothing more, and one step back. -/
def lastDirection (fork : Fork) : Fork :=
  ({ fork with passed := fork.rest.reverse ++ fork.passed, rest := [] } : Fork).prevDirection.2

def setDirection (fork : Fork) (direction : Direction) : Option Fork :=
  let directions := fork.passed.reverse ++ fork.rest
  if direction ∈ directions then
    some
      { fork with
        passed := (directions.takeWhile (· ≠ direction)).reverse
        rest := directions.dropWhile (· ≠ direction) }
  else none

/-- `NextFork`: nothing for the exception. -/
def nextFork (data : List ℕ) (fork : Fork) : Option Fork :=
  match fork.current with
  | some .left => newFork packer data fork.node.leftOffset
  | some .next => newFork packer data fork.node.forwardOffset
  | some .right => newFork packer data fork.node.rightOffset
  | _ => none

end Fork

/-- The loop that goes on to a leaf. `start` chooses the direction of a new fork. Each fork lies
further on in the data, so that its length is enough for the count of the steps. -/
def descend (data : List ℕ) (start : Fork → Fork) : ℕ → List Fork → Option (List Fork)
  | _, [] => none
  | steps, top :: forks =>
    if top.current = some .final then some (top :: forks)
    else
      match steps with
      | 0 => none
      | steps + 1 =>
        match top.nextFork packer data with
        | none => none
        | some next => descend data start steps (start next :: top :: forks)

/-- The loop of `Forward` over the forks, and what it returns. -/
def advance (data : List ℕ) : List Fork → Option (Bool × List Fork)
  | [] => some (false, [])
  | top :: forks =>
    match top.nextDirection with
    | (true, top) => (descend packer data id data.length (top :: forks)).map (true, ·)
    | (false, top) =>
      if data.length ≤ top.node.offset then some (false, top :: forks) else advance data forks

/-- `Forward` for an iterator that is not at the empty value. -/
def forwardForks (data : List ℕ) (forks : List Fork) : Option (Bool × List Fork) :=
  if data.length = 0 then some (false, forks)
  else
    match forks with
    | [] =>
      match newFork packer data 0 with
      | none => none
      | some fork => (descend packer data id data.length [fork]).map (true, ·)
    | top :: forks => advance packer data (top :: forks)

/-- The loop of `Backward` over the forks. -/
def retreat (data : List ℕ) : List Fork → Option (Bool × List Fork)
  | [] => some (false, [])
  | top :: forks =>
    match top.prevDirection with
    | (true, top) =>
      (descend packer data Fork.lastDirection data.length (top :: forks)).map (true, ·)
    | (false, top) =>
      if data.length ≤ top.node.offset then some (false, top :: forks) else retreat data forks

/-- `Backward` over the forks of a trie that has data. -/
def backwardForks (data : List ℕ) (forks : List Fork) : Option (Bool × List Fork) :=
  match forks with
  | [] =>
    match newFork packer data 0 with
    | none => none
    | some fork =>
      (descend packer data Fork.lastDirection data.length [fork.lastDirection]).map (true, ·)
  | top :: forks => retreat packer data (top :: forks)

/-- Whether the label of a fork belongs to the key. -/
def Fork.inKey (fork : Fork) : Bool :=
  fork.current = some .next || fork.current = some .final

/-- The bytes that `GetKeyImpl` collects. -/
def rawKey : List Fork → List ℕ
  | [] => []
  | top :: forks => rawKey forks ++ (if top.inKey then [top.node.label] else [])

def getKeyImpl (forks : List Fork) : List ℕ := if rawKey forks = [0] then [] else rawKey forks

/-- The loop of `MeasureKeyImpl`: `result` and `firstchar`. -/
def measureForks : List Fork → ℕ × ℕ
  | [] => (0, 0)
  | top :: forks =>
    let r := measureForks forks
    let result := if top.inKey then r.1 + 1 else r.1
    (result, if result = 1 then top.node.label else r.2)

def measureKeyImpl (forks : List Fork) : ℕ :=
  let r := measureForks forks
  if r.1 = 1 ∧ r.2 = 0 then 0 else r.1

/-- `WidenKey`: a symbol for each `sizeof(TSymbol)` bytes. -/
def widenKey (rawkey : List ℕ) : List (Symbol extra) :=
  match rawkey with
  | [] => []
  | b :: bs =>
    let bytes := (b :: bs).take (extra + 1)
    let sym := BigEndian.read 0 (bytes ++ List.replicate (extra + 1 - bytes.length) 0)
    ⟨sym % 256 ^ (extra + 1), Nat.mod_lt _ (Nat.pow_pos (by decide))⟩ ::
      widenKey ((b :: bs).drop (extra + 1))
  termination_by rawkey.length
  decreasing_by
    simp only [List.length_drop, List.length_cons]
    omega

/-- `TCompactTrie`: the data, whether there is a pointer to it, and `EmptyValue`. -/
structure CompactTrie where
  data : List ℕ
  hasData : Bool
  emptyValue : Option (List ℕ)

/-- `TImpl`. -/
structure ConstIterator where
  forks : List Fork
  atEmptyValue : Bool
  deriving DecidableEq

namespace ConstIterator
variable (trie : CompactTrie)

/-- `Forward`, without what it returns. The key of a zero byte is skipped after the empty value. -/
def forward (it : ConstIterator) : Option ConstIterator :=
  if it.atEmptyValue then
    match forwardForks packer trie.data it.forks with
    | none => none
    | some (res, forks) =>
      if res ∧ getKeyImpl forks ≠ [] then some { forks, atEmptyValue := false }
      else
        (forwardForks packer trie.data forks).map fun r => { forks := r.2, atEmptyValue := false }
  else (forwardForks packer trie.data it.forks).map fun r => { forks := r.2, atEmptyValue := false }

/-- `Backward`, without what it returns. -/
def backward (it : ConstIterator) : Option ConstIterator :=
  if it.atEmptyValue then some it
  else
    if trie.data.length = 0 then
      some { it with atEmptyValue := trie.emptyValue.isSome }
    else
      match backwardForks packer trie.data it.forks with
      | none => none
      | some (true, forks) =>
        if getKeyImpl forks = [] then some { forks := [], atEmptyValue := true }
        else some { forks, atEmptyValue := false }
      | some (false, []) => some { forks := [], atEmptyValue := trie.emptyValue.isSome }
      | some (false, forks) => some { forks, atEmptyValue := false }

/-- `Begin`. -/
def begin : Option ConstIterator :=
  if trie.emptyValue.isSome then some { forks := [], atEmptyValue := true }
  else forward packer trie { forks := [], atEmptyValue := false }

/-- `End`. -/
def endOf : ConstIterator := { forks := [], atEmptyValue := false }

/-- `GetKey`. -/
def getKey (it : ConstIterator) : List (Symbol extra) := widenKey (getKeyImpl it.forks)

/-- `GetKeySize`. -/
def getKeySize (extra : ℕ) (it : ConstIterator) : ℕ := measureKeyImpl it.forks / (extra + 1)

/-- `GetValuePtr`: nothing for the failed assertion, and for the null pointer. -/
def getValuePtr (it : ConstIterator) : Option (List ℕ) :=
  match it.forks with
  | [] => trie.emptyValue
  | top :: _ => if top.current = some .final then top.node.leafPos else none

/-- `Get`. -/
def get (it : ConstIterator) : Option (List (Symbol extra) × Data) :=
  if it.atEmptyValue then trie.emptyValue.map fun p => ([], packer.unpackLeaf p)
  else (getValuePtr trie it).map fun p => (getKey it, packer.unpackLeaf p)

end ConstIterator

/-- `LongestPrefix` for the bytes of a key and the fork to go on with. -/
def longestPrefix (data : List ℕ) : ℕ → List ℕ → Fork → List Fork → Option (ℤ × List Fork)
  | _, [], top, forks => some (1, top :: forks)
  | 0, _ :: _, _, _ => none
  | steps + 1, label :: key, top, forks =>
    if label < top.node.label then
      match top.setDirection .left with
      | none => some (1, top :: forks)
      | some top =>
        match top.nextFork packer data with
        | none => none
        | some next => longestPrefix data steps (label :: key) next (top :: forks)
    else
      if top.node.label < label then
        match top.setDirection .right with
        | none => some (-1, forks)
        | some top =>
          match top.nextFork packer data with
          | none => none
          | some next => longestPrefix data steps (label :: key) next (top :: forks)
      else
        if key = [] then
          match top.setDirection .final with
          | some top => some (0, top :: forks)
          | none => some (1, (top.setDirection .next).getD top :: forks)
        else
          match top.setDirection .next with
          | none => some (-1, (top.setDirection .final).getD top :: forks)
          | some top =>
            match top.nextFork packer data with
            | none => none
            | some next => longestPrefix data steps key next (top :: forks)

/-- `UpperBound` of the iterator: the forks it has built. -/
def upperBoundForks (data : List ℕ) (key : List ℕ) : Option (List Fork) :=
  match newFork packer data 0 with
  | none => none
  | some next =>
    match longestPrefix packer data (data.length + 1) key next [] with
    | none => none
    | some (defect, forks) =>
      if 0 < defect then descend packer data id data.length forks
      else
        if defect < 0 then (forwardForks packer data forks).map Prod.snd
        else some forks

/-- `UpperBound`. -/
def upperBound (trie : CompactTrie) (key : List (Symbol extra)) : Option ConstIterator :=
  if trie.emptyValue.isSome ∧ key = [] then some { forks := [], atEmptyValue := true }
  else
    if trie.hasData then
      (upperBoundForks packer trie.data (convertSymbolArrayToChar key)).map fun forks =>
        { forks, atEmptyValue := false }
    else some { forks := [], atEmptyValue := false }

end TomitaParser.Comptrie
