import TomitaParser.Glr.Table
/-! # The GLR parser

The parser object, its graph-structured stack and the procedures Actor, Reducer and Shifter. Loops
over the stack run on fuel. -/

namespace TomitaParser
open OrderedSet LoopRun

def maxSymbolNodesCount : ℕ := 10000

/-- `CInputItemFactory` with its methods. `σ` is everything the factory can read and write, the
items it has handed out included. -/
structure InputItemFactory (σ Agr Item : Type*) where
  createNewItem : σ → (symbolNo : ℕ) → List Agr → (firstItemNo lastItemNo synMainItemNo : ℕ) →
    (children : List Item) → Option Item × σ
  createLeafItem : σ → (symbolNo firstItemNo : ℕ) → Option Item × σ
  equalNodes : σ → Item → Item → Bool
  weight : σ → Item → ℕ
  factsCount : σ → Item → ℕ

/-- `CParsingChildrenSet`. -/
structure ParsingChildrenSet where
  reduceRule : ℕ
  items : List ℕ
deriving DecidableEq, Repr, Inhabited

/-- `CSymbolNode`. -/
structure SymbolNode (Item : Type*) where
  symbolNo : ℕ
  item : Item
  inputStart : ℕ
  inputEnd : ℕ
  disabled : Bool := false
  otherItemVariants : List Item := []
  nodeChildren : List ℕ := []
  parseChildren : List ParsingChildrenSet := []
  terminals : List ℕ := []
deriving DecidableEq, Repr, Inhabited

def SymbolNode.isLeaf {Item : Type*} (s : SymbolNode Item) : Bool := s.parseChildren.isEmpty

/-- `CStateNode`. -/
structure StateNode where
  stateNo : ℕ := 0
  symbolChildren : List ℕ := []
deriving DecidableEq, Repr, Inhabited

/-- `CPendingReduction`; the rule is its position in the table. -/
structure PendingReduction where
  symbolNodeNo : ℕ
  lastStateNodeNo : ℕ
  reduceRule : ℕ
deriving DecidableEq, Repr

def PendingReduction.lt (a b : PendingReduction) : Bool :=
  if a.symbolNodeNo ≠ b.symbolNodeNo then decide (a.symbolNodeNo < b.symbolNodeNo)
  else if a.lastStateNodeNo ≠ b.lastStateNodeNo then
    decide (a.lastStateNodeNo < b.lastStateNodeNo)
  else decide (a.reduceRule < b.reduceRule)

/-- `CPendingShift`. -/
structure PendingShift where
  stateNodeNo : ℕ
  nextStateNo : ℕ
  symbolNo : ℕ
deriving DecidableEq, Repr

def PendingShift.lt (a b : PendingShift) : Bool :=
  if a.stateNodeNo ≠ b.stateNodeNo then decide (a.stateNodeNo < b.stateNodeNo)
  else if a.symbolNo ≠ b.symbolNo then decide (a.symbolNo < b.symbolNo)
  else decide (a.nextStateNo < b.nextStateNo)

/-- The settings of a parser object; a terminal or non-terminal that is not set is `-1`. -/
structure ParserOptions where
  robust : Bool := false
  breakAfterMaxSymbolNodesCount : Bool := true
  synAnOptions : Bool := false
  wordTerminal : ℤ := -1
  groupNonTerminal : ℤ := -1
deriving DecidableEq, Repr

/-- The graph-structured stack with the upper borders of its input-related closures. -/
structure Gss (Item : Type*) where
  stateNodes : List StateNode
  symbolNodes : List (SymbolNode Item)
  inputLevels : List ℕ
deriving DecidableEq, Repr

/-- `CGLRParser`: the parts that change while it runs. -/
structure GlrParser (σ Item : Type*) extends Gss Item where
  activeNodes : List ℕ
  pendingReductions : List PendingReduction
  pendingShifts : List PendingShift
  disableWordsStateNodes : Bool
  builtGroups : List (ℕ × ℕ)
  maxLastGroup : ℤ × ℤ
  createdGroups : ℕ
  heap : σ
deriving DecidableEq, Repr

/-- What a parser object is set up with. -/
structure ParserConfig (σ Agr Item : Type*) where
  table : GlrTable Agr
  factory : InputItemFactory σ Agr Item
  options : ParserOptions

namespace Gss
variable {Item : Type*} [Inhabited Item] (g : Gss Item)

def stateNode (v : ℕ) : StateNode := g.stateNodes.getD v {}

def symbolNode (s : ℕ) : SymbolNode Item := g.symbolNodes.getD s default

def lastLevel : ℕ := g.inputLevels.getLastD 0

/-- Replace the border of the last closure. -/
def setLastLevel (n : ℕ) : Gss Item := { g with inputLevels := g.inputLevels.dropLast ++ [n] }

def pushLevel (n : ℕ) : Gss Item := { g with inputLevels := g.inputLevels ++ [n] }

def getFirstNodeNoOfCurrentClosure : ℕ :=
  if g.inputLevels.length == 1 then 0 else g.lastLevel

def addStateNode (stateNo : ℕ) : Gss Item :=
  { g with stateNodes := g.stateNodes ++ [{ stateNo }] }

/-- Append a symbol node and make it a child of the state node `v`. -/
def addSymbolNode (v : ℕ) (sn : SymbolNode Item) : Gss Item :=
  { g with
    symbolNodes := g.symbolNodes ++ [sn]
    stateNodes := g.stateNodes.modify v fun n =>
      { n with symbolChildren := n.symbolChildren ++ [g.symbolNodes.length] } }

def modifySymbolNode (s : ℕ) (f : SymbolNode Item → SymbolNode Item) : Gss Item :=
  { g with symbolNodes := g.symbolNodes.modify s f }

end Gss

/-- `CSymbolNode::AddInputItem` on a node that has an item: the heavier one is kept in front. -/
def SymbolNode.addInputItem {Item : Type*} (weight : Item → ℕ) (item : Item)
    (sn : SymbolNode Item) : SymbolNode Item :=
  if weight sn.item < weight item then
    { sn with otherItemVariants := sn.otherItemVariants ++ [sn.item], item := item }
  else { sn with otherItemVariants := sn.otherItemVariants ++ [item] }

variable {σ Agr Item : Type*} [Inhabited Item]

/-- Run an update of the stack inside the parser. -/
def GlrParser.updateGss (p : GlrParser σ Item) (g : Gss Item) : GlrParser σ Item :=
  { p with toGss := g }

def limitReached (p : GlrParser σ Item) : Bool :=
  decide (maxSymbolNodesCount ≤ p.symbolNodes.length) ||
    decide (maxSymbolNodesCount * 5 ≤ p.createdGroups)

/-- The reductions of a cell, for the given symbol nodes above the state node `v`. -/
def reductionsFor (rules symbols : List ℕ) (v : ℕ) : List PendingReduction :=
  rules.flatMap fun r => symbols.map fun s => ⟨s, v, r⟩

def actorSymbol (cfg : ParserConfig σ Agr Item) (v : ℕ) (p : GlrParser σ Item) (symbolNo : ℕ) :
    GlrParser σ Item :=
  let node := p.stateNode v
  let cell := cfg.table.cell node.stateNo symbolNo
  { p with
    pendingShifts :=
      match cell.gotoLine with
      | none => p.pendingShifts
      | some gotoLine => insertBy PendingShift.lt ⟨v, gotoLine, symbolNo⟩ p.pendingShifts
    pendingReductions := insertAll PendingReduction.lt
      (reductionsFor cell.reduceRules node.symbolChildren v) p.pendingReductions }

def actor (cfg : ParserConfig σ Agr Item) (symbols : List ℕ) (p : GlrParser σ Item) :
    GlrParser σ Item :=
  match p.activeNodes with
  | [] => p
  | v :: rest => symbols.foldl (actorSymbol cfg v) { p with activeNodes := rest }

/-- The node to reuse in the current closure, if there is one. -/
def findReusable (cfg : ParserConfig σ Agr Item) (g : Gss Item) (stateNo : ℕ) : Option ℕ :=
  if cfg.options.robust && (g.stateNode 0).stateNo == stateNo then some 0
  else if cfg.options.synAnOptions then none
  else ((List.range g.stateNodes.length).drop g.getFirstNodeNoOfCurrentClosure).find?
    fun v => (g.stateNode v).stateNo == stateNo

/-- `CreateOrReuseNode`: whether a node was created, its number, and the stack with it. -/
def createOrReuseNode (cfg : ParserConfig σ Agr Item) (g : Gss Item) (stateNo : ℕ) :
    Bool × ℕ × Gss Item :=
  match findReusable cfg g stateNo with
  | some v => (false, v, g)
  | none => (true, g.stateNodes.length, g.addStateNode stateNo)

/-- `HasPathOfLengthTwo`: the symbol node on such a path. -/
def hasPathOfLengthTwo (cfg : ParserConfig σ Agr Item) (p : GlrParser σ Item) (newItem : Item)
    (source target inputStart : ℕ) : Option ℕ :=
  if decide (maxSymbolNodesCount ≤ p.symbolNodes.length) &&
      cfg.options.breakAfterMaxSymbolNodesCount then none
  else (p.stateNode source).symbolChildren.find? fun s =>
    let sn := p.symbolNode s
    sn.nodeChildren.contains target && (cfg.factory.equalNodes p.heap newItem sn.item &&
      (cfg.factory.weight p.heap newItem == cfg.factory.weight p.heap sn.item &&
        inputStart == sn.inputStart))

/-- The symbol nodes of a path that is listed from its end, the leftmost child first. -/
def pathSymbols : List ℕ → List ℕ
  | _ :: s :: rest => s :: pathSymbols rest
  | _ => []

/-- `AddTerminals`. -/
def terminalsOf (g : Gss Item) (symbols : List ℕ) : List ℕ :=
  symbols.flatMap fun s =>
    let sn := g.symbolNode s
    if sn.isLeaf then [sn.symbolNo] else sn.terminals

/-- The order of pairs of numbers. -/
def pairLt (a b : ℕ × ℕ) : Bool :=
  if a.1 ≠ b.1 then decide (a.1 < b.1) else decide (a.2 < b.2)

/-- A reduction found on the stack: the rule, the symbol nodes it covers and the state node below
them. -/
structure FoundReduction where
  reduceRule : ℕ
  symbols : List ℕ
  childNode : ℕ
deriving DecidableEq, Repr

namespace FoundReduction
variable (f : FoundReduction)

def inputStart (g : Gss Item) : ℕ := (g.symbolNode (f.symbols.headD 0)).inputStart

def inputEnd (g : Gss Item) : ℕ := (g.symbolNode (f.symbols.getLastD 0)).inputEnd

end FoundReduction

/-- The new item is entered into the stack: packed into a symbol node on a path of length two, or
in a symbol node of its own, which renews the reductions of a state node no longer active. -/
def enterItem (cfg : ParserConfig σ Agr Item) (symbols : List ℕ) (f : FoundReduction)
    (item : Item) (leftPart gotoLine newNode : ℕ) (p : GlrParser σ Item) : GlrParser σ Item :=
  let inputStart := f.inputStart p.toGss
  let children : ParsingChildrenSet := ⟨f.reduceRule, f.symbols⟩
  match hasPathOfLengthTwo cfg p item newNode f.childNode inputStart with
  | some s => p.updateGss (p.modifySymbolNode s fun sn =>
      let sn := sn.addInputItem (cfg.factory.weight p.heap) item
      { sn with parseChildren := sn.parseChildren ++ [children] })
  | none =>
    let s := p.symbolNodes.length
    let p' := p.updateGss (p.addSymbolNode newNode
      { symbolNo := leftPart, item, inputStart, inputEnd := f.inputEnd p.toGss
        nodeChildren := [f.childNode], parseChildren := [children]
        terminals := terminalsOf p.toGss f.symbols })
    if p.activeNodes.contains newNode then p'
    else
      { p' with
        pendingReductions := insertAll PendingReduction.lt
          (symbols.flatMap fun a =>
            reductionsFor (cfg.table.cell gotoLine a).reduceRules [s] newNode)
          p.pendingReductions }

/-- Note a group that was built, for the disabling of words. -/
def noteGroup (cfg : ParserConfig σ Agr Item) (leftPart : ℕ) (span : ℕ × ℕ)
    (p : GlrParser σ Item) : GlrParser σ Item :=
  if (leftPart : ℤ) = cfg.options.groupNonTerminal then
    { p with disableWordsStateNodes := true, builtGroups := insertBy pairLt span p.builtGroups }
  else p

/-- `ReduceOnePath` on a path listed from its end. -/
def reduceOnePath (cfg : ParserConfig σ Agr Item) (symbols : List ℕ) (reduceRule : ℕ)
    (path : List ℕ) (p : GlrParser σ Item) : GlrParser σ Item :=
  let rule := cfg.table.ruleInfo reduceRule
  let f : FoundReduction := ⟨reduceRule, pathSymbols path, path.headD 0⟩
  let gotoLine := ((cfg.table.cell (p.stateNode f.childNode).stateNo rule.leftPart).gotoLine).getD 0
  let inputStart := f.inputStart p.toGss
  let inputEnd := f.inputEnd p.toGss
  match cfg.factory.createNewItem p.heap rule.leftPart rule.ruleAgreement inputStart inputEnd
      rule.synMainItemNo (f.symbols.map fun s => (p.symbolNode s).item) with
  | (none, heap) => { p with heap }
  | (some item, heap) =>
    let p := { p with heap, createdGroups := p.createdGroups + cfg.factory.factsCount heap item }
    let p := noteGroup cfg rule.leftPart (inputStart, inputEnd) p
    let (created, newNode, g) := createOrReuseNode cfg p.toGss gotoLine
    let p := p.updateGss g
    let p := if created then { p with activeNodes := insertBy natLt newNode p.activeNodes } else p
    enterItem cfg symbols f item rule.leftPart gotoLine newNode p

inductive RunStatus where
  | finished
  | interrupted
  | outOfFuel
deriving DecidableEq, Repr

theorem RunStatus.finished_ne : RunStatus.finished ≠ .outOfFuel := by decide

theorem RunStatus.interrupted_ne : RunStatus.interrupted ≠ .outOfFuel := by decide

theorem RunStatus.interrupted_ne_finished : RunStatus.interrupted ≠ .finished := by decide

/-- The nodes below the last node of a path with `size` nodes: a path has symbol nodes at even and
state nodes at odd sizes. -/
def nodesBelow (g : Gss Item) (size d : ℕ) : List ℕ :=
  if size % 2 = 0 then (g.symbolNode d).nodeChildren else (g.stateNode d).symbolChildren

/-- The stack of the depth-first search, its top first: each node with the number of the child the
search has taken. -/
abbrev DfsStack := List (ℕ × ℕ)

/-- Go to the next child of the top that has one, the top dropped until then. -/
def backtrack (g : Gss Item) : DfsStack → DfsStack
  | (d, start) :: below :: rest =>
    match (nodesBelow g (rest.length + 2) d)[start + 1]? with
    | some c => (c, 0) :: (d, start + 1) :: below :: rest
    | none => backtrack g (below :: rest)
  | stack => stack

/-- Where the search goes from the top of the stack. -/
def dfsMove (g : Gss Item) (ruleLength : ℕ) (stack : DfsStack) : DfsStack :=
  match nodesBelow g stack.length (stack.headD (0, 0)).1 with
  | [] => backtrack g stack
  | c :: _ => if stack.length ≤ 2 * ruleLength then (c, 0) :: stack else backtrack g stack

def dfsStep (cfg : ParserConfig σ Agr Item) (symbols : List ℕ) (reduceRule : ℕ)
    (s : GlrParser σ Item × DfsStack) : LoopStep (GlrParser σ Item × DfsStack) RunStatus :=
  let ruleLength := (cfg.table.ruleInfo reduceRule).ruleLength
  let p :=
    if s.2.length == 2 * ruleLength + 1 then
      reduceOnePath cfg symbols reduceRule (s.2.map Prod.fst) s.1
    else s.1
  let stack := dfsMove p.toGss ruleLength s.2
  if stack.length == 1 then .exit .finished (p, stack) else .next (p, stack)

def reducer (cfg : ParserConfig σ Agr Item) (fuel : ℕ) (symbols : List ℕ)
    (p : GlrParser σ Item) : RunStatus × GlrParser σ Item :=
  match p.pendingReductions with
  | [] => (.finished, p)
  | red :: rest =>
    let r := runLoop (dfsStep cfg symbols red.reduceRule) .outOfFuel fuel
      ({ p with pendingReductions := rest }, [(red.symbolNodeNo, 0), (red.lastStateNodeNo, 0)])
    (r.1, r.2.1)

/-- One pending shift: find or make the leaf, and link it to the state node shifted from. -/
def shiftInto (cfg : ParserConfig σ Agr Item) (shift : PendingShift) (node : ℕ)
    (p : GlrParser σ Item) : GlrParser σ Item :=
  let link (s : ℕ) (g : Gss Item) : Gss Item := g.modifySymbolNode s fun sn =>
    if sn.nodeChildren.contains shift.stateNodeNo then sn
    else { sn with nodeChildren := sn.nodeChildren ++ [shift.stateNodeNo] }
  match (p.stateNode node).symbolChildren.find?
      fun s => (p.symbolNode s).symbolNo == shift.symbolNo with
  | some s => p.updateGss (link s p.toGss)
  | none =>
    let inputStart := p.inputLevels.length - 2
    match cfg.factory.createLeafItem p.heap shift.symbolNo inputStart with
    | (none, heap) => { p with heap }
    | (some item, heap) =>
      let g := p.addSymbolNode node
        { symbolNo := shift.symbolNo, item, inputStart, inputEnd := p.inputLevels.length - 1 }
      { p with heap, toGss := link p.symbolNodes.length g }

def shiftOne (cfg : ParserConfig σ Agr Item) (p : GlrParser σ Item) (shift : PendingShift) :
    GlrParser σ Item :=
  if (p.stateNode shift.stateNodeNo).symbolChildren.isEmpty && (p.disableWordsStateNodes &&
      decide (2 < p.inputLevels.length)) then p
  else
    let (_, node, g) := createOrReuseNode cfg p.toGss shift.nextStateNo
    shiftInto cfg shift node (p.updateGss g)

def shifter (cfg : ParserConfig σ Agr Item) (p : GlrParser σ Item) : GlrParser σ Item :=
  p.pendingShifts.foldl (shiftOne cfg) { p with pendingShifts := [] }

/-- One symbol node above a shifting state node: disabled if it is a word, or a group that begins
after the leftmost one. The count says how often it was disabled. -/
def disableSymbolNode (o : ParserOptions) (canDisable : Bool) (first : ℕ)
    (s : Gss Item × ℕ) (symbolNodeNo : ℕ) : Gss Item × ℕ :=
  let sn := s.1.symbolNode symbolNodeNo
  let word := (sn.symbolNo : ℤ) == o.wordTerminal && canDisable
  let group := (sn.symbolNo : ℤ) == o.groupNonTerminal &&
    (canDisable && decide (first < sn.inputStart))
  let g := if word || group then
    s.1.modifySymbolNode symbolNodeNo fun sn => { sn with disabled := true } else s.1
  (g, s.2 + word.toNat + group.toNat)

def disableStateNode (o : ParserOptions) (canDisable : Bool) (first : ℕ) (g : Gss Item)
    (shift : PendingShift) : Gss Item :=
  let children := (g.stateNode shift.stateNodeNo).symbolChildren
  let r := children.reverse.foldl (disableSymbolNode o canDisable first) (g, 0)
  if children.length == r.2 then
    { r.1 with
      stateNodes := r.1.stateNodes.modify shift.stateNodeNo
        fun n => { n with symbolChildren := [] } }
  else r.1

/-- `DisableWORDSSrtateNodes`. -/
def disableWordsSrtateNodes (cfg : ParserConfig σ Agr Item) (p : GlrParser σ Item) :
    GlrParser σ Item :=
  let group := p.builtGroups.headD (0, 0)
  let first := p.builtGroups.foldl (fun m g => if g.1 < m then g.1 else m) group.1
  let canDisable :=
    !(decide (p.maxLastGroup.1 < first) && decide ((first : ℤ) ≤ p.maxLastGroup.2 - 1)) ||
      p.maxLastGroup.1 == -1
  { p with
    maxLastGroup := (first, group.2)
    toGss := p.pendingShifts.foldl (disableStateNode cfg.options canDisable first) p.toGss }

/-- The state nodes of the closure that the last shift began, and node 0 at a start point. -/
def startNodes (g : Gss Item) (startPoint : Bool) : List ℕ :=
  let start :=
    if g.inputLevels.length ≤ 1 then 0 else g.inputLevels.getD (g.inputLevels.length - 2) 0
  let nodes := (List.range g.lastLevel).drop start
  if startPoint then insertBy natLt 0 nodes else nodes

def startSymbol (startPoint : Bool) (p : GlrParser σ Item) : GlrParser σ Item :=
  { p with
    disableWordsStateNodes := false
    builtGroups := []
    activeNodes := startNodes p.toGss startPoint }

/-- One turn of the loop over active nodes and pending reductions. -/
def closureStep (cfg : ParserConfig σ Agr Item) (fuel : ℕ) (symbols : List ℕ)
    (p : GlrParser σ Item) : LoopStep (GlrParser σ Item) RunStatus :=
  if p.activeNodes.isEmpty && p.pendingReductions.isEmpty then .exit .finished p
  else
    let r := if p.activeNodes.isEmpty then reducer cfg fuel symbols p
      else (.finished, actor cfg symbols p)
    if r.1 ≠ .finished then .exit r.1 r.2
    else if limitReached r.2 && cfg.options.breakAfterMaxSymbolNodesCount then
      .exit .interrupted r.2
    else .next r.2

/-- After the loop: close the level, disable words, open the next level. -/
def finishLevel (cfg : ParserConfig σ Agr Item) (firstReducedStateNode : ℕ)
    (p : GlrParser σ Item) : GlrParser σ Item :=
  let p := p.updateGss (p.setLastLevel p.stateNodes.length)
  let p :=
    if p.disableWordsStateNodes then
      let start := if 1 < p.inputLevels.length then firstReducedStateNode else 0
      disableWordsSrtateNodes cfg { p with
        activeNodes := insertAll natLt ((List.range p.lastLevel).drop start) p.activeNodes }
    else p
  p.updateGss (p.pushLevel p.stateNodes.length)

/-- The end of `ParseSymbol`: whether anything was shifted, and the parser at the next position. -/
def nextLevel (cfg : ParserConfig σ Agr Item) (firstReducedStateNode : ℕ) (p : GlrParser σ Item) :
    Bool × GlrParser σ Item :=
  let p' := shifter cfg (finishLevel cfg firstReducedStateNode p)
  (decide (0 < p'.stateNodes.length - p'.lastLevel), { p' with
    toGss := p'.setLastLevel p'.stateNodes.length, disableWordsStateNodes := false })

/-- `ParseSymbol`; the result of an interrupted call is `false`. -/
def parseSymbol (cfg : ParserConfig σ Agr Item) (fuel : ℕ) (symbols : List ℕ) (startPoint : Bool)
    (p : GlrParser σ Item) : RunStatus × Bool × GlrParser σ Item :=
  let r := runLoop (closureStep cfg fuel symbols) .outOfFuel fuel (startSymbol startPoint p)
  if r.1 ≠ .finished then (r.1, false, r.2)
  else
    let next := nextLevel cfg p.stateNodes.length r.2
    (.finished, cfg.options.robust || next.1, next.2)

/-- `InitGLRParser`: what the factory holds and the count of created groups stay. -/
def initGlrParser (p : GlrParser σ Item) : GlrParser σ Item :=
  { p with
    stateNodes := [{}], symbolNodes := [], inputLevels := [1]
    activeNodes := [], pendingReductions := [], pendingShifts := []
    builtGroups := [], maxLastGroup := (-1, -1) }

/-- Calls of `ParseSymbol` one after the other; an interrupted call is the last one. -/
def parseSymbols (cfg : ParserConfig σ Agr Item) (fuel : ℕ) :
    List (List ℕ × Bool) → GlrParser σ Item → RunStatus × GlrParser σ Item
  | [], p => (.finished, p)
  | w :: ws, p =>
    let r := parseSymbol cfg fuel w.1 w.2 p
    if r.1 ≠ .finished then (r.1, r.2.2) else parseSymbols cfg fuel ws r.2.2

end TomitaParser
