import Mathlib.Data.Prod.Lex
import Mathlib.Data.List.Lex
import TomitaParser.Lib.OrderedMap
import TomitaParser.Toma.Options
import TomitaParser.Toma.UnrefRules
/-! # Downgraded options

Options of terminal type on a non-terminal are moved down: the rules of the non-terminal are copied
under a name with the options, and the copies take the options into their first and main words. -/

namespace TomitaParser
open LoopRun OrderedSet OptionPrinter

namespace TerminalPostfixSet

/-- `TTerminalPostfixSet::Extract`. -/
def extract (term : TermProto) : List String :=
  insertAll textLt
    (((collectTypedOptions term).filter (·.type == .terminal)).map (·.text)) []

/-- `TTerminalPostfixSet::Clear`. -/
def clear (p : PostfixProto) : PostfixProto :=
  { p with
    bastard := false
    noPrep := false
    noHom := false
    lReg := false
    hReg := false
    hReg1 := false
    hReg2 := .undef
    latin := .undef
    isName := .undef
    isGeo := .undef
    multiWord := .undef
    excludeFromNorm := false
    kwType := {}
    label := {} }

/-- `MergeKeywords`: keywords that contradict each other are put together. -/
def mergeKeywords (src dst : KeyWordsProto) : KeyWordsProto :=
  if src.keyWord = [] then dst
  else if dst.keyWord = [] then src
  else if src = dst then dst
  else { dst with keyWord := insertAll textLt (src.keyWord ++ dst.keyWord) [] }

/-- `MERGE_EOPTION`. -/
def mergeEOption (src dst : EOption) : EOption := if src ≠ .undef then src else dst

/-- `MergeSimplePostfix`. -/
def mergeSimplePostfix (src dst : PostfixProto) : PostfixProto :=
  { dst with
    bastard := src.bastard || dst.bastard
    noPrep := src.noPrep || dst.noPrep
    noHom := src.noHom || dst.noHom
    lReg := src.lReg || dst.lReg
    hReg := src.hReg || dst.hReg
    hReg2 := mergeEOption src.hReg2 dst.hReg2
    latin := mergeEOption src.latin dst.latin
    isName := mergeEOption src.isName dst.isName
    isGeo := mergeEOption src.isGeo dst.isGeo
    multiWord := mergeEOption src.multiWord dst.multiWord }

/-- `MergeTerminalFirstWordPostfix`. -/
def mergeFirstWord (src dst : PostfixProto) : PostfixProto :=
  { dst with hReg1 := src.hReg1 || dst.hReg1 }

/-- `MergeTerminalAllWordsPostfix`. -/
def mergeAllWords (src dst : PostfixProto) : PostfixProto :=
  { dst with excludeFromNorm := src.excludeFromNorm || dst.excludeFromNorm }

/-- `MergeTerminalMainWordPostfix`. -/
def mergeMainWord (src dst : PostfixProto) : PostfixProto :=
  let dst := mergeSimplePostfix src dst
  { dst with
    kwType := mergeKeywords src.kwType dst.kwType
    label := mergeKeywords src.label dst.label }

/-- `TTerminalPostfixSet::Merge` for the item with the number `j`. -/
def mergeItem (src : PostfixProto) (j : ℕ) (p : PostfixProto) : PostfixProto :=
  let p := if j = 0 then mergeFirstWord src p else p
  let p := if p.root then mergeMainWord src p else p
  mergeAllWords src p

end TerminalPostfixSet
open TerminalPostfixSet

def RuleItemProto.withPostfix (item : RuleItemProto) (p : PostfixProto) : RuleItemProto :=
  { item with term := { item.term with termPostfix := p } }

/-- The copy of a rule under a new name, with the options of `src` merged into its items. -/
def cloneRule (rule : RuleProto) (newRuleName : String) (src : PostfixProto) : RuleProto :=
  { rule with
    name := newRuleName
    items := rule.items.mapIdx fun j item =>
      item.withPostfix (mergeItem src j item.term.termPostfix) }

/-- A name with options, in the order of the map. -/
abbrev TermName := String ×ₗ List String

/-- `TPostfixIndex`. The positions of the rules of a name (`RuleMap`) are read off the file. -/
structure PostfixIndex where
  usedNames : OrderedMap String (String × List String)
  postfixMap : OrderedMap TermName (List (ℕ × ℕ))

namespace PostfixIndex

def empty : PostfixIndex := ⟨OrderedMap.empty, OrderedMap.empty⟩

/-- One item in `AddToIndex`. -/
def addItem (ruleIndex : ℕ) (m : OrderedMap TermName (List (ℕ × ℕ))) (item : RuleItemProto × ℕ) :
    OrderedMap TermName (List (ℕ × ℕ)) :=
  if item.1.term.type = .nonTerminal ∧ extract item.1.term ≠ [] then
    let key : TermName := toLex (item.1.term.name, extract item.1.term)
    m.insert key ((m.find key).getD [] ++ [(ruleIndex, item.2)])
  else m

/-- `AddToIndex`; `insert` keeps the name that is already there. -/
def addToIndex (index : PostfixIndex) (ruleIndex : ℕ) (rule : RuleProto) : PostfixIndex where
  usedNames := index.usedNames.insertNew rule.name (rule.name, [])
  postfixMap := rule.items.zipIdx.foldl (addItem ruleIndex) index.postfixMap

/-- `NormalizeName`: a name that was made with options is taken apart again. -/
def normalizeName (index : PostfixIndex) (name : TermName) : String × List String :=
  match index.usedNames.find (ofLex name).1 with
  | some (base, options) => (base, insertAll textLt options (ofLex name).2)
  | none => ofLex name

/-- The name of the copied rules. -/
def newRuleName (index : PostfixIndex) (name : TermName) : String :=
  let (base, options) := index.normalizeName name
  appendOptionToName base (optionString options)

/-- The index after `Pop`; the name counts as new if it was not used before. -/
def afterPop (index : PostfixIndex) (name : TermName) : PostfixIndex where
  usedNames := index.usedNames.insertNew (index.newRuleName name) (index.normalizeName name)
  postfixMap := index.postfixMap.erase name

end PostfixIndex

/-- The item at a position. -/
def itemAt (rules : List RuleProto) (pos : ℕ × ℕ) : Option RuleItemProto :=
  rules[pos.1]?.bind fun rule => rule.items[pos.2]?

/-- The new name is put at a position, and the options there are cleared. -/
def renameTerm (newRuleName : String) (rules : List RuleProto) (pos : ℕ × ℕ) : List RuleProto :=
  rules.modify pos.1 fun rule =>
    { rule with
      items := rule.items.modify pos.2 fun item =>
        { item with term := { item.term with
          name := newRuleName, termPostfix := clear item.term.termPostfix } } }

/-- The file and its index. -/
structure DowngradeState where
  rules : List RuleProto
  index : PostfixIndex

namespace DowngradeState

/-- `AddRule` together with `AddToIndex`. -/
def addRule (s : DowngradeState) (rule : RuleProto) : DowngradeState :=
  ⟨s.rules ++ [rule], s.index.addToIndex s.rules.length rule⟩

/-- A rule at a position is copied. -/
def cloneAt (newRuleName : String) (src : PostfixProto) (s : DowngradeState) (i : ℕ) :
    DowngradeState :=
  match s.rules[i]? with
  | some rule => s.addRule (cloneRule rule newRuleName src)
  | none => s

/-- The positions of the rules of a name. -/
def rulePositions (rules : List RuleProto) (name : String) : List ℕ :=
  (rules.zipIdx.filter (·.1.name == name)).map (·.2)

/-- The terms at the positions of one name with options are renamed and cleared. -/
def afterRename (s : DowngradeState) (name : TermName) (termPositions : List (ℕ × ℕ)) :
    DowngradeState :=
  ⟨termPositions.foldl (renameTerm (s.index.newRuleName name)) s.rules, s.index.afterPop name⟩

/-- The options that are moved down: those of the first of the positions. -/
def srcPostfix (s : DowngradeState) (termPositions : List (ℕ × ℕ)) : PostfixProto :=
  match termPositions.head?.bind (itemAt s.rules) with
  | some item => item.term.termPostfix
  | none => {}

/-- One turn of the loop of `DowngradePostfixes`. -/
def downgrade (s : DowngradeState) (name : TermName) (termPositions : List (ℕ × ℕ)) :
    DowngradeState :=
  let newRuleName := s.index.newRuleName name
  let renamed := s.afterRename name termPositions
  if (s.index.usedNames.find newRuleName).isSome then renamed
  else (rulePositions renamed.rules (ofLex name).1).foldl
    (cloneAt newRuleName (s.srcPostfix termPositions)) renamed

/-- The index of a file. -/
def start (rules : List RuleProto) : DowngradeState :=
  rules.foldl addRule ⟨[], PostfixIndex.empty⟩

/-- The loop of `DowngradePostfixes`. -/
def downgradeStep (s : DowngradeState) : LoopStep DowngradeState Bool :=
  match s.index.postfixMap.entries with
  | [] => .exit true s
  | (name, termPositions) :: _ => .next (s.downgrade name termPositions)

end DowngradeState

/-- `DowngradePostfixes`, if the loop ends within the fuel. -/
def downgradePostfixes (fuel : ℕ) (file : FileProto) :
    Option (Except (String × String) FileProto) :=
  let (ended, s) :=
    runLoop DowngradeState.downgradeStep false fuel (DowngradeState.start file.rules)
  if ended then some (removeUnrefRules { file with rules := s.rules }) else none

end TomitaParser
