import Mathlib.Data.String.Basic
import TomitaParser.Lib.OrderedSet
import TomitaParser.Toma.Syntax
/-! # Options of terms

The printed options of a term, and the names that are built from them. Helper non-terminals are told
apart by these names only. -/

namespace TomitaParser
open OrderedSet

/-- The order of texts. -/
def textLt (a b : String) : Bool := decide (a < b)

theorem textLt_ext {a b : String} (h : Equivalent textLt a b) : b = a := by
  simp only [Equivalent, textLt, decide_eq_false_iff_not, not_lt] at h
  exact le_antisymm h.1 h.2

@[simp] theorem mem_insertAll_textLt {x : String} {as l : List String} :
    x ∈ insertAll textLt as l ↔ x ∈ as ∨ x ∈ l :=
  mem_insertAll fun _ _ _ _ h => textLt_ext h

/-- `TTypedOption::EType`. -/
inductive OptionKind where
  | terminal | reduce | binary | special
deriving DecidableEq, Repr

/-- `TTypedOption`. -/
structure TypedOption where
  text : String
  type : OptionKind
deriving DecidableEq, Repr

namespace OptionPrinter

/-- The texts with a comma between them. -/
def commaSeparated : List String → String
  | [] => ""
  | [a] => a
  | a :: b :: rest => a ++ "," ++ commaSeparated (b :: rest)

def printBool (value : Bool) (name : String) : String := if value then name else ""

def printEOption (value : EOption) (name : String) : String :=
  match value with
  | .allow => name
  | .deny => "~" ++ name
  | .undef => ""

def negation (negative : Bool) : String := if negative then "~" else ""

def printKeywords (value : KeyWordsProto) (name : String) : String :=
  match value.keyWord with
  | [] => ""
  | [word] => name ++ printBool value.firstWord "f" ++ "=" ++ negation value.negative ++ word
  | words => name ++ printBool value.firstWord "f" ++ "=" ++ negation value.negative ++ "[" ++
      commaSeparated words ++ "]"

def printGrammems (value : GramProto) (name : String) : String :=
  if value.grammems.isEmpty then ""
  else name ++ "=" ++ negation value.negative ++ printBool value.mixForms "&" ++
    commaSeparated value.grammems

def printRegex (value : RegexProto) (name : String) : String :=
  if value.mask = "" then ""
  else
    let word :=
      match value.word with
      | .main => "m"
      | .first => "f"
      | .last => "l"
    name ++ word ++ "=" ++ negation value.negative ++ "\"" ++ value.mask ++ "\""

def printAgrType : AgrType → String
  | .any => "any"
  | .genderNumberCase => "gnc-agr"
  | .numberCase => "nc-agr"
  | .case => "c-agr"
  | .genderNumber => "gn-agr"
  | .genderCase => "gc-agr"
  | .subjectPredicate => "sp-agr"
  | .fio => "fio-agr"
  | .femCase => "fem-c-agr"
  | .izafet => "izf-agr"
  | .afterNumber => "after-num-agr"
  | .geo => "geo-agr"

def printAgr (agr : AgrProto) : String :=
  negation agr.negative ++ printAgrType agr.type ++ "[" ++ toString agr.id ++ "]"

def printText (value name : String) : String := if value = "" then "" else name ++ "=" ++ value

/-- `PUSH_POSTFIX_OPTION`: an option that prints as nothing is left out. -/
def pushOption (text : String) (type : OptionKind) : List TypedOption :=
  if text = "" then [] else [⟨text, type⟩]

/-- `CollectTypedOptions`. -/
def collectTypedOptions (term : TermProto) : List TypedOption :=
  let p := term.termPostfix
  let gramType : OptionKind := if term.type = .nonTerminal then .reduce else .terminal
  pushOption (printBool p.root "rt") .special ++
  (pushOption (printBool p.bastard "~dict") .terminal ++
    pushOption (printBool p.noPrep "~prep") .terminal ++
    pushOption (printBool p.noHom "~hom") .terminal ++
    pushOption (printBool p.lReg "lreg") .terminal ++
    pushOption (printBool p.hReg "hreg") .terminal ++
    pushOption (printBool p.hReg1 "hreg1") .terminal ++
    pushOption (printEOption p.hReg2 "hreg2") .terminal ++
    pushOption (printEOption p.latin "lat") .terminal ++
    pushOption (printEOption p.isName "name") .terminal ++
    pushOption (printEOption p.isGeo "geo") .terminal ++
    pushOption (printEOption p.multiWord "mw") .terminal ++
    pushOption (printBool p.excludeFromNorm "cut") .terminal ++
    pushOption (printEOption p.firstWord "fw") .reduce ++
    p.gram.flatMap (fun g => pushOption (printGrammems g "gram") gramType) ++
    p.gramUnion.flatMap (fun g => pushOption (printGrammems g "GU") .reduce) ++
    pushOption (printKeywords p.kwSet "kwset") .reduce ++
    pushOption (printKeywords p.kwType "kw") .terminal ++
    pushOption (printKeywords p.label "label") .terminal ++
    pushOption (printRegex p.regex "wf") .reduce ++
    (if p.leftQuoted = p.rightQuoted then pushOption (printEOption p.leftQuoted "quot") .reduce
    else pushOption (printEOption p.leftQuoted "lquot") .reduce ++
      pushOption (printEOption p.rightQuoted "rquot") .reduce)) ++
  p.agr.flatMap (fun agr => pushOption (printAgr agr) .binary) ++
  match p.gztWeight with
  | some w => pushOption (printText w.field "gztweight") .reduce
  | none => []

/-- `AppendOptionToName`; a name in braces keeps its braces around the option. -/
def appendOptionToName (name option : String) : String :=
  if option = "" then name
  else if name.toList.head? = some '\x7b' ∧ name.toList.getLast? = some '\x7d' then
    String.ofList (name.toList.dropLast ++ option.toList ++ ['\x7d'])
  else String.ofList ('\x7b' :: (name.toList ++ option.toList ++ ['\x7d']))

/-- The texts that `MergeOptionsToName` puts into a name, in order. -/
def goodOptions (term : TermProto) : List String :=
  insertAll textLt (((collectTypedOptions term).filter fun o =>
    o.type == .terminal || o.type == .reduce).map (·.text)) []

/-- The texts, each after a comma. -/
def optionString (options : List String) : String :=
  options.foldl (fun s o => s ++ "," ++ o) ""

/-- `MergeOptionsToName`. -/
def mergeOptionsToName (term : TermProto) : String :=
  appendOptionToName term.name (optionString (goodOptions term))

end OptionPrinter
end TomitaParser
