import Mathlib.Data.Rat.Defs
/-! # Grammar files

The messages of a parsed grammar file that the compiler works on. -/

namespace TomitaParser

/-- `EAgrType`. -/
inductive AgrType where
  | any | genderNumberCase | numberCase | case | genderNumber | genderCase | subjectPredicate
  | fio | femCase | izafet | afterNumber | geo
deriving DecidableEq, Repr, Inhabited

/-- `TPostfixProto::EOption`. -/
inductive EOption where
  | undef | deny | allow
deriving DecidableEq, Repr, Inhabited

/-- `TKeyWordsProto`. -/
structure KeyWordsProto where
  keyWord : List String := []
  negative : Bool := false
  firstWord : Bool := false
deriving DecidableEq, Repr, Inhabited

/-- `TAgrProto`. -/
structure AgrProto where
  type : AgrType
  negative : Bool := false
  id : ℕ := 0
deriving DecidableEq, Repr, Inhabited

/-- `TGramProto`, with the grammems by their names. -/
structure GramProto where
  grammems : List String
  negative : Bool := false
  mixForms : Bool := false
deriving DecidableEq, Repr, Inhabited

/-- `TRegexProto::EWord`. -/
inductive RegexWord where
  | main | first | last
deriving DecidableEq, Repr, Inhabited

/-- `TRegexProto`. -/
structure RegexProto where
  mask : String := ""
  negative : Bool := false
  word : RegexWord := .main
deriving DecidableEq, Repr, Inhabited

/-- `TGztFieldProto`. -/
structure GztFieldProto where
  article : String := ""
  field : String := ""
deriving DecidableEq, Repr, Inhabited

/-- `TPostfixProto`. -/
structure PostfixProto where
  kwType : KeyWordsProto := {}
  kwSet : KeyWordsProto := {}
  label : KeyWordsProto := {}
  agr : List AgrProto := []
  gram : List GramProto := []
  gramUnion : List GramProto := []
  regex : RegexProto := {}
  root : Bool := false
  excludeFromNorm : Bool := false
  lReg : Bool := false
  hReg : Bool := false
  hReg1 : Bool := false
  hReg2 : EOption := .undef
  bastard : Bool := false
  latin : EOption := .undef
  leftQuoted : EOption := .undef
  rightQuoted : EOption := .undef
  isName : EOption := .undef
  isGeo : EOption := .undef
  firstWord : EOption := .undef
  multiWord : EOption := .undef
  noPrep : Bool := false
  noHom : Bool := false
  gztWeight : Option GztFieldProto := none
deriving DecidableEq, Repr, Inhabited

/-- `TTermProto::EType`. -/
inductive TermType where
  | nonTerminal | terminal | lemmaWord
deriving DecidableEq, Repr, Inhabited

/-- `TTermProto`. -/
structure TermProto where
  name : String
  type : TermType := .nonTerminal
  termPostfix : PostfixProto := {}
deriving DecidableEq, Repr, Inhabited

/-- `TInterpProto`. -/
structure InterpProto where
  fact : String
  field : String
  plus : Bool := false
  normGrammems : List String := []
  option : List String := []
  fromFact : String := ""
  fromField : String := ""
  assignedValue : String := ""
deriving DecidableEq, Repr, Inhabited

/-- `TRuleItemProto::EOption`. -/
inductive ItemOption where
  | single | parenth | star | plus
deriving DecidableEq, Repr, Inhabited

/-- `TRuleItemProto`. -/
structure RuleItemProto where
  term : TermProto
  interp : List InterpProto := []
  replace : String := ""
  option : ItemOption := .single
  agr : AgrType := .any
  coord : Bool := false
deriving DecidableEq, Repr, Inhabited

/-- `TRuleInfoProto`. -/
structure RuleInfoProto where
  outgram : List String := []
  weight : ℚ := 1
  count : ℕ := 1000
  trim : Bool := false
  leftDominant : Bool := false
  rightRecessive : Bool := false
  notHRegFact : Bool := false
deriving DecidableEq, Repr, Inhabited

/-- `TRuleProto`, without its place in the source text. -/
structure RuleProto where
  name : String
  items : List RuleItemProto := []
  info : RuleInfoProto := {}
deriving DecidableEq, Repr, Inhabited

/-- `IsOptionalItem`. -/
def RuleItemProto.isOptionalItem (item : RuleItemProto) : Bool :=
  item.option == .parenth || item.option == .star

end TomitaParser
