import Mathlib.Data.List.Basic
/-! # Conditional compilation

The lines of a grammar file, the part of the parser that follows `#ifdef`, `#ifndef`, `#else` and
`#endif`, and the blocks that a well-formed file is made of. What is skipped is read like the rest,
through `NextToken`, which looks at the uses of variables. -/

namespace TomitaParser

/-- The check of `ConsumeIdentifier`. -/
def isIdentifier (word : String) : Bool :=
  match word.toList with
  | [] => false
  | c :: rest => (c.isAlpha || c == '_') && rest.all fun c => c.isAlphanum || c == '_'

abbrev Identifier := { word : String // isIdentifier word = true }

/-- A token that starts no use of a variable. -/
abbrev PlainWord := { text : String // text ≠ "$" }

/-- A part of a line: a token, or a use `${name}` of a variable. -/
inductive LineToken where
  | word (text : PlainWord)
  | use (name : Identifier)
deriving DecidableEq, Repr

/-- The word after the `#` of a macro other than `#define`. -/
abbrev MacroName := { name : String // name ≠ "define" ∧ name ≠ "$" }

/-- A line of a grammar file: a macro with what follows its name, or the tokens of rules. What a
`#define` stores has no uses of variables. -/
inductive SourceLine where
  | directive (name : Option MacroName) (args : List LineToken)
  | define (words : List PlainWord)
  | text (tokens : List LineToken)
deriving DecidableEq, Repr

/-- The variables of `DefinedVars` with their tokens. -/
abbrev DefinedVars := List (String × List PlainWord)

namespace DefinedVars

def isDefined (vars : DefinedVars) (var : String) : Bool := vars.any (·.1 == var)

def erase (vars : DefinedVars) (var : String) : DefinedVars := vars.filter (·.1 != var)

def define (vars : DefinedVars) (var : String) (tokens : List PlainWord) : DefinedVars :=
  (var, tokens) :: erase vars var

end DefinedVars

/-- The error of `TryConsumeVariableAndReplace` for a variable that is not defined. -/
def undefinedVariable (name : String) : String :=
  "Undefined variable $\x7b" ++ name ++
    "\x7d. Use #define macro to define substitution variables."

/-- What is left of a line, the current token first. Where nothing is left, `raw` tells whether the
first token of the next line has been reached without a look at variables. -/
structure LineRest where
  tokens : List LineToken
  raw : Bool

/-- `NextToken` in front of some tokens: the first one is looked at. -/
def lookAt (vars : DefinedVars) : List LineToken → List String × LineRest
  | .use name :: rest =>
    match vars.lookup name.1 with
    | none => ([undefinedVariable name.1], ⟨.word ⟨"\x7d", by decide⟩ :: rest, false⟩)
    | some [] => ([], ⟨rest, true⟩)
    | some (word :: words) => ([], ⟨(word :: words).map .word ++ rest, false⟩)
  | tokens => ([], ⟨tokens, false⟩)

/-- The errors of calls of `NextToken` up to the end of a line, and whether the first token of the
next line is then `raw`. A `raw` dollar is a token like any other, and the token after a use of a
variable without tokens is `raw` itself. -/
def readTokens (vars : DefinedVars) : Bool → List LineToken → List String × Bool
  | raw, [] => ([], raw)
  | _, .word _ :: rest => readTokens vars false rest
  | true, .use _ :: rest => readTokens vars false rest
  | false, .use name :: rest =>
    match vars.lookup name.1 with
    | none =>
      let r := readTokens vars false rest
      (undefinedVariable name.1 :: r.1, r.2)
    | some [] => readTokens vars true rest
    | some (_ :: _) => readTokens vars false rest

/-- `SkipLine` behind the current token, which has been looked at. -/
def LineRest.skip (vars : DefinedVars) (c : LineRest) : List String × Bool :=
  match c.tokens with
  | [] => ([], c.raw)
  | tokens => readTokens vars true tokens

/-- A line in a branch that is not selected, up to the next one. -/
def SourceLine.skip (vars : DefinedVars) (raw : Bool) : SourceLine → List String × Bool
  | .text tokens => readTokens vars raw tokens
  | .directive _ args => readTokens vars false args
  | .define _ => ([], false)

/-- The parser between two lines: what it keeps, what it has handed to the grammar so far, and the
errors it has reported. -/
structure ConditionalState where
  definedVars : DefinedVars := []
  ifDefStack : List Bool := []
  /-- The first token of the next line has been reached without a look at variables. -/
  raw : Bool := true
  handed : List SourceLine := []
  errors : List String := []

/-- What the parser of a rule or of another macro reports on its line, and whether it leaves the
first token of the next line `raw`. -/
abbrev StatementParser := DefinedVars → Bool → SourceLine → List String × Bool

namespace ConditionalState

/-- The errors of some reading, which leaves `raw` so. -/
def report (s : ConditionalState) (r : List String × Bool) : ConditionalState :=
  { s with errors := s.errors ++ r.1, raw := r.2 }

/-- An error, after which the rest of the line is skipped. -/
def fail (s : ConditionalState) (error : String) (c : LineRest) : ConditionalState :=
  s.report (error :: (c.skip s.definedVars).1, (c.skip s.definedVars).2)

/-- An error at a word, after which the rest of the line is skipped. -/
def failAtWord (s : ConditionalState) (error : String) (args : List LineToken) :
    ConditionalState :=
  s.report (error :: (readTokens s.definedVars false args).1,
    (readTokens s.definedVars false args).2)

/-- A line that is skipped. -/
def skip (s : ConditionalState) (line : SourceLine) : ConditionalState :=
  s.report (line.skip s.definedVars s.raw)

/-- A statement that is parsed for the grammar. -/
def hand (statement : StatementParser) (s : ConditionalState) (line : SourceLine) :
    ConditionalState :=
  { s with handed := s.handed ++ [line] }.report (statement s.definedVars s.raw line)

/-- A word of a macro is consumed: the errors of the look at what follows, and what is left. -/
def consumeWord (s : ConditionalState) (args : List LineToken) : ConditionalState × LineRest :=
  let r := lookAt s.definedVars args
  (s.report (r.1, r.2.raw), r.2)

/-- `CheckNewLineAfterMacro`. -/
def checkNewLine (s : ConditionalState) (c : LineRest) : ConditionalState :=
  if c.tokens = [] then { s with raw := c.raw } else s.fail "Expected new line after macro." c

/-- `ParseEndif`, after its word. -/
def parseEndif (s : ConditionalState) (args : List LineToken) : ConditionalState :=
  let (s, c) := s.consumeWord args
  if c.tokens ≠ [] then s.fail "Expected new line after macro." c
  else
    match s.ifDefStack with
    | [] => s.fail "Unmatched #endif found (no corresponding #ifdef or #ifndef before)." c
    | _ :: stack => { s with ifDefStack := stack }

/-- The loop of `ParseIfdef` over the lines of a branch that is not selected. -/
def skipBranch (s : ConditionalState) : List SourceLine → List SourceLine × ConditionalState
  | [] => ([], s.report
      (["Reached end of file within #ifdef/#ifndef block (no corresponding #endif)."], s.raw))
  | .directive (some name) args :: rest =>
    if name.1 = "else" then (rest, (s.consumeWord args).1.checkNewLine (s.consumeWord args).2)
    else if name.1 = "endif" then (rest, s.parseEndif args)
    else skipBranch (s.skip (.directive (some name) args)) rest
  | line :: rest => skipBranch (s.skip line) rest

/-- The loop of `ParseElse`. -/
def skipElse (s : ConditionalState) : List SourceLine → List SourceLine × ConditionalState
  | [] => ([], s.report
      (["Reached end of file within #else block (no corresponding #endif)."], s.raw))
  | .directive (some name) args :: rest =>
    if name.1 = "else" then
      (rest, s.failAtWord "Unmatched #else found (inside other #else block)." args)
    else if name.1 = "endif" then (rest, s.parseEndif args)
    else skipElse (s.skip (.directive (some name) args)) rest
  | line :: rest => skipElse (s.skip line) rest

/-- The variable that a macro names, and what follows it in the line. `ConsumeIdentifier` does not
look at the token after it. -/
def consumeVariable (s : ConditionalState) (error : String) (atEnd : Bool) (c : LineRest) :
    Except ConditionalState (String × LineRest) :=
  match c.tokens with
  | [] => .error (s.fail (if atEnd then "Unexpected end of file inside multiword macro."
      else "Unexpected new line inside multiword macro.") c)
  | .word var :: after =>
    if isIdentifier var.1 then .ok (var.1, ⟨after, true⟩) else .error (s.fail error c)
  | .use _ :: _ => .error (s.fail error c)

/-- `ParseIfdef`. -/
def parseIfdef (s : ConditionalState) (negative : Bool) (args : List LineToken)
    (rest : List SourceLine) : List SourceLine × ConditionalState :=
  let (s, c) := s.consumeWord args
  match s.consumeVariable "Expected variable name after #ifdef/#ifndef macro." rest.isEmpty c with
  | .error s => (rest, s)
  | .ok (var, after) =>
    if after.tokens ≠ [] then (rest, s.fail "Expected new line after macro." after)
    else
      let selected := s.definedVars.isDefined var != negative
      let s := { s with ifDefStack := selected :: s.ifDefStack, raw := after.raw }
      if selected then (rest, s) else s.skipBranch rest

/-- `ParseElse`, after its word. -/
def parseElse (s : ConditionalState) (args : List LineToken) (rest : List SourceLine) :
    List SourceLine × ConditionalState :=
  let (s, c) := s.consumeWord args
  if c.tokens ≠ [] then (rest, s.fail "Expected new line after macro." c)
  else if s.ifDefStack = [] then
    (rest, s.fail "Unmatched #else found (no corresponding #ifdef or #ifndef before)." c)
  else s.skipElse rest

/-- `ParseDefine`: the tokens up to the end of the line belong to the variable. -/
def parseDefine (s : ConditionalState) (words : List PlainWord) (atEnd : Bool) :
    ConditionalState :=
  match s.consumeVariable "Expected variable name after #define macro." atEnd
      ⟨words.map .word, false⟩ with
  | .error s => s
  | .ok (var, _) =>
    { s with definedVars := s.definedVars.define var words.tail, raw := words.tail.isEmpty }

/-- `ParseUndef`. -/
def parseUndef (s : ConditionalState) (args : List LineToken) (atEnd : Bool) : ConditionalState :=
  let (s, c) := s.consumeWord args
  match s.consumeVariable "Expected variable name after #undef macro." atEnd c with
  | .error s => s
  | .ok (var, after) =>
    if after.tokens ≠ [] then s.fail "Expected new line after macro." after
    else { s with definedVars := s.definedVars.erase var, raw := after.raw }

/-- The macros of `ParseMacro` that go to the grammar like a rule does. -/
def functionalMacros : List String :=
  ["include", "encoding", "GRAMMAR_KWSET", "filter", "GRAMMAR_ROOT", "root", "10_FIOS_LIMIT",
    "FIO_LIMIT", "NO_INTERPRETATION", "DEBUG"]

variable (statement : StatementParser)

/-- `ParseMacro`. -/
def parseMacro (s : ConditionalState) (name : Option MacroName) (args : List LineToken)
    (rest : List SourceLine) : List SourceLine × ConditionalState :=
  match name with
  | none => (rest, (s.consumeWord args).1.fail "No macro name after '#'." (s.consumeWord args).2)
  | some name =>
    if name.1 = "ifdef" then s.parseIfdef false args rest
    else if name.1 = "ifndef" then s.parseIfdef true args rest
    else if name.1 = "else" then s.parseElse args rest
    else if name.1 = "endif" then (rest, s.parseEndif args)
    else if name.1 = "undef" then (rest, s.parseUndef args rest.isEmpty)
    else if name.1 ∈ functionalMacros then (rest, s.hand statement (.directive (some name) args))
    else (rest, s.failAtWord (if isIdentifier name.1 then "Unknown macro: \"" ++ name.1 ++ "\"."
      else "Expected macro name.") args)

theorem skipBranch_length (s : ConditionalState) (lines : List SourceLine) :
    (s.skipBranch lines).1.length ≤ lines.length := by
  fun_induction skipBranch s lines <;> simp_all <;> omega

theorem skipElse_length (s : ConditionalState) (lines : List SourceLine) :
    (s.skipElse lines).1.length ≤ lines.length := by
  fun_induction skipElse s lines <;> simp_all <;> omega

theorem parseIfdef_length (s : ConditionalState) (negative : Bool) (args : List LineToken)
    (rest : List SourceLine) : (s.parseIfdef negative args rest).1.length ≤ rest.length := by
  unfold parseIfdef
  dsimp only
  split
  · exact Nat.le_refl rest.length
  · split
    · exact Nat.le_refl rest.length
    · split
      · exact Nat.le_refl rest.length
      · apply skipBranch_length

theorem parseElse_length (s : ConditionalState) (args : List LineToken) (rest : List SourceLine) :
    (s.parseElse args rest).1.length ≤ rest.length := by
  unfold parseElse
  dsimp only
  split
  · exact Nat.le_refl rest.length
  · split
    · exact Nat.le_refl rest.length
    · apply skipElse_length

theorem parseMacro_length (s : ConditionalState) (name : Option MacroName) (args : List LineToken)
    (rest : List SourceLine) : (s.parseMacro statement name args rest).1.length ≤ rest.length := by
  unfold parseMacro
  split
  · exact Nat.le_refl rest.length
  · split_ifs
    · apply parseIfdef_length
    · apply parseIfdef_length
    · apply parseElse_length
    all_goals exact Nat.le_refl rest.length

/-- The loop of `ParseTokens`. -/
def parseTokens (s : ConditionalState) (lines : List SourceLine) : ConditionalState :=
  match lines with
  | [] => s
  | .text tokens :: rest => parseTokens (s.hand statement (.text tokens)) rest
  | .define words :: rest => parseTokens (s.parseDefine words rest.isEmpty) rest
  | .directive name args :: rest =>
    parseTokens (s.parseMacro statement name args rest).2 (s.parseMacro statement name args rest).1
termination_by lines.length
decreasing_by
  · simp
  · simp
  · simpa using Nat.lt_succ_of_le (parseMacro_length statement s name args rest)

end ConditionalState

/-- A macro that goes to the grammar. -/
abbrev FunctionalMacro := { name : MacroName // name.1 ∈ ConditionalState.functionalMacros }

/-- A line that is no part of a block. -/
inductive PlainLine where
  | text (tokens : List LineToken)
  | functional (name : FunctionalMacro) (args : List LineToken)
  | define (var : Identifier) (tokens : List PlainWord)
  | undef (var : Identifier)

/-- A well-formed sequence of lines and blocks. -/
inductive Blocks where
  | nil
  | plain (line : PlainLine) (rest : Blocks)
  | ifBlock (negative : Bool) (var : Identifier) (body rest : Blocks)
  | ifElse (negative : Bool) (var : Identifier) (body alternative rest : Blocks)

/-- An identifier as a token. -/
def Identifier.word (var : Identifier) : PlainWord :=
  ⟨var.1, by
    rintro h
    have hvar := var.2
    rw [h] at hvar
    exact absurd hvar (by decide)⟩

def PlainLine.source : PlainLine → SourceLine
  | .text tokens => .text tokens
  | .functional name args => .directive (some name.1) args
  | .define var tokens => .define (Identifier.word var :: tokens)
  | .undef var => .directive (some ⟨"undef", by decide⟩) [.word (Identifier.word var)]

namespace Blocks

/-- The name of the macro that opens a block. -/
def openingName (negative : Bool) : MacroName :=
  if negative then ⟨"ifndef", by decide⟩ else ⟨"ifdef", by decide⟩

/-- The line that opens a block. -/
def opening (negative : Bool) (var : Identifier) : SourceLine :=
  .directive (some (openingName negative)) [.word (Identifier.word var)]

def elseLine : SourceLine := .directive (some ⟨"else", by decide⟩) []

def endifLine : SourceLine := .directive (some ⟨"endif", by decide⟩) []

/-- The lines of a file. -/
def source : Blocks → List SourceLine
  | nil => []
  | plain line rest => line.source :: rest.source
  | ifBlock negative var body rest =>
    opening negative var :: (body.source ++ endifLine :: rest.source)
  | ifElse negative var body alternative rest =>
    opening negative var :: (body.source ++ elseLine ::
      (alternative.source ++ endifLine :: rest.source))

/-- Whether a block selects its body. -/
def selects (vars : DefinedVars) (negative : Bool) (var : Identifier) : Bool :=
  vars.isDefined var.1 != negative

end Blocks

/-- What the reading of a line depends on: the variables, and whether its first token is `raw`. -/
structure ReadState where
  vars : DefinedVars
  raw : Bool

section Readable
variable (statement : StatementParser)

/-- The state after a line that is read. -/
def PlainLine.after (s : ReadState) : PlainLine → ReadState
  | .define var tokens => ⟨s.vars.define var.1 tokens, tokens.isEmpty⟩
  | .undef var => ⟨s.vars.erase var.1, true⟩
  | line => ⟨s.vars, (statement s.vars s.raw line.source).2⟩

/-- What a line that is read hands to the grammar. -/
def PlainLine.statements : PlainLine → List SourceLine
  | .text tokens => [.text tokens]
  | .functional name args => [.directive (some name.1) args]
  | _ => []

/-- What the parser of a statement reports on a line that is read. -/
def PlainLine.readErrors (s : ReadState) : PlainLine → List String
  | .define _ _ => []
  | .undef _ => []
  | line => (statement s.vars s.raw line.source).1

namespace Blocks

/-- The state after the lines whose enclosing blocks all select them. -/
def after (s : ReadState) : Blocks → ReadState
  | nil => s
  | plain line rest => after (line.after statement s) rest
  | ifBlock negative var body rest =>
    if selects s.vars negative var then after ⟨(after ⟨s.vars, true⟩ body).vars, false⟩ rest
    else after ⟨s.vars, false⟩ rest
  | ifElse negative var body alternative rest =>
    if selects s.vars negative var then after ⟨(after ⟨s.vars, true⟩ body).vars, false⟩ rest
    else after ⟨(after ⟨s.vars, false⟩ alternative).vars, false⟩ rest

/-- The statements whose every enclosing block selects the branch they stand in. -/
def selected (s : ReadState) : Blocks → List SourceLine
  | nil => []
  | plain line rest => line.statements ++ selected (line.after statement s) rest
  | ifBlock negative var body rest =>
    if selects s.vars negative var then
      selected ⟨s.vars, true⟩ body ++
        selected ⟨(after statement ⟨s.vars, true⟩ body).vars, false⟩ rest
    else selected ⟨s.vars, false⟩ rest
  | ifElse negative var body alternative rest =>
    if selects s.vars negative var then
      selected ⟨s.vars, true⟩ body ++
        selected ⟨(after statement ⟨s.vars, true⟩ body).vars, false⟩ rest
    else
      selected ⟨s.vars, false⟩ alternative ++
        selected ⟨(after statement ⟨s.vars, false⟩ alternative).vars, false⟩ rest

/-- There is no block among the lines, and every use of a variable in them that the skipping looks
at is of a defined one. -/
def skippable (vars : DefinedVars) (raw : Bool) : Blocks → Bool
  | nil => true
  | plain line rest =>
    (line.source.skip vars raw).1.isEmpty && skippable vars (line.source.skip vars raw).2 rest
  | _ => false

/-- Every branch that is not selected, of a block that is itself read, can be skipped, and the
parser of a statement reports nothing on a line that is read. -/
def readable (s : ReadState) : Blocks → Bool
  | nil => true
  | plain line rest =>
    (line.readErrors statement s).isEmpty && readable (line.after statement s) rest
  | ifBlock negative var body rest =>
    if selects s.vars negative var then
      readable ⟨s.vars, true⟩ body &&
        readable ⟨(after statement ⟨s.vars, true⟩ body).vars, false⟩ rest
    else body.skippable s.vars true && readable ⟨s.vars, false⟩ rest
  | ifElse negative var body alternative rest =>
    if selects s.vars negative var then
      readable ⟨s.vars, true⟩ body && alternative.skippable
          (after statement ⟨s.vars, true⟩ body).vars false &&
        readable ⟨(after statement ⟨s.vars, true⟩ body).vars, false⟩ rest
    else
      body.skippable s.vars true && readable ⟨s.vars, false⟩ alternative &&
        readable ⟨(after statement ⟨s.vars, false⟩ alternative).vars, false⟩ rest

end Blocks
end Readable

namespace ConditionalState
variable {statement : StatementParser}

@[simp] theorem report_errors (s : ConditionalState) (r : List String × Bool) :
    (s.report r).errors = s.errors ++ r.1 := rfl

@[simp] theorem report_definedVars (s : ConditionalState) (r : List String × Bool) :
    (s.report r).definedVars = s.definedVars := rfl

@[simp] theorem report_ifDefStack (s : ConditionalState) (r : List String × Bool) :
    (s.report r).ifDefStack = s.ifDefStack := rfl

@[simp] theorem report_raw (s : ConditionalState) (r : List String × Bool) :
    (s.report r).raw = r.2 := rfl

@[simp] theorem fail_errors_ne (s : ConditionalState) (error : String) (c : LineRest) :
    (s.fail error c).errors ≠ [] := by
  simp [fail]

@[simp] theorem failAtWord_errors_ne (s : ConditionalState) (error : String)
    (args : List LineToken) : (s.failAtWord error args).errors ≠ [] := by
  simp [failAtWord]

@[simp] theorem consumeWord_nil (s : ConditionalState) :
    s.consumeWord [] = ({ s with raw := false }, ⟨[], false⟩) := by
  simp [consumeWord, lookAt, report]

@[simp] theorem consumeWord_word (s : ConditionalState) (text : PlainWord)
    (rest : List LineToken) : s.consumeWord (.word text :: rest) =
      ({ s with raw := false }, ⟨.word text :: rest, false⟩) := by
  simp [consumeWord, lookAt, report]

@[simp] theorem consumeVariable_identifier (s : ConditionalState) (error : String) (atEnd : Bool)
    (var : Identifier) (after : List LineToken) (raw : Bool) :
    s.consumeVariable error atEnd ⟨.word (Identifier.word var) :: after, raw⟩ =
      .ok (var.1, ⟨after, true⟩) := by
  simp [consumeVariable, Identifier.word, var.2]

@[simp] theorem parseEndif_nil (s : ConditionalState) (b : Bool) (stack : List Bool)
    (hs : s.ifDefStack = b :: stack) :
    s.parseEndif [] = { s with ifDefStack := stack, raw := false } := by
  simp [parseEndif, hs]

theorem parseMacro_functional (s : ConditionalState) (name : FunctionalMacro)
    (args : List LineToken) (rest : List SourceLine) :
    s.parseMacro statement (some name.1) args rest =
      (rest, s.hand statement (.directive (some name.1) args)) := by
  obtain ⟨name, hname⟩ := name
  have hcases : ∀ n ∈ functionalMacros,
      n ≠ "ifdef" ∧ n ≠ "ifndef" ∧ n ≠ "else" ∧ n ≠ "endif" ∧ n ≠ "undef" := by decide
  obtain ⟨h1, h2, h3, h4, h5⟩ := hcases name.1 hname
  simp [parseMacro, h1, h2, h3, h4, h5, hname]

/-- The state that the parser keeps of what it has read. -/
def reading (s : ConditionalState) : ReadState := ⟨s.definedVars, s.raw⟩

/-- The state after some lines that are read. -/
def readOn (s : ConditionalState) (after : ReadState) (statements : List SourceLine)
    (errors : List String) : ConditionalState :=
  { s with definedVars := after.vars, raw := after.raw, handed := s.handed ++ statements,
           errors := s.errors ++ errors }

theorem parseTokens_plain (s : ConditionalState) (line : PlainLine) (rest : List SourceLine) :
    s.parseTokens statement (line.source :: rest) =
      (s.readOn (line.after statement s.reading) line.statements
        (line.readErrors statement s.reading)).parseTokens statement rest := by
  cases line with
  | text tokens =>
    rw [PlainLine.source, parseTokens]
    rfl
  | functional name args =>
    rw [PlainLine.source, parseTokens, parseMacro_functional]
    rfl
  | define var tokens =>
    rw [PlainLine.source, parseTokens, parseDefine, List.map_cons, consumeVariable_identifier]
    simp [readOn, PlainLine.after, PlainLine.statements, PlainLine.readErrors, reading]
  | undef var =>
    have hmacro : s.parseMacro statement (some ⟨"undef", by decide⟩)
        [.word (Identifier.word var)] rest =
        (rest, { s with definedVars := s.definedVars.erase var.1, raw := true }) := by
      simp [parseMacro, parseUndef]
    rw [PlainLine.source, parseTokens, hmacro]
    simp [readOn, PlainLine.after, PlainLine.statements, PlainLine.readErrors, reading]

theorem parseTokens_opening (s : ConditionalState) (negative : Bool) (var : Identifier)
    (rest : List SourceLine) :
    s.parseTokens statement (Blocks.opening negative var :: rest) =
      let selected := Blocks.selects s.definedVars negative var
      let t := { s with ifDefStack := selected :: s.ifDefStack, raw := true }
      if selected then t.parseTokens statement rest
      else (t.skipBranch rest).2.parseTokens statement (t.skipBranch rest).1 := by
  have hmacro : s.parseMacro statement (some (Blocks.openingName negative))
      [.word (Identifier.word var)] rest =
      s.parseIfdef negative [.word (Identifier.word var)] rest := by
    cases negative <;> simp [parseMacro, Blocks.openingName]
  rw [Blocks.opening, parseTokens, hmacro]
  simp only [parseIfdef, consumeWord_word, consumeVariable_identifier, ne_eq, not_true_eq_false,
    if_false, Blocks.selects]
  split <;> simp_all

theorem parseTokens_endif (s : ConditionalState) (b : Bool) (stack : List Bool)
    (rest : List SourceLine) (hs : s.ifDefStack = b :: stack) :
    s.parseTokens statement (Blocks.endifLine :: rest) =
      { s with ifDefStack := stack, raw := false }.parseTokens statement rest := by
  rw [Blocks.endifLine, parseTokens]
  simp [parseMacro, parseEndif_nil s b stack hs]

theorem parseTokens_else (s : ConditionalState) (b : Bool) (stack : List Bool)
    (rest : List SourceLine) (hs : s.ifDefStack = b :: stack) :
    s.parseTokens statement (Blocks.elseLine :: rest) =
      (({ s with raw := false }).skipElse rest).2.parseTokens statement
        (({ s with raw := false }).skipElse rest).1 := by
  rw [Blocks.elseLine, parseTokens]
  simp [parseMacro, parseElse, hs]

@[simp] theorem skipBranch_else (s : ConditionalState) (rest : List SourceLine) :
    s.skipBranch (Blocks.elseLine :: rest) = (rest, { s with raw := false }) := by
  simp [Blocks.elseLine, skipBranch, checkNewLine]

@[simp] theorem skipBranch_endif (s : ConditionalState) (rest : List SourceLine) :
    s.skipBranch (Blocks.endifLine :: rest) = (rest, s.parseEndif []) := by
  simp [Blocks.endifLine, skipBranch]

@[simp] theorem skipElse_endif (s : ConditionalState) (rest : List SourceLine) :
    s.skipElse (Blocks.endifLine :: rest) = (rest, s.parseEndif []) := by
  simp [Blocks.endifLine, skipElse]

/-- The name of a macro that stands in no block is neither `else` nor `endif`. -/
theorem functional_ne (name : FunctionalMacro) : name.1.1 ≠ "else" ∧ name.1.1 ≠ "endif" := by
  have hcases : ∀ n ∈ functionalMacros, n ≠ "else" ∧ n ≠ "endif" := by decide
  exact hcases name.1.1 name.2

theorem skipBranch_plain (s : ConditionalState) (line : PlainLine) (rest : List SourceLine) :
    s.skipBranch (line.source :: rest) = (s.skip line.source).skipBranch rest := by
  cases line with
  | functional name args => simp [PlainLine.source, skipBranch, functional_ne name]
  | _ => simp [PlainLine.source, skipBranch]

theorem skipElse_plain (s : ConditionalState) (line : PlainLine) (rest : List SourceLine) :
    s.skipElse (line.source :: rest) = (s.skip line.source).skipElse rest := by
  cases line with
  | functional name args => simp [PlainLine.source, skipElse, functional_ne name]
  | _ => simp [PlainLine.source, skipElse]

theorem skip_quiet {s : ConditionalState} {line : SourceLine}
    (h : (line.skip s.definedVars s.raw).1.isEmpty = true) :
    s.skip line = { s with raw := (line.skip s.definedVars s.raw).2 } := by
  simp [skip, report, List.isEmpty_iff.mp h]

/-- Lines that can be skipped change nothing but `raw`. -/
theorem skipBranch_skippable (s : ConditionalState) (body : Blocks)
    (h : body.skippable s.definedVars s.raw = true) (rest : List SourceLine) :
    ∃ raw, s.skipBranch (body.source ++ rest) = { s with raw := raw }.skipBranch rest := by
  induction body generalizing s with
  | nil => exact ⟨s.raw, rfl⟩
  | plain line body ih =>
    rw [Blocks.skippable, Bool.and_eq_true] at h
    rw [Blocks.source, List.cons_append, skipBranch_plain, skip_quiet h.1]
    exact ih { s with raw := _ } h.2
  | ifBlock => simp [Blocks.skippable] at h
  | ifElse => simp [Blocks.skippable] at h

theorem skipElse_skippable (s : ConditionalState) (body : Blocks)
    (h : body.skippable s.definedVars s.raw = true) (rest : List SourceLine) :
    ∃ raw, s.skipElse (body.source ++ rest) = { s with raw := raw }.skipElse rest := by
  induction body generalizing s with
  | nil => exact ⟨s.raw, rfl⟩
  | plain line body ih =>
    rw [Blocks.skippable, Bool.and_eq_true] at h
    rw [Blocks.source, List.cons_append, skipElse_plain, skip_quiet h.1]
    exact ih { s with raw := _ } h.2
  | ifBlock => simp [Blocks.skippable] at h
  | ifElse => simp [Blocks.skippable] at h

/-- Readable blocks leave the stack as it was, report no error, and hand on the selected
statements. -/
theorem parseTokens_readable (blocks : Blocks) (s : ConditionalState)
    (h : blocks.readable statement s.reading = true) (rest : List SourceLine) :
    s.parseTokens statement (blocks.source ++ rest) =
      (s.readOn (blocks.after statement s.reading) (blocks.selected statement s.reading)
        []).parseTokens statement rest := by
  induction blocks generalizing s rest with
  | nil => simp [Blocks.source, Blocks.after, Blocks.selected, readOn, reading]
  | plain line blocks ih =>
    rw [Blocks.readable, Bool.and_eq_true] at h
    rw [Blocks.source, List.cons_append, parseTokens_plain, List.isEmpty_iff.mp h.1,
      ih _ (by exact h.2)]
    simp [Blocks.after, Blocks.selected, readOn, reading]
  | ifBlock negative var body blocks ihBody ihRest =>
    simp only [Blocks.source, List.cons_append, List.append_assoc, parseTokens_opening]
    simp only [Blocks.readable] at h
    by_cases hsel : Blocks.selects s.definedVars negative var = true
    · have hsel' : Blocks.selects s.reading.vars negative var = true := hsel
      simp only [hsel, hsel', if_true, Bool.and_eq_true] at h ⊢
      rw [ihBody _ (by exact h.1), parseTokens_endif _ true s.ifDefStack _ rfl,
        ihRest _ (by exact h.2)]
      simp [Blocks.after, Blocks.selected, hsel, readOn, reading]
    · have hsel' : ¬ Blocks.selects s.reading.vars negative var = true := hsel
      simp only [hsel, hsel', Bool.false_eq_true, if_false, Bool.and_eq_true] at h ⊢
      obtain ⟨raw, hskip⟩ := skipBranch_skippable
        { s with ifDefStack := false :: s.ifDefStack, raw := true } body h.1
        (Blocks.endifLine :: (blocks.source ++ rest))
      rw [hskip, skipBranch_endif, parseEndif_nil _ false s.ifDefStack rfl,
        ihRest _ (by exact h.2)]
      simp [Blocks.after, Blocks.selected, hsel, readOn, reading]
  | ifElse negative var body alternative blocks ihBody ihAlternative ihRest =>
    simp only [Blocks.source, List.cons_append, List.append_assoc, parseTokens_opening]
    simp only [Blocks.readable] at h
    by_cases hsel : Blocks.selects s.definedVars negative var = true
    · have hsel' : Blocks.selects s.reading.vars negative var = true := hsel
      simp only [hsel, hsel', if_true, Bool.and_eq_true] at h ⊢
      rw [ihBody _ (by exact h.1.1), parseTokens_else _ true s.ifDefStack _ rfl]
      obtain ⟨raw, hskip⟩ := skipElse_skippable { ({ s with
          ifDefStack := true :: s.ifDefStack, raw := true } : ConditionalState).readOn
            (body.after statement ⟨s.definedVars, true⟩)
            (body.selected statement ⟨s.definedVars, true⟩) [] with raw := false }
        alternative h.1.2 (Blocks.endifLine :: (blocks.source ++ rest))
      rw [show ({ s with ifDefStack := true :: s.ifDefStack, raw := true } :
        ConditionalState).reading = ⟨s.definedVars, true⟩ from rfl, hskip, skipElse_endif,
        parseEndif_nil _ true s.ifDefStack rfl, ihRest _ (by exact h.2)]
      simp [Blocks.after, Blocks.selected, hsel, readOn, reading]
    · have hsel' : ¬ Blocks.selects s.reading.vars negative var = true := hsel
      simp only [hsel, hsel', Bool.false_eq_true, if_false, Bool.and_eq_true] at h ⊢
      obtain ⟨raw, hskip⟩ := skipBranch_skippable
        { s with ifDefStack := false :: s.ifDefStack, raw := true } body h.1.1
        (Blocks.elseLine :: (alternative.source ++ Blocks.endifLine :: (blocks.source ++ rest)))
      rw [hskip, skipBranch_else, ihAlternative _ (by exact h.1.2),
        parseTokens_endif _ false s.ifDefStack _ rfl, ihRest _ (by exact h.2)]
      simp [Blocks.after, Blocks.selected, hsel, readOn, reading]

end ConditionalState

end TomitaParser
