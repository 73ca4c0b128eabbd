import Mathlib.Data.Int.Order.Basic
import Mathlib.Logic.Function.Iterate
/-! # Substitution of variables

The tokenizer that puts the tokens of a variable in the place of a use of it. What was read ahead
and turned out to be no use of a variable is read again from the same queue. -/

namespace TomitaParser

/-- The types of tokens that the tokenizer tells apart. -/
inductive TokenKind where
  | identifier | other | atEnd
deriving DecidableEq, Repr

/-- A token without its place. -/
structure Lexeme where
  text : String
  kind : TokenKind
deriving DecidableEq, Repr

structure Token where
  lexeme : Lexeme
  line : ℤ
  column : ℤ
deriving DecidableEq, Repr

abbrev TokenVars := List (String × List Token)

namespace Token

def text (t : Token) : String := t.lexeme.text

/-- The column after a token. -/
def stop (t : Token) : ℤ := t.column + t.text.utf8ByteSize

/-- A token stands right after a place. -/
def AdjacentTo (t : Token) (line stop : ℤ) : Prop := t.line = line ∧ t.column ≤ stop

instance (t : Token) (line stop : ℤ) : Decidable (t.AdjacentTo line stop) :=
  inferInstanceAs (Decidable (_ ∧ _))

end Token

/-- `TSubstTokenizer` over the tokens that are still to be read from the file. `currentIndex` tells
whether the current token is one of the queue. -/
structure SubstTokenizer where
  slave : List Token
  endToken : Token
  current : Token
  currentIndex : Option ℕ := none
  prevTokenLine : ℤ := -1
  prevTokenColumnStop : ℤ := 0
  nextColumnOffset : ℤ := 0
  substTokens : List Token := []
  substIndex : ℕ := 0
  substOffset : ℤ := 0
  errors : List String := []

namespace SubstTokenizer

/-- `StoreCurrentPosition`. -/
def storeCurrentPosition (s : SubstTokenizer) : SubstTokenizer :=
  { s with prevTokenLine := s.current.line,
           prevTokenColumnStop := s.current.stop + s.nextColumnOffset,
           nextColumnOffset := 0 }

/-- `TTokenizer::Next`. -/
def baseNext (s : SubstTokenizer) : SubstTokenizer :=
  let s := s.storeCurrentPosition
  { s with current := s.slave.headD s.endToken, currentIndex := none, slave := s.slave.tail }

/-- `SubstNext`: the last token of the queue remembers how much longer the source was. -/
def substNext (s : SubstTokenizer) : SubstTokenizer :=
  { s.storeCurrentPosition with
    nextColumnOffset := if s.substIndex + 1 = s.substTokens.length then s.substOffset else 0
    current := s.substTokens.getD s.substIndex s.endToken
    currentIndex := some s.substIndex
    substIndex := s.substIndex + 1 }

/-- `TSubstTokenizer::Next`. -/
def next (s : SubstTokenizer) : SubstTokenizer :=
  if s.substTokens.length ≤ s.substIndex then s.baseNext else s.substNext

def lookingAt (s : SubstTokenizer) (text : String) : Bool := s.current.text == text

def atSameLine (s : SubstTokenizer) : Bool := s.current.line == s.prevTokenLine

def spaceBefore (s : SubstTokenizer) : ℤ :=
  if s.atSameLine then max 0 (s.current.column - s.prevTokenColumnStop)
  else max 0 s.current.column

def adjacentToPrevious (s : SubstTokenizer) : Bool := s.atSameLine && s.spaceBefore == 0

def addError (s : SubstTokenizer) (error : String) : SubstTokenizer :=
  { s with errors := s.errors ++ [error] }

/-- The place that a token of a substitution gets. -/
def placeAt (fromToken first t : Token) : Token :=
  { t with line := fromToken.line, column := fromToken.column + t.column - first.column }

/-- The end of `SubstFrom`: the space before the first token is the one before the substitution. -/
def restoreSpaceBefore (s : SubstTokenizer) (spaceBefore : ℤ) : SubstTokenizer :=
  { s with prevTokenColumnStop :=
      if s.atSameLine then s.current.column - spaceBefore else s.current.column }

/-- `SubstFrom`. -/
def substFrom (s : SubstTokenizer) (fromToken : Token) (spaceBefore : ℤ) (subst : List Token) :
    Bool × SubstTokenizer :=
  -- do not allow insertion to the middle
  if s.substIndex < s.substTokens.length then (false, s)
  else
    let kept :=
      if s.substTokens ≠ [] ∧ s.currentIndex ≠ some (s.substTokens.length - 1) then []
      else s.substTokens
    let origLen := s.current.stop - fromToken.column
    let placed := subst.map (placeAt fromToken (subst.headD fromToken))
    let substLen :=
      match subst.getLast? with
      | none => 0
      | some last => last.stop - (subst.headD fromToken).column
    let s := { s with substIndex := kept.length, substTokens := kept ++ placed,
                      substOffset := origLen - substLen }
    (true, s.next.restoreSpaceBefore spaceBefore)

/-- `TryConsumeVariableAndReplace`. -/
def tryConsumeVariableAndReplace (vars : TokenVars) (s : SubstTokenizer) : SubstTokenizer :=
  if s.lookingAt "$" then
    let dollar := s.current
    let space := s.spaceBefore
    let s := s.next
    let second := s.current
    if s.lookingAt "\x7b" && s.adjacentToPrevious then
      let s := s.next
      let third := s.current
      if third.lexeme.kind = .identifier then
        if !s.adjacentToPrevious then s.addError
          "Expected variable name immediately after opening brace, e.g. \"$\x7bvarname\x7d\"."
        else
          -- `ConsumeIdentifier` calls `TTokenizer::Next`, which is not virtual
          let s := s.baseNext
          match vars.lookup third.text with
          | some value =>
            if !(s.lookingAt "\x7d" && s.adjacentToPrevious) then s.addError
              "Expected closing brace immediately after variable name, e.g. \"$\x7bvarname\x7d\"."
            else
              let r := s.substFrom dollar space value
              if r.1 then r.2 else r.2.addError "Nested substitutions are not allowed."
          | none => s.addError ("Undefined variable $\x7b" ++ third.text ++
              "\x7d. Use #define macro to define substitution variables.")
      else (s.substFrom dollar space [dollar, second, third]).2
    else (s.substFrom dollar space [dollar, second]).2
  else s

/-- `NextToken`. -/
def nextToken (vars : TokenVars) (s : SubstTokenizer) : SubstTokenizer :=
  tryConsumeVariableAndReplace vars s.next

/-- `Start`: the first token comes from the file as it is. -/
def start (tokens : List Token) (endToken : Token) : SubstTokenizer :=
  let s : SubstTokenizer := { slave := tokens, endToken := endToken, current := endToken }
  { s.baseNext with prevTokenLine := -1, prevTokenColumnStop := 0 }

/-- The token that the parser looks at after some calls of `NextToken`. -/
def seen (vars : TokenVars) (tokens : List Token) (endToken : Token) (calls : ℕ) : Lexeme :=
  ((nextToken vars)^[calls] (start tokens endToken)).current.lexeme

end SubstTokenizer

namespace Token

/-- Two tokens stand next to each other in the source. -/
def Adjacent (a b : Token) : Prop := b.AdjacentTo a.line a.stop

instance (a b : Token) : Decidable (a.Adjacent b) := inferInstanceAs (Decidable (b.AdjacentTo _ _))

end Token

/-- The value of a variable that is used at the start of some tokens, and the tokens after the use:
a dollar, a brace, the name of a defined variable and a brace, next to each other. -/
def variableUse (vars : TokenVars) : List Token → Option (List Token × List Token)
  | dollar :: opening :: name :: closing :: rest =>
    if dollar.text = "$" ∧ opening.text = "\x7b" ∧ dollar.Adjacent opening ∧
        name.lexeme.kind = .identifier ∧ opening.Adjacent name ∧ closing.text = "\x7d" ∧
        name.Adjacent closing then
      (vars.lookup name.text).map fun value => (value, rest)
    else none
  | _ => none

theorem variableUse_length {vars : TokenVars} {tokens value rest : List Token}
    (h : variableUse vars tokens = some (value, rest)) : rest.length < tokens.length := by
  unfold variableUse at h
  split at h
  · split at h
    · simp only [Option.map_eq_some_iff, Prod.mk.injEq] at h
      obtain ⟨_, _, _, rfl⟩ := h
      simp only [List.length_cons]
      omega
    · cases h
  · cases h

/-- The tokens with every use of a variable replaced by its value. -/
def replaceVariables (vars : TokenVars) (tokens : List Token) : List Lexeme :=
  match _h : variableUse vars tokens with
  | some (value, rest) => value.map (·.lexeme) ++ replaceVariables vars rest
  | none =>
    match tokens with
    | [] => []
    | t :: rest => t.lexeme :: replaceVariables vars rest
termination_by tokens.length
decreasing_by
  · exact variableUse_length _h
  · simp

/-- The start of a use of a variable: a dollar, a brace and a name, where the brace is next to the
dollar if the dollar is at the line `line`. -/
def startsUse (line : ℤ) : List Token → Bool
  | dollar :: opening :: name :: _ =>
    decide (dollar.text = "$" ∧ opening.text = "\x7b" ∧ name.lexeme.kind = .identifier ∧
      opening.AdjacentTo line dollar.stop)
  | _ => false

/-- The line of a dollar that was read ahead together with an earlier one is that one's. -/
def nextCarry (line : ℤ) : List Token → Option ℤ × List Token
  | dollar :: opening :: rest =>
    if opening.text = "\x7b" ∧ opening.AdjacentTo line dollar.stop then (some line, rest)
    else (some line, opening :: rest)
  | tokens => (none, tokens.tail)

theorem nextCarry_length (line : ℤ) (t : Token) (rest : List Token) :
    (nextCarry line (t :: rest)).2.length < (t :: rest).length := by
  cases rest with
  | nil => simp [nextCarry]
  | cons opening rest =>
    rw [nextCarry]
    split
    · simp only [List.length_cons]
      omega
    · simp

/-- What the tokenizer replaces without an error. Every start of a use is a use of a defined
variable, and no use is one that the tokenizer misses: right after a variable without tokens, or
with a dollar that was read ahead from an earlier line (`carry`). -/
def Replaceable (vars : TokenVars) (carry : Option ℤ) (tokens : List Token) : Prop :=
  match tokens with
  | [] => True
  | t :: rest =>
    if t.text ≠ "$" then Replaceable vars none rest
    else if startsUse (carry.getD t.line) (t :: rest) then
      match _h : variableUse vars (t :: rest) with
      | some (value, after) =>
        (value = [] → variableUse vars after = none ∧ Replaceable vars none after.tail) ∧
          (value ≠ [] → Replaceable vars none after)
      | none => False
    else
      variableUse vars (t :: rest) = none ∧
        Replaceable vars (nextCarry (carry.getD t.line) (t :: rest)).1
          (nextCarry (carry.getD t.line) (t :: rest)).2
termination_by tokens.length
decreasing_by
  · simp
  · have := variableUse_length _h
    simp only [List.length_tail]
    omega
  · exact variableUse_length _h
  · exact nextCarry_length _ t rest

/-- The first token of a file is not looked at, so it must not start a use of a variable. -/
def ReplaceableFile (vars : TokenVars) (tokens : List Token) : Prop :=
  variableUse vars tokens = none ∧ Replaceable vars none tokens.tail

/-- The lexeme at the end of a file. -/
def endLexeme : Lexeme := ⟨"", .atEnd⟩

/-- Lexemes that go on with the end of the file. -/
def padded (lexemes : List Lexeme) (k : ℕ) : Lexeme := lexemes.getD k endLexeme

@[simp] theorem padded_nil (k : ℕ) : padded [] k = endLexeme := rfl

@[simp] theorem padded_cons_zero (l : Lexeme) (lexemes : List Lexeme) :
    padded (l :: lexemes) 0 = l := rfl

@[simp] theorem padded_cons_succ (l : Lexeme) (lexemes : List Lexeme) (k : ℕ) :
    padded (l :: lexemes) (k + 1) = padded lexemes k := rfl

theorem padded_end (k : ℕ) : padded [endLexeme] k = endLexeme := by
  cases k <;> rfl

theorem replaceVariables_nil (vars : TokenVars) : replaceVariables vars [] = [] := by
  rw [replaceVariables]
  rfl

theorem variableUse_none_of_head {vars : TokenVars} {t : Token} {rest : List Token}
    (h : t.text ≠ "$") : variableUse vars (t :: rest) = none := by
  unfold variableUse
  split
  · rename_i heq
    simp only [List.cons.injEq] at heq
    rw [if_neg]
    rintro ⟨hd, -⟩
    exact h (heq.1 ▸ hd)
  · rfl

theorem replaceVariables_of_none {vars : TokenVars} {t : Token} {rest : List Token}
    (h : variableUse vars (t :: rest) = none) :
    replaceVariables vars (t :: rest) = t.lexeme :: replaceVariables vars rest := by
  rw [replaceVariables]
  split
  · rename_i heq
    rw [h] at heq
    cases heq
  · rfl

theorem replaceVariables_of_some {vars : TokenVars} {tokens value rest : List Token}
    (h : variableUse vars tokens = some (value, rest)) :
    replaceVariables vars tokens = value.map (·.lexeme) ++ replaceVariables vars rest := by
  rw [replaceVariables]
  split
  · rename_i heq
    rw [h] at heq
    cases heq
    rfl
  · rename_i heq
    rw [h] at heq
    cases heq

theorem replaceable_nil (vars : TokenVars) (carry : Option ℤ) : Replaceable vars carry [] := by
  rw [Replaceable]
  trivial

theorem Replaceable.of_ne {vars : TokenVars} {carry : Option ℤ} {t : Token} {rest : List Token}
    (h : Replaceable vars carry (t :: rest)) (ht : t.text ≠ "$") : Replaceable vars none rest := by
  rw [Replaceable, if_pos ht] at h
  exact h

theorem Replaceable.of_use {vars : TokenVars} {carry : Option ℤ} {t : Token} {rest : List Token}
    (h : Replaceable vars carry (t :: rest)) (ht : t.text = "$")
    (hstart : startsUse (carry.getD t.line) (t :: rest) = true) :
    ∃ value after, variableUse vars (t :: rest) = some (value, after) ∧
      (value = [] → ReplaceableFile vars after) ∧ (value ≠ [] → Replaceable vars none after) := by
  rw [Replaceable, if_neg (not_not_intro ht), if_pos hstart] at h
  split at h
  · rename_i value after heq
    exact ⟨value, after, heq, h⟩
  · cases h

theorem replaceable_of_use {vars : TokenVars} {t : Token} {rest value after : List Token}
    (ht : t.text = "$") (hstart : startsUse t.line (t :: rest) = true)
    (huse : variableUse vars (t :: rest) = some (value, after)) (hvalue : value ≠ [])
    (hafter : Replaceable vars none after) : Replaceable vars none (t :: rest) := by
  rw [Replaceable, if_neg (not_not_intro ht), Option.getD_none, if_pos hstart]
  split
  · rename_i heq
    rw [huse] at heq
    cases heq
    exact ⟨fun h => absurd h hvalue, fun _ => hafter⟩
  · rename_i heq
    rw [huse] at heq
    cases heq

theorem Replaceable.of_ahead {vars : TokenVars} {carry : Option ℤ} {t : Token} {rest : List Token}
    (h : Replaceable vars carry (t :: rest)) (ht : t.text = "$")
    (hstart : startsUse (carry.getD t.line) (t :: rest) = false) :
    variableUse vars (t :: rest) = none ∧
      Replaceable vars (nextCarry (carry.getD t.line) (t :: rest)).1
      (nextCarry (carry.getD t.line) (t :: rest)).2 := by
  rw [Replaceable, if_neg (not_not_intro ht), if_neg (by simp [hstart])] at h
  exact h

theorem variableUse_some {vars : TokenVars} {t : Token} {rest value after : List Token}
    (h : variableUse vars (t :: rest) = some (value, after)) :
    ∃ opening name closing, rest = opening :: name :: closing :: after ∧ t.text = "$" ∧
      opening.text = "\x7b" ∧ t.Adjacent opening ∧ name.lexeme.kind = .identifier ∧
      opening.Adjacent name ∧ closing.text = "\x7d" ∧ name.Adjacent closing ∧
      vars.lookup name.text = some value := by
  unfold variableUse at h
  split at h
  · rename_i dollar opening name closing rest' heq
    simp only [List.cons.injEq] at heq
    obtain ⟨rfl, rfl⟩ := heq
    split at h
    · rename_i hcond
      simp only [Option.map_eq_some_iff, Prod.mk.injEq] at h
      obtain ⟨_, hlookup, rfl, rfl⟩ := h
      obtain ⟨h1, h2, h3, h4, h5, h6, h7⟩ := hcond
      exact ⟨opening, name, closing, rfl, h1, h2, h3, h4, h5, h6, h7, hlookup⟩
    · cases h
  · cases h

namespace SubstTokenizer

theorem adjacentToPrevious_iff (s : SubstTokenizer) :
    s.adjacentToPrevious = true ↔ s.current.AdjacentTo s.prevTokenLine s.prevTokenColumnStop := by
  simp only [adjacentToPrevious, atSameLine, spaceBefore, Token.AdjacentTo, Bool.and_eq_true,
    beq_iff_eq]
  constructor
  · rintro ⟨hline, hspace⟩
    rw [if_pos hline] at hspace
    exact ⟨hline, by omega⟩
  · rintro ⟨hline, hcolumn⟩
    rw [if_pos hline]
    exact ⟨hline, by omega⟩

/-- What is still to come: the rest of the queue, whose last token may be a dollar that was read
ahead, and then the file. -/
def Pending (vars : TokenVars) (s : SubstTokenizer) (out : ℕ → Lexeme) : Prop :=
  s.endToken.lexeme = endLexeme ∧
  ((∃ queue, s.substTokens.drop s.substIndex = queue ∧ (∀ t ∈ queue, t.text ≠ "$") ∧
      (∀ k, out k = padded (queue.map (·.lexeme) ++ replaceVariables vars s.slave) k) ∧
      Replaceable vars none s.slave) ∨
    ∃ before copy dollar, s.substTokens.drop s.substIndex = before ++ [copy] ∧
      (∀ t ∈ before, t.text ≠ "$") ∧ copy.text = "$" ∧ dollar.lexeme = copy.lexeme ∧
      dollar.column = copy.column ∧ s.substOffset = 0 ∧
      (∀ k, out k =
        padded (before.map (·.lexeme) ++ replaceVariables vars (dollar :: s.slave)) k) ∧
      Replaceable vars (some copy.line) (dollar :: s.slave))

/-- After a call: the token that is looked at is the next one, and the others are to come. -/
def Shows (vars : TokenVars) (s : SubstTokenizer) (out : ℕ → Lexeme) : Prop :=
  s.current.lexeme = out 0 ∧ Pending vars s fun k => out (k + 1)

theorem substFrom_nil (s : SubstTokenizer) (fromToken : Token) (space : ℤ)
    (hqueue : s.substTokens.length ≤ s.substIndex) (hfile : s.currentIndex = none) :
    let r := s.substFrom fromToken space []
    r.1 = true ∧ r.2.endToken = s.endToken ∧ r.2.current = s.slave.headD s.endToken ∧
      r.2.slave = s.slave.tail ∧ r.2.substTokens.drop r.2.substIndex = [] := by
  have hkept : (if s.substTokens ≠ [] ∧ s.currentIndex ≠ some (s.substTokens.length - 1) then []
      else s.substTokens) = [] := by
    by_cases hnil : s.substTokens = []
    · simp [hnil]
    · simp [hnil, hfile]
  have hnot : ¬s.substIndex < s.substTokens.length := by omega
  simp only [substFrom, hnot, if_false, hkept]
  simp only [next, List.length_nil, List.map_nil, List.append_nil, Nat.le_refl, if_true, baseNext,
    storeCurrentPosition]
  exact ⟨trivial, rfl, rfl, rfl, rfl⟩

theorem substFrom_cons (s : SubstTokenizer) (fromToken : Token) (space : ℤ) (t : Token)
    (subst : List Token) (hqueue : s.substTokens.length ≤ s.substIndex)
    (hfile : s.currentIndex = none) :
    let r := s.substFrom fromToken space (t :: subst)
    r.1 = true ∧ r.2.endToken = s.endToken ∧ r.2.current.lexeme = t.lexeme ∧
      r.2.slave = s.slave ∧
      r.2.substTokens.drop r.2.substIndex = subst.map (placeAt fromToken t) ∧
      r.2.substOffset = s.current.stop - fromToken.column -
        (((t :: subst).getLast (by simp)).stop - t.column) := by
  have hkept : (if s.substTokens ≠ [] ∧ s.currentIndex ≠ some (s.substTokens.length - 1) then []
      else s.substTokens) = [] := by
    by_cases hnil : s.substTokens = []
    · simp [hnil]
    · simp [hnil, hfile]
  have hnot : ¬s.substIndex < s.substTokens.length := by omega
  simp only [substFrom, hnot, if_false, hkept]
  have hlast : (t :: subst).getLast? = some ((t :: subst).getLast (by simp)) :=
    List.getLast?_eq_some_getLast (by simp)
  simp only [hlast, next, List.length_nil, List.nil_append, List.length_map, List.length_cons,
    List.map_cons, substNext, storeCurrentPosition, List.headD_cons]
  exact ⟨trivial, rfl, rfl, rfl, rfl, rfl⟩

theorem tryConsume_of_ne {vars : TokenVars} {s : SubstTokenizer}
    (h : s.current.text ≠ "$") : tryConsumeVariableAndReplace vars s = s := by
  rw [tryConsumeVariableAndReplace, if_neg]
  simpa [lookingAt] using h

/-- The tokenizer stands at a dollar, with nothing in the queue. The dollar is the one of the file,
up to its line. -/
structure AtDollar (s : SubstTokenizer) (dollar : Token) : Prop where
  queue : s.substTokens.length ≤ s.substIndex
  offset : s.nextColumnOffset = 0
  current : s.current.lexeme = dollar.lexeme
  column : s.current.column = dollar.column
  text : dollar.text = "$"
  ends : s.endToken.lexeme = endLexeme

theorem next_of_queue {s : SubstTokenizer} (h : s.substTokens.length ≤ s.substIndex) :
    s.next = s.baseNext := if_pos h

@[simp] theorem baseNext_current (s : SubstTokenizer) :
    s.baseNext.current = s.slave.headD s.endToken := rfl

@[simp] theorem baseNext_slave (s : SubstTokenizer) : s.baseNext.slave = s.slave.tail := rfl

@[simp] theorem baseNext_endToken (s : SubstTokenizer) : s.baseNext.endToken = s.endToken := rfl

@[simp] theorem baseNext_substTokens (s : SubstTokenizer) :
    s.baseNext.substTokens = s.substTokens := rfl

@[simp] theorem baseNext_substIndex (s : SubstTokenizer) :
    s.baseNext.substIndex = s.substIndex := rfl

@[simp] theorem baseNext_currentIndex (s : SubstTokenizer) : s.baseNext.currentIndex = none := rfl

@[simp] theorem baseNext_nextColumnOffset (s : SubstTokenizer) :
    s.baseNext.nextColumnOffset = 0 := rfl

theorem baseNext_adjacent (s : SubstTokenizer) (h : s.nextColumnOffset = 0) :
    s.baseNext.adjacentToPrevious = true ↔
      (s.slave.headD s.endToken).AdjacentTo s.current.line s.current.stop := by
  rw [adjacentToPrevious_iff]
  simp [baseNext, storeCurrentPosition, h]

theorem substFrom_ahead {s : SubstTokenizer} {dollar : Token} (space : ℤ) (ahead : List Token)
    (hqueue : s.substTokens.length ≤ s.substIndex) (hfile : s.currentIndex = none)
    (hlast : ∀ t ∈ ahead.getLast?, s.current = t) (hne : ahead ≠ []) :
    let r := (s.substFrom dollar space (dollar :: ahead)).2
    r.endToken = s.endToken ∧ r.current.lexeme = dollar.lexeme ∧ r.slave = s.slave ∧
      r.substTokens.drop r.substIndex = ahead.map (fun t => { t with line := dollar.line }) ∧
      r.substOffset = 0 := by
  obtain ⟨-, hend, hcurrent, hslave, hdrop, hoffset⟩ :=
    substFrom_cons s dollar space dollar ahead hqueue hfile
  refine ⟨hend, hcurrent, hslave, ?_, ?_⟩
  · rw [hdrop]
    apply List.map_congr_left
    intro t _
    simp only [placeAt, Token.mk.injEq, true_and]
    omega
  · rw [hoffset]
    have hcur : s.current = (dollar :: ahead).getLast (by simp) := by
      rw [List.getLast_cons hne]
      exact hlast _ (List.getLast?_eq_some_getLast hne)
    rw [hcur]
    omega

/-- The variables hold no dollar. -/
def DollarFree (vars : TokenVars) : Prop :=
  ∀ name value, vars.lookup name = some value → ∀ t ∈ value, t.text ≠ "$"

/-- The value of a variable is shown in the place of its use. -/
theorem substFrom_shows {vars : TokenVars} (hvars : DollarFree vars) {s : SubstTokenizer}
    {name : String} {value : List Token} (hlookup : vars.lookup name = some value)
    (fromToken : Token) (space : ℤ) (hqueue : s.substTokens.length ≤ s.substIndex)
    (hfile : s.currentIndex = none) (hend : s.endToken.lexeme = endLexeme)
    (hempty : value = [] → ReplaceableFile vars s.slave)
    (hrest : value ≠ [] → Replaceable vars none s.slave) :
    (s.substFrom fromToken space value).1 = true ∧
      Shows vars (s.substFrom fromToken space value).2
        (padded (value.map (·.lexeme) ++ replaceVariables vars s.slave)) := by
  cases value with
  | nil =>
    obtain ⟨hok, hend', hcurrent, hslave, hdrop⟩ := substFrom_nil s fromToken space hqueue hfile
    obtain ⟨huse, hafter⟩ := hempty rfl
    refine ⟨hok, ?_, by rw [hend', hend], .inl ⟨[], hdrop, by simp, ?_, ?_⟩⟩
    · rw [hcurrent]
      cases hs : s.slave with
      | nil => simp [replaceVariables_nil, hend]
      | cons t rest =>
        rw [hs] at huse
        simp [replaceVariables_of_none huse]
    · intro k
      rw [hslave]
      cases hs : s.slave with
      | nil => simp [replaceVariables_nil]
      | cons t rest =>
        rw [hs] at huse
        simp [replaceVariables_of_none huse]
    · rw [hslave]
      exact hafter
  | cons v value =>
    obtain ⟨hok, hend', hcurrent, hslave, hdrop, -⟩ :=
      substFrom_cons s fromToken space v value hqueue hfile
    refine ⟨hok, ?_, by rw [hend', hend], .inl ⟨_, hdrop, ?_, ?_, ?_⟩⟩
    · rw [hcurrent]
      rfl
    · intro t ht
      obtain ⟨u, hu, rfl⟩ := List.mem_map.mp ht
      exact hvars name _ hlookup u (List.mem_cons_of_mem _ hu)
    · intro k
      rw [hslave]
      simp [placeAt, Function.comp_def]
    · rw [hslave]
      exact hrest (by simp)

/-- What was read ahead is shown again, after the dollar. -/
theorem ahead_shows {vars : TokenVars} {s : SubstTokenizer} {dollar current : Token}
    {ahead rest : List Token} (space : ℤ)
    (hqueue : s.substTokens.length ≤ s.substIndex) (hfile : s.currentIndex = none)
    (hend : s.endToken.lexeme = endLexeme) (hcurrent : current.lexeme = dollar.lexeme)
    (hslave : s.slave = rest) (t : Token) (hlast : s.current = t)
    (hahead : ∀ u ∈ ahead, u.text ≠ "$")
    (hcase : (t.text ≠ "$" ∧ Replaceable vars none rest ∧
        ∀ k, padded ((ahead ++ [t]).map (·.lexeme) ++ replaceVariables vars rest) k =
          padded (ahead.map (·.lexeme) ++ replaceVariables vars (t :: rest)) k) ∨
      (t.text = "$" ∧ Replaceable vars (some current.line) (t :: rest))) :
    Shows vars (s.substFrom current space (current :: (ahead ++ [t]))).2
      (padded (dollar.lexeme :: (ahead.map (·.lexeme) ++ replaceVariables vars (t :: rest)))) := by
  obtain ⟨hend', hcur, hslave', hdrop, hoffset⟩ := @substFrom_ahead s current space (ahead ++ [t])
    hqueue hfile (by simpa using hlast) (by simp)
  refine ⟨by rw [hcur, hcurrent]; rfl, by rw [hend', hend], ?_⟩
  rw [List.map_append] at hdrop
  rcases hcase with ⟨ht, hrest, hout⟩ | ⟨ht, hrest⟩
  · refine .inl ⟨_, hdrop, ?_, ?_, ?_⟩
    · intro u hu
      rw [← List.map_append] at hu
      obtain ⟨w, hw, rfl⟩ := List.mem_map.mp hu
      rcases List.mem_append.mp hw with hw | hw
      · exact hahead w hw
      · rw [List.mem_singleton.mp hw]
        exact ht
    · intro k
      rw [hslave', hslave]
      simp only [padded_cons_succ]
      rw [← hout k]
      simp [Function.comp_def]
    · rw [hslave', hslave]
      exact hrest
  · refine .inr ⟨_, { t with line := current.line }, t, hdrop, ?_, ht, rfl, rfl, hoffset, ?_, ?_⟩
    · intro u hu
      obtain ⟨w, hw, rfl⟩ := List.mem_map.mp hu
      exact hahead w hw
    · intro k
      rw [hslave', hslave]
      simp only [padded_cons_succ]
      simp [Function.comp_def]
    · rw [hslave', hslave]
      exact hrest

theorem Shows.congr {vars : TokenVars} {s : SubstTokenizer} {out out' : ℕ → Lexeme}
    (h : Shows vars s out) (heq : ∀ k, out k = out' k) : Shows vars s out' := by
  have : out = out' := funext heq
  exact this ▸ h

theorem padded_append_end (lexemes : List Lexeme) (k : ℕ) :
    padded (lexemes ++ [endLexeme]) k = padded lexemes k := by
  induction lexemes generalizing k with
  | nil => exact padded_end k
  | cons l lexemes ih =>
    cases k with
    | zero => rfl
    | succ k => exact ih k

theorem replaceVariables_end {vars : TokenVars} {t : Token} (h : t.lexeme = endLexeme) :
    replaceVariables vars [t] = [endLexeme] := by
  rw [replaceVariables_of_none rfl, replaceVariables_nil, h]

theorem ahead_text {vars : TokenVars} {carry : Option ℤ} {t : Token} {rest : List Token}
    (h : Replaceable vars carry (t :: rest)) (lexemes : List Lexeme) :
    (t.text ≠ "$" ∧ Replaceable vars none rest ∧
      ∀ k, padded (lexemes ++ [t.lexeme] ++ replaceVariables vars rest) k =
        padded (lexemes ++ replaceVariables vars (t :: rest)) k) ∨
    (t.text = "$" ∧ Replaceable vars carry (t :: rest)) := by
  by_cases ht : t.text = "$"
  · exact .inr ⟨ht, h⟩
  · refine .inl ⟨ht, h.of_ne ht, ?_⟩
    intro k
    rw [replaceVariables_of_none (variableUse_none_of_head ht), List.append_assoc]
    rfl

/-- At a dollar of the file the tokenizer shows what replacement makes of the rest of the file. -/
theorem tryConsume_dollar {vars : TokenVars} (hvars : DollarFree vars) {s : SubstTokenizer}
    {dollar : Token} (h : AtDollar s dollar)
    (hgood : Replaceable vars (some s.current.line) (dollar :: s.slave)) :
    Shows vars (tryConsumeVariableAndReplace vars s)
      (padded (replaceVariables vars (dollar :: s.slave))) := by
  have hdollar : s.current.text = "$" := by
    rw [Token.text, h.current]
    exact h.text
  have hstop : s.current.stop = dollar.stop := by
    simp only [Token.stop, Token.text, h.current, h.column]
  have hadjacent := baseNext_adjacent s h.offset
  rw [hstop] at hadjacent
  rw [tryConsumeVariableAndReplace, if_pos (by simpa [lookingAt] using hdollar),
    next_of_queue h.queue]
  generalize hline : s.current.line = line at hgood hadjacent
  have hendText : s.endToken.text = "" := by
    rw [Token.text, h.ends]
    rfl
  cases hslave : s.slave with
  | nil =>
    have hcurrent : s.baseNext.current = s.endToken := by simp [hslave]
    have hlook : s.baseNext.lookingAt "\x7b" = false := by
      rw [lookingAt, hcurrent, hendText]
      decide
    simp only [hlook, Bool.false_and, Bool.false_eq_true, if_false]
    rw [replaceVariables_of_none rfl, replaceVariables_nil]
    have hshow := @ahead_shows vars s.baseNext dollar s.current [] [] s.spaceBefore h.queue rfl
      h.ends h.current (by simp [hslave]) s.endToken hcurrent (by simp)
      (.inl ⟨by rw [hendText]; decide, replaceable_nil vars none, by
        intro k
        rw [replaceVariables_end h.ends, replaceVariables_nil, List.append_nil]
        simp [h.ends]⟩)
    rw [hcurrent]
    apply hshow.congr
    intro k
    rw [replaceVariables_end h.ends]
    exact padded_append_end [dollar.lexeme] k
  | cons opening rest =>
    rw [hslave] at hgood hadjacent
    have hcurrent : s.baseNext.current = opening := by simp [hslave]
    have hlook : s.baseNext.lookingAt "\x7b" = true ↔ opening.text = "\x7b" := by
      rw [lookingAt, hcurrent, beq_iff_eq]
    by_cases hopen : opening.text = "\x7b" ∧ opening.AdjacentTo line dollar.stop
    · have hcond : (s.baseNext.lookingAt "\x7b" && s.baseNext.adjacentToPrevious) = true := by
        rw [Bool.and_eq_true, hlook, hadjacent]
        exact hopen
      rw [if_pos hcond]
      have hnext : s.baseNext.next = s.baseNext.baseNext := next_of_queue h.queue
      have hthird : s.baseNext.baseNext.current = rest.headD s.endToken := by simp [hslave]
      have hadjacent' := baseNext_adjacent s.baseNext rfl
      rw [hnext]
      simp only [hthird]
      by_cases hkind : (rest.headD s.endToken).lexeme.kind = .identifier
      · rw [if_pos hkind]
        cases rest with
        | nil =>
          rw [List.headD_nil, h.ends] at hkind
          cases hkind
        | cons name rest =>
          have hstart : startsUse line (dollar :: opening :: name :: rest) = true := by
            simp only [startsUse, decide_eq_true_eq]
            exact ⟨h.text, hopen.1, hkind, hopen.2⟩
          obtain ⟨value, after, huse, hempty, hafter⟩ := hgood.of_use h.text hstart
          obtain ⟨opening', name', closing, heq, -, -, hadj, -, hname, hclosing, hclose, hlookup⟩ :=
            variableUse_some huse
          simp only [List.cons.injEq] at heq
          obtain ⟨rfl, rfl, rfl⟩ := heq
          have hadj2 : s.baseNext.baseNext.adjacentToPrevious = true := by
            rw [hadjacent']
            simpa [hslave, Token.Adjacent] using hname
          have hfourth : s.baseNext.baseNext.baseNext.current = closing := by simp [hslave]
          have hadj3 : s.baseNext.baseNext.baseNext.adjacentToPrevious = true := by
            rw [baseNext_adjacent _ rfl]
            simpa [hslave, Token.Adjacent] using hclose
          have hlook4 : s.baseNext.baseNext.baseNext.lookingAt "\x7d" = true := by
            rw [lookingAt, hfourth, hclosing]
            rfl
          have hslave4 : s.baseNext.baseNext.baseNext.slave = after := by simp [hslave]
          simp only [List.headD_cons, hadj2, hlookup, hlook4, hadj3, Bool.and_self,
            Bool.not_true, Bool.false_eq_true, if_false]
          obtain ⟨hok, hshow⟩ := @substFrom_shows vars hvars s.baseNext.baseNext.baseNext _ _
            hlookup s.current s.spaceBefore h.queue rfl h.ends (by rwa [hslave4])
            (by rwa [hslave4])
          rw [if_pos hok, replaceVariables_of_some huse]
          rw [hslave4] at hshow
          exact hshow
      · rw [if_neg hkind]
        have hstart : startsUse line (dollar :: opening :: rest) = false := by
          cases rest with
          | nil => rfl
          | cons name rest =>
            simp only [startsUse, decide_eq_false_iff_not]
            rintro ⟨-, -, hname, -⟩
            exact hkind hname
        obtain ⟨hnone, hahead⟩ := hgood.of_ahead h.text hstart
        have hopenNe : opening.text ≠ "$" := by
          rw [hopen.1]
          decide
        simp only [nextCarry, Option.getD_some, hopen, and_self, if_true] at hahead
        rw [replaceVariables_of_none hnone,
          replaceVariables_of_none (variableUse_none_of_head hopenNe), hcurrent]
        cases rest with
        | nil =>
          have hshow := @ahead_shows vars s.baseNext.baseNext dollar s.current [opening] []
            s.spaceBefore h.queue rfl h.ends h.current (by simp [hslave]) s.endToken hthird
            (by simpa using hopenNe)
            (.inl ⟨by rw [hendText]; decide, replaceable_nil vars none, by
              intro k
              rw [replaceVariables_end h.ends, replaceVariables_nil, List.append_nil]
              simp [h.ends]⟩)
          apply hshow.congr
          intro k
          rw [replaceVariables_end h.ends, replaceVariables_nil]
          exact padded_append_end [dollar.lexeme, opening.lexeme] k
        | cons name rest =>
          have hcase := ahead_text hahead [opening.lexeme]
          exact @ahead_shows vars s.baseNext.baseNext dollar s.current [opening] rest
            s.spaceBefore h.queue rfl h.ends h.current (by simp [hslave]) name hthird
            (by simpa using hopenNe) (by rw [hline]; exact hcase)
    · have hcond : (s.baseNext.lookingAt "\x7b" && s.baseNext.adjacentToPrevious) = false := by
        rw [← Bool.not_eq_true, Bool.and_eq_true, hlook, hadjacent]
        exact hopen
      simp only [hcond, Bool.false_eq_true, if_false]
      have hstart : startsUse line (dollar :: opening :: rest) = false := by
        cases rest with
        | nil => rfl
        | cons name rest =>
          simp only [startsUse, decide_eq_false_iff_not]
          rintro ⟨-, hbrace, -, hadj⟩
          exact hopen ⟨hbrace, hadj⟩
      obtain ⟨hnone, hahead⟩ := hgood.of_ahead h.text hstart
      simp only [nextCarry, Option.getD_some, hopen, if_false] at hahead
      rw [replaceVariables_of_none hnone, hcurrent]
      have hcase := ahead_text hahead []
      exact @ahead_shows vars s.baseNext dollar s.current [] rest s.spaceBefore h.queue rfl h.ends
        h.current (by simp [hslave]) opening hcurrent (by simp) (by rw [hline]; exact hcase)

theorem next_of_drop {s : SubstTokenizer} {t : Token} {queue : List Token}
    (h : s.substTokens.drop s.substIndex = t :: queue) :
    s.next.current = t ∧ s.next.slave = s.slave ∧ s.next.endToken = s.endToken ∧
      s.next.substTokens.drop s.next.substIndex = queue ∧ s.next.substOffset = s.substOffset ∧
      (queue = [] → s.next.nextColumnOffset = s.substOffset ∧
        s.next.substTokens.length ≤ s.next.substIndex) := by
  have hlength : (s.substTokens.drop s.substIndex).length = queue.length + 1 := by
    rw [h]
    rfl
  rw [List.length_drop] at hlength
  have hlt : ¬s.substTokens.length ≤ s.substIndex := by omega
  have hnext : s.next = s.substNext := if_neg hlt
  have hget : s.substTokens[s.substIndex]? = some t := by
    have := congrArg (fun l => l[0]?) h
    simpa [List.getElem?_drop] using this
  rw [hnext]
  refine ⟨?_, rfl, rfl, ?_, rfl, ?_⟩
  · simp [substNext, List.getD_eq_getElem?_getD, hget]
  · have := congrArg List.tail h
    rw [List.tail_drop] at this
    exact this
  · rintro rfl
    rw [List.length_nil] at hlength
    constructor
    · simp only [substNext]
      rw [if_pos (by omega)]
    · simp only [substNext, storeCurrentPosition]
      omega

/-- A call of `NextToken` shows the next token that is to come. -/
theorem nextToken_shows {vars : TokenVars} (hvars : DollarFree vars) {s : SubstTokenizer}
    {out : ℕ → Lexeme} (h : Pending vars s out) : Shows vars (nextToken vars s) out := by
  obtain ⟨hend, ⟨queue, hdrop, hfree, hout, hgood⟩ |
    ⟨before, copy, dollar, hdrop, hfree, hcopy, hlexeme, hcolumn, hoffset, hout, hgood⟩⟩ := h
  · cases queue with
    | nil =>
      have hqueue : s.substTokens.length ≤ s.substIndex := List.drop_eq_nil_iff.mp hdrop
      rw [nextToken, next_of_queue hqueue]
      simp only [List.map_nil, List.nil_append] at hout
      cases hslave : s.slave with
      | nil =>
        have hcurrent : s.baseNext.current = s.endToken := by simp [hslave]
        have hne : s.baseNext.current.text ≠ "$" := by
          rw [hcurrent, Token.text, hend]
          decide
        rw [tryConsume_of_ne hne]
        rw [hslave, replaceVariables_nil] at hout
        refine ⟨?_, hend, .inl ⟨[], hdrop, by simp, ?_, ?_⟩⟩
        · rw [hcurrent, hend, hout]
          rfl
        · intro k
          simp [hslave, hout, replaceVariables_nil]
        · simpa [hslave] using replaceable_nil vars none
      | cons t rest =>
        have hcurrent : s.baseNext.current = t := by simp [hslave]
        rw [hslave] at hout hgood
        by_cases ht : t.text = "$"
        · have hat : AtDollar s.baseNext t :=
            ⟨hqueue, rfl, by rw [hcurrent], by rw [hcurrent], ht, hend⟩
          have hgood' : Replaceable vars (some s.baseNext.current.line)
            (t :: s.baseNext.slave) := by
            rw [hcurrent, baseNext_slave, hslave, Replaceable]
            rw [Replaceable] at hgood
            exact hgood
          have hshow := tryConsume_dollar hvars hat hgood'
          rw [baseNext_slave, hslave, List.tail_cons] at hshow
          exact hshow.congr fun k => (hout k).symm
        · rw [tryConsume_of_ne (by rwa [hcurrent])]
          rw [replaceVariables_of_none (variableUse_none_of_head ht)] at hout
          refine ⟨?_, hend, .inl ⟨[], hdrop, by simp, ?_, ?_⟩⟩
          · rw [hcurrent, hout]
            rfl
          · intro k
            simp [hslave, hout]
          · simpa [hslave] using hgood.of_ne ht
    | cons t queue =>
      obtain ⟨hcurrent, hslave, hend', hdrop', -, -⟩ := next_of_drop hdrop
      rw [nextToken, tryConsume_of_ne (by rw [hcurrent]; exact hfree t List.mem_cons_self)]
      refine ⟨?_, by rw [hend', hend], .inl ⟨queue, hdrop', ?_, ?_, ?_⟩⟩
      · rw [hcurrent, hout]
        rfl
      · exact fun u hu => hfree u (List.mem_cons_of_mem _ hu)
      · intro k
        rw [hslave]
        exact hout (k + 1)
      · rw [hslave]
        exact hgood
  · cases before with
    | nil =>
      obtain ⟨hcurrent, hslave, hend', -, -, hlast⟩ := next_of_drop hdrop
      obtain ⟨hnext, hqueue⟩ := hlast rfl
      have hat : AtDollar s.next dollar := by
        refine ⟨hqueue, by rw [hnext, hoffset],
          by rw [hcurrent, hlexeme], by rw [hcurrent, hcolumn], ?_, by rw [hend', hend]⟩
        rw [Token.text, hlexeme]
        exact hcopy
      have hshow := tryConsume_dollar hvars hat (by rwa [hcurrent, hslave])
      rw [hslave] at hshow
      exact hshow.congr fun k => (hout k).symm
    | cons t before =>
      obtain ⟨hcurrent, hslave, hend', hdrop', hoffset', -⟩ := next_of_drop hdrop
      rw [nextToken, tryConsume_of_ne (by rw [hcurrent]; exact hfree t List.mem_cons_self)]
      refine ⟨?_, by rw [hend', hend], .inr ⟨before, copy, dollar, hdrop', ?_, hcopy, hlexeme,
        hcolumn, by rw [hoffset', hoffset], ?_, ?_⟩⟩
      · rw [hcurrent, hout]
        rfl
      · exact fun u hu => hfree u (List.mem_cons_of_mem _ hu)
      · intro k
        rw [hslave]
        exact hout (k + 1)
      · rw [hslave]
        exact hgood

/-- The line `a ${name} b`. -/
def useLine (name : String) : List Token :=
  [⟨⟨"a", .identifier⟩, 0, 0⟩, ⟨⟨"$", .other⟩, 0, 2⟩, ⟨⟨"\x7b", .other⟩, 0, 3⟩,
    ⟨⟨name, .identifier⟩, 0, 4⟩, ⟨⟨"\x7d", .other⟩, 0, 5⟩, ⟨⟨"b", .identifier⟩, 0, 7⟩]

/-- The variable `v` with the token `x`. -/
def useVars : TokenVars := [("v", [⟨⟨"x", .identifier⟩, 3, 10⟩])]

/-- The line `a ${e}${v}`. -/
def twoUses : List Token :=
  [⟨⟨"a", .identifier⟩, 0, 0⟩, ⟨⟨"$", .other⟩, 0, 2⟩, ⟨⟨"\x7b", .other⟩, 0, 3⟩,
    ⟨⟨"e", .identifier⟩, 0, 4⟩, ⟨⟨"\x7d", .other⟩, 0, 5⟩, ⟨⟨"$", .other⟩, 0, 6⟩,
    ⟨⟨"\x7b", .other⟩, 0, 7⟩, ⟨⟨"v", .identifier⟩, 0, 8⟩, ⟨⟨"\x7d", .other⟩, 0, 9⟩]

/-- The variable `e` without tokens, and `v` with the token `x`. -/
def emptyVars : TokenVars := [("e", []), ("v", [⟨⟨"x", .identifier⟩, 3, 10⟩])]

end SubstTokenizer
end TomitaParser
