import TomitaParser.Toma.Conditional
/-! # Files that are read without an error

A file whose blocks are not readable makes the parser report an error: without one, no `#endif` is
left for the stack. -/

namespace TomitaParser

namespace SourceLine

/-- The line opens a block. -/
def opens : SourceLine → Bool
  | .directive (some name) _ => name.1 == "ifdef" || name.1 == "ifndef"
  | _ => false

/-- The line closes a block. -/
def closes : SourceLine → Bool
  | .directive (some name) _ => name.1 == "endif"
  | _ => false

@[simp] theorem opens_directive (name : MacroName) (args : List LineToken) :
    opens (.directive (some name) args) = (name.1 == "ifdef" || name.1 == "ifndef") := rfl

@[simp] theorem closes_directive (name : MacroName) (args : List LineToken) :
    closes (.directive (some name) args) = (name.1 == "endif") := rfl

end SourceLine

/-- The number of lines that open a block. -/
def openings (lines : List SourceLine) : ℕ := lines.countP SourceLine.opens

/-- The number of lines that close a block. -/
def closings (lines : List SourceLine) : ℕ := lines.countP SourceLine.closes

@[simp] theorem openings_append (a b : List SourceLine) :
    openings (a ++ b) = openings a + openings b := List.countP_append

@[simp] theorem closings_append (a b : List SourceLine) :
    closings (a ++ b) = closings a + closings b := List.countP_append

theorem openings_cons (line : SourceLine) (rest : List SourceLine) :
    openings (line :: rest) = openings rest + if line.opens then 1 else 0 := List.countP_cons

theorem closings_cons (line : SourceLine) (rest : List SourceLine) :
    closings (line :: rest) = closings rest + if line.closes then 1 else 0 := List.countP_cons

namespace Blocks

@[simp] theorem openings_endif (rest : List SourceLine) :
    openings (endifLine :: rest) = openings rest := by
  simp [openings_cons, endifLine]

@[simp] theorem closings_endif (rest : List SourceLine) :
    closings (endifLine :: rest) = closings rest + 1 := by
  simp [closings_cons, endifLine]

@[simp] theorem openings_else (rest : List SourceLine) :
    openings (elseLine :: rest) = openings rest := by
  simp [openings_cons, elseLine]

@[simp] theorem closings_else (rest : List SourceLine) :
    closings (elseLine :: rest) = closings rest := by
  simp [closings_cons, elseLine]

@[simp] theorem openings_opening (negative : Bool) (var : Identifier) (rest : List SourceLine) :
    openings (opening negative var :: rest) = openings rest + 1 := by
  cases negative <;> simp [openings_cons, opening, openingName]

@[simp] theorem closings_opening (negative : Bool) (var : Identifier) (rest : List SourceLine) :
    closings (opening negative var :: rest) = closings rest := by
  cases negative <;> simp [closings_cons, opening, openingName]

theorem plain_source (line : PlainLine) :
    line.source.opens = false ∧ line.source.closes = false := by
  cases line with
  | functional name args =>
    have hcases : ∀ n ∈ ConditionalState.functionalMacros,
        n ≠ "ifdef" ∧ n ≠ "ifndef" ∧ n ≠ "endif" := by decide
    obtain ⟨h1, h2, h3⟩ := hcases name.1.1 name.2
    simp [PlainLine.source, h1, h2, h3]
  | _ => exact ⟨rfl, rfl⟩

theorem balanced (blocks : Blocks) : openings blocks.source = closings blocks.source := by
  induction blocks with
  | nil => rfl
  | plain line rest ih =>
    have hline := plain_source line
    simp [source, openings_cons, closings_cons, hline, ih]
  | ifBlock negative var body rest ihBody ihRest =>
    simp only [source, openings_opening, openings_append, openings_endif, closings_opening,
      closings_append, closings_endif]
    omega
  | ifElse negative var body alternative rest ihBody ihAlternative ihRest =>
    simp only [source, openings_opening, openings_append, openings_endif, openings_else,
      closings_opening, closings_append, closings_endif, closings_else]
    omega

end Blocks

namespace ConditionalState
variable {statement : StatementParser}

theorem report_of_errors {s : ConditionalState} {r : List String × Bool}
    (h : (s.report r).errors = []) : s.errors = [] :=
  (List.append_eq_nil_iff.mp h).1

theorem consumeWord_of_errors {s : ConditionalState} {args : List LineToken}
    (h : (s.consumeWord args).1.errors = []) : s.errors = [] :=
  report_of_errors h

@[simp] theorem consumeWord_ifDefStack (s : ConditionalState) (args : List LineToken) :
    (s.consumeWord args).1.ifDefStack = s.ifDefStack := rfl

theorem checkNewLine_of_errors {s : ConditionalState} {c : LineRest}
    (h : (s.checkNewLine c).errors = []) :
    s.errors = [] ∧ (s.checkNewLine c).ifDefStack = s.ifDefStack := by
  unfold checkNewLine at h ⊢
  split_ifs at h ⊢ with hc
  · exact ⟨h, rfl⟩
  · exact absurd h (fail_errors_ne _ _ _)

theorem parseEndif_of_errors {s : ConditionalState} {args : List LineToken}
    (h : (s.parseEndif args).errors = []) :
    s.errors = [] ∧ s.ifDefStack.length = (s.parseEndif args).ifDefStack.length + 1 := by
  unfold parseEndif at h ⊢
  dsimp only at h ⊢
  split_ifs at h ⊢ with hc
  · exact absurd h (fail_errors_ne _ _ _)
  · cases hs : s.ifDefStack with
    | nil =>
      simp only [consumeWord_ifDefStack, hs] at h
      exact absurd h (fail_errors_ne _ _ _)
    | cons b stack =>
      simp only [consumeWord_ifDefStack, hs] at h ⊢
      exact ⟨consumeWord_of_errors h, rfl⟩

/-- What a part of the parser may do when it reports nothing: the stack and the blocks that are
still to be opened lose against the `#endif` lines that are still to come, never gain. -/
structure Spends (s : ConditionalState) (lines : List SourceLine) (s' : ConditionalState)
    (lines' : List SourceLine) : Prop where
  errors : s.errors = []
  stack : s'.ifDefStack.length + openings lines' + closings lines ≤
    s.ifDefStack.length + openings lines + closings lines'

/-- A line that is no `#endif` is gone. -/
theorem Spends.line {s s' : ConditionalState} {line : SourceLine} {rest : List SourceLine}
    (herr : s.errors = []) (hstack : s'.ifDefStack = s.ifDefStack) (hcloses : line.closes = false) :
    Spends s (line :: rest) s' rest := by
  refine ⟨herr, ?_⟩
  rw [openings_cons, closings_cons, hcloses, hstack]
  simp only [Bool.false_eq_true, if_false]
  omega

theorem Spends.trans {s s' s'' : ConditionalState} {lines lines' lines'' : List SourceLine}
    (h : Spends s lines s' lines') (h' : Spends s' lines' s'' lines'') :
    Spends s lines s'' lines'' := by
  refine ⟨h.errors, ?_⟩
  have hfirst := h.stack
  have hsecond := h'.stack
  omega

theorem Spends.skip {s : ConditionalState} {line : SourceLine} {rest : List SourceLine}
    (h : (s.skip line).errors = []) (hcloses : line.closes = false) :
    Spends s (line :: rest) (s.skip line) rest :=
  Spends.line (report_of_errors h) rfl hcloses

theorem Spends.endif {s : ConditionalState} {name : MacroName} {args : List LineToken}
    {rest : List SourceLine} (hname : name.1 = "endif") (h : (s.parseEndif args).errors = []) :
    Spends s (.directive (some name) args :: rest) (s.parseEndif args) rest := by
  obtain ⟨herr, hstack⟩ := parseEndif_of_errors h
  refine ⟨herr, ?_⟩
  simp only [openings_cons, closings_cons, SourceLine.opens_directive,
    SourceLine.closes_directive, hname]
  simp
  omega

theorem skipBranch_spends (s : ConditionalState) (lines : List SourceLine)
    (h : (s.skipBranch lines).2.errors = []) :
    Spends s lines (s.skipBranch lines).2 (s.skipBranch lines).1 := by
  fun_induction skipBranch s lines with
  | case1 s => exact absurd h (by simp)
  | case2 s name args rest helse =>
    obtain ⟨herr, hstack⟩ := checkNewLine_of_errors h
    exact Spends.line (consumeWord_of_errors herr) hstack (by simp [helse])
  | case3 s name args rest helse hendif => exact Spends.endif hendif h
  | case4 s name args rest helse hendif ih =>
    have hrest := ih h
    exact (Spends.skip hrest.errors (by simpa using hendif)).trans hrest
  | case5 s line rest hline ih =>
    have hrest := ih h
    refine (Spends.skip hrest.errors ?_).trans hrest
    cases line with
    | directive name args =>
      cases name with
      | none => rfl
      | some name => exact absurd rfl (hline name args)
    | _ => rfl

theorem skipElse_spends (s : ConditionalState) (lines : List SourceLine)
    (h : (s.skipElse lines).2.errors = []) :
    Spends s lines (s.skipElse lines).2 (s.skipElse lines).1 := by
  fun_induction skipElse s lines with
  | case1 s => exact absurd h (by simp)
  | case2 s name args rest helse => exact absurd h (failAtWord_errors_ne _ _ _)
  | case3 s name args rest helse hendif => exact Spends.endif hendif h
  | case4 s name args rest helse hendif ih =>
    have hrest := ih h
    exact (Spends.skip hrest.errors (by simpa using hendif)).trans hrest
  | case5 s line rest hline ih =>
    have hrest := ih h
    refine (Spends.skip hrest.errors ?_).trans hrest
    cases line with
    | directive name args =>
      cases name with
      | none => rfl
      | some name => exact absurd rfl (hline name args)
    | _ => rfl

theorem consumeVariable_error {s s' : ConditionalState} {error : String} {atEnd : Bool}
    {c : LineRest} (h : s.consumeVariable error atEnd c = .error s') : s'.errors ≠ [] := by
  unfold consumeVariable at h
  split at h
  · rw [Except.error.injEq] at h
    simp [← h]
  · split_ifs at h
    rw [Except.error.injEq] at h
    simp [← h]
  · rw [Except.error.injEq] at h
    simp [← h]

theorem parseIfdef_spends (s : ConditionalState) (negative : Bool) (args : List LineToken)
    (rest : List SourceLine) (line : SourceLine) (hopens : line.opens = true)
    (hcloses : line.closes = false) (h : (s.parseIfdef negative args rest).2.errors = []) :
    Spends s (line :: rest) (s.parseIfdef negative args rest).2
      (s.parseIfdef negative args rest).1 := by
  have hline : openings (line :: rest) = openings rest + 1 ∧
      closings (line :: rest) = closings rest := by
    simp [openings_cons, closings_cons, hopens, hcloses]
  unfold parseIfdef at h ⊢
  dsimp only at h ⊢
  split at h
  · rename_i s' hs'
    exact absurd h (consumeVariable_error hs')
  · rename_i var after hvar
    split_ifs at h ⊢ with hafter hselected
    · exact absurd h (fail_errors_ne _ _ _)
    · refine ⟨consumeWord_of_errors h, ?_⟩
      simp only [hline, List.length_cons, consumeWord_ifDefStack]
      omega
    · obtain ⟨herr, hstack⟩ := skipBranch_spends _ rest h
      refine ⟨consumeWord_of_errors herr, ?_⟩
      have hlength : (s.consumeWord args).1.ifDefStack.length = s.ifDefStack.length := rfl
      rw [List.length_cons, hlength] at hstack
      rw [hline.1, hline.2]
      omega

theorem parseMacro_spends (s : ConditionalState) (name : Option MacroName)
    (args : List LineToken) (rest : List SourceLine)
    (h : (s.parseMacro statement name args rest).2.errors = []) :
    Spends s (.directive name args :: rest) (s.parseMacro statement name args rest).2
      (s.parseMacro statement name args rest).1 := by
  cases name with
  | none => exact absurd h (fail_errors_ne _ _ _)
  | some name =>
    simp only [parseMacro] at h ⊢
    split_ifs at h ⊢ with hifdef hifndef helse hendif hundef hfunctional
    · exact parseIfdef_spends s false _ rest _ (by simp [hifdef])
        (by simp [hifdef]) h
    · exact parseIfdef_spends s true _ rest _ (by simp [hifndef])
        (by simp [hifndef]) h
    · unfold parseElse at h ⊢
      dsimp only at h ⊢
      split_ifs at h ⊢ with hc hs
      · exact absurd h (fail_errors_ne _ _ _)
      · exact absurd h (fail_errors_ne _ _ _)
      · have hrest := skipElse_spends _ rest h
        have hfirst : Spends s (.directive (some name) args :: rest) (s.consumeWord args).1 rest :=
          Spends.line (consumeWord_of_errors hrest.errors) rfl (by simp [helse])
        exact hfirst.trans hrest
    · exact Spends.endif hendif h
    · unfold parseUndef at h ⊢
      dsimp only at h ⊢
      split at h
      · rename_i s' hs'
        exact absurd h (consumeVariable_error hs')
      · split_ifs at h ⊢ with hafter
        · exact absurd h (fail_errors_ne _ _ _)
        · exact Spends.line (consumeWord_of_errors h) rfl (by simp [hundef])
    · exact Spends.line (report_of_errors h) rfl (by simpa using hendif)
    all_goals exact absurd h (failAtWord_errors_ne _ _ _)

theorem parseDefine_of_errors {s : ConditionalState} {words : List PlainWord} {atEnd : Bool}
    (h : (s.parseDefine words atEnd).errors = []) :
    s.errors = [] ∧ (s.parseDefine words atEnd).ifDefStack = s.ifDefStack := by
  unfold parseDefine at h ⊢
  split at h
  · rename_i s' hs'
    exact absurd h (consumeVariable_error hs')
  · exact ⟨h, rfl⟩

theorem closings_le_of_errors (s : ConditionalState) (lines : List SourceLine)
    (h : (s.parseTokens statement lines).errors = []) :
    s.errors = [] ∧ closings lines ≤ s.ifDefStack.length + openings lines := by
  fun_induction parseTokens statement s lines with
  | case1 s => exact ⟨h, by simp [closings]⟩
  | case2 s tokens rest ih =>
    obtain ⟨herr, hstack⟩ := ih h
    refine ⟨report_of_errors herr, ?_⟩
    simpa [openings_cons, closings_cons, SourceLine.opens, SourceLine.closes, hand] using hstack
  | case3 s words rest ih =>
    obtain ⟨herr, hstack⟩ := ih h
    obtain ⟨hs, hsame⟩ := parseDefine_of_errors herr
    rw [hsame] at hstack
    refine ⟨hs, ?_⟩
    simpa [openings_cons, closings_cons, SourceLine.opens, SourceLine.closes] using hstack
  | case4 s name args rest ih =>
    obtain ⟨herr, hstack⟩ := ih h
    obtain ⟨hs, hspends⟩ := parseMacro_spends s name args rest herr
    exact ⟨hs, by omega⟩

theorem skipBranch_opening (s : ConditionalState) (negative : Bool) (var : Identifier)
    (rest : List SourceLine) :
    s.skipBranch (Blocks.opening negative var :: rest) =
      (s.skip (Blocks.opening negative var)).skipBranch rest := by
  cases negative <;> simp [Blocks.opening, Blocks.openingName, skipBranch]

theorem skipElse_opening (s : ConditionalState) (negative : Bool) (var : Identifier)
    (rest : List SourceLine) :
    s.skipElse (Blocks.opening negative var :: rest) =
      (s.skip (Blocks.opening negative var)).skipElse rest := by
  cases negative <;> simp [Blocks.opening, Blocks.openingName, skipElse]

/-- A line that is not skipped quietly leaves an error. -/
theorem skip_loud {s : ConditionalState} {line : SourceLine}
    (h : ¬ (line.skip s.definedVars s.raw).1.isEmpty = true) : (s.skip line).errors ≠ [] := by
  intro herr
  exact h (List.isEmpty_iff.mpr (List.append_eq_nil_iff.mp herr).2)

/-- Without an error, lines that cannot be skipped have a block, and the skipping is inside it. -/
theorem skipBranch_of_not_skippable (s : ConditionalState) (body : Blocks)
    (h : body.skippable s.definedVars s.raw = false) (rest : List SourceLine)
    (herr : (s.skipBranch (body.source ++ rest)).2.errors = []) :
    ∃ (s' : ConditionalState) (lines : List SourceLine),
        s.skipBranch (body.source ++ rest) = s'.skipBranch lines ∧
      s'.ifDefStack = s.ifDefStack ∧ openings (body.source ++ rest) = openings lines + 1 ∧
      closings (body.source ++ rest) = closings lines := by
  induction body generalizing s with
  | nil => simp [Blocks.skippable] at h
  | plain line body ih =>
    rw [Blocks.source, List.cons_append, skipBranch_plain] at herr ⊢
    by_cases hquiet : (line.source.skip s.definedVars s.raw).1.isEmpty = true
    · have hbody : body.skippable s.definedVars (line.source.skip s.definedVars s.raw).2 = false :=
        by simpa [Blocks.skippable, hquiet] using h
      obtain ⟨s', lines, hlines, hstack, hopen, hclose⟩ := ih (s.skip line.source) hbody herr
      have hline := Blocks.plain_source line
      refine ⟨s', lines, hlines, hstack, ?_, ?_⟩
      · simpa [openings_cons, hline] using hopen
      · simpa [closings_cons, hline] using hclose
    · exact absurd (skipBranch_spends _ _ herr).errors (skip_loud hquiet)
  | ifBlock negative var body blocks =>
    refine ⟨s.skip (Blocks.opening negative var),
      body.source ++ Blocks.endifLine :: (blocks.source ++ rest), ?_, rfl, ?_, ?_⟩
    · simp [Blocks.source, skipBranch_opening]
    · simp [Blocks.source]
    · simp [Blocks.source]
  | ifElse negative var body alternative blocks =>
    refine ⟨s.skip (Blocks.opening negative var), body.source ++ Blocks.elseLine ::
      (alternative.source ++ Blocks.endifLine :: (blocks.source ++ rest)), ?_, rfl, ?_, ?_⟩
    · simp [Blocks.source, skipBranch_opening]
    · simp [Blocks.source]
    · simp [Blocks.source]

theorem skipElse_of_not_skippable (s : ConditionalState) (body : Blocks)
    (h : body.skippable s.definedVars s.raw = false) (rest : List SourceLine)
    (herr : (s.skipElse (body.source ++ rest)).2.errors = []) :
    ∃ (s' : ConditionalState) (lines : List SourceLine),
        s.skipElse (body.source ++ rest) = s'.skipElse lines ∧
      s'.ifDefStack = s.ifDefStack ∧ openings (body.source ++ rest) = openings lines + 1 ∧
      closings (body.source ++ rest) = closings lines := by
  induction body generalizing s with
  | nil => simp [Blocks.skippable] at h
  | plain line body ih =>
    rw [Blocks.source, List.cons_append, skipElse_plain] at herr ⊢
    by_cases hquiet : (line.source.skip s.definedVars s.raw).1.isEmpty = true
    · have hbody : body.skippable s.definedVars (line.source.skip s.definedVars s.raw).2 = false :=
        by simpa [Blocks.skippable, hquiet] using h
      obtain ⟨s', lines, hlines, hstack, hopen, hclose⟩ := ih (s.skip line.source) hbody herr
      have hline := Blocks.plain_source line
      refine ⟨s', lines, hlines, hstack, ?_, ?_⟩
      · simpa [openings_cons, hline] using hopen
      · simpa [closings_cons, hline] using hclose
    · exact absurd (skipElse_spends _ _ herr).errors (skip_loud hquiet)
  | ifBlock negative var body blocks =>
    refine ⟨s.skip (Blocks.opening negative var),
      body.source ++ Blocks.endifLine :: (blocks.source ++ rest), ?_, rfl, ?_, ?_⟩
    · simp [Blocks.source, skipElse_opening]
    · simp [Blocks.source]
    · simp [Blocks.source]
  | ifElse negative var body alternative blocks =>
    refine ⟨s.skip (Blocks.opening negative var), body.source ++ Blocks.elseLine ::
      (alternative.source ++ Blocks.endifLine :: (blocks.source ++ rest)), ?_, rfl, ?_, ?_⟩
    · simp [Blocks.source, skipElse_opening]
    · simp [Blocks.source]
    · simp [Blocks.source]

theorem errors_of_skipBranch (s : ConditionalState) (body : Blocks)
    (h : body.skippable s.definedVars s.raw = false) (rest : List SourceLine)
    (hrest : s.ifDefStack.length + openings rest ≤ closings rest) :
    ((s.skipBranch (body.source ++ rest)).2.parseTokens statement
      (s.skipBranch (body.source ++ rest)).1).errors ≠ [] := by
  intro herr
  obtain ⟨s', lines, hlines, hstack, hopen, hclose⟩ :=
    skipBranch_of_not_skippable s body h rest (closings_le_of_errors _ _ herr).1
  rw [hlines] at herr
  obtain ⟨hskip, hle⟩ := closings_le_of_errors _ _ herr
  have hspends := (skipBranch_spends s' lines hskip).stack
  have hbalanced := body.balanced
  rw [hstack] at hspends
  simp only [openings_append, closings_append] at hopen hclose
  omega

theorem errors_of_skipElse (s : ConditionalState) (body : Blocks)
    (h : body.skippable s.definedVars s.raw = false) (rest : List SourceLine)
    (hrest : s.ifDefStack.length + openings rest ≤ closings rest) :
    ((s.skipElse (body.source ++ rest)).2.parseTokens statement
      (s.skipElse (body.source ++ rest)).1).errors ≠ [] := by
  intro herr
  obtain ⟨s', lines, hlines, hstack, hopen, hclose⟩ :=
    skipElse_of_not_skippable s body h rest (closings_le_of_errors _ _ herr).1
  rw [hlines] at herr
  obtain ⟨hskip, hle⟩ := closings_le_of_errors _ _ herr
  have hspends := (skipElse_spends s' lines hskip).stack
  have hbalanced := body.balanced
  rw [hstack] at hspends
  simp only [openings_append, closings_append] at hopen hclose
  omega

/-- Blocks that are not readable make the parser report an error, as the lines that follow have an
`#endif` for every entry of the stack. -/
theorem errors_of_not_readable (blocks : Blocks) (s : ConditionalState)
    (h : blocks.readable statement s.reading = false) (rest : List SourceLine)
    (hrest : s.ifDefStack.length + openings rest ≤ closings rest) :
    (s.parseTokens statement (blocks.source ++ rest)).errors ≠ [] := by
  induction blocks generalizing s rest with
  | nil => simp [Blocks.readable] at h
  | plain line blocks ih =>
    rw [Blocks.source, List.cons_append, parseTokens_plain]
    rw [Blocks.readable, Bool.and_eq_false_iff] at h
    rcases h with hline | hblocks
    · intro herr
      have hread := (List.append_eq_nil_iff.mp (closings_le_of_errors _ _ herr).1).2
      simp [hread] at hline
    · exact ih _ (by exact hblocks) _ hrest
  | ifBlock negative var body blocks ihBody ihRest =>
    have hbody := body.balanced
    have hblocks := blocks.balanced
    simp only [Blocks.source, List.cons_append, List.append_assoc, parseTokens_opening]
    simp only [Blocks.readable] at h
    have hafter : s.ifDefStack.length + 1 +
        openings (Blocks.endifLine :: (blocks.source ++ rest)) ≤
        closings (Blocks.endifLine :: (blocks.source ++ rest)) := by
      simp only [Blocks.openings_endif, openings_append, Blocks.closings_endif, closings_append]
      omega
    by_cases hsel : Blocks.selects s.definedVars negative var = true
    · have hsel' : Blocks.selects s.reading.vars negative var = true := hsel
      simp only [hsel, hsel', if_true, Bool.and_eq_false_iff] at h ⊢
      by_cases hread : body.readable statement ⟨s.definedVars, true⟩ = true
      · rw [parseTokens_readable body _ (by exact hread), parseTokens_endif _ true s.ifDefStack _ rfl]
        refine ihRest _ ?_ rest hrest
        exact h.resolve_left fun hfalse => by simp_all [reading]
      · refine ihBody _ ?_ _ hafter
        exact Bool.eq_false_iff.mpr hread
    · have hsel' : ¬ Blocks.selects s.reading.vars negative var = true := hsel
      simp only [hsel, hsel', Bool.false_eq_true, if_false, Bool.and_eq_false_iff] at h ⊢
      by_cases hskippable : body.skippable s.definedVars true = true
      · obtain ⟨raw, hskip⟩ := skipBranch_skippable
          { s with ifDefStack := false :: s.ifDefStack, raw := true } body hskippable
          (Blocks.endifLine :: (blocks.source ++ rest))
        rw [hskip, skipBranch_endif, parseEndif_nil _ false s.ifDefStack rfl]
        refine ihRest _ ?_ rest hrest
        exact h.resolve_left fun hfalse => by simp_all [reading]
      · exact errors_of_skipBranch _ body (by exact Bool.eq_false_iff.mpr hskippable) _ hafter
  | ifElse negative var body alternative blocks ihBody ihAlternative ihRest =>
    have hbody := body.balanced
    have halternative := alternative.balanced
    have hblocks := blocks.balanced
    simp only [Blocks.source, List.cons_append, List.append_assoc, parseTokens_opening]
    simp only [Blocks.readable] at h
    have hafter : s.ifDefStack.length + 1 +
        openings (Blocks.endifLine :: (blocks.source ++ rest)) ≤
        closings (Blocks.endifLine :: (blocks.source ++ rest)) := by
      simp only [Blocks.openings_endif, openings_append, Blocks.closings_endif, closings_append]
      omega
    have helse : s.ifDefStack.length + 1 + openings (Blocks.elseLine ::
        (alternative.source ++ Blocks.endifLine :: (blocks.source ++ rest))) ≤
        closings (Blocks.elseLine ::
          (alternative.source ++ Blocks.endifLine :: (blocks.source ++ rest))) := by
      rw [Blocks.openings_else, Blocks.closings_else, openings_append, closings_append]
      omega
    by_cases hsel : Blocks.selects s.definedVars negative var = true
    · have hsel' : Blocks.selects s.reading.vars negative var = true := hsel
      simp only [hsel, hsel', if_true, Bool.and_eq_false_iff] at h ⊢
      by_cases hread : body.readable statement ⟨s.definedVars, true⟩ = true
      · rw [parseTokens_readable body _ (by exact hread), parseTokens_else _ true s.ifDefStack _ rfl]
        by_cases halt : alternative.skippable
            (body.after statement ⟨s.definedVars, true⟩).vars false = true
        · obtain ⟨raw, hskip⟩ := skipElse_skippable { ({ s with
              ifDefStack := true :: s.ifDefStack, raw := true } : ConditionalState).readOn
                (body.after statement ⟨s.definedVars, true⟩)
                (body.selected statement ⟨s.definedVars, true⟩) [] with raw := false }
            alternative halt (Blocks.endifLine :: (blocks.source ++ rest))
          rw [show ({ s with ifDefStack := true :: s.ifDefStack, raw := true } :
            ConditionalState).reading = ⟨s.definedVars, true⟩ from rfl, hskip, skipElse_endif,
            parseEndif_nil _ true s.ifDefStack rfl]
          refine ihRest _ ?_ rest hrest
          exact h.resolve_left fun hfalse => by simp_all [reading]
        · exact errors_of_skipElse _ alternative (by exact Bool.eq_false_iff.mpr halt) _ hafter
      · refine ihBody _ ?_ _ helse
        exact Bool.eq_false_iff.mpr hread
    · have hsel' : ¬ Blocks.selects s.reading.vars negative var = true := hsel
      simp only [hsel, hsel', Bool.false_eq_true, if_false, Bool.and_eq_false_iff] at h ⊢
      by_cases hskippable : body.skippable s.definedVars true = true
      · obtain ⟨raw, hskip⟩ := skipBranch_skippable
          { s with ifDefStack := false :: s.ifDefStack, raw := true } body hskippable
          (Blocks.elseLine :: (alternative.source ++ Blocks.endifLine :: (blocks.source ++ rest)))
        rw [hskip, skipBranch_else]
        by_cases halt : alternative.readable statement ⟨s.definedVars, false⟩ = true
        · rw [parseTokens_readable alternative _ (by exact halt),
            parseTokens_endif _ false s.ifDefStack _ rfl]
          refine ihRest _ ?_ rest hrest
          exact h.resolve_left fun hfalse => by simp_all [reading]
        · refine ihAlternative _ ?_ _ hafter
          exact Bool.eq_false_iff.mpr halt
      · exact errors_of_skipBranch _ body (by exact Bool.eq_false_iff.mpr hskippable) _ helse

end ConditionalState

/-- Reading a well-formed file from its start. -/
def readBlocks (statement : StatementParser) (vars : DefinedVars) (blocks : Blocks) :
    ConditionalState :=
  ConditionalState.parseTokens statement { definedVars := vars } blocks.source

/-- The rule `head -> body;`. -/
def ruleTokens (head body : PlainWord) : List LineToken :=
  [.word head, .word ⟨"-", by decide⟩, .word ⟨">", by decide⟩, .word body, .word ⟨";", by decide⟩]

/-- A block inside a branch that is not selected: the skipping stops at the inner `#endif`. -/
def nestedSkip : Blocks :=
  .ifBlock false ⟨"X", by decide⟩
    (.ifBlock false ⟨"Y", by decide⟩
      (.plain (.text (ruleTokens ⟨"A", by decide⟩ ⟨"B", by decide⟩)) .nil)
      (.plain (.text (ruleTokens ⟨"C", by decide⟩ ⟨"D", by decide⟩)) .nil))
    .nil

/-- The parser of statements without an error, which looks at the next line. -/
def quietStatement : StatementParser := fun _ _ _ => ([], false)

end TomitaParser
