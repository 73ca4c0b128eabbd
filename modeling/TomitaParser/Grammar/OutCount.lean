import TomitaParser.Grammar.FirstFollow
import TomitaParser.Lib.Lowering
/-! # Limits on the words of a group

A rule can limit how many words its left part covers, in each of its alternatives. The limits of a
symbol are passed to the symbols that it is made of, so that groups too long for it are not built
at all. -/

namespace TomitaParser
open OrderedSet Saturation

/-- `MaxOutCount`, the limit of an alternative that has none. -/
def maxOutCount : ℕ := 1000

/-- `SRuleExternalInformationAndAgreements`: the slot for the limit. -/
structure RuleAlternative where
  outCount : ℕ := maxOutCount
deriving DecidableEq, Repr

/-- `CRuleAgreement`. -/
abbrev RuleAgreement := List RuleAlternative

namespace WorkGrammar
variable (G : WorkGrammar)

/-- The meta symbols in the right parts of the rules of a symbol. -/
def directDependencies : Family ℕ :=
  (List.range G.symbolCount).map fun parent =>
    if G.isMeta parent then
      insertAll natLt
        ((G.encodedRules.filter (·.leftPart == parent)).flatMap
          fun R => R.rightPart.items.filter G.isMeta) []
    else []

def closureCommand (parent dep : ℕ) : Command ℕ where
  target := parent
  source F := if dep ∈ F.get parent then F.get dep else []

/-- The loops over the sets, each of which also meets what it has inserted behind its place. -/
def closureCommands : List (Command ℕ) :=
  (List.range G.symbolCount).flatMap fun parent =>
    (List.range G.symbolCount).map (closureCommand parent)

def dependenciesOfMetaSymbols : Family ℕ :=
  (saturate natLt G.closureCommands (G.symbolCount * G.symbolCount + 1) G.directDependencies).2

/-- The first limit among the alternatives; a limit of no words counts as none. -/
def ruleMaxOutCount (A : RuleAgreement) : ℕ :=
  match A.find? fun alternative => alternative.outCount < maxOutCount with
  | some alternative => if alternative.outCount = 0 then maxOutCount else alternative.outCount
  | none => maxOutCount

variable (ruleInfos : List RuleAgreement)

def ruleInfo (ruleInfos : List RuleAgreement) (R : WorkRule) : RuleAgreement :=
  ruleInfos.getD R.originalRuleNo []

def symbolMaxOutCount (symbol : ℕ) : ℕ :=
  if G.isMeta symbol then
    ((G.encodedRules.filter (·.leftPart == symbol)).map
      fun R => ruleMaxOutCount (ruleInfo ruleInfos R)).foldl max 0
  else 0

def maxOutCountForSymbols : ℕ → ℕ :=
  Lowering.lower G.dependenciesOfMetaSymbols.get
    ((List.range G.symbolCount).filter G.isMeta) (G.symbolMaxOutCount ruleInfos)

/-- The limit of the last alternative; there is one afterwards. -/
def writeLast (A : RuleAgreement) (outCount : ℕ) : RuleAgreement :=
  match A.getLast? with
  | none => [{ outCount }]
  | some alternative => A.dropLast ++ [{ alternative with outCount }]

def writeOutCount (limit : ℕ → ℕ) (infos : List RuleAgreement) (R : WorkRule) :
    List RuleAgreement :=
  if limit R.leftPart ≠ maxOutCount then
    infos.modify R.originalRuleNo fun A => writeLast A (limit R.leftPart)
  else infos

/-- `TransferOutCountFromSymbolToItsDependencies`. -/
def transferOutCount : Except String (List RuleAgreement) :=
  if ((List.range G.symbolCount).filter G.isMeta).any
      fun symbol => G.symbolMaxOutCount ruleInfos symbol == 0 then
    .error "Unused meta-symbol in TransferOutCountFromSymbolToItsDependencies"
  else
    .ok (G.encodedRules.foldl (writeOutCount (G.maxOutCountForSymbols ruleInfos)) ruleInfos)

/-- A rule of the first symbol has the second one in its right part. -/
def DependsOn (parent dep : ℕ) : Prop :=
  ∃ R ∈ G.encodedRules, R.leftPart = parent ∧ dep ∈ R.rightPart.items ∧ G.isMeta dep = true

variable {G ruleInfos}

theorem get_directDependencies {parent : ℕ} (hparent : parent < G.symbolCount) :
    G.directDependencies.get parent =
      if G.isMeta parent then
        insertAll natLt
          ((G.encodedRules.filter (·.leftPart == parent)).flatMap
            fun R => R.rightPart.items.filter G.isMeta) []
      else [] := by
  simp [directDependencies, Family.get, List.getD_eq_getElem?_getD, hparent]

theorem get_directDependencies_of_le {parent : ℕ} (hparent : G.symbolCount ≤ parent) :
    G.directDependencies.get parent = [] := by
  simp [directDependencies, Family.get, List.getD_eq_getElem?_getD, hparent]

theorem mem_directDependencies (hG : G.WellFormed) {parent dep : ℕ} :
    dep ∈ G.directDependencies.get parent ↔ G.DependsOn parent dep := by
  constructor
  · intro h
    by_cases hparent : parent < G.symbolCount
    · rw [get_directDependencies hparent] at h
      by_cases hmeta : G.isMeta parent = true
      · rw [if_pos hmeta, mem_insertAll_natLt, List.mem_flatMap] at h
        rcases h with ⟨R, hR, hdep⟩ | h
        · rw [List.mem_filter, beq_iff_eq] at hR
          rw [List.mem_filter] at hdep
          exact ⟨R, hR.1, hR.2, hdep.1, hdep.2⟩
        · exact absurd h List.not_mem_nil
      · rw [if_neg hmeta] at h
        exact absurd h List.not_mem_nil
    · rw [get_directDependencies_of_le (not_lt.mp hparent)] at h
      exact absurd h List.not_mem_nil
  · rintro ⟨R, hR, rfl, hdep, hmeta⟩
    rw [get_directDependencies (hG.left_lt R hR), if_pos (hG.left_meta R hR), mem_insertAll_natLt,
      List.mem_flatMap]
    exact Or.inl ⟨R, List.mem_filter.mpr ⟨hR, by simp⟩, List.mem_filter.mpr ⟨hdep, hmeta⟩⟩

theorem DependsOn.lt (hG : G.WellFormed) {parent dep : ℕ} (h : G.DependsOn parent dep) :
    parent < G.symbolCount ∧ dep < G.symbolCount := by
  obtain ⟨R, hR, rfl, hdep, _⟩ := h
  exact ⟨hG.left_lt R hR, hG.right_lt R hR dep hdep⟩

theorem length_directDependencies : G.directDependencies.length = G.symbolCount := by
  rw [directDependencies, List.length_map, List.length_range]

theorem mem_closureCommand_source {parent dep x : ℕ} {F : Family ℕ} :
    x ∈ (closureCommand parent dep).source F ↔ dep ∈ F.get parent ∧ x ∈ F.get dep := by
  by_cases hdep : dep ∈ F.get parent
  · simp [closureCommand, hdep]
  · simp [closureCommand, hdep]

theorem closureCommands_bounded :
    Bounded G.symbolCount (Finset.range G.symbolCount) G.closureCommands := by
  constructor
  · intro c hc
    obtain ⟨parent, hparent, hc⟩ := List.mem_flatMap.mp hc
    obtain ⟨dep, _, rfl⟩ := List.mem_map.mp hc
    exact List.mem_range.mp hparent
  · intro c hc F hF x hx
    obtain ⟨parent, _, hc⟩ := List.mem_flatMap.mp hc
    obtain ⟨dep, _, rfl⟩ := List.mem_map.mp hc
    exact hF dep x (mem_closureCommand_source.mp hx).2

theorem dependencies_saturated (hG : G.WellFormed) :
    Saturated G.symbolCount (Finset.range G.symbolCount) G.closureCommands
      (saturate natLt G.closureCommands (G.symbolCount * G.symbolCount + 1)
        G.directDependencies) := by
  apply saturate_saturated (fun _ _ => natLt_ext) closureCommands_bounded length_directDependencies
  · intro j x hx
    rw [mem_directDependencies hG] at hx
    exact Finset.mem_range.mpr (hx.lt hG).2
  · rw [Finset.card_range]
    exact Nat.lt_succ_self _

theorem mem_dependencies_iff (hG : G.WellFormed) {parent dep : ℕ} :
    dep ∈ G.dependenciesOfMetaSymbols.get parent ↔
      Relation.TransGen G.DependsOn parent dep := by
  have hsat := dependencies_saturated hG
  constructor
  · intro h
    refine saturate_forall (fun _ _ => natLt_ext) ?_ _ ?_ parent dep h
    · intro c hc F hF x hx
      obtain ⟨parent, _, hc⟩ := List.mem_flatMap.mp hc
      obtain ⟨dep, _, rfl⟩ := List.mem_map.mp hc
      obtain ⟨hdep, hx⟩ := mem_closureCommand_source.mp hx
      exact (hF parent dep hdep).trans (hF dep x hx)
    · intro j x hx
      exact Relation.TransGen.single ((mem_directDependencies hG).mp hx)
  · have hdirect : ∀ {p q : ℕ}, G.DependsOn p q → q ∈ G.dependenciesOfMetaSymbols.get p := by
      intro p q h
      exact saturate_mem (fun _ _ => natLt_ext) closureCommands_bounded
        length_directDependencies _ ((mem_directDependencies hG).mpr h)
    intro h
    induction h with
    | single h => exact hdirect h
    | @tail q s hpath h ih =>
      have hparent : parent < G.symbolCount := by
        rcases Relation.TransGen.head'_iff.mp hpath with ⟨_, h, _⟩
        exact (h.lt hG).1
      have hcommand : closureCommand parent q ∈ G.closureCommands :=
        List.mem_flatMap.mpr ⟨parent, List.mem_range.mpr hparent,
          List.mem_map.mpr ⟨q, List.mem_range.mpr (h.lt hG).1, rfl⟩⟩
      exact hsat.closed _ hcommand s (mem_closureCommand_source.mpr ⟨ih, hdirect h⟩)

/-- Some rule of every symbol that a symbol is part of, the symbol itself among them, has a first
limit that lets the words pass. -/
def Allows (G : WorkGrammar) (ruleInfos : List RuleAgreement) (symbol words : ℕ) : Prop :=
  ∀ parent, Relation.ReflTransGen G.DependsOn parent symbol →
    ∃ R ∈ G.encodedRules, R.leftPart = parent ∧
      words ≤ ruleMaxOutCount (ruleInfo ruleInfos R)

theorem le_foldl_max {words : ℕ} (l : List ℕ) (start : ℕ) :
    words ≤ l.foldl max start ↔ words ≤ start ∨ ∃ x ∈ l, words ≤ x := by
  induction l generalizing start with
  | nil => simp
  | cons x l ih =>
    rw [List.foldl_cons, ih, le_max_iff]
    simp [or_assoc]

theorem ruleMaxOutCount_le (A : RuleAgreement) : ruleMaxOutCount A ≤ maxOutCount := by
  rw [ruleMaxOutCount]
  cases hfind : A.find? fun alternative => alternative.outCount < maxOutCount with
  | none => exact le_rfl
  | some alternative =>
    have hlt := List.find?_some hfind
    rw [decide_eq_true_eq] at hlt
    by_cases hzero : alternative.outCount = 0
    · simp [hzero]
    · simp only [hzero, if_false]
      omega

theorem le_symbolMaxOutCount_iff {symbol words : ℕ} (hmeta : G.isMeta symbol = true)
    (hused : G.symbolMaxOutCount ruleInfos symbol ≠ 0) :
    words ≤ G.symbolMaxOutCount ruleInfos symbol ↔
      ∃ R ∈ G.encodedRules, R.leftPart = symbol ∧
        words ≤ ruleMaxOutCount (ruleInfo ruleInfos R) := by
  have hiff : ∀ v, v ≤ G.symbolMaxOutCount ruleInfos symbol ↔ v ≤ 0 ∨
      ∃ R ∈ G.encodedRules, R.leftPart = symbol ∧
        v ≤ ruleMaxOutCount (ruleInfo ruleInfos R) := by
    intro v
    rw [symbolMaxOutCount, if_pos hmeta, le_foldl_max]
    simp [and_assoc]
  rw [hiff]
  constructor
  · rintro (hzero | h)
    · -- a symbol with rules allows no words as well
      have hone := (hiff 1).mp (by omega)
      obtain ⟨R, hR, hleft, _⟩ := hone.resolve_left (by omega)
      exact ⟨R, hR, hleft, by omega⟩
    · exact h
  · exact Or.inr

/-- What the pass works out for a symbol. -/
theorem le_maxOutCountForSymbols_iff (hG : G.WellFormed)
    (hused : ∀ s < G.symbolCount, G.isMeta s = true → G.symbolMaxOutCount ruleInfos s ≠ 0)
    {symbol words : ℕ} (hsymbol : symbol < G.symbolCount) (hmeta : G.isMeta symbol = true) :
    words ≤ G.maxOutCountForSymbols ruleInfos symbol ↔ G.Allows ruleInfos symbol words := by
  have hparent : ∀ p, symbol ∈ G.dependenciesOfMetaSymbols.get p →
      p < G.symbolCount ∧ G.isMeta p = true := by
    intro p hp
    obtain ⟨_, ⟨R, hR, rfl, _⟩, _⟩ :=
      Relation.TransGen.head'_iff.mp ((mem_dependencies_iff hG).mp hp)
    exact ⟨hG.left_lt R hR, hG.left_meta R hR⟩
  rw [maxOutCountForSymbols, Lowering.le_lower_iff]
  · constructor
    · rintro ⟨hself, habove⟩ p hp
      rcases Relation.reflTransGen_iff_eq_or_transGen.mp hp with rfl | hp
      · exact (le_symbolMaxOutCount_iff hmeta (hused _ hsymbol hmeta)).mp hself
      · have hp' := (mem_dependencies_iff hG).mpr hp
        obtain ⟨hlt, hmeta'⟩ := hparent p hp'
        exact (le_symbolMaxOutCount_iff hmeta' (hused p hlt hmeta')).mp (habove p hp')
    · intro h
      constructor
      · exact (le_symbolMaxOutCount_iff hmeta (hused _ hsymbol hmeta)).mpr
          (h symbol Relation.ReflTransGen.refl)
      · intro p hp
        obtain ⟨hlt, hmeta'⟩ := hparent p hp
        exact (le_symbolMaxOutCount_iff hmeta' (hused p hlt hmeta')).mpr
          (h p ((mem_dependencies_iff hG).mp hp).to_reflTransGen)
  · intro p q t hq ht
    exact (mem_dependencies_iff hG).mpr
      (((mem_dependencies_iff hG).mp hq).trans ((mem_dependencies_iff hG).mp ht))
  · intro p hp
    obtain ⟨hlt, hmeta'⟩ := hparent p hp
    exact List.mem_filter.mpr ⟨List.mem_range.mpr hlt, hmeta'⟩

theorem maxOutCountForSymbols_eq_iff (hG : G.WellFormed)
    (hused : ∀ s < G.symbolCount, G.isMeta s = true → G.symbolMaxOutCount ruleInfos s ≠ 0)
    {symbol : ℕ} (hsymbol : symbol < G.symbolCount) (hmeta : G.isMeta symbol = true) :
    G.maxOutCountForSymbols ruleInfos symbol = maxOutCount ↔
      G.Allows ruleInfos symbol maxOutCount := by
  rw [← le_maxOutCountForSymbols_iff hG hused hsymbol hmeta]
  constructor
  · exact fun h => h.ge
  · intro h
    apply le_antisymm _ h
    obtain ⟨R, _, _, hle⟩ := (le_maxOutCountForSymbols_iff hG hused hsymbol hmeta).mp le_rfl
      symbol Relation.ReflTransGen.refl
    exact hle.trans (ruleMaxOutCount_le _)

theorem getElem?_writeLast (A : RuleAgreement) (outCount alternative : ℕ) :
    (writeLast A outCount)[alternative]? =
      if alternative = A.length - 1 then some { outCount } else A[alternative]? := by
  rw [writeLast]
  cases hlast : A.getLast? with
  | none =>
    rw [List.getLast?_eq_none_iff.mp hlast]
    cases alternative with
    | zero => rfl
    | succ alternative => rfl
  | some last =>
    obtain ⟨front, rfl⟩ := List.getLast?_eq_some_iff.mp hlast
    have hlength : (front ++ [last]).length - 1 = front.length := by simp
    rw [hlength, List.dropLast_concat]
    rcases lt_trichotomy alternative front.length with hlt | rfl | hgt
    · rw [if_neg (Nat.ne_of_lt hlt), List.getElem?_append_left hlt,
        List.getElem?_append_left hlt]
    · rw [if_pos rfl, List.getElem?_concat_length]
    · rw [if_neg (Nat.ne_of_gt hgt), List.getElem?_eq_none (by simp; omega),
        List.getElem?_eq_none (by simp; omega)]

theorem length_writeLast (A : RuleAgreement) (outCount : ℕ) :
    (writeLast A outCount).length - 1 = A.length - 1 := by
  rw [writeLast]
  cases hlast : A.getLast? with
  | none =>
    rw [List.getLast?_eq_none_iff.mp hlast]
    rfl
  | some last => simp

theorem ruleInfo_modify {infos : List RuleAgreement} {R R' : WorkRule}
    (hR : R.originalRuleNo < infos.length) (f : RuleAgreement → RuleAgreement) :
    ruleInfo (infos.modify R'.originalRuleNo f) R =
      if R'.originalRuleNo = R.originalRuleNo then f (ruleInfo infos R) else ruleInfo infos R := by
  rw [ruleInfo, ruleInfo, List.getD_eq_getElem?_getD, List.getD_eq_getElem?_getD,
    List.getElem?_modify, List.getElem?_eq_getElem hR]
  by_cases hno : R'.originalRuleNo = R.originalRuleNo
  · simp [hno]
  · simp [hno]

/-- What the alternatives of a rule are after the limits are written. -/
theorem ruleInfo_foldl_writeOutCount (limit : ℕ → ℕ) {rules : List WorkRule} {R : WorkRule}
    (hinj : ∀ R' ∈ rules, R'.originalRuleNo = R.originalRuleNo → R' = R)
    (infos : List RuleAgreement) (hR : R.originalRuleNo < infos.length) (alternative : ℕ) :
    (ruleInfo (rules.foldl (writeOutCount limit) infos) R)[alternative]? =
      if R ∈ rules ∧ limit R.leftPart ≠ maxOutCount ∧
          alternative = (ruleInfo infos R).length - 1 then
        some { outCount := limit R.leftPart }
      else (ruleInfo infos R)[alternative]? := by
  induction rules generalizing infos with
  | nil => simp
  | cons R' rules ih =>
    have ih := fun infos' => ih (fun R'' h => hinj R'' (List.mem_cons_of_mem R' h)) infos'
    rw [List.foldl_cons]
    by_cases hlimit : limit R'.leftPart = maxOutCount
    · have hsame : writeOutCount limit infos R' = infos := by
        rw [writeOutCount, if_neg (not_not_intro hlimit)]
      rw [hsame, ih infos hR]
      by_cases hRR : R = R'
      · simp [hRR, hlimit]
      · simp [hRR]
    · have hwrite : writeOutCount limit infos R' =
          infos.modify R'.originalRuleNo fun A => writeLast A (limit R'.leftPart) := by
        rw [writeOutCount, if_pos hlimit]
      rw [hwrite, ih _ (by rw [List.length_modify]; exact hR), ruleInfo_modify hR]
      by_cases hno : R'.originalRuleNo = R.originalRuleNo
      · have hRR : R' = R := hinj R' List.mem_cons_self hno
        subst hRR
        rw [if_pos rfl, length_writeLast, getElem?_writeLast]
        by_cases hlast : alternative = (ruleInfo infos R').length - 1
        · simp [hlast, hlimit]
        · simp [hlast]
      · have hRR : ¬ R = R' := by
          rintro rfl
          exact hno rfl
        rw [if_neg hno]
        simp [hRR]

/-- The trees over a row of symbols, each reduction with the alternative that was chosen. -/
inductive Forest where
  | nil
  | word (symbol : ℕ) (rest : Forest)
  | reduction (R : WorkRule) (alternative : ℕ) (children rest : Forest)

namespace Forest

def roots : Forest → List ℕ
  | nil => []
  | word symbol rest => symbol :: rest.roots
  | reduction R _ _ rest => R.leftPart :: rest.roots

/-- The number of words. -/
def words : Forest → ℕ
  | nil => 0
  | word _ rest => 1 + rest.words
  | reduction _ _ children rest => children.words + rest.words

/-- A reduction by a rule in one of its alternatives, with the number of words it covers. -/
structure Reduction where
  rule : WorkRule
  alternative : ℕ
  words : ℕ

def reductions : Forest → List Reduction
  | nil => []
  | word _ rest => rest.reductions
  | reduction R alternative children rest =>
    ⟨R, alternative, children.words⟩ :: (children.reductions ++ rest.reductions)

/-- The trees are derivations of a grammar. -/
def Derivation (G : WorkGrammar) : Forest → Prop
  | nil => True
  | word symbol rest => G.isMeta symbol = false ∧ rest.Derivation G
  | reduction R _ children rest =>
    R ∈ G.encodedRules ∧ children.roots = R.rightPart.items ∧ children.Derivation G ∧
      rest.Derivation G

/-- `ReduceCheckOutputGroupSize` passes: the alternative is there and lets the words pass. -/
def Reduction.Within (ruleInfos : List RuleAgreement) (r : Reduction) : Prop :=
  ∃ alternative, (ruleInfo ruleInfos r.rule)[r.alternative]? = some alternative ∧
    r.words ≤ alternative.outCount

def Within (ruleInfos : List RuleAgreement) (tree : Forest) : Prop :=
  ∀ r ∈ tree.reductions, r.Within ruleInfos

theorem Derivation.rule_mem {tree : Forest} (h : tree.Derivation G) :
    ∀ r ∈ tree.reductions, r.rule ∈ G.encodedRules := by
  induction tree with
  | nil => exact fun r hr => absurd hr List.not_mem_nil
  | word symbol rest ih => exact ih h.2
  | reduction R alternative children rest ihChildren ihRest =>
    obtain ⟨hR, _, hchildren, hrest⟩ := h
    intro r hr
    rcases List.mem_cons.mp hr with rfl | hr
    · exact hR
    · rcases List.mem_append.mp hr with hr | hr
      · exact ihChildren hchildren r hr
      · exact ihRest hrest r hr

end Forest

/-- The limit of the alternative is one that the pass writes: it is the last one of a rule of a
symbol that is limited. -/
def Written (G : WorkGrammar) (ruleInfos : List RuleAgreement) (r : Forest.Reduction) : Prop :=
  ¬ G.Allows ruleInfos r.rule.leftPart maxOutCount ∧
    r.alternative = (ruleInfo ruleInfos r.rule).length - 1

/-- A reduction after the pass. -/
theorem within_transferOutCount_iff (hG : G.WellFormed)
    (hinfos : ∀ R ∈ G.encodedRules, R.originalRuleNo < ruleInfos.length)
    {transferred : List RuleAgreement} (h : G.transferOutCount ruleInfos = .ok transferred)
    {r : Forest.Reduction} (hr : r.rule ∈ G.encodedRules) :
    (G.Written ruleInfos r → (r.Within transferred ↔
        G.Allows ruleInfos r.rule.leftPart r.words)) ∧
      (¬ G.Written ruleInfos r → (r.Within transferred ↔ r.Within ruleInfos)) := by
  rw [transferOutCount] at h
  split_ifs at h with hunused
  · have htransferred := Except.ok.inj h
    have hused : ∀ s < G.symbolCount, G.isMeta s = true →
        G.symbolMaxOutCount ruleInfos s ≠ 0 := by
      intro s hs hmeta hzero
      apply hunused
      rw [List.any_eq_true]
      refine ⟨s, List.mem_filter.mpr ⟨List.mem_range.mpr hs, hmeta⟩, ?_⟩
      rw [hzero]
      rfl
    have hleft := hG.left_lt r.rule hr
    have hmeta := hG.left_meta r.rule hr
    have hlimit := maxOutCountForSymbols_eq_iff hG hused hleft hmeta
    have hinfo := ruleInfo_foldl_writeOutCount (G.maxOutCountForSymbols ruleInfos)
      (fun R' hR' hno => hG.ruleNo_inj R' hR' r.rule hr hno) ruleInfos (hinfos r.rule hr)
      r.alternative
    rw [htransferred] at hinfo
    constructor
    · rintro ⟨hlimited, hlast⟩
      rw [Forest.Reduction.Within, hinfo, if_pos ⟨hr, mt hlimit.mp hlimited, hlast⟩,
        ← le_maxOutCountForSymbols_iff hG hused hleft hmeta]
      simp
    · intro hnot
      rw [Forest.Reduction.Within, hinfo, if_neg, Forest.Reduction.Within]
      rintro ⟨_, hlimited, hlast⟩
      exact hnot ⟨mt hlimit.mpr hlimited, hlast⟩

/-- The pass keeps a tree legal or illegal where no reduction is over just one of its own limit and
the limit that is written, or where the tree is over both by different reductions. -/
theorem transferOutCount_keeps_iff (G : WorkGrammar) (hG : G.WellFormed)
    (ruleInfos : List RuleAgreement)
    (hinfos : ∀ R ∈ G.encodedRules, R.originalRuleNo < ruleInfos.length)
    (transferred : List RuleAgreement) (h : G.transferOutCount ruleInfos = .ok transferred)
    (tree : Forest) (htree : tree.Derivation G) :
    (tree.Within transferred ↔ tree.Within ruleInfos) ↔
      (∀ r ∈ tree.reductions, G.Written ruleInfos r →
        (r.Within ruleInfos ↔ G.Allows ruleInfos r.rule.leftPart r.words)) ∨
      ((∃ r ∈ tree.reductions, ¬ r.Within ruleInfos) ∧
        ∃ r ∈ tree.reductions,
          (G.Written ruleInfos r ∧ ¬ G.Allows ruleInfos r.rule.leftPart r.words) ∨
          (¬ G.Written ruleInfos r ∧ ¬ r.Within ruleInfos)) := by
  have hafter : ∀ r ∈ tree.reductions, (¬ r.Within transferred ↔
      (G.Written ruleInfos r ∧ ¬ G.Allows ruleInfos r.rule.leftPart r.words) ∨
        (¬ G.Written ruleInfos r ∧ ¬ r.Within ruleInfos)) := by
    intro r hr
    obtain ⟨hwritten, hnot⟩ :=
      within_transferOutCount_iff hG hinfos h (htree.rule_mem r hr)
    by_cases hw : G.Written ruleInfos r
    · rw [hwritten hw]
      simp [hw]
    · rw [hnot hw]
      simp [hw]
  have hbroken : ∀ infos, (¬ tree.Within infos ↔ ∃ r ∈ tree.reductions, ¬ r.Within infos) := by
    intro infos
    rw [Forest.Within]
    simp
  constructor
  · intro hiff
    by_cases hwithin : tree.Within ruleInfos
    · left
      intro r hr hw
      have hr' := hiff.mpr hwithin r hr
      rw [(within_transferOutCount_iff hG hinfos h (htree.rule_mem r hr)).1 hw] at hr'
      exact ⟨fun _ => hr', fun _ => hwithin r hr⟩
    · right
      have htransferred := mt hiff.mp hwithin
      obtain ⟨r, hr, hover⟩ := (hbroken transferred).mp htransferred
      exact ⟨(hbroken ruleInfos).mp hwithin, r, hr, (hafter r hr).mp hover⟩
  · rintro (hkeeps | ⟨hbefore, r, hr, hover⟩)
    · have hsame : ∀ r ∈ tree.reductions, (r.Within transferred ↔ r.Within ruleInfos) := by
        intro r hr
        obtain ⟨hwritten, hnot⟩ :=
          within_transferOutCount_iff hG hinfos h (htree.rule_mem r hr)
        by_cases hw : G.Written ruleInfos r
        · exact (hwritten hw).trans (hkeeps r hr hw).symm
        · exact hnot hw
      exact forall₂_congr hsame
    · have hbefore' := (hbroken ruleInfos).mpr hbefore
      have hafter' := (hbroken transferred).mpr ⟨r, hr, (hafter r hr).mpr hover⟩
      exact ⟨fun h => absurd h hafter', fun h => absurd h hbefore'⟩

/-- `S -> X; X -> w w {count=1}; X -> w w w {count=3}`. -/
def twoLimits : WorkGrammar where
  uniqueGrammarItems :=
    [{ type := .siMeta, itemStrId := "S" },
      { type := .siMeta, itemStrId := "X", grammarRoot := false },
      { type := .siString, itemStrId := "w", grammarRoot := false }]
  encodedRules := [⟨0, 0, ⟨[1], 0⟩⟩, ⟨1, 1, ⟨[2, 2], 0⟩⟩, ⟨2, 1, ⟨[2, 2, 2], 0⟩⟩]

def twoLimitsInfos : List RuleAgreement := [[{}], [{ outCount := 1 }], [{ outCount := 3 }]]

/-- The tree of two words. -/
def twoWords : Forest :=
  .reduction ⟨0, 0, ⟨[1], 0⟩⟩ 0
    (.reduction ⟨1, 1, ⟨[2, 2], 0⟩⟩ 0 (.word 2 (.word 2 .nil)) .nil) .nil

theorem twoLimits_wellFormed : twoLimits.WellFormed := by
  refine ⟨⟨⟨?_, ?_, ?_⟩, ?_⟩, ?_⟩ <;> decide

theorem transferOutCount_twoLimits :
    twoLimits.transferOutCount twoLimitsInfos =
      .ok [[{}], [{ outCount := 3 }], [{ outCount := 3 }]] := by
  rfl

/-- Two words for `X` are over the limit before the pass and within it afterwards. -/
theorem twoWords_not_kept :
    twoLimits.WellFormed ∧ twoWords.Derivation twoLimits ∧
      twoWords.roots = [twoLimits.rootIndex] ∧
      ∃ transferred, twoLimits.transferOutCount twoLimitsInfos = .ok transferred ∧
        ¬ (twoWords.Within transferred ↔ twoWords.Within twoLimitsInfos) := by
  refine ⟨twoLimits_wellFormed, ?_, rfl, _, transferOutCount_twoLimits, ?_⟩
  · simp only [twoWords, Forest.Derivation, and_true]
    decide
  · simp [twoWords, Forest.Within, Forest.reductions, Forest.words, Forest.Reduction.Within,
      ruleInfo, twoLimitsInfos, maxOutCount]

/-- The tree of three words. -/
def threeWords : Forest :=
  .reduction ⟨0, 0, ⟨[1], 0⟩⟩ 0
    (.reduction ⟨2, 1, ⟨[2, 2, 2], 0⟩⟩ 0 (.word 2 (.word 2 (.word 2 .nil))) .nil) .nil

/-- Three words for `X` are within the limits before and after the pass. -/
theorem threeWords_kept :
    threeWords.Within [[{}], [{ outCount := 3 }], [{ outCount := 3 }]] ↔
      threeWords.Within twoLimitsInfos := by
  have hused : ∀ s < twoLimits.symbolCount, twoLimits.isMeta s = true →
      twoLimits.symbolMaxOutCount twoLimitsInfos s ≠ 0 := by
    decide
  apply (transferOutCount_keeps_iff twoLimits twoLimits_wellFormed twoLimitsInfos (by decide) _
    transferOutCount_twoLimits threeWords (by
      simp only [threeWords, Forest.Derivation, and_true]
      decide)).mpr
  left
  intro r hr hw
  simp only [threeWords, Forest.reductions, Forest.words, List.append_nil, List.mem_cons,
    List.not_mem_nil, or_false] at hr
  rcases hr with rfl | rfl
  · -- the root is not limited
    exact absurd ((maxOutCountForSymbols_eq_iff twoLimits_wellFormed hused (by decide)
      (by decide)).mp rfl) hw.1
  · constructor
    · intro _
      exact (le_maxOutCountForSymbols_iff twoLimits_wellFormed hused (by decide) (by decide)).mp
        (by decide)
    · intro _
      exact ⟨{ outCount := 3 }, rfl, by decide⟩

end WorkGrammar
end TomitaParser
