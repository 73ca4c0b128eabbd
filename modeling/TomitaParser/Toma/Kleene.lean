import Mathlib.Algebra.GroupWithZero.Nat
import Mathlib.Algebra.BigOperators.Group.List.Basic
import TomitaParser.Toma.Options
/-! # Kleene operators

Repetitions and coordinations become helper rules, and a rule with optional items becomes one rule
for each choice of the items that are left out. Leaving an item out takes the agreements that it
shares with others away from them. -/

namespace TomitaParser
open OptionPrinter

/-- The agreements of an item. -/
def RuleItemProto.agrs (item : RuleItemProto) : List AgrProto := item.term.termPostfix.agr

def RuleItemProto.withAgrs (item : RuleItemProto) (agrs : List AgrProto) : RuleItemProto :=
  { item with term := { item.term with termPostfix := { item.term.termPostfix with agr := agrs } } }

@[simp] theorem RuleItemProto.agrs_withAgrs (item : RuleItemProto) (agrs : List AgrProto) :
    (item.withAgrs agrs).agrs = agrs := rfl

@[simp] theorem RuleItemProto.isOptionalItem_withAgrs (item : RuleItemProto)
    (agrs : List AgrProto) : (item.withAgrs agrs).isOptionalItem = item.isOptionalItem := rfl

namespace Kleene

/-- `AddRuleItem`. -/
def addRuleItem (name : String) (type : TermType) (main : Bool := false) : RuleItemProto :=
  { term := { name := name, type := type, termPostfix := { root := main } } }

/-- `MakeRuleFromItem`: the term goes into a rule of its own, the agreements and the root mark
stay on the item. -/
def makeRuleFromItem (item : RuleItemProto) (ruleName : String) : RuleItemProto × RuleProto :=
  let p := item.term.termPostfix
  ({ item with
      term := { name := ruleName, type := .nonTerminal,
                termPostfix := { root := p.root, agr := p.agr } } },
    { name := ruleName,
      items := [{ term := { item.term with termPostfix := { p with root := true, agr := [] } } }] })

/-- `SetAgreement`, for one of the two items. -/
def setAgreement (id : ℕ) (agrType : AgrType) (negative : Bool) : List AgrProto :=
  if agrType ≠ .any then [{ type := agrType, negative := negative, id := id }] else []

/-- `TransformAgreements`, for one of the two items; they are numbered afresh. -/
def transformAgreements (srcTerm : RuleItemProto) : List AgrProto :=
  srcTerm.agrs.zipIdx.flatMap (fun a => setAgreement a.2 a.1.type a.1.negative) ++
    setAgreement srcTerm.agrs.length srcTerm.agr false

/-- `AddCoordRules`. -/
def addCoordRules (ruleName : String) (srcTerm : RuleItemProto) : List RuleProto :=
  let agrs := transformAgreements srcTerm
  let list (conjunction : String) : RuleProto :=
    { name := ruleName,
      items := [(addRuleItem ruleName .nonTerminal true).withAgrs agrs,
        addRuleItem conjunction .terminal,
        (addRuleItem srcTerm.term.name srcTerm.term.type).withAgrs agrs] }
  [list "Comma", list "SimConjAnd",
    { name := ruleName, items := [addRuleItem srcTerm.term.name srcTerm.term.type true] }]

/-- `AddPlusRules`. -/
def addPlusRules (ruleName : String) (srcTerm : RuleItemProto) : List RuleProto :=
  let agrs := transformAgreements srcTerm
  [{ name := ruleName,
     items := [(addRuleItem ruleName .nonTerminal true).withAgrs agrs,
        (addRuleItem srcTerm.term.name srcTerm.term.type).withAgrs agrs] },
    { name := ruleName, items := [addRuleItem srcTerm.term.name srcTerm.term.type true] }]

/-- The names in use, and the pseudonyms given to names with options. -/
structure Names where
  knownRules : List String := []
  pseudo : List (String × String) := []

theorem length_lt_appendOptionToName (name option : String) (h : option ≠ "") :
    name.length < (appendOptionToName name option).length := by
  have hpos : 0 < option.toList.length := by
    rw [String.length_toList]
    exact Nat.pos_of_ne_zero fun h0 => h (String.length_eq_zero_iff.mp h0)
  rw [appendOptionToName, if_neg h]
  split_ifs with hb
  · have hne : name.toList ≠ [] := by
      intro h0
      simp [h0] at hb
    have hlen := List.length_pos_of_ne_nil hne
    rw [← String.length_toList, ← String.length_toList]
    simp only [String.toList_ofList, List.length_append, List.length_dropLast, List.length_cons,
      List.length_nil]
    omega
  · rw [← String.length_toList, ← String.length_toList]
    simp only [String.toList_ofList, List.length_append, List.length_cons, List.length_nil]
    omega

theorem length_filter_longer_lt {known : List String} {name longer : String}
    (hn : name ∈ known) (hlt : name.length < longer.length) :
    (known.filter fun k => longer.length ≤ k.length).length <
      (known.filter fun k => name.length ≤ k.length).length := by
  have hsub : known.filter (fun k => longer.length ≤ k.length) =
      (known.filter fun k => name.length ≤ k.length).filter
        fun k => longer.length ≤ k.length := by
    rw [List.filter_filter]
    apply List.filter_congr
    intro k _
    by_cases hk : longer.length ≤ k.length
    · simp [hk, hlt.le.trans hk]
    · simp [hk]
  rw [hsub]
  apply List.length_filter_lt_length_iff_exists.mpr
  exact ⟨name, List.mem_filter.mpr ⟨hn, by simp⟩, by simpa using hlt⟩

/-- The first of the names `name`, `{name@}`, `{name@@}`, … that is not in use. -/
def unusedName (known : List String) (name : String) : String :=
  if name ∈ known then unusedName known (appendOptionToName name "@") else name
termination_by (known.filter fun k => name.length ≤ k.length).length
decreasing_by
  exact length_filter_longer_lt ‹_› (length_lt_appendOptionToName name "@" (by decide))

/-- The name that an item's helper rules are named after, with the item as it is renamed for it and
the rule that a new pseudonym brings. -/
def Names.baseName (s : Names) (item : RuleItemProto) :
    String × RuleItemProto × List RuleProto × Names :=
  let newRuleName := mergeOptionsToName item.term
  if item.term.name ≠ newRuleName then
    match s.pseudo.lookup newRuleName with
    | some name => (name, item, [], s)
    | none =>
      let tmpName := unusedName s.knownRules (appendOptionToName item.term.name "@")
      let (item', rule) := makeRuleFromItem item tmpName
      (tmpName, item', [rule],
        { knownRules := tmpName :: s.knownRules, pseudo := (newRuleName, tmpName) :: s.pseudo })
  else (newRuleName, item, [], s)

/-- `knownRules.insert(name)`, with whether it was new. -/
def Names.insert (s : Names) (name : String) : Bool × Names :=
  if name ∈ s.knownRules then (false, s) else (true, { s with knownRules := name :: s.knownRules })

/-- The renamed item, its options cleared; one that can be left out stays marked as such. -/
def cleanUp (item : RuleItemProto) (newRuleName : String) : RuleItemProto :=
  let item := if newRuleName ≠ "" then
    { item with term := { item.term with name := newRuleName, type := .nonTerminal } } else item
  { item with
    option := if item.isOptionalItem then item.option else .single
    agr := .any
    coord := false }

/-- One item in the first loop of `KleeneTransform`. -/
def Names.renameItem (s : Names) (item : RuleItemProto) :
    RuleItemProto × List RuleProto × Names :=
  if item.coord || item.option == .star || item.option == .plus then
    let (baseName, item, moved, s) := s.baseName item
    let newRuleName := appendOptionToName baseName (if item.coord then "!" else "+")
    let (isNew, s) := s.insert newRuleName
    let added :=
      if isNew then
        if item.coord then addCoordRules newRuleName item else addPlusRules newRuleName item
      else []
    (cleanUp item newRuleName, moved ++ added, s)
  else (cleanUp item "", [], s)

def Names.renameItems (s : Names) : List RuleItemProto → List RuleItemProto × List RuleProto × Names
  | [] => ([], [], s)
  | item :: items =>
    let (item', added, s) := s.renameItem item
    let (items', added', s) := s.renameItems items
    (item' :: items', added ++ added', s)

def Names.renameRules (s : Names) : List RuleProto → List RuleProto × List RuleProto × Names
  | [] => ([], [], s)
  | rule :: rules =>
    let (items, added, s) := s.renameItems rule.items
    let (rules', added', s) := s.renameRules rules
    ({ rule with items := items } :: rules', added ++ added', s)

/-- The first loop of `KleeneTransform`. It goes on over the helper rules that it adds to the file,
which add no more. -/
def renamed (rules : List RuleProto) : List RuleProto :=
  let (rules', added, s) := Names.renameRules { knownRules := rules.map (·.name) } rules
  let (helpers, more, _) := s.renameRules added
  rules' ++ helpers ++ more

/-- `RemoveAgreements`: the last agreement takes the place of a removed one. -/
def removeAgreements (ids : List ℕ) : List AgrProto → List AgrProto
  | [] => []
  | a :: rest =>
    if a.id ∈ ids then
      match _h : rest.getLast? with
      | none => []
      | some last => removeAgreements ids (last :: rest.dropLast)
    else a :: removeAgreements ids rest
termination_by agrs => agrs.length
decreasing_by
  · obtain ⟨init, rfl⟩ := List.getLast?_eq_some_iff.mp _h
    simp
  · simp

/-- The rest of the rule without `item`. -/
def withoutItem (item : RuleItemProto) (items : List RuleItemProto) : List RuleItemProto :=
  if item.agrs.isEmpty then items
  else items.map fun other => other.withAgrs (removeAgreements (item.agrs.map (·.id)) other.agrs)

/-- The items `done` have been passed; each optional item of `rest` stays in this rule and is
missing in a new one. -/
def dropOptional (rule : RuleProto) (done : List RuleItemProto) :
    List RuleItemProto → RuleProto × List RuleProto
  | [] => ({ rule with items := done }, [])
  | item :: rest =>
    if item.isOptionalItem then
      let (rule', added) := dropOptional rule (done ++ [{ item with option := .single }]) rest
      (rule', { rule with items := withoutItem item (done ++ rest) } :: added)
    else dropOptional rule (done ++ [item]) rest

/-- The number of rules that a rule becomes. -/
def choices (rule : RuleProto) : ℕ := 2 ^ rule.items.countP RuleItemProto.isOptionalItem

@[simp] theorem countP_withoutItem (item : RuleItemProto) (items : List RuleItemProto) :
    (withoutItem item items).countP RuleItemProto.isOptionalItem =
      items.countP RuleItemProto.isOptionalItem := by
  rw [withoutItem]
  split_ifs
  · rfl
  · rw [List.countP_map]
    rfl

theorem sum_choices_dropOptional (rule : RuleProto) (done rest : List RuleItemProto)
    (hdone : done.countP RuleItemProto.isOptionalItem = 0) :
    (((dropOptional rule done rest).2).map choices).sum + 1 =
      2 ^ rest.countP RuleItemProto.isOptionalItem := by
  induction rest generalizing done with
  | nil => rfl
  | cons item rest ih =>
    rw [dropOptional]
    split_ifs with h
    · have hsingle : (done ++ [{ item with option := ItemOption.single }]).countP
          RuleItemProto.isOptionalItem = 0 := by
        rw [List.countP_append, hdone]
        rfl
      have hnew : choices { rule with items := withoutItem item (done ++ rest) } =
          2 ^ rest.countP RuleItemProto.isOptionalItem := by
        rw [choices, countP_withoutItem, List.countP_append, hdone, Nat.zero_add]
      simp only [List.map_cons, List.sum_cons, List.countP_cons, h, if_true, pow_succ, hnew]
      have := ih _ hsingle
      omega
    · have hskip : (done ++ [item]).countP RuleItemProto.isOptionalItem = 0 := by
        simp [List.countP_append, hdone, h]
      rw [ih _ hskip, List.countP_cons_of_neg h]

/-- The second loop of `KleeneTransform`: the new rules wait at the end of the file. -/
def withoutOptional : List RuleProto → List RuleProto
  | [] => []
  | rule :: rest =>
    (dropOptional rule [] rule.items).1 ::
      withoutOptional (rest ++ (dropOptional rule [] rule.items).2)
termination_by rules => (rules.map choices).sum
decreasing_by
  have := sum_choices_dropOptional rule [] rule.items rfl
  simp only [List.map_append, List.map_cons, List.sum_append, List.sum_cons, choices]
  omega

/-- The rules of a file after the loops of `KleeneTransform`. -/
def kleeneTransform (rules : List RuleProto) : List RuleProto :=
  withoutOptional (renamed rules)

end Kleene
end TomitaParser
