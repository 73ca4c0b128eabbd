import TomitaParser.Lib.SwapRemoval
import TomitaParser.Lib.Traversal
import TomitaParser.Toma.Syntax
/-! # Unreferenced rules

The rules that cannot be reached from the root of a grammar are removed. The index of the rules
holds the names of all terms in one table, whatever the type of the term. -/

namespace TomitaParser
open Traversal SwapRemoval Relation

/-- `TFileProto`, the parts that make up the grammar. -/
structure FileProto where
  name : String
  grammarRoot : String := ""
  rules : List RuleProto := []
deriving DecidableEq, Repr

namespace RuleIndex

/-- `Names`, in the order of `AddName`. -/
def names (rules : List RuleProto) : List String :=
  (rules.flatMap fun rule => rule.name :: rule.items.map (·.term.name)).foldl addNew []

/-- Some rule with another left part has the name in its right part. -/
def referred (rules : List RuleProto) (name : String) : Bool :=
  rules.any fun rule => name != rule.name && rule.items.any (·.term.name == name)

def findImplicitRoots (rules : List RuleProto) : List String :=
  (names rules).filter fun name => !referred rules name

/-- The right parts of the rules of a name. -/
def children (rules : List RuleProto) (name : String) : List String :=
  (rules.filter (·.name == name)).flatMap fun rule => rule.items.map (·.term.name)

/-- The names that the traversal from the root meets. -/
def traversed (rules : List RuleProto) (root : String) : List String :=
  (traverse (children rules) ((names rules).length + 1) root).2.1

/-- `FindUnrefRules`: the places of the rules whose names are not met. -/
def findUnrefRules (rules : List RuleProto) (root : String) : List ℕ :=
  rejected (fun rule => (traversed rules root).contains rule.name) 0 rules

end RuleIndex
open RuleIndex

/-- `RemoveRules` on what `FindUnrefRules` finds. -/
def removeUnref (rules : List RuleProto) (root : String) : List RuleProto :=
  let unref := findUnrefRules rules root
  if unref.isEmpty then rules else removeIndexes unref rules

/-- `RemoveUnrefRules`; an error is the name of the file and a text. -/
def removeUnrefRules (file : FileProto) : Except (String × String) FileProto :=
  if file.rules.any (·.name == file.grammarRoot) then
    .ok { file with rules := removeUnref file.rules file.grammarRoot }
  else if file.grammarRoot ≠ "" then
    .error (file.name, "Undefined rule \"" ++ file.grammarRoot ++ "\" specified as grammar root.")
  else
    match findImplicitRoots file.rules with
    | [root] => .ok { file with grammarRoot := root, rules := removeUnref file.rules root }
    | roots => .error (file.name, "Cannot deduce grammar root from rule graph (found " ++
        toString roots.length ++ " implicit roots). You need to specify the root explicitly.")

/-- A rule of `a` has `b` in its right part, in an item of a type that counts. -/
def Refers (rules : List RuleProto) (counts : TermType → Prop) (a b : String) : Prop :=
  ∃ rule ∈ rules, rule.name = a ∧ ∃ item ∈ rule.items, counts item.term.type ∧ item.term.name = b

def Reaches (rules : List RuleProto) (counts : TermType → Prop) : String → String → Prop :=
  ReflTransGen (Refers rules counts)

/-- A rule name that no rule with another left part uses. -/
def Unused (rules : List RuleProto) (counts : TermType → Prop) (name : String) : Prop :=
  name ∈ rules.map (·.name) ∧ ∀ a, Refers rules counts a name → a = name

def IsNonTerminal (type : TermType) : Prop := type = .nonTerminal

def AnyType (_ : TermType) : Prop := True

theorem Refers.anyType {rules : List RuleProto} {counts : TermType → Prop} {a b : String}
    (h : Refers rules counts a b) : Refers rules AnyType a b := by
  obtain ⟨rule, hrule, ha, item, hitem, -, hb⟩ := h
  exact ⟨rule, hrule, ha, item, hitem, trivial, hb⟩

theorem Refers.left_mem {rules : List RuleProto} {counts : TermType → Prop} {a b : String}
    (h : Refers rules counts a b) : a ∈ rules.map (·.name) := by
  obtain ⟨rule, hrule, ha, -⟩ := h
  exact List.mem_map.mpr ⟨rule, hrule, ha⟩

theorem Reaches.anyType {rules : List RuleProto} {counts : TermType → Prop} {a b : String}
    (h : Reaches rules counts a b) : Reaches rules AnyType a b :=
  ReflTransGen.mono (fun _ _ => Refers.anyType) a b h

theorem Unused.of_anyType {rules : List RuleProto} {counts : TermType → Prop} {name : String}
    (h : Unused rules AnyType name) : Unused rules counts name :=
  ⟨h.1, fun a ha => h.2 a ha.anyType⟩

theorem mem_names {rules : List RuleProto} {name : String} :
    name ∈ names rules ↔
      name ∈ rules.map (·.name) ∨ ∃ rule ∈ rules, ∃ item ∈ rule.items, item.term.name = name := by
  rw [names, mem_foldl_addNew]
  simp only [List.not_mem_nil, false_or, List.mem_flatMap, List.mem_cons, List.mem_map]
  constructor
  · rintro ⟨rule, hrule, rfl | hitem⟩
    · exact Or.inl ⟨rule, hrule, rfl⟩
    · exact Or.inr ⟨rule, hrule, hitem⟩
  · rintro (⟨rule, hrule, rfl⟩ | ⟨rule, hrule, hitem⟩)
    · exact ⟨rule, hrule, Or.inl rfl⟩
    · exact ⟨rule, hrule, Or.inr hitem⟩

theorem referred_iff {rules : List RuleProto} {name : String} :
    referred rules name = true ↔ ∃ a, Refers rules AnyType a name ∧ a ≠ name := by
  simp only [referred, List.any_eq_true, Bool.and_eq_true, bne_iff_ne, beq_iff_eq]
  constructor
  · rintro ⟨rule, hrule, hne, item, hitem, heq⟩
    exact ⟨rule.name, ⟨rule, hrule, rfl, item, hitem, trivial, heq⟩, fun h => hne h.symm⟩
  · rintro ⟨a, ⟨rule, hrule, rfl, item, hitem, -, heq⟩, hne⟩
    exact ⟨rule, hrule, fun h => hne h.symm, item, hitem, heq⟩

theorem mem_findImplicitRoots {rules : List RuleProto} {name : String} :
    name ∈ findImplicitRoots rules ↔ Unused rules AnyType name := by
  rw [findImplicitRoots, List.mem_filter, Bool.not_eq_true', Bool.eq_false_iff, Ne, referred_iff,
    mem_names]
  constructor
  · rintro ⟨hmem, hno⟩
    have huse : ∀ a, Refers rules AnyType a name → a = name := by
      intro a ha
      by_contra hne
      exact hno ⟨a, ha, hne⟩
    refine ⟨?_, huse⟩
    rcases hmem with hmem | ⟨rule, hrule, item, hitem, heq⟩
    · exact hmem
    · have := huse rule.name ⟨rule, hrule, rfl, item, hitem, trivial, heq⟩
      exact List.mem_map.mpr ⟨rule, hrule, this⟩
  · rintro ⟨hmem, huse⟩
    exact ⟨Or.inl hmem, fun ⟨a, ha, hne⟩ => hne (huse a ha)⟩

theorem nodup_findImplicitRoots (rules : List RuleProto) : (findImplicitRoots rules).Nodup :=
  (nodup_foldl_addNew List.nodup_nil _).filter _

theorem mem_children {rules : List RuleProto} {a b : String} :
    b ∈ children rules a ↔ Refers rules AnyType a b := by
  simp only [children, List.mem_flatMap, List.mem_filter, beq_iff_eq, List.mem_map, Refers, AnyType,
    true_and]
  constructor
  · rintro ⟨rule, ⟨hrule, ha⟩, item, hitem, hb⟩
    exact ⟨rule, hrule, ha, item, hitem, hb⟩
  · rintro ⟨rule, hrule, ha, item, hitem, hb⟩
    exact ⟨rule, ⟨hrule, ha⟩, item, hitem, hb⟩

theorem mem_traversed {rules : List RuleProto} {root : String}
    (hroot : root ∈ rules.map (·.name)) (name : String) :
    name ∈ traversed rules root ↔ Reaches rules AnyType root name := by
  rw [traversed, mem_traverse (mem_names.mpr (Or.inl hroot)) _ (Nat.lt_succ_self _)]
  · have hrel : (fun a b => b ∈ children rules a) = Refers rules AnyType := by
      funext a b
      exact propext mem_children
    rw [hrel, Reaches]
  · intro a _ b hb
    obtain ⟨rule, hrule, -, item, hitem, -, heq⟩ := mem_children.mp hb
    exact mem_names.mpr (Or.inr ⟨rule, hrule, item, hitem, heq⟩)

theorem removeUnref_eq (rules : List RuleProto) (root : String) :
    removeUnref rules root =
      rules.filter fun rule => (traversed rules root).contains rule.name := by
  have h := removeIndexes_rejected (fun rule => (traversed rules root).contains rule.name) rules
  rw [removeUnref, findUnrefRules]
  split_ifs with hnone
  · rw [← h, List.isEmpty_iff.mp hnone]
    rfl
  · exact h

/-- A terminal or lemma in a rule that is reached through non-terminals is not spelled like a rule
that is not. -/
def Closed (rules : List RuleProto) (root : String) : Prop :=
  ∀ rule ∈ rules, Reaches rules IsNonTerminal root rule.name → ∀ item ∈ rule.items,
    ¬ IsNonTerminal item.term.type → item.term.name ∈ rules.map (·.name) →
      Reaches rules IsNonTerminal root item.term.name

theorem closed_iff {rules : List RuleProto} {root : String} :
    Closed rules root ↔ ∀ rule ∈ rules, Reaches rules AnyType root rule.name →
      Reaches rules IsNonTerminal root rule.name := by
  constructor
  · intro h
    have hreach : ∀ name, Reaches rules AnyType root name → name ∈ rules.map (·.name) →
        Reaches rules IsNonTerminal root name := by
      intro name hname
      induction hname with
      | refl => exact fun _ => ReflTransGen.refl
      | tail _ huse ih =>
        intro hmem
        have hleft := ih huse.left_mem
        obtain ⟨rule, hrule, rfl, item, hitem, -, rfl⟩ := huse
        by_cases hnt : IsNonTerminal item.term.type
        · exact hleft.tail ⟨rule, hrule, rfl, item, hitem, hnt, rfl⟩
        · exact h rule hrule hleft item hitem hnt hmem
    exact fun rule hrule hr => hreach rule.name hr (List.mem_map_of_mem hrule)
  · intro h rule hrule hr item hitem _ hmem
    obtain ⟨other, hother, heq⟩ := List.mem_map.mp hmem
    rw [← heq]
    apply h other hother
    rw [heq]
    exact hr.anyType.tail ⟨rule, hrule, rfl, item, hitem, trivial, rfl⟩

/-- The removal does what its name says: the rules that stay are those reached through
non-terminals, and a root that is not named is the one rule name not used as a non-terminal. -/
structure KeepsReachable (file : FileProto) : Prop where
  named : file.grammarRoot ≠ "" → ∀ out, removeUnrefRules file = .ok out →
    out.grammarRoot = file.grammarRoot
  deduced : file.grammarRoot = "" →
    ((∃ out, removeUnrefRules file = .ok out) ↔ ∃! name, Unused file.rules IsNonTerminal name)
  becomesRoot : file.grammarRoot = "" → ∀ out, removeUnrefRules file = .ok out →
    Unused file.rules IsNonTerminal out.grammarRoot
  rules : ∀ out, removeUnrefRules file = .ok out → ∃ keep : RuleProto → Bool,
    (∀ rule ∈ file.rules,
      keep rule = true ↔ Reaches file.rules IsNonTerminal out.grammarRoot rule.name) ∧
    out.rules = file.rules.filter keep

/-- The root that the removal starts from. -/
def IsRoot (file : FileProto) (root : String) : Prop :=
  if file.grammarRoot = "" then
    Unused file.rules AnyType root ∧ ∀ name, Unused file.rules AnyType name → name = root
  else root = file.grammarRoot ∧ root ∈ file.rules.map (·.name)

/-- Terminals and lemmas that are spelled like rules do not matter. -/
structure NamesApart (file : FileProto) : Prop where
  roots : file.grammarRoot = "" →
    ((∃! name, Unused file.rules AnyType name) ↔ ∃! name, Unused file.rules IsNonTerminal name)
  closed : ∀ root, IsRoot file root → Closed file.rules root

theorem findImplicitRoots_eq_singleton {rules : List RuleProto} {root : String} :
    findImplicitRoots rules = [root] ↔
      Unused rules AnyType root ∧ ∀ name, Unused rules AnyType name → name = root := by
  simp only [← mem_findImplicitRoots]
  constructor
  · intro h
    rw [h]
    exact ⟨List.mem_singleton_self root, fun name hname => List.mem_singleton.mp hname⟩
  · rintro ⟨hmem, huniq⟩
    have hn := nodup_findImplicitRoots rules
    cases hroots : findImplicitRoots rules with
    | nil => simp [hroots] at hmem
    | cons first rest =>
      rw [hroots] at huniq hn
      have hfirst : first = root := huniq first List.mem_cons_self
      cases rest with
      | nil => rw [hfirst]
      | cons second rest =>
        have hsecond : second = root := huniq second (by simp)
        rw [hfirst, hsecond] at hn
        simp at hn

theorem removeUnrefRules_ok_iff {file : FileProto} (hnames : ∀ rule ∈ file.rules, rule.name ≠ "")
    {out : FileProto} :
    removeUnrefRules file = .ok out ↔ ∃ root, IsRoot file root ∧
      out = { file with grammarRoot := root, rules := removeUnref file.rules root } := by
  rw [removeUnrefRules]
  by_cases hroot : file.grammarRoot = ""
  · have hnot : ¬ (file.rules.any (·.name == file.grammarRoot)) = true := by
      rw [List.any_eq_true]
      rintro ⟨rule, hrule, heq⟩
      exact hnames rule hrule ((beq_iff_eq.mp heq).trans hroot)
    rw [if_neg hnot, if_neg (not_not_intro hroot)]
    simp only [IsRoot, if_pos hroot, ← findImplicitRoots_eq_singleton]
    constructor
    · intro h
      split at h
      · rename_i root hroots
        exact ⟨root, hroots, (Except.ok.inj h).symm⟩
      · exact absurd h (by simp)
    · rintro ⟨root, hroots, rfl⟩
      rw [hroots]
  · simp only [IsRoot, if_neg hroot]
    by_cases hmem : (file.rules.any (·.name == file.grammarRoot)) = true
    · rw [if_pos hmem, Except.ok.injEq]
      have hin : file.grammarRoot ∈ file.rules.map (·.name) := by
        obtain ⟨rule, hrule, heq⟩ := List.any_eq_true.mp hmem
        exact List.mem_map.mpr ⟨rule, hrule, beq_iff_eq.mp heq⟩
      constructor
      · intro h
        exact ⟨file.grammarRoot, ⟨rfl, hin⟩, h.symm⟩
      · rintro ⟨root, ⟨rfl, -⟩, rfl⟩
        rfl
    · rw [if_neg hmem, if_pos hroot]
      constructor
      · intro h
        exact absurd h (by simp)
      · rintro ⟨root, ⟨rfl, hin⟩, -⟩
        obtain ⟨rule, hrule, heq⟩ := List.mem_map.mp hin
        exact (hmem (List.any_eq_true.mpr ⟨rule, hrule, beq_iff_eq.mpr heq⟩)).elim

theorem IsRoot.mem {file : FileProto} {root : String} (h : IsRoot file root) :
    root ∈ file.rules.map (·.name) := by
  rw [IsRoot] at h
  split_ifs at h
  · exact h.1.1
  · exact h.2

theorem contains_traversed_iff {file : FileProto} {root : String} (h : IsRoot file root)
    (rule : RuleProto) : (traversed file.rules root).contains rule.name = true ↔
      Reaches file.rules AnyType root rule.name := by
  rw [List.contains_iff_mem, mem_traversed h.mem]

/-- The removal keeps the reachable grammar exactly when no terminal or lemma spelled like a rule
makes a difference. -/
theorem removeUnrefRules_keepsReachable_iff {file : FileProto}
    (hnames : ∀ rule ∈ file.rules, rule.name ≠ "") : KeepsReachable file ↔ NamesApart file := by
  have hok := fun out => @removeUnrefRules_ok_iff file hnames out
  have hsucceeds : file.grammarRoot = "" →
      ((∃ out, removeUnrefRules file = .ok out) ↔ ∃! name, Unused file.rules AnyType name) := by
    intro hroot
    simp only [hok, IsRoot, if_pos hroot]
    constructor
    · rintro ⟨_, root, hunused, -⟩
      exact ⟨root, hunused⟩
    · rintro ⟨root, hunused⟩
      exact ⟨_, root, hunused, rfl⟩
  constructor
  · intro h
    constructor
    · intro hroot
      rw [← hsucceeds hroot, h.deduced hroot]
    · intro root hroot
      apply closed_iff.mpr
      intro rule hrule hr
      obtain ⟨keep, hkeep, hrules⟩ := h.rules _ ((hok _).mpr ⟨root, hroot, rfl⟩)
      have hmem : rule ∈ file.rules.filter keep := by
        rw [← hrules, removeUnref_eq]
        exact List.mem_filter.mpr ⟨hrule, (contains_traversed_iff hroot rule).mpr hr⟩
      exact (hkeep rule hrule).mp (List.mem_filter.mp hmem).2
  · intro h
    constructor
    · intro hroot out hout
      obtain ⟨root, hisRoot, rfl⟩ := (hok out).mp hout
      rw [IsRoot, if_neg hroot] at hisRoot
      exact hisRoot.1
    · intro hroot
      rw [hsucceeds hroot, h.roots hroot]
    · intro hroot out hout
      obtain ⟨root, hisRoot, rfl⟩ := (hok out).mp hout
      rw [IsRoot, if_pos hroot] at hisRoot
      exact hisRoot.1.of_anyType
    · intro out hout
      obtain ⟨root, hisRoot, rfl⟩ := (hok out).mp hout
      refine ⟨fun rule => (traversed file.rules root).contains rule.name, ?_, removeUnref_eq _ _⟩
      intro rule hrule
      rw [contains_traversed_iff hisRoot]
      exact ⟨closed_iff.mp (h.closed root hisRoot) rule hrule, Reaches.anyType⟩

theorem namesApart_of_distinct {file : FileProto}
    (h : ∀ rule ∈ file.rules, ∀ item ∈ rule.items, item.term.type ≠ .nonTerminal →
      item.term.name ∉ file.rules.map (·.name)) : NamesApart file := by
  have hsame : ∀ name, Unused file.rules AnyType name ↔ Unused file.rules IsNonTerminal name := by
    intro name
    constructor
    · exact Unused.of_anyType
    · rintro ⟨hmem, huse⟩
      refine ⟨hmem, ?_⟩
      rintro a ⟨rule, hrule, rfl, item, hitem, -, rfl⟩
      apply huse
      refine ⟨rule, hrule, rfl, item, hitem, ?_, rfl⟩
      by_contra hnt
      exact h rule hrule item hitem hnt hmem
  constructor
  · intro _
    simp only [hsame]
  · intro root _ rule hrule _ item hitem hnt hmem
    exact absurd hmem (h rule hrule item hitem hnt)

/-- A right-part item of the fixed rules below. -/
def itemNamed (name : String) (type : TermType) : RuleItemProto :=
  { term := { name := name, type := type } }

/-- `S -> A; A -> Noun;` -/
def plainFile : FileProto :=
  { name := "f",
    rules := [{ name := "S", items := [itemNamed "A" .nonTerminal] },
      { name := "A", items := [itemNamed "Noun" .terminal] }] }

theorem removeUnrefRules_plainFile : KeepsReachable plainFile :=
  (removeUnrefRules_keepsReachable_iff (by decide)).mpr (namesApart_of_distinct (by decide))

/-- `S -> "time"; time -> Noun;` -/
def lemmaFile : FileProto :=
  { name := "f",
    rules := [{ name := "S", items := [itemNamed "time" .lemmaWord] },
      { name := "time", items := [itemNamed "Noun" .terminal] }] }

/-- The lemma counts as a use of the rule: a root is deduced where two names are candidates. -/
theorem lemmaFile_not_keepsReachable : ¬ KeepsReachable lemmaFile := by
  intro h
  have hok : ∃ out, removeUnrefRules lemmaFile = .ok out := ⟨_, rfl⟩
  obtain ⟨root, -, huniq⟩ := (h.deduced rfl).mp hok
  have hnoUse : ∀ rule ∈ lemmaFile.rules, ∀ item ∈ rule.items,
      item.term.type ≠ .nonTerminal := by decide
  have hunused : ∀ name ∈ lemmaFile.rules.map (·.name),
      Unused lemmaFile.rules IsNonTerminal name := by
    intro name hmem
    refine ⟨hmem, ?_⟩
    rintro a ⟨rule, hrule, -, item, hitem, hnt, -⟩
    exact absurd hnt (hnoUse rule hrule item hitem)
  have hS := huniq "S" (hunused "S" (by decide))
  have htime := huniq "time" (hunused "time" (by decide))
  exact absurd (hS.trans htime.symm) (by decide)

end TomitaParser
