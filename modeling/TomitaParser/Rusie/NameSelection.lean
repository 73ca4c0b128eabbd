import Mathlib.Data.List.Induction
import TomitaParser.Lib.ComparedTree
import TomitaParser.Rusie.PeriodAmbiguity
/-! # Selection of names

`FindNames`: of the names found by hand and the names that are multiwords, those are kept whose
periods are selected. The names that are to be deleted are looked up in a multiset. -/

namespace TomitaParser.Rusie

/-- `CWordsPair` of a period with words. -/
structure NamePeriod where
  firstWord : ℕ
  lastWord : ℕ
deriving DecidableEq

namespace NamePeriod

/-- `SSimplePeriodOrder`. -/
def less (a b : NamePeriod) : Bool :=
  if a.firstWord < b.firstWord then true else decide (a.lastWord < b.lastWord)

/-- One period begins earlier and ends later. -/
def Nested (a b : NamePeriod) : Prop := a.firstWord < b.firstWord ∧ b.lastWord < a.lastWord

instance (a b : NamePeriod) : Decidable (a.Nested b) := inferInstanceAs (Decidable (_ ∧ _))

/-- The periods are equal or have no words in common. -/
def EqualOrApart (a b : NamePeriod) : Prop :=
  a = b ∨ a.lastWord < b.firstWord ∨ b.lastWord < a.firstWord

end NamePeriod

/-- `CFioWordSequence`. -/
structure FioName (Fio : Type) where
  period : NamePeriod
  le : period.firstWord ≤ period.lastWord
  fio : Fio

/-- A word of the multiword names: its source pair, whether `IsBadMWNFio`, and what
`ConvertMWFioFactToFioWS` makes of it. -/
structure MultiwordName (Fio : Type) where
  period : NamePeriod
  le : period.firstWord ≤ period.lastWord
  isBad : Bool
  convert : Option Fio

namespace FindNames
variable {Fio Item Group : Type}

/-- The number of a rule that stands for a name found by hand. -/
def noMultiword : ℕ := 65535

def multiwordOccurrences (foundWords : List (MultiwordName Fio)) : List (Occurrence Item) :=
  foundWords.zipIdx.map fun w => ⟨w.1.period.firstWord, w.1.period.lastWord + 1, w.2, none⟩

def nameOccurrences (foundNames : List (FioName Fio)) : List (Occurrence Item) :=
  foundNames.map fun n => ⟨n.period.firstWord, n.period.lastWord + 1, noMultiword, none⟩

def occurrences (foundNames : List (FioName Fio)) (foundWords : List (MultiwordName Fio)) :
    List (Occurrence Item) :=
  multiwordOccurrences foundWords ++ nameOccurrences foundNames

def fiosToDelete (foundWords : List (MultiwordName Fio)) : List NamePeriod :=
  (foundWords.filter (·.isBad)).map (·.period)

/-- The words of an occurrence. -/
def periodOf (occ : Occurrence Item) : NamePeriod := ⟨occ.first, occ.second - 1⟩

variable (balance : ComparedTree.Balance NamePeriod)

/-- `insert` of the multiset. -/
def insertFio (fios : ComparedTree NamePeriod) (p : NamePeriod) : ComparedTree NamePeriod :=
  balance.rebalance (fios.insertLeaf NamePeriod.less p)

def manuallyFound (foundNames : List (FioName Fio)) : ComparedTree NamePeriod :=
  foundNames.foldl (fun fios n => insertFio balance fios n.period) .leaf

/-- The loop that erases what `find` finds; `fuel` is enough when it is the number of elements. -/
def eraseAll (wp : NamePeriod) : ℕ → ComparedTree NamePeriod → ComparedTree NamePeriod
  | 0, fios => fios
  | fuel + 1, fios =>
    match fios.find NamePeriod.less wp with
    | none => fios
    | some i => eraseAll wp fuel (balance.erase i fios)

/-- One round of the loop over the selected occurrences, none where an index is out of range. -/
def takeOccurrence (foundWords : List (MultiwordName Fio))
    (s : ComparedTree NamePeriod × List (FioName Fio)) (occ : Occurrence Item) :
    Option (ComparedTree NamePeriod × List (FioName Fio)) :=
  match s.1.find NamePeriod.less (periodOf occ) with
  | some i =>
    match s.1.toList[i]? with
    | none => none
    | some manualFio =>
      if (fiosToDelete foundWords).contains manualFio then some s
      else some (eraseAll balance (periodOf occ) s.1.toList.length s.1, s.2)
  | none =>
    match foundWords[occ.grammarRuleNo]? with
    | none => none
    | some wh =>
      if occ.grammarRuleNo = noMultiword then some s
      else
        match wh.convert with
        | none => some s
        | some fio => some (s.1, s.2 ++ [⟨wh.period, wh.le, fio⟩])

/-- The names, from the last one to the first, without those that are found in the multiset. -/
def deleteNames : List (FioName Fio) → ComparedTree NamePeriod →
    List (FioName Fio) × ComparedTree NamePeriod
  | [], fios => ([], fios)
  | n :: names, fios =>
    match (deleteNames names fios).2.find NamePeriod.less n.period with
    | some i =>
      ((deleteNames names fios).1, balance.erase i (deleteNames names fios).2)
    | none => (n :: (deleteNames names fios).1, (deleteNames names fios).2)

/-- `FindNames` behind the name finder, none where an index is out of range; `sorted` are the
occurrences as `SolveAmbiguity` sorts them. -/
def findNames (ops : WeightGroup Item Group) (sorted : List (Occurrence Item))
    (foundNames : List (FioName Fio)) (pFoundWords : Option (List (MultiwordName Fio))) :
    Option (List (FioName Fio)) :=
  match pFoundWords with
  | none => some foundNames
  | some foundWords =>
    match (solveAmbiguity ops sorted).foldlM (takeOccurrence balance foundWords)
        (manuallyFound balance foundNames, foundNames) with
    | none => none
    | some s => if 0 < s.1.toList.length then some (deleteNames balance s.2 s.1).1 else some s.2

end FindNames
open FindNames

section Selection
variable {Fio Item Group : Type}

/-- The names found by hand whose period is selected and not forbidden. -/
def keptNames (selected : List (Occurrence Item)) (foundNames : List (FioName Fio))
    (foundWords : List (MultiwordName Fio)) : List (FioName Fio) :=
  foundNames.filter fun n =>
    (selected.map periodOf).contains n.period && !(fiosToDelete foundWords).contains n.period

/-- The name that a selected multiword is converted to, if no name is found by hand there. -/
def convertedName (foundNames : List (FioName Fio)) (foundWords : List (MultiwordName Fio))
    (occ : Occurrence Item) : Option (FioName Fio) :=
  if (foundNames.map (·.period)).contains (periodOf occ) then none
  else
    match foundWords[occ.grammarRuleNo]? with
    | none => none
    | some wh =>
      match wh.convert with
      | none => none
      | some fio => some ⟨wh.period, wh.le, fio⟩

/-- The names are those selected, and their periods are equal or apart. -/
structure NamesSelected (ops : WeightGroup Item Group) (sorted : List (Occurrence Item))
    (foundNames : List (FioName Fio)) (foundWords : List (MultiwordName Fio))
    (result : Option (List (FioName Fio))) : Prop where
  names : result = some (keptNames (solveAmbiguity ops sorted) foundNames foundWords ++
    (solveAmbiguity ops sorted).filterMap (convertedName foundNames foundWords))
  apart : ∀ names, result = some names →
    ∀ a ∈ names, ∀ b ∈ names, a.period.EqualOrApart b.period

/-- The multiset can be searched: no name found by hand is nested in another one, and the number
that stands for them is no index of a multiword. Without multiwords the names are left as they are,
equal or apart. -/
def Searchable (foundNames : List (FioName Fio)) :
    Option (List (MultiwordName Fio)) → Prop
  | none => ∀ a ∈ foundNames, ∀ b ∈ foundNames, a.period.EqualOrApart b.period
  | some foundWords => foundWords.length ≤ noMultiword ∧
      ∀ a ∈ foundNames, ∀ b ∈ foundNames, ¬ a.period.Nested b.period

end Selection

namespace NamePeriod
variable {a b c : NamePeriod}

theorem less_iff : a.less b = true ↔ a.firstWord < b.firstWord ∨ a.lastWord < b.lastWord := by
  simp [less]

theorem less_eq_false_iff :
    a.less b = false ↔ b.firstWord ≤ a.firstWord ∧ b.lastWord ≤ a.lastWord := by
  rw [← Bool.not_eq_true, less_iff]
  omega

theorem eq_of_words (hfirst : a.firstWord = b.firstWord) (hlast : a.lastWord = b.lastWord) :
    a = b := by
  cases a
  cases b
  simp_all

/-- Neither word of the second period is before the one of the first. -/
def Before (a b : NamePeriod) : Prop := a.firstWord ≤ b.firstWord ∧ a.lastWord ≤ b.lastWord

/-- The periods stand in the order of both their words. -/
def Chain (periods : List NamePeriod) : Prop := periods.Pairwise Before

end NamePeriod
open NamePeriod

theorem exists_split_first (check : NamePeriod → Bool) (periods : List NamePeriod) :
    ∃ before after, periods = before ++ after ∧ (∀ x ∈ before, check x = true) ∧
      ∀ e ∈ after.head?, check e = false := by
  induction periods with
  | nil =>
    refine ⟨[], [], rfl, ?_, ?_⟩
    · intro x hx
      cases hx
    · intro e he
      cases he
  | cons p periods ih =>
    by_cases hp : check p = true
    · obtain ⟨before, after, rfl, hbefore, hafter⟩ := ih
      refine ⟨p :: before, after, rfl, ?_, hafter⟩
      intro x hx
      rcases List.mem_cons.mp hx with rfl | hx
      · exact hp
      · exact hbefore x hx
    · refine ⟨[], p :: periods, rfl, ?_, ?_⟩
      · intro x hx
        cases hx
      · intro e he
        rw [List.head?_cons, Option.mem_some_iff] at he
        rw [← he]
        exact Bool.eq_false_iff.mpr hp

theorem Chain.forall_of_head {after : List NamePeriod} (h : Chain after) {check : NamePeriod → Prop}
    (hmono : ∀ a b, Before a b → check a → check b) (hhead : ∀ e ∈ after.head?, check e) :
    ∀ x ∈ after, check x := by
  cases after with
  | nil =>
    intro x hx
    cases hx
  | cons e after =>
    have he := hhead e rfl
    intro x hx
    rcases List.mem_cons.mp hx with rfl | hx
    · exact he
    · exact hmono e x ((List.pairwise_cons.mp h).1 x hx) he

variable {fios : ComparedTree NamePeriod} {p : NamePeriod}

/-- In a chain a search finds the period exactly when it is there. -/
theorem find_chain (h : Chain fios.toList) :
    (∃ i, fios.find less p = some i ∧ fios.toList[i]? = some p) ∨
      fios.find less p = none ∧ p ∉ fios.toList := by
  obtain ⟨before, after, hsplit, hbefore, hhead⟩ := exists_split_first (·.less p) fios.toList
  have hchain := h
  rw [hsplit, Chain, List.pairwise_append] at hchain
  have hafter : ∀ x ∈ after, x.less p = false := by
    apply Chain.forall_of_head hchain.2.1 _ hhead
    intro a b hab ha
    rw [less_eq_false_iff] at ha ⊢
    have := hab.1
    have := hab.2
    omega
  have hnot : p ∉ before := by
    intro hp
    have := hbefore p hp
    rw [less_iff] at this
    omega
  have hbound := ComparedTree.lowerBound_eq hsplit hbefore hafter
  have hget : fios.toList[before.length]? = after.head? := by
    rw [hsplit, List.getElem?_append_right le_rfl, Nat.sub_self, List.head?_eq_getElem?]
  rw [ComparedTree.find, hbound, hget]
  cases after with
  | nil =>
    right
    refine ⟨rfl, ?_⟩
    rw [hsplit, List.append_nil]
    exact hnot
  | cons e after =>
    have he := hafter e List.mem_cons_self
    rw [less_eq_false_iff] at he
    simp only [List.head?_cons]
    by_cases hpe : p.less e = true
    · right
      rw [if_pos hpe]
      refine ⟨rfl, ?_⟩
      rw [less_iff] at hpe
      rw [hsplit, List.mem_append, List.mem_cons]
      intro hp
      rcases hp with hp | hp | hp
      · exact hnot hp
      · rw [hp] at hpe
        omega
      · have hep := (List.pairwise_cons.mp hchain.2.1).1 p hp
        have := hep.1
        have := hep.2
        omega
    · left
      rw [if_neg hpe]
      rw [Bool.not_eq_true, less_eq_false_iff] at hpe
      refine ⟨before.length, rfl, ?_⟩
      rw [hget, List.head?_cons, eq_of_words (a := e) (b := p) (by omega) (by omega)]

variable {balance : ComparedTree.Balance NamePeriod}

/-- A period that is nested with no other one is inserted at its place. -/
theorem insertFio_chain (h : Chain fios.toList)
    (hnested : ∀ a ∈ fios.toList, ¬ a.Nested p ∧ ¬ p.Nested a) :
    Chain (insertFio balance fios p).toList ∧
      (insertFio balance fios p).toList.Perm (p :: fios.toList) := by
  obtain ⟨before, after, hsplit, hbefore, hhead⟩ :=
    exists_split_first (fun x => !p.less x) fios.toList
  simp only [Bool.not_eq_true', Bool.not_eq_false'] at hbefore hhead
  have hchain := h
  rw [hsplit, Chain, List.pairwise_append] at hchain
  have hafter : ∀ x ∈ after, p.less x = true := by
    apply Chain.forall_of_head hchain.2.1 _ hhead
    intro a b hab ha
    rw [less_iff] at ha ⊢
    have := hab.1
    have := hab.2
    omega
  have hinsert := ComparedTree.toList_insertLeaf hsplit hbefore hafter
  rw [insertFio, balance.toList_rebalance, hinsert]
  constructor
  · rw [Chain, List.pairwise_append, List.pairwise_cons]
    refine ⟨hchain.1, ⟨?_, hchain.2.1⟩, ?_⟩
    · intro x hx
      have hless := hafter x hx
      have hnot := hnested x (by rw [hsplit]; exact List.mem_append_right _ hx)
      rw [less_iff] at hless
      simp only [Nested] at hnot
      constructor <;> omega
    · intro x hx y hy
      rcases List.mem_cons.mp hy with rfl | hy
      · exact less_eq_false_iff.mp (hbefore x hx)
      · exact hchain.2.2 x hx y hy
  · rw [hsplit]
    exact List.perm_middle

theorem manuallyFound_chain {Fio : Type} (foundNames : List (FioName Fio))
    (h : ∀ a ∈ foundNames, ∀ b ∈ foundNames, ¬ a.period.Nested b.period) :
    Chain (manuallyFound balance foundNames).toList ∧
      (manuallyFound balance foundNames).toList.Perm (foundNames.map (·.period)) := by
  induction foundNames using List.reverseRecOn with
  | nil => exact ⟨List.Pairwise.nil, List.Perm.refl _⟩
  | append_singleton names n ih =>
    have hn : n ∈ names ++ [n] := List.mem_append_right _ (List.mem_singleton_self n)
    obtain ⟨hchain, hperm⟩ := ih fun a ha b hb =>
      h a (List.mem_append_left _ ha) b (List.mem_append_left _ hb)
    rw [manuallyFound, List.foldl_append, List.foldl_cons, List.foldl_nil]
    have hnested : ∀ a ∈ (manuallyFound balance names).toList,
        ¬ a.Nested n.period ∧ ¬ n.period.Nested a := by
      intro a ha
      obtain ⟨b, hb, rfl⟩ := List.mem_map.mp (hperm.mem_iff.mp ha)
      have hb' := List.mem_append_left [n] hb
      exact ⟨h b hb' n hn, h n hn b hb'⟩
    obtain ⟨hchain', hperm'⟩ := @insertFio_chain _ n.period balance hchain hnested
    refine ⟨hchain', ?_⟩
    rw [List.map_append, List.map_singleton]
    exact hperm'.trans ((hperm.cons _).trans (List.perm_append_singleton _ _).symm)

theorem erase_chain (h : Chain fios.toList) (i : ℕ) : Chain (balance.erase i fios).toList := by
  rw [balance.toList_erase]
  exact h.sublist (List.eraseIdx_sublist _ _)

theorem toList_eraseAll (h : Chain fios.toList) {fuel : ℕ} (hfuel : fios.toList.length ≤ fuel) :
    (eraseAll balance p fuel fios).toList = fios.toList.filter (· ≠ p) := by
  induction fuel generalizing fios with
  | zero =>
    have hnil := List.eq_nil_of_length_eq_zero (Nat.le_zero.mp hfuel)
    rw [eraseAll, hnil, List.filter_nil]
  | succ fuel ih =>
    rw [eraseAll]
    rcases find_chain (p := p) h with ⟨i, hfind, hi⟩ | ⟨hfind, hp⟩
    · obtain ⟨hlt, hget⟩ := List.getElem?_eq_some_iff.mp hi
      simp only [hfind]
      rw [ih (erase_chain h i)
        (by rw [balance.toList_erase, List.length_eraseIdx_of_lt hlt]; omega),
        balance.toList_erase, List.eraseIdx_eq_take_drop_succ, List.filter_append]
      conv_rhs => rw [← List.take_append_drop i fios.toList, List.drop_eq_getElem_cons hlt]
      rw [List.filter_append, List.filter_cons_of_neg (by simp [hget])]
    · simp only [hfind]
      rw [eq_comm, List.filter_eq_self]
      intro x hx
      have hne : x ≠ p := by
        intro heq
        exact hp (heq ▸ hx)
      simpa using hne

section Delete
variable {Fio : Type} {foundNames : List (FioName Fio)}

theorem count_erase {i : ℕ} (hi : fios.toList[i]? = some p)
    (q : NamePeriod) :
    (balance.erase i fios).toList.count q = fios.toList.count q - if p = q then 1 else 0 := by
  obtain ⟨hlt, hget⟩ := List.getElem?_eq_some_iff.mp hi
  have hsplit : fios.toList.count q =
      ((fios.toList.take i).count q + (fios.toList.drop (i + 1)).count q) +
        if p = q then 1 else 0 := by
    conv_lhs => rw [← List.take_append_drop i fios.toList, List.drop_eq_getElem_cons hlt, hget]
    rw [List.count_append, List.count_cons]
    simp only [beq_iff_eq]
    omega
  rw [balance.toList_erase, List.eraseIdx_eq_take_drop_succ, List.count_append, hsplit]
  omega

/-- Where the multiset has no fewer periods than there are names with them, the names with periods
in it are deleted, and their periods erased. -/
theorem deleteNames_spec (h : Chain fios.toList)
    (hcount : ∀ q ∈ fios.toList, (foundNames.map (·.period)).count q ≤ fios.toList.count q) :
    (deleteNames balance foundNames fios).1 =
        foundNames.filter (fun n => !fios.toList.contains n.period) ∧
      Chain (deleteNames balance foundNames fios).2.toList ∧
      ∀ q, (deleteNames balance foundNames fios).2.toList.count q =
        fios.toList.count q - (foundNames.map (·.period)).count q := by
  induction foundNames with
  | nil => exact ⟨rfl, h, fun q => rfl⟩
  | cons n names ih =>
    have hcountNames : ∀ q ∈ fios.toList,
        (names.map (·.period)).count q ≤ fios.toList.count q := by
      intro q hq
      have := hcount q hq
      rw [List.map_cons, List.count_cons] at this
      omega
    obtain ⟨hnames, hchain, hcounts⟩ := ih hcountNames
    rw [deleteNames]
    rcases find_chain (p := n.period) hchain with ⟨i, hfind, hi⟩ | ⟨hfind, hnot⟩
    · have hmem : n.period ∈ fios.toList := by
        have hpos := List.count_pos_iff.mpr (List.mem_of_getElem? hi)
        rw [hcounts] at hpos
        exact List.count_pos_iff.mp (by omega)
      simp only [hfind]
      refine ⟨?_, erase_chain hchain i, ?_⟩
      · rw [hnames, List.filter_cons_of_neg (by simp [hmem])]
      · intro q
        rw [count_erase hi, hcounts, List.map_cons, List.count_cons]
        simp only [beq_iff_eq]
        omega
    · have hmem : n.period ∉ fios.toList := by
        intro hmem
        apply hnot
        rw [← List.count_pos_iff, hcounts]
        have := hcount n.period hmem
        rw [List.map_cons, List.count_cons_self] at this
        omega
      simp only [hfind]
      refine ⟨?_, hchain, ?_⟩
      · rw [hnames, List.filter_cons_of_pos (by simp [hmem])]
      · intro q
        rw [hcounts, List.map_cons, List.count_cons]
        by_cases hq : n.period = q
        · have hzero : fios.toList.count q = 0 := by
            rw [← hq]
            exact List.count_eq_zero.mpr hmem
          omega
        · simp [hq]

end Delete

section Loop
variable {Fio Item Group : Type} {foundNames : List (FioName Fio)}
variable {foundWords : List (MultiwordName Fio)}

theorem mem_nameOccurrences {occ : Occurrence Item} (h : occ ∈ nameOccurrences foundNames) :
    periodOf occ ∈ foundNames.map (·.period) := by
  obtain ⟨n, hn, rfl⟩ := List.mem_map.mp h
  exact List.mem_map.mpr ⟨n, hn, rfl⟩

theorem mem_multiwordOccurrences {occ : Occurrence Item}
    (h : occ ∈ multiwordOccurrences foundWords) :
    ∃ w, foundWords[occ.grammarRuleNo]? = some w ∧ w.period = periodOf occ := by
  obtain ⟨⟨w, i⟩, hw, rfl⟩ := List.mem_map.mp h
  exact ⟨w, List.mem_zipIdx_iff_getElem?.mp hw, rfl⟩

theorem occurrences_proper {occ : Occurrence Item} (h : occ ∈ occurrences foundNames foundWords) :
    occ.first < occ.second := by
  rcases List.mem_append.mp h with h | h
  · obtain ⟨⟨w, i⟩, _, rfl⟩ := List.mem_map.mp h
    exact Nat.lt_succ_of_le w.le
  · obtain ⟨n, _, rfl⟩ := List.mem_map.mp h
    exact Nat.lt_succ_of_le n.le

/-- The periods that are left in the multiset after some occurrences. -/
def leftFios (foundWords : List (MultiwordName Fio)) (done : List (Occurrence Item))
    (periods : List NamePeriod) : List NamePeriod :=
  periods.filter fun q =>
    !(done.map periodOf).contains q || (fiosToDelete foundWords).contains q

/-- One round: the period of the occurrence leaves the multiset, unless it is forbidden, or a
multiword is converted. -/
theorem takeOccurrence_spec {periods : List NamePeriod} {done : List (Occurrence Item)}
    {occ : Occurrence Item} {names : List (FioName Fio)} (h : Chain fios.toList)
    (hleft : fios.toList = leftFios foundWords done periods)
    (hperiods : ∀ q, q ∈ periods ↔ q ∈ foundNames.map (·.period))
    (hdone : periodOf occ ∉ done.map periodOf)
    (hocc : occ ∈ occurrences foundNames foundWords)
    (hlength : foundWords.length ≤ noMultiword) :
    ∃ fios', takeOccurrence balance foundWords (fios, names) occ =
        some (fios', names ++ (convertedName foundNames foundWords occ).toList) ∧
      Chain fios'.toList ∧ fios'.toList = leftFios foundWords (done ++ [occ]) periods := by
  have hmem : periodOf occ ∈ fios.toList ↔ periodOf occ ∈ periods := by
    rw [hleft, leftFios, List.mem_filter]
    simp [hdone]
  rw [takeOccurrence]
  rcases find_chain (p := periodOf occ) h with ⟨i, hfind, hi⟩ | ⟨hfind, hnot⟩
  · have hin := (hperiods _).mp (hmem.mp (List.mem_of_getElem? hi))
    have hconverted : convertedName foundNames foundWords occ = none := by
      rw [convertedName, if_pos (List.contains_iff_mem.mpr hin)]
    simp only [hfind, hi, hconverted, Option.toList_none, List.append_nil]
    by_cases hforbidden : (fiosToDelete foundWords).contains (periodOf occ) = true
    · rw [if_pos hforbidden]
      refine ⟨fios, rfl, h, ?_⟩
      rw [hleft, leftFios, leftFios]
      apply List.filter_congr
      intro q _
      by_cases hq : q = periodOf occ
      · rw [hq, hforbidden, Bool.or_true, Bool.or_true]
      · simp [hq]
    · rw [if_neg hforbidden]
      have herase := @toList_eraseAll fios (periodOf occ) balance h _ le_rfl
      refine ⟨_, rfl, ?_, ?_⟩
      · rw [herase]
        exact h.sublist List.filter_sublist
      · rw [herase, hleft, leftFios, leftFios, List.filter_filter]
        apply List.filter_congr
        intro q _
        by_cases hq : q = periodOf occ
        · rw [hq]
          simpa using hforbidden
        · simp [hq]
  · have hout : periodOf occ ∉ foundNames.map (·.period) := by
      intro hin
      exact hnot (hmem.mpr ((hperiods _).mpr hin))
    have hword : occ ∈ multiwordOccurrences foundWords := by
      rcases List.mem_append.mp hocc with hword | hname
      · exact hword
      · exact absurd (mem_nameOccurrences hname) hout
    obtain ⟨w, hw, _⟩ := mem_multiwordOccurrences hword
    have hnumber : occ.grammarRuleNo ≠ noMultiword := by
      have := (List.getElem?_eq_some_iff.mp hw).1
      omega
    have hleft' : fios.toList = leftFios foundWords (done ++ [occ]) periods := by
      rw [hleft, leftFios, leftFios]
      apply List.filter_congr
      intro q hq
      have hne : q ≠ periodOf occ := by
        intro heq
        exact hnot (hmem.mpr (heq ▸ hq))
      simp [hne]
    have hcontains : (foundNames.map (·.period)).contains (periodOf occ) = false := by
      rw [← Bool.not_eq_true, List.contains_iff_mem]
      exact hout
    simp only [hfind, hw, hnumber, if_false, convertedName, hcontains, Bool.false_eq_true]
    cases w.convert with
    | none =>
      refine ⟨fios, ?_, h, hleft'⟩
      simp
    | some fio =>
      refine ⟨fios, ?_, h, hleft'⟩
      simp

/-- The loop over selected occurrences without words in common. -/
theorem foldlM_takeOccurrence {periods : List NamePeriod} (selected : List (Occurrence Item))
    {done : List (Occurrence Item)} {names : List (FioName Fio)} (h : Chain fios.toList)
    (hleft : fios.toList = leftFios foundWords done periods)
    (hperiods : ∀ q, q ∈ periods ↔ q ∈ foundNames.map (·.period))
    (hnodup : ((done ++ selected).map periodOf).Nodup)
    (hocc : ∀ occ ∈ selected, occ ∈ occurrences foundNames foundWords)
    (hlength : foundWords.length ≤ noMultiword) :
    ∃ fios', selected.foldlM (takeOccurrence balance foundWords) (fios, names) =
        some (fios', names ++ selected.filterMap (convertedName foundNames foundWords)) ∧
      Chain fios'.toList ∧ fios'.toList = leftFios foundWords (done ++ selected) periods := by
  induction selected generalizing fios done names with
  | nil =>
    refine ⟨fios, ?_, h, ?_⟩
    · rw [List.filterMap_nil, List.append_nil]
      rfl
    · rw [List.append_nil]
      exact hleft
  | cons occ selected ih =>
    have hdone : periodOf occ ∉ done.map periodOf := by
      rw [List.map_append, List.map_cons, List.nodup_append] at hnodup
      intro hin
      exact hnodup.2.2 _ hin _ List.mem_cons_self rfl
    obtain ⟨fios', htake, hchain, hleft'⟩ :=
      @takeOccurrence_spec fios balance Fio Item foundNames foundWords periods done occ names h
        hleft hperiods hdone (hocc occ List.mem_cons_self) hlength
    have hnodup' : ((done ++ [occ] ++ selected).map periodOf).Nodup := by
      rw [List.append_assoc]
      exact hnodup
    obtain ⟨fios'', hloop, hchain', hleft''⟩ :=
      @ih fios' (done ++ [occ]) _ hchain hleft' hnodup'
        fun o ho => hocc o (List.mem_cons_of_mem occ ho)
    refine ⟨fios'', ?_, hchain', ?_⟩
    · rw [List.foldlM_cons, htake]
      show selected.foldlM _ _ = _
      rw [hloop, List.append_assoc]
      congr 2
      rw [List.filterMap_cons]
      cases convertedName foundNames foundWords occ <;> rfl
    · rw [hleft'', List.append_assoc]
      rfl

end Loop

section Selected
variable {Fio Item Group : Type} {ops : WeightGroup Item Group}
variable {foundNames : List (FioName Fio)} {foundWords : List (MultiwordName Fio)}
variable {selected sorted : List (Occurrence Item)}

theorem periodOf_apart {x y : Occurrence Item} (hx : x.first < x.second) (hy : y.first < y.second)
    (h : x.second ≤ y.first ∨ y.second ≤ x.first) :
    (periodOf x).lastWord < (periodOf y).firstWord ∨
      (periodOf y).lastWord < (periodOf x).firstWord := by
  simp only [periodOf]
  omega

theorem nodup_periods (hproper : ∀ o ∈ selected, o.first < o.second)
    (h : NonOverlapping selected) : (selected.map periodOf).Nodup := by
  rw [List.Nodup, List.pairwise_map]
  apply List.Pairwise.imp_of_mem _ h
  intro x y hx hy hxy heq
  have hlt := hproper x hx
  have := periodOf_apart hlt (hproper y hy) hxy
  rw [heq] at this
  have hy' := hproper y hy
  simp only [periodOf] at this
  omega

theorem equalOrApart_of_mem (hproper : ∀ o ∈ selected, o.first < o.second)
    (h : NonOverlapping selected) {x y : Occurrence Item} (hx : x ∈ selected) (hy : y ∈ selected) :
    (periodOf x).EqualOrApart (periodOf y) := by
  by_cases heq : x = y
  · rw [heq]
    exact Or.inl rfl
  · have hsymm : Std.Symm fun x y : Occurrence Item =>
        x.second ≤ y.first ∨ y.second ≤ x.first := ⟨fun x y hxy => hxy.symm⟩
    exact Or.inr (periodOf_apart (hproper x hx) (hproper y hy) (h.forall hx hy heq))

theorem convertedName_period {occ : Occurrence Item} {n : FioName Fio}
    (hocc : occ ∈ occurrences foundNames foundWords)
    (h : convertedName foundNames foundWords occ = some n) :
    n.period = periodOf occ ∧ n.period ∉ foundNames.map (·.period) := by
  rw [convertedName] at h
  split_ifs at h with hin
  rw [List.contains_iff_mem] at hin
  have hword : occ ∈ multiwordOccurrences foundWords := by
    rcases List.mem_append.mp hocc with hword | hname
    · exact hword
    · exact absurd (mem_nameOccurrences hname) hin
  obtain ⟨w, hw, hperiod⟩ := mem_multiwordOccurrences hword
  rw [hw] at h
  cases hfio : w.convert with
  | none => simp [hfio] at h
  | some fio =>
    simp only [hfio, Option.some.injEq] at h
    have hn : n.period = w.period := by
      rw [← h]
    rw [hn, hperiod]
    exact ⟨rfl, hin⟩

theorem period_selected (hocc : ∀ occ ∈ selected, occ ∈ occurrences foundNames foundWords)
    {n : FioName Fio}
    (h : n ∈ keptNames selected foundNames foundWords ++
      selected.filterMap (convertedName foundNames foundWords)) :
    ∃ occ ∈ selected, periodOf occ = n.period := by
  rcases List.mem_append.mp h with h | h
  · have hkept := (List.mem_filter.mp h).2
    rw [Bool.and_eq_true, List.contains_iff_mem] at hkept
    exact List.mem_map.mp hkept.1
  · obtain ⟨occ, hmem, hconv⟩ := List.mem_filterMap.mp h
    exact ⟨occ, hmem, (convertedName_period (hocc occ hmem) hconv).1.symm⟩

/-- Names that are equal or apart are all selected when there is nothing else. -/
theorem names_selected_of_apart
    (h : ∀ a ∈ foundNames, ∀ b ∈ foundNames, a.period.EqualOrApart b.period)
    (hsorted : SortedAs (occurrences foundNames []) sorted) {n : FioName Fio}
    (hn : n ∈ foundNames) : n.period ∈ (solveAmbiguity ops sorted).map periodOf := by
  by_contra hnot
  have hproper : ∀ o ∈ occurrences foundNames [], o.first < (o : Occurrence Item).second :=
    fun o ho => occurrences_proper ho
  have hsub := solveAmbiguity_subperm ops hproper hsorted
  have hnon := solveAmbiguity_nonOverlapping ops hproper hsorted
  let own : Occurrence Item := ⟨n.period.firstWord, n.period.lastWord + 1, noMultiword, none⟩
  have hown : own ∈ occurrences foundNames [] :=
    List.mem_append_right _ (List.mem_map.mpr ⟨n, hn, rfl⟩)
  have hownNot : own ∉ solveAmbiguity ops sorted := by
    intro hmem
    exact hnot (List.mem_map.mpr ⟨own, hmem, rfl⟩)
  have hother := List.cons_subperm_of_not_mem_of_mem hownNot hown hsub
  have hnonOther : NonOverlapping (own :: solveAmbiguity ops sorted) := by
    refine List.pairwise_cons.mpr ⟨?_, hnon⟩
    intro o ho
    rcases List.mem_append.mp (hsub.subset ho) with hword | hname
    · cases hword
    · obtain ⟨n', hn', rfl⟩ := List.mem_map.mp hname
      rcases h n hn n' hn' with heq | hapart | hapart
      · exfalso
        apply hnot
        rw [heq]
        exact List.mem_map.mpr ⟨_, ho, rfl⟩
      · exact Or.inl hapart
      · exact Or.inr hapart
  have hbest := (solveAmbiguity_best ops hproper hsorted hother hnonOther).1
  rw [totalCoverage_cons] at hbest
  have hpos := @Occurrence.coverage_pos Item Group ops own (hproper own hown)
  omega

theorem filter_leftFios {periods left : List NamePeriod}
    (hperiods : periods.Perm (foundNames.map (·.period)))
    (hleft : left = leftFios foundWords selected periods)
    {converted : List (FioName Fio)}
    (hconverted : ∀ n ∈ converted, n.period ∉ foundNames.map (·.period)) :
    ((foundNames ++ converted).filter fun n => !left.contains n.period) =
      keptNames selected foundNames foundWords ++ converted := by
  have hmem : ∀ q, q ∈ left ↔ q ∈ foundNames.map (·.period) ∧
      (q ∉ selected.map periodOf ∨ q ∈ fiosToDelete foundWords) := by
    intro q
    rw [hleft, leftFios, List.mem_filter, hperiods.mem_iff]
    simp
  have hkept : (foundNames.filter fun n => !left.contains n.period) =
      keptNames selected foundNames foundWords := by
    rw [keptNames]
    apply List.filter_congr
    intro n hn
    have hin : n.period ∈ foundNames.map (·.period) := List.mem_map_of_mem hn
    have hiff := hmem n.period
    rw [Bool.eq_iff_iff, Bool.not_eq_true', ← Bool.not_eq_true, Bool.and_eq_true,
      Bool.not_eq_true', ← Bool.not_eq_true]
    simp only [List.contains_iff_mem, hiff, hin, true_and, not_or, not_not]
  have hall : (converted.filter fun n => !left.contains n.period) = converted := by
    rw [List.filter_eq_self]
    intro n hn
    rw [Bool.not_eq_true', ← Bool.not_eq_true, List.contains_iff_mem, hmem]
    intro hin
    exact hconverted n hn hin.1
  rw [List.filter_append, hkept, hall]

theorem count_leftFios {periods left : List NamePeriod}
    (hperiods : periods.Perm (foundNames.map (·.period)))
    (hleft : left = leftFios foundWords selected periods)
    {converted : List (FioName Fio)}
    (hconverted : ∀ n ∈ converted, n.period ∉ foundNames.map (·.period)) :
    ∀ q ∈ left, ((foundNames ++ converted).map (·.period)).count q ≤ left.count q := by
  intro q hq
  rw [hleft, leftFios, List.mem_filter] at hq
  have hzero : (converted.map (·.period)).count q = 0 := by
    rw [List.count_eq_zero]
    intro hin
    obtain ⟨n, hn, hnq⟩ := List.mem_map.mp hin
    exact hconverted n hn (hnq ▸ hperiods.mem_iff.mp hq.1)
  have hcount : left.count q = periods.count q := by
    rw [hleft, leftFios, List.count_filter]
    exact hq.2
  rw [List.map_append, List.count_append, hzero, hcount, hperiods.count_eq]
  exact le_rfl

/-- With multiwords, the loop and the deletion leave the selected names. -/
theorem findNames_some (balance : ComparedTree.Balance NamePeriod)
    (hsorted : SortedAs (occurrences foundNames foundWords) sorted)
    (h : Searchable foundNames (some foundWords)) :
    findNames balance ops sorted foundNames (some foundWords) =
      some (keptNames (solveAmbiguity ops sorted) foundNames foundWords ++
        (solveAmbiguity ops sorted).filterMap (convertedName foundNames foundWords)) := by
  have hproper : ∀ o ∈ occurrences foundNames foundWords,
      o.first < (o : Occurrence Item).second := fun o ho => occurrences_proper ho
  have hsub := solveAmbiguity_subperm ops hproper hsorted
  have hnon := solveAmbiguity_nonOverlapping ops hproper hsorted
  have hocc : ∀ occ ∈ solveAmbiguity ops sorted,
      occ ∈ occurrences foundNames foundWords := fun occ ho => hsub.subset ho
  obtain ⟨hlength, hnested⟩ := h
  obtain ⟨hchain, hperm⟩ := @manuallyFound_chain balance Fio foundNames hnested
  have hperiods : ∀ q, q ∈ (manuallyFound balance foundNames).toList ↔
      q ∈ foundNames.map (·.period) := fun q => hperm.mem_iff
  have hnodup : (([] ++ solveAmbiguity ops sorted).map periodOf).Nodup :=
    nodup_periods (fun o ho => hproper o (hocc o ho)) hnon
  have hstart : (manuallyFound balance foundNames).toList =
      leftFios foundWords ([] : List (Occurrence Item))
        (manuallyFound balance foundNames).toList := by
    rw [leftFios, eq_comm, List.filter_eq_self]
    intro q _
    rfl
  obtain ⟨fios', hloop, hchain', hleft⟩ :=
    @foldlM_takeOccurrence _ balance Fio Item foundNames foundWords _
      (solveAmbiguity ops sorted) [] foundNames hchain hstart hperiods hnodup hocc hlength
  rw [List.nil_append] at hleft
  have hconverted : ∀ n ∈ (solveAmbiguity ops sorted).filterMap
      (convertedName foundNames foundWords), n.period ∉ foundNames.map (·.period) := by
    intro n hn
    obtain ⟨occ, ho, hconv⟩ := List.mem_filterMap.mp hn
    exact (convertedName_period (hocc occ ho) hconv).2
  rw [findNames, hloop]
  simp only
  rw [← filter_leftFios hperm hleft hconverted]
  split_ifs with hpos
  · rw [(deleteNames_spec hchain' (count_leftFios hperm hleft hconverted)).1]
  · have hnil := List.eq_nil_of_length_eq_zero (Nat.eq_zero_of_not_pos hpos)
    rw [hnil]
    simp

theorem findNames_none (balance : ComparedTree.Balance NamePeriod)
    (hsorted : SortedAs (occurrences foundNames []) sorted)
    (h : Searchable foundNames (none : Option (List (MultiwordName Fio)))) :
    findNames balance ops sorted foundNames none =
      some (keptNames (solveAmbiguity ops sorted) foundNames [] ++
        (solveAmbiguity ops sorted).filterMap (convertedName foundNames [])) := by
  have hkept : keptNames (solveAmbiguity ops sorted) foundNames [] = foundNames := by
    rw [keptNames, List.filter_eq_self]
    intro n hn
    rw [Bool.and_eq_true, List.contains_iff_mem]
    exact ⟨names_selected_of_apart h hsorted hn, rfl⟩
  have hconverted :
      (solveAmbiguity ops sorted).filterMap (convertedName foundNames []) = [] := by
    rw [List.filterMap_eq_nil_iff]
    intro occ ho
    rw [convertedName]
    split_ifs
    · rfl
    · rfl
  rw [hkept, hconverted, List.append_nil]
  rfl

/-- As long as the multiset can be searched, the names are those of the selected periods. -/
theorem findNames_selected (balance : ComparedTree.Balance NamePeriod)
    (ops : WeightGroup Item Group) (sorted : List (Occurrence Item))
    (foundNames : List (FioName Fio)) (pFoundWords : Option (List (MultiwordName Fio)))
    (hsorted : SortedAs (occurrences foundNames (pFoundWords.getD [])) sorted)
    (h : Searchable foundNames pFoundWords) :
    NamesSelected ops sorted foundNames (pFoundWords.getD [])
      (findNames balance ops sorted foundNames pFoundWords) := by
  have hproper : ∀ o ∈ occurrences foundNames (pFoundWords.getD []),
      o.first < (o : Occurrence Item).second := fun o ho => occurrences_proper ho
  have hsub := solveAmbiguity_subperm ops hproper hsorted
  have hnon := solveAmbiguity_nonOverlapping ops hproper hsorted
  have hocc : ∀ occ ∈ solveAmbiguity ops sorted,
      occ ∈ occurrences foundNames (pFoundWords.getD []) := fun occ ho => hsub.subset ho
  have hselected : ∀ o ∈ solveAmbiguity ops sorted, o.first < o.second :=
    fun o ho => hproper o (hocc o ho)
  have hnames : findNames balance ops sorted foundNames pFoundWords =
      some (keptNames (solveAmbiguity ops sorted) foundNames (pFoundWords.getD []) ++
        (solveAmbiguity ops sorted).filterMap
          (convertedName foundNames (pFoundWords.getD []))) := by
    cases pFoundWords with
    | none => exact findNames_none balance hsorted h
    | some foundWords => exact findNames_some balance hsorted h
  refine ⟨hnames, ?_⟩
  intro names heq a ha b hb
  rw [hnames, Option.some.injEq] at heq
  rw [← heq] at ha hb
  obtain ⟨x, hx, hxa⟩ := period_selected hocc ha
  obtain ⟨y, hy, hyb⟩ := period_selected hocc hb
  rw [← hxa, ← hyb]
  exact equalOrApart_of_mem hselected hnon hx hy

end Selected

/-- A name of one word, found by hand. -/
def nameAt (word : ℕ) : FioName Unit := ⟨⟨word, word⟩, le_refl word, ()⟩

def multiwordAtFive : MultiwordName Unit := ⟨⟨5, 5⟩, le_refl 5, false, some ()⟩

def sortedApart : List (Occurrence Unit) :=
  [⟨2, 3, noMultiword, none⟩, ⟨5, 6, 0, none⟩]

theorem findNames_selected_apart :
    NamesSelected weightless sortedApart [nameAt 2] [multiwordAtFive]
      (findNames ComparedTree.Balance.plain weightless sortedApart [nameAt 2]
        (some [multiwordAtFive])) :=
  findNames_selected ComparedTree.Balance.plain weightless sortedApart [nameAt 2]
    (some [multiwordAtFive]) ⟨by decide, by decide⟩ ⟨by decide, by decide⟩

/-- A first name and a patronymic after the first name of one word. -/
def nameToTwo : FioName Unit := ⟨⟨0, 2⟩, by decide, ()⟩

def sortedFromZero : List (Occurrence Unit) :=
  [⟨0, 1, noMultiword, none⟩, ⟨0, 3, noMultiword, none⟩]

/-- Without a list of multiwords nothing is selected: two names that begin with one word both
stay. -/
theorem not_namesSelected_withoutWords :
    SortedAs (occurrences [nameAt 0, nameToTwo] ([] : List (MultiwordName Unit)))
        sortedFromZero ∧
      ¬ NamesSelected weightless sortedFromZero [nameAt 0, nameToTwo] []
        (findNames ComparedTree.Balance.plain weightless sortedFromZero [nameAt 0, nameToTwo]
          none) := by
  refine ⟨⟨by decide, by decide⟩, ?_⟩
  intro h
  obtain heq | hbefore | hafter := h.apart [nameAt 0, nameToTwo] rfl (nameAt 0) (by simp)
    nameToTwo (by simp)
  · exact absurd heq (by decide)
  · exact absurd hbefore (by decide)
  · exact absurd hafter (by decide)

end TomitaParser.Rusie
