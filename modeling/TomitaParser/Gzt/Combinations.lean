import Mathlib.Algebra.Order.BigOperators.GroupWithZero.List
import Mathlib.Algebra.Order.Ring.Nat
import Mathlib.Data.List.GetD
import TomitaParser.Lib.Odometer
import TomitaParser.Lib.OrderedSet
import TomitaParser.Gzt.WordSpellings
/-! # Combinations of lemmas

A key word may stand for several lemmas. Its key is then added once for every choice of a lemma for
each of its words. -/

namespace TomitaParser.Gzt
open OrderedSet

/-- `TCombinationIterator`. An iterator over a set is its position in it. -/
structure CombinationIterator where
  source : List (List ℕ)
  current : List ℕ
  indexes : List ℕ
  state : List ℕ
  ok : Bool
deriving DecidableEq

namespace CombinationIterator

/-- The words that the constructor has not seen yet are taken into the iterator. Too many
combinations are an error. -/
def startLoop : List ℕ → List (List ℕ) → ℕ → CombinationIterator → Option CombinationIterator
  | singles, [] :: sets, count, it =>
    startLoop singles.tail sets count { it with current := it.current ++ [singles.headD 0] }
  | singles, [x] :: sets, count, it =>
    startLoop singles.tail sets count { it with current := it.current ++ [x] }
  | singles, (x :: y :: more) :: sets, count, it =>
    let count := count * (x :: y :: more).length
    if 100000 ≤ count then none
    else startLoop singles.tail sets count
      { it with
        current := it.current ++ [x]
        indexes := it.indexes ++ [it.current.length]
        state := it.state ++ [0] }
  | _, [], _, it => some it

/-- The constructor. -/
def start (singleWords : List ℕ) (combinations : List (List ℕ)) : Option CombinationIterator :=
  startLoop singleWords combinations 1 ⟨combinations, [], [], [], true⟩

/-- The loop of `operator++`: `Ok_`, `State` and `Current`. -/
def nextLoop (source : List (List ℕ)) : List ℕ → List ℕ → List ℕ → Bool × List ℕ × List ℕ
  | src :: indexes, pos :: state, current =>
    if pos + 1 < (source.getD src []).length then
      (true, (pos + 1) :: state, current.set src ((source.getD src []).getD (pos + 1) 0))
    else
      let r := nextLoop source indexes state (current.set src ((source.getD src []).getD 0 0))
      (r.1, 0 :: r.2.1, r.2.2)
  | _, state, current => (false, state, current)

/-- `operator++`. -/
def next (it : CombinationIterator) : CombinationIterator :=
  let r := nextLoop it.source it.indexes it.state it.current
  { it with ok := it.ok && r.1, state := r.2.1, current := r.2.2 }

/-- A loop over the iterator, as far as the fuel lasts. -/
def toList : ℕ → CombinationIterator → Option (List (List ℕ))
  | 0, _ => none
  | fuel + 1, it => if it.ok then (toList fuel it.next).map (it.current :: ·) else some []

end CombinationIterator

/-- What `AddWordWithMorphType` leaves in a `TKeyWordInfo`. -/
structure LemmaWord where
  id : ℕ
  lemmas : List ℕ := []
  isArticle : Bool := false
deriving DecidableEq

namespace WordTrieBuilder

/-- Calls of `AddWord` one after the other, with the ids that they give. -/
def stepAll (b : WordTrieBuilder) (calls : List WordCall) : WordTrieBuilder × List ℕ :=
  calls.foldl (fun r call => ((r.1.step call).1, r.2 ++ [(r.1.step call).2])) (b, [])

/-- `AddLemmasOfWord`. -/
def addLemmasOfWord (lemmer : ℕ → Text → List LemmerWord) (b : WordTrieBuilder)
    (word : SpelledWord) : WordTrieBuilder × LemmaWord :=
  let lemmata := lemmer (if word.language = langUnk then langRus else word.language)
    word.originalText
  if lemmata.isEmpty || lemmata.map (·.text) == [word.normalizedText] then
    let r := b.addWord word false true
    (r.1, { id := r.2 })
  else
    let r := b.stepAll (lemmaCalls lemmer word)
    let lemmas := insertAll natLt r.2 []
    (r.1, { id := lemmas.headD 0, lemmas := lemmas })

/-- `AddWordWithMorphType`. -/
def addWordWithMorphType (lemmer : ℕ → Text → List LemmerWord) (b : WordTrieBuilder)
    (word : SpelledWord) (morph : MorphType) : WordTrieBuilder × LemmaWord :=
  match morph with
  | .exactForm => let r := b.addWord word true false; (r.1, { id := r.2 })
  | .allForms => let r := b.addWord word false true; (r.1, { id := r.2 })
  | .allLemmaForms => addLemmasOfWord lemmer b word

/-- A word of a key in `AddCurrentKeyWords`. -/
def addKeyWord (rules : AlphaRules) (lemmer : ℕ → Text → List LemmerWord) (options : PrefixOptions)
    (b : WordTrieBuilder) (kw : KeyWordText) : WordTrieBuilder × LemmaWord :=
  let word := { normalizeKeyWord rules kw.language kw.text with isAnyWord := kw.isAnyWord }
  match options.article word.originalText with
  | some id => (b, { id := id, isArticle := true })
  | none =>
    if options.exactForm && hasExactFormMarker word.originalText then
      b.addWordWithMorphType lemmer word.skipMarker .exactForm
    else b.addWordWithMorphType lemmer word kw.morph

/-- The words of a key in `AddCurrentKeyWords`. -/
def addKeyWords (rules : AlphaRules) (lemmer : ℕ → Text → List LemmerWord)
    (options : PrefixOptions) (b : WordTrieBuilder) (key : List KeyWordText) :
    WordTrieBuilder × List LemmaWord :=
  key.foldl (fun r kw => ((addKeyWord rules lemmer options r.1 kw).1,
    r.2 ++ [(addKeyWord rules lemmer options r.1 kw).2])) (b, [])

end WordTrieBuilder

inductive KeyError
  | emptyKey
  | tooManyCombinations
  | outOfFuel
deriving DecidableEq

/-- The end of `AddCurrentKeyWords`: the word ids that `AddArticle` is called with. -/
def addCombinations (fuel : ℕ) (words : List LemmaWord) : Except KeyError (List (List ℕ)) :=
  if words = [] then .error .emptyKey
  else if words.all fun w => w.isArticle || decide (w.lemmas.length < 2) then
    .ok [words.map (·.id)]
  else
    match CombinationIterator.start (words.map (·.id)) (words.map (·.lemmas)) with
    | none => .error .tooManyCombinations
    | some it =>
      match it.toList fuel with
      | none => .error .outOfFuel
      | some calls => .ok calls

/-- `AddCurrentKeyWords`. -/
def addCurrentKeyWords (fuel : ℕ) (rules : AlphaRules) (lemmer : ℕ → Text → List LemmerWord)
    (options : PrefixOptions) (b : WordTrieBuilder) (key : List KeyWordText) :
    Except KeyError (List (List ℕ)) :=
  addCombinations fuel (b.addKeyWords rules lemmer options key).2

/-- The ids that a word contributes: its lemmas, or its single id. -/
def choices (single : ℕ) (lemmas : List ℕ) : List ℕ := if lemmas = [] then [single] else lemmas

/-- The sizes of the sets that vary. -/
def radices (sets : List (List ℕ)) : List ℕ := (sets.map List.length).filter (2 ≤ ·)

namespace CombinationIterator

/-- The combination at the positions `state` in the sets that vary. -/
def pick : List ℕ → List (List ℕ) → List ℕ → List ℕ
  | singles, [] :: sets, state => singles.headD 0 :: pick singles.tail sets state
  | singles, [x] :: sets, state => x :: pick singles.tail sets state
  | singles, (x :: y :: more) :: sets, state =>
    (x :: y :: more).getD (state.headD 0) 0 :: pick singles.tail sets state.tail
  | _, [], _ => []

/-- The places of the sets that vary. -/
def varying (offset : ℕ) : List (List ℕ) → List ℕ
  | (_ :: _ :: _) :: sets => offset :: varying (offset + 1) sets
  | _ :: sets => varying (offset + 1) sets
  | [] => []

theorem radices_pos (sets : List (List ℕ)) : ∀ r ∈ radices sets, 0 < r := by
  intro r hr
  have := (List.mem_filter.mp hr).2
  rw [decide_eq_true_eq] at this
  omega

theorem getD_split (before : List (List ℕ)) (s : List ℕ) (sets : List (List ℕ)) :
    (before ++ s :: sets).getD before.length [] = s := by
  rw [List.getD_append_right _ _ _ _ (le_refl _), Nat.sub_self, List.getD_cons_zero]

theorem set_split (before : List ℕ) (a b : ℕ) (after : List ℕ) :
    (before ++ a :: after).set before.length b = before ++ b :: after := by
  rw [List.set_append_right _ _ (le_refl _), Nat.sub_self, List.set_cons_zero]

/-- The loop counts with the sizes of the sets as radices. -/
theorem nextLoop_eq (before : List (List ℕ)) (singles : List ℕ) (sets : List (List ℕ))
    (state done : List ℕ) (hdone : done.length = before.length)
    (hstate : List.Forall₂ (· < ·) state (radices sets)) :
    nextLoop (before ++ sets) (varying before.length sets) state (done ++ pick singles sets state) =
      ((Odometer.next (radices sets) state).1, (Odometer.next (radices sets) state).2,
        done ++ pick singles sets (Odometer.next (radices sets) state).2) := by
  induction sets generalizing before singles state done with
  | nil =>
    have hnil : state = [] := List.forall₂_nil_right_iff.mp hstate
    rw [hnil]
    rfl
  | cons s sets ih =>
    have hsnoc : (before ++ [s]) ++ sets = before ++ s :: sets := by
      rw [List.append_assoc, List.singleton_append]
    have hlength : (before ++ [s]).length = before.length + 1 := List.length_append
    have hskip : ∀ a : ℕ, s.length < 2 →
        (∀ st, pick singles (s :: sets) st = a :: pick singles.tail sets st) →
        nextLoop (before ++ s :: sets) (varying before.length (s :: sets)) state
            (done ++ pick singles (s :: sets) state) =
          ((Odometer.next (radices (s :: sets)) state).1,
            (Odometer.next (radices (s :: sets)) state).2,
            done ++ pick singles (s :: sets) (Odometer.next (radices (s :: sets)) state).2) := by
      intro a hshort hpick
      have hradices : radices (s :: sets) = radices sets := by
        rw [radices, List.map_cons, List.filter_cons_of_neg (by simpa using hshort)]
        rfl
      have hvarying : varying before.length (s :: sets) = varying (before.length + 1) sets := by
        match s, hshort with
        | [], _ => rfl
        | [_], _ => rfl
      rw [hradices] at hstate ⊢
      have hrest := ih (before ++ [s]) singles.tail state (done ++ [a])
        (by rw [List.length_append, List.length_append, hdone]; rfl) hstate
      rw [hsnoc, hlength, List.append_assoc, List.append_assoc, List.singleton_append,
        List.singleton_append] at hrest
      rw [hvarying, hpick, hpick]
      exact hrest
    match s with
    | [] => exact hskip (singles.headD 0) (by decide) fun _ => rfl
    | [x] => exact hskip x (by simp) fun _ => rfl
    | x :: y :: more =>
      have hradices : radices ((x :: y :: more) :: sets) =
          (x :: y :: more).length :: radices sets := by
        rw [radices, List.map_cons, List.filter_cons_of_pos (by simp)]
        rfl
      rw [hradices] at hstate ⊢
      cases hstate with
      | @cons pos _ state _ hpos hstate =>
        rw [varying, nextLoop, Odometer.next, getD_split]
        by_cases hup : pos + 1 < (x :: y :: more).length
        · rw [if_pos hup, if_pos hup, pick, ← hdone, set_split]
          rfl
        · rw [if_neg hup, if_neg hup, pick, ← hdone, set_split]
          have hrest := ih (before ++ [x :: y :: more]) singles.tail state
            (done ++ [(x :: y :: more).getD 0 0])
            (by rw [List.length_append, List.length_append, hdone]; rfl) hstate
          rw [hsnoc, hlength, List.append_assoc, List.append_assoc, List.singleton_append,
            List.singleton_append, ← hdone] at hrest
          rw [List.tail_cons, hrest]
          rfl

/-- The iterator at a combination. -/
def atNumber (singles : List ℕ) (sets : List (List ℕ)) (n : ℕ) : CombinationIterator where
  source := sets
  current := pick singles sets (Odometer.digits (radices sets) n)
  indexes := varying 0 sets
  state := Odometer.digits (radices sets) n
  ok := decide (n < (radices sets).prod)

theorem next_atNumber (singles : List ℕ) (sets : List (List ℕ)) {n : ℕ}
    (hn : n < (radices sets).prod) : (atNumber singles sets n).next = atNumber singles sets (n + 1) := by
  have hloop := nextLoop_eq [] singles sets (Odometer.digits (radices sets) n) [] rfl
    (Odometer.digits_lt (radices_pos sets) n)
  rw [List.nil_append, List.nil_append, List.nil_append, List.length_nil,
    Odometer.next_digits (radices_pos sets) hn] at hloop
  simp only [next, atNumber, hloop, decide_eq_true hn, Bool.true_and]

theorem toList_atNumber (singles : List ℕ) (sets : List (List ℕ)) (left : ℕ) : ∀ (n fuel : ℕ),
    n + left = (radices sets).prod → left < fuel → (atNumber singles sets n).toList fuel =
      some ((List.range' n left).map fun k => pick singles sets (Odometer.digits (radices sets) k))
    := by
  induction left with
  | zero =>
    intro n fuel hn hfuel
    have hend : ¬ n < (radices sets).prod := by omega
    cases fuel with
    | zero => omega
    | succ fuel => simp [toList, atNumber, hend]
  | succ left ih =>
    intro n fuel hn hfuel
    have hlt : n < (radices sets).prod := by omega
    cases fuel with
    | zero => omega
    | succ fuel =>
      rw [toList, if_pos (by simp [atNumber, hlt]), next_atNumber singles sets hlt,
        ih (n + 1) fuel (by omega) (by omega)]
      rfl

theorem prod_radices (sets : List (List ℕ)) :
    (radices sets).prod = (sets.map fun s => max 1 s.length).prod := by
  induction sets with
  | nil => rfl
  | cons s sets ih =>
    rw [List.map_cons, List.prod_cons, ← ih, radices, List.map_cons]
    by_cases hlong : 2 ≤ s.length
    · rw [List.filter_cons_of_pos (by simpa using hlong), List.prod_cons, max_eq_right (by omega)]
      rfl
    · rw [List.filter_cons_of_neg (by simpa using hlong), max_eq_left (by omega), Nat.one_mul]
      rfl

theorem prod_radices_pos (sets : List (List ℕ)) : 0 < (radices sets).prod :=
  List.prod_pos (radices_pos sets)

theorem startLoop_eq (singles : List ℕ) (sets : List (List ℕ)) (count : ℕ)
    (it : CombinationIterator) (hlimit : count * (radices sets).prod < 100000) :
    startLoop singles sets count it = some { it with
      current := it.current ++ pick singles sets (Odometer.digits (radices sets) 0)
      indexes := it.indexes ++ varying it.current.length sets
      state := it.state ++ Odometer.digits (radices sets) 0 } := by
  induction sets generalizing singles count it with
  | nil => simp [startLoop, pick, varying, radices, Odometer.digits]
  | cons s sets ih =>
    have hshort : s.length < 2 → radices (s :: sets) = radices sets := by
      intro hs
      rw [radices, List.map_cons, List.filter_cons_of_neg (by simpa using hs)]
      rfl
    cases s with
    | nil =>
      rw [hshort (by decide)] at hlimit ⊢
      rw [startLoop, ih _ _ _ hlimit]
      simp [pick, varying]
    | cons x rest =>
      cases rest with
      | nil =>
        rw [hshort (by simp)] at hlimit ⊢
        rw [startLoop, ih _ _ _ hlimit]
        simp [pick, varying]
      | cons y more =>
        have hradices : radices ((x :: y :: more) :: sets) =
            (x :: y :: more).length :: radices sets := by
          rw [radices, List.map_cons, List.filter_cons_of_pos (by simp)]
          rfl
        rw [hradices, List.prod_cons, ← Nat.mul_assoc] at hlimit
        have hfew : ¬ 100000 ≤ count * (x :: y :: more).length := by
          have := Nat.le_mul_of_pos_right (count * (x :: y :: more).length) (prod_radices_pos sets)
          omega
        rw [hradices, startLoop]
        rw [if_neg hfew, ih _ _ _ hlimit]
        simp [pick, varying, Odometer.digits]

theorem start_eq (singles : List ℕ) {sets : List (List ℕ)}
    (hlimit : (radices sets).prod < 100000) : start singles sets = some (atNumber singles sets 0) := by
  rw [start, startLoop_eq singles sets 1 _ (by rwa [Nat.one_mul])]
  simp [atNumber, prod_radices_pos sets]

/-- A choice of an id for every word. -/
def Combines (singles : List ℕ) (sets : List (List ℕ)) (combination : List ℕ) : Prop :=
  List.Forall₂ (fun id (word : ℕ × List ℕ) => id ∈ choices word.1 word.2) combination
    (singles.zip sets)

theorem combines_cons {single : ℕ} {singles : List ℕ} {s : List ℕ} {sets : List (List ℕ)}
    {combination : List ℕ} : Combines (single :: singles) (s :: sets) combination ↔
      ∃ id rest, combination = id :: rest ∧ id ∈ choices single s ∧
        Combines singles sets rest := by
  rw [Combines, List.zip_cons_cons, List.forall₂_cons_right_iff]
  constructor
  · intro h
    obtain ⟨id, rest, hid, hrest, heq⟩ := h
    exact ⟨id, rest, heq, hid, hrest⟩
  · intro h
    obtain ⟨id, rest, heq, hid, hrest⟩ := h
    exact ⟨id, rest, hid, hrest, heq⟩

theorem radices_cons (s : List ℕ) (sets : List (List ℕ)) :
    radices (s :: sets) = if 2 ≤ s.length then s.length :: radices sets else radices sets := by
  rw [radices, List.map_cons, List.filter_cons]
  simp [radices]

theorem combines_iff_pick : ∀ (singles : List ℕ) (sets : List (List ℕ)) (combination : List ℕ),
    singles.length = sets.length → (Combines singles sets combination ↔
      ∃ state, List.Forall₂ (· < ·) state (radices sets) ∧
        pick singles sets state = combination) := by
  intro singles sets
  induction sets generalizing singles with
  | nil =>
    intro combination _
    rw [Combines, List.zip_nil_right, List.forall₂_nil_right_iff]
    constructor
    · rintro rfl
      exact ⟨[], List.Forall₂.nil, by simp [pick]⟩
    · intro h
      obtain ⟨state, -, hpick⟩ := h
      rw [← hpick]
      simp [pick]
  | cons s sets ih =>
    intro combination hlength
    cases singles with
    | nil => simp at hlength
    | cons single singles =>
      have hrest : singles.length = sets.length := by simpa using hlength
      rw [combines_cons]
      match s with
      | [] =>
        have hradices : radices ([] :: sets) = radices sets := rfl
        rw [hradices]
        constructor
        · intro h
          obtain ⟨id, rest, rfl, hid, hcombines⟩ := h
          obtain ⟨state, hstate, hpick⟩ := (ih singles rest hrest).mp hcombines
          have hsingle : id = single := by simpa [choices] using hid
          refine ⟨state, hstate, ?_⟩
          rw [pick, List.headD_cons, List.tail_cons, hpick, hsingle]
        · intro h
          obtain ⟨state, hstate, hpick⟩ := h
          refine ⟨single, pick singles sets state, hpick.symm, by simp [choices], ?_⟩
          exact (ih singles _ hrest).mpr ⟨state, hstate, rfl⟩
      | [x] =>
        have hradices : radices ([x] :: sets) = radices sets := rfl
        rw [hradices]
        constructor
        · intro h
          obtain ⟨id, rest, rfl, hid, hcombines⟩ := h
          obtain ⟨state, hstate, hpick⟩ := (ih singles rest hrest).mp hcombines
          have hsingle : id = x := by simpa [choices] using hid
          refine ⟨state, hstate, ?_⟩
          rw [pick, List.tail_cons, hpick, hsingle]
        · intro h
          obtain ⟨state, hstate, hpick⟩ := h
          refine ⟨x, pick singles sets state, hpick.symm, by simp [choices], ?_⟩
          exact (ih singles _ hrest).mpr ⟨state, hstate, rfl⟩
      | x :: y :: more =>
        have hradices : radices ((x :: y :: more) :: sets) =
            (x :: y :: more).length :: radices sets := by
          rw [radices_cons, if_pos (by simp)]
        rw [hradices]
        constructor
        · intro h
          obtain ⟨id, rest, rfl, hid, hcombines⟩ := h
          obtain ⟨state, hstate, hpick⟩ := (ih singles rest hrest).mp hcombines
          rw [choices, if_neg (by simp)] at hid
          obtain ⟨pos, hpos, hget⟩ := List.getElem_of_mem hid
          refine ⟨pos :: state, List.Forall₂.cons hpos hstate, ?_⟩
          rw [pick, List.headD_cons, List.tail_cons, List.tail_cons, hpick,
            List.getD_eq_getElem _ _ hpos, hget]
        · intro h
          obtain ⟨state, hstate, hpick⟩ := h
          obtain ⟨pos, state, hpos, hmore, rfl⟩ := List.forall₂_cons_right_iff.mp hstate
          refine ⟨_, _, hpick.symm, ?_, (ih singles _ hrest).mpr ⟨state, hmore, rfl⟩⟩
          rw [choices, if_neg (by simp), List.headD_cons, List.getD_eq_getElem _ _ hpos]
          exact List.getElem_mem hpos

theorem pick_inj : ∀ (singles : List ℕ) (sets : List (List ℕ)) (state state' : List ℕ),
    (∀ s ∈ sets, s.Nodup) → List.Forall₂ (· < ·) state (radices sets) →
      List.Forall₂ (· < ·) state' (radices sets) →
      pick singles sets state = pick singles sets state' → state = state' := by
  intro singles sets
  induction sets generalizing singles with
  | nil =>
    intro state state' _ hstate hstate' _
    rw [List.forall₂_nil_right_iff.mp hstate, List.forall₂_nil_right_iff.mp hstate']
  | cons s sets ih =>
    intro state state' hnodup hstate hstate' hpick
    have hrest : ∀ t ∈ sets, t.Nodup := fun t ht => hnodup t (List.mem_cons_of_mem s ht)
    match s, hnodup s List.mem_cons_self with
    | [], _ => exact ih singles.tail state state' hrest hstate hstate' (List.cons.inj hpick).2
    | [x], _ => exact ih singles.tail state state' hrest hstate hstate' (List.cons.inj hpick).2
    | x :: y :: more, hset =>
      rw [radices_cons, if_pos (by simp)] at hstate hstate'
      obtain ⟨pos, state, hpos, hmore, rfl⟩ := List.forall₂_cons_right_iff.mp hstate
      obtain ⟨pos', state', hpos', hmore', rfl⟩ := List.forall₂_cons_right_iff.mp hstate'
      obtain ⟨hhead, htail⟩ := List.cons.inj hpick
      rw [List.headD_cons, List.headD_cons, List.getD_eq_getElem _ _ hpos,
        List.getD_eq_getElem _ _ hpos'] at hhead
      rw [hset.getElem_inj_iff.mp hhead, ih singles.tail state state' hrest hmore hmore' htail]

/-- All combinations in the order of the iterator. -/
def combinations (singles : List ℕ) (sets : List (List ℕ)) : List (List ℕ) :=
  (List.range' 0 (radices sets).prod).map fun k =>
    pick singles sets (Odometer.digits (radices sets) k)

theorem mem_combinations {singles : List ℕ} {sets : List (List ℕ)}
    (hlength : singles.length = sets.length) (combination : List ℕ) :
    combination ∈ combinations singles sets ↔ Combines singles sets combination := by
  rw [combines_iff_pick singles sets combination hlength, combinations, List.mem_map]
  constructor
  · intro h
    obtain ⟨k, -, hpick⟩ := h
    exact ⟨_, Odometer.digits_lt (radices_pos sets) k, hpick⟩
  · intro h
    obtain ⟨state, hstate, hpick⟩ := h
    obtain ⟨k, hk, hdigits⟩ := Odometer.exists_digits hstate
    exact ⟨k, by simpa using hk, by rw [hdigits, hpick]⟩

theorem nodup_combinations (singles : List ℕ) {sets : List (List ℕ)}
    (hnodup : ∀ s ∈ sets, s.Nodup) : (combinations singles sets).Nodup := by
  refine List.Nodup.map_on ?_ List.nodup_range'
  intro n hn m hm hpick
  have hdigits := pick_inj singles sets _ _ hnodup (Odometer.digits_lt (radices_pos sets) n)
    (Odometer.digits_lt (radices_pos sets) m) hpick
  exact Odometer.digits_inj (by simpa using hn) (by simpa using hm) hdigits

theorem start_spec {sets : List (List ℕ)}
    (hlimit : (sets.map fun s => max 1 s.length).prod < 100000) (singles : List ℕ) :
    ∃ it, start singles sets = some it ∧ ∀ fuel, (radices sets).prod < fuel →
      it.toList fuel = some (combinations singles sets) := by
  rw [← prod_radices] at hlimit
  refine ⟨_, start_eq singles hlimit, ?_⟩
  intro fuel hfuel
  exact toList_atNumber singles sets _ 0 fuel (Nat.zero_add _) hfuel

end CombinationIterator

/-- The lemmas are a set, an article has none, and the id is the first of them. -/
structure LemmaWord.Proper (word : LemmaWord) : Prop where
  sorted : word.lemmas.Pairwise (· < ·)
  article : word.isArticle = true → word.lemmas = []
  id_eq : word.lemmas ≠ [] → word.id = word.lemmas.headD 0

theorem LemmaWord.proper_single (id : ℕ) (isArticle : Bool) :
    (LemmaWord.mk id [] isArticle).Proper :=
  ⟨List.Pairwise.nil, fun _ => rfl, fun h => absurd rfl h⟩

namespace WordTrieBuilder

theorem proper_addLemmasOfWord (lemmer : ℕ → Text → List LemmerWord) (b : WordTrieBuilder)
    (word : SpelledWord) : (b.addLemmasOfWord lemmer word).2.Proper := by
  rw [addLemmasOfWord]
  dsimp only
  generalize lemmer (if word.language = langUnk then langRus else word.language)
    word.originalText = lemmata
  split
  · exact LemmaWord.proper_single _ _
  · have hsorted : (insertAll natLt (b.stepAll (lemmaCalls lemmer word)).2 []).Pairwise
        fun x y => natLt x y = true := pairwise_insertAll natLt_trans List.Pairwise.nil
    refine ⟨hsorted.imp fun hlt => of_decide_eq_true hlt, ?_, fun _ => rfl⟩
    intro h
    cases h

theorem proper_addWordWithMorphType (lemmer : ℕ → Text → List LemmerWord) (b : WordTrieBuilder)
    (word : SpelledWord) (morph : MorphType) :
    (b.addWordWithMorphType lemmer word morph).2.Proper := by
  cases morph with
  | exactForm => exact LemmaWord.proper_single _ _
  | allForms => exact LemmaWord.proper_single _ _
  | allLemmaForms => exact proper_addLemmasOfWord lemmer b word

theorem proper_addKeyWord (rules : AlphaRules) (lemmer : ℕ → Text → List LemmerWord)
    (options : PrefixOptions) (b : WordTrieBuilder) (kw : KeyWordText) :
    (b.addKeyWord rules lemmer options kw).2.Proper := by
  rw [addKeyWord]
  dsimp only
  split
  · exact LemmaWord.proper_single _ _
  · split_ifs
    · exact proper_addWordWithMorphType lemmer b _ _
    · exact proper_addWordWithMorphType lemmer b _ _

theorem addKeyWords_spec (rules : AlphaRules) (lemmer : ℕ → Text → List LemmerWord)
    (options : PrefixOptions) (b : WordTrieBuilder) (key : List KeyWordText) :
    (b.addKeyWords rules lemmer options key).2.length = key.length ∧
      ∀ word ∈ (b.addKeyWords rules lemmer options key).2, word.Proper := by
  rw [addKeyWords]
  induction key using List.reverseRecOn with
  | nil => exact ⟨rfl, by simp⟩
  | append_singleton before kw ih =>
    obtain ⟨hlength, hproper⟩ := ih
    rw [List.foldl_append]
    refine ⟨?_, ?_⟩
    · rw [List.foldl_cons, List.foldl_nil, List.length_append, hlength, List.length_append]
      rfl
    · intro word hword
      rw [List.foldl_cons, List.foldl_nil] at hword
      rcases List.mem_append.mp hword with hword | hword
      · exact hproper word hword
      · rw [List.mem_singleton.mp hword]
        exact proper_addKeyWord rules lemmer options _ kw

end WordTrieBuilder

theorem combines_single {words : List LemmaWord} (hchoices : ∀ w ∈ words,
    choices w.id w.lemmas = [w.id]) (combination : List ℕ) :
    CombinationIterator.Combines (words.map (·.id)) (words.map (·.lemmas)) combination ↔
      combination = words.map (·.id) := by
  induction words generalizing combination with
  | nil => simp [CombinationIterator.Combines]
  | cons w words ih =>
    rw [List.map_cons, List.map_cons, CombinationIterator.combines_cons,
      hchoices w List.mem_cons_self]
    have hrest := ih fun v hv => hchoices v (List.mem_cons_of_mem w hv)
    constructor
    · intro h
      obtain ⟨id, rest, rfl, hid, hcombines⟩ := h
      rw [List.mem_singleton.mp hid, (hrest rest).mp hcombines]
    · rintro rfl
      exact ⟨_, _, rfl, List.mem_singleton_self _, (hrest _).mpr rfl⟩

theorem addCombinations_spec {words : List LemmaWord} (hne : words ≠ [])
    (hproper : ∀ w ∈ words, w.Proper)
    (hlimit : (words.map fun w => max 1 w.lemmas.length).prod < 100000) :
    ∃ N calls, (∀ fuel, N < fuel → addCombinations fuel words = .ok calls) ∧ calls.Nodup ∧
      ∀ combination, combination ∈ calls ↔ CombinationIterator.Combines (words.map (·.id))
        (words.map (·.lemmas)) combination := by
  by_cases hsingle : (words.all fun w => w.isArticle || decide (w.lemmas.length < 2)) = true
  · have hchoices : ∀ w ∈ words, choices w.id w.lemmas = [w.id] := by
      intro w hw
      have hshort := List.all_eq_true.mp hsingle w hw
      rw [Bool.or_eq_true, decide_eq_true_eq] at hshort
      rw [choices]
      split_ifs with hnone
      · rfl
      · rcases hshort with harticle | hshort
        · exact absurd ((hproper w hw).article harticle) hnone
        · have hid := (hproper w hw).id_eq hnone
          match hlemmas : w.lemmas with
          | [] => exact absurd hlemmas hnone
          | [x] =>
            rw [hlemmas] at hid
            rw [hid]
            rfl
          | x :: y :: more =>
            rw [hlemmas, List.length_cons, List.length_cons] at hshort
            omega
    refine ⟨0, [words.map (·.id)], ?_, List.nodup_singleton _, ?_⟩
    · intro fuel _
      rw [addCombinations, if_neg hne, if_pos hsingle]
    · intro combination
      rw [List.mem_singleton, combines_single hchoices]
  · have hproduct : ((words.map (·.lemmas)).map fun s => max 1 s.length).prod < 100000 := by
      rw [List.map_map]
      exact hlimit
    obtain ⟨it, hstart, hlist⟩ := CombinationIterator.start_spec hproduct (words.map (·.id))
    refine ⟨(radices (words.map (·.lemmas))).prod, CombinationIterator.combinations (words.map (·.id)) (words.map (·.lemmas)), ?_,
      ?_, ?_⟩
    · intro fuel hfuel
      rw [addCombinations, if_neg hne, if_neg hsingle, hstart]
      dsimp only
      rw [hlist fuel hfuel]
    · refine CombinationIterator.nodup_combinations _ ?_
      intro s hs
      obtain ⟨w, hw, rfl⟩ := List.mem_map.mp hs
      exact (hproper w hw).sorted.imp fun hlt => Nat.ne_of_lt hlt
    · exact CombinationIterator.mem_combinations (by rw [List.length_map, List.length_map])

/-- The iterator shows every combination of the words once and stops, and every key is added once
for each combination of its words. -/
theorem combinations_enumerated (singles : List ℕ) (sets : List (List ℕ))
    (hlength : singles.length = sets.length) (hsets : ∀ s ∈ sets, s.Pairwise (· < ·))
    (hlimit : (sets.map fun s => max 1 s.length).prod < 100000) :
    (∃ it N combinations, CombinationIterator.start singles sets = some it ∧
      (∀ fuel, N < fuel → it.toList fuel = some combinations) ∧ combinations.Nodup ∧
      ∀ combination, combination ∈ combinations ↔
        CombinationIterator.Combines singles sets combination) ∧
    ∀ (rules : AlphaRules) (lemmer : ℕ → Text → List LemmerWord) (options : PrefixOptions)
      (b : WordTrieBuilder) (key : List KeyWordText), key ≠ [] →
      let words := (b.addKeyWords rules lemmer options key).2
      (words.map fun w => max 1 w.lemmas.length).prod < 100000 →
      ∃ N calls, (∀ fuel, N < fuel →
          addCurrentKeyWords fuel rules lemmer options b key = .ok calls) ∧ calls.Nodup ∧
        ∀ combination, combination ∈ calls ↔ CombinationIterator.Combines (words.map (·.id))
          (words.map (·.lemmas)) combination := by
  refine ⟨?_, ?_⟩
  · obtain ⟨it, hstart, hlist⟩ := CombinationIterator.start_spec hlimit singles
    refine ⟨it, _, _, hstart, hlist, ?_, CombinationIterator.mem_combinations hlength⟩
    exact CombinationIterator.nodup_combinations singles
      fun s hs => (hsets s hs).imp fun hlt => Nat.ne_of_lt hlt
  · intro rules lemmer options b key hkey words hfew
    obtain ⟨hwords, hproper⟩ := b.addKeyWords_spec rules lemmer options key
    refine addCombinations_spec ?_ hproper hfew
    intro hnone
    rw [hnone, List.length_nil] at hwords
    exact hkey (List.length_eq_zero_iff.mp hwords.symm)

/-- A lemmer with two lemmata for every word. -/
def twoLemmata (_ : ℕ) (text : Text) : List LemmerWord :=
  [⟨'a' :: text, true⟩, ⟨'b' :: text, true⟩]

/-- A word with two lemmas, one with three, one with one and one without any; and a key of two words
in all their lemma forms. -/
theorem combinations_enumerated_fourWords :
    (∃ it N combinations, CombinationIterator.start [4, 8, 12, 16]
        [[6, 10], [2, 14, 18], [22], []] = some it ∧
      (∀ fuel, N < fuel → it.toList fuel = some combinations) ∧ combinations.Nodup ∧
      ∀ combination, combination ∈ combinations ↔ CombinationIterator.Combines [4, 8, 12, 16]
        [[6, 10], [2, 14, 18], [22], []] combination) ∧
    ∃ N calls, (∀ fuel, N < fuel → addCurrentKeyWords fuel
        ⟨fun _ t => t, fun _ t => t, fun _ t => t⟩ twoLemmata plainPrefixes {}
        [{ text := ['x'], morph := .allLemmaForms }, { text := ['y'], morph := .allLemmaForms }] =
          .ok calls) ∧
      [6, 14] ∈ calls ∧ [10, 18] ∈ calls := by
  obtain ⟨hlist, hkeys⟩ := combinations_enumerated [4, 8, 12, 16] [[6, 10], [2, 14, 18], [22], []]
    rfl (by decide) (by decide)
  obtain ⟨N, calls, hrun, -, hcalls⟩ := hkeys ⟨fun _ t => t, fun _ t => t, fun _ t => t⟩ twoLemmata
    plainPrefixes {} [{ text := ['x'], morph := .allLemmaForms },
      { text := ['y'], morph := .allLemmaForms }] (by simp) (by decide)
  refine ⟨hlist, N, calls, hrun, (hcalls _).mpr ?_, (hcalls _).mpr ?_⟩
  · unfold CombinationIterator.Combines
    decide
  · unfold CombinationIterator.Combines
    decide

end TomitaParser.Gzt
