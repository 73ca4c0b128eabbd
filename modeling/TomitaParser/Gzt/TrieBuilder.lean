import Mathlib.Order.Nat
import TomitaParser.Lib.Machine
import TomitaParser.Lib.OrderedMap
/-! # The builder of the tries of a gazetteer

`TMoreCompactTrieBuilder` collects keys in a map. When the map has grown too large it is packed into
a trie, together with the trie of the keys that have been packed before. The builder answers as one
map would. -/

namespace TomitaParser.Gzt

/-- `TCompactTrie` and its builder: a trie is made from keys in the order in which they are added,
and what is in it is found or gone through. -/
structure PackedTries (Key Value : Type) where
  Trie : Type
  empty : Trie
  build : List (Key × Value) → Trie
  find : Trie → Key → Option Value
  entries : Trie → List (Key × Value)

/-- What the trie keeps: keys that are added in order are found, each with its value, and they are
gone through in the same order. -/
structure PackedTries.Faithful {Key Value : Type} [LinearOrder Key]
    (tries : PackedTries Key Value) : Prop where
  find_empty : ∀ k, tries.find tries.empty k = none
  entries_empty : tries.entries tries.empty = []
  find_build : ∀ l : List (Key × Value), l.Pairwise (fun a b => a.1 < b.1) → ∀ k,
    tries.find (tries.build l) k = OrderedMap.lookup k l
  entries_build : ∀ l : List (Key × Value), l.Pairwise (fun a b => a.1 < b.1) →
    tries.entries (tries.build l) = l

variable {Key Value : Type} [LinearOrder Key]

/-- `Merge`: the keys of the map and of the trie in one order. Where a key is in both, the map has
its value. -/
def mergeEntries : List (Key × Value) → List (Key × Value) → List (Key × Value)
  | [], trie => trie
  | m :: map, [] => m :: map
  | m :: map, t :: trie =>
    if m.1 < t.1 then m :: mergeEntries map (t :: trie)
    else if t.1 < m.1 then t :: mergeEntries (m :: map) trie
    else m :: mergeEntries map trie
termination_by map trie => map.length + trie.length

theorem mem_mergeEntries {map trie : List (Key × Value)} {e : Key × Value}
    (he : e ∈ mergeEntries map trie) : e ∈ map ∨ e ∈ trie := by
  induction map, trie using mergeEntries.induct with
  | case1 trie =>
    rw [mergeEntries] at he
    exact Or.inr he
  | case2 m map =>
    rw [mergeEntries] at he
    exact Or.inl he
  | case3 m map t trie hlt ih =>
    rw [mergeEntries, if_pos hlt] at he
    rcases List.mem_cons.mp he with rfl | he
    · exact Or.inl List.mem_cons_self
    · exact (ih he).imp_left (List.mem_cons_of_mem m)
  | case4 m map t trie hlt hgt ih =>
    rw [mergeEntries, if_neg hlt, if_pos hgt] at he
    rcases List.mem_cons.mp he with rfl | he
    · exact Or.inr List.mem_cons_self
    · exact (ih he).imp_right (List.mem_cons_of_mem t)
  | case5 m map t trie hlt hgt ih =>
    rw [mergeEntries, if_neg hlt, if_neg hgt] at he
    rcases List.mem_cons.mp he with rfl | he
    · exact Or.inl List.mem_cons_self
    · exact (ih he).imp (List.mem_cons_of_mem m) (List.mem_cons_of_mem t)

theorem sorted_mergeEntries {map trie : List (Key × Value)}
    (hmap : map.Pairwise fun a b => a.1 < b.1) (htrie : trie.Pairwise fun a b => a.1 < b.1) :
    (mergeEntries map trie).Pairwise fun a b => a.1 < b.1 := by
  induction map, trie using mergeEntries.induct with
  | case1 trie =>
    rw [mergeEntries]
    exact htrie
  | case2 m map =>
    rw [mergeEntries]
    exact hmap
  | case3 m map t trie hlt ih =>
    obtain ⟨hm, hrest⟩ := List.pairwise_cons.mp hmap
    rw [mergeEntries, if_pos hlt]
    apply List.pairwise_cons.mpr
    refine ⟨fun e he => ?_, ih hrest htrie⟩
    rcases mem_mergeEntries he with he | he
    · exact hm e he
    · rcases List.mem_cons.mp he with rfl | he
      · exact hlt
      · exact lt_trans hlt ((List.pairwise_cons.mp htrie).1 e he)
  | case4 m map t trie hlt hgt ih =>
    obtain ⟨ht, hrest⟩ := List.pairwise_cons.mp htrie
    rw [mergeEntries, if_neg hlt, if_pos hgt]
    apply List.pairwise_cons.mpr
    refine ⟨fun e he => ?_, ih hmap hrest⟩
    rcases mem_mergeEntries he with he | he
    · rcases List.mem_cons.mp he with rfl | he
      · exact hgt
      · exact lt_trans hgt ((List.pairwise_cons.mp hmap).1 e he)
    · exact ht e he
  | case5 m map t trie hlt hgt ih =>
    obtain ⟨hm, hmapRest⟩ := List.pairwise_cons.mp hmap
    obtain ⟨ht, htrieRest⟩ := List.pairwise_cons.mp htrie
    have heq : m.1 = t.1 := le_antisymm (not_lt.mp hgt) (not_lt.mp hlt)
    rw [mergeEntries, if_neg hlt, if_neg hgt]
    apply List.pairwise_cons.mpr
    refine ⟨fun e he => ?_, ih hmapRest htrieRest⟩
    rcases mem_mergeEntries he with he | he
    · exact hm e he
    · exact heq ▸ ht e he

/-- In the merged entries a key has the value of the map, or else that of the trie. -/
theorem lookup_mergeEntries {map trie : List (Key × Value)}
    (hmap : map.Pairwise fun a b => a.1 < b.1) (htrie : trie.Pairwise fun a b => a.1 < b.1)
    (k : Key) : OrderedMap.lookup k (mergeEntries map trie) =
      (OrderedMap.lookup k map).or (OrderedMap.lookup k trie) := by
  induction map, trie using mergeEntries.induct with
  | case1 trie =>
    rw [mergeEntries]
    rfl
  | case2 m map =>
    rw [mergeEntries, OrderedMap.lookup_nil, Option.or_none]
  | case3 m map t trie hlt ih =>
    rw [mergeEntries, if_pos hlt, OrderedMap.lookup, ih (List.pairwise_cons.mp hmap).2 htrie,
      OrderedMap.lookup.eq_def k (m :: map)]
    by_cases hk : m.1 = k
    · simp only [if_pos hk, Option.some_or]
    · simp only [if_neg hk]
  | case4 m map t trie hlt hgt ih =>
    rw [mergeEntries, if_neg hlt, if_pos hgt, OrderedMap.lookup,
      ih hmap (List.pairwise_cons.mp htrie).2, OrderedMap.lookup.eq_def k (t :: trie)]
    by_cases hk : t.1 = k
    · have hnone : OrderedMap.lookup k (m :: map) = none := by
        apply OrderedMap.lookup_eq_none.mpr
        intro e he
        rcases List.mem_cons.mp he with rfl | he
        · exact hk ▸ ne_of_gt hgt
        · exact hk ▸ ne_of_gt (lt_trans hgt ((List.pairwise_cons.mp hmap).1 e he))
      simp only [if_pos hk, hnone, Option.none_or]
    · simp only [if_neg hk]
  | case5 m map t trie hlt hgt ih =>
    have heq : m.1 = t.1 := le_antisymm (not_lt.mp hgt) (not_lt.mp hlt)
    rw [mergeEntries, if_neg hlt, if_neg hgt, OrderedMap.lookup,
      ih (List.pairwise_cons.mp hmap).2 (List.pairwise_cons.mp htrie).2,
      OrderedMap.lookup.eq_def k (m :: map), OrderedMap.lookup.eq_def k (t :: trie)]
    by_cases hk : m.1 = k
    · simp only [if_pos hk, Option.some_or]
    · simp only [if_neg hk, if_neg (heq ▸ hk)]

/-- `TMoreCompactTrieBuilder`. -/
structure TrieBuilder (tries : PackedTries Key Value) where
  maxInsertedSize : ℕ
  inserted : OrderedMap Key Value
  compacted : tries.Trie

namespace TrieBuilder
variable {tries : PackedTries Key Value}

/-- The constructor. -/
def new (tries : PackedTries Key Value) (maxSize : ℕ) : TrieBuilder tries :=
  ⟨maxSize, .empty, tries.empty⟩

/-- `Merge`, and what `Save` writes. -/
def merge (b : TrieBuilder tries) : tries.Trie :=
  tries.build (mergeEntries b.inserted.entries (tries.entries b.compacted))

def compact (b : TrieBuilder tries) : TrieBuilder tries :=
  { b with compacted := b.merge, inserted := .empty }

def find (b : TrieBuilder tries) (key : Key) : Option Value :=
  match b.inserted.find key with
  | some value => some value
  | none => tries.find b.compacted key

/-- `Insert` without the compaction: whether the key is new, and the value that `existing` points
to. -/
def insertKey (b : TrieBuilder tries) (key : Key) (value : Value) :
    TrieBuilder tries × Bool × Value :=
  match b.inserted.find key with
  | some present => (b, false, present)
  | none =>
    match tries.find b.compacted key with
    | some present => ({ b with inserted := b.inserted.insert key present }, false, present)
    | none => ({ b with inserted := b.inserted.insert key value }, true, value)

def insert (b : TrieBuilder tries) (key : Key) (value : Value) : TrieBuilder tries × Bool × Value :=
  (if b.maxInsertedSize ≤ b.inserted.entries.length then b.compact else b).insertKey key value

/-- A value is written through the pointer to the value of a key in `Inserted`. -/
def write (b : TrieBuilder tries) (key : Key) (value : Value) : TrieBuilder tries :=
  { b with inserted := b.inserted.insert key value }

end TrieBuilder

/-- What a client does with a builder. After `Insert` it writes through the pointer what it makes of
the answer, perhaps the value that is there. -/
inductive TrieCall (Key Value : Type) where
  | find (key : Key)
  | insert (key : Key) (value : Value) (write : Bool → Value → Value)

/-- What the client is told. -/
inductive TrieAnswer (Value : Type) where
  | found (value : Option Value)
  | inserted (isNew : Bool) (existing : Value)
deriving DecidableEq

namespace TrieBuilder
variable {tries : PackedTries Key Value}

def call (b : TrieBuilder tries) : TrieCall Key Value → TrieBuilder tries × TrieAnswer Value
  | .find key => (b, .found (b.find key))
  | .insert key value write =>
    let r := b.insert key value
    (r.1.write key (write r.2.1 r.2.2), .inserted r.2.1 r.2.2)

end TrieBuilder

/-- One map, which is what a builder is to be. -/
def mapCall (m : OrderedMap Key Value) : TrieCall Key Value →
    OrderedMap Key Value × TrieAnswer Value
  | .find key => (m, .found (m.find key))
  | .insert key value write =>
    match m.find key with
    | some present => (m.insert key (write false present), .inserted false present)
    | none => (m.insert key (write true value), .inserted true value)

namespace TrieBuilder
variable {tries : PackedTries Key Value}

/-- What a builder holds: the packed entries are in order and are found. -/
structure Represents (b : TrieBuilder tries) (m : OrderedMap Key Value) : Prop where
  sorted : (tries.entries b.compacted).Pairwise fun a b => a.1 < b.1
  findCompacted : ∀ k, tries.find b.compacted k =
    OrderedMap.lookup k (tries.entries b.compacted)
  find : ∀ k, b.find k = m.find k

theorem find_eq_or (b : TrieBuilder tries) (k : Key) :
    b.find k = (b.inserted.find k).or (tries.find b.compacted k) := by
  rw [TrieBuilder.find]
  cases b.inserted.find k <;> rfl

theorem represents_new (h : tries.Faithful) (maxSize : ℕ) :
    (new tries maxSize).Represents .empty := by
  constructor
  · rw [new, h.entries_empty]
    exact List.Pairwise.nil
  · intro k
    rw [new, h.entries_empty, h.find_empty]
    rfl
  · intro k
    rw [find_eq_or, new, h.find_empty]
    rfl

theorem Represents.mergeEntries_eq {b : TrieBuilder tries} {m : OrderedMap Key Value}
    (hb : b.Represents m) :
    mergeEntries b.inserted.entries (tries.entries b.compacted) = m.entries := by
  apply OrderedMap.eq_of_lookup (sorted_mergeEntries b.inserted.sorted hb.sorted) m.sorted
  intro k
  have hfind := hb.find k
  rw [find_eq_or, hb.findCompacted] at hfind
  rw [lookup_mergeEntries b.inserted.sorted hb.sorted]
  exact hfind

theorem Represents.compact (h : tries.Faithful) {b : TrieBuilder tries} {m : OrderedMap Key Value}
    (hb : b.Represents m) : b.compact.Represents m := by
  have hmerge : b.compact.compacted = tries.build m.entries := by
    rw [TrieBuilder.compact, merge, hb.mergeEntries_eq]
  constructor
  · rw [hmerge, h.entries_build _ m.sorted]
    exact m.sorted
  · intro k
    rw [hmerge, h.entries_build _ m.sorted, h.find_build _ m.sorted]
  · intro k
    rw [find_eq_or, hmerge, h.find_build _ m.sorted]
    rfl

theorem write_write (b : TrieBuilder tries) (key : Key) (first value : Value) :
    (b.write key first).write key value = b.write key value := by
  rw [write, write, write, OrderedMap.insert_insert]

theorem Represents.write {b : TrieBuilder tries} {m : OrderedMap Key Value}
    (hb : b.Represents m) (key : Key) (value : Value) :
    (b.write key value).Represents (m.insert key value) := by
  refine ⟨hb.sorted, hb.findCompacted, fun k => ?_⟩
  have hfind := hb.find k
  rw [find_eq_or] at hfind ⊢
  change ((b.inserted.insert key value).find k).or (tries.find b.compacted k) = _
  rw [OrderedMap.find_insert, OrderedMap.find_insert]
  by_cases hk : key = k
  · rw [if_pos hk, if_pos hk, Option.some_or]
  · rw [if_neg hk, if_neg hk, hfind]

theorem Represents.insertKey {b : TrieBuilder tries} {m : OrderedMap Key Value}
    (hb : b.Represents m) (key : Key) (value written : Value) :
    (b.insertKey key value).2 =
      (match m.find key with | some present => (false, present) | none => (true, value)) ∧
    ((b.insertKey key value).1.write key written).Represents (m.insert key written) := by
  have hfind := hb.find key
  rw [find_eq_or] at hfind
  have hwrite := hb.write key written
  have hinsert : ∀ first, ((b.write key first).write key written).Represents
      (m.insert key written) := by
    intro first
    rw [write_write]
    exact hwrite
  rw [TrieBuilder.insertKey]
  cases hinserted : b.inserted.find key with
  | some present =>
    rw [hinserted, Option.some_or] at hfind
    rw [← hfind]
    exact ⟨rfl, hwrite⟩
  | none =>
    rw [hinserted, Option.none_or] at hfind
    rw [← hfind]
    cases tries.find b.compacted key with
    | some present => exact ⟨rfl, hinsert present⟩
    | none => exact ⟨rfl, hinsert value⟩

theorem Represents.call (h : tries.Faithful) {b : TrieBuilder tries} {m : OrderedMap Key Value}
    (hb : b.Represents m) (c : TrieCall Key Value) :
    (b.call c).1.Represents (mapCall m c).1 ∧ (b.call c).2 = (mapCall m c).2 := by
  cases c with
  | find key => exact ⟨hb, congrArg TrieAnswer.found (hb.find key)⟩
  | insert key value write =>
    have hcompact : (if b.maxInsertedSize ≤ b.inserted.entries.length then b.compact
        else b).Represents m := by
      split_ifs
      · exact hb.compact h
      · exact hb
    have hinsert := hcompact.insertKey key value
    rw [TrieBuilder.call, TrieBuilder.insert, mapCall]
    cases hfind : m.find key with
    | some present =>
      rw [hfind] at hinsert
      have hanswer := (hinsert value).1
      simp only [hanswer]
      exact ⟨(hinsert _).2, trivial⟩
    | none =>
      rw [hfind] at hinsert
      have hanswer := (hinsert value).1
      simp only [hanswer]
      exact ⟨(hinsert _).2, trivial⟩

end TrieBuilder

/-- The keys that are inserted by some calls. -/
def insertedKeys (calls : List (TrieCall Key Value)) : List Key :=
  calls.filterMap fun
    | .find _ => none
    | .insert key _ _ => some key

/-- The call is an `Insert` of the key and is told that the key is new. -/
def isNewReport (k : Key) : TrieCall Key Value × TrieAnswer Value → Bool
  | (.insert key _ _, .inserted isNew _) => isNew && decide (key = k)
  | _ => false

/-- How often a key is reported as new. -/
def newReports (k : Key) (calls : List (TrieCall Key Value)) (answers : List (TrieAnswer Value)) :
    ℕ :=
  (calls.zip answers).countP (isNewReport k)

theorem find_mapCall_insert (m : OrderedMap Key Value) (key k : Key) (value : Value)
    (write : Bool → Value → Value) :
    (mapCall m (.insert key value write)).1.find k = none ↔ key ≠ k ∧ m.find k = none := by
  have hinsert : ∀ v, (m.insert key v).find k = none ↔ key ≠ k ∧ m.find k = none := by
    intro v
    rw [OrderedMap.find_insert]
    by_cases hk : key = k
    · simp [hk]
    · simp [hk]
  rw [mapCall]
  cases m.find key with
  | some present => exact hinsert _
  | none => exact hinsert _

theorem isNewReport_mapCall (m : OrderedMap Key Value) (key k : Key) (value : Value)
    (write : Bool → Value → Value) :
    isNewReport k (.insert key value write, (mapCall m (.insert key value write)).2) = true ↔
      key = k ∧ m.find k = none := by
  rw [mapCall]
  by_cases hk : key = k
  · subst hk
    cases m.find key with
    | some present => simp [isNewReport]
    | none => simp [isNewReport]
  · cases m.find key with
    | some present => simp [isNewReport, hk]
    | none => simp [isNewReport, hk]

theorem newReports_mapCall (k : Key) (m : OrderedMap Key Value)
    (calls : List (TrieCall Key Value)) :
    newReports k calls (Machine.run mapCall m calls).2 =
      if m.find k = none ∧ k ∈ insertedKeys calls then 1 else 0 := by
  induction calls generalizing m with
  | nil => simp [newReports, insertedKeys]
  | cons c calls ih =>
    have hsplit : newReports k (c :: calls) (Machine.run mapCall m (c :: calls)).2 =
        newReports k calls (Machine.run mapCall (mapCall m c).1 calls).2 +
          if isNewReport k (c, (mapCall m c).2) then 1 else 0 := List.countP_cons
    rw [hsplit, ih]
    cases c with
    | find key => simp [mapCall, isNewReport, insertedKeys]
    | insert key value write =>
      have hkeys : insertedKeys (TrieCall.insert key value write :: calls) =
          key :: insertedKeys calls := rfl
      simp only [hkeys, List.mem_cons, find_mapCall_insert, isNewReport_mapCall]
      by_cases hk : key = k
      · simp [hk]
      · simp [hk, Ne.symm hk]

/-- The builder is a map: whatever is called and however often it compacts, it answers as one map
does, reports each key that is inserted as new once, and saves the entries of the map. -/
theorem trieBuilder_is_map {tries : PackedTries Key Value} (h : tries.Faithful) (maxSize : ℕ)
    (calls : List (TrieCall Key Value)) :
    let builder := Machine.run TrieBuilder.call (TrieBuilder.new tries maxSize) calls
    let map := Machine.run mapCall (OrderedMap.empty : OrderedMap Key Value) calls
    builder.2 = map.2 ∧
    (∀ k, builder.1.find k = map.1.find k) ∧
    (∀ k, newReports k calls builder.2 = if k ∈ insertedKeys calls then 1 else 0) ∧
    tries.entries builder.1.merge = map.1.entries ∧
    ∀ k, tries.find builder.1.merge k = map.1.find k := by
  intro builder map
  have hrun : builder.1.Represents map.1 ∧ builder.2 = map.2 :=
    @Machine.run_of_simulation _ _ _ _ _ _ TrieBuilder.Represents
      (fun _ _ c hb => TrieBuilder.Represents.call h hb c) _ _
      (TrieBuilder.represents_new h maxSize) calls
  have hmerge : builder.1.merge = tries.build map.1.entries := by
    rw [TrieBuilder.merge, hrun.1.mergeEntries_eq]
  refine ⟨hrun.2, hrun.1.find, fun k => ?_, ?_, fun k => ?_⟩
  · rw [hrun.2, newReports_mapCall]
    simp
  · rw [hmerge, h.entries_build _ map.1.sorted]
  · rw [hmerge, h.find_build _ map.1.sorted]
    rfl

/-- Tries that are the lists of their entries. -/
def listTries (Key Value : Type) [LinearOrder Key] : PackedTries Key Value where
  Trie := List (Key × Value)
  empty := []
  build l := l
  find l k := OrderedMap.lookup k l
  entries l := l

theorem listTries_faithful : (listTries Key Value).Faithful :=
  ⟨fun _ => rfl, rfl, fun _ _ _ => rfl, fun _ _ => rfl⟩

/-- Three keys, packed one by one; the first of them is written again when it has been packed. -/
theorem trieBuilder_is_map_packed :
    let calls : List (TrieCall ℕ ℕ) := [.insert 5 1 fun _ v => v, .insert 3 2 fun _ v => v,
      .insert 5 7 fun _ v => v + 10, .find 5, .find 4]
    let builder := Machine.run TrieBuilder.call (TrieBuilder.new (listTries ℕ ℕ) 1) calls
    builder.2 = [.inserted true 1, .inserted true 2, .inserted false 1, .found (some 11),
      .found none] ∧ (listTries ℕ ℕ).entries builder.1.merge = [(3, 2), (5, 11)] := by
  intro calls builder
  have hmap := trieBuilder_is_map listTries_faithful 1 calls
  exact ⟨hmap.1.trans (by decide), hmap.2.2.2.1.trans (by decide)⟩

end TomitaParser.Gzt
