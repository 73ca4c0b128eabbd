import Mathlib.Data.List.Nodup
import TomitaParser.Glr.ItemRoundTrip
/-! # Keyword types in files

A keyword type is saved as its index in the pool of the process. The names of the pool are saved in
front, and the process that loads the file looks them up in its own pool. -/

namespace TomitaParser.Items

/-- `TKWTypePool`. The null type has the index 0. -/
structure KWTypePool (Descriptor : Type) where
  registeredTypes : List (Stroka × Descriptor) := []
  saveIndex : List (Option Descriptor × ℕ) := [(none, 0)]
  loadIndex : List (Option Descriptor) := [none]

namespace KWTypePool
variable {Descriptor : Type} [DecidableEq Descriptor] (fullName : Descriptor → Stroka)

/-- `FindMessageTypeByName`. -/
def findMessageTypeByName (p : KWTypePool Descriptor) (name : Stroka) : Option Descriptor :=
  (p.registeredTypes.find? fun e => e.1 == name).map (·.2)

/-- One type in the loop of `RegisterPool`. -/
def register (p : KWTypePool Descriptor) (d : Descriptor) : KWTypePool Descriptor :=
  if p.registeredTypes.any fun e => e.1 == fullName d then p
  else
    { registeredTypes := p.registeredTypes ++ [(fullName d, d)]
      saveIndex :=
        if p.saveIndex.any fun e => e.1 == some d then p.saveIndex
        else p.saveIndex ++ [(some d, p.saveIndex.length)]
      loadIndex := p.loadIndex ++ [some d] }

/-- `RegisterPool`, which begins with `Reset`. -/
def registerPool (pool : List Descriptor) : KWTypePool Descriptor :=
  pool.foldl (register fullName) {}

/-- `SaveKWType`, up to the word that the index is written as; it fails for an unknown type. -/
def saveKWType (p : KWTypePool Descriptor) (type : Option Descriptor) : Option ℕ :=
  (p.saveIndex.find? fun e => e.1 == type).map (·.2)

/-- `LoadKWType`; it fails for a wrong index. -/
def loadKWType (p : KWTypePool Descriptor) (index : ℕ) : Option (Option Descriptor) :=
  p.loadIndex[index]?

/-- The name that `Save` writes for a type. -/
def savedName (type : Option Descriptor) : Stroka := (type.map fullName).getD []

/-- The names that `Save` writes: each is put to its index. -/
def save (p : KWTypePool Descriptor) : List Stroka :=
  p.saveIndex.foldl (fun names e => names.set e.2 (savedName fullName e.1))
    (List.replicate p.saveIndex.length [])

/-- The loop of `Load`; it stops at a name that is not registered. -/
def loadNames (p : KWTypePool Descriptor) :
    List Stroka → List (Option Descriptor) → Bool × List (Option Descriptor)
  | [], index => (true, index)
  | name :: names, index =>
    if name = [] then loadNames p names (index ++ [none])
    else match p.findMessageTypeByName name with
      | some d => loadNames p names (index ++ [some d])
      | none => (false, index)

/-- `Load`: whether it succeeds, and the pool after it, in which a part of the types may be left. -/
def load (p : KWTypePool Descriptor) (names : List Stroka) : Bool × KWTypePool Descriptor :=
  let r := p.loadNames names []
  (r.1, { p with loadIndex := r.2 })

/-- What a process does with its pool. -/
inductive Step (Descriptor : Type) where
  | registerPool (pool : List Descriptor)
  | load (names : List Stroka)

def step (p : KWTypePool Descriptor) : Step Descriptor → KWTypePool Descriptor
  | .registerPool pool => registerPool fullName pool
  | .load names => (p.load names).2

def run (steps : List (Step Descriptor)) : KWTypePool Descriptor :=
  steps.foldl (step fullName) {}

/-- The types that were registered last. -/
def lastPool (steps : List (Step Descriptor)) : List Descriptor :=
  steps.foldl (fun pool s => match s with
    | .registerPool pool' => pool'
    | .load _ => pool) []

variable {fullName}

/-- The tables of a pool in which `types` are registered, without those whose name is taken. -/
structure Holds (fullName : Descriptor → Stroka) (types : List Descriptor)
    (p : KWTypePool Descriptor) : Prop where
  name : ∀ e ∈ p.registeredTypes, e.1 = fullName e.2 ∧ e.2 ∈ types
  registered : ∀ name, (∃ e ∈ p.registeredTypes, e.1 = name) ↔ ∃ d ∈ types, fullName d = name
  saveIndex : p.saveIndex = (none :: p.registeredTypes.map fun e => some e.2).zipIdx
  loadIndex : ∀ t ∈ p.loadIndex, ∀ d ∈ t, (fullName d, d) ∈ p.registeredTypes

theorem Holds.register {types : List Descriptor} {p : KWTypePool Descriptor}
    (h : Holds fullName types p) (d : Descriptor) :
    Holds fullName (types ++ [d]) (register fullName p d) := by
  have hmem : ∀ name, (∃ d' ∈ types ++ [d], fullName d' = name) ↔
      (∃ d' ∈ types, fullName d' = name) ∨ fullName d = name := by
    intro name
    simp only [List.mem_append, List.mem_singleton, or_and_right, exists_or, exists_eq_left]
  unfold KWTypePool.register
  split_ifs with htaken hindexed
  · -- the name is taken
    obtain ⟨e, he, hname⟩ := List.any_eq_true.mp htaken
    refine ⟨fun e he => ⟨(h.name e he).1, List.mem_append_left _ (h.name e he).2⟩, fun name => ?_,
      h.saveIndex, h.loadIndex⟩
    rw [hmem, h.registered]
    refine ⟨Or.inl, fun hor => hor.elim id fun heq => ?_⟩
    rw [← h.registered]
    exact ⟨e, he, (beq_iff_eq.mp hname).trans heq⟩
  · -- a type that has an index has its name registered
    obtain ⟨e, he, htype⟩ := List.any_eq_true.mp hindexed
    rw [h.saveIndex] at he
    have hget := List.mem_of_getElem? (List.mem_zipIdx_iff_getElem?.mp he)
    rw [beq_iff_eq.mp htype] at hget
    rcases List.mem_cons.mp hget with hnull | hget
    · cases hnull
    · obtain ⟨e', he', heq⟩ := List.mem_map.mp hget
      refine absurd (List.any_eq_true.mpr ⟨e', he', ?_⟩) htaken
      rw [(h.name e' he').1, Option.some.inj heq]
      exact beq_self_eq_true _
  · refine ⟨fun e he => ?_, fun name => ?_, ?_, fun t ht d' hd' => ?_⟩
    · rcases List.mem_append.mp he with he | he
      · exact ⟨(h.name e he).1, List.mem_append_left _ (h.name e he).2⟩
      · rw [List.mem_singleton.mp he]
        exact ⟨rfl, List.mem_append_right _ (List.mem_singleton_self d)⟩
    · rw [hmem, ← h.registered]
      simp only [List.mem_append, List.mem_singleton, or_and_right, exists_or, exists_eq_left]
    · have hlength : p.saveIndex.length = p.registeredTypes.length + 1 := by
        rw [h.saveIndex, List.length_zipIdx, List.length_cons, List.length_map]
      simp only [hlength]
      rw [h.saveIndex, List.map_append, ← List.cons_append, List.zipIdx_append]
      simp
    · rcases List.mem_append.mp ht with ht | ht
      · exact List.mem_append_left _ (h.loadIndex t ht d' hd')
      · rw [List.mem_singleton.mp ht] at hd'
        cases hd'
        exact List.mem_append_right _ (List.mem_singleton_self _)

omit [DecidableEq Descriptor] in
theorem holds_new : Holds fullName [] ({} : KWTypePool Descriptor) := by
  refine ⟨fun e he => absurd he List.not_mem_nil, fun name => by simp, rfl, fun t ht d hd => ?_⟩
  rw [List.mem_singleton.mp ht] at hd
  cases hd

theorem holds_registerPool (pool : List Descriptor) :
    Holds fullName pool (registerPool fullName pool) := by
  have hfold : ∀ (rest types : List Descriptor) (p : KWTypePool Descriptor),
      Holds fullName types p →
      Holds fullName (types ++ rest) (rest.foldl (KWTypePool.register fullName) p) := by
    intro rest
    induction rest with
    | nil => exact fun types p h => by rwa [List.append_nil]
    | cons d rest ih =>
      intro types p h
      rw [← List.singleton_append, ← List.append_assoc types [d] rest]
      exact ih _ _ (h.register d)
  exact hfold pool [] {} holds_new

/-- The type that a name is loaded as. -/
def Resolves (p : KWTypePool Descriptor) (name : Stroka) (type : Option Descriptor) : Prop :=
  (name = [] ∧ type = none) ∨
    (name ≠ [] ∧ ∃ d, p.findMessageTypeByName name = some d ∧ type = some d)

/-- What the loop adds for names, and whether it comes to their end. -/
inductive Loaded (p : KWTypePool Descriptor) : List Stroka → Bool → List (Option Descriptor) → Prop
  | nil : Loaded p [] true []
  | cons {name names type types ok} (h : p.Resolves name type) (hrest : Loaded p names ok types) :
    Loaded p (name :: names) ok (type :: types)
  | stop {name names} (hname : name ≠ []) (hfind : p.findMessageTypeByName name = none) :
    Loaded p (name :: names) false []

omit [DecidableEq Descriptor] in
theorem loadNames_spec (p : KWTypePool Descriptor) (names : List Stroka) : ∀ index,
    ∃ types, (p.loadNames names index).2 = index ++ types ∧
      Loaded p names (p.loadNames names index).1 types := by
  induction names with
  | nil => exact fun index => ⟨[], (List.append_nil _).symm, .nil⟩
  | cons name names ih =>
    intro index
    rw [loadNames]
    by_cases hname : name = []
    · rw [if_pos hname]
      obtain ⟨types, heq, hloaded⟩ := ih (index ++ [none])
      exact ⟨none :: types, by rw [heq, List.append_assoc, List.singleton_append],
        .cons (Or.inl ⟨hname, rfl⟩) hloaded⟩
    · rw [if_neg hname]
      cases hfind : p.findMessageTypeByName name with
      | some d =>
        obtain ⟨types, heq, hloaded⟩ := ih (index ++ [some d])
        exact ⟨some d :: types, by rw [heq, List.append_assoc, List.singleton_append],
          .cons (Or.inr ⟨hname, d, hfind, rfl⟩) hloaded⟩
      | none => exact ⟨[], (List.append_nil _).symm, .stop hname hfind⟩

section Loaded
variable {p : KWTypePool Descriptor} {names : List Stroka} {types : List (Option Descriptor)}
  {ok : Bool}

omit [DecidableEq Descriptor] in
theorem Loaded.resolves (h : Loaded p names ok types) {i : ℕ} {type : Option Descriptor}
    (hi : types[i]? = some type) : ∃ name, names[i]? = some name ∧ p.Resolves name type := by
  induction h generalizing i with
  | nil => cases hi
  | stop => cases hi
  | cons h _ ih =>
    cases i with
    | zero =>
      cases hi
      exact ⟨_, rfl, h⟩
    | succ i => exact ih hi

omit [DecidableEq Descriptor] in
theorem Loaded.length_eq (h : Loaded p names true types) : types.length = names.length := by
  generalize hok : true = ok at h
  induction h with
  | nil => rfl
  | cons _ _ ih => rw [List.length_cons, List.length_cons, ih hok]
  | stop => cases hok

omit [DecidableEq Descriptor] in
theorem Loaded.fails (h : Loaded p names false types) :
    ∃ name ∈ names, name ≠ [] ∧ p.findMessageTypeByName name = none := by
  generalize hok : false = ok at h
  induction h with
  | nil => cases hok
  | cons _ _ ih =>
    obtain ⟨name, hmem, hname⟩ := ih hok
    exact ⟨name, List.mem_cons_of_mem _ hmem, hname⟩
  | stop hname hfind => exact ⟨_, List.mem_cons_self, hname, hfind⟩

end Loaded

omit [DecidableEq Descriptor] in
theorem Holds.findMessageTypeByName {types : List Descriptor} {p : KWTypePool Descriptor}
    (h : Holds fullName types p) (name : Stroka) :
    (∀ d, p.findMessageTypeByName name = some d →
        (fullName d, d) ∈ p.registeredTypes ∧ fullName d = name) ∧
      (p.findMessageTypeByName name = none ↔ ∀ d ∈ types, fullName d ≠ name) := by
  unfold KWTypePool.findMessageTypeByName
  constructor
  · intro d hd
    obtain ⟨e, he, rfl⟩ := Option.map_eq_some_iff.mp hd
    have hmem := List.mem_of_find?_eq_some he
    have hname := (h.name e hmem).1
    have hfound : e.1 = name := by simpa using List.find?_some he
    refine ⟨?_, hname.symm.trans hfound⟩
    rw [← hname]
    exact hmem
  · rw [Option.map_eq_none_iff, List.find?_eq_none]
    constructor
    · intro hnone d hd hname
      obtain ⟨e, he, hfst⟩ := (h.registered name).mpr ⟨d, hd, hname⟩
      exact hnone e he (beq_iff_eq.mpr hfst)
    · intro hall e he hfst
      obtain ⟨d, hd, hname⟩ := (h.registered name).mp ⟨e, he, beq_iff_eq.mp hfst⟩
      exact hall d hd hname

omit [DecidableEq Descriptor] in
theorem Holds.load {types : List Descriptor} {p : KWTypePool Descriptor}
    (h : Holds fullName types p) (names : List Stroka) : Holds fullName types (p.load names).2 := by
  refine ⟨h.name, h.registered, h.saveIndex, fun t ht d hd => ?_⟩
  obtain ⟨loaded, heq, hloaded⟩ := loadNames_spec p names []
  have hmem : t ∈ loaded := by
    have : t ∈ (p.loadNames names []).2 := ht
    rwa [heq, List.nil_append] at this
  obtain ⟨i, hi⟩ := List.mem_iff_getElem?.mp hmem
  obtain ⟨name, _, hor⟩ := hloaded.resolves hi
  rcases hor with ⟨_, rfl⟩ | ⟨_, d', hfind, rfl⟩
  · cases hd
  · cases hd
    exact ((h.findMessageTypeByName name).1 d hfind).1

theorem holds_run (steps : List (Step Descriptor)) :
    Holds fullName (lastPool steps) (run fullName steps) := by
  have hfold : ∀ (steps : List (Step Descriptor)) (types : List Descriptor)
      (p : KWTypePool Descriptor), Holds fullName types p →
      Holds fullName (steps.foldl (fun pool s => match s with
        | .registerPool pool' => pool'
        | .load _ => pool) types) (steps.foldl (step fullName) p) := by
    intro steps
    induction steps with
    | nil => exact fun _ _ h => h
    | cons s steps ih =>
      intro types p h
      cases s with
      | registerPool pool => exact ih _ _ (holds_registerPool pool)
      | load names => exact ih _ _ (h.load names)
  exact hfold steps [] {} holds_new

theorem foldl_set_zipIdx {α β : Type} (f : α → β) (x : β) (l : List α) : ∀ names : List β,
    (l.zipIdx names.length).foldl (fun names e => names.set e.2 (f e.1))
      (names ++ List.replicate l.length x) = names ++ l.map f := by
  induction l with
  | nil => simp
  | cons a l ih =>
    intro names
    have hset : (names ++ List.replicate (l.length + 1) x).set names.length (f a) =
        (names ++ [f a]) ++ List.replicate l.length x := by
      rw [List.set_append_right _ _ (le_refl _), Nat.sub_self, List.replicate_succ,
        List.set_cons_zero, List.append_assoc, List.singleton_append]
    rw [List.zipIdx_cons, List.foldl_cons, List.length_cons, hset]
    have hlength : names.length + 1 = (names ++ [f a]).length := by simp
    rw [hlength, ih, List.map_cons, List.append_assoc, List.singleton_append]

omit [DecidableEq Descriptor] in
theorem Holds.save {types : List Descriptor} {p : KWTypePool Descriptor}
    (h : Holds fullName types p) : p.save fullName =
      (none :: p.registeredTypes.map fun e => some e.2).map (savedName fullName) := by
  have hfold := foldl_set_zipIdx (savedName fullName) []
    (none :: p.registeredTypes.map fun e => some e.2) []
  rw [KWTypePool.save, h.saveIndex, List.length_zipIdx]
  exact hfold

theorem Holds.saveKWType {types : List Descriptor} {p : KWTypePool Descriptor}
    (h : Holds fullName types p) {type : Option Descriptor} {i : ℕ}
    (hi : p.saveKWType type = some i) : (p.save fullName)[i]? = some (savedName fullName type) := by
  obtain ⟨e, he, rfl⟩ := Option.map_eq_some_iff.mp hi
  have htype : e.1 = type := by simpa using List.find?_some he
  have hmem := List.mem_of_find?_eq_some he
  rw [h.saveIndex] at hmem
  rw [h.save, List.getElem?_map, List.mem_zipIdx_iff_getElem?.mp hmem, htype]
  rfl

/-- A file: the names of the pool, then the indexes of the types that are saved. -/
def saveFile (p : KWTypePool Descriptor) (fullName : Descriptor → Stroka)
    (types : List (Option Descriptor)) : Option (List Stroka × List ℕ) :=
  (types.mapM p.saveKWType).map fun indexes => (p.save fullName, indexes)

/-- What is loaded of a file, and the pool after it. -/
def loadFile (p : KWTypePool Descriptor) (file : List Stroka × List ℕ) :
    Option (List (Option Descriptor)) × KWTypePool Descriptor :=
  let r := p.load file.1
  (if r.1 then file.2.mapM r.2.loadKWType else none, r.2)

omit [DecidableEq Descriptor] in
theorem savedName_of_resolves {types : List Descriptor} {p : KWTypePool Descriptor}
    (h : Holds fullName types p) {name : Stroka} {type : Option Descriptor}
    (hresolves : p.Resolves name type) :
    savedName fullName type = name ∧ ∀ e ∈ type, e ∈ types := by
  rcases hresolves with ⟨rfl, rfl⟩ | ⟨_, d, hfind, rfl⟩
  · exact ⟨rfl, fun e he => by cases he⟩
  · obtain ⟨hmem, hname⟩ := (h.findMessageTypeByName name).1 d hfind
    refine ⟨hname, fun e he => ?_⟩
    cases he
    exact (h.name _ hmem).2

/-- What the indexes are loaded as, once all names are. -/
theorem mapM_loadKWType {typesA typesB : List Descriptor} {a b : KWTypePool Descriptor}
    (ha : Holds fullName typesA a) (hb : Holds fullName typesB b)
    (hload : (b.load (a.save fullName)).1 = true) (types : List (Option Descriptor)) :
    ∀ indexes, types.mapM a.saveKWType = some indexes →
      ∃ loaded, indexes.mapM (b.load (a.save fullName)).2.loadKWType = some loaded ∧
        loaded.map (savedName fullName) = types.map (savedName fullName) ∧
        ∀ t ∈ loaded, ∀ e ∈ t, e ∈ typesB := by
  induction types with
  | nil =>
    intro indexes h
    cases h
    exact ⟨[], rfl, rfl, fun t ht => absurd ht List.not_mem_nil⟩
  | cons type types ih =>
    intro indexes h
    simp only [List.mapM_cons, Option.bind_eq_bind, Option.bind_eq_some_iff] at h
    obtain ⟨i, hi, rest, hrest, h⟩ := h
    cases h
    obtain ⟨loaded, hloaded, hnames, hmem⟩ := ih rest hrest
    have hname := ha.saveKWType hi
    obtain ⟨table, htable, htypes⟩ := loadNames_spec b (a.save fullName) []
    rw [List.nil_append] at htable
    rw [show (b.loadNames (a.save fullName) []).1 = true from hload] at htypes
    have hlt : i < table.length := by
      rw [htypes.length_eq]
      exact (List.getElem?_eq_some_iff.mp hname).1
    obtain ⟨name, hname', hor⟩ := htypes.resolves (List.getElem?_eq_getElem hlt)
    rw [hname] at hname'
    cases hname'
    obtain ⟨hsaved, hfrom⟩ := savedName_of_resolves hb hor
    have hget : (b.load (a.save fullName)).2.loadKWType i = some table[i] := by
      rw [loadKWType, KWTypePool.load]
      dsimp only
      rw [htable]
      exact List.getElem?_eq_getElem hlt
    refine ⟨table[i] :: loaded, ?_, ?_, ?_⟩
    · simp only [List.mapM_cons, hget, hloaded, Option.bind_eq_bind, Option.bind_some]
      rfl
    · rw [List.map_cons, List.map_cons, hsaved, hnames]
    · intro t ht e he
      rcases List.mem_cons.mp ht with rfl | ht
      · exact hfrom e he
      · exact hmem t ht e he

omit [DecidableEq Descriptor] in
/-- Loading the names of a pool fails for a name that is not registered. -/
theorem load_fails_iff {typesA typesB : List Descriptor} {a b : KWTypePool Descriptor}
    (hname : ∀ d, fullName d ≠ []) (ha : Holds fullName typesA a) (hb : Holds fullName typesB b) :
    (b.load (a.save fullName)).1 = false ↔
      ∃ d ∈ typesA, ∀ e ∈ typesB, fullName e ≠ fullName d := by
  obtain ⟨table, -, htypes⟩ := loadNames_spec b (a.save fullName) []
  change Loaded b _ (b.load (a.save fullName)).1 table at htypes
  constructor
  · intro h
    rw [h] at htypes
    obtain ⟨name, hmem, hne, hnone⟩ := htypes.fails
    rw [ha.save] at hmem
    obtain ⟨type, htype, rfl⟩ := List.mem_map.mp hmem
    rcases List.mem_cons.mp htype with rfl | htype
    · exact absurd rfl hne
    · obtain ⟨e, he, rfl⟩ := List.mem_map.mp htype
      obtain ⟨d, hd, hsame⟩ := (ha.registered e.1).mp ⟨e, he, rfl⟩
      refine ⟨d, hd, ?_⟩
      rw [hsame, (ha.name e he).1]
      exact (hb.findMessageTypeByName _).2.mp hnone
  · rintro ⟨d, hd, hall⟩
    by_contra hok
    rw [Bool.not_eq_false] at hok
    rw [hok] at htypes
    obtain ⟨e, he, hfst⟩ := (ha.registered (fullName d)).mpr ⟨d, hd, rfl⟩
    have hmem : savedName fullName (some e.2) ∈ a.save fullName := by
      rw [ha.save]
      exact List.mem_map_of_mem (List.mem_cons_of_mem _ (List.mem_map_of_mem he))
    have hsaved : savedName fullName (some e.2) = fullName d := by
      rw [← hfst, (ha.name e he).1]
      rfl
    obtain ⟨i, hi⟩ := List.mem_iff_getElem?.mp hmem
    have hlt : i < table.length := by
      rw [htypes.length_eq]
      exact (List.getElem?_eq_some_iff.mp hi).1
    obtain ⟨name, hi', hor⟩ := htypes.resolves (List.getElem?_eq_getElem hlt)
    rw [hi, hsaved] at hi'
    cases hi'
    rcases hor with ⟨hnil, _⟩ | ⟨_, d', hfind, _⟩
    · exact hname d hnil
    · have hnone := (hb.findMessageTypeByName (fullName d)).2.mpr hall
      rw [hfind] at hnone
      cases hnone

/-- A file that one process saves is loaded by another one, whatever either has registered and
loaded before, exactly if that one has a type for every name of the first one's pool. Each type
then comes back as the registered one with its name, and as itself if names tell types apart. -/
theorem loadFile_saveFile (hname : ∀ d, fullName d ≠ []) (stepsA stepsB : List (Step Descriptor))
    (types : List (Option Descriptor)) (file : List Stroka × List ℕ)
    (hsave : (run fullName stepsA).saveFile fullName types = some file) :
    let r := (run fullName stepsB).loadFile file
    (r.1 = none ↔ ∃ d ∈ lastPool stepsA, ∀ e ∈ lastPool stepsB, fullName e ≠ fullName d) ∧
      ∀ loaded, r.1 = some loaded →
        loaded.map (savedName fullName) = types.map (savedName fullName) ∧
        (∀ t ∈ loaded, ∀ e ∈ t, e ∈ lastPool stepsB) ∧
        (Function.Injective fullName → loaded = types) := by
  have ha := @holds_run _ _ fullName stepsA
  have hb := @holds_run _ _ fullName stepsB
  generalize run fullName stepsA = a at ha hsave
  generalize run fullName stepsB = b at hb
  obtain ⟨indexes, hindexes, rfl⟩ := Option.map_eq_some_iff.mp hsave
  intro r
  have hfails := load_fails_iff hname ha hb
  have hr : r.1 = if (b.load (a.save fullName)).1 then
      indexes.mapM (b.load (a.save fullName)).2.loadKWType else none := rfl
  cases hload : (b.load (a.save fullName)).1 with
  | false =>
    rw [hload, if_neg Bool.false_ne_true] at hr
    refine ⟨⟨fun _ => hfails.mp hload, fun _ => hr⟩, fun loaded h => ?_⟩
    rw [hr] at h
    cases h
  | true =>
    obtain ⟨loaded, hloaded, hnames, hmem⟩ := mapM_loadKWType ha hb hload types indexes hindexes
    rw [hload, if_pos rfl, hloaded] at hr
    refine ⟨⟨fun h => ?_, fun h => ?_⟩, fun loaded' h => ?_⟩
    · rw [hr] at h
      cases h
    · have := hfails.mpr h
      rw [hload] at this
      cases this
    · rw [hr] at h
      cases h
      refine ⟨hnames, hmem, fun hinj => ?_⟩
      refine List.map_injective_iff.mpr ?_ hnames
      -- no type is saved as the null one
      rintro (_ | d) (_ | e) hsame
      · rfl
      · exact absurd hsame.symm (hname e)
      · exact absurd hsame (hname d)
      · exact congrArg some (hinj hsame)

/-- Two processes that register their types in different orders. -/
theorem loadFile_saveFile_twoProcesses :
    let fullName : Bool → Stroka := fun d => if d then [102] else [103]
    let a := run fullName [.registerPool [true, false]]
    let b := run fullName [.load [[104]], .registerPool [false, true], .load [[103], []]]
    a.saveFile fullName [some false, none, some true] = some ([[], [102], [103]], [2, 0, 1]) ∧
      (b.loadFile ([[], [102], [103]], [2, 0, 1])).1 = some [some false, none, some true] := by
  intro fullName a b
  have hsave : a.saveFile fullName [some false, none, some true] =
      some ([[], [102], [103]], [2, 0, 1]) := by decide
  have hname : ∀ d, fullName d ≠ [] := by decide
  have hinj : Function.Injective fullName := by decide
  obtain ⟨hnone, hsome⟩ := @loadFile_saveFile _ _ fullName hname [.registerPool [true, false]]
    [.load [[104]], .registerPool [false, true], .load [[103], []]] _ _ hsave
  refine ⟨hsave, ?_⟩
  cases hr : (b.loadFile ([[], [102], [103]], [2, 0, 1])).1 with
  | none =>
    obtain ⟨d, hd, hall⟩ := hnone.mp hr
    exact absurd rfl (hall d (by revert d; decide))
  | some loaded => rw [(hsome loaded hr).2.2 hinj]

end KWTypePool
end TomitaParser.Items
