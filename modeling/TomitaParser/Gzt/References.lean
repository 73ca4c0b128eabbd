import Mathlib.Data.Finset.Card
import Mathlib.Data.List.Nodup
import Mathlib.Data.List.Perm.Basic
import Mathlib.Data.List.Dedup
import Mathlib.Logic.Relation
/-! # References between gazetteer files

The builder of an article pool reads its files statement by statement. An import is read on the
spot, and every file that ends tries to resolve all references that are pending. -/

namespace TomitaParser.Gzt

/-- A statement of a gazetteer file: an import, or an article with the names it refers to. An
article without a name has the empty one. -/
inductive Statement where
  | importFile (file : String)
  | article (name : String) (references : List String)
deriving DecidableEq, Repr

abbrev Files := List (String × List Statement)

/-- The errors of a build. -/
inductive BuildError where
  | fileNotFound (file : String)
  | cannotLoadDependency (file : String)
  | duplicateArticle (name : String)
  | unresolvedReferences (names : List String)
deriving DecidableEq, Repr

/-- The builder: the files it has opened, the names of the articles it has stored, the names it has
met in references but not yet found, and its errors. -/
structure PoolBuilder where
  importedFiles : List String := []
  articles : List String := []
  unresolvedRefs : List String := []
  hadErrors : Bool := false
  errors : List BuildError := []
deriving DecidableEq, Repr

namespace PoolBuilder

def addError (s : PoolBuilder) (error : BuildError) : PoolBuilder :=
  { s with hadErrors := true, errors := s.errors ++ [error] }

/-- `ResolveReference`. -/
def resolveReference (s : PoolBuilder) (name : String) : PoolBuilder :=
  if name ∈ s.articles then s else { s with unresolvedRefs := s.unresolvedRefs ++ [name] }

/-- `StoreArticle`: only an article with a name can be found later. -/
def storeArticle (s : PoolBuilder) (name : String) : PoolBuilder :=
  if name = "" then s else { s with articles := s.articles ++ [name] }

/-- `BuildArticle`. -/
def buildArticle (s : PoolBuilder) (name : String) (references : List String) :
    Bool × PoolBuilder :=
  if name ∈ s.articles then (false, s.addError (.duplicateArticle name))
  else (true, (references.foldl resolveReference s).storeArticle name)

/-- `TUnresolvedRefs::Resolve`. -/
def resolve (s : PoolBuilder) : Bool × PoolBuilder :=
  let failed := s.unresolvedRefs.filter fun name => decide (name ∉ s.articles)
  if failed = [] then (true, { s with unresolvedRefs := [] })
  else (false, s.addError (.unresolvedReferences failed))

/-- The loop of `BuildFromStream` over the statements of a file, with `load` for an import. -/
def buildStatements (load : PoolBuilder → String → Bool × PoolBuilder) (s : PoolBuilder) :
    List Statement → Bool × PoolBuilder
  | [] => (true, s)
  | .importFile file :: rest =>
    match load s file with
    | (true, s) => buildStatements load s rest
    | (false, s) => (false, s.addError (.cannotLoadDependency file))
  | .article name references :: rest =>
    match s.buildArticle name references with
    | (true, s) => buildStatements load s rest
    | (false, s) => (false, s)

/-- `BuildFromStream`. -/
def buildFromStream (load : PoolBuilder → String → Bool × PoolBuilder) (s : PoolBuilder)
    (statements : List Statement) : Bool × PoolBuilder :=
  match buildStatements load { s with hadErrors := false } statements with
  | (true, s) => if s.hadErrors then (false, s) else s.resolve
  | (false, s) => (false, s)

/-- `FromVirtualFile`, with a bound on how deep imports nest. -/
def fromVirtualFile (files : Files) : ℕ → PoolBuilder → String → Bool × PoolBuilder
  | 0, s, _ => (false, s)
  | depth + 1, s, file =>
    if file ∈ s.importedFiles then (true, s)
    else
      let s := { s with importedFiles := file :: s.importedFiles }
      match files.lookup file with
      | none => (false, s.addError (.fileNotFound file))
      | some statements => buildFromStream (fromVirtualFile files depth) s statements

/-- The build of a file. A file is opened once, so imports nest no deeper than there are files. -/
def build (files : Files) (root : String) : Bool × PoolBuilder :=
  fromVirtualFile files (files.length + 1) {} root

end PoolBuilder

/-- What the builder meets on its way. -/
inductive Event where
  | reference (name : String)
  | define (name : String)
  | fileEnd
deriving DecidableEq, Repr

/-- The events of an article: its references are met before it has a place in the pool. -/
def articleEvents (name : String) (references : List String) : List Event :=
  references.map .reference ++ if name = "" then [] else [.define name]

/-- The statements of a file in the order they are read, with `load` for the events of an import.
The files that are open or done come along. -/
def statementEvents (load : List String → String → List Event × List String)
    (opened : List String) : List Statement → List Event × List String
  | [] => ([], opened)
  | .importFile file :: rest =>
    let events := load opened file
    let after := statementEvents load events.2 rest
    (events.1 ++ after.1, after.2)
  | .article name references :: rest =>
    let after := statementEvents load opened rest
    (articleEvents name references ++ after.1, after.2)

/-- The events of a file that is imported when some files are open or done. -/
def fileEvents (files : Files) : ℕ → List String → String → List Event × List String
  | 0, opened, _ => ([], opened)
  | depth + 1, opened, file =>
    if file ∈ opened then ([], opened)
    else
      match files.lookup file with
      | none => ([], file :: opened)
      | some statements =>
        let events := statementEvents (fileEvents files depth) (file :: opened) statements
        (events.1 ++ [.fileEnd], events.2)

/-- All files in the order they are read. -/
def readingOrder (files : Files) (root : String) : List Event :=
  (fileEvents files (files.length + 1) [] root).1

/-- At every end of a file, each name that was met in a reference has been defined. -/
def Settled (events : List Event) : Prop :=
  ∀ before after, events = before ++ .fileEnd :: after →
    ∀ name, .reference name ∈ before → .define name ∈ before

/-- The name that an event defines. -/
def Event.defined : Event → Option String
  | .define name => some name
  | _ => none

/-- The names that are defined, in order. -/
def definedNames (events : List Event) : List String := events.filterMap Event.defined

@[simp] theorem definedNames_append (a b : List Event) :
    definedNames (a ++ b) = definedNames a ++ definedNames b := List.filterMap_append

@[simp] theorem mem_definedNames {events : List Event} {name : String} :
    name ∈ definedNames events ↔ .define name ∈ events := by
  simp only [definedNames, List.mem_filterMap]
  constructor
  · rintro ⟨event, hmem, hevent⟩
    cases event <;> simp_all [Event.defined]
  · intro hmem
    exact ⟨_, hmem, rfl⟩

/-- The defined names and the pending ones after an event; nothing if a file ends with a name still
missing. -/
def stepEvent (known : List String × List String) : Event → Option (List String × List String)
  | .reference name =>
    some (known.1, if name ∈ known.1 then known.2 else known.2 ++ [name])
  | .define name => some (known.1 ++ [name], known.2)
  | .fileEnd => if ∀ name ∈ known.2, name ∈ known.1 then some (known.1, []) else none

def runEvents (known : List String × List String) (events : List Event) :
    Option (List String × List String) :=
  events.foldlM stepEvent known

theorem runEvents_append (known : List String × List String) (a b : List Event) :
    runEvents known (a ++ b) = (runEvents known a).bind fun known => runEvents known b :=
  List.foldlM_append

theorem runEvents_defined {known after : List String × List String} {events : List Event}
    (h : runEvents known events = some after) : after.1 = known.1 ++ definedNames events := by
  induction events generalizing known with
  | nil =>
    simp only [runEvents, List.foldlM_nil, Option.pure_def, Option.some.injEq] at h
    simp [← h, definedNames]
  | cons event events ih =>
    simp only [runEvents, List.foldlM_cons, Option.bind_eq_bind, Option.bind_eq_some_iff] at h
    obtain ⟨next, hstep, hrun⟩ := h
    rw [ih hrun]
    cases event with
    | reference name =>
      simp only [stepEvent, Option.some.injEq] at hstep
      simp [← hstep, definedNames, List.filterMap_cons, Event.defined]
    | define name =>
      simp only [stepEvent, Option.some.injEq] at hstep
      simp [← hstep, definedNames, Event.defined]
    | fileEnd =>
      simp only [stepEvent, Option.ite_none_right_eq_some, Option.some.injEq] at hstep
      simp [← hstep.2, definedNames, List.filterMap_cons, Event.defined]

/-- The run reaches its end if every file that ends has all its names. -/
theorem runEvents_isSome_iff (known : List String × List String) (events : List Event) :
    (runEvents known events).isSome = true ↔
      ∀ before after, events = before ++ .fileEnd :: after →
        ∀ name, name ∈ known.2 ∨ .reference name ∈ before →
          name ∈ known.1 ∨ .define name ∈ before := by
  induction events generalizing known with
  | nil => simp [runEvents]
  | cons event events ih =>
    have hrun : runEvents known (event :: events) =
        (stepEvent known event).bind fun known => runEvents known events := by
      simp [runEvents]
    rw [hrun]
    have hsplit : ∀ P : List Event → Prop,
        (∀ before after, event :: events = before ++ .fileEnd :: after → P before) ↔
          (event = .fileEnd → P []) ∧
            ∀ before after, events = before ++ .fileEnd :: after → P (event :: before) := by
      intro P
      constructor
      · intro h
        constructor
        · rintro rfl
          exact h [] events rfl
        · rintro before after rfl
          exact h (event :: before) after rfl
      · rintro ⟨hnil, hcons⟩ before after heq
        cases before with
        | nil =>
          simp only [List.nil_append, List.cons.injEq] at heq
          exact hnil heq.1
        | cons b before =>
          simp only [List.cons_append, List.cons.injEq] at heq
          obtain ⟨rfl, heq⟩ := heq
          exact hcons before after heq
    rw [hsplit fun before => ∀ name, name ∈ known.2 ∨ .reference name ∈ before →
      name ∈ known.1 ∨ .define name ∈ before]
    cases event with
    | reference name =>
      simp only [stepEvent, Option.bind_some]
      rw [ih]
      simp only [reduceCtorEq, false_imp_iff, true_and, List.mem_cons, Event.reference.injEq,
        false_or]
      apply forall_congr'
      intro before
      apply forall_congr'
      intro after
      apply imp_congr_right
      intro _
      by_cases hname : name ∈ known.1
      · simp only [hname, if_true]
        constructor
        · intro h other hother
          rcases hother with hother | rfl | hother
          · exact h other (.inl hother)
          · exact .inl hname
          · exact h other (.inr hother)
        · intro h other hother
          exact h other (hother.imp_right .inr)
      · simp only [hname, if_false, List.mem_append, List.mem_singleton]
        constructor
        · intro h other hother
          apply h other
          tauto
        · intro h other hother
          apply h other
          tauto
    | define name =>
      simp only [stepEvent, Option.bind_some]
      rw [ih]
      simp only [reduceCtorEq, false_imp_iff, true_and, List.mem_cons, Event.define.injEq,
        false_or, List.mem_append, List.not_mem_nil, or_false]
      constructor
      · intro h before after heq other hother
        have := h before after heq other hother
        tauto
      · intro h before after heq other hother
        have := h before after heq other hother
        tauto
    | fileEnd =>
      simp only [stepEvent, forall_const, List.not_mem_nil, or_false]
      by_cases hknown : ∀ name ∈ known.2, name ∈ known.1
      · rw [if_pos hknown]
        simp only [Option.bind_some]
        rw [ih]
        simp only [List.not_mem_nil, false_or, List.mem_cons, reduceCtorEq]
        constructor
        · intro h
          refine ⟨hknown, ?_⟩
          intro before after heq other hother
          rcases hother with hother | hother
          · exact .inl (hknown other hother)
          · exact h before after heq other hother
        · intro h before after heq other hother
          exact h.2 before after heq other (.inr hother)
      · rw [if_neg hknown]
        simp only [Option.bind_none, Option.isSome_none, Bool.false_eq_true, false_iff]
        exact fun h => hknown h.1

namespace PoolBuilder

/-- A builder that has met no error. -/
def clean (opened : List String) (known : List String × List String) : PoolBuilder :=
  { importedFiles := opened, articles := known.1, unresolvedRefs := known.2 }

/-- A result goes on without errors as the run of the events does, and stops with unresolved
references where the run stops. -/
def Follows (result : Bool × PoolBuilder) (opened : List String) :
    Option (List String × List String) → Prop
  | some known => result = (true, clean opened known)
  | none => result.1 = false ∧ ∃ names, .unresolvedReferences names ∈ result.2.errors

theorem foldl_resolveReference (opened : List String) (known : List String × List String)
    (references : List String) :
    ∃ pending, references.foldl resolveReference (clean opened known) =
        clean opened (known.1, pending) ∧
      runEvents known (references.map .reference) = some (known.1, pending) := by
  induction references generalizing known with
  | nil => exact ⟨known.2, rfl, rfl⟩
  | cons name references ih =>
    obtain ⟨pending, hfold, hrun⟩ := ih (known.1, if name ∈ known.1 then known.2
      else known.2 ++ [name])
    refine ⟨pending, ?_, ?_⟩
    · rw [List.foldl_cons, ← hfold]
      congr 1
      by_cases hname : name ∈ known.1 <;> simp [resolveReference, clean, hname]
    · rw [← hrun]
      simp [runEvents, stepEvent]

theorem buildArticle_follows (opened : List String) (known : List String × List String)
    (name : String) (references : List String) (hname : name ∉ known.1) :
    Follows ((clean opened known).buildArticle name references) opened
      (runEvents known (articleEvents name references)) := by
  obtain ⟨pending, hfold, hrun⟩ := foldl_resolveReference opened known references
  have hnew : name ∉ (clean opened known).articles := hname
  rw [articleEvents, runEvents_append, hrun, buildArticle, if_neg hnew, hfold]
  by_cases hempty : name = ""
  · simp [hempty, storeArticle, runEvents, Follows]
  · simp [hempty, storeArticle, runEvents, stepEvent, Follows, clean]

theorem resolve_of_known (s : PoolBuilder)
    (h : ∀ name ∈ s.unresolvedRefs, name ∈ s.articles) :
    s.resolve = (true, { s with unresolvedRefs := [] }) := by
  unfold resolve
  have hfailed : s.unresolvedRefs.filter (fun name => decide (name ∉ s.articles)) = [] := by
    simpa [List.filter_eq_nil_iff] using h
  simp only [hfailed, if_true]

theorem resolve_of_missing (s : PoolBuilder)
    (h : ¬∀ name ∈ s.unresolvedRefs, name ∈ s.articles) :
    s.resolve.1 = false ∧ ∃ names, .unresolvedReferences names ∈ s.resolve.2.errors := by
  unfold resolve
  have hfailed : s.unresolvedRefs.filter (fun name => decide (name ∉ s.articles)) ≠ [] := by
    simpa [List.filter_eq_nil_iff] using h
  simp only [hfailed, if_false]
  exact ⟨trivial, s.unresolvedRefs.filter fun name => decide (name ∉ s.articles),
    List.mem_append_right _ (List.mem_singleton.mpr rfl)⟩

theorem resolve_follows (opened : List String) (known : List String × List String) :
    Follows (clean opened known).resolve opened (runEvents known [.fileEnd]) := by
  have hrun : runEvents known [.fileEnd] = stepEvent known .fileEnd := by
    simp [runEvents]
  rw [hrun, stepEvent]
  by_cases hknown : ∀ name ∈ known.2, name ∈ known.1
  · rw [if_pos hknown]
    exact resolve_of_known (clean opened known) hknown
  · rw [if_neg hknown]
    exact resolve_of_missing (clean opened known) hknown

theorem named_articleEvents (name : String) (references : List String) :
    "" ∉ definedNames (articleEvents name references) := by
  by_cases hzero : name = ""
  · simp [articleEvents, hzero]
  · simp [articleEvents, hzero, Ne.symm hzero]

/-- What the statements of a file need of the loading of imports. -/
structure LoadFollows (names : List String)
    (load : PoolBuilder → String → Bool × PoolBuilder)
    (events : List String → String → List Event × List String) (limit : List String → Prop) :
    Prop where
  follows : ∀ opened known file, limit opened → file ∈ names →
    "" ∉ known.1 → (known.1 ++ definedNames (events opened file).1).Nodup →
    Follows (load (clean opened known) file) (events opened file).2
      (runEvents known (events opened file).1)
  grows : ∀ opened file, opened ⊆ (events opened file).2
  named : ∀ opened file, "" ∉ definedNames (events opened file).1
  limit_mono : ∀ opened opened', opened ⊆ opened' → limit opened → limit opened'

theorem buildStatements_follows {names : List String}
    {load : PoolBuilder → String → Bool × PoolBuilder}
    {events : List String → String → List Event × List String} {limit : List String → Prop}
    (hload : LoadFollows names load events limit) (statements : List Statement)
    (himports : ∀ file, .importFile file ∈ statements → file ∈ names)
    (opened : List String) (known : List String × List String) (hlimit : limit opened)
    (hempty : "" ∉ known.1)
    (hnodup : (known.1 ++ definedNames (statementEvents events opened statements).1).Nodup) :
    Follows (buildStatements load (clean opened known) statements)
      (statementEvents events opened statements).2
      (runEvents known (statementEvents events opened statements).1) := by
  induction statements generalizing opened known with
  | nil => exact rfl
  | cons statement rest ih =>
    cases statement with
    | importFile file =>
      simp only [statementEvents, definedNames_append, ← List.append_assoc] at hnodup ⊢
      have hfile := hload.follows opened known file hlimit
        (himports file List.mem_cons_self) hempty hnodup.of_append_left
      rw [buildStatements, runEvents_append]
      generalize hresult : load (clean opened known) file = result at hfile
      cases hrun : runEvents known (events opened file).1 with
      | none =>
        rw [hrun] at hfile
        obtain ⟨hfalse, missing, hmem⟩ := hfile
        obtain ⟨ok, s⟩ := result
        subst hfalse
        exact ⟨rfl, missing, List.mem_append_left _ hmem⟩
      | some after =>
        rw [hrun] at hfile
        have hafter := runEvents_defined hrun
        obtain rfl := hfile
        refine ih ?_ _ after ?_ ?_ ?_
        · exact fun file hmem => himports file (List.mem_cons_of_mem _ hmem)
        · exact hload.limit_mono _ _ (hload.grows opened file) hlimit
        · rw [hafter, List.mem_append]
          exact fun h => h.elim hempty (hload.named opened file)
        · rw [hafter]
          exact hnodup
    | article name references =>
      simp only [statementEvents, definedNames_append, ← List.append_assoc] at hnodup ⊢
      have hname : name ∉ known.1 := by
        by_cases hzero : name = ""
        · rwa [hzero]
        · intro hmem
          have hdefined : name ∈ definedNames (articleEvents name references) := by
            simp [articleEvents, hzero]
          have hdisjoint := List.disjoint_of_nodup_append hnodup.of_append_left
          exact hdisjoint hmem hdefined
      have harticle := buildArticle_follows opened known name references hname
      rw [buildStatements, runEvents_append]
      generalize hresult : (clean opened known).buildArticle name references = result at harticle
      cases hrun : runEvents known (articleEvents name references) with
      | none =>
        rw [hrun] at harticle
        obtain ⟨hfalse, missing, hmem⟩ := harticle
        obtain ⟨ok, s⟩ := result
        subst hfalse
        exact ⟨rfl, missing, hmem⟩
      | some after =>
        rw [hrun] at harticle
        have hafter := runEvents_defined hrun
        obtain rfl := harticle
        refine ih ?_ _ after hlimit ?_ ?_
        · exact fun file hmem => himports file (List.mem_cons_of_mem _ hmem)
        · rw [hafter, List.mem_append]
          exact fun h => h.elim hempty (named_articleEvents name references)
        · rw [hafter]
          exact hnodup

end PoolBuilder

/-- The events of a statement on its own. -/
def Statement.events : Statement → List Event
  | .importFile _ => []
  | .article name references => articleEvents name references

/-- The statements of a file. -/
def statementsOf (files : Files) (file : String) : List Statement := (files.lookup file).getD []

/-- The events of a file without its imports. -/
def ownEvents (files : Files) (file : String) : List Event :=
  (statementsOf files file).flatMap Statement.events

/-- The files that are still to be opened. -/
def unopened (files : Files) (opened : List String) : ℕ :=
  ((files.map (·.1)).toFinset \ opened.toFinset).card

theorem unopened_mono (files : Files) {a b : List String} (h : a ⊆ b) :
    unopened files b ≤ unopened files a := by
  apply Finset.card_le_card
  intro file hfile
  simp only [Finset.mem_sdiff, List.mem_toFinset] at hfile ⊢
  exact ⟨hfile.1, fun ha => hfile.2 (h ha)⟩

theorem unopened_cons_lt (files : Files) {file : String} {opened : List String}
    (hfile : file ∈ files.map (·.1)) (hnew : file ∉ opened) :
    unopened files (file :: opened) < unopened files opened := by
  apply Finset.card_lt_card
  rw [Finset.ssubset_iff_of_subset]
  · exact ⟨file, by simpa using ⟨by simpa using hfile, hnew⟩, by simp⟩
  · intro other hother
    simp only [Finset.mem_sdiff, List.mem_toFinset, List.mem_cons, not_or] at hother ⊢
    exact ⟨hother.1, hother.2.2⟩

/-- The files `fresh` have been opened by a part of the reading, with all that they import, and all
their events have been met. -/
structure Opens (files : Files) (opened : List String) (result : List Event × List String)
    (own : List Event) (imports : List String) (fresh : List String) : Prop where
  opens : result.2 = fresh ++ opened
  nodup : opened.Nodup → (fresh ++ opened).Nodup
  events : (result.1.filter (· ≠ .fileEnd)).Perm (own ++ fresh.flatMap (ownEvents files))
  closed : ∀ file ∈ fresh, ∀ other, .importFile other ∈ statementsOf files file →
    other ∈ fresh ++ opened
  imports : ∀ other ∈ imports, other ∈ fresh ++ opened
  known : ∀ file ∈ fresh, file ∈ files.map (·.1)

theorem filter_articleEvents (name : String) (references : List String) :
    (articleEvents name references).filter (· ≠ .fileEnd) = articleEvents name references := by
  rw [List.filter_eq_self]
  intro event hevent
  simp only [articleEvents, List.mem_append, List.mem_map] at hevent
  rcases hevent with ⟨other, -, rfl⟩ | hevent
  · rfl
  · by_cases hzero : name = "" <;> simp_all

/-- The files that the statements import. -/
def importsOf (statements : List Statement) : List String :=
  statements.filterMap fun statement => match statement with
    | .importFile file => some file
    | .article _ _ => none

theorem statementEvents_opens {files : Files}
    {load : List String → String → List Event × List String} {limit : List String → Prop}
    (hmono : ∀ a b : List String, a ⊆ b → limit a → limit b)
    (hload : ∀ opened file, limit opened → file ∈ files.map (·.1) →
      ∃ fresh, Opens files opened (load opened file) [] [file] fresh)
    (statements : List Statement) (himports : ∀ file ∈ importsOf statements, file ∈ files.map (·.1))
    (opened : List String) (hlimit : limit opened) :
    ∃ fresh, Opens files opened (statementEvents load opened statements)
      (statements.flatMap Statement.events) (importsOf statements) fresh := by
  induction statements generalizing opened with
  | nil => exact ⟨[], rfl, fun h => h, List.Perm.refl _, by simp, by simp [importsOf], by simp⟩
  | cons statement rest ih =>
    cases statement with
    | importFile file =>
      have hfile : file ∈ files.map (·.1) := himports file (by simp [importsOf])
      have hrest : ∀ other ∈ importsOf rest, other ∈ files.map (·.1) := by
        intro other hother
        apply himports
        simp only [importsOf, List.filterMap_cons] at hother ⊢
        exact List.mem_cons_of_mem _ hother
      obtain ⟨first, hfirst⟩ := hload opened file hlimit hfile
      have hsub : opened ⊆ (load opened file).2 := by
        rw [hfirst.opens]
        exact List.subset_append_right _ _
      obtain ⟨second, hsecond⟩ := ih hrest _ (hmono _ _ hsub hlimit)
      have hopened := hfirst.opens
      refine ⟨second ++ first, ?_, ?_, ?_, ?_, ?_, ?_⟩
      · rw [statementEvents, hsecond.opens, hopened, List.append_assoc]
      · intro h
        have := hsecond.nodup (by rw [hopened]; exact hfirst.nodup h)
        rwa [hopened, ← List.append_assoc] at this
      · simp only [statementEvents, List.filter_append, List.flatMap_cons, Statement.events,
          List.nil_append, List.flatMap_append]
        have h1 := hfirst.events
        have h2 := hsecond.events
        rw [List.nil_append] at h1
        refine (h1.append h2).trans ?_
        refine List.perm_append_comm.trans ?_
        rw [List.append_assoc]
      · intro g hg other hother
        have hall : second ++ first ++ opened = second ++ (load opened file).2 := by
          rw [hopened, List.append_assoc]
        rw [hall]
        rcases List.mem_append.mp hg with hg | hg
        · exact hsecond.closed g hg other hother
        · apply List.mem_append_right
          rw [hopened]
          exact hfirst.closed g hg other hother
      · intro other hother
        have hall : second ++ first ++ opened = second ++ (load opened file).2 := by
          rw [hopened, List.append_assoc]
        rw [hall]
        simp only [importsOf, List.filterMap_cons, List.mem_cons] at hother
        rcases hother with rfl | hother
        · apply List.mem_append_right
          rw [hopened]
          exact hfirst.imports other (by simp)
        · exact hsecond.imports other hother
      · intro other hother
        rcases List.mem_append.mp hother with hother | hother
        · exact hsecond.known other hother
        · exact hfirst.known other hother
    | article name references =>
      obtain ⟨fresh, hfresh⟩ := ih (fun other hother => himports other hother) opened hlimit
      refine ⟨fresh, hfresh.opens, hfresh.nodup, ?_, hfresh.closed, hfresh.imports, hfresh.known⟩
      simp only [statementEvents, List.filter_append, filter_articleEvents, List.flatMap_cons,
        Statement.events, List.append_assoc]
      exact hfresh.events.append_left _

theorem fileEvents_opens {files : Files}
    (himports : ∀ file ∈ files.map (·.1), ∀ other ∈ importsOf (statementsOf files file),
      other ∈ files.map (·.1))
    (depth : ℕ) (opened : List String) (file : String) (hlimit : unopened files opened < depth)
    (hfile : file ∈ files.map (·.1)) :
    ∃ fresh, Opens files opened (fileEvents files depth opened file) [] [file] fresh := by
  induction depth generalizing opened file with
  | zero => omega
  | succ depth ih =>
    rw [fileEvents]
    by_cases hopen : file ∈ opened
    · rw [if_pos hopen]
      exact ⟨[], rfl, fun h => h, List.Perm.refl _, by simp, by simpa using hopen, by simp⟩
    · rw [if_neg hopen]
      obtain ⟨statements, hlookup⟩ : ∃ statements, files.lookup file = some statements := by
        obtain ⟨entry, hentry, rfl⟩ := List.mem_map.mp hfile
        have := List.lookup_isSome_iff.mpr ⟨entry, hentry, beq_self_eq_true _⟩
        exact Option.isSome_iff_exists.mp this
      have hstatements : statementsOf files file = statements := by
        simp [statementsOf, hlookup]
      have hlt := unopened_cons_lt files hfile hopen
      obtain ⟨fresh, hfresh⟩ := @statementEvents_opens files (fileEvents files depth)
        (fun opened => unopened files opened < depth)
        (fun a b hab h => lt_of_le_of_lt (unopened_mono files hab) h)
        (fun opened file h hfile => ih opened file h hfile) statements
        (by rw [← hstatements]; exact himports file hfile) (file :: opened) (by omega)
      rw [hlookup]
      have hown : ownEvents files file = statements.flatMap Statement.events := by
        rw [ownEvents, hstatements]
      have hsplit : fresh ++ [file] ++ opened = fresh ++ file :: opened := by simp
      refine ⟨fresh ++ [file], ?_, ?_, ?_, ?_, ?_, ?_⟩
      · simp only [hfresh.opens, hsplit]
      · intro h
        rw [hsplit]
        exact hfresh.nodup (List.nodup_cons.mpr ⟨hopen, h⟩)
      · simp only [List.filter_append, List.flatMap_append, List.flatMap_singleton, hown,
          List.nil_append]
        have hend : [Event.fileEnd].filter (· ≠ .fileEnd) = [] := by simp
        rw [hend, List.append_nil]
        exact hfresh.events.trans List.perm_append_comm
      · intro g hg other hother
        rw [hsplit]
        rcases List.mem_append.mp hg with hg | hg
        · exact hfresh.closed g hg other hother
        · obtain rfl := List.mem_singleton.mp hg
          rw [hstatements] at hother
          apply hfresh.imports
          simp only [importsOf, List.mem_filterMap]
          exact ⟨_, hother, rfl⟩
      · intro other hother
        obtain rfl := List.mem_singleton.mp hother
        simp
      · intro other hother
        rcases List.mem_append.mp hother with hother | hother
        · exact hfresh.known other hother
        · rwa [List.mem_singleton.mp hother]

namespace PoolBuilder

theorem statementEvents_named {load : List String → String → List Event × List String}
    (hload : ∀ opened file, "" ∉ definedNames (load opened file).1) (statements : List Statement)
    (opened : List String) : "" ∉ definedNames (statementEvents load opened statements).1 := by
  induction statements generalizing opened with
  | nil => simp [statementEvents, definedNames]
  | cons statement rest ih =>
    cases statement with
    | importFile file =>
      rw [statementEvents, definedNames_append, List.mem_append]
      exact fun h => h.elim (hload opened file) (ih _)
    | article name references =>
      rw [statementEvents, definedNames_append, List.mem_append]
      exact fun h => h.elim (named_articleEvents name references) (ih _)

theorem fileEvents_named (files : Files) (depth : ℕ) (opened : List String) (file : String) :
    "" ∉ definedNames (fileEvents files depth opened file).1 := by
  induction depth generalizing opened file with
  | zero => simp [fileEvents, definedNames]
  | succ depth ih =>
    rw [fileEvents]
    split
    · simp [definedNames]
    · split
      · simp [definedNames]
      · rw [definedNames_append, List.mem_append]
        rintro (h | h)
        · exact statementEvents_named ih _ _ h
        · simp [definedNames, Event.defined] at h

theorem statementEvents_grows {load : List String → String → List Event × List String}
    (hload : ∀ opened file, opened ⊆ (load opened file).2) (statements : List Statement)
    (opened : List String) : opened ⊆ (statementEvents load opened statements).2 := by
  induction statements generalizing opened with
  | nil => exact List.Subset.refl _
  | cons statement rest ih =>
    cases statement with
    | importFile file => exact List.Subset.trans (hload opened file) (ih _)
    | article name references => exact ih opened

theorem fileEvents_grows (files : Files) (depth : ℕ) (opened : List String) (file : String) :
    opened ⊆ (fileEvents files depth opened file).2 := by
  induction depth generalizing opened file with
  | zero => exact List.Subset.refl _
  | succ depth ih =>
    rw [fileEvents]
    split
    · exact List.Subset.refl _
    · split
      · exact List.subset_cons_self file opened
      · exact List.Subset.trans (List.subset_cons_self file opened) (statementEvents_grows ih _ _)

/-- The builder of a file goes the way of the file's events. -/
theorem fromVirtualFile_follows {files : Files}
    (himports : ∀ file ∈ files.map (·.1), ∀ other ∈ importsOf (statementsOf files file),
      other ∈ files.map (·.1))
    (depth : ℕ) :
    LoadFollows (files.map (·.1)) (fromVirtualFile files depth) (fileEvents files depth)
      (fun opened => unopened files opened < depth) := by
  induction depth with
  | zero =>
    refine ⟨?_, fileEvents_grows files 0, fileEvents_named files 0, ?_⟩
    · intro opened known file hlimit
      omega
    · intro a b hab h
      omega
  | succ depth ih =>
    refine ⟨?_, fileEvents_grows files _, fileEvents_named files _, ?_⟩
    · intro opened known file hlimit hfile hempty hnodup
      have hsame : (clean opened known).importedFiles = opened := rfl
      rw [fromVirtualFile, hsame]
      rw [fileEvents] at hnodup ⊢
      by_cases hopen : file ∈ opened
      · rw [if_pos hopen, if_pos hopen]
        exact rfl
      · rw [if_neg hopen] at hnodup
        rw [if_neg hopen, if_neg hopen]
        obtain ⟨statements, hlookup⟩ : ∃ statements, files.lookup file = some statements := by
          obtain ⟨entry, hentry, rfl⟩ := List.mem_map.mp hfile
          have := List.lookup_isSome_iff.mpr ⟨entry, hentry, beq_self_eq_true _⟩
          exact Option.isSome_iff_exists.mp this
        have hlt := unopened_cons_lt files hfile hopen
        have hstatements : statementsOf files file = statements := by
          simp [statementsOf, hlookup]
        simp only [hlookup] at hnodup ⊢
        rw [definedNames_append, ← List.append_assoc] at hnodup
        have hloop := buildStatements_follows ih statements
          (by
            intro other hother
            apply himports file hfile
            rw [hstatements]
            simp only [importsOf, List.mem_filterMap]
            exact ⟨_, hother, rfl⟩)
          (file :: opened) known (by omega) hempty hnodup.of_append_left
        have hclean : { clean opened known with importedFiles := file :: opened } =
            clean (file :: opened) known := rfl
        have hreset : { clean (file :: opened) known with hadErrors := false } =
            clean (file :: opened) known := rfl
        rw [hclean, buildFromStream, hreset, runEvents_append]
        generalize buildStatements (fromVirtualFile files depth) (clean (file :: opened) known)
          statements = result at hloop
        cases hrun : runEvents known
            (statementEvents (fileEvents files depth) (file :: opened) statements).1 with
        | none =>
          rw [hrun] at hloop
          obtain ⟨hfalse, hmissing⟩ := hloop
          obtain ⟨ok, s⟩ := result
          subst hfalse
          exact ⟨rfl, hmissing⟩
        | some after =>
          rw [hrun] at hloop
          obtain rfl := hloop
          exact resolve_follows _ after
    · intro a b hab h
      exact lt_of_le_of_lt (unopened_mono files hab) h

end PoolBuilder

/-- A file imports another one. -/
def Imports (files : Files) (file other : String) : Prop :=
  .importFile other ∈ statementsOf files file

/-- The names that the articles of a file have. -/
def articleNames (statements : List Statement) : List String :=
  definedNames (statements.flatMap Statement.events)

/-- A set of gazetteer files that are reachable from one of them by import, without an error other
than an unresolved reference: every imported file exists, and no name is given twice. -/
structure Gazetteer where
  files : Files
  root : String
  distinct : (files.map (·.1)).Nodup
  rootExists : root ∈ files.map (·.1)
  importsExist : ∀ file ∈ files.map (·.1), ∀ other ∈ importsOf (statementsOf files file),
    other ∈ files.map (·.1)
  reachable : ∀ file ∈ files.map (·.1), Relation.ReflTransGen (Imports files) root file
  uniqueNames : (files.flatMap fun file => articleNames file.2).Nodup

namespace Gazetteer

variable (g : Gazetteer)

/-- A name is referred to in some file. -/
def Referenced (name : String) : Prop :=
  ∃ file ∈ g.files, ∃ article references, .article article references ∈ file.2 ∧
    name ∈ references

/-- A name is defined in some file. -/
def Defined (name : String) : Prop :=
  ∃ file ∈ g.files, ∃ references, .article name references ∈ file.2 ∧ name ≠ ""

/-- The build reports an unresolved reference. -/
def ReportsUnresolved : Prop :=
  ∃ names, .unresolvedReferences names ∈ (PoolBuilder.build g.files g.root).2.errors

/-- The statements of all files in the order in which they are read. -/
def readingOrder : List Event := Gzt.readingOrder g.files g.root

theorem unopened_nil : unopened g.files [] < g.files.length + 1 := by
  have hcard := List.toFinset_card_le (g.files.map (·.1))
  rw [List.length_map] at hcard
  simp only [unopened, List.toFinset_nil, Finset.sdiff_empty]
  omega

theorem lookup_of_mem {files : Files} (h : (files.map (·.1)).Nodup)
    {file : String × List Statement} (hfile : file ∈ files) :
    statementsOf files file.1 = file.2 := by
  induction files with
  | nil => simp at hfile
  | cons entry files ih =>
    obtain ⟨name, statements⟩ := entry
    rw [List.map_cons, List.nodup_cons] at h
    rcases List.mem_cons.mp hfile with rfl | hmem
    · simp [statementsOf]
    · have hne : (file.1 == name) = false := by
        rw [beq_eq_false_iff_ne]
        intro heq
        exact h.1 (List.mem_map.mpr ⟨file, hmem, heq⟩)
      rw [← ih h.2 hmem]
      simp [statementsOf, List.lookup_cons, hne]

/-- The order of reading has the events of all files. -/
theorem readingOrder_perm :
    (g.readingOrder.filter (· ≠ .fileEnd)).Perm
      (g.files.flatMap fun file => file.2.flatMap Statement.events) := by
  obtain ⟨fresh, hfresh⟩ := fileEvents_opens g.importsExist (g.files.length + 1) [] g.root
    g.unopened_nil g.rootExists
  have hnodup := hfresh.nodup List.nodup_nil
  rw [List.append_nil] at hnodup
  have hmem : ∀ file, file ∈ fresh ↔ file ∈ g.files.map (·.1) := by
    intro file
    refine ⟨hfresh.known file, ?_⟩
    intro hfile
    induction g.reachable file hfile with
    | refl => simpa using hfresh.imports g.root (by simp)
    | @tail file other _ himport ih =>
      have hfile : file ∈ fresh := by
        apply ih
        by_contra hno
        have hnone : g.files.lookup file = none := by
          rw [List.lookup_eq_none_iff]
          intro entry hentry
          rw [bne_iff_ne]
          rintro rfl
          exact hno (List.mem_map_of_mem hentry)
        simp [Imports, statementsOf, hnone] at himport
      simpa using hfresh.closed file hfile other himport
  have hperm : fresh.Perm (g.files.map (·.1)) :=
    (List.perm_ext_iff_of_nodup hnodup g.distinct).mpr hmem
  have hevents := hfresh.events
  rw [List.nil_append] at hevents
  refine hevents.trans ((hperm.flatMap_right _).trans ?_)
  rw [List.flatMap_map]
  apply List.Perm.of_eq
  apply List.flatMap_congr
  intro file hfile
  rw [ownEvents, lookup_of_mem g.distinct hfile]

theorem mem_readingOrder {event : Event} (hevent : event ≠ .fileEnd) :
    event ∈ g.readingOrder ↔ ∃ file ∈ g.files, ∃ statement ∈ file.2, event ∈ statement.events := by
  have h := g.readingOrder_perm.mem_iff (a := event)
  simp only [List.mem_filter, hevent, ne_eq, not_false_eq_true, decide_true, and_true,
    List.mem_flatMap] at h
  exact h

theorem referenced_iff (name : String) :
    g.Referenced name ↔ .reference name ∈ g.readingOrder := by
  rw [g.mem_readingOrder (by simp)]
  constructor
  · rintro ⟨file, hfile, article, references, hmem, hname⟩
    exact ⟨file, hfile, _, hmem, by simp [Statement.events, articleEvents, hname]⟩
  · rintro ⟨file, hfile, statement, hmem, hname⟩
    cases statement with
    | importFile other => simp [Statement.events] at hname
    | article article references =>
      refine ⟨file, hfile, article, references, hmem, ?_⟩
      by_cases hzero : article = "" <;> simpa [Statement.events, articleEvents, hzero] using hname

theorem defined_iff (name : String) :
    g.Defined name ↔ .define name ∈ g.readingOrder := by
  rw [g.mem_readingOrder (by simp)]
  constructor
  · rintro ⟨file, hfile, references, hmem, hname⟩
    exact ⟨file, hfile, _, hmem, by simp [Statement.events, articleEvents, hname]⟩
  · rintro ⟨file, hfile, statement, hmem, hname⟩
    cases statement with
    | importFile other => simp [Statement.events] at hname
    | article article references =>
      by_cases hzero : article = ""
      · simp [Statement.events, articleEvents, hzero] at hname
      · simp only [Statement.events, articleEvents, hzero, if_false, List.mem_append,
          List.mem_map, reduceCtorEq, and_false, exists_false, List.mem_singleton,
          Event.define.injEq, false_or] at hname
        subst hname
        exact ⟨file, hfile, references, hmem, hzero⟩

theorem definedNames_nodup : (definedNames g.readingOrder).Nodup := by
  have hfilter : definedNames (g.readingOrder.filter (· ≠ .fileEnd)) =
      definedNames g.readingOrder := by
    generalize g.readingOrder = events
    induction events with
    | nil => rfl
    | cons event events ih =>
      cases event <;> simp_all [definedNames, List.filterMap_cons, Event.defined]
  have hperm := g.readingOrder_perm.filterMap Event.defined
  have hall : definedNames (g.files.flatMap fun file => file.2.flatMap Statement.events) =
      g.files.flatMap fun file => articleNames file.2 := by
    simp only [definedNames, articleNames, List.filterMap_flatMap]
  rw [← hfilter]
  refine hperm.nodup_iff.mpr ?_
  change (definedNames _).Nodup
  rw [hall]
  exact g.uniqueNames

theorem reportsUnresolved_iff : g.ReportsUnresolved ↔ ¬Settled g.readingOrder := by
  have hfollows := (PoolBuilder.fromVirtualFile_follows g.importsExist (g.files.length + 1)).follows
    [] ([], []) g.root g.unopened_nil g.rootExists (by simp)
    g.definedNames_nodup
  have hsettled : (runEvents ([], []) g.readingOrder).isSome = true ↔ Settled g.readingOrder := by
    rw [runEvents_isSome_iff]
    simp [Settled]
  rw [← hsettled]
  have hclean : PoolBuilder.clean [] ([], []) = {} := rfl
  rw [hclean] at hfollows
  simp only [ReportsUnresolved, PoolBuilder.build]
  change PoolBuilder.Follows _ _ (runEvents ([], []) g.readingOrder) at hfollows
  cases hrun : runEvents ([], []) g.readingOrder with
  | none =>
    rw [hrun] at hfollows
    simpa using hfollows.2
  | some known =>
    rw [hrun] at hfollows
    simp only [PoolBuilder.Follows] at hfollows
    rw [hfollows]
    simp [PoolBuilder.clean]

theorem readingOrder_ends : ∃ events, g.readingOrder = events ++ [.fileEnd] := by
  obtain ⟨statements, hlookup⟩ : ∃ statements, g.files.lookup g.root = some statements := by
    obtain ⟨entry, hentry, hroot⟩ := List.mem_map.mp g.rootExists
    have := List.lookup_isSome_iff.mpr ⟨entry, hentry, beq_iff_eq.mpr hroot.symm⟩
    exact Option.isSome_iff_exists.mp this
  simp only [readingOrder, Gzt.readingOrder, fileEvents, List.not_mem_nil, if_false, hlookup]
  exact ⟨_, rfl⟩

/-- The build reports no unresolved reference exactly if every referenced article is defined: this
holds if some article is missing altogether, or if no file ends before what was referred to so far
is defined; and it fails otherwise. -/
theorem reportsUnresolved_iff_undefined :
    (¬g.ReportsUnresolved ↔ ∀ name, g.Referenced name → g.Defined name) ↔
      (∃ name, g.Referenced name ∧ ¬g.Defined name) ∨ Settled g.readingOrder := by
  rw [g.reportsUnresolved_iff, not_not]
  have hall : Settled g.readingOrder → ∀ name, g.Referenced name → g.Defined name := by
    intro hsettled name hname
    rw [g.referenced_iff] at hname
    rw [g.defined_iff]
    obtain ⟨events, hevents⟩ := g.readingOrder_ends
    rw [hevents] at hname ⊢
    have hbefore : .reference name ∈ events := by simpa using hname
    exact List.mem_append_left _ (hsettled events [] hevents name hbefore)
  constructor
  · intro h
    by_cases hsettled : Settled g.readingOrder
    · exact .inr hsettled
    · left
      by_contra hno
      apply hsettled
      rw [h]
      intro name hname
      by_contra hundefined
      exact hno ⟨name, hname, hundefined⟩
  · rintro (⟨name, hname, hundefined⟩ | hsettled)
    · constructor
      · exact hall
      · intro h
        exact absurd (h name hname) hundefined
    · exact ⟨hall, fun _ => hsettled⟩

/-- An article before an import refers to one that stands after it. -/
def forwardOverImport : Gazetteer where
  files := [("root.gzt", [.article "a" ["b"], .importFile "c.gzt", .article "b" []]),
    ("c.gzt", [.article "c" []])]
  root := "root.gzt"
  distinct := by decide
  rootExists := by decide
  importsExist := by decide
  reachable := by
    simp only [List.map_cons, List.map_nil, List.forall_mem_cons, List.not_mem_nil,
      false_imp_iff, implies_true, and_true]
    refine ⟨.refl, .single ?_⟩
    exact List.mem_cons_of_mem _ (List.mem_cons_self)
  uniqueNames := by decide

/-- The file that is imported resolves the pending references of the file that imports it, and
reports a reference whose article is still to come. -/
theorem forwardOverImport_reports :
    ¬(¬forwardOverImport.ReportsUnresolved ↔
      ∀ name, forwardOverImport.Referenced name → forwardOverImport.Defined name) ∧
    (PoolBuilder.build forwardOverImport.files forwardOverImport.root).2.errors =
      [.unresolvedReferences ["b"], .cannotLoadDependency "c.gzt"] := by
  have herrors : (PoolBuilder.build forwardOverImport.files forwardOverImport.root).2.errors =
      [.unresolvedReferences ["b"], .cannotLoadDependency "c.gzt"] := by decide
  refine ⟨?_, herrors⟩
  intro h
  refine h.mpr ?_ ⟨["b"], by rw [herrors]; exact List.mem_cons_self⟩
  intro name hname
  rw [referenced_iff] at hname
  rw [defined_iff]
  have horder : forwardOverImport.readingOrder =
      [.reference "b", .define "a", .define "c", .fileEnd, .define "b", .fileEnd] := by decide
  rw [horder] at hname ⊢
  simp only [List.mem_cons, Event.reference.injEq, reduceCtorEq, List.not_mem_nil,
    or_false] at hname
  simp [hname]

end Gazetteer
end TomitaParser.Gzt
