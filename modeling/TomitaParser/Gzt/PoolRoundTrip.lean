import Mathlib.Data.List.Forall2
import TomitaParser.Gzt.ArticlePool
/-! # What the pool reads back

The entries of the pool stand one after the other, and an entry that is written once more keeps its
size as long as its title is the same. -/

namespace TomitaParser.Gzt
namespace ArticlePoolBuilder
variable {Fields Key : Type} {format : MessageFormat Fields Key}

/-- A message whose parts fit into the words of an entry. -/
structure Fits (format : MessageFormat Fields Key) (m : Message Fields Key) (title : ArticleName) :
    Prop where
  descriptor : m.descriptor < format.descriptorCount
  body : (format.serialize m).length < 2 ^ 32
  title : title.length < 2 ^ 32

theorem entryBytes_ne_nil (m : Message Fields Key) (title : ArticleName) :
    entryBytes format m title ≠ [] := by
  simp [entryBytes, Varint.write32_ne_nil]

theorem load_entryBytes {m : Message Fields Key} {title : ArticleName} (h : Fits format m title)
    (before rest : List UInt8) :
    loadArticleAtOffset format (before ++ (entryBytes format m title ++ rest)) before.length =
      some (m, title) := by
  have hdescriptor : m.descriptor < 2 ^ 32 :=
    lt_of_lt_of_le h.descriptor format.descriptorCount_le
  have hlength : ¬ (before ++ (entryBytes format m title ++ rest)).length ≤ before.length := by
    have := List.length_pos_iff.mpr (@entryBytes_ne_nil _ _ format m title)
    simp only [List.length_append]
    omega
  rw [loadArticleAtOffset, if_neg hlength, List.drop_left]
  simp [entryBytes, List.append_assoc, readDescriptorIndex, Varint.read32_write32 hdescriptor,
    Option.filter_some, h.descriptor, readBody, Varint.read32_write32 h.body,
      format.parse_serialize, readTitle,
    Varint.read32_write32 h.title]

theorem skip_entryBytes {m : Message Fields Key} {title : ArticleName} (h : Fits format m title)
    (rest : List UInt8) : skipEntry (entryBytes format m title ++ rest) = some rest := by
  have hdescriptor : m.descriptor < 2 ^ 32 :=
    lt_of_lt_of_le h.descriptor format.descriptorCount_le
  simp [skipEntry, entryBytes, List.append_assoc, Varint.read32_write32 hdescriptor, skipSized,
    Varint.read32_write32 h.body, Varint.read32_write32 h.title]

end ArticlePoolBuilder
open ArticlePoolBuilder

/-- An article of the pool: the offset and the title it was stored with, and its references by now.
-/
structure StoredArticle (Fields Key : Type) where
  statement : ArticleStatement Fields Key
  offset : ℕ
  title : ArticleName
  refs : List Reference
deriving DecidableEq

namespace StoredArticle
variable {Fields Key : Type} (format : MessageFormat Fields Key)

def draft (s : StoredArticle Fields Key) : Draft Fields Key :=
  ⟨s.statement.descriptor, s.statement.keys, s.statement.fields, s.refs⟩

/-- The message of an entry, with its keys removed. -/
def message (s : StoredArticle Fields Key) : Message Fields Key :=
  clearArticleKeys format s.draft.message

def bytes (s : StoredArticle Fields Key) : List UInt8 :=
    entryBytes format (s.message format) s.title

/-- Some reference waits for its name. -/
def isOpen (s : StoredArticle Fields Key) : Bool := s.refs.any (·.unresolved.isSome)

def unresolvedArticle (s : StoredArticle Fields Key) : UnresolvedArticle Fields Key :=
  ⟨s.draft, s.statement.name, s.offset⟩

def resolve (articles : List (ArticleName × ℕ)) (s : StoredArticle Fields Key) :
    StoredArticle Fields Key :=
  { s with refs := s.refs.map (Reference.resolve articles) }

end StoredArticle

/-- A build with the articles that it has stored. -/
structure PoolRun (Fields Key : Type) where
  builder : ArticlePoolBuilder Fields Key := {}
  stored : List (StoredArticle Fields Key) := []
deriving DecidableEq

namespace PoolRun
variable {Fields Key : Type} (format : MessageFormat Fields Key)

/-- The stored articles after a statement. -/
def storedAfter (r : PoolRun Fields Key) :
    PoolStatement Fields Key → List (StoredArticle Fields Key)
  | .article a => r.stored ++ [⟨a, r.builder.data.length, savedTitle r.builder.options a.name,
      a.references.map r.builder.resolveReference⟩]
  | .closeFile => r.stored.map (StoredArticle.resolve r.builder.articles)
  | _ => r.stored

def step (r : PoolRun Fields Key) (statement : PoolStatement Fields Key) :
    Option (PoolRun Fields Key) :=
  (r.builder.step format statement).map fun b => ⟨b, r.storedAfter statement⟩

def run (r : PoolRun Fields Key) (statements : List (PoolStatement Fields Key)) :
    Option (PoolRun Fields Key) :=
  statements.foldlM (step format) r

/-- `ArticlePoolBuilder.build` with the articles that are stored. -/
def build (statements : List (PoolStatement Fields Key)) : Option (PoolRun Fields Key) :=
  run format {} (PoolStatement.openFile :: statements ++ [PoolStatement.closeFile])

theorem run_builder (r : PoolRun Fields Key) (statements : List (PoolStatement Fields Key)) :
    (run format r statements).map (·.builder) =
      statements.foldlM (ArticlePoolBuilder.step format) r.builder := by
  induction statements generalizing r with
  | nil => rfl
  | cons statement rest ih =>
    rw [run, List.foldlM_cons, List.foldlM_cons, step]
    cases hstep : r.builder.step format statement with
    | none => rfl
    | some b => exact ih ⟨b, r.storedAfter statement⟩

/-- Watching the stored articles does not change the build. -/
theorem build_builder (statements : List (PoolStatement Fields Key)) :
    (build format statements).map (·.builder) = ArticlePoolBuilder.build format statements :=
  run_builder format {} _

/-- An article with open references gets the title that it was stored with when it is written once
more. -/
def KeepsTitles (r : PoolRun Fields Key) : PoolStatement Fields Key → Prop
  | .closeFile => ∀ s ∈ r.stored, s.isOpen = true →
      savedTitle r.builder.options s.statement.name = s.title
  | _ => True

/-- Every statement of a run keeps the titles. -/
def AllKeepTitles : PoolRun Fields Key → List (PoolStatement Fields Key) → Prop
  | _, [] => True
  | r, statement :: rest =>
    KeepsTitles r statement ∧ ∀ r', step format r statement = some r' → AllKeepTitles r' rest

/-- The entry of each article has its type, its fields, the offsets of the articles that it names
and its title, and a scan visits the entries and nothing else. -/
structure RoundTrips (r : PoolRun Fields Key) : Prop where
  load : ∀ s ∈ r.stored, ∃ ids : List UInt32,
    loadArticleAtOffset format r.builder.data s.offset =
      some (clearArticleKeys format
        ⟨s.statement.descriptor, s.statement.keys, s.statement.fields, ids⟩, s.title) ∧
    List.Forall₂ (fun name id => ∃ t ∈ r.stored, t.statement.name = name ∧ id.toNat = t.offset)
      s.statement.references ids
  scan : ArticlePoolBuilder.scan r.builder.data = some (r.stored.map (·.offset))

/-- A reference has the offset of its article, or waits for it. -/
def RefersTo (stored : List (StoredArticle Fields Key)) (name : ArticleName) (ref : Reference) :
    Prop :=
  match ref.unresolved with
  | none => ∃ t ∈ stored, t.statement.name = name ∧ ref.id.toNat = t.offset
  | some waiting => waiting = name

/-- The data are the entries of the stored articles. -/
structure PoolReady (r : PoolRun Fields Key) : Prop where
  data : r.builder.data = r.stored.flatMap (·.bytes format)
  offset : ∀ before s after, r.stored = before ++ s :: after →
    s.offset = (before.flatMap (·.bytes format)).length
  unresolved : r.builder.unresolved = (r.stored.filter (·.isOpen)).map (·.unresolvedArticle)
  refs : ∀ s ∈ r.stored, List.Forall₂ (RefersTo r.stored) s.statement.references s.refs
  names : ∀ name o, r.builder.articles.lookup name = some o →
    ∃ t ∈ r.stored, t.statement.name = name ∧ t.offset = o
  descriptor : ∀ s ∈ r.stored, s.statement.descriptor < format.descriptorCount
  size : r.builder.data.length < maxValidOffset

section Resolving
variable {format}

theorem clearArticleKeys_refs (m : Message Fields Key) (refs : List UInt32) :
    clearArticleKeys format { m with refs := refs } =
      { clearArticleKeys format m with refs := refs } := by
  unfold clearArticleKeys
  dsimp only
  split <;> rfl

theorem message_resolve (articles : List (ArticleName × ℕ)) (s : StoredArticle Fields Key) :
    (s.resolve articles).message format =
      { s.message format with refs := s.refs.map fun r => (r.resolve articles).id } := by
  have hdraft : (s.resolve articles).draft.message =
      { s.draft.message with refs := s.refs.map fun r => (r.resolve articles).id } := by
    simp [StoredArticle.draft, StoredArticle.resolve, Draft.message, Function.comp_def]
  rw [StoredArticle.message, hdraft, clearArticleKeys_refs]
  rfl

theorem refs_message (s : StoredArticle Fields Key) :
    (s.message format).refs = s.refs.map (·.id) := by
  unfold StoredArticle.message clearArticleKeys
  split <;> rfl

theorem length_bytes_resolve (articles : List (ArticleName × ℕ)) (s : StoredArticle Fields Key) :
    ((s.resolve articles).bytes format).length = (s.bytes format).length := by
  have hlength := format.length_serialize (s.message format)
    (s.refs.map fun r => (r.resolve articles).id) (by rw [refs_message]; simp)
  simp only [StoredArticle.bytes, entryBytes, List.length_append, message_resolve, hlength]
  rfl

theorem resolve_of_not_open (articles : List (ArticleName × ℕ)) {s : StoredArticle Fields Key}
    (h : s.isOpen = false) : s.resolve articles = s := by
  have hsame : s.refs.map (Reference.resolve articles) = s.refs.map id := by
    apply List.map_congr_left
    intro ref href
    have hnone : ref.unresolved = none := by
      rw [StoredArticle.isOpen, List.any_eq_false] at h
      simpa using h ref href
    rw [Reference.resolve, hnone]
    rfl
  rw [StoredArticle.resolve, hsame, List.map_id]

theorem overwrite_entry (before old after new : List UInt8) (h : new.length = old.length) :
    overwrite (before ++ (old ++ after)) before.length new = before ++ (new ++ after) := by
  have hall : written ((before ++ (old ++ after)).length - before.length) new = new := by
    rw [written, if_pos]
    simp only [List.length_append]
    omega
  have hdrop : (before ++ (old ++ after)).drop (before.length + new.length) = after := by
    rw [h, ← List.drop_drop, List.drop_left, List.drop_left]
  simp only [overwrite, hall, List.take_left, hdrop]

/-- The open articles are written once more, one after the other. -/
theorem foldl_updateResolved (b : ArticlePoolBuilder Fields Key)
    (before rest : List (StoredArticle Fields Key))
    (hdata : b.data = (before ++ rest).flatMap (·.bytes format))
    (hoffset : ∀ middle s after, rest = middle ++ s :: after →
      s.offset = ((before ++ middle).flatMap (·.bytes format)).length)
    (htitles : ∀ s ∈ rest, s.isOpen = true → savedTitle b.options s.statement.name = s.title) :
    ((rest.filter (·.isOpen)).map (·.unresolvedArticle)).foldl (updateResolved format) b =
      { b with data :=
          (before ++ rest.map (StoredArticle.resolve b.articles)).flatMap (·.bytes format) } := by
  induction rest generalizing b before with
  | nil =>
    simp only [List.filter_nil, List.map_nil, List.foldl_nil, ← hdata]
  | cons s rest ih =>
    have hmiddle : ∀ s' : StoredArticle Fields Key,
        (s'.bytes format).length = (s.bytes format).length →
        ∀ middle t after, rest = middle ++ t :: after →
          t.offset = ((before ++ [s'] ++ middle).flatMap (·.bytes format)).length := by
      rintro s' hs' middle t after rfl
      rw [hoffset (s :: middle) t after rfl]
      simp only [List.flatMap_append, List.flatMap_cons, List.flatMap_nil, List.length_append,
        List.length_nil, hs']
      omega
    by_cases hopen : s.isOpen = true
    · have hfilter : (s :: rest).filter (·.isOpen) = s :: rest.filter (·.isOpen) := by
        rw [List.filter_cons, if_pos hopen]
      have hentry : saveArticle format b.options s.statement.name
          (s.draft.resolve b.articles).message = (s.resolve b.articles).bytes format := by
        rw [saveArticle, htitles s List.mem_cons_self hopen]
        rfl
      have hwritten : updateResolved format b s.unresolvedArticle =
          { b with
            data := (before ++ [s.resolve b.articles] ++ rest).flatMap (·.bytes format) } := by
        have hover := overwrite_entry (before.flatMap (·.bytes format)) (s.bytes format)
          (rest.flatMap (·.bytes format)) ((s.resolve b.articles).bytes format)
          (length_bytes_resolve b.articles s)
        have hplace := hoffset [] s rest rfl
        rw [List.append_nil] at hplace
        have hsplit : b.data = before.flatMap (·.bytes format) ++
            (s.bytes format ++ rest.flatMap (·.bytes format)) := by
          rw [hdata, List.flatMap_append, List.flatMap_cons]
        rw [updateResolved]
        simp only [StoredArticle.unresolvedArticle, hentry, hplace, hsplit, hover,
          List.flatMap_append, List.flatMap_cons, List.flatMap_nil, List.append_nil,
          List.append_assoc]
      have hrest := ih
        { b with data := (before ++ [s.resolve b.articles] ++ rest).flatMap (·.bytes format) }
        (before ++ [s.resolve b.articles]) rfl (hmiddle _ (length_bytes_resolve b.articles s))
        fun t ht => htitles t (List.mem_cons_of_mem _ ht)
      rw [hfilter, List.map_cons, List.foldl_cons, hwritten, hrest]
      simp only [List.append_assoc, List.map_cons, List.cons_append, List.nil_append]
    · have hfalse : s.isOpen = false := by simpa using hopen
      have hfilter : (s :: rest).filter (·.isOpen) = rest.filter (·.isOpen) := by
        rw [List.filter_cons, if_neg hopen]
      rw [hfilter, ih b (before ++ [s]) (by rw [hdata]; simp) (hmiddle s rfl)
        fun t ht => htitles t (List.mem_cons_of_mem _ ht)]
      simp only [List.map_cons, resolve_of_not_open b.articles hfalse, List.append_assoc,
        List.cons_append, List.nil_append]

end Resolving

section Steps
variable {format}

theorem RefersTo.mono {stored stored' : List (StoredArticle Fields Key)}
    (h : ∀ t ∈ stored, ∃ t' ∈ stored', t'.statement = t.statement ∧ t'.offset = t.offset)
    {name : ArticleName} {ref : Reference} (href : RefersTo stored name ref) :
    RefersTo stored' name ref := by
  unfold RefersTo at href ⊢
  split at href
  · obtain ⟨t, ht, hname, hid⟩ := href
    obtain ⟨t', ht', hstatement, hoffset⟩ := h t ht
    exact ⟨t', ht', by rw [hstatement, hname], by rw [hoffset, hid]⟩
  · exact href

theorem PoolReady.offset_lt {r : PoolRun Fields Key} (h : PoolReady format r)
    {s : StoredArticle Fields Key} (hs : s ∈ r.stored) : s.offset < r.builder.data.length := by
  obtain ⟨before, after, hsplit⟩ := List.append_of_mem hs
  have hpos := List.length_pos_iff.mpr (@entryBytes_ne_nil _ _ format (s.message format) s.title)
  rw [h.offset before s after hsplit, h.data, hsplit]
  simp only [List.flatMap_append, List.flatMap_cons, List.length_append]
  have hbytes : 0 < (s.bytes format).length := hpos
  omega

theorem PoolReady.toNat_offset {r : PoolRun Fields Key} (h : PoolReady format r)
    {s : StoredArticle Fields Key} (hs : s ∈ r.stored) :
    (UInt32.ofNat s.offset).toNat = s.offset := by
  have hoffset := h.offset_lt hs
  have hsize := h.size
  apply UInt32.toNat_ofNat_of_lt'
  simp only [maxValidOffset] at hsize
  simp only [UInt32.size]
  omega

theorem PoolReady.refersTo_resolveReference {r : PoolRun Fields Key} (h : PoolReady format r)
    (name : ArticleName) : RefersTo r.stored name (r.builder.resolveReference name) := by
  unfold resolveReference
  split
  · rename_i o hlookup
    obtain ⟨t, ht, hname, hoffset⟩ := h.names name o hlookup
    exact ⟨t, ht, hname, by rw [← hoffset]; exact h.toNat_offset ht⟩
  · rfl

theorem PoolReady.initial : PoolReady format ({} : PoolRun Fields Key) where
  data := rfl
  offset := by simp
  unresolved := rfl
  refs := by simp
  names := by simp
  descriptor := by simp
  size := by simp [maxValidOffset]

theorem PoolReady.of_options {r : PoolRun Fields Key} (h : PoolReady format r)
    {b : ArticlePoolBuilder Fields Key} (hdata : b.data = r.builder.data)
    (harticles : b.articles = r.builder.articles)
    (hunresolved : b.unresolved = r.builder.unresolved) :
    PoolReady format ⟨b, r.stored⟩ where
  data := hdata.trans h.data
  offset := h.offset
  unresolved := hunresolved.trans h.unresolved
  refs := h.refs
  names := by
    intro name o hlookup
    rw [harticles] at hlookup
    exact h.names name o hlookup
  descriptor := h.descriptor
  size := by
    rw [hdata]
    exact h.size

/-- What `BuildArticle` does when it succeeds. -/
theorem buildArticle_eq {b b' : ArticlePoolBuilder Fields Key} {a : ArticleStatement Fields Key}
    (h : buildArticle format b a = some b') :
    let s : StoredArticle Fields Key :=
      ⟨a, b.data.length, savedTitle b.options a.name, a.references.map b.resolveReference⟩
    a.descriptor < format.descriptorCount ∧
      b'.data = b.data ++ s.bytes format ∧ b'.data.length < maxValidOffset ∧
      b'.articles = (if a.name = [] then b.articles else b.articles ++ [(a.name, b.data.length)]) ∧
      b'.unresolved = b.unresolved ++ (if s.isOpen then [s.unresolvedArticle] else []) := by
  intro s
  unfold buildArticle at h
  split at h
  · cases h
  split at h
  · cases h
  rename_i hdescriptor
  obtain ⟨r, hstore, rfl⟩ := Option.map_eq_some_iff.mp h
  unfold storeArticle at hstore
  dsimp only at hstore
  split at hstore
  · rename_i hsize
    cases hstore
    refine ⟨not_le.mp hdescriptor, ?_⟩
    by_cases hopen : s.isOpen = true
    · have hany : (a.references.map b.resolveReference).any (·.unresolved.isSome) = true := hopen
      simp only [if_pos hany, if_pos hopen]
      exact ⟨rfl, hsize, trivial, rfl⟩
    · have hany : ¬ (a.references.map b.resolveReference).any (·.unresolved.isSome) = true := hopen
      simp only [if_neg hany, if_neg hopen, List.append_nil]
      exact ⟨rfl, hsize, trivial, trivial⟩
  · cases hstore

theorem PoolReady.article {r : PoolRun Fields Key} (h : PoolReady format r)
    {a : ArticleStatement Fields Key} {b : ArticlePoolBuilder Fields Key}
    (hbuild : buildArticle format r.builder a = some b) :
    PoolReady format ⟨b, r.storedAfter (.article a)⟩ := by
  obtain ⟨hdescriptor, hdata, hsize, harticles, hunresolved⟩ := buildArticle_eq hbuild
  let s : StoredArticle Fields Key := ⟨a, r.builder.data.length,
    savedTitle r.builder.options a.name,
    a.references.map r.builder.resolveReference⟩
  have hkept : ∀ t ∈ r.stored, ∃ t' ∈ r.stored ++ [s], t'.statement = t.statement ∧
      t'.offset = t.offset :=
    fun t ht => ⟨t, List.mem_append_left _ ht, rfl, rfl⟩
  show PoolReady format ⟨b, r.stored ++ [s]⟩
  constructor
  case data =>
    rw [hdata, h.data, List.flatMap_append, List.flatMap_cons, List.flatMap_nil, List.append_nil,
      ← h.data]
  case offset =>
    intro before t after (hsplit : r.stored ++ [s] = before ++ t :: after)
    rcases List.eq_nil_or_concat after with rfl | ⟨after', last, rfl⟩
    · obtain ⟨rfl, hs⟩ := List.append_inj' hsplit rfl
      cases hs
      exact congrArg List.length h.data
    · have hsplit' : r.stored ++ [s] = before ++ t :: after' ++ [last] := by
        simp [hsplit]
      obtain ⟨hstored, -⟩ := List.append_inj' hsplit' rfl
      exact h.offset before t after' hstored
  case unresolved =>
    rw [hunresolved, h.unresolved, List.filter_append, List.map_append]
    congr 1
    by_cases hopen : s.isOpen = true
    · rw [if_pos hopen, List.filter_cons, if_pos hopen, List.filter_nil, List.map_cons,
        List.map_nil]
    · rw [if_neg hopen, List.filter_cons, if_neg hopen, List.filter_nil, List.map_nil]
  case refs =>
    intro t ht
    rcases List.mem_append.mp ht with ht | ht
    · exact (h.refs t ht).imp fun name ref href => href.mono hkept
    · cases List.mem_singleton.mp ht
      refine List.forall₂_map_right_iff.mpr (List.forall₂_same.mpr fun name _ => ?_)
      exact (h.refersTo_resolveReference name).mono hkept
  case names =>
    intro name o hlookup
    have hlookup' : b.articles.lookup name = some o := hlookup
    rw [harticles] at hlookup'
    have hold : ∀ o, r.builder.articles.lookup name = some o →
        ∃ t ∈ r.stored ++ [s], t.statement.name = name ∧ t.offset = o := by
      intro o hlookup
      obtain ⟨t, ht, hname, hoffset⟩ := h.names name o hlookup
      exact ⟨t, List.mem_append_left _ ht, hname, hoffset⟩
    split at hlookup'
    · exact hold o hlookup'
    · rw [List.lookup_append, Option.or_eq_some_iff] at hlookup'
      rcases hlookup' with hlookup' | ⟨-, hlookup'⟩
      · exact hold o hlookup'
      · rw [List.lookup_cons] at hlookup'
        split at hlookup'
        · rename_i hname
          cases hlookup'
          exact ⟨s, by simp, (eq_of_beq hname).symm, rfl⟩
        · cases hlookup'
  case descriptor =>
    intro t ht
    rcases List.mem_append.mp ht with ht | ht
    · exact h.descriptor t ht
    · cases List.mem_singleton.mp ht
      exact hdescriptor
  case size => exact hsize

theorem resolve_not_open (articles : List (ArticleName × ℕ)) (s : StoredArticle Fields Key) :
    (s.resolve articles).isOpen = false := by
  rw [StoredArticle.isOpen, List.any_eq_false]
  intro ref href
  obtain ⟨old, -, rfl⟩ := List.mem_map.mp href
  unfold Reference.resolve
  split <;> simp_all

theorem length_flatMap_resolve (articles : List (ArticleName × ℕ))
    (stored : List (StoredArticle Fields Key)) :
    ((stored.map (StoredArticle.resolve articles)).flatMap (·.bytes format)).length =
      (stored.flatMap (·.bytes format)).length := by
  induction stored with
  | nil => rfl
  | cons s stored ih =>
    simp only [List.map_cons, List.flatMap_cons, List.length_append, length_bytes_resolve, ih]

theorem PoolReady.resolve_eq {r : PoolRun Fields Key} (h : PoolReady format r)
    (htitles : KeepsTitles r (.closeFile : PoolStatement Fields Key))
    {b : ArticlePoolBuilder Fields Key}
    (hresolve : r.builder.resolve format = some b) :
    b.data = (r.stored.map (StoredArticle.resolve r.builder.articles)).flatMap (·.bytes format) ∧
      b.articles = r.builder.articles ∧ b.unresolved = [] ∧
      ∀ s ∈ r.stored, ∀ ref ∈ s.refs, ref.isKnown r.builder.articles = true := by
  unfold ArticlePoolBuilder.resolve at hresolve
  split at hresolve
  · rename_i hknown
    cases hresolve
    have hfold := foldl_updateResolved r.builder [] r.stored (by rw [h.data, List.nil_append])
      (by
        intro middle s after hsplit
        rw [List.nil_append]
        exact h.offset middle s after hsplit) htitles
    rw [h.unresolved, hfold]
    refine ⟨rfl, rfl, rfl, ?_⟩
    intro s hs ref href
    by_cases hopen : s.isOpen = true
    · have hmem : s.unresolvedArticle ∈ r.builder.unresolved := by
        rw [h.unresolved]
        exact List.mem_map_of_mem (List.mem_filter.mpr ⟨hs, hopen⟩)
      exact List.all_eq_true.mp (List.all_eq_true.mp hknown _ hmem) ref href
    · have hnone : ref.unresolved = none := by
        rw [StoredArticle.isOpen, Bool.not_eq_true, List.any_eq_false] at hopen
        simpa using hopen ref href
      rw [Reference.isKnown, hnone]
  · cases hresolve

theorem PoolReady.closeFile {r : PoolRun Fields Key} (h : PoolReady format r)
    (htitles : KeepsTitles r (.closeFile : PoolStatement Fields Key))
    {b : ArticlePoolBuilder Fields Key}
    (hresolve : r.builder.resolve format = some b) (options : GztOptions)
    (backups : List GztOptions) :
    PoolReady format ⟨{ b with options := options, backups := backups },
      r.storedAfter (.closeFile : PoolStatement Fields Key)⟩ := by
  obtain ⟨hdata, harticles, hunresolved, hknown⟩ := h.resolve_eq htitles hresolve
  have hkept : ∀ t ∈ r.stored, ∃ t' ∈ r.stored.map (StoredArticle.resolve r.builder.articles),
      t'.statement = t.statement ∧ t'.offset = t.offset :=
    fun t ht => ⟨t.resolve r.builder.articles, List.mem_map_of_mem ht, rfl, rfl⟩
  show PoolReady format ⟨_, r.stored.map (StoredArticle.resolve r.builder.articles)⟩
  constructor
  case data => exact hdata
  case offset =>
    intro before t after hsplit
    obtain ⟨before', rest, hstored, rfl, hrest⟩ := List.map_eq_append_iff.mp hsplit
    obtain ⟨s, after', rfl, rfl, rfl⟩ := List.map_eq_cons_iff.mp hrest
    rw [length_flatMap_resolve]
    exact h.offset before' s after' hstored
  case unresolved =>
    have hnone : (r.stored.map (StoredArticle.resolve r.builder.articles)).filter
      (·.isOpen) = [] := by
      rw [List.filter_eq_nil_iff]
      intro t ht
      obtain ⟨s, -, rfl⟩ := List.mem_map.mp ht
      simp [resolve_not_open]
    rw [hnone]
    exact hunresolved
  case refs =>
    intro t ht
    obtain ⟨s, hs, rfl⟩ := List.mem_map.mp ht
    have hrefs := List.forall₂_iff_zip.mp (h.refs s hs)
    refine List.forall₂_map_right_iff.mpr (List.forall₂_iff_zip.mpr ⟨hrefs.1, ?_⟩)
    intro name ref hmem
    have hrefers := (hrefs.2 hmem).mono hkept
    have href := hknown s hs ref (List.of_mem_zip hmem).2
    unfold Reference.isKnown at href
    unfold Reference.resolve
    split at href
    · exact hrefers
    · rename_i waiting hwaiting
      obtain ⟨o, ho⟩ := Option.isSome_iff_exists.mp href
      obtain ⟨t, ht, hname, hoffset⟩ := h.names waiting o ho
      obtain ⟨t', ht', hstatement, hoffset'⟩ := hkept t ht
      rw [RefersTo, hwaiting] at hrefers
      simp only [ho, Option.getD_some]
      refine ⟨t', ht', by rw [hstatement, hname, hrefers], ?_⟩
      rw [hoffset', ← hoffset]
      exact h.toNat_offset ht
  case names =>
    intro name o hlookup
    have hlookup' : b.articles.lookup name = some o := hlookup
    rw [harticles] at hlookup'
    obtain ⟨t, ht, hname, hoffset⟩ := h.names name o hlookup'
    obtain ⟨t', ht', hstatement, hoffset'⟩ := hkept t ht
    exact ⟨t', ht', by rw [hstatement, hname], by rw [hoffset', hoffset]⟩
  case descriptor =>
    intro t ht
    obtain ⟨s, hs, rfl⟩ := List.mem_map.mp ht
    exact h.descriptor s hs
  case size =>
    show b.data.length < maxValidOffset
    rw [hdata, length_flatMap_resolve, ← h.data]
    exact h.size

theorem PoolReady.step {r r' : PoolRun Fields Key} (h : PoolReady format r)
    {statement : PoolStatement Fields Key} (htitles : KeepsTitles r statement)
    (hstep : r.step format statement = some r') : PoolReady format r' := by
  obtain ⟨b, hb, rfl⟩ := Option.map_eq_some_iff.mp hstep
  cases statement with
  | stripNames =>
    cases hb
    exact h.of_options rfl rfl rfl
  | options name options =>
    simp only [ArticlePoolBuilder.step] at hb
    split at hb
    · cases hb
    · cases hb
      exact h.of_options rfl rfl rfl
  | article a => exact h.article hb
  | openFile =>
    cases hb
    exact h.of_options rfl rfl rfl
  | closeFile =>
    simp only [ArticlePoolBuilder.step] at hb
    split at hb
    · cases hb
    · obtain ⟨resolved, hresolve, rfl⟩ := Option.map_eq_some_iff.mp hb
      exact h.closeFile htitles hresolve _ _

theorem PoolReady.run {r r' : PoolRun Fields Key} (h : PoolReady format r)
    {statements : List (PoolStatement Fields Key)} (htitles : AllKeepTitles format r statements)
    (hrun : r.run format statements = some r') : PoolReady format r' := by
  induction statements generalizing r with
  | nil =>
    cases hrun
    exact h
  | cons statement rest ih =>
    rw [PoolRun.run, List.foldlM_cons] at hrun
    obtain ⟨middle, hmiddle, hrest⟩ := Option.bind_eq_some_iff.mp hrun
    exact ih (h.step htitles.1 hmiddle) (htitles.2 middle hmiddle) hrest

theorem not_open_of_build {statements : List (PoolStatement Fields Key)} {r : PoolRun Fields Key}
    (h : build format statements = some r) : ∀ s ∈ r.stored, s.isOpen = false := by
  rw [build, PoolRun.run, List.foldlM_append] at h
  obtain ⟨last, -, hlast⟩ := Option.bind_eq_some_iff.mp h
  rw [List.foldlM_cons] at hlast
  obtain ⟨closed, hclosed, hnil⟩ := Option.bind_eq_some_iff.mp hlast
  cases hnil
  obtain ⟨b, -, rfl⟩ := Option.map_eq_some_iff.mp hclosed
  intro s hs
  obtain ⟨old, -, rfl⟩ := List.mem_map.mp hs
  exact resolve_not_open _ old

theorem PoolReady.fits {r : PoolRun Fields Key} (h : PoolReady format r)
    {s : StoredArticle Fields Key} (hs : s ∈ r.stored) :
    Fits format (s.message format) s.title := by
  obtain ⟨before, after, hsplit⟩ := List.append_of_mem hs
  have hsize := h.size
  rw [h.data, hsplit] at hsize
  simp only [List.flatMap_append, List.flatMap_cons, List.length_append, StoredArticle.bytes,
    entryBytes, maxValidOffset] at hsize
  have hdescriptor : (s.message format).descriptor = s.statement.descriptor := by
    unfold StoredArticle.message clearArticleKeys
    split <;> rfl
  constructor
  · rw [hdescriptor]
    exact h.descriptor s hs
  · omega
  · omega

/-- A scan visits the entries one after the other. -/
theorem scanFrom_flatMap (stored : List (StoredArticle Fields Key))
    (hfits : ∀ s ∈ stored, Fits format (s.message format) s.title) (fuel start : ℕ)
    (hfuel : (stored.flatMap (·.bytes format)).length ≤ fuel)
    (hoffset : ∀ before s after, stored = before ++ s :: after →
      s.offset = start + (before.flatMap (·.bytes format)).length) :
    scanFrom fuel start (stored.flatMap (·.bytes format)) = some (stored.map (·.offset)) := by
  induction stored generalizing fuel start with
  | nil => cases fuel <;> simp [scanFrom]
  | cons s stored ih =>
    have hpos := List.length_pos_iff.mpr
      (@entryBytes_ne_nil _ _ format (s.message format) s.title)
    have hbytes : 0 < (s.bytes format).length := hpos
    have hskip := skip_entryBytes (hfits s List.mem_cons_self) (stored.flatMap (·.bytes format))
    have hne : (s :: stored).flatMap (·.bytes format) ≠ [] := by
      rw [List.flatMap_cons]
      exact List.append_ne_nil_of_left_ne_nil (entryBytes_ne_nil _ _) _
    have hstart : s.offset = start := by
      rw [hoffset [] s stored rfl]
      rfl
    have hnext : ∀ before t after, stored = before ++ t :: after →
        t.offset = start + (s.bytes format).length + (before.flatMap (·.bytes format)).length := by
      rintro before t after rfl
      rw [hoffset (s :: before) t after rfl, List.flatMap_cons, List.length_append]
      omega
    rw [List.flatMap_cons, List.length_append] at hfuel
    cases fuel with
    | zero => omega
    | succ fuel =>
      have hrest := ih (fun t ht => hfits t (List.mem_cons_of_mem _ ht)) fuel
        (start + (s.bytes format).length) (by omega) hnext
      have hlength : (s.bytes format ++ stored.flatMap (·.bytes format)).length -
          (stored.flatMap (·.bytes format)).length = (s.bytes format).length := by
        rw [List.length_append]
        omega
      rw [scanFrom, if_neg hne, List.flatMap_cons]
      rw [show skipEntry (s.bytes format ++ stored.flatMap (·.bytes format)) = _ from hskip]
      simp only [Option.bind_eq_bind, Option.bind_some, hlength, hrest, List.map_cons, hstart]
      rfl

theorem PoolReady.load_eq {r : PoolRun Fields Key} (h : PoolReady format r)
    {s : StoredArticle Fields Key} (hs : s ∈ r.stored) :
    loadArticleAtOffset format r.builder.data s.offset = some (s.message format, s.title) := by
  obtain ⟨before, after, hsplit⟩ := List.append_of_mem hs
  have hdata : r.builder.data = before.flatMap (·.bytes format) ++
      (s.bytes format ++ after.flatMap (·.bytes format)) := by
    rw [h.data, hsplit, List.flatMap_append, List.flatMap_cons]
  rw [hdata, h.offset before s after hsplit]
  exact load_entryBytes (h.fits hs) _ _

theorem PoolReady.scan_eq {r : PoolRun Fields Key} (h : PoolReady format r) :
    ArticlePoolBuilder.scan r.builder.data = some (r.stored.map (·.offset)) := by
  rw [ArticlePoolBuilder.scan, h.data]
  apply scanFrom_flatMap r.stored (fun s hs => h.fits hs) _ 0 le_rfl
  intro before s after hsplit
  rw [h.offset before s after hsplit, Nat.zero_add]

theorem PoolReady.ids {r : PoolRun Fields Key} (h : PoolReady format r)
    {s : StoredArticle Fields Key} (hs : s ∈ r.stored) (hopen : s.isOpen = false) :
    List.Forall₂ (fun name id => ∃ t ∈ r.stored, t.statement.name = name ∧ id.toNat = t.offset)
      s.statement.references (s.refs.map (·.id)) := by
  have hrefs := List.forall₂_iff_zip.mp (h.refs s hs)
  refine List.forall₂_map_right_iff.mpr (List.forall₂_iff_zip.mpr ⟨hrefs.1, ?_⟩)
  intro name ref hmem
  have hnone : ref.unresolved = none := by
    rw [StoredArticle.isOpen, List.any_eq_false] at hopen
    simpa using hopen ref (List.of_mem_zip hmem).2
  have hrefers := hrefs.2 hmem
  rw [RefersTo, hnone] at hrefers
  exact hrefers

end Steps

/-- After a build in which no title is changed by the second writing, the pool round-trips. -/
theorem build_roundTrips (statements : List (PoolStatement Fields Key)) (r : PoolRun Fields Key)
    (h : build format statements = some r)
    (htitles : AllKeepTitles format {} (PoolStatement.openFile :: statements ++
      [PoolStatement.closeFile])) : RoundTrips format r := by
  have hready := PoolReady.initial.run htitles h
  constructor
  case load =>
    intro s hs
    exact ⟨s.refs.map Reference.id, hready.load_eq hs, hready.ids hs (not_open_of_build h s hs)⟩
  case scan => exact hready.scan_eq

/-- A small format: a byte for each key, a zero byte, and four bytes for each id. -/
def sampleSerializeId (id : UInt32) : List UInt8 :=
  [UInt8.ofNat id.toNat, UInt8.ofNat (id.toNat / 2 ^ 8), UInt8.ofNat (id.toNat / 2 ^ 16),
    UInt8.ofNat (id.toNat / 2 ^ 24)]

def sampleParseIds : List UInt8 → List UInt32
  | a :: b :: c :: d :: rest =>
    UInt32.ofNat (a.toNat + b.toNat * 2 ^ 8 + c.toNat * 2 ^ 16 + d.toNat * 2 ^ 24) ::
      sampleParseIds rest
  | _ => []

def sampleParseKeys : List UInt8 → Option (List Bool × List UInt8)
  | [] => none
  | byte :: rest =>
    if byte = 0 then some ([], rest)
    else (sampleParseKeys rest).map fun r => (decide (byte = 2) :: r.1, r.2)

theorem sampleParseIds_serialize (ids : List UInt32) :
    sampleParseIds (ids.flatMap sampleSerializeId) = ids := by
  induction ids with
  | nil => rfl
  | cons id ids ih =>
    have hid := id.toNat_lt
    have hbytes : (UInt8.ofNat id.toNat).toNat + (UInt8.ofNat (id.toNat / 2 ^ 8)).toNat * 2 ^ 8 +
        (UInt8.ofNat (id.toNat / 2 ^ 16)).toNat * 2 ^ 16 +
        (UInt8.ofNat (id.toNat / 2 ^ 24)).toNat * 2 ^ 24 = id.toNat := by
      simp only [UInt8.toNat_ofNat']
      omega
    rw [List.flatMap_cons, sampleSerializeId]
    simp only [List.cons_append, List.nil_append, sampleParseIds]
    rw [ih, hbytes, UInt32.ofNat_toNat]

theorem sampleParseKeys_serialize (keys : List Bool) (rest : List UInt8) :
    sampleParseKeys (keys.map (fun k => if k then 2 else 1) ++ 0 :: rest) = some (keys, rest) := by
  induction keys with
  | nil => rfl
  | cons key keys ih =>
    rw [List.map_cons, List.cons_append, sampleParseKeys, ih]
    cases key <;> rfl

def sampleFormat : MessageFormat Unit Bool where
  descriptorCount := 2
  descriptorCount_le := by omega
  hasRepeatedKeys _ := true
  isCustom key := key
  serialize m := m.keys.map (fun k => if k then 2 else 1) ++ 0 :: m.refs.flatMap sampleSerializeId
  parse descriptor bytes := (sampleParseKeys bytes).map fun r =>
    ⟨descriptor, r.1, (), sampleParseIds r.2⟩
  parse_serialize m := by
    rw [sampleParseKeys_serialize, Option.map_some, sampleParseIds_serialize]
  length_serialize m refs h := by
    simp [List.length_flatMap, sampleSerializeId, h]

instance KeepsTitles.decidable {Fields Key : Type} (r : PoolRun Fields Key) :
    ∀ statement, Decidable (KeepsTitles r statement)
  | .stripNames => isTrue trivial
  | .options _ _ => isTrue trivial
  | .article _ => isTrue trivial
  | .openFile => isTrue trivial
  | .closeFile => inferInstanceAs (Decidable (∀ s ∈ r.stored, s.isOpen = true →
      savedTitle r.builder.options s.statement.name = s.title))

instance AllKeepTitles.decidable {Fields Key : Type} (format : MessageFormat Fields Key) :
    ∀ statements (r : PoolRun Fields Key), Decidable (AllKeepTitles format r statements)
  | [], _ => isTrue trivial
  | statement :: rest, r =>
    match h : step format r statement with
    | none => decidable_of_iff (KeepsTitles r statement)
        ⟨fun hkeeps => ⟨hkeeps, fun _ hstep => by simp [h] at hstep⟩, fun hall => hall.1⟩
    | some r' =>
      have := AllKeepTitles.decidable format rest r'
      decidable_of_iff (KeepsTitles r statement ∧ AllKeepTitles format r' rest)
        ⟨fun hall => ⟨hall.1, fun _ hstep => by cases h.symm.trans hstep; exact hall.2⟩,
          fun hall => ⟨hall.1, hall.2 r' h⟩⟩

/-- The articles `x` and `y` name each other. -/
def sampleStatements : List (PoolStatement Unit Bool) :=
  [.article ⟨[120], 0, [false], (), [[121]]⟩, .article ⟨[121], 1, [true], (), [[120]]⟩]

theorem build_roundTrips_sampleStatements : ∃ r, build sampleFormat sampleStatements = some r ∧
    RoundTrips sampleFormat r := by
  have hbuild : (build sampleFormat sampleStatements).isSome = true := by decide +kernel
  obtain ⟨r, h⟩ := Option.isSome_iff_exists.mp hbuild
  exact ⟨r, h, build_roundTrips sampleFormat sampleStatements r h (by decide +kernel)⟩

/-- The titles are switched off after `x` is stored, and `x` gets shorter when it is written once
more. -/
def strippedStatements : List (PoolStatement Unit Bool) :=
  sampleStatements ++ [.options [] ⟨false, true⟩]

theorem strippedStatements_not_roundTrips :
    ∃ r, build sampleFormat strippedStatements = some r ∧ ¬ RoundTrips sampleFormat r := by
  have hbuild : (build sampleFormat strippedStatements).isSome = true := by decide +kernel
  have hscan : (build sampleFormat strippedStatements).all (fun r =>
      ArticlePoolBuilder.scan r.builder.data != some (r.stored.map (·.offset))) =
        true := by decide +kernel
  obtain ⟨r, h⟩ := Option.isSome_iff_exists.mp hbuild
  rw [h, Option.all_some] at hscan
  exact ⟨r, h, fun hround => bne_iff_ne.mp hscan hround.scan⟩

end PoolRun
end TomitaParser.Gzt
