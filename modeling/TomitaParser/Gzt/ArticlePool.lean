import TomitaParser.Lib.Varint
/-! # Article pool

Articles are written one after the other into the data of the pool. References to articles that are
not known yet are filled in at the end of the file, by writing the article once more over its place.
-/

namespace TomitaParser.Gzt

/-- The UTF-8 text of a name. -/
abbrev ArticleName := List UInt8

/-- A message: its type, its keys, its references and its other fields. -/
structure Message (Fields Key : Type) where
  descriptor : ℕ
  keys : List Key
  fields : Fields
  refs : List UInt32
deriving DecidableEq

/-- The message types, and how messages are serialized. The id of a reference has a fixed size. -/
structure MessageFormat (Fields Key : Type) where
  descriptorCount : ℕ
  descriptorCount_le : descriptorCount ≤ 2 ^ 32
  /-- The type has a repeated field for its keys (`GetSearchKeyField`). -/
  hasRepeatedKeys : ℕ → Bool
  isCustom : Key → Bool
  serialize : Message Fields Key → List UInt8
  parse : ℕ → List UInt8 → Option (Message Fields Key)
  parse_serialize : ∀ m, parse m.descriptor (serialize m) = some m
  length_serialize : ∀ m refs, refs.length = m.refs.length →
    (serialize { m with refs := refs }).length = (serialize m).length

/-- The options of a file that matter here (`TGztOptions`). -/
structure GztOptions where
  storeArticleTitles : Bool := true
  propagate : Bool := true
deriving DecidableEq, Repr

/-- A reference of an article that is built: its id, and the name it waits for. -/
structure Reference where
  id : UInt32
  unresolved : Option ArticleName := none
deriving DecidableEq, Repr

/-- An article as it is built. -/
structure Draft (Fields Key : Type) where
  descriptor : ℕ
  keys : List Key
  fields : Fields
  refs : List Reference
deriving DecidableEq

def Draft.message {Fields Key : Type} (d : Draft Fields Key) : Message Fields Key where
  descriptor := d.descriptor
  keys := d.keys
  fields := d.fields
  refs := d.refs.map (·.id)

/-- A reference gets the offset of the article that it waits for. -/
def Reference.resolve (articles : List (ArticleName × ℕ)) (r : Reference) : Reference :=
  match r.unresolved with
  | none => r
  | some name => ⟨UInt32.ofNat ((articles.lookup name).getD 0), none⟩

def Draft.resolve {Fields Key : Type} (articles : List (ArticleName × ℕ)) (d : Draft Fields Key) :
    Draft Fields Key :=
  { d with refs := d.refs.map (Reference.resolve articles) }

/-- The name that a reference waits for is known. -/
def Reference.isKnown (articles : List (ArticleName × ℕ)) (r : Reference) : Bool :=
  match r.unresolved with
  | none => true
  | some name => (articles.lookup name).isSome

/-- `TUnresolvedArticleInfo`. -/
structure UnresolvedArticle (Fields Key : Type) where
  article : Draft Fields Key
  name : ArticleName
  offset : ℕ
deriving DecidableEq

/-- The statement of an article. -/
structure ArticleStatement (Fields Key : Type) where
  name : ArticleName
  descriptor : ℕ
  keys : List Key
  fields : Fields
  references : List ArticleName
deriving DecidableEq

/-- What the builder meets: statements, and the beginning and the end of a file. -/
inductive PoolStatement (Fields Key : Type) where
  | stripNames
  | options (name : ArticleName) (options : GztOptions)
  | article (a : ArticleStatement Fields Key)
  | openFile
  | closeFile

/-- `TArticlePoolBuilder`, with the options of the files that are open. -/
structure ArticlePoolBuilder (Fields Key : Type) where
  data : List UInt8 := []
  articles : List (ArticleName × ℕ) := []
  unresolved : List (UnresolvedArticle Fields Key) := []
  options : GztOptions := {}
  backups : List GztOptions := []
deriving DecidableEq

namespace ArticlePoolBuilder
variable {Fields Key : Type} (format : MessageFormat Fields Key)

/-- `ClearArticleKeys`: custom keys stay. -/
def clearArticleKeys (m : Message Fields Key) : Message Fields Key :=
  if format.hasRepeatedKeys m.descriptor && !m.keys.any format.isCustom then { m with keys := [] }
  else m

/-- The title that is saved for a name. -/
def savedTitle (options : GztOptions) (name : ArticleName) : ArticleName :=
  if options.storeArticleTitles then name else []

/-- The bytes of an entry. -/
def entryBytes (m : Message Fields Key) (title : ArticleName) : List UInt8 :=
  Varint.write32 m.descriptor ++
    (Varint.write32 (format.serialize m).length ++ (format.serialize m ++
      (Varint.write32 title.length ++ title)))

/-- `SaveArticle`. -/
def saveArticle (options : GztOptions) (name : ArticleName) (m : Message Fields Key) : List UInt8 :=
  entryBytes format (clearArticleKeys format m) (savedTitle options name)

/-- `MaxValidOffset`. -/
def maxValidOffset : ℕ := 2 ^ 31 - 1

/-- `StoreArticle`: the offset of the article, or an error if the pool gets too large. -/
def storeArticle (b : ArticlePoolBuilder Fields Key) (name : ArticleName) (m : Message Fields Key) :
    Option (ArticlePoolBuilder Fields Key × ℕ) :=
  let data := b.data ++ saveArticle format b.options name m
  if data.length < maxValidOffset then
    -- only named articles are remembered
    some ({ b with
      data := data
      articles := if name = [] then b.articles else b.articles ++ [(name, b.data.length)] },
      b.data.length)
  else none

/-- `ResolveReference`. -/
def resolveReference (b : ArticlePoolBuilder Fields Key) (name : ArticleName) : Reference :=
  match b.articles.lookup name with
  | some offset => ⟨UInt32.ofNat offset, none⟩
  | none => ⟨UInt32.ofNat (2 ^ 32 - 1), some name⟩

/-- `BuildArticle`. -/
def buildArticle (b : ArticlePoolBuilder Fields Key) (a : ArticleStatement Fields Key) :
    Option (ArticlePoolBuilder Fields Key) :=
  if (b.articles.lookup a.name).isSome then none
  else if format.descriptorCount ≤ a.descriptor then none
  else
    let article : Draft Fields Key :=
      ⟨a.descriptor, a.keys, a.fields, a.references.map b.resolveReference⟩
    (storeArticle format b a.name article.message).map fun r =>
      if article.refs.any (·.unresolved.isSome) then
        { r.1 with unresolved := r.1.unresolved ++ [⟨article, a.name, r.2⟩] }
      else r.1

/-- The size of the blocks in which a stream adaptor writes. -/
def blockSize : ℕ := 8192

/-- What is written into a memory of `available` bytes: the block that does not fit and all blocks
after it are lost. -/
def written (available : ℕ) (bytes : List UInt8) : List UInt8 :=
  if bytes.length ≤ available then bytes
  else bytes.take (blockSize * (available / blockSize))

/-- Writing over the data from an offset on. -/
def overwrite (data : List UInt8) (offset : ℕ) (bytes : List UInt8) : List UInt8 :=
  let new := written (data.length - offset) bytes
  data.take offset ++ (new ++ data.drop (offset + new.length))

/-- `UpdateResolved`. -/
def updateResolved (b : ArticlePoolBuilder Fields Key) (u : UnresolvedArticle Fields Key) :
    ArticlePoolBuilder Fields Key :=
  let entry := saveArticle format b.options u.name (u.article.resolve b.articles).message
  { b with data := overwrite b.data u.offset entry }

/-- `TUnresolvedRefs::Resolve`. -/
def resolve (b : ArticlePoolBuilder Fields Key) : Option (ArticlePoolBuilder Fields Key) :=
  if b.unresolved.all fun u => u.article.refs.all (Reference.isKnown b.articles) then
    some { b.unresolved.foldl (updateResolved format) b with unresolved := [] }
  else none

/-- One statement. The options of a file are dropped at its end, after its references are resolved.
-/
def step (b : ArticlePoolBuilder Fields Key) : PoolStatement Fields Key →
    Option (ArticlePoolBuilder Fields Key)
  | .stripNames => some { b with options := { b.options with storeArticleTitles := false } }
  | .options name options =>
    if (b.articles.lookup name).isSome then none else some { b with options := options }
  | .article a => buildArticle format b a
  | .openFile =>
    some { b with options := if b.options.propagate then b.options else {},
                  backups := b.options :: b.backups }
  | .closeFile =>
    match b.backups with
    | [] => none
    | original :: backups =>
      (resolve format b).map fun b => { b with options := original, backups := backups }

/-- The statements of a file: the pool after a build without an error. -/
def build (statements : List (PoolStatement Fields Key)) : Option (ArticlePoolBuilder Fields Key) :=
  (PoolStatement.openFile :: statements ++ [PoolStatement.closeFile]).foldlM (step format) {}

/-- `ReadDescriptorIndex`. -/
def readDescriptorIndex (bytes : List UInt8) : Option (ℕ × List UInt8) :=
  (Varint.read32 bytes).filter fun r => decide (r.1 < format.descriptorCount)

/-- `ReadBody`. -/
def readBody (descriptor : ℕ) (bytes : List UInt8) : Option (Message Fields Key × List UInt8) := do
  let (size, rest) ← Varint.read32 bytes
  let m ← format.parse descriptor (rest.take size)
  if rest.length < size then none else some (m, rest.drop size)

/-- `GetDirectTitleBuffer`. -/
def readTitle (bytes : List UInt8) : Option (ArticleName × List UInt8) := do
  let (size, rest) ← Varint.read32 bytes
  if rest.length < size then none else some (rest.take size, rest.drop size)

/-- `LoadArticleAtOffset`. -/
def loadArticleAtOffset (data : List UInt8) (offset : ℕ) :
    Option (Message Fields Key × ArticleName) := do
  if data.length ≤ offset then none
  else
    let (descriptor, rest) ← readDescriptorIndex format (data.drop offset)
    let (m, rest) ← readBody format descriptor rest
    let (title, _) ← readTitle rest
    return (m, title)

/-- The size word and so many bytes are skipped. -/
def skipSized (bytes : List UInt8) : Option (List UInt8) := do
  let (size, rest) ← Varint.read32 bytes
  if rest.length < size then none else some (rest.drop size)

/-- `SkipEntry`. -/
def skipEntry (bytes : List UInt8) : Option (List UInt8) := do
  let (_, rest) ← Varint.read32 bytes
  let rest ← skipSized rest
  skipSized rest

/-- The offsets that a scanner visits from `offset` on, or nothing if an entry cannot be skipped. -/
def scanFrom : ℕ → ℕ → List UInt8 → Option (List ℕ)
  | 0, _, bytes => if bytes = [] then some [] else none
  | fuel + 1, offset, bytes =>
    if bytes = [] then some []
    else do
      let rest ← skipEntry bytes
      let offsets ← scanFrom fuel (offset + (bytes.length - rest.length)) rest
      return offset :: offsets

/-- `TArticleScanner` over all data. -/
def scan (data : List UInt8) : Option (List ℕ) := scanFrom data.length 0 data

end ArticlePoolBuilder
end TomitaParser.Gzt
