import TomitaParser.Glr.ItemOptions
import TomitaParser.Lib.Codec
/-! # Saved grammar items

An item is saved field by field. Its store is saved without `m_lreg`, in whose place
`m_name_morph_dict` is saved twice. So an item whose `m_lreg` stands in the store alone does not
come back as it was, and that is so of every item that has been loaded before. -/

namespace TomitaParser.Items

/-- `Stroka`. -/
def strokaCodec : Codec Stroka := .list .byte

/-- `Wtroka`. -/
def wtrokaCodec : Codec Wtroka := .list .unit16

def postfixCodec : Codec ItemPostfix :=
  .enum [.noPrep, .noHomonyms, .allLet, .firstLet, .secondLet, .not, .latin, .dictOrg, .dictGeo,
    .dictName, .yes, .postfixCount] .postfixCount fun x => by cases x <;> decide

def applyPlaceCodec : Codec ApplyPlace :=
  .enum [.firstWord, .lastWord, .mainWord] .mainWord fun x => by cases x <;> decide

def simpleItemCodec : Codec SimpleItem :=
  .enum [.siUnknown, .siString, .siMeta, .siRomanNumber, .siFileList, .siMorphologicalyUnknown,
    .siMorphPattern, .siNumber, .siAnyWord] .siUnknown fun x => by cases x <;> decide

/-- `ymap<Stroka, Stroka>`: the entries in order, put into an empty map. -/
def attributesCodec : Codec (OrderedMap Stroka Stroka) :=
  (Codec.list (strokaCodec.pair strokaCodec)).via OrderedMap.entries OrderedMap.empty.insertAll
    OrderedMap.insertAll_entries

/-- `TGramBitSet`: the numbers of the grammemes. -/
def grammemsCodec : Codec (Finset ℕ) :=
  (Codec.list .word).via (fun g => g.sort (· ≤ ·)) List.toFinset fun g =>
    Finset.sort_toFinset g (· ≤ ·)

section Format
variable {Descriptor : Type} [DecidableEq Descriptor]

/-- `TKeyWordType`, by its index in the pool. The null type comes first. -/
def kwTypeCodec (pool : List Descriptor) : Codec (Option Descriptor) :=
  .indexed (none :: pool.map some)

def artPointerCodec (pool : List Descriptor) : Codec (ArtPointer Descriptor) :=
  (wtrokaCodec.pair (kwTypeCodec pool)).via (fun a => (a.strArt, a.kwType)) (fun r => ⟨r.1, r.2⟩)
    fun _ => rfl

/-- `CWordFormRegExp`: loading it compiles the pattern, if there is one. -/
def wordFormRegExpCodec (context : ItemContext Descriptor) : Codec WordFormRegExp :=
  ((Codec.bool.pair (applyPlaceCodec.pair strokaCodec)).checked fun r =>
    r.2.2 = [] ∨ context.compiles r.2.2).via (fun r => (r.isNegative, r.place, r.regexPattern))
      (fun r => ⟨r.2.1, r.1, r.2.2⟩) fun _ => rfl

/-- What `SPostfixStore::Save` writes, in its order. -/
abbrev SavedStore (Descriptor : Type) :=
  ItemPostfix × ItemPostfix × ItemPostfix × ItemPostfix × ItemPostfix × ItemPostfix ×
  ItemPostfix × ItemPostfix × ItemPostfix × ItemPostfix × ItemPostfix × ItemPostfix ×
  ItemPostfix × ItemPostfix × Bool × ArtPointer Descriptor × ArtPointer Descriptor ×
  ArtPointer Descriptor × ArtPointer Descriptor × WordFormRegExp

/-- `SPostfixStore::Save`, with `m_name_morph_dict` in the place of `m_lreg`. -/
def PostfixStore.fields (s : PostfixStore Descriptor) : SavedStore Descriptor :=
  (s.hom, s.noHomonyms, s.hReg, s.hReg1, s.hReg2, s.dict, s.lat, s.orgMorphDict, s.geoMorphDict,
    s.nameMorphDict, s.nameMorphDict, s.fw, s.isMultiword, s.excludeFromNormalization,
    s.isNoneKWType, s.dictKWType, s.dictNotKWType, s.dictLabel, s.dictNotLabel, s.wordRegExp)

/-- `SPostfixStore::Load` into a new store: `m_name_morph_dict` is loaded twice. -/
def PostfixStore.ofFields : SavedStore Descriptor → PostfixStore Descriptor
  | (hom, nohomonyms, hReg, hReg1, hReg2, dict, lat, orgMorphDict, geoMorphDict, _, nameMorphDict,
      fw, isMultiword, excludeFromNormalization, isNoneKWType, dictKWType, dictNotKWType,
      dictLabel, dictNotLabel, wordRegExp) =>
    { hom, noHomonyms := nohomonyms, hReg, hReg1, hReg2, dict, lat, orgMorphDict, geoMorphDict,
      nameMorphDict, fw, isMultiword, excludeFromNormalization, isNoneKWType, dictKWType,
      dictNotKWType, dictLabel, dictNotLabel, wordRegExp }

def savedStoreCodec (context : ItemContext Descriptor) (pool : List Descriptor) :
    Codec (SavedStore Descriptor) :=
  let p := postfixCodec
  let art := artPointerCodec pool
  p.pair <| p.pair <| p.pair <| p.pair <| p.pair <| p.pair <| p.pair <| p.pair <| p.pair <|
  p.pair <| p.pair <| p.pair <| p.pair <| p.pair <| Codec.bool.pair <| art.pair <| art.pair <|
  art.pair <| art.pair <| wordFormRegExpCodec context

/-- What `CGrammarItem::Save` writes, in its order. -/
abbrev SavedItem (Descriptor : Type) :=
  SimpleItem × Stroka × Wtroka × OrderedMap Stroka Stroka × Stroka × Finset ℕ × Finset ℕ ×
  Stroka × Bool × Bool × Bool × List Int64 × SavedStore Descriptor

namespace GrammarItem

def fields (x : GrammarItem Descriptor) : SavedItem Descriptor :=
  (x.type, x.itemStrId, x.itemLemma, x.attributes, x.source, x.itemGrammems,
    x.negativeItemGrammems, x.grmAttribute, x.grammarRoot, x.synMain, x.canHaveManyHomonyms,
    x.replaceInterp, x.postfixStore.fields)

def ofFields : SavedItem Descriptor → GrammarItem Descriptor
  | (type, itemStrId, itemLemma, attributes, source, itemGrammems, negativeItemGrammems,
      grmAttribute, grammarRoot, synMain, canHaveManyHomonyms, replaceInterp, store) =>
    { type, itemStrId, itemLemma, attributes, source, itemGrammems, negativeItemGrammems,
      grmAttribute, grammarRoot, synMain, canHaveManyHomonyms, replaceInterp,
      postfixStore := .ofFields store }

end GrammarItem

def savedItemCodec (context : ItemContext Descriptor) (pool : List Descriptor) :
    Codec (SavedItem Descriptor) :=
  simpleItemCodec.pair <| strokaCodec.pair <| wtrokaCodec.pair <| attributesCodec.pair <|
  strokaCodec.pair <| grammemsCodec.pair <| grammemsCodec.pair <| strokaCodec.pair <|
  Codec.bool.pair <| Codec.bool.pair <| Codec.bool.pair <| (Codec.list .int64).pair <|
  savedStoreCodec context pool

namespace GrammarItem
variable (context : ItemContext Descriptor) (pool : List Descriptor)

/-- `CGrammarItem::Save`. -/
def save (x : GrammarItem Descriptor) : Option (List UInt8) :=
  (savedItemCodec context pool).save x.fields

/-- `CGrammarItem::Load` into a new item. -/
def load (bytes : List UInt8) : Option (GrammarItem Descriptor × List UInt8) := do
  let (saved, rest) ← (savedItemCodec context pool).load bytes
  let x ← (ofFields saved).settle context
  return (x, rest)

/-- An item that is saved and loaded again. -/
def reload (x : GrammarItem Descriptor) : Option (GrammarItem Descriptor) := do
  let bytes ← x.save context pool
  let (y, _) ← load context pool bytes
  return y

/-- The sizes of an item fit into words, its types are in the pool and its pattern compiles. -/
def Storable (x : GrammarItem Descriptor) : Prop := (savedItemCodec context pool).valid x.fields

variable {context : ItemContext Descriptor} {pool : List Descriptor} {x y : GrammarItem Descriptor}

omit [DecidableEq Descriptor] in
theorem ofFields_fields (x : GrammarItem Descriptor) : ofFields x.fields = x.forgetLReg := rfl

theorem load_save (hx : x.Storable context pool) : ∃ bytes, x.save context pool = some bytes ∧
    ∀ rest, load context pool (bytes ++ rest) = (x.forgetLReg.settle context).map (·, rest) := by
  obtain ⟨bytes, hsave, hload⟩ := (savedItemCodec context pool).load_save x.fields hx
  refine ⟨bytes, hsave, fun rest => ?_⟩
  rw [load, hload rest]
  change (Option.bind ((ofFields x.fields).settle context) fun y => some (y, rest)) = _
  rw [ofFields_fields]
  cases x.forgetLReg.settle context <;> rfl

theorem reload_eq_settle (hx : x.Storable context pool) :
    x.reload context pool = x.forgetLReg.settle context := by
  obtain ⟨bytes, hsave, hload⟩ := load_save hx
  have hload' := hload []
  rw [List.append_nil] at hload'
  rw [reload, hsave]
  change (Option.bind (load context pool bytes) fun r => some r.1) = _
  rw [hload']
  cases x.forgetLReg.settle context <;> rfl

theorem reload_same_settle (hx : x.Storable context pool) (hy : x.settle context = some y) :
    (∃ z, x.reload context pool = some z ∧ z.SameForParsing y) ↔
      x.attributes.find (alphabetPrefix .lReg) ≠ none ∨ x.postfixStore.lReg = .postfixCount := by
  rw [reload_eq_settle hx]
  cases hfind : x.attributes.find (alphabetPrefix .lReg) with
  | some value =>
    rw [settle_forgetLReg_of_attribute hfind, hy]
    simp [sameForParsing_refl]
  | none =>
    obtain ⟨hforget, hreg⟩ := @settle_forgetLReg_of_none _ context _ hfind
    rw [hforget, hy, ← hreg y hy]
    simp [sameForParsing_forgetLReg]

theorem reload_same (hx : x.Storable context pool) :
    (∃ z, x.reload context pool = some z ∧ z.SameForParsing x) ↔
      (∀ pref, x.attributes.find (alphabetPrefix pref) = none) ∧
        x.postfixStore.lReg = .postfixCount := by
  constructor
  · rintro ⟨z, hz, hsame⟩
    rw [reload_eq_settle hx] at hz
    have hnone : ∀ pref, x.attributes.find (alphabetPrefix pref) = none := fun pref => by
      rw [← hsame.attributes]
      exact find_settle hz pref
    refine ⟨hnone, ?_⟩
    rw [@settle_of_find_eq_none _ _ x.forgetLReg hnone, Option.some.injEq] at hz
    rw [← hsame.lReg, ← hz]
    rfl
  · rintro ⟨hnone, hreg⟩
    rw [reload_eq_settle hx]
    exact ⟨x.forgetLReg, @settle_of_find_eq_none _ _ x.forgetLReg hnone,
      sameForParsing_forgetLReg.mpr hreg⟩

theorem find_of_load {bytes rest : List UInt8} (hload : load context pool bytes = some (x, rest))
    (pref : ItemPrefix) : x.attributes.find (alphabetPrefix pref) = none := by
  rw [load] at hload
  obtain ⟨⟨saved, rest'⟩, -, hsettle⟩ := Option.bind_eq_some_iff.mp hload
  obtain ⟨y, hy, heq⟩ := Option.bind_eq_some_iff.mp hsettle
  have hyx : y = x := congrArg Prod.fst (Option.some.inj heq)
  exact find_settle (hyx ▸ hy) pref

/-- The exact condition. An item that has been compiled comes back with its options settled unless
`m_lreg` is set in its store alone, and one that has been loaded comes back as it was unless
`m_lreg` is set. -/
theorem reload_exact (hx : x.Storable context pool) :
    (∀ y, x.settle context = some y →
      ((∃ z, x.reload context pool = some z ∧ z.SameForParsing y) ↔
        x.attributes.find (alphabetPrefix .lReg) ≠ none ∨ x.postfixStore.lReg = .postfixCount)) ∧
    ((∃ bytes rest, load context pool bytes = some (x, rest)) →
      ((∃ z, x.reload context pool = some z ∧ z.SameForParsing x) ↔
        x.postfixStore.lReg = .postfixCount)) := by
  constructor
  · intro y hy
    exact reload_same_settle hx hy
  · rintro ⟨bytes, rest, hload⟩
    rw [reload_same hx]
    exact and_iff_right fun pref => find_of_load hload pref

end GrammarItem
end Format

section Example
open GrammarItem

def plainContext : ItemContext ℕ := ⟨fun _ => none, some, fun _ => true⟩

/-- A nonterminal with some attributes and a value of `m_lreg`. -/
def itemN (attributes : OrderedMap Stroka Stroka) (lReg : ItemPostfix) : GrammarItem ℕ :=
  { type := .siMeta
    itemStrId := ascii "N"
    attributes
    postfixStore := { lReg } }

/-- The nonterminal with `<l-reg>`, as it is compiled. -/
def compiledItem : GrammarItem ℕ :=
  itemN (OrderedMap.empty.insert (ascii "LReg") (ascii "all")) .postfixCount

theorem postfixCodec_valid (p : ItemPostfix) : postfixCodec.valid p :=
  Codec.enum_valid (by decide) p

theorem strokaCodec_valid {s : Stroka} (hlength : s.length < 2 ^ 32) (hs : ∀ c ∈ s, c < 2 ^ 8) :
    strokaCodec.valid s := ⟨hlength, hs⟩

theorem artPointerCodec_valid : (artPointerCodec ([] : List ℕ)).valid {} :=
  ⟨Codec.list_valid_nil _, List.mem_cons_self, by decide⟩

theorem wordFormRegExpCodec_valid : (wordFormRegExpCodec plainContext).valid {} :=
  ⟨⟨Codec.bool_valid _, Codec.enum_valid (by decide) _, Codec.list_valid_nil _⟩, by decide⟩

theorem storable_itemN {attributes : OrderedMap Stroka Stroka} (lReg : ItemPostfix)
    (h : attributesCodec.valid attributes) : (itemN attributes lReg).Storable plainContext [] := by
  have hname : strokaCodec.valid (ascii "N") := strokaCodec_valid (by decide) (by decide)
  have hsource : strokaCodec.valid (ascii "<empty>") := strokaCodec_valid (by decide) (by decide)
  have hgrammems : grammemsCodec.valid ∅ := by
    simp [grammemsCodec, Codec.via, Codec.list]
  have hart := artPointerCodec_valid
  refine ⟨Codec.enum_valid (by decide) _, hname, Codec.list_valid_nil _, h, hsource, hgrammems,
    hgrammems, Codec.list_valid_nil _, Codec.bool_valid _, Codec.bool_valid _, Codec.bool_valid _,
    Codec.list_valid_nil _, ?_⟩
  simp only [savedStoreCodec, Codec.pair, postfixCodec_valid, Codec.bool_valid, true_and]
  exact ⟨hart, hart, hart, hart, wordFormRegExpCodec_valid⟩

theorem storable_compiledItem : compiledItem.Storable plainContext [] := by
  apply storable_itemN
  refine ⟨by decide, fun e he => ?_⟩
  have he : e = (ascii "LReg", ascii "all") := List.mem_singleton.mp he
  rw [he]
  exact ⟨strokaCodec_valid (by decide) (by decide), strokaCodec_valid (by decide) (by decide)⟩

theorem storable_loadedItem : (itemN .empty .allLet).Storable plainContext [] :=
  storable_itemN _ (Codec.list_valid_nil _)

/-- The compiled nonterminal comes back with its option settled. -/
theorem reload_exact_compiledItem :
    ∃ z, compiledItem.reload plainContext [] = some z ∧ z.SameForParsing (itemN .empty .allLet) :=
  ((reload_exact storable_compiledItem).1 _ rfl).mpr (Or.inl (by decide))

/-- Saved and loaded once more, it does not. -/
theorem reload_twice_compiledItem :
    compiledItem.reload plainContext [] = some (itemN .empty .allLet) ∧
    ¬ ∃ z, (itemN .empty .allLet).reload plainContext [] = some z ∧
      z.SameForParsing (itemN .empty .allLet) := by
  constructor
  · rw [reload_eq_settle storable_compiledItem]
    rfl
  · rw [reload_same storable_loadedItem]
    exact fun h => absurd h.2 (by decide)

end Example

end TomitaParser.Items
