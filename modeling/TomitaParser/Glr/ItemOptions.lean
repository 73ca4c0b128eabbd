import Mathlib.Data.Finset.Sort
import Mathlib.Data.List.Lex
import TomitaParser.Lib.OrderedMap
/-! # Options of a grammar item

The compiler leaves the options of an item in its attributes, under the names of the options. They
are read from the store of the item, where the attributes are put when the item is loaded. -/

namespace TomitaParser.Items

/-- `Stroka`, by its bytes. -/
abbrev Stroka := List ℕ

/-- `Wtroka`, by its code units. -/
abbrev Wtroka := List ℕ

def ascii (s : String) : Stroka := s.toList.map Char.toNat

/-- `ePrefix`. -/
inductive ItemPrefix where
  | hom | noHoms | excludeFromNorm | hReg | hReg1 | hReg2 | dict | lat | organ | geo | nameDic
  | lReg | dictKWType | dictNotKWType | replaceInterp | regExp | notRegExp | firstLetInSent
  | isMultiword | dictLabel | dictNotLabel
deriving DecidableEq

/-- The prefixes in the order of `ePrefix`. -/
def ItemPrefix.all : List ItemPrefix :=
  [.hom, .noHoms, .excludeFromNorm, .hReg, .hReg1, .hReg2, .dict, .lat, .organ, .geo, .nameDic,
    .lReg, .dictKWType, .dictNotKWType, .replaceInterp, .regExp, .notRegExp, .firstLetInSent,
    .isMultiword, .dictLabel, .dictNotLabel]

/-- `AlphabetPrefix`. -/
def alphabetPrefix : ItemPrefix → Stroka
  | .hom => ascii "Hom"
  | .noHoms => ascii "N0Homonym"
  | .excludeFromNorm => ascii "ExcludeFromNorm"
  | .hReg => ascii "HReg"
  | .hReg1 => ascii "HReg1"
  | .hReg2 => ascii "HReg2"
  | .dict => ascii "Dict"
  | .lat => ascii "Lat"
  | .organ => ascii "Org"
  | .geo => ascii "Geo"
  | .nameDic => ascii "Name"
  | .lReg => ascii "LReg"
  | .dictKWType => ascii "KWType"
  | .dictNotKWType => ascii "NotKWType"
  | .replaceInterp => ascii "ReplaceInterp"
  | .regExp => ascii "RegExp"
  | .notRegExp => ascii "NotRegExp"
  | .firstLetInSent => ascii "FirstLetInSent"
  | .isMultiword => ascii "IsMultiword"
  | .dictLabel => ascii "Label"
  | .dictNotLabel => ascii "NotLabel"

/-- `ePostfix`. -/
inductive ItemPostfix where
  | noPrep | noHomonyms | allLet | firstLet | secondLet | not | latin | dictOrg | dictGeo | dictName
  | yes | postfixCount
deriving DecidableEq

/-- `AttributeValues`. -/
def attributeValues : List (Stroka × ItemPostfix) :=
  [(ascii "not_prep", .noPrep), (ascii "no_homs", .noHomonyms), (ascii "all", .allLet),
    (ascii "one", .firstLet), (ascii "two", .secondLet), (ascii "not", .not),
    (ascii "latin", .latin), (ascii "org", .dictOrg), (ascii "geo", .dictGeo),
    (ascii "name", .dictName), (ascii "yes", .yes)]

/-- `Str2Postfix`. -/
def str2Postfix (str : Stroka) : ItemPostfix :=
  (OrderedMap.lookup str attributeValues).getD .postfixCount

/-- `IsNoneKWType`. -/
def isNoneKWType (name : Stroka) : Bool := name = ascii "none"

/-- `SArtPointer`: the type of an article or its title. -/
structure ArtPointer (Descriptor : Type) where
  strArt : Wtroka := []
  kwType : Option Descriptor := none
deriving DecidableEq

namespace ArtPointer
variable {Descriptor : Type}

/-- `PutKWType`, for a type that is not null. -/
def putKWType (_ : ArtPointer Descriptor) (kw : Descriptor) : ArtPointer Descriptor :=
  ⟨[], some kw⟩

def putStrType (a : ArtPointer Descriptor) (s : Wtroka) : ArtPointer Descriptor :=
  if s = [] then a else ⟨s, none⟩

def putType (a : ArtPointer Descriptor) (kw : Option Descriptor) (s : Wtroka) :
    ArtPointer Descriptor :=
  match kw with
  | some kw => a.putKWType kw
  | none => a.putStrType s

end ArtPointer

/-- `EApplyPlace`. -/
inductive ApplyPlace where
  | firstWord | lastWord | mainWord
deriving DecidableEq

/-- `CWordFormRegExp`. The matcher is what the pattern compiles to. -/
structure WordFormRegExp where
  place : ApplyPlace := .mainWord
  isNegative : Bool := false
  regexPattern : Stroka := []
deriving DecidableEq

/-- `SPostfixStore`. -/
structure PostfixStore (Descriptor : Type) where
  hom : ItemPostfix := .postfixCount
  noHomonyms : ItemPostfix := .postfixCount
  hReg : ItemPostfix := .postfixCount
  hReg1 : ItemPostfix := .postfixCount
  hReg2 : ItemPostfix := .postfixCount
  dict : ItemPostfix := .postfixCount
  lat : ItemPostfix := .postfixCount
  orgMorphDict : ItemPostfix := .postfixCount
  geoMorphDict : ItemPostfix := .postfixCount
  nameMorphDict : ItemPostfix := .postfixCount
  lReg : ItemPostfix := .postfixCount
  fw : ItemPostfix := .postfixCount
  isMultiword : ItemPostfix := .postfixCount
  excludeFromNormalization : ItemPostfix := .postfixCount
  isNoneKWType : Bool := false
  dictKWType : ArtPointer Descriptor := {}
  dictNotKWType : ArtPointer Descriptor := {}
  dictLabel : ArtPointer Descriptor := {}
  dictNotLabel : ArtPointer Descriptor := {}
  wordRegExp : WordFormRegExp := {}
deriving DecidableEq

/-- `SimpleItemEnum`. -/
inductive SimpleItem where
  | siUnknown | siString | siMeta | siRomanNumber | siFileList | siMorphologicalyUnknown
  | siMorphPattern | siNumber | siAnyWord
deriving DecidableEq

/-- `CGrammarItem`, with `TGramBitSet` as the set of the numbers of its grammemes. -/
structure GrammarItem (Descriptor : Type) where
  type : SimpleItem := .siUnknown
  itemStrId : Stroka := []
  itemLemma : Wtroka := []
  attributes : OrderedMap Stroka Stroka := .empty
  source : Stroka := ascii "<empty>"
  itemGrammems : Finset ℕ := ∅
  negativeItemGrammems : Finset ℕ := ∅
  grmAttribute : Stroka := []
  grammarRoot : Bool := true
  synMain : Bool := false
  canHaveManyHomonyms : Bool := true
  replaceInterp : List Int64 := []
  postfixStore : PostfixStore Descriptor := {}

/-- What loading relies on: the types that are registered in `TKWTypePool`, the decoding of UTF-8,
which fails for what is not UTF-8, and the expressions that compile. -/
structure ItemContext (Descriptor : Type) where
  findMessageTypeByName : Stroka → Option Descriptor
  decodeTomita : Stroka → Option Wtroka
  compiles : Stroka → Bool

/-- The digits of a number. -/
def digits (s : Stroka) : Option ℕ :=
  if s ≠ [] ∧ ∀ c ∈ s, 48 ≤ c ∧ c ≤ 57 then
    some (s.foldl (fun n c => 10 * n + (c - 48)) 0)
  else none

/-- The digits of a number after an optional plus. -/
def unsignedNumber : Stroka → Option ℕ
  | 43 :: s => digits s
  | s => digits s

/-- `FromString<i64>`. -/
def fromStringI64 (s : Stroka) : Option Int64 :=
  match s with
  | 45 :: s => (unsignedNumber s).bind fun n => if n ≤ 2 ^ 63 then some (Int64.ofInt (-n)) else none
  | s => (unsignedNumber s).bind fun n => if n < 2 ^ 63 then some (Int64.ofInt n) else none

/-- `TDelimitersSplit` by backslashes. -/
def splitReplacements (s : Stroka) : List Stroka := (s.splitOnP (· = 92)).filter (· ≠ [])

namespace GrammarItem
variable {Descriptor : Type}

/-- `LoadReplacementInterp`: what is not a number is left out. -/
def loadReplacementInterp (x : GrammarItem Descriptor) : GrammarItem Descriptor :=
  match x.attributes.find (alphabetPrefix .replaceInterp) with
  | none => x
  | some value =>
    { x with
      replaceInterp := x.replaceInterp ++ (splitReplacements value).filterMap fromStringI64
      attributes := x.attributes.erase (alphabetPrefix .replaceInterp) }

end GrammarItem

section LoadPostfixStore
variable {Descriptor : Type} (context : ItemContext Descriptor)

/-- The field of an article pointer for the name of a type or an article. -/
def ArtPointer.putName (a : ArtPointer Descriptor) (name : Stroka) :
    Option (ArtPointer Descriptor) :=
  (context.decodeTomita name).map (a.putType (context.findMessageTypeByName name))

/-- `SetRegexUtf8`: it fails for a pattern that does not compile. -/
def WordFormRegExp.setRegexUtf8 (r : WordFormRegExp) (pattern : Stroka) : Option WordFormRegExp :=
  if pattern = [] ∨ context.compiles pattern then some { r with regexPattern := pattern } else none

/-- What `LoadPostfixStore` puts into the store for the value of an attribute. -/
def PostfixStore.load (s : PostfixStore Descriptor) (value : Stroka) :
    ItemPrefix → Option (PostfixStore Descriptor)
  | .hom => some { s with hom := str2Postfix value }
  | .noHoms => some { s with noHomonyms := str2Postfix value }
  | .excludeFromNorm => some { s with excludeFromNormalization := str2Postfix value }
  | .hReg => some { s with hReg := str2Postfix value }
  | .hReg1 => some { s with hReg1 := str2Postfix value }
  | .hReg2 => some { s with hReg2 := str2Postfix value }
  | .firstLetInSent => some { s with fw := str2Postfix value }
  | .isMultiword => some { s with isMultiword := str2Postfix value }
  | .dict => some { s with dict := str2Postfix value }
  | .lat => some { s with lat := str2Postfix value }
  | .organ => some { s with orgMorphDict := str2Postfix value }
  | .geo => some { s with geoMorphDict := str2Postfix value }
  | .nameDic => some { s with nameMorphDict := str2Postfix value }
  | .lReg => some { s with lReg := str2Postfix value }
  | .dictKWType =>
    if Items.isNoneKWType value then some { s with isNoneKWType := true }
    else (s.dictKWType.putName context value).map fun a => { s with dictKWType := a }
  | .dictLabel => (s.dictLabel.putName context value).map fun a => { s with dictLabel := a }
  | .dictNotKWType =>
    (s.dictNotKWType.putName context value).map fun a => { s with dictNotKWType := a }
  | .dictNotLabel =>
    (s.dictNotLabel.putName context value).map fun a => { s with dictNotLabel := a }
  | .notRegExp =>
    ({ s.wordRegExp with isNegative := true }.setRegexUtf8 context value).map fun r =>
      { s with wordRegExp := r }
  | .regExp =>
    ({ s.wordRegExp with isNegative := false }.setRegexUtf8 context value).map fun r =>
      { s with wordRegExp := r }
  | .replaceInterp => some s

namespace GrammarItem

/-- `LoadPostfixStore(Pref)`. There is no case for `REPLACE_INTERP`, whose attribute stays. -/
def loadPostfix (x : GrammarItem Descriptor) (pref : ItemPrefix) :
    Option (GrammarItem Descriptor) :=
  match x.attributes.find (alphabetPrefix pref) with
  | none => some x
  | some value =>
    (x.postfixStore.load context value pref).map fun s =>
      if pref = .replaceInterp then x
      else { x with postfixStore := s, attributes := x.attributes.erase (alphabetPrefix pref) }

/-- `LoadPostfixStore`. -/
def loadPostfixStore (x : GrammarItem Descriptor) : Option (GrammarItem Descriptor) :=
  ItemPrefix.all.foldlM (loadPostfix context) x

/-- An item with its options where they are read. -/
def settle (x : GrammarItem Descriptor) : Option (GrammarItem Descriptor) :=
  x.loadReplacementInterp.loadPostfixStore context

end GrammarItem
end LoadPostfixStore

theorem mem_all (pref : ItemPrefix) : pref ∈ ItemPrefix.all := by
  cases pref <;> decide

theorem alphabetPrefix_ne_lReg {pref : ItemPrefix} (hpref : pref ≠ .lReg) :
    alphabetPrefix pref ≠ alphabetPrefix .lReg := by
  revert hpref
  cases pref <;> decide

section Settle
variable {Descriptor : Type} {context : ItemContext Descriptor}

/-- The store without `m_lreg`. -/
def PostfixStore.forgetLReg (s : PostfixStore Descriptor) : PostfixStore Descriptor :=
  { s with lReg := .postfixCount }

theorem PostfixStore.load_forgetLReg (s : PostfixStore Descriptor) (value : Stroka)
    {pref : ItemPrefix} (hpref : pref ≠ .lReg) :
    s.forgetLReg.load context value pref = (s.load context value pref).map forgetLReg := by
  have hname : ∀ (a : ArtPointer Descriptor) (put put' : ArtPointer Descriptor →
      PostfixStore Descriptor), (∀ b, put' b = (put b).forgetLReg) →
      (a.putName context value).map put' = ((a.putName context value).map put).map forgetLReg := by
    intro a put put' h
    rw [Option.map_map]
    exact congrArg (fun f => Option.map f _) (funext h)
  have hregex : ∀ (r : WordFormRegExp) (put put' : WordFormRegExp → PostfixStore Descriptor),
      (∀ b, put' b = (put b).forgetLReg) → (r.setRegexUtf8 context value).map put' =
        ((r.setRegexUtf8 context value).map put).map forgetLReg := by
    intro r put put' h
    rw [Option.map_map]
    exact congrArg (fun f => Option.map f _) (funext h)
  cases pref with
  | lReg => exact absurd rfl hpref
  | dictKWType =>
    rw [load, load]
    by_cases hnone : Items.isNoneKWType value = true
    · rw [if_pos hnone, if_pos hnone]
      rfl
    · rw [if_neg hnone, if_neg hnone]
      exact hname _ _ _ fun _ => rfl
  | dictLabel => exact hname _ _ _ fun _ => rfl
  | dictNotKWType => exact hname _ _ _ fun _ => rfl
  | dictNotLabel => exact hname _ _ _ fun _ => rfl
  | notRegExp => exact hregex _ _ _ fun _ => rfl
  | regExp => exact hregex _ _ _ fun _ => rfl
  | _ => rfl

theorem PostfixStore.lReg_load {s t : PostfixStore Descriptor} {value : Stroka} {pref : ItemPrefix}
    (hpref : pref ≠ .lReg) (ht : s.load context value pref = some t) : t.lReg = s.lReg := by
  cases pref with
  | lReg => exact absurd rfl hpref
  | dictKWType =>
    rw [load] at ht
    split_ifs at ht with hnone
    · rw [← Option.some.inj ht]
    · obtain ⟨a, -, rfl⟩ := Option.map_eq_some_iff.mp ht
      rfl
  | dictLabel | dictNotKWType | dictNotLabel | notRegExp | regExp =>
    obtain ⟨a, -, rfl⟩ := Option.map_eq_some_iff.mp ht
    rfl
  | _ =>
    rw [← Option.some.inj ht]

namespace GrammarItem
variable {x y : GrammarItem Descriptor}

/-- The item without `m_lreg` in its store. -/
def forgetLReg (x : GrammarItem Descriptor) : GrammarItem Descriptor :=
  { x with postfixStore := x.postfixStore.forgetLReg }

theorem loadPostfix_forgetLReg (x : GrammarItem Descriptor) {pref : ItemPrefix}
    (hpref : pref ≠ .lReg) :
    x.forgetLReg.loadPostfix context pref = (x.loadPostfix context pref).map forgetLReg := by
  cases hfind : x.attributes.find (alphabetPrefix pref) with
  | none => simp [loadPostfix, forgetLReg, hfind]
  | some value =>
    have hload := @PostfixStore.load_forgetLReg _ context x.postfixStore value _ hpref
    simp only [loadPostfix, forgetLReg, hfind, hload, Option.map_map]
    congr 1
    funext s
    by_cases hreplace : pref = .replaceInterp
    · simp only [Function.comp_apply, if_pos hreplace]
      rfl
    · simp only [Function.comp_apply, if_neg hreplace]
      rfl

theorem find_loadPostfix {pref : ItemPrefix} (hy : x.loadPostfix context pref = some y)
    (k : Stroka) : y.attributes.find k =
      if alphabetPrefix pref = k ∧ pref ≠ .replaceInterp then none else x.attributes.find k := by
  rw [loadPostfix] at hy
  cases hfind : x.attributes.find (alphabetPrefix pref) with
  | none =>
    simp only [hfind, Option.some.injEq] at hy
    subst hy
    split_ifs with hk
    · rw [← hk.1, hfind]
    · rfl
  | some value =>
    simp only [hfind] at hy
    obtain ⟨s, -, rfl⟩ := Option.map_eq_some_iff.mp hy
    by_cases hreplace : pref = .replaceInterp
    · simp [hreplace]
    · simp [hreplace, OrderedMap.find_erase]

theorem lReg_loadPostfix {pref : ItemPrefix} (hpref : pref ≠ .lReg)
    (hy : x.loadPostfix context pref = some y) : y.postfixStore.lReg = x.postfixStore.lReg := by
  rw [loadPostfix] at hy
  cases hfind : x.attributes.find (alphabetPrefix pref) with
  | none =>
    simp only [hfind, Option.some.injEq] at hy
    rw [hy]
  | some value =>
    simp only [hfind] at hy
    obtain ⟨s, hs, rfl⟩ := Option.map_eq_some_iff.mp hy
    split_ifs
    · rfl
    · exact PostfixStore.lReg_load hpref hs

theorem foldlM_forgetLReg {prefs : List ItemPrefix} (hprefs : ItemPrefix.lReg ∉ prefs)
    (x : GrammarItem Descriptor) : prefs.foldlM (loadPostfix context) x.forgetLReg =
      (prefs.foldlM (loadPostfix context) x).map forgetLReg := by
  induction prefs generalizing x with
  | nil => rfl
  | cons pref prefs ih =>
    have hpref : pref ≠ .lReg := fun h => hprefs (h ▸ List.mem_cons_self)
    rw [List.foldlM_cons, List.foldlM_cons, loadPostfix_forgetLReg x hpref]
    cases x.loadPostfix context pref with
    | none => rfl
    | some y => exact ih (fun h => hprefs (List.mem_cons_of_mem _ h)) y

theorem find_foldlM {prefs : List ItemPrefix} (hy : prefs.foldlM (loadPostfix context) x = some y)
    (k : Stroka) : y.attributes.find k =
      if ∃ pref ∈ prefs, alphabetPrefix pref = k ∧ pref ≠ .replaceInterp then none
      else x.attributes.find k := by
  induction prefs generalizing x with
  | nil =>
    rw [← Option.some.inj hy]
    simp
  | cons pref prefs ih =>
    rw [List.foldlM_cons] at hy
    obtain ⟨z, hz, hrest⟩ := Option.bind_eq_some_iff.mp hy
    rw [ih hrest, find_loadPostfix hz]
    simp only [List.exists_mem_cons_iff]
    by_cases hhead : alphabetPrefix pref = k ∧ pref ≠ .replaceInterp
    · simp [hhead]
    · simp [hhead]

theorem lReg_foldlM {prefs : List ItemPrefix} (hprefs : ItemPrefix.lReg ∉ prefs)
    (hy : prefs.foldlM (loadPostfix context) x = some y) :
    y.postfixStore.lReg = x.postfixStore.lReg := by
  induction prefs generalizing x with
  | nil => rw [← Option.some.inj hy]
  | cons pref prefs ih =>
    rw [List.foldlM_cons] at hy
    obtain ⟨z, hz, hrest⟩ := Option.bind_eq_some_iff.mp hy
    rw [ih (fun h => hprefs (List.mem_cons_of_mem _ h)) hrest]
    exact lReg_loadPostfix (fun h => hprefs (h ▸ List.mem_cons_self)) hz

theorem all_split : ∃ before after, ItemPrefix.all = before ++ .lReg :: after ∧
    ItemPrefix.lReg ∉ before ∧ ItemPrefix.lReg ∉ after :=
  ⟨ItemPrefix.all.take 11, ItemPrefix.all.drop 12, by decide⟩

theorem find_lReg_loadReplacementInterp (x : GrammarItem Descriptor) :
    x.loadReplacementInterp.attributes.find (alphabetPrefix .lReg) =
      x.attributes.find (alphabetPrefix .lReg) := by
  rw [loadReplacementInterp]
  cases x.attributes.find (alphabetPrefix .replaceInterp) with
  | none => rfl
  | some value => exact (OrderedMap.find_erase _ _ _).trans (if_neg (by decide))

theorem loadReplacementInterp_forgetLReg (x : GrammarItem Descriptor) :
    x.forgetLReg.loadReplacementInterp = x.loadReplacementInterp.forgetLReg := by
  rw [loadReplacementInterp, loadReplacementInterp]
  change (match x.attributes.find (alphabetPrefix .replaceInterp) with
    | none => _ | some v => _) = _
  cases x.attributes.find (alphabetPrefix .replaceInterp) with
  | none => rfl
  | some value => rfl

theorem settle_forgetLReg_of_attribute {value : Stroka}
    (hx : x.attributes.find (alphabetPrefix .lReg) = some value) :
    x.forgetLReg.settle context = x.settle context := by
  obtain ⟨before, after, hall, hbefore, hafter⟩ := all_split
  rw [settle, settle, loadReplacementInterp_forgetLReg, loadPostfixStore, loadPostfixStore, hall,
    List.foldlM_append, List.foldlM_append, foldlM_forgetLReg hbefore]
  cases hy : before.foldlM (loadPostfix context) x.loadReplacementInterp with
  | none => rfl
  | some y =>
    have hfind : y.attributes.find (alphabetPrefix .lReg) = some value := by
      rw [find_foldlM hy, if_neg, find_lReg_loadReplacementInterp, hx]
      rintro ⟨pref, hpref, heq, -⟩
      exact alphabetPrefix_ne_lReg (fun h => hbefore (h ▸ hpref)) heq
    have hstep : y.forgetLReg.loadPostfix context .lReg = y.loadPostfix context .lReg := by
      simp [loadPostfix, forgetLReg, hfind, PostfixStore.load, PostfixStore.forgetLReg]
    simp only [Option.map_some, Option.bind_eq_bind, Option.bind_some, List.foldlM_cons, hstep]

/-- Without one, `m_lreg` stays as it was. -/
theorem settle_forgetLReg_of_none (hx : x.attributes.find (alphabetPrefix .lReg) = none) :
    x.forgetLReg.settle context = (x.settle context).map forgetLReg ∧
      ∀ y, x.settle context = some y → y.postfixStore.lReg = x.postfixStore.lReg := by
  obtain ⟨before, after, hall, hbefore, hafter⟩ := all_split
  have hstep : ∀ {y : GrammarItem Descriptor},
      before.foldlM (loadPostfix context) x.loadReplacementInterp = some y →
      y.loadPostfix context .lReg = some y ∧
        y.forgetLReg.loadPostfix context .lReg = some y.forgetLReg := by
    intro y hy
    have hfind : y.attributes.find (alphabetPrefix .lReg) = none := by
      rw [find_foldlM hy, find_lReg_loadReplacementInterp, hx, ite_self]
    constructor
    · simp [loadPostfix, hfind]
    · simp [loadPostfix, forgetLReg, hfind]
  have hrun : x.settle context = (before.foldlM (loadPostfix context) x.loadReplacementInterp).bind
      fun y => after.foldlM (loadPostfix context) y := by
    rw [settle, loadPostfixStore, hall, List.foldlM_append]
    cases hy : before.foldlM (loadPostfix context) x.loadReplacementInterp with
    | none => rfl
    | some y =>
      simp only [Option.bind_eq_bind, Option.bind_some, List.foldlM_cons, (hstep hy).1]
  constructor
  · rw [hrun, settle, loadReplacementInterp_forgetLReg, loadPostfixStore, hall,
      List.foldlM_append, foldlM_forgetLReg hbefore]
    cases hy : before.foldlM (loadPostfix context) x.loadReplacementInterp with
    | none => rfl
    | some y =>
      simp only [Option.map_some, Option.bind_eq_bind, Option.bind_some, List.foldlM_cons,
        (hstep hy).2]
      exact foldlM_forgetLReg hafter y
  · intro z hz
    rw [hrun] at hz
    obtain ⟨y, hy, hrest⟩ := Option.bind_eq_some_iff.mp hz
    have hfirst : x.loadReplacementInterp.postfixStore = x.postfixStore := by
      rw [loadReplacementInterp]
      cases x.attributes.find (alphabetPrefix .replaceInterp) <;> rfl
    rw [lReg_foldlM hafter hrest, lReg_foldlM hbefore hy, hfirst]

theorem find_settle (hy : x.settle context = some y) (pref : ItemPrefix) :
    y.attributes.find (alphabetPrefix pref) = none := by
  rw [find_foldlM hy]
  by_cases hpref : pref = .replaceInterp
  · split_ifs
    · rfl
    · rw [loadReplacementInterp, hpref]
      cases hfind : x.attributes.find (alphabetPrefix .replaceInterp) with
      | none => exact hfind
      | some value => exact (OrderedMap.find_erase _ _ _).trans (if_pos rfl)
  · exact if_pos ⟨pref, mem_all pref, rfl, hpref⟩

theorem settle_of_find_eq_none
    (hx : ∀ pref, x.attributes.find (alphabetPrefix pref) = none) : x.settle context = some x := by
  have hrun : ∀ prefs : List ItemPrefix, prefs.foldlM (loadPostfix context) x = some x := by
    intro prefs
    induction prefs with
    | nil => rfl
    | cons pref prefs ih =>
      have hstep : x.loadPostfix context pref = some x := by simp [loadPostfix, hx pref]
      rw [List.foldlM_cons, hstep]
      exact ih
  rw [settle, loadReplacementInterp, hx .replaceInterp]
  exact hrun _

/-- Two items are equal in all fields but `m_Source` and `m_GrmAttribute`, which parsing does not
read. -/
def SameForParsing (x y : GrammarItem Descriptor) : Prop :=
  { x with source := y.source, grmAttribute := y.grmAttribute } = y

theorem sameForParsing_forgetLReg :
    y.forgetLReg.SameForParsing y ↔ y.postfixStore.lReg = .postfixCount := by
  constructor
  · intro h
    have hreg := congrArg (fun x : GrammarItem Descriptor => x.postfixStore.lReg) h
    exact hreg.symm
  · intro h
    have hstore : y.postfixStore.forgetLReg = y.postfixStore := by
      rw [PostfixStore.forgetLReg, ← h]
    rw [SameForParsing, forgetLReg, hstore]

theorem sameForParsing_refl (x : GrammarItem Descriptor) : x.SameForParsing x := rfl

theorem SameForParsing.attributes (h : x.SameForParsing y) : x.attributes = y.attributes := by
  have heq := congrArg (fun item : GrammarItem Descriptor => item.attributes) h
  exact heq

theorem SameForParsing.lReg (h : x.SameForParsing y) :
    x.postfixStore.lReg = y.postfixStore.lReg := by
  have heq := congrArg (fun item : GrammarItem Descriptor => item.postfixStore.lReg) h
  exact heq

end GrammarItem
end Settle

end TomitaParser.Items
