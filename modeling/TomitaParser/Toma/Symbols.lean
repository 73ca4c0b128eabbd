import TomitaParser.Glr.ItemOptions
import TomitaParser.Lib.Interning
import TomitaParser.Toma.Syntax
/-! # Symbols of a grammar

The terms of the rules become grammar items, and equal items one symbol with one number. What tells
terms apart is what `CGrammarItem::operator==` compares. -/

namespace TomitaParser
open Items Interning

/-- `JoinKeywords`. -/
def joinKeywords : List String → String
  | [] => ""
  | [word] => word
  | word :: rest => word ++ "+" ++ joinKeywords rest

/-- An option that is there or not. -/
def boolAttribute (value : Bool) (postf : Stroka) : Option Stroka :=
  if value then some postf else none

/-- `PUSH_FUZZY_OPTION`. -/
def fuzzyAttribute (value : EOption) (postf : Stroka) : Option Stroka :=
  match value with
  | .allow => some postf
  | .deny => some (ascii "not")
  | .undef => none

/-- The keywords as an attribute of one of two names, by their negation. -/
def keywordAttribute (value : KeyWordsProto) (negative : Bool) : Option Stroka :=
  if value.keyWord ≠ [] ∧ value.negative = negative then some (ascii (joinKeywords value.keyWord))
  else none

/-- The value that `ConvertToGrammarItem` puts under the name of each option. -/
def termAttribute (p : PostfixProto) (filter : Bool) (replacement : String) :
    ItemPrefix → Option Stroka
  | .replaceInterp => if replacement ≠ "" then some (ascii replacement) else none
  | .hom => boolAttribute p.noPrep (ascii "not_prep")
  | .noHoms => boolAttribute p.noHom (ascii "no_homs")
  | .dict => boolAttribute p.bastard (ascii "not")
  | .lReg => boolAttribute p.lReg (ascii "all")
  | .hReg => boolAttribute p.hReg (ascii "all")
  | .hReg1 => boolAttribute p.hReg1 (ascii "one")
  | .hReg2 => fuzzyAttribute p.hReg2 (ascii "two")
  | .lat => fuzzyAttribute p.latin (ascii "latin")
  | .nameDic => fuzzyAttribute p.isName (ascii "name")
  | .geo => fuzzyAttribute p.isGeo (ascii "geo")
  | .isMultiword => fuzzyAttribute p.multiWord (ascii "yes")
  | .excludeFromNorm => boolAttribute p.excludeFromNorm (ascii "yes")
  | .dictKWType => keywordAttribute p.kwType false
  | .dictNotKWType => keywordAttribute p.kwType true
  | .dictLabel => keywordAttribute p.label false
  | .dictNotLabel => keywordAttribute p.label true
  | .regExp =>
    if filter ∧ p.regex.mask ≠ "" ∧ p.regex.negative = false then some (ascii p.regex.mask)
    else none
  | .notRegExp =>
    if filter ∧ p.regex.mask ≠ "" ∧ p.regex.negative = true then some (ascii p.regex.mask)
    else none
  | .organ | .firstLetInSent => none

/-- `m_Attributes[AlphabetPrefix[pref]] = value`. -/
def putAttribute (values : ItemPrefix → Option Stroka) (m : OrderedMap Stroka Stroka)
    (pref : ItemPrefix) : OrderedMap Stroka Stroka :=
  match values pref with
  | some value => m.insert (alphabetPrefix pref) value
  | none => m

/-- What the conversion takes from elsewhere: the decoding of UTF-8 and the bits of grammemes. -/
structure TermContext where
  decodeTomita : Stroka → Wtroka
  fromBytes : List String → Finset ℕ

variable {D : Type} (context : TermContext)

/-- The grammemes of one sign: the last option of that sign counts. -/
def signedGrammems (term : TermProto) (negative : Bool) : Finset ℕ :=
  if term.type = .nonTerminal then ∅
  else term.termPostfix.gram.foldl
    (fun g gram => if gram.negative = negative then context.fromBytes gram.grammems else g) ∅

/-- `ConvertToGrammarItem`. -/
def convertToGrammarItem (term : TermProto) (filter : Bool) (replacement : String) :
    Items.GrammarItem D where
  itemStrId := ascii term.name
  itemLemma := if term.type = .lemmaWord then context.decodeTomita (ascii term.name) else []
  synMain := term.termPostfix.root
  type := if term.name = "?" then .siAnyWord
    else if term.type = .nonTerminal then .siMeta else .siString
  itemGrammems := signedGrammems context term false
  negativeItemGrammems := signedGrammems context term true
  attributes :=
    ItemPrefix.all.foldl (putAttribute (termAttribute term.termPostfix filter replacement)) .empty

/-- The left part that `ConvertToParseRules` makes. -/
def leftGrammarItem (name : String) : Items.GrammarItem D where
  itemStrId := ascii name
  source := ascii name
  type := .siMeta

namespace Items

/-- What `SPostfixStore::operator==` compares: all fields but the labels. -/
def PostfixStore.compared (s : PostfixStore D) : PostfixStore D :=
  { s with dictLabel := {}, dictNotLabel := {} }

/-- The fields that `CGrammarItem::operator==` compares. -/
structure ComparedItem (D : Type) where
  itemStrId : Stroka
  type : Items.SimpleItem
  attributes : List (Stroka × Stroka)
  itemGrammems : Finset ℕ
  negativeItemGrammems : Finset ℕ
  canHaveManyHomonyms : Bool
  replaceInterp : List Int64
  postfixStore : PostfixStore D
deriving DecidableEq

def GrammarItem.compared (x : Items.GrammarItem D) : ComparedItem D :=
  ⟨x.itemStrId, x.type, x.attributes.entries, x.itemGrammems, x.negativeItemGrammems,
    x.canHaveManyHomonyms, x.replaceInterp, x.postfixStore.compared⟩

end Items

variable [DecidableEq D]

/-- `GetItemIdOrRegister`. -/
def getItemIdOrRegister (items : List (Items.GrammarItem D)) (x : Items.GrammarItem D) :
    ℕ × List (Items.GrammarItem D) :=
  intern Items.GrammarItem.compared (fun x => { x with synMain := false }) items x

/-- A term as it stands in a rule, with its replacement. -/
structure RuleTerm where
  inRightPart : Bool
  term : TermProto
  replacement : String
deriving DecidableEq

/-- The terms of a rule, the left part first. -/
def RuleProto.terms (rule : RuleProto) : List RuleTerm :=
  ⟨false, { name := rule.name }, ""⟩ :: rule.items.map fun item => ⟨true, item.term, item.replace⟩

/-- The item that `ConvertToParseRules` makes of a term. -/
def RuleTerm.item (t : RuleTerm) : Items.GrammarItem D :=
  if t.inRightPart then convertToGrammarItem context t.term false t.replacement
  else leftGrammarItem t.term.name

/-- One term in `EncodeGrammar`; the symbol of a right part is no root. -/
def encodeTerm (items : List (Items.GrammarItem D)) (t : RuleTerm) :
    ℕ × List (Items.GrammarItem D) :=
  let (id, items) := getItemIdOrRegister items (t.item context)
  (id, if t.inRightPart then items.modify id fun x => { x with grammarRoot := false } else items)

def encodeTerms (items : List (Items.GrammarItem D)) :
    List RuleTerm → List ℕ × List (Items.GrammarItem D)
  | [] => ([], items)
  | t :: ts =>
    let (id, items) := encodeTerm context items t
    let (ids, items) := encodeTerms items ts
    (id :: ids, items)

/-- The terms of the rules in the order of `EncodeGrammar`. -/
def grammarTerms (rules : List RuleProto) : List RuleTerm := rules.flatMap RuleProto.terms

/-- `EncodeGrammar`: the symbol numbers of the terms, and the symbols. -/
def encodeGrammar (rules : List RuleProto) : List ℕ × List (Items.GrammarItem D) :=
  encodeTerms context [] (grammarTerms rules)

theorem encodeTerm_spec {items : List (Items.GrammarItem D)}
    (h : Interning.Distinct Items.GrammarItem.compared items) (t : RuleTerm) :
    Interning.Distinct Items.GrammarItem.compared (encodeTerm context items t).2 ∧
    Numbered Items.GrammarItem.compared (encodeTerm context items t).2
      (encodeTerm context items t).1 (t.item context) ∧
    items.map Items.GrammarItem.compared <+:
      (encodeTerm context items t).2.map Items.GrammarItem.compared := by
  have hspec := @intern_spec _ _ Items.GrammarItem.compared
    (fun x : Items.GrammarItem D => { x with synMain := false }) _ _ (fun _ => rfl) h
    (t.item context)
  have hmap : (encodeTerm context items t).2.map Items.GrammarItem.compared =
      (getItemIdOrRegister items (t.item context)).2.map Items.GrammarItem.compared := by
    rw [encodeTerm]
    split_ifs
    · apply List.ext_getElem?
      intro i
      simp only [List.getElem?_map, List.getElem?_modify]
      split_ifs
      · simp only [Option.map_eq_map, Option.map_map]
        rfl
      · simp
    · rfl
  rw [Interning.Distinct, Numbered, hmap]
  exact hspec

theorem encodeTerms_spec {items : List (Items.GrammarItem D)}
    (h : Interning.Distinct Items.GrammarItem.compared items) (ts : List RuleTerm) :
    Interning.Distinct Items.GrammarItem.compared (encodeTerms context items ts).2 ∧
    items.map Items.GrammarItem.compared <+:
      (encodeTerms context items ts).2.map Items.GrammarItem.compared ∧
    ∀ (i n : ℕ) (t : RuleTerm), ts[i]? = some t → (encodeTerms context items ts).1[i]? = some n →
      Numbered Items.GrammarItem.compared (encodeTerms context items ts).2 n (t.item context) := by
  induction ts generalizing items with
  | nil => exact ⟨h, List.prefix_rfl, by simp⟩
  | cons t ts ih =>
    obtain ⟨hdistinct, hnumbered, hpre⟩ := encodeTerm_spec context h t
    obtain ⟨hdistinct', hpre', hall⟩ := ih hdistinct
    refine ⟨hdistinct', hpre.trans hpre', ?_⟩
    intro i n u hu hn
    cases i with
    | zero =>
      rw [List.getElem?_cons_zero, Option.some.injEq] at hu
      subst hu
      have hid : (encodeTerm context items t).1 = n := by
        simpa [encodeTerms] using hn
      rw [← hid]
      exact hnumbered.mono hpre'
    | succ i =>
      apply hall i n u
      · simpa using hu
      · simpa [encodeTerms] using hn

theorem ascii_inj {a b : String} (h : ascii a = ascii b) : a = b := by
  apply String.toList_inj.mp
  apply List.map_injective_iff.mpr _ h
  intro c d hcd
  exact Char.ext (UInt32.toNat_inj.mp hcd)

theorem alphabetPrefix_inj {a b : ItemPrefix} (h : alphabetPrefix a = alphabetPrefix b) :
    a = b := by
  revert h
  cases a <;> cases b <;> decide

theorem find_putAttribute (values : ItemPrefix → Option Stroka) (prefs : List ItemPrefix)
    (m : OrderedMap Stroka Stroka) (pref : ItemPrefix) :
    (prefs.foldl (putAttribute values) m).find (alphabetPrefix pref) =
      if pref ∈ prefs ∧ values pref ≠ none then values pref
      else m.find (alphabetPrefix pref) := by
  induction prefs generalizing m with
  | nil => simp
  | cons p prefs ih =>
    rw [List.foldl_cons, ih]
    have hput : (putAttribute values m p).find (alphabetPrefix pref) =
        if p = pref ∧ values pref ≠ none then values pref else m.find (alphabetPrefix pref) := by
      rw [putAttribute]
      cases hp : values p with
      | none =>
        rw [if_neg]
        rintro ⟨rfl, hne⟩
        exact hne hp
      | some value =>
        show (m.insert (alphabetPrefix p) value).find (alphabetPrefix pref) = _
        rw [OrderedMap.find_insert]
        by_cases heq : p = pref
        · subst heq
          simp [hp]
        · rw [if_neg fun h => heq (alphabetPrefix_inj h), if_neg fun h => heq h.1]
    rw [hput]
    by_cases hmem : pref ∈ prefs
    · by_cases hne : values pref = none <;> simp [hmem, hne]
    · by_cases heq : p = pref
      · subst heq
        simp [hmem]
      · have heq' : ¬ pref = p := fun h => heq h.symm
        simp [hmem, heq, heq']

theorem find_attributes (values : ItemPrefix → Option Stroka) (pref : ItemPrefix) :
    (ItemPrefix.all.foldl (putAttribute values) .empty).find (alphabetPrefix pref) =
      values pref := by
  rw [find_putAttribute, OrderedMap.find_empty]
  split_ifs with h
  · rfl
  · rw [not_and] at h
    exact (not_not.mp (h (Items.mem_all pref))).symm

theorem attributes_eq_iff {values values' : ItemPrefix → Option Stroka} :
    (ItemPrefix.all.foldl (putAttribute values) .empty).entries =
      (ItemPrefix.all.foldl (putAttribute values') .empty).entries ↔ values = values' := by
  constructor
  · intro h
    funext pref
    rw [← find_attributes values pref, ← find_attributes values' pref, OrderedMap.find,
      OrderedMap.find, h]
  · rintro rfl
    rfl

/-- Keywords as the symbol has them: their negation and their joined names. -/
def keywordText (value : KeyWordsProto) : Option (Bool × String) :=
  if value.keyWord = [] then none else some (value.negative, joinKeywords value.keyWord)

/-- The options of a term that its symbol carries are the same. -/
structure SameOptions (p q : PostfixProto) : Prop where
  noPrep : p.noPrep = q.noPrep
  noHom : p.noHom = q.noHom
  bastard : p.bastard = q.bastard
  lReg : p.lReg = q.lReg
  hReg : p.hReg = q.hReg
  hReg1 : p.hReg1 = q.hReg1
  hReg2 : p.hReg2 = q.hReg2
  latin : p.latin = q.latin
  isName : p.isName = q.isName
  isGeo : p.isGeo = q.isGeo
  multiWord : p.multiWord = q.multiWord
  excludeFromNorm : p.excludeFromNorm = q.excludeFromNorm
  kwType : keywordText p.kwType = keywordText q.kwType
  label : keywordText p.label = keywordText q.label

theorem boolAttribute_inj {a b : Bool} {postf : Stroka}
    (h : boolAttribute a postf = boolAttribute b postf) : a = b := by
  cases a <;> cases b <;> simp [boolAttribute] at h ⊢

theorem fuzzyAttribute_inj {a b : EOption} {postf : Stroka} (hp : postf ≠ ascii "not")
    (h : fuzzyAttribute a postf = fuzzyAttribute b postf) : a = b := by
  cases a <;> cases b <;> simp [fuzzyAttribute, hp, hp.symm] at h ⊢

theorem keywordAttribute_inj {k l : KeyWordsProto}
    (h : ∀ negative, keywordAttribute k negative = keywordAttribute l negative) :
    keywordText k = keywordText l := by
  by_cases hk : k.keyWord = []
  · by_cases hl : l.keyWord = []
    · simp [keywordText, hk, hl]
    · have := h l.negative
      simp [keywordAttribute, hk, hl] at this
  · have hkn := h k.negative
    simp only [keywordAttribute, ne_eq, hk, not_false_eq_true, and_self, if_true] at hkn
    split_ifs at hkn with hl
    rw [keywordText, keywordText, if_neg hk, if_neg hl.1, hl.2,
      ascii_inj (Option.some.inj hkn)]

theorem keywordAttribute_congr {k l : KeyWordsProto} (h : keywordText k = keywordText l)
    (negative : Bool) : keywordAttribute k negative = keywordAttribute l negative := by
  rw [keywordText, keywordText] at h
  rw [keywordAttribute, keywordAttribute]
  split_ifs at h with hk hl hl
  · simp [hk, hl]
  · obtain ⟨hneg, hjoin⟩ := Prod.mk.inj (Option.some.inj h)
    simp [hk, hl, hneg, hjoin]

theorem termAttribute_eq_iff {p q : PostfixProto} {r r' : String} :
    termAttribute p false r = termAttribute q false r' ↔ SameOptions p q ∧ r = r' := by
  constructor
  · intro h
    have hat := fun pref => congrFun h pref
    refine ⟨?_, ?_⟩
    · constructor
      · exact boolAttribute_inj (hat .hom)
      · exact boolAttribute_inj (hat .noHoms)
      · exact boolAttribute_inj (hat .dict)
      · exact boolAttribute_inj (hat .lReg)
      · exact boolAttribute_inj (hat .hReg)
      · exact boolAttribute_inj (hat .hReg1)
      · exact fuzzyAttribute_inj (by decide) (hat .hReg2)
      · exact fuzzyAttribute_inj (by decide) (hat .lat)
      · exact fuzzyAttribute_inj (by decide) (hat .nameDic)
      · exact fuzzyAttribute_inj (by decide) (hat .geo)
      · exact fuzzyAttribute_inj (by decide) (hat .isMultiword)
      · exact boolAttribute_inj (hat .excludeFromNorm)
      · exact keywordAttribute_inj fun b => by
          cases b
          · exact hat .dictKWType
          · exact hat .dictNotKWType
      · exact keywordAttribute_inj fun b => by
          cases b
          · exact hat .dictLabel
          · exact hat .dictNotLabel
    · have hr : (if r ≠ "" then some (ascii r) else none) =
          if r' ≠ "" then some (ascii r') else none := hat .replaceInterp
      split_ifs at hr with h1 h2 h2
      · exact ascii_inj (Option.some.inj hr)
      · rw [not_not.mp h1, not_not.mp h2]
  · rintro ⟨h, rfl⟩
    funext pref
    cases pref <;> simp only [termAttribute, h.noPrep, h.noHom, h.bastard, h.lReg, h.hReg, h.hReg1,
      h.hReg2, h.latin, h.isName, h.isGeo, h.multiWord, h.excludeFromNorm,
      keywordAttribute_congr h.kwType, keywordAttribute_congr h.label, Bool.false_eq_true,
      false_and, if_false]

/-- One of the terms is a lemma and the other a terminal. -/
def LemmaAndTerminal (s t : TermProto) : Prop :=
  s.type = .lemmaWord ∧ t.type = .terminal ∨ s.type = .terminal ∧ t.type = .lemmaWord

/-- The names, symbol options, grammemes and replacements of the terms are the same. -/
structure SpelledAlike (s t : RuleTerm) : Prop where
  name : s.term.name = t.term.name
  options : SameOptions s.term.termPostfix t.term.termPostfix
  grammems : ∀ negative, signedGrammems context s.term negative =
    signedGrammems context t.term negative
  replacement : s.replacement = t.replacement

/-- The terms are one symbol: they are spelled alike, and of one type. -/
structure SameSymbol (s t : RuleTerm) : Prop extends SpelledAlike context s t where
  type : s.term.type = t.term.type

/-- A name in a left part is a non-terminal without options. -/
structure RuleTerm.Proper (t : RuleTerm) : Prop where
  name : t.term.type ≠ .lemmaWord → t.term.name ≠ "?"
  left : t.inRightPart = false →
    t.term = { name := t.term.name, type := .nonTerminal } ∧ t.replacement = ""

theorem termAttribute_default (pref : ItemPrefix) : termAttribute {} false "" pref = none := by
  cases pref <;> rfl

omit [DecidableEq D] in
theorem compared_item {t : RuleTerm} (ht : t.Proper) :
    (t.item context : Items.GrammarItem D).compared =
      (convertToGrammarItem context t.term false t.replacement).compared := by
  rw [RuleTerm.item]
  split_ifs with hright
  · rfl
  · obtain ⟨hterm, hreplace⟩ := ht.left (by simpa using hright)
    have htype : t.term.type = .nonTerminal := by rw [hterm]
    have hname := ht.name (by rw [htype]; decide)
    have hattr : (ItemPrefix.all.foldl
        (putAttribute (termAttribute t.term.termPostfix false t.replacement)) .empty).entries =
        (OrderedMap.empty : OrderedMap Stroka Stroka).entries := by
      have hnone : termAttribute t.term.termPostfix false t.replacement = fun _ => none := by
        rw [hreplace, hterm]
        exact funext termAttribute_default
      rw [hnone]
      rfl
    simp only [Items.GrammarItem.compared, leftGrammarItem, convertToGrammarItem, hattr, htype,
      hname, if_false, if_true, signedGrammems]

theorem itemType_inj {s t : TermProto} (hmix : ¬ LemmaAndTerminal s t)
    (h : (if s.type = .nonTerminal then Items.SimpleItem.siMeta else .siString) =
      if t.type = .nonTerminal then .siMeta else .siString) : s.type = t.type := by
  rw [LemmaAndTerminal] at hmix
  cases hs : s.type <;> cases ht : t.type <;> simp [hs, ht] at h hmix ⊢

omit [DecidableEq D] in
theorem compared_eq_iff {s t : RuleTerm} (hs : s.Proper) (ht : t.Proper)
    (hmix : LemmaAndTerminal s.term t.term → ¬ SpelledAlike context s t) :
    (s.item context : Items.GrammarItem D).compared = (t.item context).compared ↔
      SameSymbol context s t := by
  rw [compared_item context hs, compared_item context ht]
  simp only [Items.GrammarItem.compared, convertToGrammarItem, ComparedItem.mk.injEq, and_true,
    attributes_eq_iff, termAttribute_eq_iff]
  constructor
  · rintro ⟨hname, htype, ⟨hoptions, hreplace⟩, hpos, hneg⟩
    have hname := ascii_inj hname
    have halike : SpelledAlike context s t := by
      refine ⟨hname, hoptions, fun b => ?_, hreplace⟩
      cases b
      · exact hpos
      · exact hneg
    refine ⟨halike, ?_⟩
    · rw [hname] at htype
      by_cases hq : t.term.name = "?"
      · -- only a lemma can be spelled so
        have hlemma (u : RuleTerm) (hu : u.Proper) (h : u.term.name = "?") :
            u.term.type = .lemmaWord := by
          by_contra hne
          exact hu.name hne h
        rw [hlemma t ht hq, hlemma s hs (hname.trans hq)]
      · rw [if_neg hq, if_neg hq] at htype
        exact itemType_inj (fun hpair => hmix hpair halike) htype
  · rintro ⟨⟨hname, hoptions, hgrammems, hreplace⟩, htype⟩
    exact ⟨congrArg ascii hname, by rw [htype, hname], ⟨hoptions, hreplace⟩, hgrammems false,
      hgrammems true⟩

theorem proper_of_mem {rules : List RuleProto}
    (hnames : ∀ t ∈ grammarTerms rules, t.term.type ≠ .lemmaWord → t.term.name ≠ "?")
    {t : RuleTerm} (ht : t ∈ grammarTerms rules) : t.Proper := by
  refine ⟨hnames t ht, fun hleft => ?_⟩
  obtain ⟨rule, -, hmem⟩ := List.mem_flatMap.mp ht
  rcases List.mem_cons.mp hmem with rfl | hmem
  · exact ⟨rfl, rfl⟩
  · obtain ⟨item, -, rfl⟩ := List.mem_map.mp hmem
    exact absurd hleft (by simp)

/-- Two terms of a grammar, apart from a lemma and a terminal that are spelled alike, have one number
exactly when they are the same symbol. -/
theorem symbolNumber_eq_iff {rules : List RuleProto}
    (hnames : ∀ t ∈ grammarTerms rules, t.term.type ≠ .lemmaWord → t.term.name ≠ "?")
    {i j n m : ℕ} {s t : RuleTerm} (hs : (grammarTerms rules)[i]? = some s)
    (ht : (grammarTerms rules)[j]? = some t)
    (hn : (encodeGrammar (D := D) context rules).1[i]? = some n)
    (hm : (encodeGrammar (D := D) context rules).1[j]? = some m)
    (hmix : LemmaAndTerminal s.term t.term → ¬ SpelledAlike context s t) :
    n = m ↔ SameSymbol context s t := by
  have hempty : Interning.Distinct Items.GrammarItem.compared ([] : List (Items.GrammarItem D)) :=
    List.nodup_nil
  obtain ⟨hdistinct, -, hnumbered⟩ := encodeTerms_spec context hempty (grammarTerms rules)
  rw [number_eq_iff hdistinct (hnumbered i n s hs hn) (hnumbered j m t ht hm)]
  exact compared_eq_iff context (proper_of_mem hnames (List.mem_of_getElem? hs))
    (proper_of_mem hnames (List.mem_of_getElem? ht)) hmix

/-- A right-part item of the fixed rules below. -/
def termItem (name : String) (type : TermType) (p : PostfixProto := {}) : RuleItemProto :=
  { term := { name := name, type := type, termPostfix := p } }

/-- `S -> Noun<h-reg1> Noun<h-reg1> Noun;` -/
def nounRule : RuleProto :=
  { name := "S",
    items := [termItem "Noun" .terminal { hReg1 := true },
      termItem "Noun" .terminal { hReg1 := true }, termItem "Noun" .terminal] }

/-- Grammemes are told apart by their number here. -/
def plainContext : TermContext := { decodeTomita := id, fromBytes := fun g => {g.length} }

/-- The two kinds of term in the rule. -/
def capitalNoun : RuleTerm := ⟨true, (termItem "Noun" .terminal { hReg1 := true }).term, ""⟩

def anyNoun : RuleTerm := ⟨true, (termItem "Noun" .terminal).term, ""⟩

theorem symbolNumber_nounRule :
    SameSymbol plainContext capitalNoun capitalNoun ∧
      ¬ SameSymbol plainContext capitalNoun anyNoun :=
  have hnames : ∀ t ∈ grammarTerms [nounRule], t.term.type ≠ .lemmaWord → t.term.name ≠ "?" := by
    decide
  ⟨(symbolNumber_eq_iff (D := Unit) (i := 1) (j := 2) (n := 1) (m := 1) plainContext hnames rfl rfl
      (by decide) (by decide) (by simp [LemmaAndTerminal, termItem])).mp rfl,
    fun h => absurd ((symbolNumber_eq_iff (D := Unit) (i := 1) (j := 3) (n := 1) (m := 2)
      plainContext hnames rfl rfl (by decide) (by decide)
      (by simp [LemmaAndTerminal, termItem])).mpr h) (by decide)⟩

/-- `S -> "Noun" Noun A<rt> A;` -/
def sharedRule : RuleProto :=
  { name := "S",
    items := [termItem "Noun" .lemmaWord, termItem "Noun" .terminal,
      termItem "A" .nonTerminal { root := true }, termItem "A" .nonTerminal] }

/-- A term with a mark for the main word and one without have one number, and so have a lemma and
the terminal spelled like it. -/
theorem sharedRule_numbers :
    (encodeGrammar (D := Unit) plainContext [sharedRule]).1 = [0, 1, 1, 2, 2] ∧
    ¬ ∀ (rules : List RuleProto) (i j n m : ℕ) (s t : RuleTerm),
      (grammarTerms rules)[i]? = some s → (grammarTerms rules)[j]? = some t →
      (encodeGrammar (D := Unit) plainContext rules).1[i]? = some n →
      (encodeGrammar (D := Unit) plainContext rules).1[j]? = some m →
      (n = m ↔ s.term = t.term ∧ s.replacement = t.replacement) := by
  have hnumbers : (encodeGrammar (D := Unit) plainContext [sharedRule]).1 = [0, 1, 1, 2, 2] := by
    decide
  refine ⟨hnumbers, fun h => ?_⟩
  have hroot := h [sharedRule] 3 4 2 2 ⟨true, (termItem "A" .nonTerminal { root := true }).term, ""⟩
    ⟨true, (termItem "A" .nonTerminal).term, ""⟩ rfl rfl (by rw [hnumbers]; rfl)
    (by rw [hnumbers]; rfl)
  exact absurd (hroot.mp rfl).1 (by decide)

end TomitaParser
