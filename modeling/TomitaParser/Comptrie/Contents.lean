import Mathlib.Data.List.Infix
import TomitaParser.Comptrie.SearchIterator
/-! # The contents of a trie

A position in the data reads as what is left of the search tree. The values for keys are found in the
tree byte by byte. -/

namespace TomitaParser.Comptrie
open TernaryTree
variable {extra : ℕ} {Data : Type} {packer : Packer Data}

/-- A node is read at an offset as one byte more of a key sees it. -/
theorem leapByte_readNode {data : List ℕ} {offset : ℕ} {node : Node}
    (h : readNode packer data offset = some node) :
    jumpEpsilon data offset = some offset ∧ ∃ flags datapos,
      (∀ b, leapByte b (data.drop offset) =
        if b < node.label then
          if node.leftOffset = 0 then none else leapByte b (data.drop node.leftOffset)
        else if node.label < b then
          if node.rightOffset = 0 then none else leapByte b (data.drop node.rightOffset)
        else some (flags, datapos)) ∧
      node.leafPos = (if isFinalLink flags then some datapos else none) ∧
      (if isNextLink flags then
        ∃ o, (if isFinalLink flags then datapos.drop (packer.skipLeaf datapos) else datapos) =
          data.drop o ∧ jumpEpsilon data o = some node.forwardOffset ∧ 0 < o
      else node.forwardOffset = 0) := by
  rw [readNode] at h
  split at h
  · rename_i flags label datapos hdrop
    by_cases hepsilon : isEpsilonLink flags
    · simp [hepsilon] at h
    · rw [if_neg hepsilon] at h
      have hhead : jumpEpsilon data offset = some offset := by
        rw [jumpEpsilon, hdrop]
        simp [hepsilon]
      have hdropOffset : ∀ k, (flags :: label :: datapos).drop k = data.drop (k + offset) := by
        intro k
        rw [← hdrop, List.drop_drop, Nat.add_comm]
      refine ⟨hhead, flags, (datapos.drop (leftOffsetLen flags)).drop (rightOffsetLen flags), ?_⟩
      have hleap : ∀ b left right : ℕ,
          left = absOffset offset (unpackOffset datapos (leftOffsetLen flags)) →
          right = absOffset offset
            (unpackOffset (datapos.drop (leftOffsetLen flags)) (rightOffsetLen flags)) →
          leapByte b (data.drop offset) =
            if b < label then if left = 0 then none else leapByte b (data.drop left)
            else if label < b then if right = 0 then none else leapByte b (data.drop right)
            else some (flags,
              (datapos.drop (leftOffsetLen flags)).drop (rightOffsetLen flags)) := by
        rintro b left right rfl rfl
        rw [hdrop, leapByte]
        simp only [hepsilon, Bool.false_eq_true, if_false, hdropOffset]
        have habs : ∀ k, (if k = 0 then none else leapByte b (data.drop (k + offset))) =
            if absOffset offset k = 0 then none
            else leapByte b (data.drop (absOffset offset k)) := by
          intro k
          by_cases hk : k = 0
          · simp [hk, absOffset]
          · have hne : ¬ absOffset offset k = 0 := fun h => hk (absOffset_eq_zero.mp h)
            rw [if_neg hk, if_neg hne, absOffset, if_neg hk]
        rw [habs, habs]
      by_cases hnext : isNextLink flags
      · rw [if_pos hnext] at h
        obtain ⟨forwardOffset, hforward, rfl⟩ := Option.map_eq_some_iff.mp h
        refine ⟨fun b => hleap b _ _ rfl rfl, rfl, ?_⟩
        rw [if_pos hnext]
        refine ⟨_, ?_, hforward, by omega⟩
        have hpos : (datapos.drop (leftOffsetLen flags)).drop (rightOffsetLen flags) =
            data.drop (offset + (2 + leftOffsetLen flags + rightOffsetLen flags)) := by
          rw [show offset + (2 + leftOffsetLen flags + rightOffsetLen flags) =
            2 + leftOffsetLen flags + rightOffsetLen flags + offset by omega, ← hdropOffset,
            List.drop_drop, Nat.add_assoc, Nat.add_comm 2, List.drop_succ_cons, List.drop_succ_cons]
        by_cases hfinal : isFinalLink flags
        · simp only [if_pos hfinal]
          rw [hpos, List.drop_drop, Nat.add_assoc]
        · simp only [if_neg hfinal]
          rw [hpos, Nat.add_zero]
      · rw [if_neg hnext] at h
        obtain rfl := Option.some.inj h
        refine ⟨fun b => hleap b _ _ rfl rfl, rfl, ?_⟩
        rw [if_neg hnext]
  · simp at h

/-- From a position on the data reads as a tree that is not empty. -/
def Reads (packer : Packer Data) (datapos : List ℕ) (t : Tree ℕ Data) : Prop :=
  t ≠ .nil ∧ ∃ data o offset, datapos = data.drop o ∧ jumpEpsilon data o = some offset ∧
    ReadsAs packer data t offset

theorem leapByte_jumpEpsilon {data : List ℕ} {o offset : ℕ} (h : jumpEpsilon data o = some offset)
    (b : ℕ) : leapByte b (data.drop o) = leapByte b (data.drop offset) := by
  rw [jumpEpsilon] at h
  split at h
  · simp at h
  · rename_i flags rest hdrop
    simp only at h
    split_ifs at h with hepsilon hzero
    · obtain rfl := Option.some.inj h
      rw [hdrop, leapByte.eq_def]
      simp only [if_pos hepsilon, if_neg hzero]
      rw [← hdrop, List.drop_drop]
    · rw [Option.some.inj h]

theorem traverseEpsilon_eq {data : List ℕ} {o offset : ℕ} (h : jumpEpsilon data o = some offset) :
    traverseEpsilon (data.drop o) = data.drop offset := by
  rw [jumpEpsilon] at h
  split at h
  · simp at h
  · rename_i flags rest hdrop
    simp only at h
    rw [hdrop, traverseEpsilon.eq_def]
    split_ifs at h with hepsilon hzero
    · obtain rfl := Option.some.inj h
      simp only [if_pos hepsilon]
      rw [← hdrop, List.drop_drop]
    · simp only [if_neg hepsilon]
      rw [← Option.some.inj h, hdrop]

theorem ReadsAs.reads {data : List ℕ} {t : Tree ℕ Data} {offset : ℕ} (hne : t ≠ .nil)
    (h : ReadsAs packer data t offset) : Reads packer (data.drop offset) t := by
  cases t with
  | nil => exact absurd rfl hne
  | node label payload left forward right =>
    obtain ⟨node, hread, hrest⟩ := h
    exact ⟨hne, data, offset, offset, rfl, (leapByte_readNode hread).1, node, hread, hrest⟩

theorem Reads.traverseEpsilon {datapos : List ℕ} {t : Tree ℕ Data} (h : Reads packer datapos t) :
    Reads packer (traverseEpsilon datapos) t := by
  obtain ⟨hne, data, o, offset, rfl, hjump, hreads⟩ := h
  rw [traverseEpsilon_eq hjump]
  exact hreads.reads hne

theorem Reads.ne_nil {datapos : List ℕ} {t : Tree ℕ Data} (h : Reads packer datapos t) :
    datapos ≠ [] := by
  obtain ⟨-, data, o, offset, rfl, hjump, -⟩ := h
  intro hnil
  rw [jumpEpsilon, hnil] at hjump
  simp at hjump

/-- What a lookup sees behind a byte: whether there is a value, where it is, and what comes after
it. -/
structure LeapsTo (packer : Packer Data) (flags : ℕ) (datapos : List ℕ) (payload : Option Data)
    (forward : Tree ℕ Data) : Prop where
  isFinal : isFinalLink flags = payload.isSome
  value : ∀ v, payload = some v → packer.unpackLeaf datapos = v
  isNext : isNextLink flags = true ↔ forward ≠ .nil
  reads : forward ≠ .nil →
    Reads packer (if isFinalLink flags then datapos.drop (packer.skipLeaf datapos) else datapos)
      forward

theorem leapsTo_of_readNode {data : List ℕ} {node : Node} {flags : ℕ} {datapos : List ℕ}
    {payload : Option Data} {forward : Tree ℕ Data} (hpayload : node.HasPayload packer payload)
    (hforward : node.forwardOffset = 0 ↔ forward = .nil)
    (hreads : ReadsAs packer data forward node.forwardOffset)
    (hleaf : node.leafPos = if isFinalLink flags then some datapos else none)
    (hnext : if isNextLink flags then
        ∃ o, (if isFinalLink flags then datapos.drop (packer.skipLeaf datapos) else datapos) =
          data.drop o ∧ jumpEpsilon data o = some node.forwardOffset ∧ 0 < o
      else node.forwardOffset = 0) : LeapsTo packer flags datapos payload forward := by
  have hnext_iff : isNextLink flags = true ↔ forward ≠ .nil := by
    constructor
    · intro h
      rw [if_pos h] at hnext
      obtain ⟨o, -, hjump, ho⟩ := hnext
      have := le_of_jumpEpsilon hjump
      exact mt hforward.mpr (by omega)
    · intro hne
      by_contra h
      rw [if_neg h] at hnext
      exact hne (hforward.mp hnext)
  refine ⟨?_, ?_, hnext_iff, ?_⟩
  · cases payload with
    | none =>
      rw [show node.leafPos = none from hpayload] at hleaf
      by_contra h
      rw [if_pos (by simpa using h)] at hleaf
      simp at hleaf
    | some v =>
      obtain ⟨after, hpos⟩ := hpayload
      rw [hpos] at hleaf
      by_contra h
      rw [if_neg (by simpa using h)] at hleaf
      simp at hleaf
  · rintro v rfl
    obtain ⟨after, hpos⟩ := hpayload
    rw [hpos] at hleaf
    split_ifs at hleaf
    rw [← Option.some.inj hleaf, packer.unpackLeaf_packLeaf]
  · intro hne
    rw [if_pos (hnext_iff.mpr hne)] at hnext
    obtain ⟨o, hdrop, hjump, -⟩ := hnext
    exact ⟨hne, data, o, _, hdrop, hjump, hreads⟩

/-- A lookup takes a byte as the tree is searched for it. -/
def LeapFinds (packer : Packer Data) (leap : Option (ℕ × List ℕ)) :
    Option (Option Data × Tree ℕ Data) → Prop
  | none => leap = none
  | some (payload, forward) =>
    ∃ flags datapos, leap = some (flags, datapos) ∧ LeapsTo packer flags datapos payload forward

/-- `LeapByte` is the search for a symbol of the tree. -/
theorem Reads.leapFinds {datapos : List ℕ} {t : Tree ℕ Data} (h : Reads packer datapos t) (b : ℕ) :
    LeapFinds packer (leapByte b datapos) (t.search b) := by
  obtain ⟨hne, data, o, offset, rfl, hjump, hreads⟩ := h
  rw [leapByte_jumpEpsilon hjump]
  clear hjump
  induction t generalizing offset with
  | nil => exact absurd rfl hne
  | node label payload left forward right ihLeft _ ihRight =>
    obtain ⟨node, hread, rfl, hpayload, hleft, hforward, hright, hl, hf, hr⟩ := hreads
    obtain ⟨-, flags, pos, hleap, hleaf, hnext⟩ := leapByte_readNode hread
    have hside : ∀ {side : Tree ℕ Data} {child : ℕ}, (child = 0 ↔ side = .nil) →
        (side ≠ .nil → LeapFinds packer (leapByte b (data.drop child)) (side.search b)) →
        LeapFinds packer (if child = 0 then none else leapByte b (data.drop child))
          (side.search b) := by
      intro side child hchild hreads
      by_cases hzero : child = 0
      · rw [hchild.mp hzero, if_pos hzero]
        rfl
      · rw [if_neg hzero]
        exact hreads (mt hchild.mpr hzero)
    rw [hleap, TernaryTree.Tree.search]
    by_cases hlt : b < node.label
    · rw [if_pos hlt, if_pos hlt]
      exact hside hleft fun hne => ihLeft hne _ hl
    · rw [if_neg hlt, if_neg hlt]
      by_cases hgt : node.label < b
      · rw [if_pos hgt, if_pos hgt]
        exact hside hright fun hne => ihRight hne _ hr
      · rw [if_neg hgt, if_neg hgt]
        exact ⟨flags, pos, rfl, leapsTo_of_readNode hpayload hforward hf hleaf hnext⟩

/-- What there is behind some bytes: the value for them and the tree of what comes after them. -/
def follow (s : Option Data × Tree ℕ Data) (bs : List ℕ) : Option (Option Data × Tree ℕ Data) :=
  bs.foldlM (fun s b => s.2.search b) s

@[simp]
theorem follow_nil (s : Option Data × Tree ℕ Data) : follow s [] = some s := rfl

theorem follow_cons (s : Option Data × Tree ℕ Data) (b : ℕ) (bs : List ℕ) :
    follow s (b :: bs) = (s.2.search b).bind fun s => follow s bs := by
  rw [follow, List.foldlM_cons]
  rfl

theorem follow_append (s : Option Data × Tree ℕ Data) (bs bs' : List ℕ) :
    follow s (bs ++ bs') = (follow s bs).bind fun s => follow s bs' := by
  rw [follow, List.foldlM_append]
  rfl

theorem follow_of_ne_nil (payload : Option Data) (t : Tree ℕ Data) {bs : List ℕ} (h : bs ≠ []) :
    follow (payload, t) bs = follow (none, t) bs := by
  cases bs with
  | nil => exact absurd rfl h
  | cons b bs => rw [follow_cons, follow_cons]

theorem follow_empty (payload : Option Data) {bs : List ℕ} (h : bs ≠ []) :
    follow (payload, .nil) bs = none := by
  cases bs with
  | nil => exact absurd rfl h
  | cons b bs =>
    rw [follow_cons]
    rfl

theorem live_follow {s s' : Option Data × Tree ℕ Data} (h : s.2.Live) {bs : List ℕ}
    (hfollow : follow s bs = some s') : s'.2.Live ∧ (bs ≠ [] → s'.1 = none → s'.2 ≠ .nil) := by
  have hsearch : ∀ {t : Tree ℕ Data} {b : ℕ} {s : Option Data × Tree ℕ Data}, t.Live →
      t.search b = some s → s.2.Live ∧ (s.1 = none → s.2 ≠ .nil) := by
    intro t b s ht hs
    induction t with
    | nil => simp [TernaryTree.Tree.search] at hs
    | node label payload left forward right ihLeft _ ihRight =>
      rw [TernaryTree.Tree.search] at hs
      split_ifs at hs
      · exact ihLeft ht.2.1 hs
      · exact ihRight ht.2.2.2 hs
      · obtain rfl := Option.some.inj hs
        exact ⟨ht.2.2.1, ht.1⟩
  induction bs generalizing s with
  | nil =>
    obtain rfl := Option.some.inj hfollow
    exact ⟨h, fun hne => absurd rfl hne⟩
  | cons b bs ih =>
    rw [follow_cons] at hfollow
    obtain ⟨mid, hmid, hfollow⟩ := Option.bind_eq_some_iff.mp hfollow
    have hlive := hsearch h hmid
    have hrest := ih hlive.1 hfollow
    refine ⟨hrest.1, fun _ hnone => ?_⟩
    cases bs with
    | nil =>
      obtain rfl := Option.some.inj hfollow
      exact hlive.2 hnone
    | cons c cs => exact hrest.2 (List.cons_ne_nil c cs) hnone

theorem exists_follow {t : Tree ℕ Data} (h : t.Live) (hne : t ≠ .nil) :
    ∃ bs v t', bs ≠ [] ∧ follow (none, t) bs = some (some v, t') := by
  induction t with
  | nil => exact absurd rfl hne
  | node label payload left forward right _ ihForward _ =>
    have hsearch : (TernaryTree.Tree.node label payload left forward right).search label =
        some (payload, forward) := by
      rw [TernaryTree.Tree.search, if_neg (lt_irrefl _), if_neg (lt_irrefl _)]
    cases payload with
    | some v =>
      refine ⟨[label], v, forward, List.cons_ne_nil _ _, ?_⟩
      rw [follow_cons, hsearch]
      rfl
    | none =>
      obtain ⟨bs, v, t', -, hbs⟩ := ihForward h.2.2.1 (h.1 rfl)
      refine ⟨label :: bs, v, t', List.cons_ne_nil _ _, ?_⟩
      rw [follow_cons, hsearch]
      exact hbs

/-- The value for a key. -/
def contents (s : Option Data × Tree ℕ Data) (key : List (Symbol extra)) : Option Data :=
  (follow s (convertSymbolArrayToChar key)).bind Prod.fst

@[simp]
theorem contents_nil (s : Option Data × Tree ℕ Data) :
    contents s ([] : List (Symbol extra)) = s.1 := rfl

theorem contents_append (s : Option Data × Tree ℕ Data) (p rest : List (Symbol extra)) :
    contents s (p ++ rest) =
      (follow s (convertSymbolArrayToChar p)).bind fun s => contents s rest := by
  rw [contents, convertSymbolArrayToChar, List.flatMap_append, ← convertSymbolArrayToChar,
    ← convertSymbolArrayToChar, follow_append, Option.bind_assoc]
  rfl

theorem contents_cons (s : Option Data × Tree ℕ Data) (label : Symbol extra)
    (rest : List (Symbol extra)) :
    contents s (label :: rest) = (follow s (symbolBytes label)).bind fun s => contents s rest := by
  have h := contents_append s [label] rest
  rwa [convert_cons, convertSymbolArrayToChar, List.flatMap_nil, List.append_nil] at h

theorem symbolBytes_ne_nil (label : Symbol extra) : symbolBytes label ≠ [] := by
  rw [← List.length_pos_iff, length_symbolBytes]
  omega

/-- The values are for whole symbols, but for that of the empty key, which has a byte. -/
def Aligned (extra : ℕ) (s : Option Data × Tree ℕ Data) : Prop :=
  ∀ bs v t', bs ≠ [] → follow s bs = some (some v, t') →
    (∃ key : List (Symbol extra), bs = convertSymbolArrayToChar key) ∨ bs = [0] ∧ s.1 = some v

theorem Aligned.symbol {s s' : Option Data × Tree ℕ Data} (h : Aligned extra s)
    {label : Symbol extra} (hsymbol : follow s (symbolBytes label) = some s') (bs : List ℕ) (v : Data)
    (t' : Tree ℕ Data) (hne : bs ≠ []) (hfollow : follow s' bs = some (some v, t')) :
    ∃ key : List (Symbol extra), bs = convertSymbolArrayToChar key := by
  have hwhole : follow s (symbolBytes label ++ bs) = some (some v, t') := by
    rw [follow_append, hsymbol]
    exact hfollow
  have hlen := length_symbolBytes label
  rcases h _ v t' (by simp [hne]) hwhole with ⟨key, hkey⟩ | ⟨hzero, -⟩
  · cases key with
    | nil => exact absurd (List.append_eq_nil_iff.mp hkey).2 hne
    | cons label' key =>
      rw [convert_cons] at hkey
      exact ⟨key, (List.append_inj hkey (by simp)).2⟩
  · have hsum := congrArg List.length hzero
    have hpos := List.length_pos_iff.mpr hne
    rw [List.length_append, List.length_singleton] at hsum
    omega

theorem Aligned.middle {s : Option Data × Tree ℕ Data} (h : Aligned extra s) {label : Symbol extra}
    {bs bs' : List ℕ} (hbytes : symbolBytes label = bs ++ bs') (hne : bs ≠ []) (hne' : bs' ≠ [])
    {v : Data} {t' : Tree ℕ Data} (hfollow : follow s bs = some (some v, t')) : s.1 = some v := by
  rcases h bs v t' hne hfollow with ⟨key, hkey⟩ | ⟨-, hempty⟩
  · have hlen := congrArg List.length hbytes
    have hpos' := List.length_pos_iff.mpr hne'
    rw [length_symbolBytes, List.length_append] at hlen
    cases key with
    | nil => exact absurd hkey hne
    | cons label' key =>
      have hlen' := congrArg List.length hkey
      rw [convert_cons, List.length_append, length_symbolBytes] at hlen'
      omega
  · exact hempty

/-- The prefixes of a key that have values, the shortest first. -/
def prefixValues {σ : Type} (m : List σ → Option Data) (n : ℕ) (key : List σ) : List (ℕ × Data) :=
  key.inits.filterMap fun p => (m p).map fun v => (n + p.length, v)

theorem prefixValues_nil {σ : Type} (m : List σ → Option Data) (n : ℕ) :
    prefixValues m n [] = ((m []).map fun v => (n, v)).toList := by
  rw [prefixValues, List.inits, List.filterMap_cons]
  cases m [] <;> rfl

theorem prefixValues_cons {σ : Type} (m : List σ → Option Data) (n : ℕ) (label : σ) (key : List σ) :
    prefixValues m n (label :: key) = ((m []).map fun v => (n, v)).toList ++
      prefixValues (fun p => m (label :: p)) (n + 1) key := by
  have hlen : ∀ p : List σ, n + (label :: p).length = n + 1 + p.length := by
    intro p
    rw [List.length_cons]
    omega
  rw [prefixValues, List.inits, List.filterMap_cons, List.filterMap_map, prefixValues]
  simp only [Function.comp_def, hlen]
  cases m [] <;> rfl

theorem prefixValues_none {σ : Type} {m : List σ → Option Data} (h : ∀ p, m p = none) (n : ℕ)
    (key : List σ) : prefixValues m n key = [] := by
  rw [prefixValues]
  exact List.filterMap_eq_nil_iff.mpr fun p _ => by rw [h, Option.map_none]

theorem prefixValues_contents (payload : Option Data) (t : Tree ℕ Data) (n : ℕ)
    (key : List (Symbol extra)) : prefixValues (contents (payload, t)) n key =
      (payload.map fun v => (n, v)).toList ++ prefixValues (contents (none, t)) n key := by
  cases key with
  | nil => rw [prefixValues_nil, prefixValues_nil, contents_nil, contents_nil]; simp
  | cons label key =>
    rw [prefixValues_cons, prefixValues_cons, contents_nil, contents_nil]
    simp only [contents_cons, follow_of_ne_nil payload t (symbolBytes_ne_nil label)]
    rfl

theorem prefixValues_symbol (t : Tree ℕ Data) (n : ℕ) (label : Symbol extra)
    (key : List (Symbol extra)) : prefixValues (contents (none, t)) n (label :: key) =
      match follow (none, t) (symbolBytes label) with
      | none => []
      | some s => prefixValues (contents s) (n + 1) key := by
  rw [prefixValues_cons, contents_nil]
  simp only [contents_cons]
  cases follow (none, t) (symbolBytes label) with
  | none => exact prefixValues_none (fun _ => rfl) _ _
  | some s => rfl

theorem prefixValues_empty (n : ℕ) (key : List (Symbol extra)) :
    prefixValues (contents ((none : Option Data), .nil)) n key = [] := by
  apply prefixValues_none
  intro p
  by_cases hp : p = []
  · rw [hp, contents_nil]
  · rw [contents, follow_empty none (convert_ne_nil hp)]
    rfl

end TomitaParser.Comptrie
