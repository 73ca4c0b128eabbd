import TomitaParser.Comptrie.Contents
/-! # The lookups describe one map

Each lookup takes the bytes of one symbol after the other. What a symbol does to it follows by
induction on the bytes, and the rest by induction on the key. -/

namespace TomitaParser.Comptrie
open TernaryTree
variable {extra : ℕ} {Data : Type} {packer : Packer Data}

/-- A trie reads as a tree, with the value of the empty key. -/
structure Describes (packer : Packer Data) (extra : ℕ) (trie : ByteTrie)
    (s : Option Data × Tree ℕ Data) : Prop where
  empty : trie.emptyValue.map packer.unpackLeaf = s.1
  null : s.2 = .nil → trie.data = []
  reads : s.2 ≠ .nil → Reads packer trie.data s.2
  live : s.2.Live
  aligned : Aligned extra s

/-- `Advance` goes where the tree is followed. -/
def AdvanceFinds (packer : Packer Data) (result : Option (Option (List ℕ) × Option (List ℕ))) :
    Option (Option Data × Tree ℕ Data) → Prop
  | none => result = none
  | some s => ∃ datapos value, result = some (datapos, value) ∧
      value.map packer.unpackLeaf = s.1 ∧ (s.2 = .nil → datapos = none) ∧
      (s.2 ≠ .nil → ∃ p, datapos = some p ∧ Reads packer p s.2)

theorem Reads.advanceBytes {datapos : List ℕ} {t : Tree ℕ Data} (h : Reads packer datapos t)
    {bs : List ℕ} (hne : bs ≠ []) :
    AdvanceFinds packer (advanceBytes packer bs datapos) (follow (none, t) bs) := by
  induction bs generalizing datapos t with
  | nil => exact absurd rfl hne
  | cons b bs ih =>
    have hleap := h.leapFinds b
    rw [follow_cons, Comptrie.advanceBytes]
    simp only
    generalize t.search b = found at *
    cases found with
    | none =>
      rw [show leapByte b datapos = none from hleap]
      rfl
    | some s =>
      obtain ⟨payload, forward⟩ := s
      obtain ⟨flags, datapos', hleap, hto⟩ := hleap
      rw [hleap, Option.bind_some]
      have hvalue : (if isFinalLink flags then some datapos' else none).map packer.unpackLeaf =
          payload := by
        rw [hto.isFinal]
        cases payload with
        | none => rfl
        | some v => rw [Option.isSome_some, if_pos rfl, Option.map_some, hto.value v rfl]
      by_cases hforward : forward = .nil
      · have hnext : isNextLink flags = false := by
          by_contra hnext
          exact hto.isNext.mp (by simpa using hnext) hforward
        simp only [hnext, Bool.not_false, if_true]
        by_cases hbs : bs = []
        · subst hbs
          rw [if_pos rfl]
          exact ⟨none, _, rfl, hvalue, fun _ => rfl, fun h => absurd hforward h⟩
        · rw [if_neg hbs, hforward, follow_empty payload hbs]
          rfl
      · have hnext := hto.isNext.mpr hforward
        have hreads := (hto.reads hforward).traverseEpsilon
        simp only [hnext, Bool.not_true, Bool.false_eq_true, if_false]
        by_cases hbs : bs = []
        · subst hbs
          rw [if_pos rfl]
          exact ⟨_, _, rfl, hvalue, fun h => absurd h hforward, fun _ => ⟨_, rfl, hreads⟩⟩
        · rw [if_neg hbs, follow_of_ne_nil payload forward hbs]
          exact ih hreads hbs

/-- A match as its number of symbols and its value. -/
def Match.read (packer : Packer Data) (m : Match) : ℕ × Data :=
  (m.prefixLen, packer.unpackLeaf m.valuepos)

/-- Where `LookupLongestPrefix` goes on: at the position behind the symbol, if at all. -/
def GoesOn (packer : Packer Data) (isEnd : Bool) (t : Tree ℕ Data) : Option (List ℕ) → Prop
  | none => isEnd = true ∨ t = .nil
  | some datapos => Reads packer datapos t

/-- What the bytes of a symbol do to a lookup that has found `before`. -/
def LookupFinds (packer : Packer Data) (symbols : ℕ) (isEnd : Bool) (before : Option (ℕ × Data))
    (result : Option (List ℕ) × Option Match) : Option (Option Data × Tree ℕ Data) → Prop
  | none => result.1 = none ∧ result.2.map (Match.read packer) = before
  | some s => result.2.map (Match.read packer) = (s.1.map fun v => (symbols + 1, v)).or before ∧
      GoesOn packer isEnd s.2 result.1

theorem Reads.lookupBytes {datapos : List ℕ} {t : Tree ℕ Data} (h : Reads packer datapos t)
    {bs : List ℕ} (hne : bs ≠ []) (symbols : ℕ) (isEnd : Bool) {found : Option Match}
    {before : Option (ℕ × Data)} (hfound : found.map (Match.read packer) = before)
    (hmiddle : ∀ bs₁ bs₂ v t', bs = bs₁ ++ bs₂ → bs₁ ≠ [] → bs₂ ≠ [] →
      follow (none, t) bs₁ = some (some v, t') → before = some (symbols, v)) :
    LookupFinds packer symbols isEnd before (lookupBytes packer symbols isEnd bs datapos found)
      (follow (none, t) bs) := by
  induction bs generalizing datapos t found with
  | nil => exact absurd rfl hne
  | cons b bs ih =>
    have hleap := h.leapFinds b
    have hsearch : ∀ s, t.search b = some s → follow (none, t) [b] = some s := by
      intro s hs
      rw [follow_cons, hs]
      rfl
    rw [follow_cons, Comptrie.lookupBytes]
    simp only
    generalize hs : t.search b = sought at *
    cases sought with
    | none =>
      rw [show leapByte b datapos = none from hleap]
      exact ⟨rfl, hfound⟩
    | some s =>
      obtain ⟨payload, forward⟩ := s
      obtain ⟨flags, datapos', hleap, hto⟩ := hleap
      rw [hleap, Option.bind_some]
      have hreads := hto.reads
      have hnil : forward = .nil → isNextLink flags = false := by
        intro hforward
        by_contra hnext
        exact hto.isNext.mp (by simpa using hnext) hforward
      have hlater : bs ≠ [] → ∀ bs₁ bs₂ v t', bs = bs₁ ++ bs₂ → bs₁ ≠ [] → bs₂ ≠ [] →
          follow (none, forward) bs₁ = some (some v, t') → before = some (symbols, v) := by
        intro _ bs₁ bs₂ v t' hbs hne₁ hne₂ hfollow
        refine hmiddle (b :: bs₁) bs₂ v t' (by rw [hbs]; rfl) (List.cons_ne_nil _ _) hne₂ ?_
        rw [follow_cons, hs]
        exact (follow_of_ne_nil payload forward hne₁).trans hfollow
      cases payload with
      | none =>
        have hfinal : isFinalLink flags = false := hto.isFinal
        simp only [hfinal, Bool.false_eq_true, if_false] at hreads ⊢
        by_cases hforward : forward = .nil
        · simp only [hnil hforward, Bool.not_false, if_true]
          by_cases hbs : bs = []
          · subst hbs
            exact ⟨hfound, Or.inr hforward⟩
          · rw [hforward, follow_empty none hbs]
            exact ⟨rfl, hfound⟩
        · simp only [hto.isNext.mpr hforward, Bool.not_true, Bool.false_eq_true, if_false]
          by_cases hbs : bs = []
          · subst hbs
            exact ⟨hfound, hreads hforward⟩
          · exact ih (hreads hforward) hbs hfound (hlater hbs)
      | some v =>
        have hfinal : isFinalLink flags = true := hto.isFinal
        simp only [hfinal, if_true] at hreads ⊢
        by_cases hbs : bs = []
        · subst hbs
          have hread : Match.read packer ⟨symbols + 1 - 0, datapos', isNextLink flags⟩ =
              (symbols + 1, v) := by
            rw [Match.read, hto.value v rfl]
            rfl
          simp only [if_true, true_and]
          split_ifs with hend hnext
          · exact ⟨congrArg some hread, Or.inl hend⟩
          · refine ⟨congrArg some hread, Or.inr ?_⟩
            by_contra hforward
            simp [hto.isNext.mpr hforward] at hnext
          · refine ⟨congrArg some hread, hreads ?_⟩
            rintro hforward
            simp [hnil hforward] at hnext
        · have hbefore := hmiddle [b] bs v forward rfl (List.cons_ne_nil _ _) hbs (hsearch _ rfl)
          have hread : (some ⟨symbols + 1 - 1, datapos', isNextLink flags⟩ : Option Match).map
              (Match.read packer) = before := by
            rw [hbefore, Option.map_some, Match.read, hto.value v rfl]
            rfl
          simp only [hbs, false_and, if_false]
          by_cases hforward : forward = .nil
          · simp only [hnil hforward, Bool.not_false, if_true]
            rw [hforward, follow_empty (some v) hbs]
            exact ⟨rfl, hread⟩
          · simp only [hto.isNext.mpr hforward, Bool.not_true, Bool.false_eq_true, if_false]
            rw [follow_of_ne_nil (some v) forward hbs]
            exact ih (hreads hforward) hbs hread (hlater hbs)

theorem Aligned.forget {payload : Option Data} {t : Tree ℕ Data}
    (h : ∀ bs v t', bs ≠ [] → follow (payload, t) bs = some (some v, t') →
      ∃ key : List (Symbol extra), bs = convertSymbolArrayToChar key) :
    Aligned extra (none, t) := by
  intro bs v t' hne hfollow
  exact Or.inl (h bs v t' hne ((follow_of_ne_nil payload t hne).trans hfollow))

theorem Aligned.next {s s' : Option Data × Tree ℕ Data} (h : Aligned extra s) {label : Symbol extra}
    (hsymbol : follow (none, s.2) (symbolBytes label) = some s') : Aligned extra (none, s'.2) := by
  have hsymbol' : follow s (symbolBytes label) = some s' :=
    (follow_of_ne_nil s.1 s.2 (symbolBytes_ne_nil label)).trans hsymbol
  exact Aligned.forget (h.symbol hsymbol')

/-- What has been found at last is for the longest prefix that has a value. -/
theorem Reads.lookupSymbols {datapos : List ℕ} {payload : Option Data} {t : Tree ℕ Data}
    (h : Reads packer datapos t) (haligned : Aligned extra (payload, t)) (symbols : ℕ)
    (key : List (Symbol extra)) {found : Option Match} {before : Option (ℕ × Data)}
    (hfound : found.map (Match.read packer) = before)
    (hempty : ∀ v, payload = some v → before = some (symbols, v)) :
    (lookupSymbols packer symbols key datapos found).map (Match.read packer) =
      (prefixValues (contents (none, t)) symbols key).getLast?.or before := by
  induction key generalizing datapos payload t symbols found before with
  | nil =>
    rw [Comptrie.lookupSymbols, prefixValues_nil, contents_nil]
    exact hfound
  | cons label key ih =>
    have hbytes := h.lookupBytes (symbolBytes_ne_nil label) symbols key.isEmpty hfound
      (fun bs₁ bs₂ v t' hbs hne₁ hne₂ hfollow =>
        hempty v (haligned.middle hbs hne₁ hne₂
          ((follow_of_ne_nil payload t hne₁).trans hfollow)))
    rw [Comptrie.lookupSymbols, prefixValues_symbol]
    generalize hs : follow (none, t) (symbolBytes label) = s at *
    cases hresult : Comptrie.lookupBytes packer symbols key.isEmpty (symbolBytes label) datapos
      found with
    | mk next found' =>
      rw [hresult] at hbytes
      cases s with
      | none =>
        obtain ⟨rfl, hfound'⟩ := hbytes
        exact hfound'
      | some s =>
        obtain ⟨hfound', hgoes⟩ := hbytes
        simp only
        rw [show s = (s.1, s.2) from rfl, prefixValues_contents]
        cases next with
        | none =>
          have hnone : prefixValues (contents (none, s.2)) (symbols + 1) key = [] := by
            rcases hgoes with hend | hnil
            · rw [List.isEmpty_iff.mp hend, prefixValues_nil]
              rfl
            · rw [hnil, prefixValues_empty]
          rw [hnone, List.append_nil]
          change found'.map (Match.read packer) = _
          rw [hfound']
          cases s.1 <;> rfl
        | some p =>
          rw [ih hgoes (haligned.next hs) (symbols + 1) hfound' (by simp), List.getLast?_append,
            Option.or_assoc]
          cases s.1 <;> rfl

theorem Describes.findLongestPrefix {trie : ByteTrie} {s : Option Data × Tree ℕ Data}
    (h : Describes packer extra trie s) (key : List (Symbol extra)) :
    trie.findLongestPrefix packer key = (prefixValues (contents s) 0 key).getLast? := by
  have hfound : (trie.emptyValue.map fun valuepos =>
      ({ prefixLen := 0, valuepos, hasNext := false } : Match)).map (Match.read packer) =
        s.1.map fun v => (0, v) := by
    rw [← h.empty, Option.map_map, Option.map_map]
    rfl
  have hempty : (prefixValues (contents s) 0 key).getLast? =
      (prefixValues (contents (none, s.2)) 0 key).getLast?.or (s.1.map fun v => (0, v)) := by
    rw [show s = (s.1, s.2) from rfl, prefixValues_contents, List.getLast?_append]
    cases s.1 <;> rfl
  change (trie.lookupLongestPrefix packer key).map (Match.read packer) = _
  rw [hempty, ByteTrie.lookupLongestPrefix]
  by_cases hnil : s.2 = .nil
  · rw [if_pos (h.null hnil), hfound, hnil, prefixValues_empty]
    rfl
  · have hreads := h.reads hnil
    rw [if_neg hreads.ne_nil]
    exact hreads.lookupSymbols h.aligned 0 key hfound fun v hv => by rw [hv]; rfl

theorem getLast?_prefixValues {σ : Type} (m : List σ → Option Data) (key : List σ) :
    ((prefixValues m 0 key).getLast?.bind fun r =>
      if r.1 ≠ key.length then none else some r.2) = m key := by
  have hsplit : ∃ shorter, key.inits = shorter ++ [key] ∧ ∀ p ∈ shorter, p.length < key.length := by
    induction key with
    | nil => exact ⟨[], rfl, by simp⟩
    | cons a key ih =>
      obtain ⟨shorter, heq, hlt⟩ := ih
      refine ⟨[] :: shorter.map (a :: ·), by rw [List.inits, heq]; simp, ?_⟩
      intro p hp
      rcases List.mem_cons.mp hp with rfl | hp
      · simp
      · obtain ⟨q, hq, rfl⟩ := List.mem_map.mp hp
        simpa using hlt q hq
  obtain ⟨shorter, heq, hlt⟩ := hsplit
  rw [prefixValues, heq, List.filterMap_append, List.getLast?_append]
  cases hkey : m key with
  | some v => simp [hkey]
  | none =>
    simp only [List.filterMap_cons, hkey, Option.map_none, List.filterMap_nil, List.getLast?_nil,
      Option.none_or]
    cases hlast : (shorter.filterMap fun p => (m p).map fun v => (0 + p.length, v)).getLast? with
    | none => rfl
    | some r =>
      obtain ⟨p, hp, hr⟩ := List.mem_filterMap.mp (List.mem_of_getLast? hlast)
      obtain ⟨v, -, rfl⟩ := Option.map_eq_some_iff.mp hr
      have := hlt p hp
      simp only [Option.bind_some]
      rw [if_pos (by omega)]

theorem Describes.find {trie : ByteTrie} {s : Option Data × Tree ℕ Data}
    (h : Describes packer extra trie s) (key : List (Symbol extra)) :
    trie.find packer key = contents s key := by
  rw [← getLast?_prefixValues (contents s) key, ← h.findLongestPrefix, ByteTrie.find, ByteTrie.findLongestPrefix]
  cases trie.lookupLongestPrefix packer key <;> rfl

/-- What the bytes of a symbol do to an iterator with these symbols behind them. -/
def StepFinds (packer : Packer Data) (key : List (Symbol extra)) (passed : ℕ)
    (result : Step (Symbol extra)) : Option (Option Data × Tree ℕ Data) → Prop
  | none => result = .stops
  | some (some v, t) => ∃ it, result = .matched it ∧ it.passed = passed ∧ it.prefixLen = passed ∧
      it.valuepos.map packer.unpackLeaf = some v ∧ (t = .nil → it.key = []) ∧
      (t ≠ .nil → it.key = key ∧ Reads packer it.datapos t)
  | some (none, t) => (t = .nil → result = .stops) ∧ (t ≠ .nil → ∃ it, result = .goes it ∧
      it.passed = passed ∧ it.key = key ∧ Reads packer it.datapos t)

theorem nextBytes_finds {bs : List ℕ} (hne : bs ≠ []) {it : PrefixIterator (Symbol extra)}
    {t : Tree ℕ Data} (h : Reads packer it.datapos t) :
    StepFinds packer it.key it.passed (nextBytes packer bs it) (follow (none, t) bs) := by
  induction bs generalizing it t with
  | nil => exact absurd rfl hne
  | cons b bs ih =>
    have hleap := h.leapFinds b
    rw [follow_cons, nextBytes]
    simp only
    generalize t.search b = sought at *
    cases sought with
    | none =>
      rw [show leapByte b it.datapos = none from hleap]
      rfl
    | some s =>
      obtain ⟨payload, forward⟩ := s
      obtain ⟨flags, datapos, hleap, hto⟩ := hleap
      rw [hleap, Option.bind_some]
      have hreads := hto.reads
      have hnil : forward = .nil → isNextLink flags = false := by
        intro hforward
        by_contra hnext
        exact hto.isNext.mp (by simpa using hnext) hforward
      cases payload with
      | none =>
        have hfinal : isFinalLink flags = false := hto.isFinal
        simp only [hfinal, Bool.false_eq_true, if_false] at hreads ⊢
        by_cases hforward : forward = .nil
        · simp only [hnil hforward, Bool.not_false, if_true]
          by_cases hbs : bs = []
          · subst hbs
            exact ⟨fun _ => rfl, fun h => absurd hforward h⟩
          · rw [hforward, follow_empty none hbs]
            rfl
        · simp only [hto.isNext.mpr hforward, Bool.not_true, Bool.false_eq_true, if_false]
          by_cases hbs : bs = []
          · subst hbs
            exact ⟨fun h => absurd h hforward, fun _ => ⟨_, rfl, rfl, rfl, hreads hforward⟩⟩
          · exact @ih hbs { it with datapos } forward (hreads hforward)
      | some v =>
        have hfinal : isFinalLink flags = true := hto.isFinal
        simp only [hfinal, if_true] at hreads ⊢
        by_cases hbs : bs = []
        · subst hbs
          simp only [if_true]
          refine ⟨_, rfl, ?_⟩
          have hvalue := congrArg some (hto.value v rfl)
          by_cases hforward : forward = .nil
          · simp only [hnil hforward, Bool.not_false, if_true]
            exact ⟨trivial, rfl, hvalue, fun _ => trivial, fun h => absurd hforward h⟩
          · simp only [hto.isNext.mpr hforward, Bool.not_true, Bool.false_eq_true, if_false]
            exact ⟨trivial, rfl, hvalue, fun h => absurd h hforward,
              fun _ => ⟨trivial, hreads hforward⟩⟩
        · simp only [if_neg hbs]
          by_cases hforward : forward = .nil
          · simp only [hnil hforward, Bool.not_false, if_true]
            rw [hforward, follow_empty (some v) hbs]
            rfl
          · simp only [hto.isNext.mpr hforward, Bool.not_true, Bool.false_eq_true, if_false]
            rw [follow_of_ne_nil (some v) forward hbs]
            exact @ih hbs ⟨it.key, it.passed, it.passed - 1, some datapos,
              datapos.drop (packer.skipLeaf datapos)⟩ forward (hreads hforward)

/-- The prefixes from what `Next` returns. -/
def collectFrom (packer : Packer Data) (trie : ByteTrie) (steps : ℕ) :
    Option (PrefixIterator (Symbol extra)) → List (ℕ × Data)
  | none => []
  | some it => (it.valuepos.map fun p => (it.prefixLen, packer.unpackLeaf p)).toList ++
      it.collect packer trie steps

theorem collect_succ (trie : ByteTrie) (steps : ℕ) (it : PrefixIterator (Symbol extra)) :
    it.collect packer trie (steps + 1) = collectFrom packer trie steps (it.next packer trie) := by
  rw [PrefixIterator.collect]
  cases it.next packer trie <;> rfl

theorem next_eq (trie : ByteTrie) {it : PrefixIterator (Symbol extra)} (h : it.datapos ≠ [])
    (hempty : it.valuepos ≠ none ∨ trie.emptyValue = none) :
    it.next packer trie = nextSymbols packer it.key it := by
  rw [PrefixIterator.next, if_neg h, if_neg]
  rintro ⟨hvalue, hne⟩
  exact hempty.elim (fun h => h hvalue) hne

theorem collect_nextSymbols (trie : ByteTrie) (key : List (Symbol extra))
    {it : PrefixIterator (Symbol extra)} {t : Tree ℕ Data} (h : Reads packer it.datapos t)
    {steps : ℕ} (hsteps : key.length ≤ steps) :
    collectFrom packer trie steps (nextSymbols packer key it) =
      prefixValues (contents (none, t)) it.passed key := by
  induction key generalizing it t steps with
  | nil =>
    rw [prefixValues_nil]
    rfl
  | cons label key ih =>
    rw [List.length_cons] at hsteps
    have hbytes := nextBytes_finds (symbolBytes_ne_nil label)
      (show Reads packer ({ it with key, passed := it.passed + 1 } : PrefixIterator _).datapos t
        from h)
    rw [nextSymbols, prefixValues_symbol]
    generalize nextBytes packer (symbolBytes label) { it with key, passed := it.passed + 1 } =
      result at *
    generalize follow (none, t) (symbolBytes label) = found at *
    cases found with
    | none =>
      obtain rfl := hbytes
      rfl
    | some s =>
      obtain ⟨payload, forward⟩ := s
      simp only
      rw [prefixValues_contents]
      cases payload with
      | none =>
        by_cases hforward : forward = .nil
        · obtain rfl := hbytes.1 hforward
          rw [hforward, prefixValues_empty]
          rfl
        · obtain ⟨it', rfl, hpassed, -, hreads⟩ := hbytes.2 hforward
          have hrest := ih hreads (by omega : key.length ≤ steps)
          rw [hpassed] at hrest
          exact hrest
      | some v =>
        obtain ⟨it', rfl, hpassed, hlen, hvalue, hnil, hgo⟩ := hbytes
        obtain ⟨p, hp, hread⟩ := Option.map_eq_some_iff.mp hvalue
        change (it'.valuepos.map _).toList ++ _ = _
        rw [hp, Option.map_some, hlen, hread]
        congr 1
        obtain ⟨steps, rfl⟩ := Nat.exists_eq_add_of_lt hsteps
        rw [Nat.add_comm key.length, collect_succ]
        by_cases hforward : forward = .nil
        · rw [hforward, prefixValues_empty]
          by_cases hend : it'.datapos = []
          · rw [PrefixIterator.next, if_pos hend]
            rfl
          · rw [next_eq trie hend (Or.inl (by simp [hp])), hnil hforward]
            rfl
        · obtain ⟨hkey, hreads⟩ := hgo hforward
          rw [next_eq trie hreads.ne_nil (Or.inl (by simp [hp])), hkey,
            ih hreads (by omega), hpassed]

theorem Describes.collect {trie : ByteTrie} {s : Option Data × Tree ℕ Data}
    (h : Describes packer extra trie s) (hdata : trie.data ≠ []) (key : List (Symbol extra))
    {steps : ℕ} (hsteps : key.length + 2 ≤ steps) :
    (trie.prefixIterator key).collect packer trie steps = prefixValues (contents s) 0 key := by
  obtain ⟨steps, rfl⟩ := Nat.exists_eq_add_of_le' hsteps
  have hreads := h.reads (mt h.null hdata)
  have hempty := h.empty
  rw [show s = (s.1, s.2) from rfl, prefixValues_contents, ← h.empty,
    show steps + (key.length + 2) = steps + key.length + 1 + 1 by omega, collect_succ]
  cases hvalue : trie.emptyValue with
  | none =>
    rw [next_eq trie hdata (Or.inr hvalue)]
    exact collect_nextSymbols trie key hreads (by omega)
  | some p =>
    have hnext : (trie.prefixIterator key).next packer trie =
        some { trie.prefixIterator key with valuepos := some p } := by
      rw [PrefixIterator.next, if_neg (show (trie.prefixIterator key).datapos ≠ [] from hdata),
        if_pos ⟨rfl, by simp [hvalue]⟩, hvalue]
    rw [hnext, collectFrom]
    congr 1
    rw [collect_succ, next_eq trie hdata (Or.inl (by simp))]
    exact collect_nextSymbols trie key hreads (by omega)

theorem Reads.findTailsLoop {datapos : List ℕ} {payload : Option Data} {t : Tree ℕ Data}
    (h : Reads packer datapos t) (hlive : t.Live) (haligned : Aligned extra (payload, t))
    {key : List (Symbol extra)} (hkey : key ≠ []) :
    match follow (payload, t) (convertSymbolArrayToChar key) with
    | none => findTailsLoop packer key datapos = none
    | some s => ∃ tails, findTailsLoop packer key datapos = some tails ∧
        Describes packer extra tails s := by
  induction key generalizing datapos payload t with
  | nil => exact absurd rfl hkey
  | cons label key ih =>
    have hbytes := h.advanceBytes (symbolBytes_ne_nil label)
    have hsymbol := @Aligned.symbol extra Data (payload, t)
    have hlive' := @live_follow Data (none, t)
    rw [convert_cons, follow_append, Comptrie.findTailsLoop, advanceSymbol,
      follow_of_ne_nil payload t (symbolBytes_ne_nil label)]
    cases hs : follow (none, t) (symbolBytes label) with
    | none =>
      rw [hs] at hbytes
      rw [show Comptrie.advanceBytes packer (symbolBytes label) datapos = none from hbytes]
      rfl
    | some s =>
      rw [hs] at hbytes
      obtain ⟨next, value, hadvance, hvalue, hnil, hgo⟩ := hbytes
      rw [hadvance, Option.bind_some]
      have hlive := (live_follow (s := (none, t)) hlive hs).1
      have hnext : Aligned extra s := fun bs v t' hne hfollow => Or.inl
        (haligned.symbol ((follow_of_ne_nil payload t (symbolBytes_ne_nil label)).trans hs) bs v t'
          hne hfollow)
      by_cases hend : key = []
      · subst hend
        refine ⟨_, rfl, hvalue, fun hempty => ?_, fun hne => ?_, hlive, hnext⟩
        · rw [hnil hempty]
          rfl
        · obtain ⟨p, rfl, hp⟩ := hgo hne
          exact hp
      · simp only [if_neg hend]
        by_cases hempty : s.2 = .nil
        · rw [hnil hempty, show s = (s.1, .nil) from Prod.ext rfl hempty,
            follow_empty _ (convert_ne_nil hend)]
        · obtain ⟨p, rfl, hp⟩ := hgo hempty
          exact ih hp hlive hnext hend

theorem Describes.findTails {trie : ByteTrie} {s : Option Data × Tree ℕ Data}
    (h : Describes packer extra trie s) (hdata : trie.data ≠ []) (p rest : List (Symbol extra)) :
    (trie.findTails packer p).bind (fun tails => tails.find packer rest) =
      contents s (p ++ rest) := by
  rw [ByteTrie.findTails, if_neg hdata, contents_append]
  by_cases hp : p = []
  · subst hp
    rw [if_pos rfl]
    exact h.find rest
  · rw [if_neg hp]
    have htails := @Reads.findTailsLoop extra Data packer trie.data s.1 s.2
      (h.reads (mt h.null hdata)) h.live h.aligned p hp
    rw [Prod.mk.eta] at htails
    cases hs : follow s (convertSymbolArrayToChar p) with
    | none =>
      rw [hs] at htails
      rw [show Comptrie.findTailsLoop packer p trie.data = none from htails]
      rfl
    | some s' =>
      rw [hs] at htails
      obtain ⟨tails, heq, hdescribes⟩ := htails
      rw [heq]
      exact hdescribes.find rest

/-- A key with a value that no other key goes on from is a proper prefix of the key. -/
def PassesLeaf (m : List (Symbol extra) → Option Data) (key : List (Symbol extra)) : Prop :=
  ∃ p rest, key = p ++ rest ∧ p ≠ [] ∧ rest ≠ [] ∧ m p ≠ none ∧ ∀ more ≠ [], m (p ++ more) = none

/-- The empty key has a value and is looked for itself, or other keys go on from a key without
one. -/
def EmptyKeyShows (m : List (Symbol extra) → Option Data) (key : List (Symbol extra)) : Prop :=
  m [] ≠ none ∧ (key = [] ∨ m key = none ∧ ∃ more ≠ [], m (key ++ more) ≠ none)

/-- The loop goes wrong where it would go on from the end of a tree, and where it ends at a position
without a value. -/
theorem Reads.searchLoop {datapos : List ℕ} {t : Tree ℕ Data} (h : Reads packer datapos t)
    (emptyValue valuepos : Option (List ℕ)) {key : List (Symbol extra)} (hkey : key ≠ []) :
    (searchLoop packer key (some datapos) valuepos).getValue packer emptyValue =
        some (contents (none, t) key) ↔
      (∀ p rest payload, key = p ++ rest → p ≠ [] → rest ≠ [] →
        follow (none, t) (convertSymbolArrayToChar p) ≠ some (payload, .nil)) ∧
      (emptyValue ≠ none →
        ∀ t', follow (none, t) (convertSymbolArrayToChar key) ≠ some (none, t')) := by
  induction key generalizing datapos t valuepos with
  | nil => exact absurd rfl hkey
  | cons label key ih =>
    have hbytes := h.advanceBytes (symbolBytes_ne_nil label)
    have hfollow : ∀ p : List (Symbol extra),
        follow (none, t) (convertSymbolArrayToChar (label :: p)) =
          (follow (none, t) (symbolBytes label)).bind fun s =>
            follow s (convertSymbolArrayToChar p) := by
      intro p
      rw [convert_cons, follow_append]
    rw [Comptrie.searchLoop, advanceSymbol, contents_cons, hfollow]
    have hprefix : ∀ p rest, label :: key = p ++ rest → p ≠ [] →
        ∃ p', p = label :: p' ∧ key = p' ++ rest := by
      intro p rest hp hne
      cases p with
      | nil => exact absurd rfl hne
      | cons c p' =>
        obtain ⟨rfl, hp'⟩ := List.cons.inj hp
        exact ⟨p', rfl, hp'⟩
    cases hs : follow (none, t) (symbolBytes label) with
    | none =>
      rw [hs] at hbytes
      rw [show Comptrie.advanceBytes packer (symbolBytes label) datapos = none from hbytes]
      refine ⟨fun _ => ⟨fun p rest payload hp hne _ => ?_, fun _ t' => by simp⟩, fun _ => rfl⟩
      obtain ⟨p', rfl, -⟩ := hprefix p rest hp hne
      rw [hfollow, hs]
      simp
    | some s =>
      obtain ⟨payload, forward⟩ := s
      rw [hs] at hbytes
      obtain ⟨next, value, hadvance, hvalue, hnil, hgo⟩ := hbytes
      rw [hadvance, Option.bind_some, Option.bind_some]
      simp only at hvalue hnil hgo ⊢
      by_cases hend : key = []
      · subst hend
        have hfirst : ∀ p rest payload', [label] = p ++ rest → p ≠ [] → rest ≠ [] →
            follow (none, t) (convertSymbolArrayToChar p) ≠ some (payload', .nil) := by
          intro p rest payload' hp hne hne'
          obtain ⟨p', rfl, hp'⟩ := hprefix p rest hp hne
          exact absurd (List.append_eq_nil_iff.mp hp'.symm).2 hne'
        rw [Comptrie.searchLoop, contents_nil]
        subst hvalue
        cases value with
        | none =>
          cases emptyValue with
          | none => simpa [Advanced.getValue] using hfirst
          | some _ => simp [Advanced.getValue, convertSymbolArrayToChar]
        | some p =>
          refine ⟨fun _ => ⟨hfirst, fun _ t' => ?_⟩, fun _ => rfl⟩
          simp [convertSymbolArrayToChar]
      · by_cases hempty : forward = .nil
        · rw [hnil hempty]
          obtain ⟨c, cs, rfl⟩ := List.exists_cons_of_ne_nil hend
          rw [Comptrie.searchLoop, Advanced.getValue]
          refine ⟨fun h => by simp at h, fun h => ?_⟩
          have hleaf := h.1 [label] (c :: cs) payload rfl (List.cons_ne_nil _ _)
            (List.cons_ne_nil _ _)
          rw [hfollow, hs, hempty] at hleaf
          exact absurd rfl hleaf
        · obtain ⟨p, rfl, hreads⟩ := hgo hempty
          have hcontents : contents (payload, forward) key = contents (none, forward) key := by
            rw [contents, follow_of_ne_nil payload forward (convert_ne_nil hend)]
            rfl
          rw [hcontents, ih hreads value hend,
            follow_of_ne_nil payload forward (convert_ne_nil hend)]
          refine and_congr_left fun _ => ⟨fun h p rest payload' hp hne hne' => ?_,
            fun h p rest payload' hp hne hne' => ?_⟩
          · obtain ⟨p', rfl, hp'⟩ := hprefix p rest hp hne
            rw [hfollow, hs, Option.bind_some]
            by_cases hp'' : p' = []
            · subst hp''
              intro heq
              exact hempty (Prod.mk.inj (Option.some.inj heq)).2
            · rw [follow_of_ne_nil payload forward (convert_ne_nil hp'')]
              exact h p' rest payload' hp' hp'' hne'
          · have hwhole := h (label :: p) rest payload' (by rw [hp]; rfl) (List.cons_ne_nil _ _) hne'
            rw [hfollow, hs, Option.bind_some,
              follow_of_ne_nil payload forward (convert_ne_nil hne)] at hwhole
            exact hwhole

/-- The lookups of a key all give what a map holds. -/
structure LookupsAgree (packer : Packer Data) (trie : ByteTrie)
    (m : List (Symbol extra) → Option Data) (key : List (Symbol extra)) : Prop where
  find : trie.find packer key = m key
  tails : ∀ p rest, key = p ++ rest →
    ((trie.findTails packer p).bind fun tails => tails.find packer rest) = m key
  search : trie.search packer key = some (m key)
  longest : trie.findLongestPrefix packer key = (prefixValues m 0 key).getLast?
  prefixes : ∀ steps, key.length + 2 ≤ steps →
    (trie.prefixIterator key).collect packer trie steps = prefixValues m 0 key

theorem exists_more {payload : Option Data} {t : Tree ℕ Data} (hlive : t.Live)
    (haligned : ∀ bs v t', bs ≠ [] → follow (payload, t) bs = some (some v, t') →
      ∃ key : List (Symbol extra), bs = convertSymbolArrayToChar key) (hne : t ≠ .nil) :
    ∃ more : List (Symbol extra), more ≠ [] ∧ contents (payload, t) more ≠ none := by
  obtain ⟨bs, v, t', hbs, hfollow⟩ := exists_follow hlive hne
  rw [← follow_of_ne_nil payload t hbs] at hfollow
  obtain ⟨more, rfl⟩ := haligned bs v t' hbs hfollow
  refine ⟨more, ?_, ?_⟩
  · rintro rfl
    exact hbs rfl
  · rw [contents, hfollow]
    simp

theorem Aligned.key {s s' : Option Data × Tree ℕ Data} (h : Aligned extra s)
    {p : List (Symbol extra)} (hne : p ≠ [])
    (hfollow : follow s (convertSymbolArrayToChar p) = some s') (bs : List ℕ) (v : Data)
    (t' : Tree ℕ Data) (hbs : bs ≠ []) (hlater : follow s' bs = some (some v, t')) :
    ∃ key : List (Symbol extra), bs = convertSymbolArrayToChar key := by
  induction p generalizing s with
  | nil => exact absurd rfl hne
  | cons label p ih =>
    rw [convert_cons, follow_append] at hfollow
    obtain ⟨mid, hmid, hfollow⟩ := Option.bind_eq_some_iff.mp hfollow
    by_cases hp : p = []
    · subst hp
      obtain rfl := Option.some.inj hfollow
      exact h.symbol hmid bs v t' hbs hlater
    · exact ih (fun bs v t' hne hfollow => Or.inl (h.symbol hmid bs v t' hne hfollow)) hp hfollow

/-- The end of a tree behind a key is a key that no other goes on from. -/
theorem Describes.leaf_iff {trie : ByteTrie} {s : Option Data × Tree ℕ Data}
    (h : Describes packer extra trie s) {p : List (Symbol extra)} (hne : p ≠ []) :
    (∃ payload, follow (none, s.2) (convertSymbolArrayToChar p) = some (payload, .nil)) ↔
      contents s p ≠ none ∧ ∀ more ≠ [], contents s (p ++ more) = none := by
  have hsame : follow s (convertSymbolArrayToChar p) =
      follow (none, s.2) (convertSymbolArrayToChar p) :=
    follow_of_ne_nil s.1 s.2 (convert_ne_nil hne)
  constructor
  · rintro ⟨payload, hfollow⟩
    rw [← hsame] at hfollow
    have hlive := (live_follow h.live hfollow).2 (convert_ne_nil hne)
    refine ⟨?_, fun more hmore => ?_⟩
    · rw [contents, hfollow]
      exact fun hnone => hlive hnone rfl
    · rw [contents_append, hfollow, Option.bind_some, contents,
        follow_empty payload (convert_ne_nil hmore)]
      rfl
  · rintro ⟨hvalue, hmore⟩
    rw [← hsame]
    cases hfollow : follow s (convertSymbolArrayToChar p) with
    | none =>
      rw [contents, hfollow] at hvalue
      exact absurd rfl hvalue
    | some s' =>
      refine ⟨s'.1, ?_⟩
      by_contra hnil
      obtain ⟨more, hne', hcontents⟩ := @exists_more extra Data s'.1 s'.2
        (live_follow h.live hfollow).1 (h.aligned.key hne hfollow) fun hempty =>
          hnil (congrArg some (Prod.ext rfl hempty))
      rw [← Option.bind_some (f := fun s => contents s more), ← hfollow, ← contents_append]
        at hcontents
      exact hcontents (hmore more hne')

theorem Describes.open_iff {trie : ByteTrie} {s : Option Data × Tree ℕ Data}
    (h : Describes packer extra trie s) {key : List (Symbol extra)} (hne : key ≠ []) :
    (∃ t', follow (none, s.2) (convertSymbolArrayToChar key) = some (none, t')) ↔
      contents s key = none ∧ ∃ more ≠ [], contents s (key ++ more) ≠ none := by
  have hsame : follow s (convertSymbolArrayToChar key) =
      follow (none, s.2) (convertSymbolArrayToChar key) :=
    follow_of_ne_nil s.1 s.2 (convert_ne_nil hne)
  rw [← hsame]
  constructor
  · rintro ⟨t', hfollow⟩
    have hlive := live_follow h.live hfollow
    obtain ⟨more, hne', hcontents⟩ := exists_more hlive.1 (h.aligned.key hne hfollow)
      (hlive.2 (convert_ne_nil hne) rfl)
    refine ⟨by rw [contents, hfollow]; rfl, more, hne', ?_⟩
    rw [contents_append, hfollow]
    exact hcontents
  · rintro ⟨hnone, more, -, hmore⟩
    rw [contents_append] at hmore
    cases hfollow : follow s (convertSymbolArrayToChar key) with
    | none =>
      rw [hfollow] at hmore
      exact absurd rfl hmore
    | some s' =>
      rw [contents, hfollow] at hnone
      exact ⟨s'.2, congrArg some (Prod.ext hnone rfl)⟩

/-- The iterator gives the value, or knows that there is none, just if it neither passes the end of
the trie nor comes to the empty key's value. -/
theorem Describes.search_iff {trie : ByteTrie} {s : Option Data × Tree ℕ Data}
    (h : Describes packer extra trie s) (hdata : trie.data ≠ []) (key : List (Symbol extra)) :
    trie.search packer key = some (contents s key) ↔
      ¬ PassesLeaf (contents s) key ∧ ¬ EmptyKeyShows (contents s) key := by
  have hempty : contents s ([] : List (Symbol extra)) = none ↔ trie.emptyValue = none := by
    rw [contents_nil, ← h.empty, Option.map_eq_none_iff]
  by_cases hkey : key = []
  · subst hkey
    have hleaf : ¬ PassesLeaf (contents s) ([] : List (Symbol extra)) := by
      rintro ⟨p, rest, hp, hne, -⟩
      exact hne (List.append_eq_nil_iff.mp hp.symm).1
    have hshows : EmptyKeyShows (contents s) ([] : List (Symbol extra)) ↔
        trie.emptyValue ≠ none := by
      rw [EmptyKeyShows, Ne, hempty]
      exact ⟨fun h => h.1, fun h => ⟨h, Or.inl rfl⟩⟩
    rw [ByteTrie.search, ByteTrie.searchAdvance, if_neg hdata, Comptrie.searchLoop, hshows]
    cases hvalue : trie.emptyValue with
    | none =>
      rw [hempty.mpr hvalue]
      exact ⟨fun _ => ⟨hleaf, by simp⟩, fun _ => rfl⟩
    | some p => simp [Advanced.getValue]
  · have hcontents : contents s key = contents (none, s.2) key := by
      have hsame := follow_of_ne_nil s.1 s.2 (convert_ne_nil hkey)
      rw [contents, contents, ← hsame]
    rw [ByteTrie.search, ByteTrie.searchAdvance, if_neg hdata, hcontents,
      (h.reads (mt h.null hdata)).searchLoop trie.emptyValue none hkey]
    refine and_congr ⟨fun hpass => ?_, fun hpass p rest payload hp hne hne' hfollow => ?_⟩
      ⟨fun hshow => ?_, fun hshow hvalue t' hfollow => ?_⟩
    · rintro ⟨p, rest, hp, hne, hne', hleaf⟩
      obtain ⟨payload, hfollow⟩ := (h.leaf_iff hne).mpr hleaf
      exact hpass p rest payload hp hne hne' hfollow
    · exact hpass ⟨p, rest, hp, hne, hne', (h.leaf_iff hne).mp ⟨payload, hfollow⟩⟩
    · rintro ⟨hvalue, hnil | hopen⟩
      · exact hkey hnil
      · obtain ⟨t', hfollow⟩ := (h.open_iff hkey).mpr hopen
        exact hshow (mt hempty.mpr hvalue) t' hfollow
    · exact hshow ⟨mt hempty.mp hvalue, Or.inr ((h.open_iff hkey).mp ⟨t', hfollow⟩)⟩

/-- A trie whose lookups all find the same has no value without data, and the iterator does not go
wrong. -/
theorem lookupsAgree_iff {trie : ByteTrie} {s : Option Data × Tree ℕ Data}
    (h : Describes packer extra trie s) (key : List (Symbol extra)) :
    LookupsAgree packer trie (contents s) key ↔
      ¬ (trie.data = [] ∧ contents s ([] : List (Symbol extra)) ≠ none) ∧
        ¬ PassesLeaf (contents s) key ∧ ¬ EmptyKeyShows (contents s) key := by
  by_cases hdata : trie.data = []
  · have hnil : s.2 = .nil := by
      by_contra hne
      exact (h.reads hne).ne_nil hdata
    have hcollect : ∀ steps, (trie.prefixIterator key).collect packer trie steps = [] := by
      intro steps
      cases steps with
      | zero => rfl
      | succ steps =>
        rw [collect_succ, PrefixIterator.next,
          if_pos (show (trie.prefixIterator key).datapos = [] from hdata)]
        rfl
    have hnone : s.1 = none → ∀ p : List (Symbol extra), contents s p = none := by
      intro hempty p
      by_cases hp : p = []
      · rw [hp, contents_nil, hempty]
      · rw [contents, show s = (s.1, .nil) from Prod.ext rfl hnil,
          follow_empty _ (convert_ne_nil hp)]
        rfl
    constructor
    · intro hagree
      have hempty : s.1 = none := by
        have hprefixes := hagree.prefixes _ (le_refl _)
        rw [hcollect, show s = (s.1, s.2) from rfl, prefixValues_contents] at hprefixes
        cases hvalue : s.1 with
        | none => rfl
        | some v => simp [hvalue] at hprefixes
      have hcontents := hnone hempty
      refine ⟨fun hnull => hnull.2 (hcontents []), ?_, fun hshows => hshows.1 (hcontents [])⟩
      rintro ⟨p, rest, -, -, -, hvalue, -⟩
      exact hvalue (hcontents p)
    · rintro ⟨hnull, -, -⟩
      have hempty : s.1 = none := by
        by_contra hvalue
        exact hnull ⟨hdata, hvalue⟩
      have hcontents := hnone hempty
      refine ⟨h.find key, fun p rest _ => ?_, ?_, h.findLongestPrefix key, fun steps _ => ?_⟩
      · rw [ByteTrie.findTails, if_pos hdata, hcontents]
        rfl
      · rw [ByteTrie.search, ByteTrie.searchAdvance, if_pos hdata, hcontents]
        rfl
      · rw [hcollect, prefixValues_none hcontents]
  · rw [← h.search_iff hdata key]
    refine ⟨fun hagree => ⟨fun hnull => hdata hnull.1, hagree.search⟩, fun hsearch => ?_⟩
    refine ⟨h.find key, ?_, hsearch.2, h.findLongestPrefix key, fun steps hsteps =>
      h.collect hdata key hsteps⟩
    rintro p rest rfl
    exact h.findTails hdata p rest

/-- A trie of some bytes is searched as the bytes are. -/
theorem ByteTrie.lookupLongestPrefix_init (data : List ℕ) (key : List (Symbol extra)) :
    (ByteTrie.init data).lookupLongestPrefix packer key =
      Comptrie.lookupLongestPrefix packer data key := by
  rw [ByteTrie.lookupLongestPrefix, Comptrie.lookupLongestPrefix]
  by_cases hdata : (ByteTrie.init data).data = []
  · rw [if_pos hdata]
    obtain rfl : data = [] := hdata
    cases key with
    | nil => rfl
    | cons label key =>
      obtain ⟨b, bs, hbytes⟩ := List.exists_cons_of_ne_nil (symbolBytes_ne_nil label)
      rw [lookupSymbols, hbytes, lookupBytes, leapByte_nil]
      rfl
  · rw [if_neg hdata]
    rfl

theorem ByteTrie.find_init (data : List ℕ) (key : List (Symbol extra)) :
    (ByteTrie.init data).find packer key = Comptrie.find packer data key := by
  cases hfound : Comptrie.lookupLongestPrefix packer data key with
  | none => simp [ByteTrie.find, Comptrie.find, ByteTrie.lookupLongestPrefix_init, hfound]
  | some m => simp [ByteTrie.find, Comptrie.find, ByteTrie.lookupLongestPrefix_init, hfound]

end TomitaParser.Comptrie
