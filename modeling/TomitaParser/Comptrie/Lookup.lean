import TomitaParser.Comptrie.Search
/-! # Keys in a compact trie

A lookup takes the bytes of one symbol after the other, and keeps the last value that it has come
by. -/

namespace TomitaParser.Comptrie

variable {extra : ℕ} {Data : Type} (packer : Packer Data)

/-- What `LookupLongestPrefix` has found: the number of symbols and the position of the value. -/
structure Match where
  prefixLen : ℕ
  valuepos : List ℕ
  hasNext : Bool

/-- `EmptyValue`, as `Init` sets it. -/
def emptyValue (data : List ℕ) : Option (List ℕ) :=
  match leapByte 0 data with
  | none => none
  | some (flags, emptypos) => if isFinalLink flags then some emptypos else none

/-- The bytes of a symbol, after so many symbols before it: the position behind the symbol, unless
the lookup returns, and what has been found. -/
def lookupBytes (symbols : ℕ) (isEnd : Bool) :
    List ℕ → List ℕ → Option Match → Option (List ℕ) × Option Match
  | [], datapos, found => (some datapos, found)
  | label :: labels, datapos, found =>
    match leapByte label datapos with
    | none => (none, found)
    | some (flags, datapos) =>
      if isFinalLink flags then
        let found := some
          { prefixLen := symbols + 1 - (if labels = [] then 0 else 1)
            valuepos := datapos
            hasNext := isNextLink flags }
        if labels = [] ∧ isEnd then (none, found)
        else if !isNextLink flags then (none, found)
        else lookupBytes symbols isEnd labels (datapos.drop (packer.skipLeaf datapos)) found
      else if !isNextLink flags then (none, found)
      else lookupBytes symbols isEnd labels datapos found

/-- The symbols from a position on. -/
def lookupSymbols (symbols : ℕ) :
    List (Symbol extra) → List ℕ → Option Match → Option Match
  | [], _, found => found
  | label :: key, datapos, found =>
    match lookupBytes packer symbols key.isEmpty (symbolBytes label) datapos found with
    | (none, found) => found
    | (some datapos, found) => lookupSymbols (symbols + 1) key datapos found

def lookupLongestPrefix (data : List ℕ) (key : List (Symbol extra)) : Option Match :=
  lookupSymbols packer 0 key data
    ((emptyValue data).map fun valuepos => { prefixLen := 0, valuepos, hasNext := false })

def find (data : List ℕ) (key : List (Symbol extra)) : Option Data :=
  match lookupLongestPrefix packer data key with
  | none => none
  | some m => if m.prefixLen ≠ key.length then none else some (packer.unpackLeaf m.valuepos)

/-- A byte of a key: the number of symbols that a value behind it is a prefix of, and whether the
key ends with it. -/
structure Token where
  byte : ℕ
  prefixLen : ℕ
  isEnd : Bool

def byteTokens (symbols : ℕ) (isEnd : Bool) : List ℕ → List Token
  | [] => []
  | b :: bs =>
    { byte := b
      prefixLen := symbols + 1 - (if bs = [] then 0 else 1)
      isEnd := bs.isEmpty && isEnd } :: byteTokens symbols isEnd bs

def keyTokens (symbols : ℕ) : List (Symbol extra) → List Token
  | [] => []
  | label :: key =>
    byteTokens symbols key.isEmpty (symbolBytes label) ++ keyTokens (symbols + 1) key

/-- One byte after the other. -/
def walk : List Token → List ℕ → Option Match → Option Match
  | [], _, found => found
  | token :: tokens, datapos, found =>
    match leapByte token.byte datapos with
    | none => found
    | some (flags, datapos) =>
      if isFinalLink flags then
        let found := some
          { prefixLen := token.prefixLen, valuepos := datapos, hasNext := isNextLink flags }
        if token.isEnd then found
        else if !isNextLink flags then found
        else walk tokens (datapos.drop (packer.skipLeaf datapos)) found
      else if !isNextLink flags then found
      else walk tokens datapos found

theorem walk_byteTokens (symbols : ℕ) (isEnd : Bool) (bs : List ℕ) (tokens : List Token)
    (datapos : List ℕ) (found : Option Match) :
    walk packer (byteTokens symbols isEnd bs ++ tokens) datapos found =
      match lookupBytes packer symbols isEnd bs datapos found with
      | (none, found) => found
      | (some datapos, found) => walk packer tokens datapos found := by
  induction bs generalizing datapos found with
  | nil => rfl
  | cons b bs ih =>
    rw [byteTokens, List.cons_append, walk, lookupBytes]
    cases leapByte b datapos with
    | none => rfl
    | some leap =>
      simp only [Bool.and_eq_true, List.isEmpty_iff]
      generalize symbols + 1 - (if bs = [] then 0 else 1) = prefixLen
      split_ifs
      · rfl
      · rfl
      · exact ih _ _
      · rfl
      · exact ih _ _

theorem lookupSymbols_eq_walk (symbols : ℕ) (key : List (Symbol extra)) (datapos : List ℕ)
    (found : Option Match) : lookupSymbols packer symbols key datapos found =
      walk packer (keyTokens symbols key) datapos found := by
  induction key generalizing symbols datapos found with
  | nil => rfl
  | cons label key ih =>
    rw [lookupSymbols, keyTokens, walk_byteTokens]
    split
    · rfl
    · exact ih _ _ _

theorem byte_keyTokens (symbols : ℕ) (key : List (Symbol extra)) :
    (keyTokens symbols key).map Token.byte = convertSymbolArrayToChar key := by
  have hbytes : ∀ (symbols : ℕ) (isEnd : Bool) (bs : List ℕ),
      (byteTokens symbols isEnd bs).map Token.byte = bs := by
    intro symbols isEnd bs
    induction bs with
    | nil => rfl
    | cons b bs ih => rw [byteTokens, List.map_cons, ih]
  induction key generalizing symbols with
  | nil => rfl
  | cons label key ih =>
    rw [keyTokens, List.map_append, hbytes, ih, convert_cons]

/-- The key has `len` symbols, and only its last byte stands for all of them. -/
def EndsAt (len : ℕ) : List Token → Prop
  | [] => True
  | [token] => token.prefixLen = len ∧ token.isEnd = true
  | token :: tokens => token.prefixLen < len ∧ token.isEnd = false ∧ EndsAt len tokens

theorem endsAt_keyTokens (symbols : ℕ) (key : List (Symbol extra)) :
    EndsAt (symbols + key.length) (keyTokens symbols key) := by
  have hbytes : ∀ (len symbols : ℕ) (isEnd : Bool) (bs : List ℕ) (tokens : List Token),
      EndsAt len tokens → symbols < len →
      (isEnd = true → tokens = [] ∧ symbols + 1 = len) →
      (isEnd = false → tokens ≠ [] ∧ symbols + 1 < len) →
      EndsAt len (byteTokens symbols isEnd bs ++ tokens) := by
    intro len symbols isEnd bs tokens htokens hlt hend hgo
    induction bs with
    | nil => exact htokens
    | cons b bs ih =>
      rw [byteTokens, List.cons_append]
      cases bs with
      | nil =>
        cases isEnd with
        | true =>
          obtain ⟨rfl, hlen⟩ := hend rfl
          exact ⟨hlen, rfl⟩
        | false =>
          obtain ⟨hne, hlen⟩ := hgo rfl
          cases tokens with
          | nil => exact absurd rfl hne
          | cons token tokens => exact ⟨hlen, rfl, htokens⟩
      | cons c cs => exact ⟨hlt, rfl, ih⟩
  induction key generalizing symbols with
  | nil => trivial
  | cons label key ih =>
    rw [keyTokens]
    apply hbytes
    · have hkey := ih (symbols + 1)
      rwa [List.length_cons, Nat.add_comm key.length, ← Nat.add_assoc]
    · rw [List.length_cons]
      omega
    · intro hempty
      rw [List.isEmpty_iff] at hempty
      subst hempty
      exact ⟨rfl, rfl⟩
    · intro hempty
      cases key with
      | nil => simp at hempty
      | cons next key =>
        refine ⟨?_, by simp⟩
        intro hnil
        have hbyte := congrArg (List.map Token.byte) hnil
        rw [byte_keyTokens] at hbyte
        exact convert_ne_nil (List.cons_ne_nil next key) hbyte

/-- The row of an arc. -/
def arcRow (first : ℕ) (more : List ℕ) (payload : Option Data) (children : Arcs Data) : Row where
  first
  more
  isFinal := payload.isSome
  isLast := children.isLast
  leafSize := nodeMeasureLeafValue packer payload
  leaf := nodeSaveLeafValue packer payload
  treeSize := nodeMeasureSubtree packer children
  tree := nodeSaveSubtree packer children

variable {packer}

theorem Arcs.first_rows (arcs : Arcs Data) : (arcs.rows packer).map Row.first = arcs.firsts := by
  induction arcs with
  | nil => rfl
  | cons first more payload children rest _ ih => rw [rows, firsts, List.map_cons, ih]

theorem Arcs.Good.sorted {arcs : Arcs Data} (h : arcs.Good) :
    (arcs.rows packer).Pairwise fun row other => row.first < other.first := by
  induction arcs with
  | nil => exact List.Pairwise.nil
  | cons first more payload children rest _ ih =>
    apply List.Pairwise.cons
    · intro other hother
      apply h.1
      rw [← @first_rows Data packer]
      exact List.mem_map_of_mem hother
    · exact ih h.2.2.2

/-- An arc of a good node, as a lookup sees it. -/
theorem Arcs.Good.exists_arc {arcs : Arcs Data} (h : arcs.Good) {row : Row}
    (hrow : row ∈ arcs.rows packer) : ∃ more payload children,
      row = arcRow packer row.first more payload children ∧ children.Good ∧
        (payload = none → children ≠ .nil) ∧ sizeOf children < sizeOf arcs ∧
        ∀ cs, arcs.lookup (row.first :: cs) = (strip more cs).bind (atNode payload children) := by
  induction arcs with
  | nil => simp [rows] at hrow
  | cons first more payload children rest _ ih =>
    obtain ⟨hlt, hbranch, hchildren, hrest⟩ := h
    rcases List.mem_cons.mp hrow with rfl | hrow
    · refine ⟨more, payload, children, rfl, hchildren, ?_, ?_, ?_⟩
      · rintro hnone rfl
        have := hbranch hnone
        simp [firsts] at this
      · rw [cons.sizeOf_spec]
        omega
      · intro cs
        rw [lookup_cons, if_pos rfl]
    · obtain ⟨more', payload', children', heq, hgood, hlive, hsize, hlookup⟩ := ih hrest hrow
      refine ⟨more', payload', children', heq, hgood, hlive, ?_, ?_⟩
      · rw [cons.sizeOf_spec]
        omega
      · intro cs
        have hmem : row.first ∈ rest.firsts := by
          rw [← @first_rows Data packer]
          exact List.mem_map_of_mem hrow
        have hne : row.first ≠ first := by
          have := hlt _ hmem
          omega
        rw [lookup_cons, if_neg hne, hlookup]

/-- The lookup comes to the value for the whole key, or to no value for all of it. -/
def Outcome (packer : Packer Data) (len : ℕ) : Option Data → Option Match → Prop
  | none, found => ∀ m ∈ found, m.prefixLen < len
  | some v, found => ∃ after hasNext,
      found = some { prefixLen := len, valuepos := packer.packLeaf v ++ after, hasNext }

/-- From the arcs of a node the bytes of a key lead to what the arcs hold for them. -/
def WalksTo (packer : Packer Data) (arcs : Arcs Data) : Prop :=
  ∀ (len : ℕ) (tokens : List Token) (after : List ℕ) (found : Option Match), tokens ≠ [] →
    EndsAt len tokens → (∀ m ∈ found, m.prefixLen < len) →
      Outcome packer len (arcs.lookup (tokens.map Token.byte))
        (walk packer tokens (nodeSaveSubtree packer arcs ++ after) found)

theorem Arcs.isLast_eq_false {children : Arcs Data} (h : children ≠ .nil) :
    children.isLast = false := by
  cases children with
  | nil => exact absurd rfl h
  | cons => rfl

theorem arcRow_live {payload : Option Data} {children : Arcs Data}
    (hlive : payload = none → children ≠ .nil) (first : ℕ) (more : List ℕ) :
    (arcRow packer first more payload children).Live := by
  cases more with
  | nil =>
    cases payload with
    | none =>
      apply Or.inr
      have hlast := Arcs.isLast_eq_false (hlive rfl)
      simp [Row.headNext, arcRow, hlast]
    | some _ => exact Or.inl rfl
  | cons _ _ => exact Or.inr rfl

/-- Behind the head of an arc the walk goes through its label to its node. -/
theorem walk_label {payload : Option Data} {children : Arcs Data}
    (hchildren : children ≠ .nil → WalksTo packer children)
    (hlive : payload = none → children ≠ .nil) {len : ℕ} {more : List ℕ} {token : Token}
    {tokens : List Token} {datapos after : List ℕ} {flags : ℕ} {found : Option Match}
    (hleap : leapByte token.byte datapos =
      some (flags, (arcRow packer token.byte more payload children).body ++ after))
    (hfinal : isFinalLink flags = (arcRow packer token.byte more payload children).headFinal)
    (hnext : isNextLink flags = (arcRow packer token.byte more payload children).headNext)
    (htokens : EndsAt len (token :: tokens)) (hfound : ∀ m ∈ found, m.prefixLen < len) :
    Outcome packer len ((strip more (tokens.map Token.byte)).bind
      (Arcs.atNode payload children)) (walk packer (token :: tokens) datapos found) := by
  induction more generalizing token tokens datapos flags found with
  | nil =>
    rw [walk, hleap]
    simp only [Row.headFinal, Row.headNext, arcRow, if_true] at hfinal hnext
    simp only [hfinal, hnext, strip, Option.bind_some, Row.body, arcRow, saveLabel,
      List.nil_append, nodeSaveLeafValue_eq]
    cases payload with
    | none =>
      have hne := hlive rfl
      simp only [Option.isSome_none, Bool.false_eq_true, if_false, Arcs.isLast_eq_false hne,
        Bool.not_true,
        Bool.not_false, Option.map_none, Option.getD_none, List.nil_append]
      cases tokens with
      | nil => exact hfound
      | cons next tokens =>
        exact hchildren hne len _ after found (List.cons_ne_nil _ _) htokens.2.2 hfound
    | some v =>
      simp only [Option.isSome_some, if_true, Option.map_some, Option.getD_some]
      cases tokens with
      | nil =>
        obtain ⟨hlen, hend⟩ := htokens
        rw [if_pos hend, hlen]
        exact ⟨_, _, by rw [List.append_assoc]⟩
      | cons next tokens =>
        obtain ⟨hlen, hend, htokens⟩ := htokens
        rw [if_neg (by simp [hend])]
        by_cases hnil : children = .nil
        · subst hnil
          rw [if_pos (show (!!(Arcs.nil : Arcs Data).isLast) = true from rfl)]
          intro m hm
          obtain rfl := Option.some.inj hm
          exact hlen
        · rw [Arcs.isLast_eq_false hnil, List.append_assoc, packer.skipLeaf_packLeaf,
            List.drop_left']
          · apply hchildren hnil len _ after _ (List.cons_ne_nil _ _) htokens
            intro m hm
            obtain rfl := Option.some.inj hm
            exact hlen
          · rfl
  | cons b bs ih =>
    simp only [Row.headFinal, Row.headNext, arcRow, List.cons_ne_nil, if_false] at hfinal hnext
    rw [walk, hleap]
    simp only [hfinal, hnext, Bool.false_eq_true, if_false, Bool.not_true]
    cases tokens with
    | nil => exact hfound
    | cons next tokens =>
      have hbody : (arcRow packer token.byte (b :: bs) payload children).body ++ after =
          arcFlags 0 0 (arcRow packer b bs payload children).headFinal
            (arcRow packer b bs payload children).headNext :: b ::
              ((arcRow packer b bs payload children).body ++ after) := by
        cases bs <;> rfl
      have hstep := leapByte_label next.byte (@arcRow_live Data packer _ _ hlive b bs) b
        ((arcRow packer b bs payload children).body ++ after)
      rw [← hbody] at hstep
      have hflags := flags_arcFlags (Nat.zero_le 7) (Nat.zero_le 7)
        (arcRow packer b bs payload children).headFinal
        (arcRow packer b bs payload children).headNext
      by_cases hb : next.byte = b
      · rw [if_pos hb] at hstep
        rw [List.map_cons, strip, if_pos hb.symm]
        subst hb
        exact ih hstep hflags.1 hflags.2.1 htokens.2.2 hfound
      · rw [if_neg hb] at hstep
        rw [List.map_cons, strip, if_neg fun h => hb h.symm, walk, hstep]
        exact hfound

/-- The arcs of a good node are walked to their values. -/
theorem Arcs.Good.walksTo {arcs : Arcs Data} (h : arcs.Good)
    (hsize : nodeMeasureSubtree packer arcs < 2 ^ 56) (hne : arcs ≠ .nil) :
    WalksTo packer arcs := by
  induction hn : sizeOf arcs using Nat.strong_induction_on generalizing arcs with
  | _ n ih =>
    intro len tokens after found htokens hends hfound
    obtain ⟨token, tokens, rfl⟩ := List.exists_cons_of_ne_nil htokens
    have hlive : ∀ row ∈ arcs.rows packer, row.Live := by
      intro row hrow
      obtain ⟨more, payload, children, heq, -, hnode, -, -⟩ := h.exists_arc hrow
      rw [heq]
      exact arcRow_live hnode _ _
    have hleap := leapByte_saveRange token.byte (rows_exact hsize) hlive hsize after
    rw [List.map_cons]
    cases hsearch : Median.search Row.first token.byte (arcs.rows packer) with
    | none =>
      rw [hsearch] at hleap
      have hrows : arcs.rows packer ≠ [] := by
        cases arcs with
        | nil => exact absurd rfl hne
        | cons => exact List.cons_ne_nil _ _
      have habsent : token.byte ∉ arcs.firsts := by
        rw [← @first_rows Data packer]
        intro hmem
        obtain ⟨row, hrow, hfirst⟩ := List.mem_map.mp hmem
        have hfound := Median.search_of_mem h.sorted hrow
        rw [hfirst, hsearch] at hfound
        exact absurd hfound (by simp)
      rw [lookup_of_not_mem habsent, walk, nodeSaveSubtree, hleap.resolve_right hrows]
      exact hfound
    | some row =>
      rw [hsearch] at hleap
      obtain ⟨flags, after', hleap, hfinal, hnext⟩ := hleap
      obtain ⟨hrow, hfirst⟩ := Median.mem_of_search hsearch
      obtain ⟨more, payload, children, heq, hgood, hnode, hlt, hlookup⟩ := h.exists_arc hrow
      rw [hfirst] at heq hlookup
      subst heq
      rw [hlookup]
      apply walk_label _ hnode hleap hfinal hnext hends hfound
      intro hchildren
      apply ih (sizeOf children) (by omega) hgood _ hchildren rfl
      exact lt_of_le_of_lt (treeSize_le_measureRange hrow) hsize

theorem walk_nil (tokens : List Token) : walk packer tokens [] none = none := by
  cases tokens with
  | nil => rfl
  | cons token tokens => rw [walk, leapByte_nil]

theorem nodeSaveSubtree_nil : nodeSaveSubtree packer (.nil : Arcs Data) = [] :=
  Median.recurse_nil _ _

theorem walk_zero (data : List ℕ) :
    walk packer [{ byte := 0, prefixLen := 1, isEnd := true }] data none =
        (match leapByte 0 data with
          | none => none
          | some (flags, valuepos) =>
            if isFinalLink flags then
              some { prefixLen := 1, valuepos, hasNext := isNextLink flags }
            else none) := by
  rw [walk]
  cases leapByte 0 data with
  | none => rfl
  | some leap => simp only [walk, ite_self]

/-- `EmptyValue` is set just when the arcs hold a value for a zero byte, and to that value. -/
theorem Arcs.Good.emptyValue_eq {root : Arcs Data} (h : root.Good)
    (hsize : nodeMeasureSubtree packer root < 2 ^ 56) :
    match root.lookup [0] with
    | none => emptyValue (nodeSaveSubtree packer root) = none
    | some v => ∃ after, emptyValue (nodeSaveSubtree packer root) =
        some (packer.packLeaf v ++ after) := by
  by_cases hnil : root = .nil
  · subst hnil
    rw [nodeSaveSubtree_nil]
    change emptyValue [] = none
    rw [emptyValue, leapByte_nil]
  · have houtcome := h.walksTo hsize hnil 1 [{ byte := 0, prefixLen := 1, isEnd := true }] [] none
      (List.cons_ne_nil _ _) ⟨rfl, rfl⟩ (by simp)
    rw [List.append_nil, walk_zero] at houtcome
    change Outcome packer 1 (root.lookup [0]) _ at houtcome
    rw [emptyValue]
    cases hleap : leapByte 0 (nodeSaveSubtree packer root) with
    | none =>
      rw [hleap] at houtcome
      cases hlookup : root.lookup [0] with
      | none => rfl
      | some v =>
        rw [hlookup] at houtcome
        obtain ⟨after, hasNext, hfound⟩ := houtcome
        exact absurd hfound (by simp)
    | some leap =>
      rw [hleap] at houtcome
      by_cases hfinal : isFinalLink leap.1 = true
      · simp only [if_pos hfinal] at houtcome ⊢
        cases hlookup : root.lookup [0] with
        | none =>
          rw [hlookup] at houtcome
          exact absurd (houtcome _ rfl) (lt_irrefl 1)
        | some v =>
          rw [hlookup] at houtcome
          obtain ⟨after, hasNext, hfound⟩ := houtcome
          use after
          rw [(Match.mk.inj (Option.some.inj hfound)).2.1]
      · simp only [if_neg hfinal] at houtcome ⊢
        cases hlookup : root.lookup [0] with
        | none => trivial
        | some v =>
          rw [hlookup] at houtcome
          obtain ⟨after, hasNext, hfound⟩ := houtcome
          exact absurd hfound (by simp)

theorem find_nil (data : List ℕ) : find packer data ([] : List (Symbol extra)) =
    (emptyValue data).map packer.unpackLeaf := by
  rw [find, lookupLongestPrefix, lookupSymbols]
  cases emptyValue data <;> rfl

/-- `Find` over the saved bytes gives what the arcs hold for the bytes of the key. -/
theorem Arcs.Good.find_eq {root : Arcs Data} (h : root.Good)
    (hsize : nodeMeasureSubtree packer root < 2 ^ 56) (key : List (Symbol extra)) :
    find packer (nodeSaveSubtree packer root) key = root.lookup (storedKey key) := by
  have hempty := h.emptyValue_eq hsize
  by_cases hkey : key = []
  · rw [hkey, storedKey, if_pos rfl, find_nil]
    cases hlookup : root.lookup [0] with
    | none =>
      rw [hlookup] at hempty
      rw [hempty]
      rfl
    | some v =>
      rw [hlookup] at hempty
      obtain ⟨after, hvalue⟩ := hempty
      rw [hvalue, Option.map_some, packer.unpackLeaf_packLeaf]
  · rw [storedKey, if_neg hkey, find, lookupLongestPrefix, lookupSymbols_eq_walk,
      ← byte_keyTokens 0 key]
    by_cases hnil : root = .nil
    · subst hnil
      rw [nodeSaveSubtree_nil, emptyValue, leapByte_nil]
      simp only [Option.map_none, walk_nil]
      rfl
    · have htokens : keyTokens 0 key ≠ [] := by
        intro hnil
        have hbytes := byte_keyTokens 0 key
        rw [hnil] at hbytes
        exact convert_ne_nil hkey hbytes.symm
      have hends := endsAt_keyTokens 0 key
      rw [Nat.zero_add] at hends
      have hfound : ∀ m ∈ (emptyValue (nodeSaveSubtree packer root)).map fun valuepos =>
          ({ prefixLen := 0, valuepos, hasNext := false } : Match), m.prefixLen < key.length := by
        intro m hm
        obtain ⟨valuepos, -, rfl⟩ := Option.mem_map.mp hm
        exact List.length_pos_iff.mpr hkey
      have houtcome := h.walksTo hsize hnil key.length (keyTokens 0 key) [] _ htokens hends hfound
      rw [List.append_nil] at houtcome
      cases hlookup : root.lookup ((keyTokens 0 key).map Token.byte) with
      | none =>
        rw [hlookup] at houtcome
        split
        · rfl
        · rename_i m hm
          have hlt := houtcome m hm
          rw [if_pos (by omega)]
      | some v =>
        rw [hlookup] at houtcome
        obtain ⟨after, hasNext, hresult⟩ := houtcome
        rw [hresult]
        simp [packer.unpackLeaf_packLeaf]

end TomitaParser.Comptrie
