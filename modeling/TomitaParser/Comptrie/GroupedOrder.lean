import TomitaParser.Comptrie.GroupedBuilder
/-! # Orders of keys for the builder of prefix-grouped keys

A key that goes on below a saved subtree cannot be added. Each key that is added closes the subtree
of the last arc of the node where it leaves the tree. -/

namespace TomitaParser.Comptrie

variable {Data : Type} {extra : ℕ} {packer : Packer Data}

/-- The key goes on behind the path. -/
def goesBelow (path key : List ℕ) : Bool :=
  match strip path key with
  | some (_ :: _) => true
  | _ => false

theorem goesBelow_iff {path key : List ℕ} :
    goesBelow path key = true ↔ ∃ d ds, key = path ++ d :: ds := by
  rw [goesBelow]
  constructor
  · intro h
    cases hstrip : strip path key with
    | none => simp [hstrip] at h
    | some left =>
      cases left with
      | nil => simp [hstrip] at h
      | cons d ds => exact ⟨d, ds, strip_eq_some.mp hstrip⟩
  · intro h
    obtain ⟨d, ds, h⟩ := h
    rw [strip_eq_some.mpr h]

theorem goesBelow_cons_of_ne {a c : ℕ} (h : c ≠ a) (path key : List ℕ) :
    goesBelow (a :: path) (c :: key) = false := by
  rw [goesBelow, strip, if_neg fun ha => h ha.symm]

theorem goesBelow_append (path more key : List ℕ) :
    goesBelow (path ++ more) key = (strip path key).any (goesBelow more) := by
  rw [goesBelow, strip_append]
  cases strip path key with
  | none => rfl
  | some left => rfl

theorem goesBelow_nil (path : List ℕ) : goesBelow path [] = false := by
  cases path <;> rfl

theorem strip_eq_diverge (label key : List ℕ) :
    strip label key =
      if (diverge label key).2.1 = [] then some (diverge label key).2.2 else none := by
  induction label generalizing key with
  | nil => cases key <;> rfl
  | cons a label ih =>
    cases key with
    | nil => rfl
    | cons b key =>
      rw [strip, diverge]
      by_cases hab : a = b
      · rw [if_pos hab, if_pos hab, ih]
      · rw [if_neg hab, if_neg hab]
        rfl

namespace GroupedArcs

/-- The key goes on below a node with a buffer. -/
def blocks : GroupedArcs Data → List ℕ → Bool
  | nil, _ => false
  | cons _ _ _ _ _ _, [] => false
  | cons first more _ buffer children rest, c :: cs =>
    if c = first then
      match strip more cs with
      | some (d :: ds) => buffer.isSome || blocks children (d :: ds)
      | _ => false
    else blocks rest (c :: cs)

theorem blocks_nil_key (arcs : GroupedArcs Data) : arcs.blocks [] = false := by
  cases arcs <;> rfl

theorem blocks_cons_self (first : ℕ) (more : List ℕ) (payload : Option Data)
    (buffer : Option (ℕ × List ℕ)) (children rest : GroupedArcs Data) (cs : List ℕ) :
    (cons first more payload buffer children rest).blocks (first :: cs) =
      (strip more cs).any fun left => !left.isEmpty && (buffer.isSome || children.blocks left) := by
  rw [blocks, if_pos rfl]
  cases strip more cs with
  | none => rfl
  | some left => cases left <;> simp

theorem blocks_cons_of_ne {first c : ℕ} (h : c ≠ first) (more : List ℕ) (payload : Option Data)
    (buffer : Option (ℕ × List ℕ)) (children rest : GroupedArcs Data) (cs : List ℕ) :
    (cons first more payload buffer children rest).blocks (c :: cs) = rest.blocks (c :: cs) := by
  rw [blocks, if_neg h]

theorem blocks_of_not_mem {arcs : GroupedArcs Data} {c : ℕ} (h : c ∉ arcs.firsts) (cs : List ℕ) :
    arcs.blocks (c :: cs) = false := by
  induction arcs with
  | nil => rfl
  | cons first more payload buffer children rest _ ih =>
    rw [firsts, List.mem_cons, not_or] at h
    rw [blocks_cons_of_ne h.1, ih h.2]

theorem add_eq_none_iff {arcs : GroupedArcs Data} {v : Data} {c : ℕ} {cs : List ℕ} :
    arcs.add packer v c cs = none ↔ arcs.blocks (c :: cs) = true := by
  induction arcs generalizing c cs with
  | nil => simp [add, blocks]
  | cons first more payload buffer children rest ihChildren ih =>
    rw [add]
    by_cases hc : c = first
    · rw [if_neg (by simp [hc]), if_neg (by simp [hc]), hc, blocks_cons_self, strip_eq_diverge]
      generalize diverge more cs = parts
      obtain ⟨common, tail, target⟩ := parts
      cases tail with
      | nil =>
        cases target with
        | nil => simp
        | cons d ds => cases buffer <;> simp [ihChildren]
      | cons e es => cases target <;> simp
    · by_cases hmem : c ∈ rest.firsts
      · rw [if_neg (by simp [hmem]), if_pos hc, Option.map_eq_none_iff, ih, blocks_cons_of_ne hc]
      · rw [if_pos ⟨hc, hmem⟩, blocks_cons_of_ne hc, blocks_of_not_mem hmem]
        simp

theorem firsts_bufferBack (arcs : GroupedArcs Data) :
    (arcs.bufferBack packer).firsts = arcs.firsts := by
  induction arcs with
  | nil => rfl
  | cons first more payload buffer children rest _ ih =>
    cases rest with
    | nil => rfl
    | cons _ _ _ _ _ _ =>
      rw [bufferBack, firsts, ih]
      rfl

theorem blocks_insert {arcs : GroupedArcs Data} {c : ℕ} (hc : c ∉ arcs.firsts) (cs : List ℕ)
    (v : Data) (key : List ℕ) : (arcs.insert c cs v).blocks key = arcs.blocks key := by
  cases key with
  | nil => rw [blocks_nil_key, blocks_nil_key]
  | cons k ks =>
    have hleaf : ∀ rest : GroupedArcs Data, c ∉ rest.firsts →
        (cons c cs (some v) none nil rest).blocks (k :: ks) = rest.blocks (k :: ks) := by
      intro rest hrest
      by_cases hk : k = c
      · rw [hk, blocks_cons_self, blocks_of_not_mem hrest]
        simp [blocks]
      · rw [blocks_cons_of_ne hk]
    induction arcs with
    | nil => exact hleaf nil hc
    | cons first more payload buffer children rest _ ih =>
      have hmem := hc
      rw [firsts, List.mem_cons, not_or] at hmem
      rw [insert]
      split_ifs
      · by_cases hk : k = first
        · rw [hk, blocks_cons_self, blocks_cons_self]
        · rw [blocks_cons_of_ne hk, blocks_cons_of_ne hk, ih hmem.2]
      · exact hleaf _ hc

end GroupedArcs

namespace Arcs

/-- The path of the last arc, unless an arc before it has the same first byte. -/
def back : Arcs Data → Option (List ℕ)
  | nil => none
  | cons first more _ _ rest =>
    match rest with
    | nil => some (first :: more)
    | cons _ _ _ _ _ => (back rest).filter fun path => path.head? ≠ some first

/-- The path of the subtree that is closed when a key is added: the last arc of the node where the
key leaves the tree. -/
def closedBy : Arcs Data → ℕ → List ℕ → Option (List ℕ)
  | nil, _, _ => none
  | cons first more payload children rest, c, cs =>
    if c ≠ first ∧ c ∉ rest.firsts then (cons first more payload children rest).back
    else if c ≠ first then closedBy rest c cs
    else
      match diverge more cs with
      | (_, [], d :: ds) => (closedBy children d ds).map fun path => first :: more ++ path
      | (_, _ :: _, _ :: _) => some (first :: more)
      | _ => none

/-- There is an arc of one zero byte in front. -/
def hasZeroArc : Arcs Data → Bool
  | cons 0 [] _ _ _ => true
  | _ => false

end Arcs

/-- The keys that are kept out after a key has been added to a root: those before, and those that go
on below the subtree that the key closes. A new arc for the empty key lets those in again that start
with a zero byte. -/
def closing (root : Arcs Data) (key : List (Symbol extra)) (closed : List ℕ → Bool)
    (bytes : List ℕ) : Bool :=
  match convertSymbolArrayToChar key with
  | [] =>
    if root.hasZeroArc then closed bytes
    else bytes.head? ≠ some 0 && (closed bytes || root.back.any fun path => goesBelow path bytes)
  | c :: cs => closed bytes || (root.closedBy c cs).any fun path => goesBelow path bytes

/-- No key is kept out when it is added. The root is that of the builder without the flag. -/
def InOrder : Arcs Data → (List ℕ → Bool) → List (List (Symbol extra) × Data) → Prop
  | _, _, [] => True
  | root, closed, entry :: entries =>
    closed (convertSymbolArrayToChar entry.1) = false ∧
      InOrder (addEntry root entry.1 entry.2).1 (closing root entry.1 closed) entries

theorem Arcs.back_cons {first : ℕ} {more : List ℕ} {payload : Option Data}
    {children rest : Arcs Data} (h : rest ≠ .nil) :
    (Arcs.cons first more payload children rest).back =
      rest.back.filter fun path => path.head? ≠ some first := by
  cases rest with
  | nil => exact absurd rfl h
  | cons _ _ _ _ _ => rfl

theorem Arcs.exists_back {arcs : Arcs Data} {path : List ℕ} (h : arcs.back = some path) :
    ∃ first more, path = first :: more := by
  induction arcs with
  | nil => cases h
  | cons first more payload children rest _ ih =>
    by_cases hrest : rest = .nil
    · rw [hrest] at h
      exact ⟨first, more, (Option.some.inj h).symm⟩
    · rw [Arcs.back_cons hrest, Option.filter_eq_some_iff] at h
      exact ih h.1

theorem any_filter_goesBelow {arcs : Arcs Data} (first k : ℕ) (ks : List ℕ) :
    ((arcs.back.filter fun path => path.head? ≠ some first).any fun path =>
        goesBelow path (k :: ks)) =
      (decide (k ≠ first) && arcs.back.any fun path => goesBelow path (k :: ks)) := by
  cases hback : arcs.back with
  | none => simp
  | some path =>
    obtain ⟨g, more, rfl⟩ := Arcs.exists_back hback
    by_cases hg : g = first
    · by_cases hk : k = first
      · simp [hg, hk]
      · rw [hg]
        simp [goesBelow_cons_of_ne hk]
    · by_cases hk : k = first
      · have hne : k ≠ g := fun h => hg (h ▸ hk)
        simp [hg, hk, goesBelow_cons_of_ne (hk ▸ hne)]
      · simp [hg, hk]

theorem blocks_saved (first : ℕ) (more : List ℕ) (payload : Option Data)
    (buffer : Option (ℕ × List ℕ)) (saved : ℕ × List ℕ) (children : GroupedArcs Data)
    (key : List ℕ) :
    (GroupedArcs.cons first more payload (some saved) .nil .nil).blocks key =
      ((GroupedArcs.cons first more payload buffer children .nil).blocks key ||
        goesBelow (first :: more) key) := by
  cases key with
  | nil => rfl
  | cons k ks =>
    by_cases hk : k = first
    · rw [hk, GroupedArcs.blocks_cons_self, GroupedArcs.blocks_cons_self, goesBelow, strip,
        if_pos rfl]
      cases strip more ks with
      | none => rfl
      | some left => cases left <;> simp
    · rw [GroupedArcs.blocks_cons_of_ne hk, GroupedArcs.blocks_cons_of_ne hk,
        goesBelow_cons_of_ne hk, Bool.or_false]

/-- Saving the last subtree keeps out the keys that go on below it. -/
theorem Buffers.blocks_bufferBack {arcs : Arcs Data} {grouped : GroupedArcs Data}
    (h : Buffers packer arcs grouped) (key : List ℕ) :
    (grouped.bufferBack packer).blocks key =
      (grouped.blocks key || arcs.back.any fun path => goesBelow path key) := by
  induction arcs generalizing grouped with
  | nil =>
    cases h
    rfl
  | cons first more payload children rest _ ih =>
    obtain ⟨buffer, children', rest', rfl, -, hrest⟩ := h.exists_cons
    by_cases hnil : rest = .nil
    · rw [hnil] at hrest ⊢
      cases hrest
      exact blocks_saved first more payload buffer _ children' key
    · have hback : (GroupedArcs.cons first more payload buffer children' rest').bufferBack packer =
          .cons first more payload buffer children' (rest'.bufferBack packer) := by
        cases hrest with
        | nil => exact absurd rfl hnil
        | saved _ => rfl
        | arcs _ _ => rfl
      rw [hback, Arcs.back_cons hnil]
      cases key with
      | nil => simp [GroupedArcs.blocks_nil_key, goesBelow_nil]
      | cons k ks =>
        rw [any_filter_goesBelow]
        by_cases hk : k = first
        · rw [hk, GroupedArcs.blocks_cons_self, GroupedArcs.blocks_cons_self]
          simp
        · rw [GroupedArcs.blocks_cons_of_ne hk, GroupedArcs.blocks_cons_of_ne hk, ih hrest]
          simp [hk]

theorem blocks_cons_congr {first : ℕ} {more : List ℕ} {payload payload' : Option Data}
    {children children' rest : GroupedArcs Data} {path : Option (List ℕ)}
    (h : ∀ key, children'.blocks key =
      (children.blocks key || path.any fun path => goesBelow path key)) (key : List ℕ) :
    (GroupedArcs.cons first more payload' none children' rest).blocks key =
      ((GroupedArcs.cons first more payload none children rest).blocks key ||
        (path.map fun path => first :: more ++ path).any fun path => goesBelow path key) := by
  cases key with
  | nil => simp [GroupedArcs.blocks_nil_key, goesBelow_nil]
  | cons k ks =>
    by_cases hk : k = first
    · rw [hk, GroupedArcs.blocks_cons_self, GroupedArcs.blocks_cons_self, Option.any_map]
      have hpath : ∀ path, goesBelow (first :: (more ++ path)) (first :: ks) =
          (strip more ks).any (goesBelow path) := by
        intro path
        rw [← List.cons_append, goesBelow_append, strip, if_pos rfl]
      cases hstrip : strip more ks with
      | none => cases path <;> simp [hpath, hstrip]
      | some left =>
        cases left with
        | nil => cases path <;> simp [hpath, hstrip, goesBelow_nil]
        | cons d ds => cases path <;> simp [hpath, hstrip, h]
    · rw [GroupedArcs.blocks_cons_of_ne hk, GroupedArcs.blocks_cons_of_ne hk]
      cases path with
      | none => simp
      | some path => simp [goesBelow_cons_of_ne hk]

theorem blocks_split {first e : ℕ} {common es : List ℕ} {payload payload' : Option Data}
    {buffer : Option (ℕ × List ℕ)} {children rest : GroupedArcs Data} (key : List ℕ) :
    (GroupedArcs.cons first common payload' none (.cons e es payload buffer children .nil)
        rest).blocks key =
      (GroupedArcs.cons first (common ++ e :: es) payload buffer children rest).blocks key := by
  cases key with
  | nil => rfl
  | cons k ks =>
    by_cases hk : k = first
    · rw [hk, GroupedArcs.blocks_cons_self, GroupedArcs.blocks_cons_self, strip_append]
      cases strip common ks with
      | none => rfl
      | some left =>
        cases left with
        | nil => rfl
        | cons d ds =>
          by_cases hd : d = e
          · simp [hd, GroupedArcs.blocks_cons_self, strip]
          · simp [strip, Ne.symm hd, hd, GroupedArcs.blocks]
    · rw [GroupedArcs.blocks_cons_of_ne hk, GroupedArcs.blocks_cons_of_ne hk]

theorem Arcs.exists_closedBy {arcs : Arcs Data} {c : ℕ} (hc : c ∈ arcs.firsts) {cs path : List ℕ}
    (h : arcs.closedBy c cs = some path) : ∃ more, path = c :: more := by
  induction arcs with
  | nil => cases hc
  | cons first more payload children rest _ ih =>
    rw [Arcs.closedBy] at h
    by_cases hfirst : c = first
    · rw [if_neg (by simp [hfirst]), if_neg (by simp [hfirst])] at h
      rw [hfirst]
      split at h
      · obtain ⟨below, -, rfl⟩ := Option.map_eq_some_iff.mp h
        exact ⟨_, rfl⟩
      · exact ⟨more, (Option.some.inj h).symm⟩
      · cases h
    · have hmem : c ∈ rest.firsts := by
        rcases List.mem_cons.mp hc with h | h
        · exact absurd h hfirst
        · exact h
      rw [if_neg (by simp [hmem]), if_pos hfirst] at h
      exact ih hmem h

theorem Buffers.blocks_link {arcs : Arcs Data} {grouped : GroupedArcs Data}
    (h : Buffers packer arcs grouped) {c : ℕ} (hc : c ∉ arcs.firsts) (cs : List ℕ) (v : Data)
    (key : List ℕ) : (grouped.link packer c cs v).blocks key =
      (grouped.blocks key || arcs.back.any fun path => goesBelow path key) := by
  rw [GroupedArcs.link, GroupedArcs.blocks_insert, h.blocks_bufferBack]
  rw [GroupedArcs.firsts_bufferBack, h.firsts]
  exact hc

/-- What is kept out after a key has been added. -/
theorem Buffers.blocks_add {arcs : Arcs Data} {grouped : GroupedArcs Data}
    (h : Buffers packer arcs grouped) {v : Data} {c : ℕ} {cs : List ℕ}
    {r : GroupedArcs Data × Bool} (hadd : grouped.add packer v c cs = some r) (key : List ℕ) :
    r.1.blocks key =
      (grouped.blocks key || (arcs.closedBy c cs).any fun path => goesBelow path key) := by
  induction arcs generalizing grouped c cs r key with
  | nil =>
    cases h
    rw [GroupedArcs.add, Option.some.injEq] at hadd
    rw [← hadd]
    exact (@Buffers.nil _ packer).blocks_link (by simp [Arcs.firsts]) cs v key
  | cons first more payload children rest ihChildren ih =>
    have hlink := fun hc => @Buffers.blocks_link _ packer _ _ h c hc cs v key
    obtain ⟨buffer, children', rest', rfl, hsub, hrest⟩ := h.exists_cons
    rw [GroupedArcs.add, hrest.firsts] at hadd
    rw [Arcs.closedBy]
    by_cases hc : c = first
    · rw [if_neg (by simp [hc]), if_neg (by simp [hc])] at hadd ⊢
      have hspec := diverge_spec more cs
      generalize diverge more cs = parts at hadd hspec ⊢
      obtain ⟨common, tail, target⟩ := parts
      obtain ⟨hmore, -, hne⟩ := hspec
      simp only at hmore hne
      cases tail with
      | nil =>
        cases target with
        | nil =>
          simp only [Option.some.injEq] at hadd
          rw [← hadd]
          cases key <;> simp [GroupedArcs.blocks]
        | cons d ds =>
          rcases hsub with ⟨rfl, rfl⟩ | ⟨rfl, hchildren⟩
          · simp at hadd
          · simp only [Option.isSome_none, Bool.false_eq_true, if_false,
              Option.map_eq_some_iff] at hadd
            obtain ⟨below, hbelow, rfl⟩ := hadd
            exact blocks_cons_congr (fun key => ihChildren hchildren hbelow key) key
      | cons e es =>
        subst hmore
        cases target with
        | nil =>
          simp only [Option.some.injEq] at hadd
          rw [← hadd, blocks_split]
          simp
        | cons d ds =>
          simp only [Option.some.injEq] at hadd
          have hed : d ≠ e := fun h => hne e es d ds rfl rfl h.symm
          have hsingle : Buffers packer (.cons e es payload children .nil)
              (.cons e es payload buffer children' .nil) := hsub.cons .nil e es payload
          have hbelow := fun key =>
            hsingle.blocks_link (show d ∉ [e] by simp [hed]) ds v key
          have hfork := @blocks_cons_congr Data first common none none _ _ rest' _ hbelow key
          rw [← hadd, hfork, blocks_split]
          simp [Arcs.back]
    · by_cases hmem : c ∈ rest.firsts
      · rw [if_neg (by simp [hmem]), if_pos hc] at hadd ⊢
        rw [Option.map_eq_some_iff] at hadd
        obtain ⟨after, hafter, rfl⟩ := hadd
        cases key with
        | nil => simp [GroupedArcs.blocks_nil_key, goesBelow_nil]
        | cons k ks =>
          by_cases hk : k = first
          · rw [hk, GroupedArcs.blocks_cons_self, GroupedArcs.blocks_cons_self]
            cases hclosed : rest.closedBy c cs with
            | none => simp
            | some path =>
              obtain ⟨left, rfl⟩ := Arcs.exists_closedBy hmem hclosed
              simp [goesBelow_cons_of_ne (Ne.symm hc)]
          · rw [GroupedArcs.blocks_cons_of_ne hk, GroupedArcs.blocks_cons_of_ne hk, ih hrest hafter]
      · rw [if_pos ⟨hc, hmem⟩, Option.some.injEq] at hadd
        rw [if_pos ⟨hc, hmem⟩, ← hadd]
        exact hlink (by simp [Arcs.firsts, hc, hmem])

/-- The empty key is never kept out. -/
theorem Buffers.blocks_addEmpty {arcs : Arcs Data} {grouped : GroupedArcs Data}
    (h : Buffers packer arcs grouped) (v : Data) (key : List ℕ) :
    (grouped.addEmpty packer v).1.blocks key =
      if arcs.hasZeroArc then grouped.blocks key
      else key.head? ≠ some 0 &&
        (grouped.blocks key || arcs.back.any fun path => goesBelow path key) := by
  have hfront : ∀ rest : GroupedArcs Data,
      (GroupedArcs.cons 0 [] (some v) none .nil rest).blocks key =
        (decide (key.head? ≠ some 0) && rest.blocks key) := by
    intro rest
    cases key with
    | nil => simp [GroupedArcs.blocks_nil_key]
    | cons k ks =>
      by_cases hk : k = 0
      · rw [hk, GroupedArcs.blocks_cons_self]
        simp [strip, GroupedArcs.blocks]
      · rw [GroupedArcs.blocks_cons_of_ne hk]
        simp [hk]
  have hinsert : ∀ arcs : GroupedArcs Data,
      arcs.insert 0 [] v = .cons 0 [] (some v) none .nil arcs := by
    intro arcs
    cases arcs with
    | nil => rfl
    | cons first more payload buffer children rest =>
      rw [GroupedArcs.insert, if_neg (Nat.not_lt_zero first)]
  have hlink : (grouped.link packer 0 [] v).blocks key = (decide (key.head? ≠ some 0) &&
      (grouped.blocks key || arcs.back.any fun path => goesBelow path key)) := by
    rw [GroupedArcs.link, hinsert, hfront, h.blocks_bufferBack]
  cases h with
  | nil => exact hlink
  | @saved first more payload children rest rest' hrest =>
    cases first with
    | zero =>
      cases more with
      | nil => cases key <;> rfl
      | cons _ _ => exact hlink
    | succ _ => exact hlink
  | @arcs first more payload children rest children' rest' hchildren hrest =>
    cases first with
    | zero =>
      cases more with
      | nil => cases key <;> rfl
      | cons _ _ => exact hlink
    | succ _ => exact hlink

theorem Buffers.blocks_addEntry {arcs : Arcs Data} {grouped : GroupedArcs Data}
    (h : Buffers packer arcs grouped) {key : List (Symbol extra)} {v : Data}
    {r : GroupedArcs Data × Bool} (hadd : grouped.addEntry packer key v = some r) :
    r.1.blocks = closing arcs key grouped.blocks := by
  funext bytes
  rw [GroupedArcs.addEntry] at hadd
  rw [closing]
  cases hkey : convertSymbolArrayToChar key with
  | nil =>
    simp only [hkey, Option.some.injEq] at hadd
    rw [← hadd, h.blocks_addEmpty]
  | cons c cs =>
    simp only [hkey] at hadd
    rw [h.blocks_add hadd]

theorem addEntry_eq_none_iff {grouped : GroupedArcs Data} {key : List (Symbol extra)} {v : Data} :
    grouped.addEntry packer key v = none ↔
      grouped.blocks (convertSymbolArrayToChar key) = true := by
  rw [GroupedArcs.addEntry]
  cases convertSymbolArrayToChar key with
  | nil => simp [GroupedArcs.blocks_nil_key]
  | cons c cs => exact GroupedArcs.add_eq_none_iff

/-- The run of the builder with the flag does not throw, its answers are those of the builder
without the flag, and the same bytes are saved. -/
def SameAs (packer : Packer Data) (root : Arcs Data) (grouped : GroupedArcs Data)
    (entries : List (List (Symbol extra) × Data)) : Prop :=
  ∃ grouped', grouped.run packer entries = some (grouped',
      (Machine.run (fun root entry => addEntry root entry.1 entry.2) root entries).2) ∧
    grouped'.save packer =
      save packer (Machine.run (fun root entry => addEntry root entry.1 entry.2) root entries).1

theorem sameAs_iff {entries : List (List (Symbol extra) × Data)} : ∀ {root : Arcs Data}
    {grouped : GroupedArcs Data}, Buffers packer root grouped → root.Sorted →
    (SameAs packer root grouped entries ↔ InOrder root grouped.blocks entries) := by
  induction entries with
  | nil =>
    intro root grouped h _
    exact ⟨fun _ => trivial, fun _ => ⟨grouped, rfl, h.save⟩⟩
  | cons entry entries ih =>
    intro root grouped h hsorted
    rw [InOrder]
    cases hadd : grouped.addEntry packer entry.1 entry.2 with
    | none =>
      have hblocks := addEntry_eq_none_iff.mp hadd
      constructor
      · intro hsame
        obtain ⟨grouped', hrun, -⟩ := hsame
        rw [GroupedArcs.run, hadd] at hrun
        cases hrun
      · intro horder
        rw [hblocks] at horder
        exact absurd horder.1 (by simp)
    | some r =>
      obtain ⟨hbuffers, hnew⟩ := h.addEntry hsorted hadd
      have hopen : grouped.blocks (convertSymbolArrayToChar entry.1) = false := by
        by_contra hblocks
        rw [addEntry_eq_none_iff.mpr (eq_true_of_ne_false hblocks)] at hadd
        cases hadd
      have hrest := ih hbuffers (hsorted.addEntry entry.1 entry.2)
      rw [h.blocks_addEntry hadd] at hrest
      rw [← hrest]
      constructor
      · intro hsame
        refine ⟨hopen, ?_⟩
        obtain ⟨grouped', hrun, hsave⟩ := hsame
        rw [GroupedArcs.run, hadd] at hrun
        cases hlater : r.1.run packer entries with
        | none => simp [hlater] at hrun
        | some later =>
          simp only [Option.bind_eq_bind, Option.bind_some, hlater, Machine.run,
            Option.some.injEq, Prod.mk.injEq, List.cons.injEq] at hrun
          exact ⟨grouped', by rw [hlater, ← hrun.1, ← hrun.2.2], hsave⟩
      · intro hboth
        obtain ⟨-, grouped', hrun, hsave⟩ := hboth
        refine ⟨grouped', ?_, hsave⟩
        rw [GroupedArcs.run, hadd]
        simp [hrun, hnew, Machine.run]

/-- The builder with the flag throws no exception, answers and saves as the builder without it if and
only if no key goes on below a subtree that has been closed. -/
theorem groupedBuild_iff (packer : Packer Data) (entries : List (List (Symbol extra) × Data)) :
    (∃ root, GroupedArcs.build packer entries = some (root, (build entries).2) ∧
      root.save packer = save packer (build entries).1) ↔
      InOrder .nil (fun _ => false) entries := by
  have hclosed : (GroupedArcs.nil : GroupedArcs Data).blocks = fun _ => false := rfl
  rw [← hclosed, ← sameAs_iff (@Buffers.nil Data packer) trivial]
  rfl

end TomitaParser.Comptrie
