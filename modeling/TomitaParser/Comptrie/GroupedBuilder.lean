import TomitaParser.Comptrie.BuiltTries
/-! # The builder for prefix-grouped keys

With `CTBF_PREFIX_GROUPED` the builder saves the subtree of the last arc into a buffer as soon as
another arc is added to a node. No key can be added below a node with a buffer. -/

namespace TomitaParser.Comptrie

variable {Data : Type} {extra : ℕ}

/-- The arcs of a node. The subtree of an arc is in a buffer, `TBufferedSubtree`, of which the size
and the bytes are known, or it is a set of arcs. -/
inductive GroupedArcs (Data : Type) where
  | nil
  | cons (first : ℕ) (more : List ℕ) (payload : Option Data) (buffer : Option (ℕ × List ℕ))
      (children rest : GroupedArcs Data)

namespace GroupedArcs

def firsts : GroupedArcs Data → List ℕ
  | nil => []
  | cons first _ _ _ _ rest => first :: rest.firsts

/-- `IsLast`. -/
def isLast : Option (ℕ × List ℕ) → GroupedArcs Data → Bool
  | some buffer, _ => buffer.1 = 0
  | none, nil => true
  | none, cons _ _ _ _ _ _ => false

variable (packer : Packer Data)

def rows : GroupedArcs Data → List Row
  | nil => []
  | cons first more payload buffer children rest =>
    { first
      more
      isFinal := payload.isSome
      isLast := isLast buffer children
      leafSize := nodeMeasureLeafValue packer payload
      leaf := nodeSaveLeafValue packer payload
      treeSize := (buffer.getD (measureRange children.rows, saveRange children.rows)).1
      tree := (buffer.getD (measureRange children.rows, saveRange children.rows)).2 } :: rest.rows

/-- `NodeBufferSubtree`: what is measured and saved is kept, if it has not been. -/
def nodeBufferSubtree (buffer : Option (ℕ × List ℕ)) (children : GroupedArcs Data) :
    ℕ × List ℕ :=
  buffer.getD (measureRange (children.rows packer), saveRange (children.rows packer))

/-- The subtree of the last arc is saved. -/
def bufferBack : GroupedArcs Data → GroupedArcs Data
  | nil => nil
  | cons first more payload buffer children rest =>
    match rest with
    | nil => cons first more payload (some (nodeBufferSubtree packer buffer children)) nil nil
    | cons _ _ _ _ _ _ => cons first more payload buffer children (bufferBack rest)

/-- A new arc is put in its place. -/
def insert (first : ℕ) (more : List ℕ) (v : Data) : GroupedArcs Data → GroupedArcs Data
  | nil => cons first more (some v) none nil nil
  | cons g label payload buffer children rest =>
    if g < first then cons g label payload buffer children (insert first more v rest)
    else cons first more (some v) none nil (cons g label payload buffer children rest)

/-- `NodeLinkTo` for a new leaf. -/
def link (first : ℕ) (more : List ℕ) (v : Data) (arcs : GroupedArcs Data) : GroupedArcs Data :=
  insert first more v (arcs.bufferBack packer)

/-- `AddEntry` for the bytes of a key that is not empty: nothing for the exception when the key goes
on below a node with a buffer. -/
def add (v : Data) : GroupedArcs Data → ℕ → List ℕ → Option (GroupedArcs Data × Bool)
  | nil, c, cs => some (link packer c cs v nil, true)
  | cons first more payload buffer children rest, c, cs =>
    if c ≠ first ∧ c ∉ rest.firsts then
      some (link packer c cs v (cons first more payload buffer children rest), true)
    else if c ≠ first then
      (add v rest c cs).map fun r => (cons first more payload buffer children r.1, r.2)
    else
      match diverge more cs with
      | (_, [], []) => some (cons first more (some v) buffer children rest, payload.isNone)
      | (_, [], d :: ds) =>
        if buffer.isSome then none
        else (add v children d ds).map fun r => (cons first more payload buffer r.1 rest, r.2)
      | (common, e :: es, []) =>
        some (cons first common (some v) none (cons e es payload buffer children nil) rest, true)
      | (common, e :: es, d :: ds) =>
        some (cons first common none none
          (link packer d ds v (cons e es payload buffer children nil)) rest, true)

/-- `AddEntry` for the empty key. -/
def addEmpty (v : Data) : GroupedArcs Data → GroupedArcs Data × Bool
  | cons 0 [] payload buffer children rest =>
    (cons 0 [] (some v) buffer children rest, payload.isNone)
  | arcs => (link packer 0 [] v arcs, true)

/-- `AddEntry`: the arcs of the root, and `isNewAddition`. -/
def addEntry (root : GroupedArcs Data) (key : List (Symbol extra)) (value : Data) :
    Option (GroupedArcs Data × Bool) :=
  match convertSymbolArrayToChar key with
  | [] => some (root.addEmpty packer value)
  | c :: cs => root.add packer value c cs

/-- The calls of `Add` on a new builder: nothing if one of them throws. -/
def run : GroupedArcs Data → List (List (Symbol extra) × Data) →
    Option (GroupedArcs Data × List Bool)
  | root, [] => some (root, [])
  | root, entry :: entries => do
    let (root, isNew) ← root.addEntry packer entry.1 entry.2
    let (root, news) ← run root entries
    some (root, isNew :: news)

def build (entries : List (List (Symbol extra) × Data)) :
    Option (GroupedArcs Data × List Bool) := run packer nil entries

/-- `Save`. -/
def save (root : GroupedArcs Data) : Option (List ℕ) :=
  if measureRange (root.rows packer) ≠ (saveRange (root.rows packer)).length then none
  else some (saveRange (root.rows packer))

end GroupedArcs

/-- The arcs of a node are those of the other builder, up to subtrees that have been saved. -/
inductive Buffers (packer : Packer Data) : Arcs Data → GroupedArcs Data → Prop
  | nil : Buffers packer .nil .nil
  | saved {first : ℕ} {more : List ℕ} {payload : Option Data} {children rest : Arcs Data}
      {rest' : GroupedArcs Data} (hrest : Buffers packer rest rest') :
      Buffers packer (.cons first more payload children rest)
        (.cons first more payload
          (some (nodeMeasureSubtree packer children, nodeSaveSubtree packer children)) .nil rest')
  | arcs {first : ℕ} {more : List ℕ} {payload : Option Data} {children rest : Arcs Data}
      {children' rest' : GroupedArcs Data} (hchildren : Buffers packer children children')
      (hrest : Buffers packer rest rest') :
      Buffers packer (.cons first more payload children rest)
        (.cons first more payload none children' rest')

variable {packer : Packer Data}

theorem isLast_eq (arcs : Arcs Data) :
    decide (nodeMeasureSubtree packer arcs = 0) = arcs.isLast := by
  rw [nodeMeasureSubtree]
  cases arcs with
  | nil => simp [measureRange_eq_zero, Arcs.rows, Arcs.isLast]
  | cons first more payload children rest =>
    simp [measureRange_eq_zero, Arcs.rows, Arcs.isLast]

theorem Buffers.rows {arcs : Arcs Data} {grouped : GroupedArcs Data}
    (h : Buffers packer arcs grouped) : grouped.rows packer = arcs.rows packer := by
  induction h with
  | nil => rfl
  | @saved first more payload children rest rest' hrest ih =>
    rw [GroupedArcs.rows, Arcs.rows, ih]
    simp only [GroupedArcs.isLast, isLast_eq, Option.getD_some]
    rfl
  | @arcs first more payload children rest children' rest' hchildren hrest ihChildren ih =>
    have hlast : GroupedArcs.isLast none children' = children.isLast := by
      cases hchildren <;> rfl
    rw [GroupedArcs.rows, Arcs.rows, ih, ihChildren, hlast]
    rfl

theorem Buffers.save {arcs : Arcs Data} {grouped : GroupedArcs Data}
    (h : Buffers packer arcs grouped) : grouped.save packer = save packer arcs := by
  rw [GroupedArcs.save, h.rows]
  rfl

theorem Buffers.firsts {arcs : Arcs Data} {grouped : GroupedArcs Data}
    (h : Buffers packer arcs grouped) : grouped.firsts = arcs.firsts := by
  induction h with
  | nil => rfl
  | saved _ ih => rw [GroupedArcs.firsts, Arcs.firsts, ih]
  | arcs _ _ _ ih => rw [GroupedArcs.firsts, Arcs.firsts, ih]

theorem Buffers.nodeBufferSubtree {children : Arcs Data} {children' : GroupedArcs Data}
    (h : Buffers packer children children') :
    GroupedArcs.nodeBufferSubtree packer none children' =
      (nodeMeasureSubtree packer children, nodeSaveSubtree packer children) := by
  rw [GroupedArcs.nodeBufferSubtree, Option.getD_none, h.rows]
  rfl

theorem Buffers.bufferBack {arcs : Arcs Data} {grouped : GroupedArcs Data}
    (h : Buffers packer arcs grouped) : Buffers packer arcs (grouped.bufferBack packer) := by
  induction h with
  | nil => exact .nil
  | saved hrest ih =>
    cases hrest with
    | nil => exact .saved .nil
    | saved _ => exact .saved ih
    | arcs _ _ => exact .saved ih
  | arcs hchildren hrest _ ih =>
    cases hrest with
    | nil =>
      rw [GroupedArcs.bufferBack, hchildren.nodeBufferSubtree]
      exact .saved .nil
    | saved _ => exact .arcs hchildren ih
    | arcs _ _ => exact .arcs hchildren ih

theorem Buffers.insert {arcs : Arcs Data} {grouped : GroupedArcs Data}
    (h : Buffers packer arcs grouped) (first : ℕ) (more : List ℕ) (v : Data) :
    Buffers packer (arcs.link first more v) (grouped.insert first more v) := by
  induction h with
  | nil => exact .arcs .nil .nil
  | saved hrest ih =>
    rw [Arcs.link, GroupedArcs.insert]
    split_ifs
    · exact .saved ih
    · exact .arcs .nil (.saved hrest)
  | arcs hchildren hrest _ ih =>
    rw [Arcs.link, GroupedArcs.insert]
    split_ifs
    · exact .arcs hchildren ih
    · exact .arcs .nil (.arcs hchildren hrest)

theorem Buffers.link {arcs : Arcs Data} {grouped : GroupedArcs Data}
    (h : Buffers packer arcs grouped) (first : ℕ) (more : List ℕ) (v : Data) :
    Buffers packer (arcs.link first more v) (grouped.link packer first more v) :=
  h.bufferBack.insert first more v

/-- The first bytes of the labels do not fall. -/
def Arcs.Sorted : Arcs Data → Prop
  | .nil => True
  | .cons first _ _ children rest =>
    (∀ g ∈ rest.firsts, first ≤ g) ∧ children.Sorted ∧ rest.Sorted

theorem Arcs.Sorted.link {arcs : Arcs Data} (h : arcs.Sorted) (first : ℕ) (more : List ℕ)
    (v : Data) : (arcs.link first more v).Sorted := by
  induction arcs with
  | nil => simp [Arcs.link, Arcs.Sorted, Arcs.firsts]
  | cons g label payload children rest _ ih =>
    obtain ⟨hle, hchildren, hrest⟩ := h
    rw [Arcs.link]
    split_ifs with hg
    · refine ⟨?_, hchildren, ih hrest⟩
      intro k hk
      rcases (Arcs.firsts_link first more v rest k).mp hk with rfl | hk
      · exact hg.le
      · exact hle k hk
    · refine ⟨?_, trivial, hle, hchildren, hrest⟩
      intro k hk
      rcases List.mem_cons.mp hk with rfl | hk
      · exact not_lt.mp hg
      · exact (not_lt.mp hg).trans (hle k hk)

theorem Arcs.Sorted.add_of_not_mem {arcs : Arcs Data} (h : arcs.Sorted) (v : Data) {c : ℕ}
    (cs : List ℕ) (hc : c ∉ arcs.firsts) : arcs.add v c cs = (arcs.link c cs v, true) := by
  induction arcs with
  | nil => rfl
  | cons first more payload children rest _ ih =>
    obtain ⟨-, -, hrest⟩ := h
    rw [Arcs.firsts, List.mem_cons, not_or] at hc
    rw [Arcs.add, Arcs.link]
    by_cases hlt : first < c
    · rw [if_pos hlt, if_pos hlt, ih hrest hc.2]
    · rw [if_neg hlt, if_neg hlt, if_pos (by omega)]

theorem Arcs.add_cons_self (first : ℕ) (more : List ℕ) (payload : Option Data)
    (children rest : Arcs Data) (v : Data) (cs : List ℕ) :
    (Arcs.cons first more payload children rest).add v first cs =
      match diverge more cs with
      | (_, [], []) => (.cons first more (some v) children rest, payload.isNone)
      | (_, [], d :: ds) =>
        (.cons first more payload (children.add v d ds).1 rest, (children.add v d ds).2)
      | (common, e :: es, []) =>
        (.cons first common (some v) (.cons e es payload children .nil) rest, true)
      | (common, e :: es, d :: ds) =>
        (.cons first common none (Arcs.link d ds v (.cons e es payload children .nil)) rest,
          true) := by
  rw [Arcs.add]
  exact (if_neg (lt_irrefl first)).trans (if_neg (lt_irrefl first))

theorem Arcs.Sorted.firsts_add {arcs : Arcs Data} (h : arcs.Sorted) (v : Data) (c : ℕ)
    (cs : List ℕ) (g : ℕ) (hg : g ∈ (arcs.add v c cs).1.firsts) : g = c ∨ g ∈ arcs.firsts := by
  induction arcs with
  | nil =>
    left
    simpa [Arcs.add, Arcs.firsts] using hg
  | cons first more payload children rest _ ih =>
    have hself := h
    obtain ⟨hle, hchildren, hrest⟩ := h
    by_cases hc : c = first
    · rw [hc, Arcs.add_cons_self] at hg
      right
      split at hg <;> exact hg
    · by_cases hmem : c ∈ rest.firsts
      · have hlt : first < c := lt_of_le_of_ne (hle c hmem) (Ne.symm hc)
        rw [Arcs.add, if_pos hlt] at hg
        rcases List.mem_cons.mp hg with rfl | hg
        · exact Or.inr List.mem_cons_self
        · exact (ih hrest hg).imp_right (List.mem_cons_of_mem first)
      · rw [hself.add_of_not_mem v cs (by simp [Arcs.firsts, hc, hmem])] at hg
        exact (Arcs.firsts_link c cs v _ g).mp hg

theorem Arcs.Sorted.add {arcs : Arcs Data} (h : arcs.Sorted) (v : Data) (c : ℕ) (cs : List ℕ) :
    (arcs.add v c cs).1.Sorted := by
  induction arcs generalizing c cs with
  | nil => simp [Arcs.add, Arcs.Sorted, Arcs.firsts]
  | cons first more payload children rest ihChildren ih =>
    have hself := h
    obtain ⟨hle, hchildren, hrest⟩ := h
    by_cases hc : c = first
    · rw [hc, Arcs.add_cons_self]
      have hsingle : ∀ (e : ℕ) (es : List ℕ),
          (Arcs.cons e es payload children .nil).Sorted := fun e es =>
        ⟨by simp [Arcs.firsts], hchildren, trivial⟩
      split
      · exact ⟨hle, hchildren, hrest⟩
      · exact ⟨hle, ihChildren hchildren _ _, hrest⟩
      · exact ⟨hle, hsingle _ _, hrest⟩
      · exact ⟨hle, (hsingle _ _).link _ _ v, hrest⟩
    · by_cases hmem : c ∈ rest.firsts
      · have hlt : first < c := lt_of_le_of_ne (hle c hmem) (Ne.symm hc)
        rw [Arcs.add, if_pos hlt]
        refine ⟨?_, hchildren, ih hrest c cs⟩
        intro g hg
        rcases hrest.firsts_add v c cs g hg with rfl | hg
        · exact hlt.le
        · exact hle g hg
      · rw [hself.add_of_not_mem v cs (by simp [Arcs.firsts, hc, hmem])]
        exact hself.link c cs v

theorem Arcs.Sorted.addEmpty {arcs : Arcs Data} (h : arcs.Sorted) (v : Data) :
    (arcs.addEmpty v).1.Sorted := by
  unfold Arcs.addEmpty
  split
  · exact h
  · exact h.link 0 [] v

theorem Arcs.Sorted.addEntry {arcs : Arcs Data} (h : arcs.Sorted) (key : List (Symbol extra))
    (v : Data) : (addEntry arcs key v).1.Sorted := by
  rw [Comptrie.addEntry]
  cases convertSymbolArrayToChar key with
  | nil => exact h.addEmpty v
  | cons c cs => exact h.add v c cs

/-- The subtree of a node is that of the other builder, saved or not. -/
def BuffersSubtree (packer : Packer Data) (children : Arcs Data) (buffer : Option (ℕ × List ℕ))
    (children' : GroupedArcs Data) : Prop :=
  buffer = some (nodeMeasureSubtree packer children, nodeSaveSubtree packer children) ∧
      children' = .nil ∨
    buffer = none ∧ Buffers packer children children'

theorem BuffersSubtree.cons {children rest : Arcs Data} {buffer : Option (ℕ × List ℕ)}
    {children' rest' : GroupedArcs Data} (h : BuffersSubtree packer children buffer children')
    (hrest : Buffers packer rest rest') (first : ℕ) (more : List ℕ) (payload : Option Data) :
    Buffers packer (.cons first more payload children rest)
      (.cons first more payload buffer children' rest') := by
  rcases h with ⟨rfl, rfl⟩ | ⟨rfl, hchildren⟩
  · exact .saved hrest
  · exact .arcs hchildren hrest

theorem Buffers.exists_cons {first : ℕ} {more : List ℕ} {payload : Option Data}
    {children rest : Arcs Data} {grouped : GroupedArcs Data}
    (h : Buffers packer (.cons first more payload children rest) grouped) :
    ∃ buffer children' rest', grouped = .cons first more payload buffer children' rest' ∧
      BuffersSubtree packer children buffer children' ∧ Buffers packer rest rest' := by
  cases h with
  | saved hrest => exact ⟨_, _, _, rfl, Or.inl ⟨rfl, rfl⟩, hrest⟩
  | arcs hchildren hrest => exact ⟨_, _, _, rfl, Or.inr ⟨rfl, hchildren⟩, hrest⟩

/-- Adding a key keeps the trees alike, unless it throws. -/
theorem Buffers.add {arcs : Arcs Data} {grouped : GroupedArcs Data}
    (h : Buffers packer arcs grouped) (hsorted : arcs.Sorted) {v : Data} {c : ℕ} {cs : List ℕ}
    {r : GroupedArcs Data × Bool} (hadd : grouped.add packer v c cs = some r) :
    Buffers packer (arcs.add v c cs).1 r.1 ∧ r.2 = (arcs.add v c cs).2 := by
  induction arcs generalizing grouped c cs r with
  | nil =>
    cases h
    rw [GroupedArcs.add, Option.some.injEq] at hadd
    rw [← hadd]
    exact ⟨.arcs .nil .nil, rfl⟩
  | cons first more payload children rest ihChildren ih =>
    have hlink := h.link c cs v
    have hfirsts := h.firsts
    obtain ⟨buffer, children', rest', rfl, hsub, hrest⟩ := h.exists_cons
    have hself := hsorted
    obtain ⟨hle, hchildrenSorted, hrestSorted⟩ := hsorted
    rw [GroupedArcs.add, hrest.firsts] at hadd
    by_cases hc : c = first
    · rw [if_neg (by simp [hc]), if_neg (by simp [hc])] at hadd
      rw [hc, Arcs.add_cons_self]
      have hsingle : ∀ (e : ℕ) (es : List ℕ), Buffers packer (.cons e es payload children .nil)
          (.cons e es payload buffer children' .nil) := fun e es => hsub.cons .nil e es payload
      generalize diverge more cs = parts at hadd
      obtain ⟨common, tail, target⟩ := parts
      cases tail with
      | nil =>
        cases target with
        | nil =>
          simp only [Option.some.injEq] at hadd
          rw [← hadd]
          exact ⟨hsub.cons hrest first more (some v), rfl⟩
        | cons d ds =>
          rcases hsub with ⟨rfl, rfl⟩ | ⟨rfl, hchildren⟩
          · simp at hadd
          · simp only [Option.isSome_none, Bool.false_eq_true, if_false,
              Option.map_eq_some_iff] at hadd
            obtain ⟨below, hbelow, rfl⟩ := hadd
            obtain ⟨hchildren', hnew⟩ := ihChildren hchildren hchildrenSorted hbelow
            exact ⟨.arcs hchildren' hrest, hnew⟩
      | cons e es =>
        cases target with
        | nil =>
          simp only [Option.some.injEq] at hadd
          rw [← hadd]
          exact ⟨.arcs (hsingle e es) hrest, rfl⟩
        | cons d ds =>
          simp only [Option.some.injEq] at hadd
          rw [← hadd]
          exact ⟨.arcs ((hsingle e es).link d ds v) hrest, rfl⟩
    · by_cases hmem : c ∈ rest.firsts
      · have hlt : first < c := lt_of_le_of_ne (hle c hmem) (Ne.symm hc)
        rw [if_neg (by simp [hmem]), if_pos hc, Option.map_eq_some_iff] at hadd
        obtain ⟨after, hafter, rfl⟩ := hadd
        obtain ⟨hrest', hnew⟩ := ih hrest hrestSorted hafter
        rw [Arcs.add, if_pos hlt]
        exact ⟨hsub.cons hrest' first more payload, hnew⟩
      · rw [if_pos ⟨hc, hmem⟩, Option.some.injEq] at hadd
        rw [hself.add_of_not_mem v cs (by simp [Arcs.firsts, hc, hmem]), ← hadd]
        exact ⟨hlink, rfl⟩

theorem Buffers.addEmpty {arcs : Arcs Data} {grouped : GroupedArcs Data}
    (h : Buffers packer arcs grouped) (v : Data) :
    Buffers packer (arcs.addEmpty v).1 (grouped.addEmpty packer v).1 ∧
      (grouped.addEmpty packer v).2 = (arcs.addEmpty v).2 := by
  have hlink := h.link 0 [] v
  cases h with
  | nil => exact ⟨hlink, rfl⟩
  | @saved first more payload children rest rest' hrest =>
    match first, more with
    | 0, [] => exact ⟨.saved hrest, rfl⟩
    | 0, _ :: _ => exact ⟨hlink, rfl⟩
    | _ + 1, _ => exact ⟨hlink, rfl⟩
  | @arcs first more payload children rest children' rest' hchildren hrest =>
    match first, more with
    | 0, [] => exact ⟨.arcs hchildren hrest, rfl⟩
    | 0, _ :: _ => exact ⟨hlink, rfl⟩
    | _ + 1, _ => exact ⟨hlink, rfl⟩

theorem Buffers.addEntry {arcs : Arcs Data} {grouped : GroupedArcs Data}
    (h : Buffers packer arcs grouped) (hsorted : arcs.Sorted) {key : List (Symbol extra)}
    {v : Data} {r : GroupedArcs Data × Bool} (hadd : grouped.addEntry packer key v = some r) :
    Buffers packer (addEntry arcs key v).1 r.1 ∧ r.2 = (addEntry arcs key v).2 := by
  rw [GroupedArcs.addEntry] at hadd
  rw [Comptrie.addEntry]
  cases hkey : convertSymbolArrayToChar key with
  | nil =>
    rw [hkey] at hadd
    rw [Option.some.injEq] at hadd
    rw [← hadd]
    exact h.addEmpty v
  | cons c cs =>
    rw [hkey] at hadd
    exact h.add hsorted hadd

end TomitaParser.Comptrie
