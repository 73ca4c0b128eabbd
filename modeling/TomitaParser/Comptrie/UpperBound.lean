import TomitaParser.Comptrie.Positions
/-! # The upper bound of a key

`LongestPrefix` follows a key down the search tree until the key and the tree part. The position of
the first key not below the given one is either where it stops, the first leaf further down, or the
next leaf. -/

namespace TomitaParser.Comptrie
open TernaryTree
variable {Data : Type} {packer : Packer Data}

/-- The stack that comes next after a loop over the leaves, when there are no more forks below. -/
def NextIs (packer : Packer Data) (data : List ℕ) (forks : List Fork)
    (next : Option (List Fork)) (outside : List Fork) : Prop :=
  advance packer data forks =
    match next with
    | some s => some (true, s)
    | none => advance packer data outside

theorem NextIs.of_outside {data : List ℕ} {forks : List Fork} {next next' : Option (List Fork)}
    {outside outside' : List Fork} (h : NextIs packer data forks next outside)
    (houtside : NextIs packer data outside next' outside') :
    NextIs packer data forks (next.or next') outside' := by
  cases next with
  | some s => exact h
  | none => exact Eq.trans h houtside

theorem getElem?_middle {α : Type*} (before mid after : List α) {i : ℕ} (h : i ≤ mid.length) :
    (before ++ (mid ++ after))[before.length + i]? = mid[i]?.or after.head? := by
  rw [List.getElem?_append_right (Nat.le_add_right _ _), Nat.add_sub_cancel_left]
  rcases Nat.lt_or_eq_of_le h with hlt | rfl
  · rw [List.getElem?_append_left hlt, List.getElem?_eq_getElem hlt]
    rfl
  · rw [List.getElem?_append_right (le_refl _), Nat.sub_self,
      List.getElem?_eq_none (le_refl mid.length), List.head?_eq_getElem?]
    rfl

/-- The positions of a node, parted at a direction. -/
theorem along_at {data : List ℕ} {node : Node}
    {behind : Direction → List Fork → List (List Fork)} {forks : List Fork}
    (hinside : node.offset < data.length) {rest : List Direction} (passed : List Direction)
    (hbehind : ∀ d ∈ rest, ∀ passed later stack,
      stack = ({ node, passed, rest := d :: later } : Fork) :: forks →
        Spans packer data node.offset (behind d stack) stack stack stack stack)
    {α : Type*} {entries : Direction → List α}
    (hlength : ∀ d ∈ rest, ∀ stack, (behind d stack).length = (entries d).length)
    {d : Direction} (hd : d ∈ rest) :
    ∃ before after later, rest.dropWhile (· ≠ d) = d :: later ∧
      along node behind forks passed rest = before ++
        (behind d (⟨node, (rest.takeWhile (· ≠ d)).reverse ++ passed, d :: later⟩ :: forks) ++
          after) ∧
      before.length = ((rest.takeWhile (· ≠ d)).flatMap entries).length ∧
      NextIs packer data (⟨node, (rest.takeWhile (· ≠ d)).reverse ++ passed, d :: later⟩ :: forks)
        after.head? forks := by
  induction rest generalizing passed with
  | nil => simp at hd
  | cons e rest ih =>
    by_cases he : e = d
    · subst he
      refine ⟨[], along node behind forks (e :: passed) rest, rest, by simp, by simp [along],
        by simp, ?_⟩
      have htake : (e :: rest).takeWhile (· ≠ e) = [] := by simp
      unfold NextIs
      rw [htake, advance]
      cases rest with
      | nil =>
        simp [Fork.nextDirection, hinside, along]
      | cons c rest =>
        have hspans := @spans_along Data packer data node behind forks hinside (c :: rest)
          (List.cons_ne_nil _ _) (e :: passed) fun d hd => hbehind d (List.mem_cons_of_mem _ hd)
        obtain ⟨s, hs⟩ := Option.ne_none_iff_exists'.mp
          (mt List.head?_eq_none_iff.mp hspans.ne_nil)
        rw [hs]
        change (descend packer data id data.length
          ({ node, passed := e :: passed, rest := c :: rest } :: forks)).map (true, ·) = _
        rw [hspans.descend_front s hs _ (by omega)]
        rfl
    · obtain ⟨before, after, later, hdrop, halong, hlen, hnext⟩ := ih (e :: passed)
        (fun d hd => hbehind d (List.mem_cons_of_mem _ hd))
        (fun d hd => hlength d (List.mem_cons_of_mem _ hd))
        ((List.mem_cons.mp hd).resolve_left fun h => he h.symm)
      have htake : (e :: rest).takeWhile (· ≠ d) = e :: rest.takeWhile (· ≠ d) := by
        simp [he]
      have hpassed : (e :: rest.takeWhile (· ≠ d)).reverse ++ passed =
          (rest.takeWhile (· ≠ d)).reverse ++ e :: passed := by
        simp
      rw [htake, hpassed]
      refine ⟨behind e ({ node, passed, rest := e :: rest } :: forks) ++ before, after, later,
        ?_, ?_, ?_, hnext⟩
      · rw [← hdrop]
        simp [he]
      · rw [along, halong, List.append_assoc]
      · rw [List.length_append, List.flatMap_cons, List.length_append, hlen,
          hlength e List.mem_cons_self]

/-- How many entries there are before a direction. -/
def countBefore (label : ℕ) (payload : Option Data) (left forward : Tree ℕ Data) :
    Direction → ℕ
  | .left => 0
  | .final => left.entries.length
  | .next => left.entries.length + (own label payload).length
  | .right => left.entries.length + ((own label payload).length + forward.entries.length)

theorem flatMap_takeWhile_filter {α β : Type*} [DecidableEq α] {p : α → Bool} {f : α → List β}
    (hf : ∀ a, p a = false → f a = []) {d : α} (hd : p d = true) (l : List α) :
    ((l.filter p).takeWhile (· ≠ d)).flatMap f = (l.takeWhile (· ≠ d)).flatMap f := by
  induction l with
  | nil => rfl
  | cons a l ih =>
    cases hp : p a with
    | false =>
      have had : a ≠ d := by
        rintro rfl
        rw [hd] at hp
        cases hp
      rw [List.filter_cons_of_neg (by simp [hp]), List.takeWhile_cons_of_pos (by simp [had]),
        List.flatMap_cons, hf a hp, ih, List.nil_append]
    | true =>
      rw [List.filter_cons_of_pos hp]
      by_cases had : a = d
      · simp [had]
      · rw [List.takeWhile_cons_of_pos (by simp [had]), List.takeWhile_cons_of_pos (by simp [had]),
          List.flatMap_cons, List.flatMap_cons, ih]

theorem directions_eq_filter (node : Node) :
    node.directions =
      [Direction.left, .final, .next, .right].filter (· ∈ node.directions) := by
  simp only [List.filter_cons, List.filter_nil, decide_eq_true_eq, mem_directions]
  rw [Node.directions]
  split_ifs <;> rfl

/-- The positions of a tree, parted at a direction that its root has. -/
structure PartedAt (packer : Packer Data) (data : List ℕ) (node : Node)
    (left forward right : Tree ℕ Data) (ways : List (List Fork)) (count : ℕ) (d : Direction)
    (top : Fork) (forks : List Fork) (before after : List (List Fork)) : Prop where
  setDirection : ({ node, passed := [], rest := node.directions } : Fork).setDirection d = some top
  node_eq : top.node = node
  current : top.current = some d
  ways_eq : ways = before ++
    (behindDirection packer data node left forward right d (top :: forks) ++ after)
  length_before : before.length = count
  next : NextIs packer data (top :: forks) after.head? forks
  spans : Spans packer data node.offset
    (behindDirection packer data node left forward right d (top :: forks)) (top :: forks)
    (top :: forks) (top :: forks) (top :: forks)

theorem positions_at {data : List ℕ} {offset label : ℕ} {payload : Option Data}
    {left forward right : Tree ℕ Data}
    (hlive : (TernaryTree.Tree.node label payload left forward right).Live) {node : Node}
    (hread : readNode packer data offset = some node) (hpayload : node.HasPayload packer payload)
    (hleft : node.leftOffset = 0 ↔ left = .nil)
    (hforward : node.forwardOffset = 0 ↔ forward = .nil)
    (hright : node.rightOffset = 0 ↔ right = .nil)
    (hl : ReadsAs packer data left node.leftOffset)
    (hf : ReadsAs packer data forward node.forwardOffset)
    (hr : ReadsAs packer data right node.rightOffset) (forks : List Fork) {d : Direction}
    (hd : d ∈ node.directions) : ∃ top before after,
      PartedAt packer data node left forward right
        (positions packer data (.node label payload left forward right) offset forks)
        (countBefore label payload left forward d) d top forks before after := by
  have hbounds := readNode_bounds hread
  have hoffset := hbounds.offset_eq
  have hinside : node.offset < data.length := by
    have := hbounds.inside
    omega
  have hspans : ∀ d ∈ node.directions, ∀ passed later stack,
      stack = ({ node, passed, rest := d :: later } : Fork) :: forks →
        Spans packer data node.offset (behindDirection packer data node left forward right d stack)
          stack stack stack stack := by
    intro d hd passed later stack hstack
    exact spans_behind hread (fun h => spans_positions (mt hleft.mpr h) hlive.2.1 hl)
      (fun h => spans_positions (mt hforward.mpr h) hlive.2.2.1 hf)
      (fun h => spans_positions (mt hright.mpr h) hlive.2.2.2 hr) hd hstack
  have hlength : ∀ d ∈ node.directions, ∀ stack,
      (behindDirection packer data node left forward right d stack).length =
        (entriesBehind label payload left forward right d).length := by
    intro d hd stack
    cases d with
    | left => exact length_positions hl stack
    | final =>
      have hfinal := mem_directions.mp hd
      cases payload with
      | none =>
        rw [hpayload] at hfinal
        simp at hfinal
      | some v => rfl
    | next =>
      rw [behindDirection, entriesBehind, List.length_map]
      exact length_positions hf stack
    | right => exact length_positions hr stack
  obtain ⟨before, after, later, hdrop, halong, hlen, hnext⟩ :=
    along_at hinside [] hspans hlength hd
  have hset : ({ node, passed := [], rest := node.directions } : Fork).setDirection d =
      some ⟨node, (node.directions.takeWhile (· ≠ d)).reverse ++ [], d :: later⟩ := by
    rw [Fork.setDirection, if_pos (by simpa using hd)]
    simp only [List.reverse_nil, List.nil_append, List.append_nil, hdrop]
  have hcount : ((node.directions.takeWhile (· ≠ d)).flatMap
      (entriesBehind label payload left forward right)).length =
        countBefore label payload left forward d := by
    have hmissing : ∀ e, decide (e ∈ node.directions) = false →
        entriesBehind label payload left forward right e = [] := by
      intro e he
      rw [decide_eq_false_iff_not, mem_directions] at he
      cases e with
      | left =>
        rw [entriesBehind, hleft.mp (not_not.mp he)]
        rfl
      | final =>
        cases payload with
        | none => rfl
        | some v =>
          obtain ⟨rest, hleaf⟩ := hpayload
          rw [hleaf] at he
          exact absurd rfl he
      | next =>
        rw [entriesBehind, hforward.mp (not_not.mp he)]
        rfl
      | right =>
        rw [entriesBehind, hright.mp (not_not.mp he)]
        rfl
    rw [directions_eq_filter, flatMap_takeWhile_filter hmissing (decide_eq_true hd)]
    cases d <;> simp [countBefore, entriesBehind]
  refine ⟨_, before, after, hset, rfl, rfl, ?_, hlen.trans hcount, hnext, ?_⟩
  · rw [positions_node hread, halong]
  · exact hspans d hd _ later _ rfl

/-- The key passes the root of a tree to the right, where there is nothing. -/
def PassesRoot (t : Tree ℕ Data) (key : List ℕ) : Prop :=
  match t, key with
  | .node label _ _ _ right, c :: _ => label < c ∧ right = .nil
  | _, _ => False

/-- What `LongestPrefix` returns with its forks, when `next` is the position looked for in a tree
above the given forks. -/
inductive LeadsTo (packer : Packer Data) (data : List ℕ) (offset : ℕ) (forks : List Fork)
    (passes : Prop) (next : Option (List Fork)) : ℤ → List Fork → Prop where
  | matched (found : List Fork) (hnext : next = some found) :
      LeadsTo packer data offset forks passes next 0 found
  | above (stack found : List Fork) (hnext : next = some found)
      (hdescend : ∀ steps, data.length ≤ steps + offset →
        descend packer data id steps stack = some found) :
      LeadsTo packer data offset forks passes next 1 stack
  | below (stack : List Fork) (hne : stack ≠ []) (hnext : NextIs packer data stack next forks) :
      LeadsTo packer data offset forks passes next (-1) stack
  | passed (hpasses : passes) (hnext : next = none) :
      LeadsTo packer data offset forks passes next (-1) forks

theorem LeadsTo.up {data : List ℕ} {offset child : ℕ} {forks stack forks' : List Fork}
    {passes passes' : Prop} {next after : Option (List Fork)} {r : ℤ}
    (h : LeadsTo packer data child stack passes next r forks') (hne : stack ≠ [])
    (hlt : offset ≤ child) (hafter : NextIs packer data stack after forks) :
    LeadsTo packer data offset forks passes' (next.or after) r forks' := by
  cases h with
  | matched found hnext =>
    apply LeadsTo.matched
    rw [hnext]
    rfl
  | above _ found hnext hdescend =>
    apply LeadsTo.above _ found
    · rw [hnext]
      rfl
    · intro steps hsteps
      exact hdescend steps (by omega)
  | below _ hne' hnext => exact LeadsTo.below _ hne' (hnext.of_outside hafter)
  | passed _ hnext =>
    rw [hnext, Option.none_or]
    exact LeadsTo.below _ hne hafter

theorem rank_le_length {t : Tree ℕ Data} (h : t.Ordered) (key : List ℕ) :
    t.rank key ≤ t.entries.length := by
  rw [← h.countP_eq]
  exact List.countP_le_length

theorem setDirection_eq_none {node : Node} {d : Direction} (hd : d ∉ node.directions) :
    ({ node, passed := [], rest := node.directions } : Fork).setDirection d = none := by
  rw [Fork.setDirection, if_neg (by simpa using hd)]

/-- Going on in the tree behind a direction. -/
theorem PartedAt.follow {data : List ℕ} {node : Node} {left forward right : Tree ℕ Data}
    {ways : List (List Fork)} {count : ℕ} {d : Direction} {top : Fork} {forks : List Fork}
    {before after : List (List Fork)}
    (hat : PartedAt packer data node left forward right ways count d top forks before after)
    {t : Tree ℕ Data} {offset child : ℕ}
    (hbehind : behindDirection packer data node left forward right d (top :: forks) =
      positions packer data t child (top :: forks))
    (hnext : top.nextFork packer data = newFork packer data child) (hlt : offset ≤ child)
    (hordered : t.Ordered) (hreads : ReadsAs packer data t child) {key : List ℕ} {steps : ℕ}
    {passes passes' : Prop}
    (h : ∃ fork r stack, newFork packer data child = some fork ∧
      longestPrefix packer data steps key fork (top :: forks) = some (r, stack) ∧
        LeadsTo packer data child (top :: forks) passes
          (positions packer data t child (top :: forks))[t.rank key]? r stack) :
    ∃ r stack,
      (match top.nextFork packer data with
        | none => none
        | some next => longestPrefix packer data steps key next (top :: forks)) =
          some (r, stack) ∧
        LeadsTo packer data offset forks passes' ways[count + t.rank key]? r stack := by
  obtain ⟨fork, r, stack, hfork, hlongest, hleads⟩ := h
  refine ⟨r, stack, ?_, ?_⟩
  · rw [hnext, hfork]
    exact hlongest
  · have hplace := @getElem?_middle _ before (positions packer data t child (top :: forks)) after
      (t.rank key) (by
        rw [length_positions hreads]
        exact rank_le_length hordered key)
    rw [hat.ways_eq, hbehind, ← hat.length_before, hplace]
    exact hleads.up (List.cons_ne_nil _ _) hlt hat.next

/-- The key is followed to where the first position not below it is near. -/
theorem longestPrefix_leads {data : List ℕ} {t : Tree ℕ Data} (hne : t ≠ .nil) (hlive : t.Live)
    (hordered : t.Ordered) {offset : ℕ} (h : ReadsAs packer data t offset) (forks : List Fork)
    (c : ℕ) (cs : List ℕ) {steps : ℕ} (hsteps : data.length < steps + offset) :
    ∃ fork r stack, newFork packer data offset = some fork ∧
      longestPrefix packer data steps (c :: cs) fork forks = some (r, stack) ∧
      LeadsTo packer data offset forks (PassesRoot t (c :: cs))
        (positions packer data t offset forks)[t.rank (c :: cs)]? r stack := by
  induction t generalizing offset forks c cs steps with
  | nil => exact absurd rfl hne
  | node label payload left forward right ihLeft ihForward ihRight =>
    have hspans := spans_positions hne hlive h forks
    have hlength := length_positions h forks
    obtain ⟨node, hread, rfl, hpayload, hleft, hforward, hright, hl, hf, hr⟩ := h
    obtain ⟨_, hfork, hspans⟩ := hspans
    rw [newFork_eq hread] at hfork
    obtain rfl := Option.some.inj hfork
    have hbounds := readNode_bounds hread
    have hinside := hbounds.inside
    obtain ⟨steps, rfl⟩ := Nat.exists_eq_succ_of_ne_zero (show steps ≠ 0 by omega)
    have hparted := @positions_at Data packer data offset node.label payload left forward right hlive
      node hread hpayload hleft hforward hright hl hf hr forks
    refine ⟨{ node, passed := [], rest := node.directions }, ?_⟩
    rw [longestPrefix, Tree.rank, PassesRoot, newFork_eq hread]
    simp only [true_and]
    by_cases hlt : c < node.label
    · rw [if_pos hlt, if_pos hlt]
      by_cases hd : Direction.left ∈ node.directions
      · obtain ⟨top, before, after, hat⟩ := hparted hd
        rw [mem_directions] at hd
        have hchild := hbounds.left hd
        have hfollow := @PartedAt.follow _ _ _ _ _ _ _ _ _ _ _ _ _ _ hat left offset
          node.leftOffset rfl (by rw [Fork.nextFork, hat.current, hat.node_eq]) hchild.le
          hordered.2.2.1 hl (c :: cs) steps _ (node.label < c ∧ right = .nil)
          (ihLeft (mt hleft.mpr hd) hlive.2.1 hordered.2.2.1 hl (top :: forks) c cs (by omega))
        rw [countBefore, Nat.zero_add] at hfollow
        rw [hat.setDirection]
        exact hfollow
      · rw [setDirection_eq_none hd]
        rw [mem_directions, not_not, hleft] at hd
        subst hd
        obtain ⟨s, hs⟩ := Option.ne_none_iff_exists'.mp
          (mt List.head?_eq_none_iff.mp hspans.ne_nil)
        refine ⟨1, _, rfl, LeadsTo.above _ s ?_ (hspans.descend_front s hs)⟩
        rw [Tree.rank, ← List.head?_eq_getElem?, hs]
    · rw [if_neg hlt, if_neg hlt]
      by_cases hgt : node.label < c
      · rw [if_pos hgt, if_pos hgt]
        by_cases hd : Direction.right ∈ node.directions
        · obtain ⟨top, before, after, hat⟩ := hparted hd
          rw [mem_directions] at hd
          have hchild := hbounds.right hd
          have hfollow := @PartedAt.follow _ _ _ _ _ _ _ _ _ _ _ _ _ _ hat right offset
            node.rightOffset rfl (by rw [Fork.nextFork, hat.current, hat.node_eq]) hchild.le
            hordered.2.2.2.2 hr (c :: cs) steps _ (node.label < c ∧ right = .nil)
            (ihRight (mt hright.mpr hd) hlive.2.2.2 hordered.2.2.2.2 hr (top :: forks) c cs
              (by omega))
          rw [countBefore, Nat.add_assoc, Nat.add_assoc] at hfollow
          rw [hat.setDirection]
          exact hfollow
        · rw [setDirection_eq_none hd]
          rw [mem_directions, not_not, hright] at hd
          subst hd
          refine ⟨-1, forks, rfl, LeadsTo.passed ⟨hgt, rfl⟩ ?_⟩
          apply List.getElem?_eq_none
          rw [hlength]
          simp [Tree.entries, Tree.rank]
      · rw [if_neg hgt, if_neg hgt]
        by_cases hcs : cs = []
        · rw [if_pos hcs, if_pos hcs, Nat.add_zero]
          by_cases hd : Direction.final ∈ node.directions
          · obtain ⟨top, before, after, hat⟩ := hparted hd
            rw [hat.setDirection]
            refine ⟨0, _, rfl, LeadsTo.matched _ ?_⟩
            have hplace := @getElem?_middle _ before [top :: forks] after 0 (Nat.zero_le _)
            rw [hat.length_before, countBefore, Nat.add_zero] at hplace
            rw [hat.ways_eq, behindDirection, hplace]
            rfl
          · rw [setDirection_eq_none hd]
            have hnone : payload = none := by
              rw [mem_directions] at hd
              cases payload with
              | none => rfl
              | some v =>
                obtain ⟨rest, hleaf⟩ := hpayload
                simp [hleaf] at hd
            have hnext : Direction.next ∈ node.directions := by
              rw [mem_directions]
              exact mt hforward.mp (hlive.1 hnone)
            obtain ⟨top, before, after, hat⟩ := hparted hnext
            rw [hat.setDirection]
            obtain ⟨s, hs⟩ := Option.ne_none_iff_exists'.mp
              (mt List.head?_eq_none_iff.mp hat.spans.ne_nil)
            refine ⟨1, _, rfl, LeadsTo.above _ s ?_ ?_⟩
            · have hplace := @getElem?_middle _ before _ after 0 (Nat.zero_le (behindDirection packer
                data node left forward right .next (top :: forks)).length)
              rw [hat.length_before, countBefore, hnone, Nat.add_zero, ← List.head?_eq_getElem?,
                hs] at hplace
              rw [hat.ways_eq]
              exact hplace
            · intro n hn
              apply hat.spans.descend_front s hs
              rw [hbounds.offset_eq]
              exact hn
        · rw [if_neg hcs, if_neg hcs]
          by_cases hd : Direction.next ∈ node.directions
          · obtain ⟨top, before, after, hat⟩ := hparted hd
            rw [mem_directions] at hd
            have hchild := hbounds.forward hd
            obtain ⟨d, ds, rfl⟩ := List.exists_cons_of_ne_nil hcs
            have hfollow := @PartedAt.follow _ _ _ _ _ _ _ _ _ _ _ _ _ _ hat forward offset
              node.forwardOffset rfl (by rw [Fork.nextFork, hat.current, hat.node_eq]) hchild.le
              hordered.2.2.2.1 hf (d :: ds) steps _ (node.label < c ∧ right = .nil)
              (ihForward (mt hforward.mpr hd) hlive.2.2.1 hordered.2.2.2.1 hf (top :: forks) d ds
                (by omega))
            rw [countBefore, Nat.add_assoc] at hfollow
            rw [hat.setDirection]
            exact hfollow
          · rw [setDirection_eq_none hd]
            rw [mem_directions, not_not, hforward] at hd
            subst hd
            obtain ⟨v, rfl⟩ := Option.ne_none_iff_exists'.mp fun hnone => hlive.1 hnone rfl
            obtain ⟨rest, hleaf⟩ := hpayload
            have hfinal : Direction.final ∈ node.directions := by
              rw [mem_directions, hleaf]
              rfl
            obtain ⟨top, before, after, hat⟩ := hparted hfinal
            rw [hat.setDirection]
            refine ⟨-1, _, rfl, LeadsTo.below _ (List.cons_ne_nil _ _) ?_⟩
            have hplace := @getElem?_middle _ before [top :: forks] after 1 (le_refl 1)
            rw [hat.length_before, countBefore] at hplace
            rw [hat.ways_eq, behindDirection, own, Tree.rank, Nat.add_zero]
            exact hplace ▸ hat.next

end TomitaParser.Comptrie
