import Mathlib.Data.List.Chain
import TomitaParser.Comptrie.Iterator
/-! # The positions of an iterator

The forks of an iterator are a way through the search tree that the data reads as. The ways to the
leaves, in the order of the tree, are what `Forward` and `Backward` move along. -/

namespace TomitaParser.Comptrie
open TernaryTree
variable {Data : Type} (packer : Packer Data)

/-- The stacks at the leaves that a node leads to by its directions from some place on. -/
def along (node : Node) (behind : Direction → List Fork → List (List Fork)) (forks : List Fork) :
    List Direction → List Direction → List (List Fork)
  | _, [] => []
  | passed, d :: rest =>
    behind d ({ node, passed, rest := d :: rest } :: forks) ++
      along node behind forks (d :: passed) rest

/-- The stacks at the leaves of a tree, in the order of the tree. -/
def positions (data : List ℕ) : Tree ℕ Data → ℕ → List Fork → List (List Fork)
  | .nil, _, _ => []
  | .node _ _ left forward right, offset, forks =>
    match readNode packer data offset with
    | none => []
    | some node =>
      along node
        (fun d stack =>
          match d with
          | .left => positions data left node.leftOffset stack
          | .final => [stack]
          | .next => positions data forward node.forwardOffset stack
          | .right => positions data right node.rightOffset stack)
        forks [] node.directions

/-- The stacks at the leaves behind a direction of a node. -/
def behindDirection (data : List ℕ) (node : Node) (left forward right : Tree ℕ Data) :
    Direction → List Fork → List (List Fork)
  | .left, stack => positions packer data left node.leftOffset stack
  | .final, stack => [stack]
  | .next, stack => positions packer data forward node.forwardOffset stack
  | .right, stack => positions packer data right node.rightOffset stack

theorem positions_node {packer : Packer Data} {data : List ℕ} {offset : ℕ} {node : Node}
    (hread : readNode packer data offset = some node) (label : ℕ) (payload : Option Data)
    (left forward right : Tree ℕ Data) (forks : List Fork) :
    positions packer data (.node label payload left forward right) offset forks =
      along node (behindDirection packer data node left forward right) forks []
        node.directions := by
  have hbehind : behindDirection packer data node left forward right = fun d stack =>
      match d with
      | .left => positions packer data left node.leftOffset stack
      | .final => [stack]
      | .next => positions packer data forward node.forwardOffset stack
      | .right => positions packer data right node.rightOffset stack := by
    funext d stack
    cases d <;> rfl
  rw [positions, hread, hbehind]

/-- Each of the stacks is next to the one after it. -/
def Neighbours (data : List ℕ) (stack later : List Fork) : Prop :=
  advance packer data stack = some (true, later) ∧ retreat packer data later = some (true, stack)

/-- From `front` the loops go on to the first of the stacks, and from `back` to the last one. What
comes before and after them is what comes before `front'` and after `back'`. -/
structure Spans (data : List ℕ) (offset : ℕ) (ways : List (List Fork))
    (front back front' back' : List Fork) : Prop where
  ne_nil : ways ≠ []
  chain : ways.IsChain (Neighbours packer data)
  descend_front : ∀ s, ways.head? = some s → ∀ steps, data.length ≤ steps + offset →
    descend packer data id steps front = some s
  descend_back : ∀ s, ways.getLast? = some s → ∀ steps, data.length ≤ steps + offset →
    descend packer data Fork.lastDirection steps back = some s
  retreat_front : ∀ s, ways.head? = some s → retreat packer data s = retreat packer data front'
  advance_back : ∀ s, ways.getLast? = some s → advance packer data s = advance packer data back'

variable {packer}

theorem lastDirection_singleton (node : Node) (passed : List Direction) (d : Direction) :
    ({ node, passed, rest := [d] } : Fork).lastDirection = { node, passed, rest := [d] } := rfl

theorem lastDirection_cons (node : Node) (passed rest : List Direction) (d : Direction) :
    ({ node, passed, rest := d :: rest } : Fork).lastDirection =
      ({ node, passed := d :: passed, rest } : Fork).lastDirection := by
  rw [Fork.lastDirection, Fork.lastDirection, List.reverse_cons, List.append_assoc]
  rfl

theorem spans_final (data : List ℕ) (offset : ℕ) {stack : List Fork} {top : Fork}
    {forks : List Fork} (hstack : stack = top :: forks) (hfinal : top.current = some .final) :
    Spans packer data offset [stack] stack stack stack stack := by
  subst hstack
  have hdescend : ∀ start steps, descend packer data start steps (top :: forks) =
      some (top :: forks) := by
    intro start steps
    cases steps <;> rw [descend, if_pos hfinal]
  constructor
  · simp
  · exact List.isChain_singleton _
  · intro s hs steps _
    rw [hdescend, ← hs]
    rfl
  · intro s hs steps _
    rw [hdescend, ← hs]
    rfl
  · intro s hs
    obtain rfl := Option.some.inj hs
    rfl
  · intro s hs
    obtain rfl := Option.some.inj hs
    rfl

/-- The stacks behind the directions of a node follow each other. -/
theorem spans_along {data : List ℕ} {node : Node}
    {behind : Direction → List Fork → List (List Fork)} {forks : List Fork}
    (hinside : node.offset < data.length) {rest : List Direction} (hrest : rest ≠ [])
    (passed : List Direction)
    (hbehind : ∀ d ∈ rest, ∀ passed later stack,
      stack = ({ node, passed, rest := d :: later } : Fork) :: forks →
        Spans packer data node.offset (behind d stack) stack stack stack stack) :
    Spans packer data node.offset (along node behind forks passed rest)
      ({ node, passed, rest } :: forks) (({ node, passed, rest } : Fork).lastDirection :: forks)
      ({ node, passed, rest } :: forks) forks := by
  induction rest generalizing passed with
  | nil => exact absurd rfl hrest
  | cons d rest ih =>
    have hfirst := hbehind d List.mem_cons_self passed rest _ rfl
    cases rest with
    | nil =>
      have hend : advance packer data ({ node, passed, rest := [d] } :: forks) =
          advance packer data forks := by
        rw [advance]
        simp [Fork.nextDirection, hinside]
      rw [along, along, List.append_nil, lastDirection_singleton]
      exact ⟨hfirst.ne_nil, hfirst.chain, hfirst.descend_front, hfirst.descend_back,
        hfirst.retreat_front, fun s hs => (hfirst.advance_back s hs).trans hend⟩
    | cons e rest =>
      have hlater := ih (List.cons_ne_nil e rest) (d :: passed) fun d hd =>
        hbehind d (List.mem_cons_of_mem _ hd)
      rw [along, lastDirection_cons]
      generalize behind d ({ node, passed, rest := d :: e :: rest } :: forks) = before at hfirst ⊢
      generalize along node behind forks (d :: passed) (e :: rest) = after at hlater ⊢
      obtain ⟨s, hs⟩ := Option.ne_none_iff_exists'.mp
        (mt List.head?_eq_none_iff.mp hfirst.ne_nil)
      obtain ⟨s', hs'⟩ := Option.ne_none_iff_exists'.mp
        (mt List.getLast?_eq_none_iff.mp hlater.ne_nil)
      have hhead : (before ++ after).head? = some s := by
        rw [List.head?_append, hs]
        rfl
      have hlast : (before ++ after).getLast? = some s' := by
        rw [List.getLast?_append, hs']
        rfl
      constructor
      · simp [hfirst.ne_nil]
      · rw [List.isChain_append]
        refine ⟨hfirst.chain, hlater.chain, ?_⟩
        intro x hx y hy
        constructor
        · rw [hfirst.advance_back x hx, advance]
          change (descend packer data id data.length
            ({ node, passed := d :: passed, rest := e :: rest } :: forks)).map (true, ·) = _
          rw [hlater.descend_front y hy _ (by omega)]
          rfl
        · rw [hlater.retreat_front y hy, retreat]
          change (descend packer data Fork.lastDirection data.length
            ({ node, passed, rest := d :: e :: rest } :: forks)).map (true, ·) = _
          rw [hfirst.descend_back x hx _ (by omega)]
          rfl
      · intro t ht
        rw [hhead] at ht
        exact hfirst.descend_front t (hs.trans ht)
      · intro t ht
        rw [hlast] at ht
        exact hlater.descend_back t (hs'.trans ht)
      · intro t ht
        rw [hhead] at ht
        exact hfirst.retreat_front t (hs.trans ht)
      · intro t ht
        rw [hlast] at ht
        exact hlater.advance_back t (hs'.trans ht)

theorem spans_down {data : List ℕ} {ways : List (List Fork)} {top next : Fork}
    {forks : List Fork} (hcurrent : top.current ≠ some .final)
    (hnext : top.nextFork packer data = some next) (hinside : top.node.offset < data.length)
    {offset : ℕ} (hlt : top.node.offset < offset)
    (h : Spans packer data offset ways (next :: top :: forks)
      (next.lastDirection :: top :: forks) (top :: forks) (top :: forks)) :
    Spans packer data top.node.offset ways (top :: forks) (top :: forks) (top :: forks)
      (top :: forks) := by
  have hdescend : ∀ start steps, descend packer data start (steps + 1) (top :: forks) =
      descend packer data start steps (start next :: top :: forks) := by
    intro start steps
    rw [descend, if_neg hcurrent]
    simp only [hnext]
  refine ⟨h.ne_nil, h.chain, ?_, ?_, h.retreat_front, h.advance_back⟩
  · intro s hs steps hsteps
    obtain ⟨steps, rfl⟩ := Nat.exists_eq_succ_of_ne_zero (show steps ≠ 0 by omega)
    rw [hdescend]
    exact h.descend_front s hs steps (by omega)
  · intro s hs steps hsteps
    obtain ⟨steps, rfl⟩ := Nat.exists_eq_succ_of_ne_zero (show steps ≠ 0 by omega)
    rw [hdescend]
    exact h.descend_back s hs steps (by omega)

theorem newFork_eq {data : List ℕ} {offset : ℕ} {node : Node}
    (h : readNode packer data offset = some node) :
    newFork packer data offset = some { node, passed := [], rest := node.directions } := by
  have hbounds := readNode_bounds h
  have := hbounds.inside
  have := hbounds.offset_eq
  rw [newFork, h]
  simp only
  rw [if_neg (by omega)]

theorem mem_directions {node : Node} {d : Direction} :
    d ∈ node.directions ↔
      match d with
      | .left => node.leftOffset ≠ 0
      | .final => node.leafPos.isSome = true
      | .next => node.forwardOffset ≠ 0
      | .right => node.rightOffset ≠ 0 := by
  cases d <;> simp [Node.directions]

theorem directions_ne_nil {label : ℕ} {payload : Option Data} {left forward right : Tree ℕ Data}
    (hlive : (TernaryTree.Tree.node label payload left forward right).Live) {node : Node}
    (hpayload : node.HasPayload packer payload)
    (hforward : node.forwardOffset = 0 ↔ forward = .nil) : node.directions ≠ [] := by
  have hmem : Direction.final ∈ node.directions ∨ Direction.next ∈ node.directions := by
    rw [mem_directions, mem_directions]
    cases payload with
    | none => exact Or.inr (mt hforward.mp (hlive.1 rfl))
    | some v =>
      obtain ⟨after, hleaf⟩ := hpayload
      exact Or.inl (by rw [hleaf]; rfl)
  rcases hmem with h | h
  · exact List.ne_nil_of_mem h
  · exact List.ne_nil_of_mem h

/-- From the fork at the root of a tree the loops go along the leaves of that tree. -/
def SpansFrom (packer : Packer Data) (data : List ℕ) (t : Tree ℕ Data) (offset : ℕ)
    (forks : List Fork) : Prop :=
  ∃ fork, newFork packer data offset = some fork ∧
    Spans packer data offset (positions packer data t offset forks) (fork :: forks)
      (fork.lastDirection :: forks) forks forks

theorem SpansFrom.down {data : List ℕ} {node : Node} {t : Tree ℕ Data} {child : ℕ} {d : Direction}
    {passed later : List Direction} {forks stack : List Fork}
    (hstack : stack = ({ node, passed, rest := d :: later } : Fork) :: forks) (hd : d ≠ .final)
    (hchild : ({ node, passed, rest := d :: later } : Fork).nextFork packer data =
      newFork packer data child)
    (hinside : node.offset < data.length) (hlt : node.offset < child)
    (h : SpansFrom packer data t child stack) :
    Spans packer data node.offset (positions packer data t child stack) stack stack stack stack := by
  subst hstack
  obtain ⟨next, hnext, hspans⟩ := h
  apply spans_down _ (hchild.trans hnext) hinside hlt hspans
  intro hcurrent
  exact hd (Option.some.inj hcurrent)

theorem spans_behind {data : List ℕ} {offset : ℕ} {node : Node}
    (hread : readNode packer data offset = some node) {left forward right : Tree ℕ Data}
    (hleft : node.leftOffset ≠ 0 → ∀ stack, SpansFrom packer data left node.leftOffset stack)
    (hforward : node.forwardOffset ≠ 0 →
      ∀ stack, SpansFrom packer data forward node.forwardOffset stack)
    (hright : node.rightOffset ≠ 0 → ∀ stack, SpansFrom packer data right node.rightOffset stack)
    {d : Direction} (hd : d ∈ node.directions) {passed later : List Direction}
    {forks stack : List Fork}
    (hstack : stack = ({ node, passed, rest := d :: later } : Fork) :: forks) :
    Spans packer data node.offset (behindDirection packer data node left forward right d stack)
      stack stack stack stack := by
  have hbounds := readNode_bounds hread
  have hoffset := hbounds.offset_eq
  have hinside : node.offset < data.length := by
    have := hbounds.inside
    omega
  rw [mem_directions] at hd
  cases d with
  | left =>
    have hlt := hbounds.left hd
    exact (hleft hd stack).down hstack (by simp) rfl hinside (by omega)
  | final => exact spans_final data node.offset hstack rfl
  | next =>
    have hlt := hbounds.forward hd
    exact (hforward hd stack).down hstack (by simp) rfl hinside (by omega)
  | right =>
    have hlt := hbounds.right hd
    exact (hright hd stack).down hstack (by simp) rfl hinside (by omega)

theorem spans_positions {data : List ℕ} {t : Tree ℕ Data} (hne : t ≠ .nil) (hlive : t.Live)
    {offset : ℕ} (h : ReadsAs packer data t offset) (forks : List Fork) :
    SpansFrom packer data t offset forks := by
  induction t generalizing offset forks with
  | nil => exact absurd rfl hne
  | node label payload left forward right ihLeft ihForward ihRight =>
    obtain ⟨node, hread, -, hpayload, hleft, hforward, hright, hl, hf, hr⟩ := h
    have hbounds := readNode_bounds hread
    have hoffset := hbounds.offset_eq
    have hinside : node.offset < data.length := by
      have := hbounds.inside
      omega
    refine ⟨_, newFork_eq hread, ?_⟩
    have halong := @spans_along Data packer data node
      (behindDirection packer data node left forward right) forks hinside node.directions
      (directions_ne_nil hlive hpayload hforward) [] fun d hd passed later stack hstack =>
        spans_behind hread (fun h => ihLeft (mt hleft.mpr h) hlive.2.1 hl)
          (fun h => ihForward (mt hforward.mpr h) hlive.2.2.1 hf)
          (fun h => ihRight (mt hright.mpr h) hlive.2.2.2 hr) hd hstack
    have hretreat : retreat packer data
        (({ node, passed := [], rest := node.directions } : Fork) :: forks) =
          retreat packer data forks := by
      rw [retreat]
      simp [Fork.prevDirection, hinside]
    rw [positions_node hread]
    rw [hoffset] at halong
    exact ⟨halong.ne_nil, halong.chain, halong.descend_front, halong.descend_back,
      fun s hs => (halong.retreat_front s hs).trans hretreat, halong.advance_back⟩

/-- The leaf that a stack is at. -/
def leafOf : List Fork → Option (List ℕ)
  | [] => none
  | top :: _ => if top.current = some .final then top.node.leafPos else none

/-- The entries behind a direction of a node. -/
def entriesBehind (label : ℕ) (payload : Option Data) (left forward right : Tree ℕ Data) :
    Direction → List (List ℕ × Data)
  | .left => left.entries
  | .final => own label payload
  | .next => forward.entries.map (extend label)
  | .right => right.entries

theorem entries_eq_flatMap {label : ℕ} {payload : Option Data} {left forward right : Tree ℕ Data}
    {node : Node} (hpayload : node.HasPayload packer payload)
    (hleft : node.leftOffset = 0 ↔ left = .nil)
    (hforward : node.forwardOffset = 0 ↔ forward = .nil)
    (hright : node.rightOffset = 0 ↔ right = .nil) :
    (TernaryTree.Tree.node label payload left forward right).entries =
      node.directions.flatMap (entriesBehind label payload left forward right) := by
  have hbranch : ∀ (d : Direction) (absent : Prop) [Decidable absent],
      (absent → entriesBehind label payload left forward right d = []) →
      (if ¬ absent then [d] else []).flatMap (entriesBehind label payload left forward right) =
        entriesBehind label payload left forward right d := by
    intro d absent _ habsent
    by_cases h : absent
    · simp [h, habsent h]
    · simp [h]
  have hfinal : (if node.leafPos.isSome then [Direction.final] else []).flatMap
      (entriesBehind label payload left forward right) = own label payload := by
    cases payload with
    | none =>
      rw [hpayload]
      rfl
    | some v =>
      obtain ⟨after, hleaf⟩ := hpayload
      rw [hleaf]
      rfl
  rw [TernaryTree.Tree.entries, Node.directions, List.flatMap_append, List.flatMap_append,
    List.flatMap_append, hbranch .left _ (fun h => by rw [entriesBehind, hleft.mp h]; rfl), hfinal,
    hbranch .next _ (fun h => by rw [entriesBehind, hforward.mp h]; rfl),
    hbranch .right _ (fun h => by rw [entriesBehind, hright.mp h]; rfl)]
  rfl

/-- What is found at the positions: the keys and the values of the tree. -/
theorem map_positions {data : List ℕ} {t : Tree ℕ Data} {offset : ℕ}
    (h : ReadsAs packer data t offset) (forks : List Fork) :
    (positions packer data t offset forks).map
        (fun stack => (rawKey stack, (leafOf stack).map packer.unpackLeaf)) =
      t.entries.map fun entry => (rawKey forks ++ entry.1, some entry.2) := by
  induction t generalizing offset forks with
  | nil => rfl
  | node label payload left forward right ihLeft ihForward ihRight =>
    obtain ⟨node, hread, rfl, hpayload, hleft, hforward, hright, hl, hf, hr⟩ := h
    have halong : ∀ (rest passed : List Direction), (∀ d ∈ rest, d ∈ node.directions) →
        (along node (behindDirection packer data node left forward right) forks passed rest).map
            (fun stack => (rawKey stack, (leafOf stack).map packer.unpackLeaf)) =
          (rest.flatMap (entriesBehind node.label payload left forward right)).map
            fun entry => (rawKey forks ++ entry.1, some entry.2) := by
      intro rest
      induction rest with
      | nil =>
        intro passed _
        rfl
      | cons d rest ih =>
        intro passed hmem
        rw [along, List.map_append, List.flatMap_cons, List.map_append,
          ih (d :: passed) fun e he => hmem e (List.mem_cons_of_mem _ he)]
        congr 1
        cases d with
        | left =>
          simp only [behindDirection, ihLeft hl, entriesBehind, rawKey, Fork.inKey, Fork.current]
          simp
        | final =>
          have hfinal := mem_directions.mp (hmem .final List.mem_cons_self)
          cases payload with
          | none =>
            rw [hpayload] at hfinal
            simp at hfinal
          | some v =>
            obtain ⟨after, hleaf⟩ := hpayload
            simp [behindDirection, entriesBehind, own, rawKey, Fork.inKey, Fork.current, leafOf, hleaf,
              packer.unpackLeaf_packLeaf]
        | next =>
          simp only [behindDirection, ihForward hf, entriesBehind, rawKey, Fork.inKey, Fork.current]
          simp [extend]
        | right =>
          simp only [behindDirection, ihRight hr, entriesBehind, rawKey, Fork.inKey, Fork.current]
          simp
    rw [positions_node hread, entries_eq_flatMap hpayload hleft hforward hright]
    exact halong node.directions [] fun d hd => hd

theorem length_positions {data : List ℕ} {t : Tree ℕ Data} {offset : ℕ}
    (h : ReadsAs packer data t offset) (forks : List Fork) :
    (positions packer data t offset forks).length = t.entries.length := by
  have hlen := congrArg List.length (map_positions h forks)
  rwa [List.length_map, List.length_map] at hlen

end TomitaParser.Comptrie
