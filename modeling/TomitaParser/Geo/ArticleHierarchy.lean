import Mathlib.Algebra.BigOperators.Group.List.Basic
import Mathlib.Algebra.Order.BigOperators.Group.List
import Mathlib.Algebra.Order.Group.Nat
import Mathlib.Logic.Relation
import Mathlib.Logic.Function.Basic
import Mathlib.Order.WellFounded
/-! # Article hierarchies

Whether an article is above another one. The way up is remembered link by link, but of several
parents only the first one is linked. -/

namespace TomitaParser.Geo

section Ancestors
variable (parents : ℕ → List ℕ)

/-- `p` is reached from `c` through parents. -/
def StrictAncestor (p c : ℕ) : Prop := Relation.TransGen (fun c p => p ∈ parents c) c p

/-- `p` is reached from `c` through first parents. -/
def OnFirstLine (p c : ℕ) : Prop :=
  Relation.TransGen (fun c p => (parents c).head? = some p) c p

variable {parents} {p c q : ℕ}

theorem onFirstLine_iff (h : (parents c).head? = some q) :
    OnFirstLine parents p c ↔ q = p ∨ OnFirstLine parents p q := by
  constructor
  · intro hline
    rcases Relation.TransGen.head'_iff.mp hline with ⟨q', hq', hrest⟩
    rw [h] at hq'
    cases hq'
    exact (Relation.reflTransGen_iff_eq_or_transGen.mp hrest).imp_left Eq.symm
  · rintro (rfl | hline)
    · exact Relation.TransGen.single h
    · exact Relation.TransGen.head h hline

theorem not_onFirstLine_of_nil (h : parents c = []) : ¬OnFirstLine parents p c := by
  intro hline
  obtain ⟨q, hq, _⟩ := Relation.TransGen.head'_iff.mp hline
  rw [h] at hq
  cases hq

theorem mem_of_head? (h : (parents c).head? = some q) : q ∈ parents c := List.mem_of_head? h

theorem OnFirstLine.strictAncestor (h : OnFirstLine parents p c) : StrictAncestor parents p c :=
  Relation.TransGen.mono (fun _ _ hq => mem_of_head? hq) c p h

theorem strictAncestor_iff_onFirstLine (hone : ∀ a, (parents a).length ≤ 1) :
    StrictAncestor parents p c ↔ OnFirstLine parents p c := by
  refine ⟨Relation.TransGen.mono (fun a b hb => ?_) c p, OnFirstLine.strictAncestor⟩
  have hlength := hone a
  cases hparents : parents a with
  | nil =>
    rw [hparents] at hb
    exact absurd hb List.not_mem_nil
  | cons d rest =>
    rw [hparents] at hb hlength
    obtain rfl : rest = [] := List.eq_nil_of_length_eq_zero (by
      rw [List.length_cons] at hlength
      omega)
    rw [List.mem_singleton.mp hb]
    rfl

theorem exists_rank (hwf : WellFounded fun p c => p ∈ parents c) :
    ∃ rank : ℕ → ℕ, ∀ c, ∀ p ∈ parents c, rank p < rank c := by
  refine ⟨hwf.fix fun c ih => ((parents c).attach.map fun p => ih p.1 p.2 + 1).sum, ?_⟩
  intro c p hp
  rw [hwf.fix_eq _ c]
  exact List.single_le_sum (fun _ _ => Nat.zero_le _) _
    (List.mem_map.mpr ⟨⟨p, hp⟩, List.mem_attach _ _, rfl⟩)

end Ancestors

/-- `TItem::Next`. -/
inductive Link where
  | null | root | item (id : ℕ)
deriving DecidableEq, Repr

/-- The items of the index by their numbers; an item that is not there is as a new one. -/
abbrev Links := ℕ → Link

/-- `SetNext`, which only sets what is not set. -/
def Links.setNext (links : Links) (id : ℕ) (next : Link) : Links :=
  if links id = .null then Function.update links id next else links

/-- `FindParent`: the item with the number, or the last of the linked ones; no item is `Root`. -/
def findParent (links : Links) (id : ℕ) : ℕ → ℕ → Option (Option ℕ)
  | 0, _ => none
  | fuel + 1, cur =>
    match links cur with
    | .null => some (some cur)
    | .root => some none
    | .item next => if next = id then some (some next) else findParent links id fuel next

/-- The loop over the references of an article, with `CheckRef`. -/
def checkRefs (check : Links → ℕ → Option (Bool × Links)) (parentId found : ℕ) :
    List ℕ → Links → Option (Bool × Links)
  | [], links => some (false, links)
  | ref :: refs, links =>
    let links := links.setNext found (.item ref)
    if parentId = ref then some (true, links)
    else match check links ref with
      | some (true, links) => some (true, links)
      | some (false, links) => checkRefs check parentId found refs links
      | none => none

/-- `IsStrictAncestor`, with the references that `IterParents` gives. -/
def isStrictAncestor (parents : ℕ → List ℕ) (parentId : ℕ) :
    ℕ → Links → ℕ → Option (Bool × Links)
  | 0, _, _ => none
  | fuel + 1, links, child =>
    match findParent links parentId (fuel + 1) child with
    | none => none
    | some none => some (false, links)
    | some (some found) =>
      if found = parentId then some (true, links)
      else match parents found with
        | [] => some (false, links.setNext found .root)
        | refs => checkRefs (isStrictAncestor parents parentId fuel) parentId found refs links

variable {parents : ℕ → List ℕ}

/-- The invariant of the links. -/
structure Links.Valid (parents : ℕ → List ℕ) (links : Links) : Prop where
  item : ∀ c q, links c = .item q → (parents c).head? = some q
  root : ∀ c, links c = .root → parents c = []

/-- Links that are set stay. -/
def Links.Extends (links links' : Links) : Prop := ∀ c, links c ≠ .null → links' c = links c

theorem Links.Extends.refl (links : Links) : links.Extends links := fun _ _ => rfl

theorem Links.Extends.trans {l₁ l₂ l₃ : Links} (h₁ : l₁.Extends l₂) (h₂ : l₂.Extends l₃) :
    l₁.Extends l₃ := by
  intro c hc
  have heq := h₁ c hc
  rw [h₂ c (by rwa [heq]), heq]

theorem Links.extends_setNext (links : Links) (id : ℕ) (next : Link) :
    links.Extends (links.setNext id next) := by
  intro c hc
  unfold Links.setNext
  split_ifs with hnull
  · refine Function.update_of_ne ?_ _ _
    rintro rfl
    exact hc hnull
  · rfl

theorem Links.Valid.setNext {links : Links} (h : links.Valid parents) {id : ℕ} {next : Link}
    (hitem : ∀ q, next = .item q → links id = .null → (parents id).head? = some q)
    (hroot : next = .root → parents id = []) : (links.setNext id next).Valid parents := by
  unfold Links.setNext
  split_ifs with hnull
  · refine ⟨fun c q hc => ?_, fun c hc => ?_⟩
    · rcases eq_or_ne c id with rfl | hne
      · rw [Function.update_self] at hc
        exact hitem q hc hnull
      · rw [Function.update_of_ne hne] at hc
        exact h.item c q hc
    · rcases eq_or_ne c id with rfl | hne
      · rw [Function.update_self] at hc
        exact hroot hc
      · rw [Function.update_of_ne hne] at hc
        exact h.root c hc
  · exact h

/-- What `FindParent` stops at. -/
inductive Found (parents : ℕ → List ℕ) (links : Links) (id c : ℕ) : Option ℕ → Prop where
  | parent (h : OnFirstLine parents id c) : Found parents links id c (some id)
  | root (hlink : links c ≠ .null) (h : ¬OnFirstLine parents id c) : Found parents links id c none
  | last (x : ℕ) (hx : x = c ∨ links c ≠ .null ∧ OnFirstLine parents x c)
      (h : OnFirstLine parents id c ↔ OnFirstLine parents id x) :
      Found parents links id c (some x)

/-- The links lead up the first line, and they end. -/
theorem findParent_spec {rank : ℕ → ℕ} (hrank : ∀ c, ∀ p ∈ parents c, rank p < rank c)
    {links : Links} (hlinks : links.Valid parents) (id fuel : ℕ) :
    ∀ c, rank c < fuel →
      ∃ found, findParent links id fuel c = some found ∧ Found parents links id c found := by
  induction fuel with
  | zero => exact fun c hc => absurd hc (Nat.not_lt_zero _)
  | succ fuel ih =>
    intro c hc
    rw [findParent]
    cases hlink : links c with
    | null => exact ⟨some c, rfl, .last c (Or.inl rfl) Iff.rfl⟩
    | root =>
      exact ⟨none, rfl, .root (by rw [hlink]; exact fun h => (nomatch h))
        (not_onFirstLine_of_nil (hlinks.root c hlink))⟩
    | item next =>
      have hhead := hlinks.item c next hlink
      have hline := @onFirstLine_iff parents id c next hhead
      dsimp only
      split_ifs with hnext
      · rw [hnext] at hhead ⊢
        exact ⟨some id, rfl, .parent (Relation.TransGen.single hhead)⟩
      · have hlt := hrank c next (mem_of_head? hhead)
        have hline' : OnFirstLine parents id c ↔ OnFirstLine parents id next := by
          rw [hline]
          exact or_iff_right hnext
        obtain ⟨found, hfound, hspec⟩ := ih next (by omega)
        refine ⟨found, hfound, ?_⟩
        have hset : links c ≠ .null := by
          rw [hlink]
          exact fun h => (nomatch h)
        cases hspec with
        | parent h => exact .parent (hline'.mpr h)
        | root _ h => exact .root hset fun h' => h (hline'.mp h')
        | last x hx h =>
          refine .last x (Or.inr ⟨hset, ?_⟩) (hline'.trans h)
          rcases hx with rfl | ⟨_, hx⟩
          · exact Relation.TransGen.single hhead
          · exact Relation.TransGen.head hhead hx

/-- No article from `c` upwards that has a link is below `p`. -/
def Unseen (parents : ℕ → List ℕ) (p c : ℕ) (links : Links) : Prop :=
  ∀ y, (y = c ∨ StrictAncestor parents y c) → links y ≠ .null → ¬StrictAncestor parents p y

/-- What an answer says of a query. -/
structure Answers (parents : ℕ → List ℕ) (p c : ℕ) (links : Links) (r : Bool × Links) : Prop where
  valid : r.2.Valid parents
  keeps : links.Extends r.2
  above : ∀ y, r.2 y ≠ .null → links y ≠ .null ∨ y = c ∨ StrictAncestor parents y c
  sound : p ≠ c → r.1 = true → StrictAncestor parents p c
  complete : OnFirstLine parents p c → r.1 = true
  exact : Unseen parents p c links → r.1 = false → ¬StrictAncestor parents p c
  seen : Unseen parents p c links → r.1 = false →
    ∀ y, r.2 y ≠ .null → links y ≠ .null ∨ ¬StrictAncestor parents p y

/-- What the loop over some references of the article `found` says. -/
structure RefsAnswer (parents : ℕ → List ℕ) (p found : ℕ) (refs : List ℕ) (links : Links)
    (r : Bool × Links) : Prop where
  valid : r.2.Valid parents
  keeps : links.Extends r.2
  above : ∀ y, r.2 y ≠ .null →
    links y ≠ .null ∨ y = found ∨ ∃ ref ∈ refs, y = ref ∨ StrictAncestor parents y ref
  sound : r.1 = true → ∃ ref ∈ refs, ref = p ∨ StrictAncestor parents p ref
  complete : ∀ ref, refs.head? = some ref → (ref = p ∨ OnFirstLine parents p ref) → r.1 = true
  exact : (∀ ref ∈ refs, Unseen parents p ref links) → r.1 = false →
    ∀ ref ∈ refs, ref ≠ p ∧ ¬StrictAncestor parents p ref
  seen : (∀ ref ∈ refs, Unseen parents p ref links) → r.1 = false →
    ∀ y, r.2 y ≠ .null → links y ≠ .null ∨ y = found ∨ ¬StrictAncestor parents p y

theorem Links.setNext_ne_null {links : Links} {id y : ℕ} {next : Link}
    (h : (links.setNext id next) y ≠ .null) : links y ≠ .null ∨ y = id := by
  unfold Links.setNext at h
  split_ifs at h
  · rcases eq_or_ne y id with heq | hne
    · exact Or.inr heq
    · rw [Function.update_of_ne hne] at h
      exact Or.inl h
  · exact Or.inl h

theorem Links.setNext_self {links : Links} {id : ℕ} {next : Link} (h : next ≠ .null) :
    (links.setNext id next) id ≠ .null := by
  unfold Links.setNext
  split_ifs with hnull
  · rwa [Function.update_self]
  · exact hnull

/-- The loop over the references, from some of them on. Until the first one is checked the item has
no link. -/
theorem checkRefs_spec {check : Links → ℕ → Option (Bool × Links)} {p found : ℕ} (refs : List ℕ)
    (hcheck : ∀ ref ∈ refs, ∀ links : Links, links.Valid parents →
      ∃ r, check links ref = some r ∧ Answers parents p ref links r)
    (hbelow : ∀ ref ∈ refs, found ≠ ref ∧ ¬StrictAncestor parents found ref) :
    ∀ links : Links, links.Valid parents → (links found = .null → refs = parents found) →
      ∃ r, checkRefs check p found refs links = some r ∧
        RefsAnswer parents p found refs links r := by
  induction refs with
  | nil =>
    intro links hlinks _
    refine ⟨(false, links), rfl, hlinks, Links.Extends.refl links, fun y hy => Or.inl hy,
      fun h => absurd h Bool.false_ne_true, fun ref h => (nomatch h), fun _ _ ref h => ?_,
      fun _ _ y hy => Or.inl hy⟩
    exact absurd h List.not_mem_nil
  | cons ref refs ih =>
    intro links hlinks hfirst
    have hvalid : (links.setNext found (.item ref)).Valid parents := by
      refine hlinks.setNext (fun q hq hnull => ?_) fun h => by cases h
      cases hq
      rw [← hfirst hnull]
      rfl
    have hextends := links.extends_setNext found (.item ref)
    have hset : (links.setNext found (.item ref)) found ≠ .null :=
      Links.setNext_self fun h => (nomatch h)
    have hnew : ∀ y, (links.setNext found (.item ref)) y ≠ .null → links y ≠ .null ∨ y = found :=
      fun y hy => Links.setNext_ne_null hy
    rw [checkRefs]
    generalize links.setNext found (.item ref) = links' at hvalid hextends hset hnew ⊢
    -- the article itself is not above its references
    have hunseen : (∀ ref' ∈ ref :: refs, Unseen parents p ref' links) →
        ∀ ref' ∈ ref :: refs, Unseen parents p ref' links' := by
      intro h ref' hmem y hy hlink
      rcases hnew y hlink with hold | rfl
      · exact h ref' hmem y hy hold
      · rcases hy with heq | hanc
        · exact absurd heq (hbelow ref' hmem).1
        · exact absurd hanc (hbelow ref' hmem).2
    by_cases hp : p = ref
    · rw [if_pos hp]
      refine ⟨(true, links'), rfl, hvalid, hextends, fun y hy => ?_, fun _ => ⟨ref,
        List.mem_cons_self, Or.inl hp.symm⟩, fun _ _ _ => rfl, fun _ h => (nomatch h),
        fun _ h => (nomatch h)⟩
      exact (hnew y hy).imp_right Or.inl
    · rw [if_neg hp]
      obtain ⟨⟨answer, links''⟩, hcall, hanswer⟩ := hcheck ref List.mem_cons_self links' hvalid
      have habove : ∀ y, links'' y ≠ .null → links y ≠ .null ∨ y = found ∨
          ∃ ref' ∈ ref :: refs, y = ref' ∨ StrictAncestor parents y ref' := by
        intro y hy
        rcases hanswer.above y hy with hold | hor
        · exact (hnew y hold).imp_right Or.inl
        · exact Or.inr (Or.inr ⟨ref, List.mem_cons_self, hor⟩)
      rw [hcall]
      cases answer with
      | true =>
        exact ⟨(true, links''), rfl, hanswer.valid, hextends.trans hanswer.keeps, habove,
          fun _ => ⟨ref, List.mem_cons_self, Or.inr (hanswer.sound hp rfl)⟩, fun _ _ _ => rfl,
          fun _ h => (nomatch h), fun _ h => (nomatch h)⟩
      | false =>
        have hset' : links'' found ≠ .null := by
          have hkept : links'' found = links' found := hanswer.keeps found hset
          rwa [hkept]
        obtain ⟨r, hr, hrest⟩ := ih (fun ref' h => hcheck ref' (List.mem_cons_of_mem ref h))
          (fun ref' h => hbelow ref' (List.mem_cons_of_mem ref h)) links'' hanswer.valid
            fun h => absurd h hset'
        -- what has been linked on the way is not below `p`
        have hunseen' : (∀ ref' ∈ ref :: refs, Unseen parents p ref' links) →
            ∀ ref' ∈ refs, Unseen parents p ref' links'' := by
          intro h ref' hmem y hy hlink
          rcases hanswer.seen (hunseen h ref List.mem_cons_self) rfl y hlink with hold | hnot
          · exact hunseen h ref' (List.mem_cons_of_mem ref hmem) y hy hold
          · exact hnot
        refine ⟨r, hr, hrest.valid, (hextends.trans hanswer.keeps).trans hrest.keeps, ?_, ?_, ?_,
          ?_, ?_⟩
        · intro y hy
          rcases hrest.above y hy with hold | rfl | ⟨ref', hmem, hor⟩
          · exact habove y hold
          · exact Or.inr (Or.inl rfl)
          · exact Or.inr (Or.inr ⟨ref', List.mem_cons_of_mem ref hmem, hor⟩)
        · intro htrue
          obtain ⟨ref', hmem, h⟩ := hrest.sound htrue
          exact ⟨ref', List.mem_cons_of_mem ref hmem, h⟩
        · intro ref' hhead hline
          cases hhead
          rcases hline with h | h
          · exact absurd h.symm hp
          · exact absurd (hanswer.complete h) (by simp)
        · intro h hfalse ref' hmem
          rcases List.mem_cons.mp hmem with rfl | hmem
          · exact ⟨Ne.symm hp, hanswer.exact (hunseen h ref' List.mem_cons_self) rfl⟩
          · exact hrest.exact (hunseen' h) hfalse ref' hmem
        · intro h hfalse y hy
          rcases hrest.seen (hunseen' h) hfalse y hy with hold | hor
          · rcases hanswer.seen (hunseen h ref List.mem_cons_self) rfl y hold with hold' | hnot
            · exact (hnew y hold').imp_right Or.inl
            · exact Or.inr (Or.inr hnot)
          · exact Or.inr hor

theorem StrictAncestor.rank_lt {rank : ℕ → ℕ} (hrank : ∀ c, ∀ p ∈ parents c, rank p < rank c)
    {p c : ℕ} (h : StrictAncestor parents p c) : rank p < rank c := by
  induction h with
  | single hq => exact hrank _ _ hq
  | tail _ hq ih => exact (hrank _ _ hq).trans ih

theorem strictAncestor_iff {p c : ℕ} : StrictAncestor parents p c ↔
    ∃ q ∈ parents c, q = p ∨ StrictAncestor parents p q := by
  constructor
  · intro h
    obtain ⟨q, hq, hrest⟩ := Relation.TransGen.head'_iff.mp h
    exact ⟨q, hq, (Relation.reflTransGen_iff_eq_or_transGen.mp hrest).imp_left Eq.symm⟩
  · rintro ⟨q, hq, rfl | h⟩
    · exact Relation.TransGen.single hq
    · exact Relation.TransGen.head hq h

/-- One query ends. It says yes of ancestors only, and of those on the first line; where no link has
been set yet it says yes of all of them. -/
theorem isStrictAncestor_spec {rank : ℕ → ℕ} (hrank : ∀ c, ∀ p ∈ parents c, rank p < rank c)
    (p : ℕ) (fuel : ℕ) : ∀ (c : ℕ) (links : Links), rank c < fuel → links.Valid parents →
      ∃ r, isStrictAncestor parents p fuel links c = some r ∧ Answers parents p c links r := by
  induction fuel with
  | zero => exact fun c links hc => absurd hc (Nat.not_lt_zero _)
  | succ fuel ih =>
    intro c links hc hlinks
    obtain ⟨found, hfound, hspec⟩ := findParent_spec hrank hlinks p (fuel + 1) c hc
    rw [isStrictAncestor, hfound]
    cases hspec with
    | parent h =>
      dsimp only
      rw [if_pos rfl]
      exact ⟨_, rfl, hlinks, Links.Extends.refl links, fun y hy => Or.inl hy,
        fun _ _ => h.strictAncestor, fun _ => rfl, fun _ h => (nomatch h), fun _ h => (nomatch h)⟩
    | root hlink h =>
      exact ⟨_, rfl, hlinks, Links.Extends.refl links, fun y hy => Or.inl hy,
        fun _ h => absurd h Bool.false_ne_true, fun h' => absurd h' h,
        fun hun _ => hun c (Or.inl rfl) hlink, fun _ _ y hy => Or.inl hy⟩
    | last x hx hline =>
      dsimp only
      have hxc : x = c ∨ StrictAncestor parents x c :=
        hx.imp_right fun h => h.2.strictAncestor
      have hup : ∀ q, StrictAncestor parents q x → StrictAncestor parents q c := by
        intro q hq
        rcases hxc with rfl | hxc
        · exact hq
        · exact Relation.TransGen.trans hxc hq
      -- a linked article has been seen, and any other one is where the search goes on
      have hnot : Unseen parents p c links → ¬StrictAncestor parents p x →
          ¬StrictAncestor parents p c := by
        intro hun hno
        rcases hx with rfl | ⟨hlink, _⟩
        · exact hno
        · exact hun c (Or.inl rfl) hlink
      split_ifs with hxp
      · refine ⟨_, rfl, hlinks, Links.Extends.refl links, fun y hy => Or.inl hy, fun hne _ => ?_,
          fun _ => rfl, fun _ h => (nomatch h), fun _ h => (nomatch h)⟩
        rw [hxp] at hxc
        exact hxc.resolve_left hne
      · cases hparents : parents x with
        | nil =>
          have hnone : ¬StrictAncestor parents p x := by
            rw [strictAncestor_iff, hparents]
            rintro ⟨q, hq, _⟩
            exact absurd hq List.not_mem_nil
          refine ⟨_, rfl, ?_, links.extends_setNext x .root, fun y hy => ?_,
            fun _ h => absurd h Bool.false_ne_true, fun h => ?_, fun hun _ => hnot hun hnone,
            fun _ _ y hy => ?_⟩
          · exact hlinks.setNext (fun q hq => by cases hq) fun _ => hparents
          · rcases Links.setNext_ne_null hy with hold | rfl
            · exact Or.inl hold
            · exact Or.inr hxc
          · exact absurd (hline.mp h) (not_onFirstLine_of_nil hparents)
          · rcases Links.setNext_ne_null hy with hold | rfl
            · exact Or.inl hold
            · exact Or.inr hnone
        | cons ref refs =>
          have hrankx : rank x ≤ rank c := by
            rcases hxc with rfl | hxc
            · exact le_refl _
            · exact (hxc.rank_lt hrank).le
          have hlt : ∀ ref' ∈ ref :: refs, rank ref' < rank x := fun ref' hmem =>
            hrank x ref' (by rw [hparents]; exact hmem)
          obtain ⟨r, hr, hloop⟩ := checkRefs_spec (ref :: refs)
            (fun ref' hmem links' hlinks' => ih ref' links' (by
              have := hlt ref' hmem
              omega) hlinks')
            (fun ref' hmem => ⟨fun heq => by
              have := hlt ref' hmem
              rw [heq] at this
              exact lt_irrefl _ this, fun hanc =>
                lt_asymm (hlt ref' hmem) (hanc.rank_lt hrank)⟩) links hlinks fun _ => hparents.symm
          have hancestor : ∀ q, (∃ ref' ∈ ref :: refs, ref' = q ∨ StrictAncestor parents q ref') ↔
              StrictAncestor parents q x := by
            intro q
            rw [strictAncestor_iff, hparents]
          have hunseen : Unseen parents p c links →
              ∀ ref' ∈ ref :: refs, Unseen parents p ref' links := by
            intro hun ref' hmem y hy hlink
            refine hun y (Or.inr (hup y ((hancestor y).mp ⟨ref', hmem, ?_⟩))) hlink
            exact hy.imp_left Eq.symm
          have hnone : Unseen parents p c links → r.1 = false → ¬StrictAncestor parents p x := by
            intro hun hfalse hanc
            obtain ⟨ref', hmem, hor⟩ := (hancestor p).mpr hanc
            obtain ⟨hne, hno⟩ := hloop.exact (hunseen hun) hfalse ref' hmem
            exact hor.elim hne hno
          refine ⟨r, hr, hloop.valid, hloop.keeps, fun y hy => ?_, fun _ htrue => ?_, fun h => ?_,
            fun hun hfalse => hnot hun (hnone hun hfalse), fun hun hfalse y hy => ?_⟩
          · rcases hloop.above y hy with hold | rfl | ⟨ref', hmem, hor⟩
            · exact Or.inl hold
            · exact Or.inr hxc
            · exact Or.inr (Or.inr (hup y ((hancestor y).mp ⟨ref', hmem, hor.imp_left Eq.symm⟩)))
          · exact hup p ((hancestor p).mp (hloop.sound htrue))
          · have hhead : (parents x).head? = some ref := by
              rw [hparents]
              rfl
            exact hloop.complete ref rfl ((onFirstLine_iff hhead).mp (hline.mp h))
          · rcases hloop.seen (hunseen hun) hfalse y hy with hold | rfl | hno
            · exact Or.inl hold
            · exact Or.inr (hnone hun hfalse)
            · exact Or.inr hno

end TomitaParser.Geo
