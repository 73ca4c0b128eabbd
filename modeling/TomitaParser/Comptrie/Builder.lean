import Mathlib.Data.List.Basic
import Mathlib.Order.Basic
import Mathlib.Data.Nat.Basic
/-! # The builder of a compact trie

The keys are byte strings. A node has arcs in the order of the first bytes of their labels, and a
label is as long as no key ends or branches inside it. Adding a key splits the label in which it
leaves the tree. -/

namespace TomitaParser.Comptrie

/-- `TArcSet`: the arcs of a node. An arc has the bytes of its label, of which there is a first one,
and the payload and the arcs of its node. -/
inductive Arcs (Leaf : Type) where
  | nil
  | cons (first : ℕ) (more : List ℕ) (payload : Option Leaf) (children rest : Arcs Leaf)

/-- What two byte strings have in common, and what is left of each. -/
def diverge : List ℕ → List ℕ → List ℕ × List ℕ × List ℕ
  | a :: as, b :: bs =>
    if a = b then
      let r := diverge as bs
      (a :: r.1, r.2)
    else ([], a :: as, b :: bs)
  | as, bs => ([], as, bs)

/-- What is left of a byte string after a label. -/
def strip : List ℕ → List ℕ → Option (List ℕ)
  | [], bs => some bs
  | _ :: _, [] => none
  | a :: as, b :: bs => if a = b then strip as bs else none

theorem strip_eq_some {label key rest : List ℕ} :
    strip label key = some rest ↔ key = label ++ rest := by
  induction label generalizing key with
  | nil => simp [strip]
  | cons a label ih =>
    cases key with
    | nil => simp [strip]
    | cons b key =>
      rw [strip]
      by_cases hab : a = b
      · rw [if_pos hab, ih, hab]
        simp
      · rw [if_neg hab]
        constructor
        · intro h
          exact absurd h (by simp)
        · intro h
          exact absurd (List.cons.inj h).1.symm hab

theorem strip_append (as bs key : List ℕ) :
    strip (as ++ bs) key = (strip as key).bind (strip bs) := by
  induction as generalizing key with
  | nil => rfl
  | cons a as ih =>
    cases key with
    | nil => rfl
    | cons b key =>
      rw [List.cons_append, strip, strip]
      by_cases hab : a = b
      · rw [if_pos hab, if_pos hab, ih]
      · rw [if_neg hab, if_neg hab]
        rfl

theorem diverge_spec (as bs : List ℕ) : as = (diverge as bs).1 ++ (diverge as bs).2.1 ∧
    bs = (diverge as bs).1 ++ (diverge as bs).2.2 ∧
    ∀ e es d ds, (diverge as bs).2.1 = e :: es → (diverge as bs).2.2 = d :: ds → e ≠ d := by
  induction as generalizing bs with
  | nil => simp [diverge]
  | cons a as ih =>
    cases bs with
    | nil => simp [diverge]
    | cons b bs =>
      rw [diverge]
      by_cases hab : a = b
      · obtain ⟨has, hbs, hne⟩ := ih bs
        simp only [if_pos hab, List.cons_append, List.cons.injEq]
        exact ⟨⟨trivial, has⟩, ⟨hab.symm, hbs⟩, hne⟩
      · simp only [if_neg hab, List.nil_append, List.cons.injEq, true_and]
        rintro e es d ds ⟨rfl, -⟩ ⟨rfl, -⟩
        exact hab

namespace Arcs
variable {Leaf : Type}

/-- The first bytes of the labels. -/
def firsts : Arcs Leaf → List ℕ
  | nil => []
  | cons first _ _ _ rest => first :: rest.firsts

/-- `NodeLinkTo` for a new leaf: it goes before the first arc whose label does not start with a
smaller byte. -/
def link (first : ℕ) (more : List ℕ) (v : Leaf) : Arcs Leaf → Arcs Leaf
  | nil => cons first more (some v) nil nil
  | cons g label payload children rest =>
    if g < first then cons g label payload children (link first more v rest)
    else cons first more (some v) nil (cons g label payload children rest)

/-- `AddEntry` for the bytes of a key that is not empty: the arcs with the new payload, and whether
its node had none. An arc that the key leaves within its label is split as `NodeForwardAdd` does. -/
def add (v : Leaf) : Arcs Leaf → ℕ → List ℕ → Arcs Leaf × Bool
  | nil, c, cs => (cons c cs (some v) nil nil, true)
  | cons first more payload children rest, c, cs =>
    if first < c then
      let r := add v rest c cs
      (cons first more payload children r.1, r.2)
    else if c < first then (cons c cs (some v) nil (cons first more payload children rest), true)
    else
      match diverge more cs with
      | (_, [], []) => (cons first more (some v) children rest, payload.isNone)
      | (_, [], d :: ds) =>
        let r := add v children d ds
        (cons first more payload r.1 rest, r.2)
      | (common, e :: es, []) =>
        (cons first common (some v) (cons e es payload children nil) rest, true)
      | (common, e :: es, d :: ds) =>
        (cons first common none (link d ds v (cons e es payload children nil)) rest, true)

/-- `AddEntry` for the empty key, which is to be stored as a zero byte. `NodeForwardCheck` finds
only an arc whose whole label is the zero byte. -/
def addEmpty (v : Leaf) : Arcs Leaf → Arcs Leaf × Bool
  | cons 0 [] payload children rest => (cons 0 [] (some v) children rest, payload.isNone)
  | arcs => (link 0 [] v arcs, true)

/-- The payload that the bytes of a key lead to. -/
def lookup : Arcs Leaf → List ℕ → Option Leaf
  | nil, _ => none
  | cons _ _ _ _ _, [] => none
  | cons first more payload children rest, c :: cs =>
    if c = first then
      match strip more cs with
      | none => none
      | some [] => payload
      | some (d :: ds) => lookup children (d :: ds)
    else lookup rest (c :: cs)

/-- The arcs are in order, and a node without a payload branches. -/
def Good : Arcs Leaf → Prop
  | nil => True
  | cons first _ payload children rest =>
    (∀ g ∈ rest.firsts, first < g) ∧ (payload = none → 2 ≤ children.firsts.length) ∧
      children.Good ∧ rest.Good

/-- What the node of an arc holds for the rest of a key. -/
def atNode (payload : Option Leaf) (children : Arcs Leaf) : List ℕ → Option Leaf
  | [] => payload
  | d :: ds => children.lookup (d :: ds)

theorem lookup_cons (first : ℕ) (more : List ℕ) (payload : Option Leaf)
    (children rest : Arcs Leaf) (c : ℕ) (cs : List ℕ) :
    (cons first more payload children rest).lookup (c :: cs) =
      if c = first then (strip more cs).bind (atNode payload children)
      else rest.lookup (c :: cs) := by
  rw [lookup]
  split_ifs
  · cases hstrip : strip more cs with
    | none => rfl
    | some left => cases left <;> rfl
  · rfl

theorem lookup_nil_key (arcs : Arcs Leaf) : arcs.lookup [] = none := by
  cases arcs <;> rfl

theorem lookup_single (first : ℕ) (more : List ℕ) (payload : Option Leaf) (children : Arcs Leaf)
    (key : List ℕ) : (cons first more payload children nil).lookup key =
      (strip (first :: more) key).bind (atNode payload children) := by
  cases key with
  | nil => rfl
  | cons c cs =>
    rw [lookup_cons, strip]
    by_cases hc : c = first
    · rw [if_pos hc, if_pos hc.symm]
    · rw [if_neg hc, if_neg fun h => hc h.symm]
      rfl

theorem lookup_of_not_mem {arcs : Arcs Leaf} {c : ℕ} (hc : c ∉ arcs.firsts) (cs : List ℕ) :
    arcs.lookup (c :: cs) = none := by
  induction arcs with
  | nil => rfl
  | cons first more payload children rest _ ih =>
    rw [firsts, List.mem_cons, not_or] at hc
    rw [lookup_cons, if_neg hc.1, ih hc.2]

theorem firsts_link (first : ℕ) (more : List ℕ) (v : Leaf) (arcs : Arcs Leaf) (g : ℕ) :
    g ∈ (link first more v arcs).firsts ↔ g = first ∨ g ∈ arcs.firsts := by
  induction arcs with
  | nil => simp [link, firsts]
  | cons h label payload children rest _ ih =>
    rw [link]
    split_ifs
    · simp only [firsts, List.mem_cons, ih]
      tauto
    · simp only [firsts, List.mem_cons]

theorem length_firsts_link (first : ℕ) (more : List ℕ) (v : Leaf) (arcs : Arcs Leaf) :
    (link first more v arcs).firsts.length = arcs.firsts.length + 1 := by
  induction arcs with
  | nil => rfl
  | cons h label payload children rest _ ih =>
    rw [link]
    split_ifs
    · simp only [firsts, List.length_cons, ih]
    · simp only [firsts, List.length_cons]

theorem Good.link {arcs : Arcs Leaf} (h : arcs.Good) {first : ℕ} (hfirst : first ∉ arcs.firsts)
    (more : List ℕ) (v : Leaf) : (link first more v arcs).Good := by
  induction arcs with
  | nil => simp [Arcs.link, Good, firsts]
  | cons g label payload children rest _ ih =>
    obtain ⟨hlt, hbranch, hchildren, hrest⟩ := h
    rw [firsts, List.mem_cons, not_or] at hfirst
    rw [Arcs.link]
    split_ifs with hg
    · refine ⟨fun k hk => ?_, hbranch, hchildren, ih hrest hfirst.2⟩
      rcases (firsts_link first more v rest k).mp hk with rfl | hk
      · exact hg
      · exact hlt k hk
    · have hgt : first < g := lt_of_le_of_ne (not_lt.mp hg) hfirst.1
      refine ⟨fun k hk => ?_, by simp, trivial, hlt, hbranch, hchildren, hrest⟩
      rcases List.mem_cons.mp hk with rfl | hk
      · exact hgt
      · exact lt_trans hgt (hlt k hk)

theorem lookup_link {arcs : Arcs Leaf} {first : ℕ} (hfirst : first ∉ arcs.firsts) (more : List ℕ)
    (v : Leaf) (key : List ℕ) : (link first more v arcs).lookup key =
      if key = first :: more then some v else arcs.lookup key := by
  have hleaf : ∀ c cs, (strip more cs).bind (atNode (some v) nil) =
      if (c :: cs : List ℕ) = c :: more then some v else none := by
    intro c cs
    cases hstrip : strip more cs with
    | none =>
      rw [if_neg]
      · rfl
      · intro h
        have hcs : cs = more ++ [] := by simpa using h
        rw [strip_eq_some.mpr hcs] at hstrip
        exact absurd hstrip (by simp)
    | some left =>
      rw [strip_eq_some] at hstrip
      cases left with
      | nil => simp [atNode, hstrip]
      | cons d ds => simp [atNode, hstrip, lookup]
  cases key with
  | nil => simp [lookup_nil_key]
  | cons c cs =>
    induction arcs with
    | nil =>
      rw [link, lookup_cons]
      by_cases hc : c = first
      · rw [if_pos hc, hleaf first cs, hc]
        rfl
      · rw [if_neg hc, if_neg fun h => hc (List.cons.inj h).1]
    | cons g label payload children rest _ ih =>
      rw [firsts, List.mem_cons, not_or] at hfirst
      rw [link]
      split_ifs with hg hkey hkey
      · have hc : c ≠ g := fun h => hfirst.1 (by rw [← (List.cons.inj hkey).1, h])
        rw [lookup_cons, if_neg hc, ih hfirst.2, if_pos hkey]
      · rw [lookup_cons, lookup_cons, ih hfirst.2, if_neg hkey]
      · have hc : c = first := (List.cons.inj hkey).1
        rw [lookup_cons, if_pos hc, hleaf first cs, if_pos (hc ▸ hkey)]
      · rw [lookup_cons]
        by_cases hc : c = first
        · rw [if_pos hc, hleaf first cs, if_neg (hc ▸ hkey), lookup_cons,
            if_neg (hc ▸ hfirst.1), lookup_of_not_mem (hc ▸ hfirst.2)]
        · rw [if_neg hc]

/-- What adding a key does to the arcs: it extends a node that has no arc for the key, takes an
existing node, goes below one, ends within a label, or leaves the label at a byte. -/
inductive Adds (v : Leaf) : Arcs Leaf → ℕ → List ℕ → Arcs Leaf → Bool → Prop
  | fresh {arcs : Arcs Leaf} {c : ℕ} {cs : List ℕ} (hlt : ∀ g ∈ arcs.firsts, c < g) :
      Adds v arcs c cs (link c cs v arcs) true
  | after {first : ℕ} {more : List ℕ} {payload : Option Leaf} {children rest rest' : Arcs Leaf}
      {c : ℕ} {cs : List ℕ} {isNew : Bool} (hlt : first < c) (h : Adds v rest c cs rest' isNew) :
      Adds v (cons first more payload children rest) c cs
        (cons first more payload children rest') isNew
  | here {c : ℕ} {cs : List ℕ} {payload : Option Leaf} {children rest : Arcs Leaf} :
      Adds v (cons c cs payload children rest) c cs (cons c cs (some v) children rest)
        payload.isNone
  | deeper {c : ℕ} {more : List ℕ} {payload : Option Leaf} {children children' rest : Arcs Leaf}
      {d : ℕ} {ds : List ℕ} {isNew : Bool} (h : Adds v children d ds children' isNew) :
      Adds v (cons c more payload children rest) c (more ++ d :: ds)
        (cons c more payload children' rest) isNew
  | within {c e : ℕ} {common es : List ℕ} {payload : Option Leaf} {children rest : Arcs Leaf} :
      Adds v (cons c (common ++ e :: es) payload children rest) c common
        (cons c common (some v) (cons e es payload children nil) rest) true
  | fork {c d e : ℕ} {common ds es : List ℕ} {payload : Option Leaf} {children rest : Arcs Leaf}
      (hne : e ≠ d) :
      Adds v (cons c (common ++ e :: es) payload children rest) c (common ++ d :: ds)
        (cons c common none (link d ds v (cons e es payload children nil)) rest) true

theorem adds_add {v : Leaf} {arcs : Arcs Leaf} (h : arcs.Good) (c : ℕ) (cs : List ℕ) :
    Adds v arcs c cs (arcs.add v c cs).1 (arcs.add v c cs).2 := by
  induction arcs generalizing c cs with
  | nil =>
    apply Adds.fresh
    simp [firsts]
  | cons first more payload children rest ihChildren ihRest =>
    obtain ⟨hlt, -, hchildren, hrest⟩ := h
    rw [add]
    by_cases hafter : first < c
    · rw [if_pos hafter]
      apply Adds.after hafter
      exact ihRest hrest c cs
    · rw [if_neg hafter]
      by_cases hbefore : c < first
      · rw [if_pos hbefore]
        have hlink : link c cs v (cons first more payload children rest) =
            cons c cs (some v) nil (cons first more payload children rest) := by
          rw [link, if_neg hafter]
        rw [← hlink]
        apply Adds.fresh
        intro g hg
        rcases List.mem_cons.mp hg with rfl | hg
        · exact hbefore
        · exact lt_trans hbefore (hlt g hg)
      · rw [if_neg hbefore]
        have hc : c = first := by omega
        subst hc
        have hspec := diverge_spec more cs
        generalize diverge more cs = parts at hspec
        obtain ⟨common, tail, target⟩ := parts
        obtain ⟨hmore, hcs, hne⟩ := hspec
        simp only at hmore hcs hne
        subst hmore hcs
        cases tail with
        | nil =>
          cases target with
          | nil => exact Adds.here
          | cons d ds =>
            simp only [List.append_nil]
            apply Adds.deeper
            exact ihChildren hchildren d ds
        | cons e es =>
          cases target with
          | nil =>
            simp only [List.append_nil]
            exact Adds.within
          | cons d ds => exact Adds.fork (hne e es d ds rfl rfl)

variable {v : Leaf} {arcs arcs' : Arcs Leaf} {c : ℕ} {cs : List ℕ} {isNew : Bool}

theorem Adds.mem_firsts (h : Adds v arcs c cs arcs' isNew) (g : ℕ) :
    g ∈ arcs'.firsts ↔ g = c ∨ g ∈ arcs.firsts := by
  induction h with
  | fresh _ => exact firsts_link _ _ _ _ _
  | after _ _ ih =>
    simp only [firsts, List.mem_cons, ih]
    tauto
  | here => simp [firsts]
  | deeper _ _ => simp [firsts]
  | within => simp [firsts]
  | fork _ => simp [firsts]

theorem Adds.length_firsts (h : Adds v arcs c cs arcs' isNew) :
    arcs.firsts.length ≤ arcs'.firsts.length := by
  induction h with
  | fresh _ =>
    rw [length_firsts_link]
    omega
  | after _ _ ih => simpa [firsts] using ih
  | here => exact le_refl _
  | deeper _ _ => exact le_refl _
  | within => exact le_refl _
  | fork _ => exact le_refl _

theorem Adds.good (h : Adds v arcs c cs arcs' isNew) (hgood : arcs.Good) : arcs'.Good := by
  induction h with
  | fresh hlt =>
    apply hgood.link
    intro hmem
    exact absurd (hlt _ hmem) (lt_irrefl _)
  | after hlt h ih =>
    obtain ⟨horder, hbranch, hchildren, hrest⟩ := hgood
    refine ⟨?_, hbranch, hchildren, ih hrest⟩
    intro g hg
    rcases (h.mem_firsts g).mp hg with rfl | hg
    · exact hlt
    · exact horder g hg
  | here => exact ⟨hgood.1, by simp, hgood.2.2⟩
  | deeper h ih =>
    obtain ⟨horder, hbranch, hchildren, hrest⟩ := hgood
    exact ⟨horder, fun hnone => le_trans (hbranch hnone) h.length_firsts, ih hchildren, hrest⟩
  | within =>
    obtain ⟨horder, hbranch, hchildren, hrest⟩ := hgood
    exact ⟨horder, by simp, ⟨by simp [firsts], hbranch, hchildren, trivial⟩, hrest⟩
  | @fork c d e common ds es payload children rest hne =>
    obtain ⟨horder, hbranch, hchildren, hrest⟩ := hgood
    have hold : (cons e es payload children nil).Good :=
      ⟨by simp [firsts], hbranch, hchildren, trivial⟩
    refine ⟨horder, ?_, ?_, hrest⟩
    · intro _
      rw [length_firsts_link]
      simp [firsts]
    · apply hold.link
      simpa [firsts] using hne.symm

theorem bind_strip_update {common target : List ℕ} {old new : List ℕ → Option Leaf}
    (h : ∀ left, new left = if left = target then some v else old left) (ks : List ℕ) :
    (strip common ks).bind new =
      if ks = common ++ target then some v else (strip common ks).bind old := by
  cases hstrip : strip common ks with
  | none =>
    rw [if_neg]
    · rfl
    · intro hks
      rw [strip_eq_some.mpr hks] at hstrip
      exact absurd hstrip (by simp)
  | some left =>
    rw [strip_eq_some] at hstrip
    simp only [Option.bind_some, h left, hstrip, List.append_cancel_left_eq]

theorem lookup_cons_update {more more' : List ℕ} {payload payload' : Option Leaf}
    {children children' rest : Arcs Leaf}
    (h : ∀ ks, (strip more' ks).bind (atNode payload' children') =
      if ks = cs then some v else (strip more ks).bind (atNode payload children)) (key : List ℕ) :
    (cons c more' payload' children' rest).lookup key =
      if key = c :: cs then some v else (cons c more payload children rest).lookup key := by
  cases key with
  | nil => simp [lookup_nil_key]
  | cons k ks =>
    rw [lookup_cons, lookup_cons]
    by_cases hk : k = c
    · rw [if_pos hk, if_pos hk, h ks, hk]
      simp only [List.cons.injEq, true_and]
    · rw [if_neg hk, if_neg hk, if_neg fun heq => hk (List.cons.inj heq).1]

theorem Adds.lookup (h : Adds v arcs c cs arcs' isNew) (key : List ℕ) :
    arcs'.lookup key = if key = c :: cs then some v else arcs.lookup key := by
  induction h generalizing key with
  | fresh hlt =>
    apply lookup_link
    intro hmem
    exact absurd (hlt _ hmem) (lt_irrefl _)
  | @after first more payload children rest rest' c cs isNew hlt _ ih =>
    cases key with
    | nil => simp [lookup_nil_key]
    | cons k ks =>
      rw [lookup_cons, lookup_cons, ih]
      by_cases hk : k = first
      · have hkey : ¬ k :: ks = c :: cs := fun heq => by
          have := (List.cons.inj heq).1
          omega
        rw [if_pos hk, if_pos hk, if_neg hkey]
      · rw [if_neg hk, if_neg hk]
  | @here c cs payload children rest =>
    apply lookup_cons_update
    intro ks
    have hnode := @bind_strip_update Leaf v cs [] (atNode payload children)
      (atNode (some v) children) (fun left => by cases left <;> simp [atNode]) ks
    rwa [List.append_nil] at hnode
  | @deeper c more payload children children' rest d ds isNew _ ih =>
    apply lookup_cons_update
    intro ks
    apply bind_strip_update
    intro left
    cases left with
    | nil => simp [atNode]
    | cons e es => exact ih (e :: es)
  | @within c e common es payload children rest =>
    apply lookup_cons_update
    intro ks
    rw [strip_append, Option.bind_assoc]
    have hnode := @bind_strip_update Leaf v common []
      (fun left => (strip (e :: es) left).bind (atNode payload children))
      (atNode (some v) (cons e es payload children nil)) (fun left => by
        cases left with
        | nil => simp [atNode]
        | cons k ks => simp [atNode, lookup_single]) ks
    rwa [List.append_nil] at hnode
  | @fork c d e common ds es payload children rest hne =>
    apply lookup_cons_update
    intro ks
    rw [strip_append, Option.bind_assoc]
    apply bind_strip_update
    intro left
    cases left with
    | nil => simp [atNode, strip]
    | cons k ks =>
      rw [atNode, lookup_link (by simpa [firsts] using hne.symm), lookup_single]

theorem Adds.isNew_eq (h : Adds v arcs c cs arcs' isNew) :
    isNew = (arcs.lookup (c :: cs)).isNone := by
  induction h with
  | fresh hlt =>
    rw [lookup_of_not_mem]
    · rfl
    · intro hmem
      exact absurd (hlt _ hmem) (lt_irrefl _)
  | after hlt _ ih => rw [lookup_cons, if_neg (by omega), ih]
  | here =>
    rw [lookup_cons, if_pos rfl, strip_eq_some.mpr (List.append_nil _).symm]
    rfl
  | deeper _ ih =>
    rw [lookup_cons, if_pos rfl, strip_eq_some.mpr rfl]
    exact ih
  | @within c e common es payload children rest =>
    rw [lookup_cons, if_pos rfl, strip_append, strip_eq_some.mpr (List.append_nil _).symm]
    rfl
  | @fork c d e common ds es payload children rest hne =>
    rw [lookup_cons, if_pos rfl, strip_append, strip_eq_some.mpr rfl, Option.bind_some, strip,
      if_neg hne]
    rfl

/-- The arc that the empty key goes by: there is none for the zero byte, or it ends at it. -/
def ZeroFree : Arcs Leaf → Prop
  | cons 0 (_ :: _) _ _ _ => False
  | _ => True

theorem addEmpty_eq {arcs : Arcs Leaf} (h : arcs.ZeroFree) (v : Leaf) :
    arcs.addEmpty v = arcs.add v 0 [] := by
  cases arcs with
  | nil => rfl
  | cons first more payload children rest =>
    cases first with
    | zero =>
      cases more with
      | nil => rfl
      | cons _ _ => exact absurd h id
    | succ first => rfl

theorem Good.exists_key {arcs : Arcs Leaf} (h : arcs.Good) {c : ℕ} (hc : c ∈ arcs.firsts) :
    ∃ cs, arcs.lookup (c :: cs) ≠ none := by
  induction arcs generalizing c with
  | nil => simp [firsts] at hc
  | cons first more payload children rest ihChildren ihRest =>
    obtain ⟨hlt, hbranch, hchildren, hrest⟩ := h
    rcases List.mem_cons.mp hc with rfl | hc
    · cases payload with
      | some v =>
        use more
        rw [lookup_cons, if_pos rfl, strip_eq_some.mpr (List.append_nil _).symm]
        simp [atNode]
      | none =>
        have hne : children.firsts ≠ [] := by
          intro hnil
          have := hbranch rfl
          simp [hnil] at this
        obtain ⟨d, hd⟩ := List.exists_mem_of_ne_nil _ hne
        obtain ⟨ds, hds⟩ := ihChildren hchildren hd
        use more ++ d :: ds
        rw [lookup_cons, if_pos rfl, strip_eq_some.mpr rfl]
        exact hds
    · obtain ⟨cs, hcs⟩ := ihRest hrest hc
      use cs
      have hne : c ≠ first := by
        have := hlt c hc
        omega
      rwa [lookup_cons, if_neg hne]

/-- The keys with a zero byte in front all go on with the byte `b`. -/
structure GoOnWith (b : ℕ) (present : List ℕ → Prop) : Prop where
  exists_key : ∃ ks, present (0 :: b :: ks)
  all : ∀ ks, present (0 :: ks) → ∃ left, ks = b :: left

/-- A longer label starts with the zero byte just when the keys with that byte in front go on with
one byte. -/
theorem Good.not_zeroFree_iff {arcs : Arcs Leaf} (h : arcs.Good) :
    ¬ arcs.ZeroFree ↔ ∃ b, GoOnWith b fun key => arcs.lookup key ≠ none := by
  constructor
  · intro hlong
    match arcs, hlong with
    | nil, hlong => exact absurd trivial hlong
    | cons (_ + 1) _ _ _ _, hlong => exact absurd trivial hlong
    | cons 0 [] _ _ _, hlong => exact absurd trivial hlong
    | cons 0 (b :: label) payload children rest, _ =>
      have hall : ∀ ks, (cons 0 (b :: label) payload children rest).lookup (0 :: ks) ≠ none →
          ∃ left, ks = b :: left := by
        intro ks hks
        rw [lookup_cons, if_pos rfl] at hks
        cases hstrip : strip (b :: label) ks with
        | none => simp [hstrip] at hks
        | some left =>
          rw [strip_eq_some] at hstrip
          exact ⟨label ++ left, hstrip⟩
      obtain ⟨cs, hcs⟩ := h.exists_key List.mem_cons_self
      obtain ⟨left, rfl⟩ := hall cs hcs
      exact ⟨b, ⟨left, hcs⟩, hall⟩
  · rintro ⟨b, ⟨ks, hks⟩, hall⟩ hfree
    match arcs, hfree with
    | nil, _ => exact hks rfl
    | cons (first + 1) more payload children rest, _ =>
      apply hks
      apply lookup_of_not_mem
      intro hmem
      rcases List.mem_cons.mp hmem with hzero | hmem
      · exact absurd hzero (by omega)
      · have := h.1 0 hmem
        omega
    | cons 0 [] payload children rest, _ =>
      obtain ⟨-, hbranch, hchildren, -⟩ := h
      cases payload with
      | some v =>
        obtain ⟨left, hleft⟩ := hall [] (by simp [lookup_cons, strip, atNode])
        exact absurd hleft (by simp)
      | none =>
        have hnext : ∀ d ∈ children.firsts, d = b := by
          intro d hd
          obtain ⟨ds, hds⟩ := hchildren.exists_key hd
          obtain ⟨left, hleft⟩ := hall (d :: ds) (by
            rw [lookup_cons, if_pos rfl]
            exact hds)
          exact (List.cons.inj hleft).1
        match children, hbranch rfl with
        | nil, hlen => simp [firsts] at hlen
        | cons _ _ _ _ nil, hlen => simp [firsts] at hlen
        | cons d _ _ _ (cons e _ _ _ _), _ =>
          have hd := hnext d List.mem_cons_self
          have he := hnext e (List.mem_cons_of_mem d List.mem_cons_self)
          have hlt := hchildren.1 e List.mem_cons_self
          omega

/-- The arc of the empty key stands before one with a longer label, which starts with a zero byte
too. -/
def ZeroHidden : Arcs Leaf → Prop
  | cons 0 [] (some _) _ (cons 0 (_ :: _) _ _ rest) => (∀ g ∈ rest.firsts, 0 < g) ∧ rest.Good
  | _ => False

theorem Good.zeroHidden_addEmpty {arcs : Arcs Leaf} (h : arcs.Good) (hlong : ¬ arcs.ZeroFree)
    (v : Leaf) : (arcs.addEmpty v).1.ZeroHidden := by
  match arcs, hlong with
  | nil, hlong => exact absurd trivial hlong
  | cons (_ + 1) _ _ _ _, hlong => exact absurd trivial hlong
  | cons 0 [] _ _ _, hlong => exact absurd trivial hlong
  | cons 0 (_ :: _) _ _ _, _ => exact ⟨h.1, h.2.2.2⟩

theorem ZeroHidden.addEmpty {arcs : Arcs Leaf} (h : arcs.ZeroHidden) (v : Leaf) :
    (arcs.addEmpty v).1.ZeroHidden := by
  match arcs, h with
  | cons 0 [] (some _) _ (cons 0 (_ :: _) _ _ _), h => exact h

theorem ZeroHidden.add {arcs : Arcs Leaf} (h : arcs.ZeroHidden) (v : Leaf) (c : ℕ) (cs : List ℕ) :
    (arcs.add v c cs).1.ZeroHidden := by
  match arcs, h with
  | cons 0 [] (some w) children (cons 0 (b :: label) payload others rest), h =>
    cases c with
    | zero => cases cs <;> exact h
    | succ c =>
      have hadds := @adds_add Leaf v rest h.2 (c + 1) cs
      have hpositive : ∀ g ∈ (rest.add v (c + 1) cs).1.firsts, 0 < g := by
        intro g hg
        rcases (hadds.mem_firsts g).mp hg with rfl | hg
        · exact Nat.succ_pos c
        · exact h.1 g hg
      exact ⟨hpositive, hadds.good h.2⟩

end Arcs

end TomitaParser.Comptrie
