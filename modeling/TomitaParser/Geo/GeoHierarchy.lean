import TomitaParser.Geo.ArticleHierarchy
/-! # The hierarchy of geo articles

`TGeoHierarchy` asks for articles without their language. Whatever was asked before, its answers
stay between the first line of parents and the whole hierarchy. -/

namespace TomitaParser.Geo

/-- What is asked of the gazetteer; a title is a list of code units. -/
structure Articles (Descriptor : Type) where
  getType : ℕ → Descriptor
  isSubType : Descriptor → Descriptor → Bool
  getTitle : ℕ → List ℕ
  findArticleByName : List ℕ → Option ℕ
  /-- The references in the field with the descriptor. -/
  refsOfField : ℕ → List ℕ
  /-- The references in the field with the number of that field. -/
  refsOfNumber : ℕ → List ℕ

def articleFolderSeparator : ℕ := 47

/-- The title up to the last separator, unless that is the first character. -/
def folderOf (title : List ℕ) : Option (List ℕ) :=
  match title.reverse.dropWhile (· ≠ articleFolderSeparator) with
  | [] => none
  | _ :: folder => if folder = [] then none else some folder.reverse

section Hierarchy
variable {Descriptor : Type} [DecidableEq Descriptor] (A : Articles Descriptor)
variable (containingType : Descriptor)

/-- `IterParents`. -/
def iterParents (art : ℕ) : List ℕ :=
  if A.getType art = containingType then A.refsOfField art
  else if A.isSubType (A.getType art) containingType then A.refsOfNumber art
  else []

/-- The links, and for the articles asked for their abstract ones; there may be none. -/
structure GeoHierarchy where
  links : Links := fun _ => .null
  abstract : ℕ → Option (Option ℕ) := fun _ => none

/-- The abstract article: the one of the folder, if there is one. -/
def Articles.abstractOf (art : ℕ) : Option ℕ :=
  (folderOf (A.getTitle art)).bind A.findArticleByName

/-- `FindAbstract`: its number, and whether it was loaded, which only the first call does. -/
def findAbstract (s : GeoHierarchy) (art : ℕ) : (Option ℕ × Bool) × GeoHierarchy :=
  match s.abstract art with
  | some id => ((id, false), s)
  | none => ((A.abstractOf art, (A.abstractOf art).isSome),
      { s with abstract := Function.update s.abstract art (some (A.abstractOf art)) })

/-- `FindAbstractOrSelf`. -/
def findAbstractOrSelf (s : GeoHierarchy) (art : ℕ) : (ℕ × Bool) × GeoHierarchy :=
  let r := findAbstract A s art
  match r.1.1 with
  | some id => ((id, r.1.2), r.2)
  | none => ((art, true), r.2)

/-- `TArticleHierarchy::IsRelated`. -/
def relatedIds (parents : ℕ → List ℕ) (fuel : ℕ) (links : Links) (id₁ id₂ : ℕ) :
    Option (Bool × Links) :=
  if id₁ = id₂ then some (true, links)
  else match isStrictAncestor parents id₂ fuel links id₁ with
    | some (false, links) => isStrictAncestor parents id₁ fuel links id₂
    | r => r

/-- `IsRelated`. -/
def isRelated (fuel : ℕ) (s : GeoHierarchy) (a₁ a₂ : ℕ) : Option (Bool × GeoHierarchy) :=
  if a₁ = a₂ then some (true, s)
  else
    let r₁ := findAbstractOrSelf A s a₁
    let r₂ := findAbstractOrSelf A r₁.2 a₂
    let answer :=
      -- the loaded article, if there is only one, is given last
      if r₁.1.2 && !r₂.1.2 then
        relatedIds (iterParents A containingType) fuel r₂.2.links r₂.1.1 r₁.1.1
      else relatedIds (iterParents A containingType) fuel r₂.2.links r₁.1.1 r₂.1.1
    answer.map fun r => (r.1, { r₂.2 with links := r.2 })

/-- `IsRelated` for one pair of articles after the other. -/
def askAll (fuel : ℕ) : GeoHierarchy → List (ℕ × ℕ) → Option (List Bool × GeoHierarchy)
  | s, [] => some ([], s)
  | s, q :: queries => do
    let (answer, s) ← isRelated A containingType fuel s q.1 q.2
    let (answers, s) ← askAll fuel s queries
    return (answer :: answers, s)

/-- The article that is asked for. -/
def Articles.abstractOrSelf (art : ℕ) : ℕ := (A.abstractOf art).getD art

/-- One of the articles is above the other one, or they are the same. -/
def Related (a₁ a₂ : ℕ) : Prop :=
  let x := A.abstractOrSelf a₁
  let y := A.abstractOrSelf a₂
  x = y ∨ StrictAncestor (iterParents A containingType) x y ∨
    StrictAncestor (iterParents A containingType) y x

/-- The same through first parents. -/
def RelatedOnFirstLine (a₁ a₂ : ℕ) : Prop :=
  let x := A.abstractOrSelf a₁
  let y := A.abstractOrSelf a₂
  x = y ∨ OnFirstLine (iterParents A containingType) x y ∨
    OnFirstLine (iterParents A containingType) y x

/-- The invariant of the caches. -/
structure GeoHierarchy.Valid (s : GeoHierarchy) : Prop where
  links : s.links.Valid (iterParents A containingType)
  abstract : ∀ art id, s.abstract art = some id → id = A.abstractOf art

variable {A containingType}

theorem findAbstractOrSelf_spec {s : GeoHierarchy} (hs : s.Valid A containingType) (art : ℕ) :
    (findAbstractOrSelf A s art).1.1 = A.abstractOrSelf art ∧
      (findAbstractOrSelf A s art).2.Valid A containingType ∧
      (findAbstractOrSelf A s art).2.links = s.links := by
  have hfind : (findAbstract A s art).1.1 = A.abstractOf art ∧
      (findAbstract A s art).2.Valid A containingType ∧
      (findAbstract A s art).2.links = s.links := by
    unfold findAbstract
    cases hcached : s.abstract art with
    | some id => exact ⟨hs.abstract art id hcached, hs, rfl⟩
    | none =>
      refine ⟨rfl, ⟨hs.links, fun art' id hid => ?_⟩, rfl⟩
      rcases eq_or_ne art' art with rfl | hne
      · simpa using hid.symm
      · dsimp only at hid
        rw [Function.update_of_ne hne] at hid
        exact hs.abstract art' id hid
  unfold findAbstractOrSelf
  generalize findAbstract A s art = r at hfind ⊢
  obtain ⟨hid, hvalid, hlinks⟩ := hfind
  dsimp only
  rw [hid, Articles.abstractOrSelf]
  cases A.abstractOf art with
  | none => exact ⟨rfl, hvalid, hlinks⟩
  | some id => exact ⟨rfl, hvalid, hlinks⟩

section Rank
variable {parents : ℕ → List ℕ} {rank : ℕ → ℕ}

/-- The answer lies between the two relations, and while nothing is linked yet it is right. -/
theorem relatedIds_spec (hrank : ∀ c, ∀ p ∈ parents c, rank p < rank c) {links : Links}
    (hlinks : links.Valid parents) {fuel x y : ℕ} (hx : rank x < fuel) (hy : rank y < fuel) :
    ∃ r, relatedIds parents fuel links x y = some r ∧ r.2.Valid parents ∧
      (r.1 = true → x = y ∨ StrictAncestor parents x y ∨ StrictAncestor parents y x) ∧
      ((x = y ∨ OnFirstLine parents x y ∨ OnFirstLine parents y x) → r.1 = true) ∧
      ((∀ z, links z = .null) →
        (x = y ∨ StrictAncestor parents x y ∨ StrictAncestor parents y x) → r.1 = true) := by
  unfold relatedIds
  split_ifs with hxy
  · exact ⟨_, rfl, hlinks, fun _ => Or.inl hxy, fun _ => rfl, fun _ _ => rfl⟩
  · obtain ⟨⟨answer, links'⟩, hcall, hanswer⟩ :=
      isStrictAncestor_spec hrank y fuel x links hx hlinks
    rw [hcall]
    cases answer with
    | true =>
      exact ⟨_, rfl, hanswer.valid, fun _ => Or.inr (Or.inr (hanswer.sound (Ne.symm hxy) rfl)),
        fun _ => rfl, fun _ _ => rfl⟩
    | false =>
      obtain ⟨r, hr, hanswer'⟩ := isStrictAncestor_spec hrank x fuel y links' hy hanswer.valid
      refine ⟨r, hr, hanswer'.valid, fun h => Or.inr (Or.inl (hanswer'.sound hxy h)), ?_, ?_⟩
      · rintro (h | h | h)
        · exact absurd h hxy
        · exact hanswer'.complete h
        · exact absurd (hanswer.complete h) Bool.false_ne_true
      · intro hnull hrelated
        by_contra hno
        rw [Bool.not_eq_true] at hno
        rcases hrelated with h | h | h
        · exact hxy h
        · refine hanswer'.exact ?_ hno h
          -- what the first search has linked is `x` or above it
          intro z _ hz hxz
          rcases hanswer.above z hz with hold | rfl | habove
          · exact hold (hnull z)
          · exact lt_irrefl _ (hxz.rank_lt hrank)
          · exact lt_asymm (hxz.rank_lt hrank) (habove.rank_lt hrank)
        · exact hanswer.exact (fun z _ hz => absurd (hnull z) hz) rfl h

end Rank

/-- One question keeps the caches right, and its answer lies between the two relations. The first
question is answered rightly. -/
theorem isRelated_spec {rank : ℕ → ℕ}
    (hrank : ∀ c, ∀ p ∈ iterParents A containingType c, rank p < rank c) {s : GeoHierarchy}
    (hs : s.Valid A containingType) {fuel a₁ a₂ : ℕ} (h₁ : rank (A.abstractOrSelf a₁) < fuel)
    (h₂ : rank (A.abstractOrSelf a₂) < fuel) :
    ∃ r, isRelated A containingType fuel s a₁ a₂ = some r ∧ r.2.Valid A containingType ∧
      (r.1 = true → Related A containingType a₁ a₂) ∧
      (RelatedOnFirstLine A containingType a₁ a₂ → r.1 = true) ∧
      ((∀ z, s.links z = .null) → Related A containingType a₁ a₂ → r.1 = true) := by
  unfold isRelated
  split_ifs with heq
  · exact ⟨_, rfl, hs, fun _ => Or.inl (by rw [heq]), fun _ => rfl, fun _ _ => rfl⟩
  · obtain ⟨hid₁, hvalid₁, hlinks₁⟩ := findAbstractOrSelf_spec hs a₁
    obtain ⟨hid₂, hvalid₂, hlinks₂⟩ := findAbstractOrSelf_spec hvalid₁ a₂
    rw [hlinks₁] at hlinks₂
    dsimp only
    rw [hid₁, hid₂]
    generalize (findAbstractOrSelf A (findAbstractOrSelf A s a₁).2 a₂) = r₂ at hvalid₂ hlinks₂ ⊢
    rw [← hlinks₂]
    split_ifs
    · obtain ⟨r, hr, hlinks, hsound, hcomplete, hfirst⟩ :=
        relatedIds_spec hrank hvalid₂.links h₂ h₁
      refine ⟨(r.1, { r₂.2 with links := r.2 }), by rw [hr]; rfl, ⟨hlinks, hvalid₂.abstract⟩,
        fun h => ?_, fun h => ?_, fun hnull h => ?_⟩
      · exact (hsound h).imp Eq.symm Or.symm
      · exact hcomplete (h.imp Eq.symm Or.symm)
      · exact hfirst hnull (h.imp Eq.symm Or.symm)
    · obtain ⟨r, hr, hlinks, hsound, hcomplete, hfirst⟩ :=
        relatedIds_spec hrank hvalid₂.links h₁ h₂
      exact ⟨(r.1, { r₂.2 with links := r.2 }), by rw [hr]; rfl, ⟨hlinks, hvalid₂.abstract⟩,
        hsound, hcomplete, hfirst⟩

theorem askAll_spec {rank : ℕ → ℕ}
    (hrank : ∀ c, ∀ p ∈ iterParents A containingType c, rank p < rank c) {fuel : ℕ}
    (queries : List (ℕ × ℕ)) : ∀ s : GeoHierarchy, s.Valid A containingType →
      (∀ q ∈ queries, rank (A.abstractOrSelf q.1) < fuel ∧ rank (A.abstractOrSelf q.2) < fuel) →
      ∃ answers s', askAll A containingType fuel s queries = some (answers, s') ∧
        s'.Valid A containingType ∧
        List.Forall₂ (fun q answer => (answer = true → Related A containingType q.1 q.2) ∧
          (RelatedOnFirstLine A containingType q.1 q.2 → answer = true)) queries answers := by
  induction queries with
  | nil => exact fun s hs _ => ⟨[], s, rfl, hs, List.Forall₂.nil⟩
  | cons q queries ih =>
    intro s hs hfuel
    obtain ⟨h₁, h₂⟩ := hfuel q List.mem_cons_self
    obtain ⟨⟨answer, s'⟩, hanswer, hvalid, hsound, hcomplete, -⟩ := isRelated_spec hrank hs h₁ h₂
    obtain ⟨answers, s'', hanswers, hvalid', hall⟩ :=
      ih s' hvalid fun q' hq' => hfuel q' (List.mem_cons_of_mem q hq')
    refine ⟨answer :: answers, s'', ?_, hvalid',
      List.Forall₂.cons ⟨hsound, hcomplete⟩ hall⟩
    rw [askAll, hanswer]
    simp only [Option.bind_eq_bind, Option.bind_some, hanswers]
    rfl

/-- In a hierarchy without cycles all questions are answered, in whatever order they come. A yes is
right, articles that are related through first parents get one, and so does every related pair that
is asked first. Where no article has two parents every answer is right. -/
theorem askAll_answers (A : Articles Descriptor) (containingType : Descriptor)
    (hwf : WellFounded fun p c => p ∈ iterParents A containingType c) (queries : List (ℕ × ℕ)) :
    ∃ N, ∀ fuel, N ≤ fuel → ∃ answers s,
      askAll A containingType fuel {} queries = some (answers, s) ∧
      List.Forall₂ (fun q answer => (answer = true → Related A containingType q.1 q.2) ∧
        (RelatedOnFirstLine A containingType q.1 q.2 → answer = true)) queries answers ∧
      (∀ q ∈ queries.head?, Related A containingType q.1 q.2 → answers.head? = some true) ∧
      ((∀ art, (iterParents A containingType art).length ≤ 1) →
        List.Forall₂ (fun q answer => answer = true ↔ Related A containingType q.1 q.2) queries
          answers) := by
  obtain ⟨rank, hrank⟩ := exists_rank hwf
  refine ⟨(queries.map fun q =>
    rank (A.abstractOrSelf q.1) + rank (A.abstractOrSelf q.2) + 1).sum, fun fuel hfuel => ?_⟩
  have hbound : ∀ q ∈ queries,
      rank (A.abstractOrSelf q.1) < fuel ∧ rank (A.abstractOrSelf q.2) < fuel := by
    intro q hq
    have hle := List.single_le_sum (fun _ _ => Nat.zero_le _) _
      (List.mem_map_of_mem (f := fun q : ℕ × ℕ =>
        rank (A.abstractOrSelf q.1) + rank (A.abstractOrSelf q.2) + 1) hq)
    omega
  have hs : ({} : GeoHierarchy).Valid A containingType :=
    ⟨⟨fun _ _ h => (nomatch h), fun _ h => (nomatch h)⟩, fun _ _ h => (nomatch h)⟩
  obtain ⟨answers, s, hrun, _, hall⟩ := askAll_spec hrank queries {} hs hbound
  refine ⟨answers, s, hrun, hall, ?_, ?_⟩
  · intro q hq hrelated
    obtain ⟨rest, rfl⟩ : ∃ rest, queries = q :: rest := by
      cases queries with
      | nil => cases hq
      | cons q' rest =>
        cases hq
        exact ⟨rest, rfl⟩
    obtain ⟨h₁, h₂⟩ := hbound q List.mem_cons_self
    obtain ⟨r, hr, -, -, -, hfirst⟩ := isRelated_spec hrank hs h₁ h₂
    have htrue := hfirst (fun _ => rfl) hrelated
    rw [askAll, hr] at hrun
    simp only [Option.bind_eq_bind, Option.bind_some, Option.bind_eq_some_iff] at hrun
    obtain ⟨_, _, hanswers⟩ := hrun
    cases hanswers
    rw [List.head?_cons, htrue]
  · intro hone
    refine hall.imp ?_
    rintro q answer ⟨hsound, hcomplete⟩
    refine ⟨hsound, fun h => hcomplete ?_⟩
    simp only [Related, strictAncestor_iff_onFirstLine hone] at h
    exact h

end Hierarchy

/-- The article 3 in two parts of the article 1, and its German title. -/
def twoParts : Articles Bool where
  getType _ := true
  isSubType a b := a == b
  getTitle art := if art = 4 then [109, 47, 100] else if art = 3 then [109] else []
  findArticleByName title := if title = [109] then some 3 else none
  refsOfField art := if art = 3 then [2, 5] else if art = 2 then [1] else []
  refsOfNumber _ := []

theorem askAll_answers_twoParts :
    ∃ N, ∀ fuel, N ≤ fuel → ∃ answers s,
      askAll twoParts true fuel {} [(4, 5), (4, 5)] = some (answers, s) ∧
        answers.head? = some true := by
  have hwf : WellFounded fun p c => p ∈ iterParents twoParts true c := by
    have hheight : ∀ c, ∀ p ∈ iterParents twoParts true c,
        (if p = 3 then 2 else if p = 2 then 1 else 0) <
          if c = 3 then 2 else if c = 2 then 1 else 0 := by
      intro c p hp
      simp only [iterParents, twoParts, if_true] at hp
      split_ifs at hp with h₃ h₂
      · simp only [List.mem_cons, List.not_mem_nil, or_false] at hp
        rcases hp with rfl | rfl <;> simp [h₃]
      · simp only [List.mem_singleton] at hp
        simp [hp, h₂]
      · exact absurd hp List.not_mem_nil
    exact Subrelation.wf (fun h => hheight _ _ h)
      (measure fun a => if a = 3 then 2 else if a = 2 then 1 else 0).wf
  obtain ⟨N, hN⟩ := askAll_answers twoParts true hwf [(4, 5), (4, 5)]
  refine ⟨N, fun fuel hfuel => ?_⟩
  obtain ⟨answers, s, hrun, _, hfirst, _⟩ := hN fuel hfuel
  refine ⟨answers, s, hrun, hfirst (4, 5) rfl (Or.inr (Or.inr ?_))⟩
  exact Relation.TransGen.single (show 5 ∈ iterParents twoParts true 3 by decide)

/-- With two parents a second question may be answered otherwise. -/
example : (askAll twoParts true 5 {} [(4, 5), (4, 5), (4, 1)]).map Prod.fst =
    some [true, false, true] := by decide

end TomitaParser.Geo
