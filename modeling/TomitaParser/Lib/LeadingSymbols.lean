import TomitaParser.Lib.Derivation
/-! # First symbols and neighbours in sentential forms

The productions of the results have non-empty right sides. -/

namespace Cfg
variable {S : Type*} {P : S → List S → Prop}

/-- One step at the first symbol. -/
inductive Leads (P : S → List S → Prop) : List S → List S → Prop where
  | rule {A : S} {rhs : List S} (post : List S) (h : P A rhs) : Leads P (A :: post) (rhs ++ post)

/-- Steps at the first symbol lead to a string that starts with `a`. -/
def StartsWith (P : S → List S → Prop) (u : List S) (a : S) : Prop :=
  ∃ w, Relation.ReflTransGen (Leads P) u (a :: w)

theorem StartsWith.self (a : S) (u : List S) : StartsWith P (a :: u) a :=
  ⟨u, Relation.ReflTransGen.refl⟩

theorem StartsWith.append {u : List S} {a : S} (h : StartsWith P u a) (post : List S) :
    StartsWith P (u ++ post) a := by
  obtain ⟨w, h⟩ := h
  use w ++ post
  induction h using Relation.ReflTransGen.head_induction_on with
  | refl => exact Relation.ReflTransGen.refl
  | head hstep _ ih =>
    cases hstep with
    | @rule A rhs rest hrule =>
      apply Relation.ReflTransGen.head _ ih
      rw [List.append_assoc]
      exact Leads.rule (rest ++ post) hrule

theorem StartsWith.rule {A b a : S} {rest : List S} (hrule : P A (b :: rest))
    (h : StartsWith P [b] a) : StartsWith P [A] a := by
  obtain ⟨w, hw⟩ := h.append rest
  use w
  apply Relation.ReflTransGen.head _ hw
  have hstep := Leads.rule [] hrule
  rw [List.append_nil] at hstep
  exact hstep

theorem StartsWith.induction (hne : ∀ A rhs, P A rhs → rhs ≠ []) {Q : S → Prop} {a : S}
    (hself : Q a) (hrule : ∀ A b rest, P A (b :: rest) → Q b → Q A) {b : S} {u : List S}
    (h : StartsWith P (b :: u) a) : Q b := by
  obtain ⟨w, h⟩ := h
  have key : ∀ v, Relation.ReflTransGen (Leads P) v (a :: w) → ∀ c t, v = c :: t → Q c := by
    intro v hv
    induction hv using Relation.ReflTransGen.head_induction_on with
    | refl =>
      intro c t heq
      rw [← (List.cons.inj heq).1]
      exact hself
    | head hstep _ ih =>
      intro c t heq
      cases hstep with
      | @rule A rhs post hP =>
        rw [← (List.cons.inj heq).1]
        cases rhs with
        | nil => exact absurd rfl (hne A [] hP)
        | cons d rest => exact hrule A d rest hP (ih d (rest ++ post) rfl)
  exact key (b :: u) h b u rfl

theorem StartsWith.ne_nil {u : List S} {a : S} (h : StartsWith P u a) : u ≠ [] := by
  rintro rfl
  obtain ⟨w, h⟩ := h
  rcases Relation.ReflTransGen.cases_head h with h | ⟨_, hstep, _⟩
  · cases h
  · cases hstep

theorem StartsWith.head (hne : ∀ A rhs, P A rhs → rhs ≠ []) {b a : S} {u : List S}
    (h : StartsWith P (b :: u) a) : StartsWith P [b] a :=
  @StartsWith.induction S P hne (fun c => StartsWith P [c] a) a (StartsWith.self a [])
    (fun _ _ _ hrule hb => StartsWith.rule hrule hb) b u h

/-- `X` stands right before `Y`. -/
def Adjacent (X Y : S) (u : List S) : Prop := ∃ i, u[i]? = some X ∧ u[i + 1]? = some Y

theorem adjacent_iff {X Y : S} {u : List S} :
    Adjacent X Y u ↔ ∃ pre post, u = pre ++ X :: Y :: post := by
  constructor
  · rintro ⟨i, hX, hY⟩
    obtain ⟨hi, rfl⟩ := List.getElem?_eq_some_iff.mp hX
    obtain ⟨hj, rfl⟩ := List.getElem?_eq_some_iff.mp hY
    refine ⟨u.take i, u.drop (i + 2), ?_⟩
    rw [List.getElem_cons_drop, List.getElem_cons_drop, List.take_append_drop]
  · rintro ⟨pre, post, rfl⟩
    use pre.length
    simp

/-- A step makes neighbours of the symbols of the right side, and of its ends with what stood
before and after the left side; the other neighbours were there before. -/
theorem Adjacent.of_produces (hne : ∀ A rhs, P A rhs → rhs ≠ []) {X Y : S} {u v : List S}
    (hstep : Produces P u v) (h : Adjacent X Y v) :
    Adjacent X Y u ∨ (∃ A rhs, P A rhs ∧ Adjacent X Y rhs) ∨
      (∃ A rest, P A (Y :: rest) ∧ Adjacent X A u) ∨
      ∃ A init, P A (init ++ [X]) ∧ Adjacent A Y u := by
  cases hstep with
  | @rule A rhs pre post hrule =>
    have hpos : 0 < rhs.length := List.length_pos_iff.mpr (hne A rhs hrule)
    obtain ⟨i, hX, hY⟩ := h
    rw [List.append_assoc] at hX hY
    rcases lt_trichotomy (i + 1) pre.length with hi | hi | hi
    · left
      rw [List.getElem?_append_left (by omega)] at hX hY
      refine ⟨i, ?_, ?_⟩
      · rw [List.getElem?_append_left (by omega), hX]
      · rw [List.getElem?_append_left hi, hY]
    · -- the last symbol before the left side, and the first one of the right side
      right; right; left
      rw [List.getElem?_append_left (by omega)] at hX
      rw [List.getElem?_append_right (by omega), hi, Nat.sub_self,
        List.getElem?_append_left hpos] at hY
      cases rhs with
      | nil => exact absurd rfl (hne A [] hrule)
      | cons y rest =>
        have hy : y = Y := by simpa using hY
        subst hy
        refine ⟨A, rest, hrule, i, ?_, ?_⟩
        · rw [List.getElem?_append_left (by omega), hX]
        · rw [List.getElem?_append_right (by omega), hi, Nat.sub_self]
          rfl
    · rw [List.getElem?_append_right (by omega)] at hX hY
      rcases lt_trichotomy (i + 1) (pre.length + rhs.length) with hj | hj | hj
      · right; left
        rw [List.getElem?_append_left (by omega)] at hX hY
        refine ⟨A, rhs, hrule, i - pre.length, hX, ?_⟩
        rw [← hY]
        congr 1
        omega
      · -- the last symbol of the right side, and the first one after the left side
        right; right; right
        rw [List.getElem?_append_left (by omega)] at hX
        rw [List.getElem?_append_right (by omega)] at hY
        obtain ⟨hlt, hlast⟩ := List.getElem?_eq_some_iff.mp hX
        have hsplit : rhs = rhs.take (i - pre.length) ++ [X] := by
          have hdrop : rhs.drop (i - pre.length) = [X] := by
            rw [List.drop_eq_getElem_cons hlt, hlast, List.drop_eq_nil_of_le (by omega)]
          rw [← hdrop, List.take_append_drop]
        rw [hsplit] at hrule
        refine ⟨A, _, hrule, pre.length, by simp, ?_⟩
        rw [List.getElem?_append_right (by omega), ← hY]
        have hzero : i + 1 - pre.length - rhs.length = 0 := by omega
        rw [hzero, Nat.add_sub_cancel_left]
        rfl
      · left
        rw [List.getElem?_append_right (by omega)] at hX hY
        refine ⟨i + 1 - rhs.length, ?_, ?_⟩
        · rw [List.getElem?_append_right (by omega), ← hX]
          have hshift : i + 1 - rhs.length - pre.length = i - pre.length - rhs.length + 1 := by
            omega
          rw [hshift, List.getElem?_cons_succ]
        · rw [List.getElem?_append_right (by omega), ← hY]
          have hshift : i + 1 - rhs.length + 1 - pre.length =
              i + 1 - pre.length - rhs.length + 1 := by omega
          rw [hshift, List.getElem?_cons_succ]

theorem Adjacent.of_derives (hne : ∀ A rhs, P A rhs → rhs ≠ []) {Q : S → S → Prop}
    (hinner : ∀ A rhs X Y, P A rhs → Adjacent X Y rhs → Q X Y)
    (hfirst : ∀ A Y rest X, P A (Y :: rest) → Q X A → Q X Y)
    (hlast : ∀ A X init Y, P A (init ++ [X]) → Q A Y → Q X Y) {C : S} {u : List S}
    (h : Derives P [C] u) : ∀ X Y, Adjacent X Y u → Q X Y := by
  induction h with
  | refl =>
    rintro X Y ⟨i, _, hY⟩
    simp at hY
  | tail _ hstep ih =>
    intro X Y hadj
    rcases hadj.of_produces hne hstep with h | ⟨A, rhs, hrule, h⟩ | ⟨A, rest, hrule, h⟩ |
      ⟨A, init, hrule, h⟩
    · exact ih X Y h
    · exact hinner A rhs X Y hrule h
    · exact hfirst A Y rest X hrule (ih X A h)
    · exact hlast A X init Y hrule (ih A Y h)

end Cfg
