import Mathlib.Logic.Relation
import Mathlib.Data.Nat.Basic
import Mathlib.Tactic.Basic
/-! # Derivations of a context-free grammar

The grammar is given by its productions `P A rhs` over one type of symbols; terminals are told
apart by a predicate where it matters. -/

namespace Cfg
variable {S : Type*} {P : S → List S → Prop}

/-- One rewriting step of a sentential form. -/
inductive Produces (P : S → List S → Prop) : List S → List S → Prop where
  | rule {A : S} {rhs : List S} (pre post : List S) (h : P A rhs) :
      Produces P (pre ++ A :: post) (pre ++ rhs ++ post)

/-- `Derives P u v`: some number of rewriting steps lead from `u` to `v`. -/
def Derives (P : S → List S → Prop) : List S → List S → Prop :=
  Relation.ReflTransGen (Produces P)

/-- `Yields P u t`: a forest over `u` whose frontier is `t`. -/
inductive Yields (P : S → List S → Prop) : List S → List S → Prop where
  | nil : Yields P [] []
  | keep {u t : List S} (a : S) (rest : Yields P u t) : Yields P (a :: u) (a :: t)
  | rule {A : S} {rhs u s t : List S} (h : P A rhs) (sub : Yields P rhs s)
      (rest : Yields P u t) : Yields P (A :: u) (s ++ t)

theorem Yields.refl (u : List S) : Yields P u u := by
  induction u with
  | nil => exact Yields.nil
  | cons a u ih => exact Yields.keep a ih

theorem Yields.append {u v s t : List S} (hu : Yields P u s) (hv : Yields P v t) :
    Yields P (u ++ v) (s ++ t) := by
  induction hu with
  | nil => exact hv
  | keep a rest ih => exact Yields.keep a ih
  | rule h sub rest _ ih =>
    rw [List.append_assoc]
    exact Yields.rule h sub ih

theorem Yields.append_inv {u v r : List S} (h : Yields P (u ++ v) r) :
    ∃ s t, r = s ++ t ∧ Yields P u s ∧ Yields P v t := by
  induction u generalizing r with
  | nil => exact ⟨[], r, rfl, Yields.nil, h⟩
  | cons a u ih =>
    cases h with
    | keep _ rest =>
      obtain ⟨s, t, rfl, hs, ht⟩ := ih rest
      exact ⟨a :: s, t, rfl, Yields.keep a hs, ht⟩
    | @rule _ _ _ s' _ h sub rest =>
      obtain ⟨s, t, rfl, hs, ht⟩ := ih rest
      exact ⟨s' ++ s, t, (List.append_assoc _ _ _).symm, Yields.rule h sub hs, ht⟩

theorem Derives.yields {u t : List S} (h : Derives P u t) : Yields P u t := by
  induction h using Relation.ReflTransGen.head_induction_on with
  | refl => exact Yields.refl t
  | head hstep _ ih =>
    obtain ⟨pre, post, hrule⟩ := hstep
    obtain ⟨r, t₃, rfl, hr, h₃⟩ := ih.append_inv
    obtain ⟨t₁, t₂, rfl, h₁, h₂⟩ := hr.append_inv
    rw [List.append_assoc]
    exact h₁.append (Yields.rule hrule h₂ h₃)

theorem Derives.congr {u v : List S} (h : Derives P u v) (pre post : List S) :
    Derives P (pre ++ u ++ post) (pre ++ v ++ post) := by
  induction h with
  | refl => exact Relation.ReflTransGen.refl
  | tail _ hstep ih =>
    refine ih.tail ?_
    obtain ⟨p, q, hrule⟩ := hstep
    simpa using Produces.rule (P := P) (pre ++ p) (q ++ post) hrule

theorem Yields.derives {u t : List S} (h : Yields P u t) : Derives P u t := by
  induction h with
  | nil => exact Relation.ReflTransGen.refl
  | keep a _ ih => simpa using ih.congr [a] []
  | @rule A rhs u s t h _ _ ihs iht =>
    refine Relation.ReflTransGen.head (Produces.rule [] u h) ?_
    have h₁ : Derives P (rhs ++ u) (s ++ u) := by simpa using ihs.congr [] u
    have h₂ : Derives P (s ++ u) (s ++ t) := by simpa using iht.congr s []
    exact h₁.trans h₂

theorem Derives.forall {Q : S → Prop} (hQ : ∀ A rhs, P A rhs → ∀ a ∈ rhs, Q a) {u t : List S}
    (h : Derives P u t) (hu : ∀ a ∈ u, Q a) : ∀ a ∈ t, Q a := by
  induction h with
  | refl => exact hu
  | tail _ hstep ih =>
    obtain ⟨pre, post, hrule⟩ := hstep
    intro a ha
    simp only [List.mem_append, List.mem_cons] at ha ih
    rcases ha with (ha | ha) | ha
    · exact ih a (Or.inl ha)
    · exact hQ _ _ hrule a ha
    · exact ih a (Or.inr (Or.inr ha))

/-- `Spans P T u i j`: the symbols `u` derive some reading of the input from position `i` to
position `j`, where `T k a` says that the input at `k` may be read as the terminal `a`. -/
inductive Spans (P : S → List S → Prop) (T : ℕ → S → Prop) : List S → ℕ → ℕ → Prop where
  | nil (i : ℕ) : Spans P T [] i i
  | tok {a : S} {u : List S} {i k : ℕ} (h : T i a) (rest : Spans P T u (i + 1) k) :
      Spans P T (a :: u) i k
  | rule {A : S} {rhs u : List S} {i j k : ℕ} (h : P A rhs) (sub : Spans P T rhs i j)
      (rest : Spans P T u j k) : Spans P T (A :: u) i k

variable {T : ℕ → S → Prop}

theorem Spans.append {u v : List S} {i j k : ℕ} (hu : Spans P T u i j) (hv : Spans P T v j k) :
    Spans P T (u ++ v) i k := by
  induction hu with
  | nil i => exact hv
  | tok h _ ih => exact Spans.tok h (ih hv)
  | rule h sub _ _ ih => exact Spans.rule h sub (ih hv)

theorem Spans.mono {P' : S → List S → Prop} {T' : ℕ → S → Prop} {u : List S} {i j : ℕ}
    (hP : ∀ A rhs, P A rhs → P' A rhs) (hT : ∀ k a, T k a → T' k a) (h : Spans P T u i j) :
    Spans P' T' u i j := by
  induction h with
  | nil i => exact Spans.nil i
  | tok h _ ih => exact Spans.tok (hT _ _ h) ih
  | rule h _ _ ihs ihr => exact Spans.rule (hP _ _ h) ihs ihr

/-- A span is a derivation of a string that the input can be read as there; what holds of all symbols
of the right parts holds of that string. -/
theorem Spans.yields {Q : S → Prop} (hQ : ∀ A rhs, P A rhs → ∀ a ∈ rhs, Q a) {u : List S} {i j : ℕ}
    (h : Spans P T u i j) (hu : ∀ a ∈ u, Q a) :
    ∃ t, Yields P u t ∧ i + t.length = j ∧ ∀ k (hk : k < t.length), T (i + k) t[k] ∧ Q t[k] := by
  induction h with
  | nil i => exact ⟨[], Yields.nil, rfl, fun k hk => absurd hk (Nat.not_lt_zero k)⟩
  | @tok a u i k h _ ih =>
    obtain ⟨t, ht, hlen, hread⟩ := ih fun b hb => hu b (List.mem_cons_of_mem _ hb)
    refine ⟨a :: t, Yields.keep a ht, ?_, ?_⟩
    · rw [List.length_cons]
      omega
    · intro k hk
      cases k with
      | zero => exact ⟨h, hu a List.mem_cons_self⟩
      | succ k =>
        have hk' : k < t.length := Nat.lt_of_succ_lt_succ hk
        rw [show i + (k + 1) = i + 1 + k by omega]
        exact hread k hk'
  | @rule A rhs u i j k h _ _ ihs ihr =>
    obtain ⟨s, hs, hslen, hsread⟩ := ihs (hQ A rhs h)
    obtain ⟨t, ht, htlen, htread⟩ := ihr fun b hb => hu b (List.mem_cons_of_mem _ hb)
    refine ⟨s ++ t, Yields.rule h hs ht, ?_, ?_⟩
    · rw [List.length_append]
      omega
    · intro k hk
      by_cases hks : k < s.length
      · rw [List.getElem_append_left hks]
        exact hsread k hks
      · rw [List.length_append] at hk
        rw [List.getElem_append_right (by omega), show i + k = j + (k - s.length) by omega]
        exact htread (k - s.length) (by omega)

theorem Yields.spans {u t : List S} (h : Yields P u t) (i : ℕ)
    (hT : ∀ k (hk : k < t.length), T (i + k) (t[k])) : Spans P T u i (i + t.length) := by
  induction h generalizing i with
  | nil => exact Spans.nil i
  | @keep u t a _ ih =>
    have h0 : T i a := hT 0 (by simp)
    have hr := ih (i + 1) fun k hk => by
      have := hT (k + 1) (by simpa using hk)
      simpa [Nat.add_assoc, Nat.add_comm 1 k] using this
    have he : i + (a :: t).length = i + 1 + t.length := by simp only [List.length_cons]; omega
    rw [he]
    exact Spans.tok h0 hr
  | @rule A rhs u s t h _ _ ihs iht =>
    have hs := ihs i fun k hk => by
      have := hT k (by rw [List.length_append]; omega)
      rwa [List.getElem_append_left hk] at this
    have ht := iht (i + s.length) fun k hk => by
      have := hT (s.length + k) (by rw [List.length_append]; omega)
      rw [List.getElem_append_right (by omega)] at this
      simpa [Nat.add_assoc] using this
    rw [List.length_append, ← Nat.add_assoc]
    exact Spans.rule h hs ht

end Cfg
