import TomitaParser.Lib.Derivation
/-! # Completeness of an LR-driven graph

A graph whose vertices carry LR items, closed under the moves of an LR parser with one symbol of
look-ahead, has a path for every derivation that starts at one of its vertices. -/

namespace Cfg

/-- Vertices of type `N` with the items of their states; `edge u i X v j` is labelled by a symbol
read from position `i` to position `j`. -/
structure LrGraph (S N : Type*) where
  item : N → S → List S → List S → Prop
  node : ℕ → N → Prop
  edge : N → ℕ → S → N → ℕ → Prop
  first : S → S → Prop
  follow : S → S → Prop

namespace LrGraph
variable {S N : Type*} (G : LrGraph S N)

/-- The edges met while reading a list of symbols. -/
inductive Path : N → ℕ → List S → N → ℕ → Prop where
  | nil (u : N) (i : ℕ) : Path u i [] u i
  | cons {u w v : N} {X : S} {β : List S} {i j k : ℕ} (h : G.edge u i X w j)
      (rest : Path w j β v k) : Path u i (X :: β) v k

/-- Terminals that may come after the dot symbol of an item of `A` whose tail is `β`. -/
def Next (A : S) : List S → S → Prop
  | [], a => G.follow A a
  | b :: _, a => G.first b a

/-- The moves the graph is closed under: `T i a` reads the terminal `a` at `i` and `look i a`
allows it as look-ahead there. -/
structure Closed (P : S → List S → Prop) (T look : ℕ → S → Prop) : Prop where
  nonempty : ∀ A rhs, P A rhs → rhs ≠ []
  look_of_tok : ∀ i a, T i a → look i a
  first_tok : ∀ i a, T i a → G.first a a
  first_rule : ∀ A b rhs a, P A (b :: rhs) → G.first b a → G.first A a
  follow_next : ∀ u A α B β a rhs, G.item u A α (B :: β) → P B rhs → G.Next A β a → G.follow B a
  closure : ∀ u A α B β rhs, G.item u A α (B :: β) → P B rhs → G.item u B [] rhs
  shift : ∀ u i A α a β, G.node i u → G.item u A α (a :: β) → T i a →
    ∃ v, G.node (i + 1) v ∧ G.edge u i a v (i + 1) ∧ G.item v A (α ++ [a]) β
  reduce : ∀ u i A α B β rhs v j a, G.node i u → G.item u A α (B :: β) → P B rhs →
    G.Path u i rhs v j → G.node j v → G.item v B rhs [] → G.follow B a → look j a →
    ∃ w, G.node j w ∧ G.edge u i B w j ∧ G.item w A (α ++ [B]) β

variable {G} {P : S → List S → Prop} {T look : ℕ → S → Prop}

theorem Closed.exists_first (hG : G.Closed P T look) {b : S} {u : List S} {i k : ℕ}
    (h : Spans P T (b :: u) i k) : ∃ a, T i a ∧ G.first b a := by
  generalize hv : b :: u = v at h
  induction h generalizing b u with
  | nil i => cases hv
  | tok h _ _ =>
    cases hv
    exact ⟨_, h, hG.first_tok _ _ h⟩
  | @rule A rhs u i j k h _ _ ih _ =>
    cases hv
    cases rhs with
    | nil => exact absurd rfl (hG.nonempty _ _ h)
    | cons c rhs =>
      obtain ⟨a, ht, hf⟩ := ih rfl
      exact ⟨a, ht, hG.first_rule _ _ _ _ h hf⟩

theorem Closed.exists_follow (hG : G.Closed P T look) {u : N} {A B : S} {α β₁ β₂ rhs : List S}
    {j k : ℕ} {a : S} (hitem : G.item u A α (B :: (β₁ ++ β₂))) (hB : P B rhs)
    (hspan : Spans P T β₁ j k) (hnext : G.Next A β₂ a) (hlook : look k a) :
    ∃ a, G.follow B a ∧ look j a := by
  cases β₁ with
  | nil =>
    cases hspan
    exact ⟨a, hG.follow_next u A α B β₂ a rhs hitem hB hnext, hlook⟩
  | cons b β₁ =>
    obtain ⟨c, ht, hf⟩ := hG.exists_first hspan
    exact ⟨c, hG.follow_next u A α B _ c rhs hitem hB hf, hG.look_of_tok _ _ ht⟩

theorem Closed.exists_path (hG : G.Closed P T look) {β₁ : List S} {i k : ℕ}
    (hspan : Spans P T β₁ i k) (u : N) (A : S) (α β₂ : List S) (a : S) (hu : G.node i u)
    (hitem : G.item u A α (β₁ ++ β₂)) (hnext : G.Next A β₂ a) (hlook : look k a) :
    ∃ v, G.node k v ∧ G.Path u i β₁ v k ∧ G.item v A (α ++ β₁) β₂ := by
  induction hspan generalizing u A α β₂ a with
  | nil i => exact ⟨u, hu, Path.nil u i, by simpa using hitem⟩
  | tok ht _ ih =>
    obtain ⟨w, hw, he, hi⟩ := hG.shift _ _ _ _ _ _ hu hitem ht
    obtain ⟨v, hv, hp, hi⟩ := ih w A _ β₂ a hw hi hnext hlook
    exact ⟨v, hv, Path.cons he hp, by simpa using hi⟩
  | rule h _ hrest ihsub ihrest =>
    -- the body of the rule is traced from the same vertex, then reduced over the whole path
    obtain ⟨c, hfollow, hc⟩ := hG.exists_follow hitem h hrest hnext hlook
    have hbody := hG.closure _ _ _ _ _ _ hitem h
    obtain ⟨x, hx, hp, hi⟩ := ihsub u _ [] [] c hu (by simpa using hbody) hfollow hc
    obtain ⟨w, hw, he, hi⟩ := hG.reduce _ _ _ _ _ _ _ _ _ c hu hitem h hp hx hi hfollow hc
    obtain ⟨v, hv, hp, hi⟩ := ihrest w A _ β₂ a hw hi hnext hlook
    exact ⟨v, hv, Path.cons he hp, by simpa using hi⟩

end LrGraph
end Cfg
