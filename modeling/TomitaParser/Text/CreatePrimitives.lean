import Mathlib.Data.List.DropRight
import Mathlib.Data.List.TakeWhile
import TomitaParser.Text.Primitives
/-! # The primitives of a text

`createPrimitives` cuts a text into primitives by the classes of its characters. -/

namespace TomitaParser.Text

/-- The letters of the table of character types. -/
inductive CharClass
  | remove
  | unknown
  | newLine
  | space
  | punct
  | symbol
  | digit
  | upper
  | lower
  | altUpper
  | altLower
deriving DecidableEq, Repr

/-- The type of the primitive that a character begins. -/
def CharClass.typ : CharClass → TypeOfPrim
  | .remove => .newLine
  | .unknown => .unknownPrim
  | .newLine => .newLine
  | .space => .space
  | .punct => .punct
  | .symbol => .symbol
  | .digit => .digit
  | .upper => .word
  | .lower => .word
  | .altUpper => .altWord
  | .altLower => .altWord

variable (charType : ℕ → CharClass)

/-- The loop over the characters behind the first one of a primitive. -/
def continuesPrimitive (first ch : ℕ) : Bool :=
  match charType first with
  | .remove => false
  | .unknown => charType ch = .unknown
  | .newLine => false
  | .space => charType ch = .space
  | .punct => false
  | .symbol => charType ch = .symbol && ch ≠ '&'.toNat
  | .digit => charType ch = .digit
  | .upper => charType ch = .upper || charType ch = .lower
  | .lower => charType ch = .upper || charType ch = .lower
  | .altUpper => charType ch = .altUpper || charType ch = .altLower
  | .altLower => charType ch = .altUpper || charType ch = .altLower

/-- The characters of a primitive. Behind those of a symbol the characters to remove are cut off. -/
def primitiveText (first : ℕ) (rest : List ℕ) : List ℕ :=
  let text := first :: rest.takeWhile (continuesPrimitive charType first)
  if charType first = .symbol then text.rdropWhile fun ch => charType ch = .remove else text

/-- A character to remove is a new line, unless it is the last one or in front of one. -/
def removedPrimitive (pos : ℕ) (rest : List ℕ) : List Primitive :=
  match rest with
  | [] => []
  | next :: _ => if charType next ≠ .newLine then [⟨.newLine, pos, 1⟩] else []

/-- `createPrimitives`, for so many characters at most. -/
def primitivesFrom : ℕ → ℕ → List ℕ → List Primitive
  | 0, _, _ => []
  | _ + 1, _, [] => []
  | fuel + 1, pos, first :: rest =>
    if charType first = .remove then
      removedPrimitive charType pos rest ++ primitivesFrom fuel (pos + 1) rest
    else
      let len := (primitiveText charType first rest).length
      ⟨(charType first).typ, pos, len⟩ ::
        primitivesFrom fuel (pos + len) ((first :: rest).drop len)

def createPrimitives (strFrom : ℕ) (text : List ℕ) : List Primitive :=
  primitivesFrom charType text.length strFrom text

/-- The primitive has the character at the position. -/
def Primitive.Covers (p : Primitive) (pos : ℕ) : Prop := p.pos ≤ pos ∧ pos < p.pos + p.len

/-- Where a character is in primitives: a character to remove at most in a new line of its own, and
every other one in a primitive. -/
def CoveredAt (primitives : List Primitive) (pos : ℕ) (ch : ℕ) : Prop :=
  if charType ch = .remove then
    ∀ p ∈ primitives, p.Covers pos → p = ⟨.newLine, pos, 1⟩
  else ∃ p ∈ primitives, p.Covers pos

/-- The primitives lie in the text from one position up to another, in order and one behind the
other, and cover its characters. -/
structure Tiling (strFrom : ℕ) (text : List ℕ) (primitives : List Primitive) : Prop where
  inside : ∀ p ∈ primitives, strFrom ≤ p.pos ∧ 0 < p.len ∧ p.pos + p.len ≤ strFrom + text.length
  ordered : primitives.Pairwise fun p q => p.pos + p.len ≤ q.pos
  covered : ∀ i ch, text[i]? = some ch → CoveredAt charType primitives (strFrom + i) ch

variable {charType}

theorem tiling_nil (strFrom : ℕ) : Tiling charType strFrom [] [] where
  inside := by simp
  ordered := List.Pairwise.nil
  covered := by simp

theorem ne_remove_of_continues {first ch : ℕ}
    (h : continuesPrimitive charType first ch = true) : charType ch ≠ .remove := by
  intro hremove
  rw [continuesPrimitive, hremove] at h
  cases hfirst : charType first <;> simp [hfirst] at h

theorem primitiveText_eq (first : ℕ) (rest : List ℕ) (h : charType first ≠ .remove) :
    primitiveText charType first rest =
      first :: rest.takeWhile (continuesPrimitive charType first) := by
  rw [primitiveText]
  have hlast : ∀ ch ∈ first :: rest.takeWhile (continuesPrimitive charType first),
      charType ch ≠ .remove := by
    intro ch hch
    rcases List.mem_cons.mp hch with rfl | hch
    · exact h
    · exact ne_remove_of_continues (List.mem_takeWhile_imp hch)
  split_ifs
  · rw [List.rdropWhile_eq_self_iff]
    intro hne
    simpa using hlast _ (List.getLast_mem hne)
  · rfl

theorem primitiveText_prefix (first : ℕ) (rest : List ℕ) (h : charType first ≠ .remove) :
    primitiveText charType first rest <+: first :: rest := by
  rw [primitiveText_eq first rest h, List.cons_prefix_cons]
  exact ⟨rfl, List.takeWhile_prefix _⟩

theorem ne_remove_of_mem_primitiveText {first : ℕ} {rest : List ℕ}
    (h : charType first ≠ .remove) {ch : ℕ} (hch : ch ∈ primitiveText charType first rest) :
    charType ch ≠ .remove := by
  rw [primitiveText_eq first rest h] at hch
  rcases List.mem_cons.mp hch with rfl | hch
  · exact h
  · exact ne_remove_of_continues (List.mem_takeWhile_imp hch)

/-- A character to remove in front of a text. -/
theorem Tiling.removed {strFrom first : ℕ} {rest : List ℕ} {primitives : List Primitive}
    (h : Tiling charType (strFrom + 1) rest primitives) (hremove : charType first = .remove) :
    Tiling charType strFrom (first :: rest)
      (removedPrimitive charType strFrom rest ++ primitives) := by
  have hremoved : ∀ p ∈ removedPrimitive charType strFrom rest, p = ⟨.newLine, strFrom, 1⟩ := by
    intro p hp
    cases rest with
    | nil => cases hp
    | cons next rest =>
      rw [removedPrimitive] at hp
      split_ifs at hp
      · exact List.mem_singleton.mp hp
      · cases hp
  constructor
  · intro p hp
    rcases List.mem_append.mp hp with hp | hp
    · rw [hremoved p hp, List.length_cons]
      exact ⟨le_rfl, Nat.one_pos, by show strFrom + 1 ≤ _; omega⟩
    · have hinside := h.inside p hp
      rw [List.length_cons]
      omega
  · rw [List.pairwise_append]
    refine ⟨?_, h.ordered, ?_⟩
    · cases rest with
      | nil => exact List.Pairwise.nil
      | cons next rest =>
        rw [removedPrimitive]
        split_ifs
        · exact List.pairwise_singleton _ _
        · exact List.Pairwise.nil
    · intro p hp q hq
      rw [hremoved p hp]
      exact (h.inside q hq).1
  · intro i ch hch
    cases i with
    | zero =>
      rw [List.getElem?_cons_zero, Option.some.injEq] at hch
      rw [CoveredAt, ← hch, if_pos hremove]
      intro p hp hcovers
      rcases List.mem_append.mp hp with hp | hp
      · exact hremoved p hp
      · have hinside := h.inside p hp
        have hle := hcovers.1
        omega
    | succ i =>
      rw [List.getElem?_cons_succ] at hch
      have hcovered := h.covered i ch hch
      have hpos : strFrom + 1 + i = strFrom + (i + 1) := by omega
      rw [hpos] at hcovered
      rw [CoveredAt] at hcovered ⊢
      split_ifs at hcovered ⊢
      · intro p hp hcovers
        rcases List.mem_append.mp hp with hp | hp
        · rw [hremoved p hp] at hcovers
          have hlt : strFrom + (i + 1) < strFrom + 1 := hcovers.2
          omega
        · exact hcovered p hp hcovers
      · obtain ⟨p, hp, hcovers⟩ := hcovered
        exact ⟨p, List.mem_append_right _ hp, hcovers⟩

/-- A primitive in front of a text. -/
theorem Tiling.cons {strFrom : ℕ} {taken rest : List ℕ} {primitives : List Primitive}
    (h : Tiling charType (strFrom + taken.length) rest primitives) (hne : taken ≠ [])
    (htaken : ∀ ch ∈ taken, charType ch ≠ .remove) (typ : TypeOfPrim) :
    Tiling charType strFrom (taken ++ rest) (⟨typ, strFrom, taken.length⟩ :: primitives) := by
  have hpos := List.length_pos_iff.mpr hne
  constructor
  · intro p hp
    rw [List.length_append]
    rcases List.mem_cons.mp hp with rfl | hp
    · exact ⟨le_rfl, hpos, by show strFrom + taken.length ≤ _; omega⟩
    · have hinside := h.inside p hp
      omega
  · exact List.pairwise_cons.mpr ⟨fun q hq => (h.inside q hq).1, h.ordered⟩
  · intro i ch hch
    by_cases hi : i < taken.length
    · rw [List.getElem?_append_left hi] at hch
      have hnot := htaken ch (List.mem_of_getElem? hch)
      rw [CoveredAt, if_neg hnot]
      exact ⟨_, List.mem_cons_self, Nat.le_add_right _ _, by show _ < strFrom + taken.length; omega⟩
    · rw [List.getElem?_append_right (not_lt.mp hi)] at hch
      have hcovered := h.covered _ ch hch
      have hsum : strFrom + taken.length + (i - taken.length) = strFrom + i := by omega
      rw [hsum] at hcovered
      rw [CoveredAt] at hcovered ⊢
      split_ifs at hcovered ⊢
      · intro p hp hcovers
        rcases List.mem_cons.mp hp with rfl | hp
        · have hlt : strFrom + i < strFrom + taken.length := hcovers.2
          omega
        · exact hcovered p hp hcovers
      · obtain ⟨p, hp, hcovers⟩ := hcovered
        exact ⟨p, List.mem_cons_of_mem _ hp, hcovers⟩

theorem tiling_primitivesFrom : ∀ (fuel : ℕ) (strFrom : ℕ) (text : List ℕ), text.length ≤ fuel →
    Tiling charType strFrom text (primitivesFrom charType fuel strFrom text) := by
  intro fuel
  induction fuel with
  | zero =>
    intro strFrom text hlen
    rw [List.length_eq_zero_iff.mp (by omega : text.length = 0)]
    exact tiling_nil strFrom
  | succ fuel ih =>
    intro strFrom text hlen
    cases text with
    | nil => exact tiling_nil strFrom
    | cons first rest =>
      rw [List.length_cons] at hlen
      rw [primitivesFrom]
      by_cases hremove : charType first = .remove
      · rw [if_pos hremove]
        exact (ih (strFrom + 1) rest (by omega)).removed hremove
      · rw [if_neg hremove]
        dsimp only
        obtain ⟨left, hleft⟩ := primitiveText_prefix first rest hremove
        have hne : primitiveText charType first rest ≠ [] := by
          rw [primitiveText_eq first rest hremove]
          exact List.cons_ne_nil _ _
        have hdrop : (first :: rest).drop (primitiveText charType first rest).length = left := by
          rw [← hleft, List.drop_left]
        have hlength := congrArg List.length hleft
        have hpos := List.length_pos_iff.mpr hne
        rw [List.length_append, List.length_cons] at hlength
        rw [hdrop]
        have htiling := (ih (strFrom + (primitiveText charType first rest).length) left
          (by omega)).cons hne (fun ch hch => ne_remove_of_mem_primitiveText hremove hch)
          (charType first).typ
        rw [hleft] at htiling
        exact htiling

theorem tiling_createPrimitives (strFrom : ℕ) (text : List ℕ) :
    Tiling charType strFrom text (createPrimitives charType strFrom text) :=
  tiling_primitivesFrom text.length strFrom text le_rfl

end TomitaParser.Text
