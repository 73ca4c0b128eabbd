import TomitaParser.Lib.BigEndian
/-! # The keys of a compact trie

A key is a string of symbols, each of one byte or more. The builder stores the bytes of the
symbols, the highest byte of each first, and a zero byte for the empty key. -/

namespace TomitaParser.Comptrie
variable {extra : ℕ}

/-- A symbol, which takes `extra` bytes besides the last one. -/
abbrev Symbol (extra : ℕ) := Fin (256 ^ (extra + 1))

/-- The bytes of a symbol, as the shifts from `ExtraBits` down to zero give them. -/
def symbolBytes (label : Symbol extra) : List ℕ :=
  BigEndian.bytes (extra + 1) label.val

def convertSymbolArrayToChar (key : List (Symbol extra)) : List ℕ :=
  key.flatMap symbolBytes

/-- The bytes by which a key is found in the arcs. -/
def storedKey (key : List (Symbol extra)) : List ℕ :=
  if key = [] then [0] else convertSymbolArrayToChar key

/-- The empty key and the key of one zero symbol. -/
def IsZeroKey (key : List (Symbol extra)) : Prop :=
  key = [] ∨ key.map Fin.val = [0]

/-- Keys that are not told apart: for symbols of one byte the empty key is that of a zero symbol. -/
def SameKey (key other : List (Symbol extra)) : Prop :=
  key = other ∨ extra = 0 ∧ IsZeroKey key ∧ IsZeroKey other

@[simp]
theorem length_symbolBytes (label : Symbol extra) : (symbolBytes label).length = extra + 1 :=
  BigEndian.length_bytes _ _

theorem symbolBytes_injective : Function.Injective (@symbolBytes extra) := by
  intro a b h
  exact Fin.ext (BigEndian.bytes_injective a.isLt b.isLt h)

theorem convert_cons (label : Symbol extra) (key : List (Symbol extra)) :
    convertSymbolArrayToChar (label :: key) =
      symbolBytes label ++ convertSymbolArrayToChar key :=
  List.flatMap_cons

theorem convert_ne_nil {key : List (Symbol extra)} (h : key ≠ []) :
    convertSymbolArrayToChar key ≠ [] := by
  cases key with
  | nil => exact absurd rfl h
  | cons label key =>
    intro hnil
    have hlen := congrArg List.length hnil
    simp [convert_cons] at hlen

theorem convert_injective : Function.Injective (@convertSymbolArrayToChar extra) := by
  intro key
  induction key with
  | nil =>
    intro other h
    by_contra hne
    exact convert_ne_nil (fun hnil => hne hnil.symm) h.symm
  | cons label key ih =>
    intro other h
    cases other with
    | nil => exact absurd h (convert_ne_nil (List.cons_ne_nil _ _))
    | cons label' other =>
      rw [convert_cons, convert_cons] at h
      obtain ⟨hlabel, hkey⟩ := List.append_inj h (by simp)
      rw [symbolBytes_injective hlabel, ih hkey]

theorem convert_eq_zero_iff (key : List (Symbol extra)) :
    convertSymbolArrayToChar key = [0] ↔ extra = 0 ∧ key.map Fin.val = [0] := by
  cases key with
  | nil => simp [convertSymbolArrayToChar]
  | cons label key =>
    rw [convert_cons]
    constructor
    · intro h
      have hlen := congrArg List.length h
      simp only [List.length_append, length_symbolBytes, List.length_singleton] at hlen
      have hextra : extra = 0 := by omega
      have hkey : key = [] := by
        by_contra hne
        have := List.length_pos_iff.mpr (convert_ne_nil hne)
        omega
      subst hextra hkey
      have hlt := label.isLt
      simp [symbolBytes, BigEndian.bytes, convertSymbolArrayToChar] at h
      simp only [List.map_cons, List.map_nil, List.cons.injEq, and_true, true_and]
      omega
    · rintro ⟨rfl, h⟩
      simp only [List.map_cons, List.cons.injEq, List.map_eq_nil_iff] at h
      simp [symbolBytes, BigEndian.bytes, convertSymbolArrayToChar, h]

theorem storedKey_eq_iff (key other : List (Symbol extra)) :
    storedKey key = storedKey other ↔ SameKey key other := by
  rw [storedKey, storedKey, SameKey, IsZeroKey, IsZeroKey]
  by_cases hkey : key = []
  · by_cases hother : other = []
    · simp [hkey, hother]
    · rw [if_pos hkey, if_neg hother, eq_comm, convert_eq_zero_iff]
      simp [hkey, hother]
  · by_cases hother : other = []
    · rw [if_neg hkey, if_pos hother, convert_eq_zero_iff]
      simp [hkey, hother]
    · rw [if_neg hkey, if_neg hother]
      constructor
      · intro h
        exact Or.inl (convert_injective h)
      · rintro (h | ⟨hextra, h, h'⟩)
        · rw [h]
        · rw [(convert_eq_zero_iff key).mpr ⟨hextra, h.resolve_left hkey⟩,
            (convert_eq_zero_iff other).mpr ⟨hextra, h'.resolve_left hother⟩]

end TomitaParser.Comptrie
