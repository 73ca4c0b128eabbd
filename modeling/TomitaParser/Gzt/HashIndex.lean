import TomitaParser.Lib.OrderedSet
/-! # Hash index

The index by which a store finds an equal set that it already holds. A set may change after it was
filed, so a bucket can hold positions whose sets belong elsewhere by now. -/

namespace TomitaParser.Gzt
open OrderedSet

/-- `__y_prime_list`. -/
def primeList : List ℕ :=
  [7, 17, 29, 53, 97, 193, 389, 769, 1543, 3079, 6151, 12289, 24593, 49157, 98317, 196613, 393241,
    786433, 1572869, 3145739, 6291469, 12582917, 25165843, 50331653, 100663319, 201326611,
    402653189, 805306457, 1610612741, 3221225473, 4294967291]

/-- `TPrimeSize`: how many keys are filed, and the position of the bucket count among the primes. -/
structure PrimeSize where
  prime : ℕ := 0
  size : ℕ := 0

namespace PrimeSize

def bucketCount (s : PrimeSize) : ℕ := primeList.getD s.prime 1

/-- The loop of `Resize`. -/
def advance (size : ℕ) : ℕ → ℕ → ℕ
  | 0, prime => prime
  | steps + 1, prime =>
    if prime + 1 < primeList.length ∧ primeList.getD (prime + 1) 0 ≤ size then
      advance size steps (prime + 1)
    else prime

/-- `Resize`. -/
def resize (s : PrimeSize) (n : ℕ) : PrimeSize :=
  { prime := advance n primeList.length s.prime, size := n }

end PrimeSize

/-- `THashIndex`. The chunks of a bucket are one list. -/
structure HashIndex where
  sizeData : PrimeSize := {}
  buckets : List (List ℕ) := List.replicate 7 []

namespace HashIndex

variable (hash : List ℕ → ℕ)

def bucketOf (buckets : List (List ℕ)) (h : ℕ) : ℕ := h % buckets.length

/-- Files a position under a hash. -/
def pushBack (buckets : List (List ℕ)) (h index : ℕ) : List (List ℕ) :=
  buckets.modify (bucketOf buckets h) fun bucket => bucket ++ [index]

/-- `RearrangeBuckets`: all positions are filed again, by the sets as they are now. -/
def rearrangeBuckets (keys : List (List ℕ)) (t : HashIndex) : List (List ℕ) :=
  t.buckets.flatten.foldl (fun buckets index => pushBack buckets (hash (keys.getD index [])) index)
    (List.replicate t.sizeData.bucketCount [])

/-- `Insert`: the position of an equal key, or the new position, which is then filed. -/
def insert (keys : List (List ℕ)) (t : HashIndex) (key : List ℕ) (index : ℕ) :
    HashIndex × ℕ × Bool :=
  let h := hash key
  match (t.buckets.getD (bucketOf t.buckets h) []).find? fun i => decide (keys[i]? = some key) with
  | some found => (t, found, false)
  | none =>
    let t := { t with sizeData := t.sizeData.resize (t.sizeData.size + 1) }
    let t :=
      if t.buckets.length < t.sizeData.bucketCount then
        { t with buckets := rearrangeBuckets hash keys t }
      else t
    ({ t with buckets := pushBack t.buckets h index }, index, true)

theorem insert_spec (keys : List (List ℕ)) (t : HashIndex) (key : List ℕ) (index : ℕ) :
    let r := insert hash keys t key index
    (r.2.2 = false ∧ keys[r.2.1]? = some key) ∨ (r.2.2 = true ∧ r.2.1 = index) := by
  simp only [insert]
  cases hfind : (t.buckets.getD (bucketOf t.buckets (hash key)) []).find?
      fun i => decide (keys[i]? = some key) with
  | some found =>
    have hfound := List.find?_some hfind
    exact .inl ⟨rfl, by simpa using hfound⟩
  | none => exact .inr ⟨rfl, rfl⟩

end HashIndex
end TomitaParser.Gzt
