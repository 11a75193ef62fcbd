import Mathlib.Logic.Function.Basic
import Mathlib.Data.Nat.Notation
import Mathlib.Tactic.SplitIfs

/-!
# Hash tables with chains

A table has a chain of entries for every hash.  A lookup walks the chain of its key; a `put` writes
into the entry that the lookup would find, or puts a new one in front of the chain where it would
find none.

There is nothing to be assumed of the hash function: keys that share a hash share a chain, and
`find_replace_of_ne` says that an entry is only changed for its own key.  `get_put` is what a caller
needs: in terms of `get`, a table is a map and `put` changes it at one key.

A table is a function from hashes to chains.  That a chain has keys of its own hash only, and no key
twice, is not part of the type and not needed: `find` and `replace` go to the first entry with a
key, and it is the same one for both.
-/

set_option autoImplicit false

namespace Chino

universe u v

/-- The entries of each hash, with the newest one in front. -/
structure HashTable (n : ℕ) (K : Type u) (V : Type v) where
  chains : Fin n → List (K × V)

namespace HashTable

variable {n : ℕ} {K : Type u} {V : Type v} [DecidableEq K]

/-! ## One chain -/

/-- The value of the first entry with this key. -/
def find (k : K) : List (K × V) → Option V
  | [] => none
  | (k', v) :: chain => if k = k' then some v else find k chain

/-- Write the value into the first entry with this key. -/
def replace (k : K) (v : V) : List (K × V) → List (K × V)
  | [] => []
  | (k', v') :: chain => if k = k' then (k', v) :: chain else (k', v') :: replace k v chain

theorem find_replace_self {k : K} (v : V) {chain : List (K × V)} (h : (find k chain).isSome) :
    find k (replace k v chain) = some v := by
  induction chain with
  | nil => cases h
  | cons e chain ih =>
    obtain ⟨k', v'⟩ := e
    by_cases hk : k = k'
    · rw [replace, if_pos hk, find, if_pos hk]
    · rw [find, if_neg hk] at h
      rw [replace, if_neg hk, find, if_neg hk, ih h]

theorem find_replace_of_ne {k other : K} (hne : other ≠ k) (v : V) (chain : List (K × V)) :
    find other (replace k v chain) = find other chain := by
  induction chain with
  | nil => rfl
  | cons e chain ih =>
    obtain ⟨k', v'⟩ := e
    by_cases hk : k = k'
    · rw [replace, if_pos hk, find, find, if_neg (hk ▸ hne), if_neg (hk ▸ hne)]
    · rw [replace, if_neg hk, find, find, ih]

/-! ## Tables -/

/-- No entries. -/
def empty : HashTable n K V := ⟨fun _ ↦ []⟩

variable (hash : K → Fin n)

/-- The value of a key, in the chain of its hash. -/
def get (t : HashTable n K V) (k : K) : Option V := find k (t.chains (hash k))

/-- A key gets a value, in place of its old one or in front of its chain. -/
def put (t : HashTable n K V) (k : K) (v : V) : HashTable n K V :=
  let chain := t.chains (hash k)
  ⟨Function.update t.chains (hash k)
    (if (find k chain).isSome then replace k v chain else (k, v) :: chain)⟩

theorem chains_put (t : HashTable n K V) (k : K) (v : V) :
    (t.put hash k v).chains = Function.update t.chains (hash k)
      (if (find k (t.chains (hash k))).isSome then replace k v (t.chains (hash k))
        else (k, v) :: t.chains (hash k)) := rfl

@[simp] theorem get_empty (k : K) : (empty : HashTable n K V).get hash k = none := rfl

theorem get_put_self (t : HashTable n K V) (k : K) (v : V) :
    (t.put hash k v).get hash k = some v := by
  rw [get, chains_put, Function.update_self]
  split_ifs with hfound
  · exact find_replace_self v hfound
  · rw [find, if_pos rfl]

theorem get_put_of_ne (t : HashTable n K V) {k other : K} (hne : other ≠ k) (v : V) :
    (t.put hash k v).get hash other = t.get hash other := by
  rw [get, get, chains_put]
  by_cases hhash : hash other = hash k
  · rw [hhash, Function.update_self]
    split_ifs with hfound
    · exact find_replace_of_ne hne v _
    · rw [find, if_neg hne]
  · rw [Function.update_of_ne hhash]

/-- **A table is a map**, whatever the hash function is. -/
theorem get_put (t : HashTable n K V) (k : K) (v : V) :
    (t.put hash k v).get hash = Function.update (t.get hash) k (some v) := by
  funext other
  by_cases hne : other = k
  · rw [hne, get_put_self, Function.update_self]
  · rw [get_put_of_ne hash t hne, Function.update_of_ne hne]

end HashTable

end Chino
