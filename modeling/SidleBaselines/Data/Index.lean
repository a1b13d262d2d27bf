import SidleBaselines.Data.Table

/-!
# Indexes

What a correct index promises: a map from keys to values (`MapIndex`), a map that
also lists its entries from a key on in ascending order (`OrderedIndex`), and a set
of keys that returns the copy of a key it stores (`SetIndex`). How an index keeps
its entries is its own affair: each is given by the type of its states, its
operations and the laws its clients rely on.

## What is proved

* `OrderedIndex.ofTable`, `MapIndex.ofFun`, `SetIndex.ofFun` — such indexes exist.
-/

namespace SidleBaselines.Data

/-- A correct map from `K` to `V`. -/
structure MapIndex (K V : Type) where
  /-- The states of the index. -/
  State : Type
  /-- The empty index. -/
  empty : State
  /-- Insert, or overwrite. -/
  put : State → K → V → State
  /-- Delete, if present. -/
  del : State → K → State
  /-- Look up. -/
  find : State → K → Option V
  /-- Nothing is in the empty index. -/
  find_empty : ∀ k, find empty k = none
  /-- The last insertion counts. -/
  find_put_self : ∀ s k v, find (put s k v) k = some v
  /-- An insertion leaves the other keys alone. -/
  find_put_ne : ∀ s k v {k'}, k' ≠ k → find (put s k v) k' = find s k'
  /-- A deleted key is gone. -/
  find_del_self : ∀ s k, find (del s k) k = none
  /-- A deletion leaves the other keys alone. -/
  find_del_ne : ∀ s k {k'}, k' ≠ k → find (del s k) k' = find s k'

/-- A correct map that lists its entries in ascending order of their keys. -/
structure OrderedIndex (K V : Type) [LinearOrder K] extends MapIndex K V where
  /-- The entries an iterator yields that starts at a key. -/
  iterate : State → K → List (K × V)
  /-- They come in ascending order. -/
  iterate_ascending : ∀ s start, (iterate s start).Pairwise fun e f => e.1 < f.1
  /-- They are the entries from the key on. -/
  mem_iterate : ∀ s start k v, (k, v) ∈ iterate s start ↔ find s k = some v ∧ start ≤ k

/-- A correct set of keys: looking a key up returns the key as it is stored. -/
structure SetIndex (K : Type) where
  /-- The states of the index. -/
  State : Type
  /-- The empty index. -/
  empty : State
  /-- Insert, if absent. -/
  put : State → K → State
  /-- Look up. -/
  get : State → K → Option K
  /-- Nothing is in the empty index. -/
  get_empty : ∀ k, get empty k = none
  /-- A key inserted is found. -/
  get_put_self : ∀ s k, get (put s k) k = some k
  /-- An insertion leaves the other keys alone. -/
  get_put_ne : ∀ s k {k'}, k' ≠ k → get (put s k) k' = get s k'

/-! ### Models -/

section

variable {K V : Type}

/-- The index that is its own lookup function. -/
def MapIndex.ofFun (K V : Type) [DecidableEq K] : MapIndex K V where
  State := K → Option V
  empty := fun _ => none
  put s k v := Function.update s k (some v)
  del s k := Function.update s k none
  find s k := s k
  find_empty _ := rfl
  find_put_self s k v := Function.update_self k (some v) s
  find_put_ne s _ v _ h := Function.update_of_ne h (some v) s
  find_del_self s k := Function.update_self k none s
  find_del_ne s _ _ h := Function.update_of_ne h none s

/-- The set that is its own lookup function. -/
def SetIndex.ofFun (K : Type) [DecidableEq K] : SetIndex K where
  State := K → Option K
  empty := fun _ => none
  put s k := Function.update s k (some k)
  get s k := s k
  get_empty _ := rfl
  get_put_self s k := Function.update_self k (some k) s
  get_put_ne s k _ h := Function.update_of_ne h (some k) s

/-- A table lists its entries in key order. -/
def OrderedIndex.ofTable (K V : Type) [LinearOrder K] : OrderedIndex K V where
  State := Table K V
  empty := ∅
  put s k v := s.insert k v
  del s k := s.remove k
  find s k := s.get k
  iterate s start := s.entries.filter fun e => start ≤ e.1
  find_empty _ := rfl
  find_put_self s k v := by rw [Table.get_insert, if_pos rfl]
  find_put_ne s k v _ h := Table.get_insert_ne h.symm
  find_del_self s k := by rw [Table.get_remove, if_pos rfl]
  find_del_ne s k _ h := Table.get_remove_ne h.symm
  iterate_ascending s _ := List.Pairwise.filter _ Table.entries_sorted
  mem_iterate s start k v := by rw [List.mem_filter, Table.mem_entries, decide_eq_true_iff]

end

end SidleBaselines.Data
