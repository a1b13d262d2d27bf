import SidleBaselines.Art.Refinement
import SidleBaselines.Kv.Wrappers

/-!
# `ARTKV` over the tree

The keys of the micro benchmarks have eight bytes, so that no insertion stops the process, and the tree
under `ARTKV`, built with its assertions, is the set of keys that its clients take it to be.

## What is proved

* `Has.put`, `Has.get` — the two calls, of keys of `key_size` bytes.
* `artTreeKV_results` — no call of the tree stops, and the wrapper over it is a finite map exactly where that
  over a set of keys is.
-/

namespace SidleBaselines.Art

open Data Kv

/-! ### A tree of keys -/

/-- The tree has the keys `K`, each of `key_size` bytes. -/
structure Has (s : AdaptiveRadixTree) (K : Set (List UInt8)) : Prop where
  length : ∀ k ∈ K, k.length = keySize
  stands : Stands keySize s K

variable {s : AdaptiveRadixTree} {K : Set (List UInt8)}

theorem Has.new (mem : ℕ → Node) : Has (.new mem) ∅ := ⟨fun _ hk => hk.elim, .empty rfl⟩

/-- The keys it has are found. -/
theorem Has.get (h : Has s K) (k : Key) :
    (keyBytes k ∈ K → s.get (keyBytes k) keySize = .ok (some (keyBytes k))) ∧
      (keyBytes k ∉ K → s.get (keyBytes k) keySize = .ok none) := by
  have hlen : (keyBytes k).length = keySize := length_keyBytes k
  have hstands := h.stands
  rw [← hlen] at hstands ⊢
  exact hstands.get (by rw [hlen]; decide)

/-- A key put is one of its keys, and nothing stops that. -/
theorem Has.put (h : Has s K) (k : Key) :
    ∃ ret s', s.put (keyBytes k) keySize = .ok (ret, s') ∧ 0 ≤ ret ∧ Has s' (insert (keyBytes k) K) := by
  have hlen : (keyBytes k).length = keySize := length_keyBytes k
  have hstands := h.stands
  rw [← hlen] at hstands ⊢
  obtain ⟨hthere, -, hput⟩ := hstands.put (by rw [hlen]; decide)
  by_cases hk : keyBytes k ∈ K
  · exact ⟨1, s, hthere hk, by decide, by rwa [Set.insert_eq_of_mem hk]⟩
  · have hover : ¬ Overlong 0 K (keyBytes k) := fun hover => absurd (hover.length h.length hlen) (by decide)
    obtain ⟨s', hrun, h'⟩ := hput hk hover
    refine ⟨0, s', hrun, le_rfl, fun k' hk' => ?_, hlen ▸ h'⟩
    rcases Set.mem_insert_iff.mp hk' with rfl | hk'
    · exact hlen
    · exact h.length k' hk'

/-- A tree that has keys of `key_size` bytes. -/
structure KeyTree where
  tree : AdaptiveRadixTree
  has : ∃ K, Has tree K

namespace KeyTree

theorem ne_error_of_put (t : KeyTree) (k : Key) (e : Stop) : t.tree.put (keyBytes k) keySize ≠ .error e := by
  obtain ⟨K, h⟩ := t.has
  obtain ⟨ret, s', hrun, -⟩ := h.put k
  rw [hrun]
  exact fun e => by cases e

theorem has_of_put (t : KeyTree) {k : Key} {r : ℤ × AdaptiveRadixTree}
    (hr : t.tree.put (keyBytes k) keySize = .ok r) :
    ∃ K, Has r.2 K := by
  obtain ⟨K, h⟩ := t.has
  obtain ⟨ret, s', hrun, -, h'⟩ := h.put k
  obtain rfl : (ret, s') = r := Except.ok.inj (hrun.symm.trans hr)
  exact ⟨_, h'⟩

theorem ne_error_of_get (t : KeyTree) (k : Key) (e : Stop) : t.tree.get (keyBytes k) keySize ≠ .error e := by
  obtain ⟨K, h⟩ := t.has
  by_cases hk : keyBytes k ∈ K
  · rw [(h.get k).1 hk]
    exact fun e => by cases e
  · rw [(h.get k).2 hk]
    exact fun e => by cases e

/-- `adaptive_radix_tree_put`. -/
def put (t : KeyTree) (k : Key) : ℤ × KeyTree :=
  match h : t.tree.put (keyBytes k) keySize with
  | .ok r => (r.1, ⟨r.2, t.has_of_put h⟩)
  | .error e => absurd h (t.ne_error_of_put k e)

/-- `adaptive_radix_tree_get`. -/
def get (t : KeyTree) (k : Key) : Option (List UInt8) :=
  match h : t.tree.get (keyBytes k) keySize with
  | .ok key => key
  | .error e => absurd h (t.ne_error_of_get k e)

theorem put_eq {t : KeyTree} {k : Key} {r : ℤ × AdaptiveRadixTree}
    (hr : t.tree.put (keyBytes k) keySize = .ok r) :
    (t.put k).1 = r.1 ∧ (t.put k).2.tree = r.2 := by
  rw [put]
  split
  · rename_i r' h
    obtain rfl : r' = r := Except.ok.inj (h.symm.trans hr)
    exact ⟨rfl, rfl⟩
  · rename_i e h
    exact absurd h (t.ne_error_of_put k e)

theorem get_eq {t : KeyTree} {k : Key} {key : Option (List UInt8)}
    (hr : t.tree.get (keyBytes k) keySize = .ok key) :
    t.get k = key := by
  rw [get]
  split
  · rename_i key' h
    exact Except.ok.inj (h.symm.trans hr)
  · rename_i e h
    exact absurd h (t.ne_error_of_get k e)

end KeyTree

/-! ### The wrapper -/

variable {n : ℕ}

/-- `ARTKV`, over the tree. -/
@[reducible] def artTreeKV (heap : ℕ → Node) : KvStore n where
  State := KeyTree
  empty := ⟨.new heap, ∅, .new heap⟩
  insert k _ t := (decide (0 ≤ (t.put k).1), (t.put k).2)
  get mem k v t :=
    match t.get k with
    | some key => (true, artValue mem key)
    | none => (false, v)
  remove _ t := (false, t)

/-- The keys of the tree are those that were inserted. -/
def Keeps (t : KeyTree) (kept : Content n) : Prop := ∃ K, Has t.tree K ∧ ∀ k, keyBytes k ∈ K ↔ (kept k).isSome

theorem Keeps.put {t : KeyTree} {kept : Content n} (h : Keeps t kept) (k : Key) (v : Value n) :
    0 ≤ (t.put k).1 ∧ Keeps (t.put k).2 (Function.update kept k (some v)) := by
  obtain ⟨K, h, hkept⟩ := h
  obtain ⟨ret, s', hrun, hret, h'⟩ := h.put k
  obtain ⟨hfst, hsnd⟩ := KeyTree.put_eq hrun
  refine ⟨hret.trans_eq hfst.symm, _, (show (t.put k).2.tree = s' from hsnd).symm ▸ h', fun k' => ?_⟩
  rw [Set.mem_insert_iff, keyBytes_inj, hkept k']
  by_cases hk : k' = k
  · rw [hk, Function.update_self]
    simp
  · rw [Function.update_of_ne hk, or_iff_right hk]

theorem Keeps.get {t : KeyTree} {kept : Content n} (h : Keeps t kept) (k : Key) :
    t.get k = (kept k).map fun _ => keyBytes k := by
  obtain ⟨K, h, hkept⟩ := h
  cases hk : kept k with
  | none => exact KeyTree.get_eq ((h.get k).2 fun hmem => by simpa [hk] using (hkept k).mp hmem)
  | some v => exact KeyTree.get_eq ((h.get k).1 ((hkept k).mpr (by rw [hk]; rfl)))

/-- The calls of the tree that a program's call of its wrapper makes. -/
def treeCalls : Op n → List Call
  | .insert k _ => [.put (keyBytes k)]
  | .get k _ _ => [.get (keyBytes k)]
  | .remove _ => []

/-- They are with keys of `key_size` bytes. -/
theorem length_treeCalls (ops : List (Op n)) : ∀ c ∈ ops.flatMap treeCalls, c.key.length = keySize := by
  intro c hc
  obtain ⟨op, -, hc⟩ := List.mem_flatMap.mp hc
  cases op with
  | insert k v =>
    obtain rfl := List.mem_singleton.mp hc
    exact length_keyBytes k
  | get k v mem =>
    obtain rfl := List.mem_singleton.mp hc
    exact length_keyBytes k
  | remove k => cases hc

/-- **`ARTKV` over the tree is a finite map exactly where** no key is looked up that was inserted and then
removed, and a value looked up is what stands in memory at the key; and no call of the tree stops. -/
theorem artTreeKV_results (heap : ℕ → Node) (ops : List (Op n)) :
    (run AdaptiveRadixTree.exec (.new heap) (ops.flatMap treeCalls)).2 = none ∧
    ((artTreeKV heap).results ops (artTreeKV heap).empty = mapResults ops nothing ↔
      AtGets (fun m kept k mem => (kept k).map (fun _ => (artValue mem (keyBytes k) : Value n).val) =
        (m k).map Value.val)
        ops nothing nothing) := by
  constructor
  · have hcalls := length_treeCalls ops
    rw [Stands.run (.empty rfl) (by decide) hcalls]
    exact run_onSet (by decide) hcalls fun k hk => hk.elim
  refine KvStore.results_eq_iff (artTreeKV heap) _ (fun t _ kept => Keeps t kept) ?_ ?_ ?_ ?_
  · exact fun k v h => (h.put k v).2
  · exact fun k h => h
  · intro t m kept mem k v h
    simp only [outcome, h.get k]
    cases kept k with
    | none => exact Iff.rfl
    | some w => exact Iff.rfl
  · exact ⟨∅, .new heap, fun k => by simp⟩

end SidleBaselines.Art
