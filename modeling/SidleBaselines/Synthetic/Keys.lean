import Mathlib.Data.List.Nodup
import Mathlib.Data.List.Perm.Basic

/-!
# The keys of the synthetic benchmarks

`src/benchmark/synthetic/micro_common.h` reads the keys from a file, shuffles
them and takes the first half as the keys the table is loaded with (`all_keys`)
and the rest as keys it does not hold (`non_exist_keys`). Each foreground thread
works on its own part of both vectors.

The order that `std::shuffle` leaves is arbitrary.

## What is proved

* `length_segment`, `segment_disjoint` — the threads' parts have one length and
  no key in common;
* `Keys.Apart.nodup_ofThread`, `Keys.Apart.ofThread_disjoint` — so have the keys
  of the threads, when all keys are different;
* `Prepared.apart` — the keys of a file without repetitions are different.
-/

namespace SidleBaselines.Synthetic

variable {K : Type*}

/-! ### Parts of a vector -/

/-- The part of a thread: `v.size() / fg_n` elements from `thread_id` times as many on. -/
def segment (v : List K) (fgN threadId : ℕ) : List K :=
  (v.drop (threadId * (v.length / fgN))).take (v.length / fgN)

theorem segment_sublist (v : List K) (fgN i : ℕ) : (segment v fgN i).Sublist v :=
  (List.take_sublist _ _).trans (List.drop_sublist _ _)

theorem length_segment (v : List K) {fgN i : ℕ} (hi : i < fgN) :
    (segment v fgN i).length = v.length / fgN := by
  have hend : (i + 1) * (v.length / fgN) ≤ v.length :=
    Nat.le_trans (Nat.mul_le_mul_right _ hi) (Nat.mul_div_le v.length fgN)
  rw [Nat.add_mul, Nat.one_mul] at hend
  rw [segment, List.length_take, List.length_drop]
  omega

theorem mem_segment {v : List K} {fgN i : ℕ} {k : K} :
    k ∈ segment v fgN i ↔
      ∃ p, i * (v.length / fgN) ≤ p ∧ p < (i + 1) * (v.length / fgN) ∧ v[p]? = some k := by
  rw [segment, List.mem_iff_getElem?]
  simp only [List.getElem?_take, List.getElem?_drop, Nat.add_mul, Nat.one_mul]
  constructor
  · rintro ⟨j, hj⟩
    split_ifs at hj with hlt
    exact ⟨_, by omega, by omega, hj⟩
  · rintro ⟨p, hlo, hhi, hp⟩
    refine ⟨p - i * (v.length / fgN), ?_⟩
    rw [if_pos (by omega), Nat.add_sub_cancel' hlo, hp]

/-- The parts of two threads have no element in common. -/
theorem segment_disjoint {v : List K} (hv : v.Nodup) {fgN i j : ℕ} (hij : i ≠ j) :
    (segment v fgN i).Disjoint (segment v fgN j) := by
  intro k hi hj
  rw [mem_segment] at hi hj
  obtain ⟨p, hp, hp', hpk⟩ := hi
  obtain ⟨p', hq, hq', hqk⟩ := hj
  have hlt : p < v.length := (List.getElem?_eq_some_iff.mp hpk).1
  have heq : p = p' := (List.getElem?_inj hlt hv).mp (hpk.trans hqk.symm)
  subst heq
  rcases Nat.lt_or_gt_of_ne hij with h | h
  · have hle : (i + 1) * (v.length / fgN) ≤ j * (v.length / fgN) := Nat.mul_le_mul_right _ h
    omega
  · have hle : (j + 1) * (v.length / fgN) ≤ i * (v.length / fgN) := Nat.mul_le_mul_right _ h
    omega

/-! ### The keys -/

/-- The key vectors of `micro_common.h`. -/
structure Keys (K : Type*) where
  allKeys : List K
  nonExistKeys : List K

/-- `read_keys_from_file`, with the keys of the file in `temp_keys`. -/
def readKeysFromFile (tempKeys : List K) : Keys K where
  allKeys := tempKeys.take (tempKeys.length / 2)
  nonExistKeys := tempKeys.drop (tempKeys.length / 2)

/-- A thread's part of `all_keys`, then its part of `non_exist_keys`. -/
def Keys.ofThread (ks : Keys K) (fgN threadId : ℕ) : List K :=
  segment ks.allKeys fgN threadId ++ segment ks.nonExistKeys fgN threadId

/-- All keys are different. -/
def Keys.Apart (ks : Keys K) : Prop :=
  (ks.allKeys ++ ks.nonExistKeys).Nodup

namespace Keys

variable {ks : Keys K} {fgN i j : ℕ}

theorem Apart.allKeys (h : ks.Apart) : ks.allKeys.Nodup :=
  (List.nodup_append.mp h).1

theorem Apart.nonExistKeys (h : ks.Apart) : ks.nonExistKeys.Nodup :=
  (List.nodup_append.mp h).2.1

theorem Apart.disjoint (h : ks.Apart) : ks.allKeys.Disjoint ks.nonExistKeys :=
  List.disjoint_of_nodup_append h

theorem Apart.of_perm {ks' : Keys K} (h : ks.Apart) (ha : ks'.allKeys.Perm ks.allKeys)
    (hn : ks'.nonExistKeys.Perm ks.nonExistKeys) : ks'.Apart :=
  (ha.append hn).nodup_iff.mpr h

theorem Apart.nodup_ofThread (h : ks.Apart) (fgN i : ℕ) : (ks.ofThread fgN i).Nodup :=
  h.sublist ((segment_sublist _ _ _).append (segment_sublist _ _ _))

/-- Two threads have no key in common. -/
theorem Apart.ofThread_disjoint (h : ks.Apart) (hij : i ≠ j) :
    (ks.ofThread fgN i).Disjoint (ks.ofThread fgN j) := by
  intro k hi hj
  rcases List.mem_append.mp hi with hi | hi
  · rcases List.mem_append.mp hj with hj | hj
    · exact segment_disjoint h.allKeys hij hi hj
    · exact h.disjoint ((segment_sublist _ _ _).subset hi) ((segment_sublist _ _ _).subset hj)
  · rcases List.mem_append.mp hj with hj | hj
    · exact h.disjoint ((segment_sublist _ _ _).subset hj) ((segment_sublist _ _ _).subset hi)
    · exact segment_disjoint h.nonExistKeys hij hi hj

theorem take_ofThread (hi : i < fgN) :
    (ks.ofThread fgN i).take (ks.allKeys.length / fgN) = segment ks.allKeys fgN i :=
  List.take_left' (length_segment _ hi)

theorem length_ofThread (hi : i < fgN) :
    (ks.ofThread fgN i).length = ks.allKeys.length / fgN + ks.nonExistKeys.length / fgN := by
  rw [ofThread, List.length_append, length_segment _ hi, length_segment _ hi]

end Keys

/-! ### Loading -/

/-- The keys `file` are read, the table is loaded with `loaded`, and the vectors
are shuffled once more before the threads start. -/
def Prepared (file loaded : List K) (ks : Keys K) : Prop :=
  ∃ tempKeys, tempKeys.Perm file ∧ loaded = (readKeysFromFile tempKeys).allKeys ∧
    ks.allKeys.Perm loaded ∧ ks.nonExistKeys.Perm (readKeysFromFile tempKeys).nonExistKeys

theorem Prepared.apart {file loaded : List K} {ks : Keys K} (h : Prepared file loaded ks)
    (hfile : file.Nodup) :
    ks.Apart := by
  obtain ⟨tempKeys, htemp, rfl, hall, hnon⟩ := h
  have hread : (readKeysFromFile tempKeys).Apart := by
    rw [Keys.Apart, readKeysFromFile, List.take_append_drop]
    exact htemp.nodup_iff.mpr hfile
  exact hread.of_perm hall hnon

theorem Prepared.mem_loaded {file loaded : List K} {ks : Keys K} (h : Prepared file loaded ks) (k : K) :
    k ∈ loaded ↔ k ∈ ks.allKeys := by
  obtain ⟨_, -, rfl, hall, -⟩ := h
  exact hall.mem_iff.symm

/-- The halves of the file differ by one key at most. -/
theorem Prepared.length {file loaded : List K} {ks : Keys K} (h : Prepared file loaded ks) :
    ks.allKeys.length = file.length / 2 ∧ ks.nonExistKeys.length = file.length - file.length / 2 := by
  obtain ⟨tempKeys, htemp, rfl, hall, hnon⟩ := h
  rw [hall.length_eq, hnon.length_eq, ← htemp.length_eq]
  simp only [readKeysFromFile, List.length_take, List.length_drop, and_true]
  omega

end SidleBaselines.Synthetic
