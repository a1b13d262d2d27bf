import SidleBaselines.Synthetic.Keys
import SidleBaselines.Synthetic.Skew
import Mathlib.Data.List.GetD

/-!
# The calls of the skew generators

The mains of `skewed_partition.cpp` and `skewed_partition_dynamic.cpp`, which make the
same calls, and `run_benchmark` of `rw_mix.cpp`, in `src/benchmark/synthetic`, call
`generate_skew_workload` on the two halves of a key file.

The target vectors of these mains are made before the options are read: there is one of
each kind, for any `--hot-range-count`. Both are resized to the number of keys in
`all_keys`. The main of `dynamic_hot_range.cpp` resizes them to the ranges and the keys
there are. The version that `rw_mix` calls does not clamp the start of the hot range.

## What is proved

* `fillSkewed_some`, `fillSkewed_subset` — what filling one target needs;
* `skewMain_inBounds_iff`, `rwMixSkew_inBounds_iff` — when the calls of a program stay in
  bounds and make keys of the file, whatever is drawn;
* `dynamicHotRange_inBounds_iff` — with the targets of dynamic_hot_range only the size of
  the hot range matters;
* `skew_calls_sound_iff` — the same of the halves of a key file.
-/

namespace SidleBaselines.Synthetic

open SidleBaselines.Data

/-- The options that the calls depend on; the ratios are doubles. -/
structure SkewOptions where
  readRatio : ℚ
  insertRatio : ℚ
  operationCount : Int32
  hotDataStart : ℕ
  hotDataRatio : ℕ
  hotQueryRatio : ℕ
  hotRangeCount : ℕ
  deriving Repr

namespace SkewOptions

/-- What `parse_args` has checked, `operation_count` being 0 when it is not given; without a hot
range there are no calls. -/
structure Accepted (o : SkewOptions) : Prop where
  readRatio : 0 ≤ o.readRatio ∧ o.readRatio ≤ 1
  insertRatio : 0 ≤ o.insertRatio ∧ o.insertRatio ≤ 1
  operationCount_nonneg : 0 ≤ o.operationCount
  hotDataRatio_ne : o.hotDataRatio ≠ 0
  hotDataRatio_le : o.hotDataRatio ≤ 100
  hotQueryRatio_le : o.hotQueryRatio ≤ 100
  hotDataStart_le : o.hotDataStart ≤ 100
  hotRangeCount_pos : 0 < o.hotRangeCount

/-- The `INVARIANT`s of the main of skewed_partition, with `n` keys in `all_keys`. The product
`operation_count * 2` is one of `int`s, and wraps. -/
def Reaches (o : SkewOptions) (n : ℕ) : Prop :=
  toDouble (o.readRatio + o.insertRatio) = 1 ∧
    toDouble (toDouble (o.operationCount * 2).toInt * o.insertRatio) ≤ toDouble n

end SkewOptions

variable {K : Type}

/-- `resize`, new elements being `d`. -/
def resize {A : Type} (l : List A) (n : ℕ) (d : A) : List A :=
  l.take n ++ List.replicate (n - l.length) d

/-- `skewed_keys` and `skewed_non_exist_keys` to begin with: `hot_range_count` is still 1. -/
def initialTargets : List (List K) := List.replicate 1 []

/-- The vectors after the calls of a main. -/
structure Skewed (K : Type) where
  keys : Keys K
  skewedKeys : List (List K)
  skewedNonExistKeys : List (List K)

section calls

variable {G : Type} (U : Uniform G) (gen1 gen2 : G) [LinearOrder K] (o : SkewOptions) (keys : Keys K)

/-- The calls of a main, for each kind of keys on `targets` after the size has been set. -/
def skewMain [Inhabited K] (targets : List (List K)) (nonExistSize : ℕ) : Option (Skewed K) := do
  let (allKeys, skewedKeys) ←
    generateSkewWorkloads U gen1 gen2 o.hotRangeCount o.hotDataStart o.hotDataRatio o.hotQueryRatio keys.allKeys
      (targets.map (resize · keys.allKeys.length default))
  if o.readRatio < 1 then
    let (nonExistKeys, skewedNonExistKeys) ←
      generateSkewWorkloads U gen1 gen2 o.hotRangeCount o.hotDataStart o.hotDataRatio o.hotQueryRatio
        keys.nonExistKeys (targets.map (resize · nonExistSize default))
    return ⟨⟨allKeys, nonExistKeys⟩, skewedKeys, skewedNonExistKeys⟩
  else return ⟨⟨allKeys, keys.nonExistKeys⟩, skewedKeys, targets⟩

/-- The calls of the main of skewed_partition: the targets are as they were to begin with, and both
kinds get the size of `all_keys`. -/
def skewedPartition [Inhabited K] : Option (Skewed K) :=
  skewMain U gen1 gen2 o keys initialTargets keys.allKeys.length

/-- The calls of the main of dynamic_hot_range: there is a target for each range. -/
def dynamicHotRange [Inhabited K] : Option (Skewed K) :=
  skewMain U gen1 gen2 o keys (resize initialTargets o.hotRangeCount []) keys.nonExistKeys.length

/-- The calls of rw_mix. -/
def rwMixSkew : Option (Keys K) := do
  let allKeys ← generateSkewWorkload U gen1 gen2 o.hotDataStart o.hotDataRatio o.hotQueryRatio keys.allKeys
  if o.readRatio < 1 then
    let nonExistKeys ←
      generateSkewWorkload U gen1 gen2 o.hotDataStart o.hotDataRatio o.hotQueryRatio keys.nonExistKeys
    return ⟨allKeys, nonExistKeys⟩
  else return ⟨allKeys, keys.nonExistKeys⟩

end calls

/-- Whatever is drawn, the call stays in bounds and what it returns is right. -/
def InBounds {R : Type} (call : ∀ G : Type, Uniform G → G → G → Option R) (right : R → Prop) : Prop :=
  ∀ (G : Type) (U : Uniform G) (gen1 gen2 : G), ∃ res, call G U gen1 gen2 = some res ∧ right res

/-- All keys are of the file. -/
def Keys.Of (file : List K) (keys : Keys K) : Prop :=
  keys.allKeys ⊆ file ∧ keys.nonExistKeys ⊆ file

/-- All keys are of the file, those of the targets, too. -/
def Skewed.Of (file : List K) (s : Skewed K) : Prop :=
  s.keys.Of file ∧ (∀ t ∈ s.skewedKeys, t ⊆ file) ∧ ∀ t ∈ s.skewedNonExistKeys, t ⊆ file

/-! ### Filling one target -/

section fill

variable {q r s : ℕ} {keys out : List K}

/-- A target that is too short is written beyond its end. -/
theorem fillSkewed_none {G : Type} {U : Uniform G} {gen1 gen2 : G} (hout : out.length < keys.length) :
    fillSkewed U gen1 gen2 q keys r s out = none := by
  rw [fillSkewed, Option.bind_eq_bind, Option.bind_eq_none_iff]
  intro temp _
  simp only [drawLoop_none keys.length 0 gen1 gen2 out (Nat.zero_le _) (by omega), ite_self]

theorem fillSkewed_beyond {G : Type} {U : Uniform G} {gen1 gen2 : G} (h : keys.length < s + r) :
    fillSkewed U gen1 gen2 q keys r s out = none := by
  rw [fillSkewed, hotFirst_none h]
  rfl

/-- Without hot keys, the index of a hot query is the largest number of 64 bits. -/
theorem drawLoop_lastIndex {temp : List K} (hq : 0 < q) (h64 : temp.length < 2 ^ 64) (m i : ℕ) :
    drawLoop lastIndex q 0 temp (m + 1) i () () out = none := by
  have hindex : (if (lastIndex.draw 0 99 ()).1 < q then lastIndex.draw 0 (sub64 0 1) ()
      else lastIndex.draw 0 (sub64 temp.length 1) ()).1 = 2 ^ 64 - 1 := by
    rw [if_pos (show (lastIndex.draw 0 99 ()).1 < q from hq)]
    rfl
  have hbeyond : temp[(2 ^ 64 - 1 : ℕ)]? = none := List.getElem?_eq_none (by omega)
  rw [drawLoop]
  simp only [hindex, hbeyond, Option.bind_eq_bind, Option.bind_none]

/-- What a call that returns has in bounds. -/
theorem fillSkewed_some {t : List K} (hn : 0 < keys.length) (h64 : keys.length < 2 ^ 64)
    (ht : fillSkewed lastIndex () () q keys r s out = some t) :
    s + r ≤ keys.length ∧ r < keys.length ∧ (0 < r ∨ q = 0) ∧ keys.length ≤ out.length := by
  have hlen : keys.length ≤ out.length := by
    by_contra hlt
    rw [fillSkewed_none (Nat.lt_of_not_le hlt)] at ht
    cases ht
  have hs : s + r ≤ keys.length := by
    by_contra hgt
    rw [fillSkewed_beyond (Nat.lt_of_not_le hgt)] at ht
    cases ht
  have htemp : (toFront keys s r).length = keys.length := (toFront_perm keys s r).length_eq
  have hsub : sub64 keys.length 1 = keys.length - 1 := if_pos hn
  simp only [fillSkewed, hotFirst_eq hs, Option.bind_eq_bind, Option.bind_some, htemp, hsub] at ht
  have hr : r ≤ keys.length - 1 := by
    by_contra hgt
    rw [if_neg hgt] at ht
    cases ht
  refine ⟨hs, by omega, ?_, hlen⟩
  by_contra hzero
  obtain ⟨rfl, hq⟩ : r = 0 ∧ 0 < q := by omega
  obtain ⟨m, hm⟩ : ∃ m, keys.length = m + 1 := ⟨keys.length - 1, by omega⟩
  rw [if_pos hr, hm, drawLoop_lastIndex hq (by omega)] at ht
  cases ht

/-- What a call needs to return, and to return keys. -/
theorem fillSkewed_subset {G : Type} (U : Uniform G) (gen1 gen2 : G) (hs : s + r ≤ keys.length)
    (hr : keys.length = 0 ∨ (r < keys.length ∧ (0 < r ∨ q = 0))) (hout : out.length = keys.length) :
    ∃ t, fillSkewed U gen1 gen2 q keys r s out = some t ∧ t ⊆ keys := by
  rcases hr with hzero | ⟨hlt, hr⟩
  · have hnil : keys = [] := List.length_eq_zero_iff.mp hzero
    have hout' : out = [] := List.length_eq_zero_iff.mp (hout.trans hzero)
    obtain ⟨rfl, rfl⟩ : s = 0 ∧ r = 0 := by omega
    subst hnil hout'
    exact ⟨[], rfl, List.nil_subset _⟩
  · obtain ⟨t, ht, hdrawn⟩ := fillSkewed_drawn (U := U) hs hr hlt hout gen1 gen2
    exact ⟨t, ht, List.Subset.trans (subset_of_drawn hdrawn) (toFront_perm keys s r).subset⟩

end fill

/-! ### The two versions -/

/-- The hot range is smaller than the vector of `n` keys; when queries are hot, it is not empty. -/
def SkewOptions.HotRangeFits (o : SkewOptions) (n : ℕ) : Prop :=
  n = 0 ∨ (percentOf n o.hotDataRatio < n ∧ (1 ≤ percentOf n o.hotDataRatio ∨ o.hotQueryRatio = 0))

theorem percentOf_zero (p : ℕ) : percentOf 0 p = 0 := by
  simp [percentOf, toDouble]

theorem hotRangeFits_iff {o : SkewOptions} {n : ℕ} :
    o.HotRangeFits n ↔
      n = 0 ∨ (rangeSize n o.hotDataRatio < n ∧ (0 < rangeSize n o.hotDataRatio ∨ o.hotQueryRatio = 0)) := by
  refine or_congr_right' fun hn => ?_
  rw [rangeSize, Nat.floor_lt' hn, Nat.floor_pos]

theorem rangeSize_le {o : SkewOptions} {n : ℕ} (h : o.HotRangeFits n) : rangeSize n o.hotDataRatio ≤ n := by
  rcases hotRangeFits_iff.mp h with rfl | ⟨hlt, -⟩
  · simp [rangeSize, percentOf_zero]
  · exact hlt.le

theorem map_resize (m size : ℕ) (d : K) :
    (List.replicate m ([] : List K)).map (resize · size d) = List.replicate m (List.replicate size d) := by
  simp [resize]

section versions

variable [LinearOrder K] {o : SkewOptions} {keys : List K} {targets : List (List K)}

theorem generateSkewWorkloads_eq {G : Type} (U : Uniform G) (gen1 gen2 : G) (start ratio q count : ℕ) :
    generateSkewWorkloads U gen1 gen2 count start ratio q keys targets =
      (skewRounds U gen1 gen2 q (keys.mergeSort (· ≤ ·)) (rangeSize keys.length ratio)
        (fun k => startAt keys.length start (rangeSize keys.length ratio * k % 2 ^ 64)) count targets).map
        fun ts => (keys.mergeSort (· ≤ ·), ts) :=
  skewTargets_eq ..

/-- With keys, a call that returns has a target for each round. -/
theorem rounds_le_targets {G : Type} {U : Uniform G} {gen1 gen2 : G} {start ratio q count : ℕ}
    {res : List K × List (List K)} (hn : 0 < keys.length)
    (h : generateSkewWorkloads U gen1 gen2 count start ratio q keys targets = some res) : count ≤ targets.length := by
  by_contra hlt
  rw [generateSkewWorkloads_eq, Option.map_eq_some_iff] at h
  obtain ⟨ts, hts, -⟩ := h
  obtain ⟨t, ht, -⟩ := (skewRounds_inv hts).2.1 targets.length (Nat.lt_of_not_le hlt)
  rw [List.getD_eq_default _ _ (Nat.le_refl _), fillSkewed_none (by simpa using hn)] at ht
  cases ht

section sized

variable {d : K} {m size : ℕ}

/-- What a call with `m` targets of one size has in bounds if it returns. -/
theorem generateSkewWorkloads_some {res : List K × List (List K)} (hcount : 0 < o.hotRangeCount)
    (h64 : keys.length < 2 ^ 64) (hm : 0 < m) (hsize : size ≤ keys.length)
    (h : generateSkewWorkloads lastIndex () () o.hotRangeCount o.hotDataStart o.hotDataRatio o.hotQueryRatio keys
      (List.replicate m (List.replicate size d)) = some res) :
    (keys.length = 0 ∨ (o.hotRangeCount ≤ m ∧ size = keys.length)) ∧ o.HotRangeFits keys.length := by
  rcases Nat.eq_zero_or_pos keys.length with hzero | hn
  · exact ⟨.inl hzero, .inl hzero⟩
  have hrounds := rounds_le_targets hn h
  rw [List.length_replicate] at hrounds
  rw [generateSkewWorkloads_eq, Option.map_eq_some_iff] at h
  obtain ⟨ts, hts, -⟩ := h
  obtain ⟨t, ht, -⟩ := (skewRounds_inv hts).2.1 0 hcount
  have hfill := fillSkewed_some (by simpa using hn) (by simpa using h64) ht
  rw [List.length_mergeSort, List.getD_replicate _ hm, List.length_replicate] at hfill
  obtain ⟨-, hlt, hr, hlong⟩ := hfill
  exact ⟨.inr ⟨hrounds, by omega⟩, hotRangeFits_iff.mpr (.inr ⟨hlt, hr⟩)⟩

/-- What a call with `m` targets of one size needs to return, and to return keys. -/
theorem generateSkewWorkloads_subset {G : Type} (U : Uniform G) (gen1 gen2 : G) (hm : m ≤ o.hotRangeCount)
    (hsize : size ≤ keys.length) (hcase : keys.length = 0 ∨ (o.hotRangeCount ≤ m ∧ size = keys.length))
    (hfits : o.HotRangeFits keys.length) :
    ∃ sorted ts, generateSkewWorkloads U gen1 gen2 o.hotRangeCount o.hotDataStart o.hotDataRatio o.hotQueryRatio keys
        (List.replicate m (List.replicate size d)) = some (sorted, ts) ∧ sorted.Perm keys ∧ ∀ t ∈ ts, t ⊆ keys := by
  have hsort : (keys.mergeSort (· ≤ ·)).Perm keys := List.mergeSort_perm _ _
  have hlenSort : (keys.mergeSort (· ≤ ·)).length = keys.length := hsort.length_eq
  have htarget : ∀ j < o.hotRangeCount,
      ((List.replicate m (List.replicate size d)).getD j []).length = keys.length := by
    intro j hj
    by_cases hjm : j < m
    · rw [List.getD_replicate _ hjm, List.length_replicate]
      omega
    · have hzero : keys.length = 0 := by omega
      rw [List.getD_eq_default _ _ (by simpa using hjm), hzero]
      rfl
  have hfill : ∀ j < o.hotRangeCount, ∃ t,
      fillSkewed U gen1 gen2 o.hotQueryRatio (keys.mergeSort (· ≤ ·)) (rangeSize keys.length o.hotDataRatio)
        (clampStart (keys.mergeSort (· ≤ ·)).length (rangeSize keys.length o.hotDataRatio)
          (startAt keys.length o.hotDataStart (rangeSize keys.length o.hotDataRatio * j % 2 ^ 64)))
        ((List.replicate m (List.replicate size d)).getD j []) = some t ∧ t ⊆ keys.mergeSort (· ≤ ·) := by
    intro j hj
    rw [← hlenSort] at htarget hfits ⊢
    exact fillSkewed_subset U gen1 gen2 (clampStart_fits (rangeSize_le hfits)) (hotRangeFits_iff.mp hfits)
      (htarget j hj)
  obtain ⟨ts, hts⟩ := Option.isSome_iff_exists.mp <| skewRounds_isSome fun j hj =>
    Option.isSome_iff_exists.mpr ((hfill j hj).imp fun _ h => h.1)
  obtain ⟨hlen, hdone, -⟩ := skewRounds_inv hts
  refine ⟨_, ts, by rw [generateSkewWorkloads_eq, hts, Option.map_some], hsort, fun t ht => ?_⟩
  -- each target is that of a round
  obtain ⟨j, hj⟩ := List.mem_iff_getElem?.mp ht
  have hjm : j < (List.replicate m (List.replicate size d)).length := hlen ▸ (List.getElem?_eq_some_iff.mp hj).1
  have hjcount : j < o.hotRangeCount := by
    rw [List.length_replicate] at hjm
    omega
  obtain ⟨t', ht', hat⟩ := hdone j hjcount
  obtain ⟨t'', ht'', hsub⟩ := hfill j hjcount
  obtain rfl : t' = t := Option.some.inj ((hat hjm).symm.trans hj)
  obtain rfl : t'' = t' := Option.some.inj (ht''.symm.trans ht')
  exact List.Subset.trans hsub hsort.subset

end sized

/-- What a call that overwrites its keys has in bounds. -/
theorem generateSkewWorkload_some {res : List K} (h64 : keys.length < 2 ^ 64)
    (h : generateSkewWorkload lastIndex () () o.hotDataStart o.hotDataRatio o.hotQueryRatio keys = some res) :
    (keys.length = 0 ∨ ⌊percentOf keys.length o.hotDataStart⌋₊ + rangeSize keys.length o.hotDataRatio ≤ keys.length) ∧
      o.HotRangeFits keys.length := by
  rcases Nat.eq_zero_or_pos keys.length with hzero | hn
  · exact ⟨.inl hzero, .inl hzero⟩
  rw [generateSkewWorkload, List.length_mergeSort] at h
  have hfill := fillSkewed_some (by simpa using hn) (by simpa using h64) h
  rw [List.length_mergeSort] at hfill
  exact ⟨.inr hfill.1, hotRangeFits_iff.mpr (.inr ⟨hfill.2.1, hfill.2.2.1⟩)⟩

/-- What a call that overwrites its keys needs to return, and to return keys. -/
theorem generateSkewWorkload_subset {G : Type} (U : Uniform G) (gen1 gen2 : G)
    (hs : keys.length = 0 ∨
      ⌊percentOf keys.length o.hotDataStart⌋₊ + rangeSize keys.length o.hotDataRatio ≤ keys.length)
    (hfits : o.HotRangeFits keys.length) :
    ∃ res, generateSkewWorkload U gen1 gen2 o.hotDataStart o.hotDataRatio o.hotQueryRatio keys = some res ∧
      res ⊆ keys := by
  have hsort : (keys.mergeSort (· ≤ ·)).Perm keys := List.mergeSort_perm _ _
  have hlenSort : (keys.mergeSort (· ≤ ·)).length = keys.length := hsort.length_eq
  have hstart : ⌊percentOf keys.length o.hotDataStart⌋₊ + rangeSize keys.length o.hotDataRatio ≤ keys.length := by
    rcases hs with hzero | hs
    · simp [hzero, rangeSize, percentOf_zero]
    · exact hs
  rw [generateSkewWorkload]
  rw [← hlenSort] at hstart hfits
  obtain ⟨t, ht, hsub⟩ := fillSkewed_subset U gen1 gen2 hstart (hotRangeFits_iff.mp hfits)
    (rfl : (keys.mergeSort (· ≤ ·)).length = _)
  exact ⟨t, ht, List.Subset.trans hsub hsort.subset⟩

end versions

/-! ### The calls -/

namespace SkewOptions

/-- The clamp that the version called by rw_mix does not make changes nothing. -/
def StartFits (o : SkewOptions) (n : ℕ) : Prop :=
  n = 0 ∨ ⌊percentOf n o.hotDataStart⌋₊ + ⌊percentOf n o.hotDataRatio⌋₊ ≤ n

/-- For the main of skewed_partition, with `n` keys in `all_keys` and `m` in `non_exist_keys`. -/
def PartitionFits (o : SkewOptions) (n m : ℕ) : Prop :=
  ((n = 0 ∨ o.hotRangeCount = 1) ∧ o.HotRangeFits n) ∧
    (o.readRatio < 1 → (m = 0 ∨ (o.hotRangeCount = 1 ∧ n = m)) ∧ o.HotRangeFits m)

/-- For rw_mix, with `n` keys in `all_keys` and `m` in `non_exist_keys`. -/
def RwMixFits (o : SkewOptions) (n m : ℕ) : Prop :=
  (o.StartFits n ∧ o.HotRangeFits n) ∧ (o.readRatio < 1 → o.StartFits m ∧ o.HotRangeFits m)

end SkewOptions

section calls

variable [LinearOrder K] [Inhabited K] {o : SkewOptions} {keys : Keys K} {file : List K}

/-- The calls of a main with `m` targets of each kind, not more than there are rounds. -/
theorem skewMain_inBounds_iff {m size : ℕ} (hcount : 0 < o.hotRangeCount) (hm : 0 < m) (hmc : m ≤ o.hotRangeCount)
    (hof : keys.Of file) (hall64 : keys.allKeys.length < 2 ^ 64) (hnon64 : keys.nonExistKeys.length < 2 ^ 64)
    (hsize : size ≤ keys.nonExistKeys.length) :
    InBounds (fun _ U gen1 gen2 => skewMain U gen1 gen2 o keys (List.replicate m []) size) (Skewed.Of file) ↔
      ((keys.allKeys.length = 0 ∨ o.hotRangeCount ≤ m) ∧ o.HotRangeFits keys.allKeys.length) ∧
        (o.readRatio < 1 →
          (keys.nonExistKeys.length = 0 ∨ (o.hotRangeCount ≤ m ∧ size = keys.nonExistKeys.length)) ∧
            o.HotRangeFits keys.nonExistKeys.length) := by
  constructor
  · intro hcall
    obtain ⟨s, hs, -⟩ := hcall Unit lastIndex () ()
    simp only [skewMain, map_resize, Option.bind_eq_bind, Option.bind_eq_some_iff] at hs
    obtain ⟨⟨allKeys, skewedKeys⟩, hall, hs⟩ := hs
    obtain ⟨hcase, hfits⟩ := generateSkewWorkloads_some hcount hall64 hm (Nat.le_refl _) hall
    refine ⟨⟨hcase.imp_right And.left, hfits⟩, fun hwrites => ?_⟩
    rw [if_pos hwrites, Option.bind_eq_some_iff] at hs
    obtain ⟨_, hnon, -⟩ := hs
    exact generateSkewWorkloads_some hcount hnon64 hm hsize hnon
  · rintro ⟨⟨hcase, hfits⟩, hwrites⟩ G U gen1 gen2
    obtain ⟨allKeys, skewedKeys, hall, hperm, hsub⟩ := generateSkewWorkloads_subset (d := (default : K)) U gen1 gen2
      hmc (Nat.le_refl _) (hcase.imp_right fun hrounds => ⟨hrounds, rfl⟩) hfits
    have hallOf : allKeys ⊆ file := List.Subset.trans hperm.subset hof.1
    have hskewedOf : ∀ t ∈ skewedKeys, t ⊆ file := fun t ht => List.Subset.trans (hsub t ht) hof.1
    simp only [skewMain, map_resize, hall, Option.bind_eq_bind, Option.bind_some]
    by_cases hread : o.readRatio < 1
    · obtain ⟨hcase', hfits'⟩ := hwrites hread
      obtain ⟨nonExistKeys, skewedNonExistKeys, hnon, hperm', hsub'⟩ :=
        generateSkewWorkloads_subset (d := (default : K)) U gen1 gen2 hmc hsize hcase' hfits'
      rw [if_pos hread, hnon]
      exact ⟨_, rfl, ⟨hallOf, List.Subset.trans hperm'.subset hof.2⟩, hskewedOf,
        fun t ht => List.Subset.trans (hsub' t ht) hof.2⟩
    · rw [if_neg hread]
      refine ⟨_, rfl, ⟨hallOf, hof.2⟩, hskewedOf, fun t ht => ?_⟩
      rw [List.eq_of_mem_replicate ht]
      exact List.nil_subset file

theorem skewedPartition_inBounds_iff (h : o.Accepted) (hof : keys.Of file) (hall64 : keys.allKeys.length < 2 ^ 64)
    (hnon64 : keys.nonExistKeys.length < 2 ^ 64) (hle : keys.allKeys.length ≤ keys.nonExistKeys.length) :
    InBounds (fun _ U gen1 gen2 => skewedPartition U gen1 gen2 o keys) (Skewed.Of file) ↔
      o.PartitionFits keys.allKeys.length keys.nonExistKeys.length := by
  have hone : o.hotRangeCount ≤ 1 ↔ o.hotRangeCount = 1 := by
    have := h.hotRangeCount_pos
    omega
  unfold skewedPartition initialTargets
  rw [skewMain_inBounds_iff h.hotRangeCount_pos Nat.one_pos h.hotRangeCount_pos hof hall64 hnon64 hle, hone]
  rfl

/-- With a target for each range, and each kind sized by its keys, the range is all that matters. -/
theorem dynamicHotRange_inBounds_iff (h : o.Accepted) (hof : keys.Of file) (hall64 : keys.allKeys.length < 2 ^ 64)
    (hnon64 : keys.nonExistKeys.length < 2 ^ 64) :
    InBounds (fun _ U gen1 gen2 => dynamicHotRange U gen1 gen2 o keys) (Skewed.Of file) ↔
      o.HotRangeFits keys.allKeys.length ∧ (o.readRatio < 1 → o.HotRangeFits keys.nonExistKeys.length) := by
  have hpos := h.hotRangeCount_pos
  have htargets : resize initialTargets o.hotRangeCount ([] : List K) = List.replicate o.hotRangeCount [] := by
    rw [resize, initialTargets, List.take_replicate, List.length_replicate, List.replicate_append_replicate]
    congr 1
    omega
  unfold dynamicHotRange
  rw [htargets, skewMain_inBounds_iff hpos hpos (Nat.le_refl _) hof hall64 hnon64 (Nat.le_refl _)]
  simp only [Nat.le_refl, and_self, or_true, true_and]

omit [Inhabited K] in
theorem rwMixSkew_inBounds_iff (hof : keys.Of file) (hn : keys.allKeys.length < 2 ^ 64)
    (hm : keys.nonExistKeys.length < 2 ^ 64) :
    InBounds (fun _ U gen1 gen2 => rwMixSkew U gen1 gen2 o keys) (Keys.Of file) ↔
      o.RwMixFits keys.allKeys.length keys.nonExistKeys.length := by
  constructor
  · intro hcall
    obtain ⟨s, hs, -⟩ := hcall Unit lastIndex () ()
    simp only [rwMixSkew, Option.bind_eq_bind, Option.bind_eq_some_iff] at hs
    obtain ⟨allKeys, hall, hs⟩ := hs
    refine ⟨generateSkewWorkload_some hn hall, fun hwrites => ?_⟩
    rw [if_pos hwrites, Option.bind_eq_some_iff] at hs
    obtain ⟨_, hnon, -⟩ := hs
    exact generateSkewWorkload_some hm hnon
  · rintro ⟨⟨hstart, hfits⟩, hwrites⟩ G U gen1 gen2
    obtain ⟨allKeys, hall, hsub⟩ := generateSkewWorkload_subset U gen1 gen2 hstart hfits
    have hallOf : allKeys ⊆ file := List.Subset.trans hsub hof.1
    simp only [rwMixSkew, hall, Option.bind_eq_bind, Option.bind_some]
    by_cases hread : o.readRatio < 1
    · obtain ⟨hstart', hfits'⟩ := hwrites hread
      obtain ⟨nonExistKeys, hnon, hsub'⟩ := generateSkewWorkload_subset U gen1 gen2 hstart' hfits'
      rw [if_pos hread, hnon]
      exact ⟨_, rfl, hallOf, List.Subset.trans hsub' hof.2⟩
    · rw [if_neg hread]
      exact ⟨_, rfl, hallOf, hof.2⟩

/-- The two halves of a key file, in the order the shuffle leaves: when the calls on them stay in
bounds, and make keys of the file. -/
theorem skew_calls_sound_iff (h : o.Accepted) (h64 : file.length < 2 ^ 64) :
    ((o.Reaches (file.length / 2) →
        InBounds (fun _ U gen1 gen2 => skewedPartition U gen1 gen2 o (readKeysFromFile file)) (Skewed.Of file)) ↔
      (o.Reaches (file.length / 2) → o.PartitionFits (file.length / 2) (file.length - file.length / 2))) ∧
    (InBounds (fun _ U gen1 gen2 => rwMixSkew U gen1 gen2 o (readKeysFromFile file)) (Keys.Of file) ↔
      o.RwMixFits (file.length / 2) (file.length - file.length / 2)) := by
  have hall : (readKeysFromFile file).allKeys.length = file.length / 2 := by
    rw [readKeysFromFile, List.length_take]
    omega
  have hnon : (readKeysFromFile file).nonExistKeys.length = file.length - file.length / 2 := by
    rw [readKeysFromFile, List.length_drop]
  have hof : (readKeysFromFile file).Of file := ⟨List.take_subset _ _, List.drop_subset _ _⟩
  constructor
  · refine imp_congr_right fun _ => ?_
    rw [skewedPartition_inBounds_iff h hof (by omega) (by omega) (by omega), hall, hnon]
  · rw [rwMixSkew_inBounds_iff hof (by omega) (by omega), hall, hnon]

end calls

/-- Two hot ranges of one key each at the end of two keys, and reads only. -/
def twoRanges : SkewOptions where
  readRatio := 1
  insertRatio := 0
  operationCount := 0
  hotDataStart := 100
  hotDataRatio := 50
  hotQueryRatio := 50
  hotRangeCount := 2

def fourKeys : List ℕ := [40, 10, 30, 20]

theorem twoRanges_accepted : twoRanges.Accepted where
  readRatio := by decide +kernel
  insertRatio := by decide +kernel
  operationCount_nonneg := by decide
  hotDataRatio_ne := by decide
  hotDataRatio_le := by decide
  hotQueryRatio_le := by decide
  hotDataStart_le := by decide
  hotRangeCount_pos := by decide

theorem skew_calls_sound_twoRanges :
    ((twoRanges.Reaches (fourKeys.length / 2) →
        InBounds (fun _ U gen1 gen2 => skewedPartition U gen1 gen2 twoRanges (readKeysFromFile fourKeys))
          (Skewed.Of fourKeys)) ↔
      (twoRanges.Reaches (fourKeys.length / 2) →
        twoRanges.PartitionFits (fourKeys.length / 2) (fourKeys.length - fourKeys.length / 2))) ∧
    (InBounds (fun _ U gen1 gen2 => rwMixSkew U gen1 gen2 twoRanges (readKeysFromFile fourKeys)) (Keys.Of fourKeys) ↔
      twoRanges.RwMixFits (fourKeys.length / 2) (fourKeys.length - fourKeys.length / 2)) :=
  skew_calls_sound_iff twoRanges_accepted (by decide)

/-- Whatever is drawn, the second round writes beyond the targets, and rw_mix reads beyond its keys. -/
theorem skew_calls_unsound :
    twoRanges.Accepted ∧ twoRanges.Reaches (fourKeys.length / 2) ∧
      (∀ (G : Type) (U : Uniform G) (gen1 gen2 : G),
        skewedPartition U gen1 gen2 twoRanges (readKeysFromFile fourKeys) = none) ∧
      ∀ (G : Type) (U : Uniform G) (gen1 gen2 : G),
        rwMixSkew U gen1 gen2 twoRanges (readKeysFromFile fourKeys) = none := by
  refine ⟨twoRanges_accepted, ⟨by decide +kernel, by decide +kernel⟩, fun G U gen1 gen2 => ?_, fun G U gen1 gen2 => ?_⟩
  · rw [skewedPartition, skewMain, Option.bind_eq_bind, Option.bind_eq_none_iff]
    intro res hres
    rw [initialTargets, map_resize] at hres
    exact absurd (rounds_le_targets (by decide) hres) (by decide)
  · have hlen : (readKeysFromFile fourKeys).allKeys.length = 2 := rfl
    have hbeyond : 2 < ⌊percentOf 2 100⌋₊ + rangeSize 2 50 := by decide +kernel
    rw [rwMixSkew, generateSkewWorkload, List.length_mergeSort, hlen,
      fillSkewed_beyond (by rwa [List.length_mergeSort, hlen])]
    rfl

end SidleBaselines.Synthetic
