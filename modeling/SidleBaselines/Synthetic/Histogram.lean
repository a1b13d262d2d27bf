import SidleBaselines.Data.Tally

/-!
# The access histogram

`class sidle_histogram` of `src/benchmark/synthetic/false_positive_internode.cpp`:
`update` counts one node in the bucket of its access count and tells whether the
node is hot, warm or cold, `refresh` makes the buckets counted so far the ones
that `adjust_threshold` reads, and `adjust_threshold` sets the two thresholds such
that about 5% of the nodes are hot and 80% are not cold.

Bucket contents are naturals, as is the total number; what
`adjust_threshold` computes from them is shown to stay below `2 ^ 64` wherever
this is said. Access counts are cut to sixteen bits where the code cuts them.

## What is proved

* `le_getIdx_iff` — the bucket of a count, away from the special cases;
* `record_nextHistogram` — a recorded list of counts is the tally of the buckets;
* `adjustLoop_eq` — the loop finds the last positions above its two bounds;
* `adjustThreshold_quantiles` — the thresholds are the two quantiles, as powers of
  two in order.
-/

namespace SidleBaselines.Synthetic

open SidleBaselines.Data

/-- `enum class type`. -/
inductive Hotness where
  | hot
  | warm
  | cold
  deriving DecidableEq, Repr

/-- `class sidle_histogram`. -/
structure SidleHistogram where
  histogram : List ℕ := List.replicate 16 0
  /-- The counts for the next round. -/
  nextHistogram : List ℕ := List.replicate 16 0
  hotThreshold : ℕ := 64
  coldThreshold : ℕ := 80
  totalNumber : ℕ := 0
  totalAccessCount : ℕ := 0
  deriving DecidableEq, Repr

namespace SidleHistogram

/-- The loop of `get_idx`: shift until nothing is left or the count is 15. -/
def getIdxLoop (num cnt : ℕ) : ℕ :=
  if num / 2 = 0 then cnt
  else if cnt + 1 = 15 then cnt + 1
  else getIdxLoop (num / 2) (cnt + 1)
termination_by num

/-- `get_idx`: the argument is a `uint16_t`, so `num++` wraps. -/
def getIdx (num : ℕ) : ℕ :=
  getIdxLoop ((num + 1) % 2 ^ 16) 0

theorem getIdxLoop_lt (num cnt : ℕ) (h : cnt < 15) : getIdxLoop num cnt < 16 := by
  fun_induction getIdxLoop num cnt with
  | case1 => omega
  | case2 => omega
  | case3 num cnt _ hcnt ih => exact ih (by omega)

/-- The index is one of the sixteen of the histogram. -/
theorem getIdx_lt (num : ℕ) : getIdx num < 16 :=
  getIdxLoop_lt _ 0 (by omega)

/-- `update`: the access count is cut to a `uint16_t` by the call. -/
def update (h : SidleHistogram) (access : ℕ) : Hotness × SidleHistogram :=
  let accessCount := access % 2 ^ 16
  let curIndex := if accessCount ≤ 1 then 0 else getIdx accessCount
  let h' := { h with nextHistogram := h.nextHistogram.modify curIndex (· + 1) }
  if accessCount > h.hotThreshold then (.hot, h')
  else if accessCount < h.coldThreshold then (.cold, h')
  else (.warm, h')

/-- `refresh`. -/
def refresh (h : SidleHistogram) (totalNumber totalAccessCount : ℕ) : SidleHistogram :=
  { h with
    totalNumber := totalNumber
    totalAccessCount := totalAccessCount
    histogram := h.nextHistogram
    nextHistogram := List.replicate h.nextHistogram.length 0 }

/-- The loop of `adjust_threshold` over the indexes below `index`: the hot and the
cold index, `none` for the `-1` they start from. -/
def adjustLoop (histogram : List ℕ) (activeLowerBound inactiveUpperBound : ℕ) :
    ℕ → ℕ → Option ℕ → Option ℕ × Option ℕ
  | 0, _, hotIndex => (hotIndex, none)
  | index + 1, activeCount, hotIndex =>
    let n := histogram.getD index 0
    let hotIndex := if activeCount + n > activeLowerBound ∧ hotIndex = none then some index else hotIndex
    if activeCount + n > inactiveUpperBound then (hotIndex, some index)
    else adjustLoop histogram activeLowerBound inactiveUpperBound index (activeCount + n) hotIndex

/-- `adjust_threshold`. -/
def adjustThreshold (h : SidleHistogram) : SidleHistogram :=
  if h.totalNumber = 0 then h
  else
    let activeLowerBound := 5 * h.totalNumber / 100
    let inactiveUpperBound := 80 * h.totalNumber / 100
    let (hotIndex, coldIndex) := adjustLoop h.histogram activeLowerBound inactiveUpperBound 16 0 none
    let hotIndex := match hotIndex with
      | none => 0
      | some i => if i ≠ 15 then i + 1 else i
    { h with hotThreshold := 1 <<< hotIndex, coldThreshold := 1 <<< coldIndex.getD 0 }

/-- `adjust_for_cooling`. -/
def adjustForCooling (h : SidleHistogram) : SidleHistogram :=
  { h with
    histogram := ((List.range 15).foldl (fun l i => l.set i (l.getD (i + 1) 0)) h.histogram).set 15 0
    hotThreshold := h.hotThreshold >>> 1
    coldThreshold := h.coldThreshold >>> 1 }

/-! ### Buckets -/

theorem getIdxLoop_eq (num cnt : ℕ) (hcnt : cnt < 15) (hnum : num < 2 ^ (16 - cnt)) :
    getIdxLoop num cnt = cnt + Nat.log 2 num := by
  fun_induction getIdxLoop num cnt with
  | case1 num cnt h =>
    rw [Nat.log_of_lt (by omega), Nat.add_zero]
  | case2 num cnt h hc =>
    have hlt : num / 2 < 2 := by
      have : 16 - cnt = 2 := by omega
      rw [this] at hnum
      omega
    rw [Nat.log_of_one_lt_of_le (by omega) (by omega), Nat.log_of_lt hlt]
  | case3 num cnt h hc ih =>
    have hpow : 2 ^ (16 - cnt) = 2 ^ (16 - (cnt + 1)) * 2 := by
      rw [← Nat.pow_succ]
      congr 1
      omega
    rw [ih (by omega) (by omega), Nat.log_of_one_lt_of_le (b := 2) (n := num) (by omega) (by omega)]
    omega

/-- Up to 65534 the bucket of a count is the logarithm of its successor. -/
theorem le_getIdx_iff {c i : ℕ} (hc : c ≤ 65534) : i ≤ getIdx c ↔ 2 ^ i ≤ c + 1 := by
  rw [getIdx, Nat.mod_eq_of_lt (by omega), getIdxLoop_eq _ _ (by omega) (by omega), Nat.zero_add]
  exact Nat.le_log_iff_pow_le (by omega) (by omega)

/-- The last count wraps. -/
theorem getIdx_max : getIdx 65535 = 0 := by
  rw [getIdx, getIdxLoop_eq _ _ (by omega) (by omega)]
  simp

/-- The bucket in which `update` counts a node. -/
def bucketOf (access : ℕ) : ℕ :=
  if access % 2 ^ 16 ≤ 1 then 0 else getIdx (access % 2 ^ 16)

theorem bucketOf_lt (access : ℕ) : bucketOf access < 16 := by
  unfold bucketOf
  split_ifs
  · omega
  · exact getIdx_lt _

/-- From bucket 1 on: the special cases are the counts 0, 1 and 65535. -/
theorem le_bucketOf_iff {c i : ℕ} (hc : c ≤ 65535) (hi : 1 ≤ i) :
    i ≤ bucketOf c ↔ c ≠ 65535 ∧ 2 ≤ c ∧ 2 ^ i ≤ c + 1 := by
  rw [bucketOf, Nat.mod_eq_of_lt (by omega)]
  by_cases h1 : c ≤ 1
  · rw [if_pos h1]
    omega
  · rw [if_neg h1]
    by_cases hmax : c = 65535
    · subst hmax
      rw [getIdx_max]
      omega
    · rw [le_getIdx_iff (by omega)]
      omega

/-! ### Recording and classifying -/

/-- `update` for one count after the other. -/
def record (h : SidleHistogram) (counts : List ℕ) : SidleHistogram :=
  counts.foldl (fun h c => (h.update c).2) h

/-- What `update` returns for one count after the other. -/
def classify (h : SidleHistogram) : List ℕ → List Hotness
  | [] => []
  | c :: counts => (h.update c).1 :: (h.update c).2.classify counts

theorem update_snd (h : SidleHistogram) (access : ℕ) :
    (h.update access).2 = { h with nextHistogram := h.nextHistogram.modify (bucketOf access) (· + 1) } := by
  simp only [update, bucketOf]
  split_ifs <;> rfl

theorem update_fst (h : SidleHistogram) (access : ℕ) :
    (h.update access).1 =
      if h.hotThreshold < access % 2 ^ 16 then .hot
      else if access % 2 ^ 16 < h.coldThreshold then .cold else .warm := by
  simp only [update, gt_iff_lt]
  split_ifs <;> rfl

theorem update_hot_iff (h : SidleHistogram) (access : ℕ) :
    (h.update access).1 = .hot ↔ h.hotThreshold < access % 2 ^ 16 := by
  rw [update_fst]
  split_ifs <;> simp_all

/-- Classifying leaves the thresholds alone. -/
theorem classify_eq (h : SidleHistogram) (counts : List ℕ) :
    h.classify counts = counts.map fun c => (h.update c).1 := by
  induction counts generalizing h with
  | nil => rfl
  | cons c counts ih =>
    rw [classify, ih, List.map_cons]
    congr 1
    apply List.map_congr_left
    intro d _
    simp only [update_fst, update_snd]

/-- A recorded list of counts is the tally of its buckets. -/
theorem record_nextHistogram {h : SidleHistogram} {m : List ℕ} (hm : h.nextHistogram = tally 16 bucketOf m)
    (counts : List ℕ) : (h.record counts).nextHistogram = tally 16 bucketOf (m ++ counts) := by
  induction counts generalizing h m with
  | nil => rw [List.append_nil, ← hm]; rfl
  | cons c counts ih =>
    have hstep : (h.update c).2.nextHistogram = tally 16 bucketOf (m ++ [c]) := by
      rw [update_snd, tally_concat, ← hm]
    rw [List.append_cons]
    exact ih hstep

theorem record_fresh {h : SidleHistogram} (hnext : h.nextHistogram = List.replicate 16 0) (counts : List ℕ) :
    (h.record counts).nextHistogram = tally 16 bucketOf counts := by
  rw [← tally_nil 16 bucketOf] at hnext
  rw [record_nextHistogram hnext, List.nil_append]

/-! ### The two quantiles -/

/-- The buckets that the loop of `adjust_threshold` reads. -/
def adjustIndexes (histogram : List ℕ) (inactiveUpperBound : ℕ) : ℕ → ℕ → List ℕ
  | 0, _ => []
  | index + 1, activeCount =>
    let n := histogram.getD index 0
    if activeCount + n > inactiveUpperBound then [index]
    else index :: adjustIndexes histogram inactiveUpperBound index (activeCount + n)

theorem adjustIndexes_lt {histogram : List ℕ} {bound n activeCount : ℕ} :
    ∀ i ∈ adjustIndexes histogram bound n activeCount, i < n := by
  induction n generalizing activeCount with
  | zero => simp [adjustIndexes]
  | succ n ih =>
    intro i hi
    simp only [adjustIndexes] at hi
    split_ifs at hi
    · simp only [List.mem_singleton] at hi
      omega
    · rcases List.mem_cons.mp hi with rfl | hi
      · omega
      · have := ih i hi
        omega

/-- From the sum of the buckets above, the loop finds the last positions above its bounds. -/
theorem adjustLoop_eq {l : List ℕ} {lower upper : ℕ} (hle : lower ≤ upper) (n : ℕ) (hot : Option ℕ) :
    adjustLoop l lower upper n (suffixSum l n) hot =
      (hot.or (lastAbove l lower n), lastAbove l upper n) := by
  induction n generalizing hot with
  | zero => simp [adjustLoop, lastAbove]
  | succ n ih =>
    simp only [adjustLoop, lastAbove, ← suffixSum_succ, gt_iff_lt]
    by_cases hu : upper < suffixSum l n
    · have hl : lower < suffixSum l n := by omega
      rw [if_pos hu, if_pos hu, if_pos hl]
      cases hot <;> simp [hl]
    · rw [if_neg hu, if_neg hu, ih]
      by_cases hl : lower < suffixSum l n
      · cases hot <;> simp [hl]
      · simp [hl]

/-- The shift amount made of the hot index. -/
def hotShift : Option ℕ → ℕ
  | none => 0
  | some i => if i ≠ 15 then i + 1 else i

theorem adjustThreshold_eq {h : SidleHistogram} (hlen : h.histogram.length ≤ 16) (htotal : h.totalNumber ≠ 0) :
    h.adjustThreshold = { h with
      hotThreshold := 1 <<< hotShift (lastAbove h.histogram (5 * h.totalNumber / 100) 16)
      coldThreshold := 1 <<< (lastAbove h.histogram (80 * h.totalNumber / 100) 16).getD 0 } := by
  have hzero : suffixSum h.histogram 16 = 0 := suffixSum_of_length_le hlen
  have hle : 5 * h.totalNumber / 100 ≤ 80 * h.totalNumber / 100 := by omega
  have hloop := adjustLoop_eq (l := h.histogram) hle 16 none
  rw [hzero, Option.none_or] at hloop
  rw [adjustThreshold, if_neg htotal]
  simp only [hloop]
  rfl

theorem hotShift_le {i : Option ℕ} (hi : ∀ j ∈ i, j < 16) : hotShift i ≤ 15 := by
  cases i with
  | none => simp [hotShift]
  | some j =>
    have := hi j rfl
    simp only [hotShift]
    split_ifs <;> omega

theorem lastAbove_lt {l : List ℕ} {bound n : ℕ} : ∀ i ∈ lastAbove l bound n, i < n := by
  intro i hi
  exact (lastAbove_eq_some_iff.mp hi).1.1

section adjust

variable {h : SidleHistogram} (hlen : h.histogram.length ≤ 16) (htotal : h.totalNumber ≠ 0)
include hlen htotal

theorem adjust_hot_of_isGreatest {i : ℕ}
    (hi : IsGreatest {j | j < 16 ∧ 5 * h.totalNumber / 100 < suffixSum h.histogram j} i) :
    h.adjustThreshold.hotThreshold = if i = 15 then 2 ^ i else 2 ^ (i + 1) := by
  rw [adjustThreshold_eq hlen htotal]
  simp only [lastAbove_eq_some_iff.mpr hi, hotShift, Nat.one_shiftLeft]
  split_ifs <;> simp_all

theorem adjust_hot_of_none (hi : ∀ j < 16, suffixSum h.histogram j ≤ 5 * h.totalNumber / 100) :
    h.adjustThreshold.hotThreshold = 1 := by
  rw [adjustThreshold_eq hlen htotal]
  simp [lastAbove_eq_none_iff.mpr hi, hotShift]

theorem adjust_cold_of_isGreatest {i : ℕ}
    (hi : IsGreatest {j | j < 16 ∧ 80 * h.totalNumber / 100 < suffixSum h.histogram j} i) :
    h.adjustThreshold.coldThreshold = 2 ^ i := by
  rw [adjustThreshold_eq hlen htotal]
  simp [lastAbove_eq_some_iff.mpr hi, Nat.one_shiftLeft]

theorem adjust_cold_of_none (hi : ∀ j < 16, suffixSum h.histogram j ≤ 80 * h.totalNumber / 100) :
    h.adjustThreshold.coldThreshold = 1 := by
  rw [adjustThreshold_eq hlen htotal]
  simp [lastAbove_eq_none_iff.mpr hi]

/-- The thresholds are powers of two in order: the hot index is no smaller than the cold one. -/
theorem adjust_shifts : ∃ s t, t ≤ s ∧ s ≤ 15 ∧ h.adjustThreshold.hotThreshold = 1 <<< s ∧
    h.adjustThreshold.coldThreshold = 1 <<< t := by
  have hle : 5 * h.totalNumber / 100 ≤ 80 * h.totalNumber / 100 := by omega
  refine ⟨_, _, ?_, hotShift_le lastAbove_lt, by rw [adjustThreshold_eq hlen htotal],
    by rw [adjustThreshold_eq hlen htotal]⟩
  cases hc : lastAbove h.histogram (80 * h.totalNumber / 100) 16 with
  | none => simp
  | some c =>
    obtain ⟨i, hci, hi⟩ := lastAbove_mono hle hc
    have hlt : i < 16 := lastAbove_lt i hi
    rw [hi, Option.getD_some, hotShift]
    split_ifs <;> omega

end adjust

/-- `adjust_threshold` sets the thresholds to the two quantiles: nothing wraps, the hot
threshold is above the last bucket from which on more than 5% of the nodes lie, the cold
threshold is the last bucket from which on more than 80% lie. -/
theorem adjustThreshold_quantiles (h : SidleHistogram) (hlen : h.histogram.length = 16)
    (hsum : h.histogram.sum < 2 ^ 64) (hpos : 0 < h.totalNumber) (hmax : h.totalNumber ≤ (2 ^ 64 - 1) / 80) :
    let S := suffixSum h.histogram
    let lower := 5 * h.totalNumber / 100
    let upper := 80 * h.totalNumber / 100
    let h' := h.adjustThreshold
    (5 * h.totalNumber < 2 ^ 64 ∧ 80 * h.totalNumber < 2 ^ 64 ∧ ∀ i, S i < 2 ^ 64) ∧
    (∀ i, IsGreatest {j | j < 16 ∧ lower < S j} i →
      h'.hotThreshold = if i = 15 then 2 ^ i else 2 ^ (i + 1)) ∧
    ((∀ j < 16, S j ≤ lower) → h'.hotThreshold = 1) ∧
    (∀ i, IsGreatest {j | j < 16 ∧ upper < S j} i → h'.coldThreshold = 2 ^ i) ∧
    ((∀ j < 16, S j ≤ upper) → h'.coldThreshold = 1) ∧
    (1 ≤ h'.coldThreshold ∧ h'.coldThreshold ≤ h'.hotThreshold ∧ h'.hotThreshold ≤ 2 ^ 15) ∧
    (∃ s ≤ 15, ∃ t ≤ 15, h'.hotThreshold = 1 <<< s ∧ h'.coldThreshold = 1 <<< t) ∧
    ∀ i ∈ adjustIndexes h.histogram upper 16 0, i < h.histogram.length := by
  intro S lower upper h'
  have hlen' : h.histogram.length ≤ 16 := by omega
  have htotal : h.totalNumber ≠ 0 := by omega
  have hwrap : ∀ i, S i < 2 ^ 64 := fun i => Nat.lt_of_le_of_lt (suffixSum_le_sum h.histogram i) hsum
  obtain ⟨s, t, hts, hs, hhot, hcold⟩ := adjust_shifts hlen' htotal
  refine ⟨⟨by omega, by omega, hwrap⟩, fun i => adjust_hot_of_isGreatest hlen' htotal,
    adjust_hot_of_none hlen' htotal, fun i => adjust_cold_of_isGreatest hlen' htotal,
    adjust_cold_of_none hlen' htotal, ?_, ⟨s, hs, t, by omega, hhot, hcold⟩, ?_⟩
  · rw [Nat.one_shiftLeft] at hhot hcold
    have ht : 2 ^ t ≤ 2 ^ s := Nat.pow_le_pow_right (by omega) hts
    have hs : 2 ^ s ≤ 2 ^ 15 := Nat.pow_le_pow_right (by omega) hs
    have hp : 0 < 2 ^ t := Nat.two_pow_pos t
    show 1 ≤ h.adjustThreshold.coldThreshold ∧ h.adjustThreshold.coldThreshold ≤
      h.adjustThreshold.hotThreshold ∧ h.adjustThreshold.hotThreshold ≤ 2 ^ 15
    omega
  · rw [hlen]
    exact adjustIndexes_lt

/-- Ten nodes, eight of them accessed rarely. -/
theorem adjustThreshold_quantiles_ten :
    ({ histogram := [2, 6, 0, 1, 0, 0, 0, 1, 0, 0, 0, 0, 0, 0, 0, 0], totalNumber := 10 } :
      SidleHistogram).adjustThreshold.hotThreshold = 2 ^ 8 :=
  (adjustThreshold_quantiles _ rfl (by decide) (by decide) (by decide)).2.1 7
    ⟨by simp [suffixSum], fun j hj => by
      have : j < 16 := hj.1
      by_contra hlt
      have : suffixSum [2, 6, 0, 1, 0, 0, 0, 1, 0, 0, 0, 0, 0, 0, 0, 0] j ≤
          suffixSum [2, 6, 0, 1, 0, 0, 0, 1, 0, 0, 0, 0, 0, 0, 0, 0] 8 := suffixSum_anti _ (by omega)
      have := hj.2
      simp [suffixSum] at *
      omega⟩

end SidleHistogram

end SidleBaselines.Synthetic
