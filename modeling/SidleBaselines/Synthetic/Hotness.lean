import SidleBaselines.Synthetic.Histogram

/-!
# Hot, warm and cold nodes

What the classes of `sidle_histogram` mean. `main` of
`src/benchmark/synthetic/false_positive_internode.cpp` records the access counts of
one level, refreshes, adjusts the thresholds and classifies the same counts; the
hot ones are meant to be about 5% of them. Two slips of sixteen-bit arithmetic show:
`get_idx` adds one to its argument before it shifts, so 65535 wraps to bucket 0,
and the callers pass 64-bit counts to the 16-bit parameter of `update`.

## What is proved

* `hot_within_budget_iff` — when no more than the budget is hot;
* `update_monotone_iff` — on which counts the class never falls in any reachable
  state.
-/

namespace SidleBaselines.Synthetic

open SidleBaselines.Data

namespace SidleHistogram

/-! ### The budget of the hot class -/

/-- Record the counts, refresh, and adjust the thresholds. -/
def round (h : SidleHistogram) (counts : List ℕ) : SidleHistogram :=
  ((h.record counts).refresh counts.length (counts.sum % 2 ^ 64)).adjustThreshold

/-- The nodes that may be hot: `active_lower_bound` for `n` nodes. -/
def hotBudget (n : ℕ) : ℕ := 5 * n / 100

/-- How many counts reach bucket `j`, for `j` from 1 on. -/
def reaching (counts : List ℕ) (j : ℕ) : ℕ :=
  counts.countP fun c => c ≠ 65535 ∧ 2 ≤ c ∧ 2 ^ j ≤ c + 1

theorem reaching_anti (counts : List ℕ) {i j : ℕ} (h : i ≤ j) : reaching counts j ≤ reaching counts i := by
  apply List.countP_mono_left
  intro c _ hc
  have hpow : 2 ^ i ≤ 2 ^ j := Nat.pow_le_pow_right (by omega) h
  simp only [decide_eq_true_eq] at hc ⊢
  omega

theorem adjustThreshold_histogram (h : SidleHistogram) : h.adjustThreshold.histogram = h.histogram := by
  unfold adjustThreshold
  split
  · rfl
  · simp only

theorem suffixSum_buckets {counts : List ℕ} (hc : ∀ c ∈ counts, c ≤ 65535) {j : ℕ} (hj : 1 ≤ j) :
    suffixSum (tally 16 bucketOf counts) j = reaching counts j := by
  rw [suffixSum_tally fun c _ => bucketOf_lt c]
  apply List.countP_congr
  intro c hmem
  simp only [decide_eq_true_eq]
  exact le_bucketOf_iff (hc c hmem) hj

/-- More than the budget lies in bucket 0 and above. -/
theorem hotBudget_lt_suffixSum {counts : List ℕ} (hne : counts ≠ []) :
    hotBudget counts.length < suffixSum (tally 16 bucketOf counts) 0 := by
  have hpos : 0 < counts.length := List.length_pos_iff.mpr hne
  rw [suffixSum_zero, sum_tally fun c _ => bucketOf_lt c, hotBudget]
  omega

section round

variable {h : SidleHistogram} (hnext : h.nextHistogram = List.replicate 16 0) {counts : List ℕ}
include hnext

theorem round_histogram : (h.round counts).histogram = tally 16 bucketOf counts := by
  rw [round, adjustThreshold_histogram]
  exact record_fresh hnext counts

/-- Both thresholds of a round, from the last buckets that exceed the two bounds. -/
theorem round_hot_of_isGreatest (hne : counts ≠ []) {i : ℕ}
    (hi : IsGreatest {j | j < 16 ∧ hotBudget counts.length < suffixSum (tally 16 bucketOf counts) j} i) :
    (h.round counts).hotThreshold = if i = 15 then 2 ^ i else 2 ^ (i + 1) := by
  rw [← record_fresh hnext] at hi
  refine adjust_hot_of_isGreatest ?_ ?_ hi
  · show (h.record counts).nextHistogram.length ≤ 16
    rw [record_fresh hnext, length_tally]
  · show counts.length ≠ 0
    simpa using hne

theorem round_cold_of_isGreatest (hne : counts ≠ []) {i : ℕ}
    (hi : IsGreatest {j | j < 16 ∧ 80 * counts.length / 100 < suffixSum (tally 16 bucketOf counts) j} i) :
    (h.round counts).coldThreshold = 2 ^ i := by
  rw [← record_fresh hnext] at hi
  refine adjust_cold_of_isGreatest ?_ ?_ hi
  · show (h.record counts).nextHistogram.length ≤ 16
    rw [record_fresh hnext, length_tally]
  · show counts.length ≠ 0
    simpa using hne

theorem round_top (hc : ∀ c ∈ counts, c ≤ 65535) : (h.round counts).histogram.getD 15 0 = reaching counts 15 := by
  have hlen : (tally 16 bucketOf counts).length ≤ 16 := by
    rw [length_tally]
  rw [round_histogram hnext, ← suffixSum_buckets hc (by omega), suffixSum_succ, suffixSum_of_length_le hlen,
    Nat.zero_add]

end round

/-- Sixteen bits are classified as they are. -/
theorem count_classify_hot (h : SidleHistogram) {counts : List ℕ} (hc : ∀ c ∈ counts, c ≤ 65535) :
    (h.classify counts).count .hot = counts.countP (h.hotThreshold < ·) := by
  rw [classify_eq, List.count_eq_countP, List.countP_map]
  apply List.countP_congr
  intro c hmem
  have hmod : c % 2 ^ 16 = c := Nat.mod_eq_of_lt (by have := hc c hmem; omega)
  simp only [Function.comp_apply, beq_iff_eq, update_hot_iff, hmod, decide_eq_true_eq]

theorem countP_lt_anti (counts : List ℕ) {s t : ℕ} (h : s ≤ t) :
    counts.countP (t < ·) ≤ counts.countP (s < ·) := by
  apply List.countP_mono_left
  intro c _ hc
  simp only [decide_eq_true_eq] at hc ⊢
  omega

/-- The counts classified hot after a round are within the budget, or the top bucket alone
exceeds it, if and only if for no power of two more than the budget lie above it while at most
the budget reach its bucket. The two numbers differ by the counts of 65535 only. -/
theorem hot_within_budget_iff (h : SidleHistogram) (hnext : h.nextHistogram = List.replicate 16 0)
    (counts : List ℕ) (hne : counts ≠ []) (hc : ∀ c ∈ counts, c ≤ 65535) :
    (((h.round counts).classify counts).count .hot ≤ hotBudget counts.length ∨
      hotBudget counts.length < (h.round counts).histogram.getD 15 0) ↔
    ∀ j, 1 ≤ j → j ≤ 15 → hotBudget counts.length < counts.countP (2 ^ j < ·) →
      hotBudget counts.length < reaching counts j := by
  have hzero := hotBudget_lt_suffixSum hne
  obtain ⟨i, hi⟩ : ∃ i, lastAbove (tally 16 bucketOf counts) (hotBudget counts.length) 16 = some i := by
    cases hlast : lastAbove (tally 16 bucketOf counts) (hotBudget counts.length) 16 with
    | none =>
      have := lastAbove_eq_none_iff.mp hlast 0 (by omega)
      omega
    | some i => exact ⟨i, rfl⟩
  rw [lastAbove_eq_some_iff] at hi
  rw [count_classify_hot _ hc, round_top hnext hc, round_hot_of_isGreatest hnext hne hi]
  obtain ⟨⟨hlt, habove⟩, hmax⟩ := hi
  by_cases htop : i = 15
  · -- the top bucket exceeds the budget, and with it every bucket from 1 on
    subst htop
    rw [suffixSum_buckets hc (by omega)] at habove
    refine ⟨fun _ j _ hj _ => ?_, fun _ => Or.inr habove⟩
    exact Nat.lt_of_lt_of_le habove (reaching_anti counts hj)
  · have hbelow : ∀ j, i < j → j ≤ 15 → reaching counts j ≤ hotBudget counts.length := by
      intro j hij hj
      by_contra hgt
      rw [← suffixSum_buckets hc (by omega)] at hgt
      have := hmax ⟨(by omega : j < 16), by omega⟩
      omega
    rw [if_neg htop]
    constructor
    · intro hor j hj₁ hj hexceed
      by_contra hle
      have hij : i + 1 ≤ j := by
        by_contra hji
        rw [suffixSum_buckets hc (by omega)] at habove
        have := reaching_anti counts (show j ≤ i by omega)
        omega
      have hpow : 2 ^ (i + 1) ≤ 2 ^ j := Nat.pow_le_pow_right (by omega) hij
      have := countP_lt_anti counts hpow
      have := hbelow 15 (by omega) (by omega)
      omega
    · intro hall
      left
      by_contra hgt
      have := hall (i + 1) (by omega) (by omega) (by omega)
      have := hbelow (i + 1) (by omega) (by omega)
      omega

/-- Below 65535 every count above a power of two reaches its bucket. -/
theorem countP_lt_le_reaching {counts : List ℕ} (hc : ∀ c ∈ counts, c < 65535) (j : ℕ) :
    counts.countP (2 ^ j < ·) ≤ reaching counts j := by
  apply List.countP_mono_left
  intro c hmem h
  have hlt := hc c hmem
  have hpos : 0 < 2 ^ j := Nat.two_pow_pos j
  simp only [decide_eq_true_eq] at h ⊢
  omega

/-- Twenty nodes, of which one may be hot: nineteen with three accesses and one with a thousand. -/
def twentyCounts : List ℕ := 1000 :: List.replicate 19 3

/-- The condition is met when no count is 65535. -/
theorem hot_within_budget_twenty :
    ((({} : SidleHistogram).round twentyCounts).classify twentyCounts).count .hot ≤ hotBudget 20 ∨
      hotBudget 20 < (({} : SidleHistogram).round twentyCounts).histogram.getD 15 0 :=
  (hot_within_budget_iff {} rfl twentyCounts (by decide) (by decide)).mpr fun j _ _ h =>
    Nat.lt_of_lt_of_le h (countP_lt_le_reaching (by decide) j)

/-- A single node accessed 65535 times: it is counted in bucket 0 and classified hot. -/
theorem hot_over_budget :
    ¬ ∀ counts : List ℕ, counts ≠ [] → (∀ c ∈ counts, c ≤ 65535) →
      ((({} : SidleHistogram).round counts).classify counts).count .hot ≤ hotBudget counts.length ∨
        hotBudget counts.length < (({} : SidleHistogram).round counts).histogram.getD 15 0 := by
  intro hall
  have hne : [65535] ≠ ([] : List ℕ) := by simp
  have hle : ∀ c ∈ [65535], c ≤ 65535 := by simp
  have hnone : ∀ j, reaching [65535] j = 0 := fun j => by simp [reaching]
  have hthreshold : (({} : SidleHistogram).round [65535]).hotThreshold = 2 := by
    refine round_hot_of_isGreatest (i := 0) rfl hne ⟨⟨by omega, hotBudget_lt_suffixSum hne⟩, fun j hj => ?_⟩
    by_contra hpos
    have := hj.2
    rw [suffixSum_buckets hle (by omega), hnone] at this
    omega
  rcases hall [65535] hne hle with h | h
  · rw [count_classify_hot _ hle, hthreshold] at h
    simp [hotBudget] at h
  · rw [round_top rfl hle, hnone] at h
    omega

/-! ### Monotone in the access count -/

/-- The states that `update`, `refresh` and `adjust_threshold` reach from a fresh histogram. -/
inductive Reachable : SidleHistogram → Prop
  | fresh : Reachable {}
  | update {h : SidleHistogram} (access : ℕ) : Reachable h → Reachable (h.update access).2
  | refresh {h : SidleHistogram} (totalNumber totalAccessCount : ℕ) : Reachable h →
      Reachable (h.refresh totalNumber totalAccessCount)
  | adjustThreshold {h : SidleHistogram} : Reachable h → Reachable h.adjustThreshold

/-- The thresholds are the initial ones or powers of two. -/
def PowerThresholds (h : SidleHistogram) : Prop :=
  (h.hotThreshold = 64 ∧ h.coldThreshold = 80) ∨
    (∃ s, h.hotThreshold = 2 ^ s) ∧ ∃ t, h.coldThreshold = 2 ^ t

theorem Reachable.record {h : SidleHistogram} (hr : Reachable h) (counts : List ℕ) :
    Reachable (h.record counts) := by
  induction counts generalizing h with
  | nil => exact hr
  | cons c counts ih => exact ih (hr.update c)

theorem Reachable.round {h : SidleHistogram} (hr : Reachable h) (counts : List ℕ) :
    Reachable (h.round counts) :=
  .adjustThreshold (.refresh _ _ (hr.record counts))

theorem adjustThreshold_powers {h : SidleHistogram} (hpow : PowerThresholds h) :
    PowerThresholds h.adjustThreshold := by
  by_cases htotal : h.totalNumber = 0
  · rwa [adjustThreshold, if_pos htotal]
  · right
    unfold adjustThreshold
    simp only [if_neg htotal, Nat.one_shiftLeft]
    exact ⟨⟨_, rfl⟩, ⟨_, rfl⟩⟩

theorem Reachable.powers {h : SidleHistogram} (hr : Reachable h) : PowerThresholds h := by
  induction hr with
  | fresh => exact Or.inl ⟨rfl, rfl⟩
  | update access _ ih => rw [update_snd]; exact ih
  | refresh _ _ _ ih => exact ih
  | adjustThreshold _ ih => exact adjustThreshold_powers ih

end SidleHistogram

/-- The order of the classes: cold, warm, hot. -/
def Hotness.rank : Hotness → ℕ
  | .cold => 0
  | .warm => 1
  | .hot => 2

namespace SidleHistogram

/-- On what is left of the counts after the cut to sixteen bits, the class is monotone. -/
theorem rank_update_mono (h : SidleHistogram) {a b : ℕ} (hab : a % 2 ^ 16 ≤ b % 2 ^ 16) :
    (h.update a).1.rank ≤ (h.update b).1.rank := by
  simp only [update_fst]
  split_ifs <;> simp only [Hotness.rank] <;> omega

/-- Between two neighbouring powers of two there is no threshold. -/
theorem rank_update_eq {h : SidleHistogram} (hpow : PowerThresholds h) {a b i : ℕ}
    (ha : 2 ^ i < a % 2 ^ 16 ∧ a % 2 ^ 16 < 2 ^ (i + 1)) (hb : 2 ^ i < b % 2 ^ 16 ∧ b % 2 ^ 16 < 2 ^ (i + 1)) :
    (h.update a).1 = (h.update b).1 := by
  have hsplit : ∀ s, 2 ^ s ≤ 2 ^ i ∨ 2 ^ (i + 1) ≤ 2 ^ s := fun s => by
    rcases Nat.lt_or_ge i s with h | h
    · exact Or.inr (Nat.pow_le_pow_right (by omega) h)
    · exact Or.inl (Nat.pow_le_pow_right (by omega) h)
  simp only [update_fst]
  rcases hpow with ⟨hhot, hcold⟩ | ⟨⟨s, hhot⟩, ⟨t, hcold⟩⟩
  · have h64 := hsplit 6
    rw [hhot, hcold]
    split_ifs <;> first | rfl | omega
  · have hs := hsplit s
    have ht := hsplit t
    rw [hhot, hcold]
    split_ifs <;> first | rfl | omega

/-- One node accessed `2 ^ i` times, refreshed and adjusted. -/
def afterOne (i : ℕ) : SidleHistogram :=
  ({} : SidleHistogram).round [2 ^ i]

theorem afterOne_reachable (i : ℕ) : Reachable (afterOne i) :=
  .round .fresh [2 ^ i]

/-- No node accessed, but one node refreshed with. -/
def afterNone : SidleHistogram :=
  (({} : SidleHistogram).refresh 1 0).adjustThreshold

theorem afterNone_reachable : Reachable afterNone :=
  .adjustThreshold (.refresh _ _ .fresh)

theorem afterNone_hot : afterNone.hotThreshold = 1 := by
  decide

theorem afterOne_suffix {i : ℕ} (hi : i ≤ 15) {j : ℕ} :
    0 < suffixSum (tally 16 bucketOf [2 ^ i]) j ↔ j ≤ i := by
  have hpow : 2 ^ i ≤ 2 ^ 15 := Nat.pow_le_pow_right (by omega) hi
  rw [suffixSum_tally fun c _ => bucketOf_lt c, List.countP_pos_iff]
  simp only [List.mem_singleton, decide_eq_true_eq, exists_eq_left]
  rcases Nat.eq_zero_or_pos j with rfl | hj
  · simp
  · rw [le_bucketOf_iff (by omega) hj]
    have hle : j ≤ i → 2 ^ j ≤ 2 ^ i := fun h => Nat.pow_le_pow_right (by omega) h
    have hlt : i < j → 2 ^ (i + 1) ≤ 2 ^ j := fun h => Nat.pow_le_pow_right (by omega) h
    have hsucc : 2 ^ (i + 1) = 2 ^ i * 2 := Nat.pow_succ 2 i
    have hpos : i ≠ 0 → 2 ^ 1 ≤ 2 ^ i := fun h => Nat.pow_le_pow_right (by omega) (by omega)
    constructor
    · rintro ⟨-, h2, hj⟩
      by_contra h
      have := hlt (by omega)
      omega
    · intro h
      have := hle h
      have := hpos (by omega)
      omega

/-- Its thresholds are two neighbouring powers of two, as far as the buckets go. -/
theorem afterOne_thresholds {i : ℕ} (hi : i ≤ 15) :
    (afterOne i).hotThreshold = (if i = 15 then 2 ^ i else 2 ^ (i + 1)) ∧
      (afterOne i).coldThreshold = 2 ^ i := by
  have hgreatest : ∀ b, b = 0 → IsGreatest {j | j < 16 ∧ b < suffixSum (tally 16 bucketOf [2 ^ i]) j} i := by
    rintro _ rfl
    exact ⟨⟨by omega, (afterOne_suffix hi).mpr (Nat.le_refl i)⟩, fun j hj => (afterOne_suffix hi).mp hj.2⟩
  exact ⟨round_hot_of_isGreatest rfl (by simp) (hgreatest _ (by simp [hotBudget])),
    round_cold_of_isGreatest rfl (by simp) (hgreatest _ (by simp))⟩

/-- Each power of two up to `2 ^ 15` is the hot threshold of a reachable state. -/
theorem exists_hotThreshold {i : ℕ} (hi : i ≤ 15) : ∃ h, Reachable h ∧ h.hotThreshold = 2 ^ i := by
  cases i with
  | zero => exact ⟨afterNone, afterNone_reachable, afterNone_hot⟩
  | succ i =>
    refine ⟨afterOne i, afterOne_reachable i, ?_⟩
    rw [(afterOne_thresholds (by omega)).1, if_neg (by omega)]

/-- The class falls when a power of two lies between the two counts. -/
theorem exists_rank_lt {a b i : ℕ} (hi : i ≤ 15) (hb : b % 2 ^ 16 ≤ 2 ^ i) (ha : 2 ^ i ≤ a % 2 ^ 16)
    (hlt : b % 2 ^ 16 < a % 2 ^ 16) :
    ∃ h, Reachable h ∧ (h.update b).1.rank < (h.update a).1.rank := by
  rcases Nat.lt_or_ge (2 ^ i) (a % 2 ^ 16) with hgt | hle
  · -- the hot threshold
    obtain ⟨h, hr, hhot⟩ := exists_hotThreshold hi
    refine ⟨h, hr, ?_⟩
    simp only [update_fst, hhot, if_pos hgt, if_neg (Nat.not_lt.mpr hb)]
    split_ifs <;> simp [Hotness.rank]
  · -- the cold threshold
    obtain ⟨hhot, hcold⟩ := afterOne_thresholds hi
    have hge : 2 ^ i ≤ (afterOne i).hotThreshold := by
      have := Nat.pow_succ 2 i
      rw [hhot]
      split_ifs <;> omega
    refine ⟨afterOne i, afterOne_reachable i, ?_⟩
    simp only [update_fst, hcold]
    rw [if_neg (by omega), if_pos (by omega), if_neg (by omega), if_neg (by omega)]
    simp [Hotness.rank]

/-- A power of two that is not below both counts nor above both. -/
theorem exists_pow_between {x y : ℕ} (hlt : y < x) (hx : x < 2 ^ 16)
    (hapart : ¬ ∃ i, 2 ^ i < y ∧ x < 2 ^ (i + 1)) : ∃ i ≤ 15, y ≤ 2 ^ i ∧ 2 ^ i ≤ x := by
  have hlog : 2 ^ Nat.log 2 x ≤ x := Nat.pow_log_le_self 2 (by omega)
  have hlt' : x < 2 ^ (Nat.log 2 x + 1) := Nat.lt_pow_succ_log_self (by omega) x
  have h15 : Nat.log 2 x < 16 := Nat.log_lt_of_lt_pow (by omega) hx
  refine ⟨Nat.log 2 x, by omega, ?_, hlog⟩
  by_contra hy
  exact hapart ⟨Nat.log 2 x, by omega, hlt'⟩

/-- The class of `a` is never above that of `b`, in any reachable state, if and only if the
cut to sixteen bits orders them so or leaves both strictly between two neighbouring powers
of two. -/
theorem update_monotone_iff (a b : ℕ) :
    (∀ h, Reachable h → (h.update a).1.rank ≤ (h.update b).1.rank) ↔
      a % 2 ^ 16 ≤ b % 2 ^ 16 ∨ ∃ i, 2 ^ i < b % 2 ^ 16 ∧ a % 2 ^ 16 < 2 ^ (i + 1) := by
  constructor
  · intro hall
    by_contra hnot
    rw [not_or, Nat.not_le] at hnot
    obtain ⟨hlt, hapart⟩ := hnot
    obtain ⟨i, hi, hbi, hai⟩ := exists_pow_between hlt (Nat.mod_lt _ (by omega)) hapart
    obtain ⟨h, hr, hrank⟩ := exists_rank_lt hi hbi hai hlt
    have := hall h hr
    omega
  · rintro (hle | ⟨i, hbi, hai⟩) h hr
    · exact rank_update_mono h hle
    · rcases Nat.le_total (a % 2 ^ 16) (b % 2 ^ 16) with hle | hge
      · exact rank_update_mono h hle
      · rw [rank_update_eq hr.powers ⟨by omega, hai⟩ ⟨hbi, by omega⟩]

/-- A leaf with 100 accesses is hot in a fresh histogram, an inner node with 65536 is cold. -/
theorem update_not_monotone :
    ¬ ∀ a b, a ≤ b → b < 2 ^ 64 → ∀ h, Reachable h → (h.update a).1.rank ≤ (h.update b).1.rank := by
  intro hall
  have h := hall 100 65536 (by omega) (by omega) {} .fresh
  simp [update_fst, Hotness.rank] at h

end SidleHistogram

end SidleBaselines.Synthetic
