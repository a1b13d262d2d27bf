import SidleBaselines.Synthetic.Hotness

/-!
# Cooling

`adjust_for_cooling` of `src/benchmark/synthetic/false_positive_internode.cpp`
moves each bucket down by one and halves the thresholds, which stands for halving
every access count. The buckets are logarithmic, with one added to the count first,
so the two agree but for a few counts; bucket 0 is overwritten.

## What is proved

* `cooled_suffixSum_eq`, `halved_suffixSum_eq` — what lies from a bucket on, in the
  cooled buckets and in those of the halved counts;
* `cooling_halves_iff` — for which counts the cooled buckets are those of the halved
  counts.
-/

namespace SidleBaselines.Synthetic

open SidleBaselines.Data

namespace SidleHistogram

/-! ### Moving the buckets -/

/-- The loop has moved `n` buckets down by one. -/
theorem foldl_shift (l : List ℕ) (n : ℕ) (hn : n < l.length) :
    (List.range n).foldl (fun l i => l.set i (l.getD (i + 1) 0)) l = l.tail.take n ++ l.drop n := by
  induction n with
  | zero => simp
  | succ n ih =>
    have hlen : (l.tail.take n).length = n := by
      rw [List.length_take, List.length_tail]
      omega
    have hget : (l.tail.take n ++ l.drop n).getD (n + 1) 0 = l[n + 1] := by
      rw [List.getD_append_right _ _ _ _ (by omega), hlen, Nat.add_sub_cancel_left,
        List.getD_eq_getElem _ _ (by rw [List.length_drop]; omega), List.getElem_drop]
    have htail : l.tail.take (n + 1) = l.tail.take n ++ [l[n + 1]] := by
      rw [List.take_add_one, List.getElem?_eq_getElem (by rw [List.length_tail]; omega), List.getElem_tail]
      rfl
    rw [List.range_succ, List.foldl_append, List.foldl_cons, List.foldl_nil, ih (by omega), hget,
      List.set_append_right _ _ (by omega), hlen, Nat.sub_self, List.drop_eq_getElem_cons (show n < l.length by omega),
      List.set_cons_zero, htail, List.append_assoc, List.singleton_append]

theorem adjustForCooling_histogram {h : SidleHistogram} (hlen : h.histogram.length = 16) :
    h.adjustForCooling.histogram = h.histogram.tail ++ [0] := by
  have htail : h.histogram.tail.length = 15 := by
    rw [List.length_tail, hlen]
  have hlast : h.histogram.drop 15 = [h.histogram[15]] := by
    rw [List.drop_eq_getElem_cons (by omega), List.drop_eq_nil_of_le (by omega)]
  simp only [adjustForCooling]
  rw [foldl_shift _ 15 (by omega), List.take_of_length_le (by omega), hlast,
    List.set_append_right _ _ (by omega), htail]
  rfl

theorem suffixSum_shift (l : List ℕ) (i : ℕ) : suffixSum (l.tail ++ [0]) i = suffixSum l (i + 1) := by
  rw [suffixSum, suffixSum, List.drop_append, List.sum_append, ← List.drop_one, List.drop_drop,
    Nat.add_comm 1 i]
  cases i - (l.drop 1).length <;> simp

/-! ### Counts that fit -/

/-- The counts whose half lies in another bucket than the one below theirs. -/
def Misfit (c : ℕ) : Prop :=
  c = 3 ∨ ∃ k, 3 ≤ k ∧ c = 2 ^ k - 2

theorem countP_eq_add {p q r : ℕ → Bool} {l : List ℕ} (h : ∀ c ∈ l, (if p c then 1 else 0) =
    (if q c then 1 else 0) + if r c then 1 else 0) : l.countP p = l.countP q + l.countP r := by
  induction l with
  | nil => rfl
  | cons c l ih =>
    have hc := h c (by simp)
    have := ih fun d hd => h d (by simp [hd])
    rw [List.countP_cons, List.countP_cons, List.countP_cons]
    omega

/-- From bucket 2 on the halved counts exceed the cooled buckets by the counts `2 ^ k - 2`. -/
theorem halved_eq_cooled_add {counts : List ℕ} {j : ℕ} (hj : 2 ≤ j) :
    (counts.countP fun c => 4 ≤ c ∧ 2 ^ (j + 1) ≤ c + 2) =
      (counts.countP fun c => 2 ^ (j + 1) ≤ c + 1) + counts.countP (· = 2 ^ (j + 1) - 2) := by
  have hpow : 2 ^ 3 ≤ 2 ^ (j + 1) := Nat.pow_le_pow_right (by omega) (by omega)
  apply countP_eq_add
  intro c _
  simp only [decide_eq_true_eq]
  split_ifs <;> omega

/-- In bucket 1 and above, the cooled buckets exceed the halved counts by the counts 3. -/
theorem cooled_eq_halved_add (counts : List ℕ) :
    (counts.countP fun c => 2 ^ (1 + 1) ≤ c + 1) =
      (counts.countP fun c => 4 ≤ c ∧ 2 ^ (1 + 1) ≤ c + 2) + counts.countP (· = 3) := by
  apply countP_eq_add
  intro c _
  simp only [decide_eq_true_eq]
  split_ifs <;> omega

theorem countP_eq_zero_iff {counts : List ℕ} {d : ℕ} : counts.countP (· = d) = 0 ↔ ∀ c ∈ counts, c ≠ d := by
  simp [List.countP_eq_zero]

section cooling

variable {h : SidleHistogram} (hnext : h.nextHistogram = List.replicate 16 0)
include hnext

/-- What cooling makes of the recorded counts. -/
theorem cooled_suffixSum (counts : List ℕ) (n s i : ℕ) :
    suffixSum ((h.record counts).refresh n s).adjustForCooling.histogram i =
      suffixSum (tally 16 bucketOf counts) (i + 1) := by
  have hhist : ((h.record counts).refresh n s).histogram = tally 16 bucketOf counts := record_fresh hnext counts
  rw [adjustForCooling_histogram (by rw [hhist, length_tally]), suffixSum_shift, hhist]

theorem cooled_suffixSum_eq {counts : List ℕ} (hc : ∀ c ∈ counts, c ≤ 65534) (n s : ℕ) {j : ℕ} (hj : 1 ≤ j) :
    suffixSum ((h.record counts).refresh n s).adjustForCooling.histogram j =
      counts.countP fun c => 2 ^ (j + 1) ≤ c + 1 := by
  rw [cooled_suffixSum hnext, suffixSum_buckets (fun c hmem => by have := hc c hmem; omega) (by omega)]
  apply List.countP_congr
  intro c hmem
  have hle := hc c hmem
  have hpow : 2 ^ 2 ≤ 2 ^ (j + 1) := Nat.pow_le_pow_right (by omega) (by omega)
  simp only [decide_eq_true_eq]
  omega

theorem halved_suffixSum_eq {counts : List ℕ} (hc : ∀ c ∈ counts, c ≤ 65534) (n s : ℕ) {j : ℕ} (hj : 1 ≤ j) :
    suffixSum ((h.record (counts.map (· / 2))).refresh n s).histogram j =
      counts.countP fun c => 4 ≤ c ∧ 2 ^ (j + 1) ≤ c + 2 := by
  have hhist : ((h.record (counts.map (· / 2))).refresh n s).histogram = tally 16 bucketOf (counts.map (· / 2)) :=
    record_fresh hnext _
  have hhalf : ∀ c ∈ counts.map (· / 2), c ≤ 65535 := by
    intro c hmem
    obtain ⟨d, hd, rfl⟩ := List.mem_map.mp hmem
    have := hc d hd
    omega
  rw [hhist, suffixSum_buckets hhalf hj, reaching, List.countP_map]
  apply List.countP_congr
  intro c hmem
  have hle := hc c hmem
  have hpow : 2 ^ (j + 1) = 2 ^ j * 2 := Nat.pow_succ 2 j
  simp only [Function.comp_apply, decide_eq_true_eq]
  omega

theorem suffixSum_cooled_iff {counts : List ℕ} (hc : ∀ c ∈ counts, c ≤ 65534) (n s n' s' : ℕ) :
    (∀ j, 1 ≤ j → suffixSum ((h.record counts).refresh n s).adjustForCooling.histogram j =
      suffixSum ((h.record (counts.map (· / 2))).refresh n' s').histogram j) ↔ ∀ c ∈ counts, ¬ Misfit c := by
  constructor
  · rintro hall c hmem (rfl | ⟨k, hk, rfl⟩)
    · have h₁ := hall 1 (by omega)
      rw [cooled_suffixSum_eq hnext hc n s (by omega), halved_suffixSum_eq hnext hc n' s' (by omega),
        cooled_eq_halved_add] at h₁
      exact countP_eq_zero_iff.mp (Nat.add_eq_left.mp h₁) 3 hmem rfl
    · obtain ⟨j, rfl⟩ : ∃ j, k = j + 1 := ⟨k - 1, by omega⟩
      have h₁ := hall j (by omega)
      rw [cooled_suffixSum_eq hnext hc n s (by omega), halved_suffixSum_eq hnext hc n' s' (by omega),
        halved_eq_cooled_add (by omega)] at h₁
      exact countP_eq_zero_iff.mp (Nat.left_eq_add.mp h₁) _ hmem rfl
  · intro hfit j hj
    rw [cooled_suffixSum_eq hnext hc n s hj, halved_suffixSum_eq hnext hc n' s' hj]
    rcases Nat.eq_or_lt_of_le hj with rfl | hj'
    · rw [cooled_eq_halved_add, Nat.add_eq_left, countP_eq_zero_iff]
      rintro c hmem rfl
      exact hfit 3 hmem (Or.inl rfl)
    · rw [halved_eq_cooled_add hj', Nat.left_eq_add, countP_eq_zero_iff]
      rintro c hmem rfl
      exact hfit _ hmem (Or.inr ⟨j + 1, by omega, rfl⟩)

/-- Without the counts 0 and 1 nothing is in bucket 0 to be overwritten. -/
theorem sum_cooled {counts : List ℕ} (hc : ∀ c ∈ counts, c ≤ 65534) (h2 : ∀ c ∈ counts, 2 ≤ c) (n s : ℕ) :
    ((h.record counts).refresh n s).adjustForCooling.histogram.sum = counts.length := by
  rw [← suffixSum_zero, cooled_suffixSum hnext,
    suffixSum_buckets (fun c hmem => by have := hc c hmem; omega) (Nat.le_refl 1), reaching, List.countP_eq_length]
  intro c hmem
  have := hc c hmem
  have := h2 c hmem
  simp only [decide_eq_true_eq]
  omega

theorem sum_recorded (counts : List ℕ) (n s : ℕ) : ((h.record counts).refresh n s).histogram.sum = counts.length := by
  have hhist : ((h.record counts).refresh n s).histogram = tally 16 bucketOf counts := record_fresh hnext counts
  rw [hhist, sum_tally fun c _ => bucketOf_lt c]

end cooling

theorem eq_iff_getD {l m : List ℕ} (hlen : l.length = m.length) : l = m ↔ ∀ i, 0 ≤ i → l.getD i 0 = m.getD i 0 := by
  constructor
  · rintro rfl i _
    rfl
  · intro h
    apply List.ext_getElem hlen
    intro i h₁ h₂
    rw [← List.getD_eq_getElem l 0 h₁, ← List.getD_eq_getElem m 0 h₂]
    exact h i (Nat.zero_le i)

/-- Cooling gives the buckets above bucket 0 that the halved counts have, if and only if no
count is 3 or `2 ^ k - 2` with `k ≥ 3`. When no count is 0 or 1 the same holds of all buckets,
and the total stays as it is. -/
theorem cooling_halves_iff (h : SidleHistogram) (hnext : h.nextHistogram = List.replicate 16 0)
    (counts : List ℕ) (hc : ∀ c ∈ counts, c ≤ 65534) (n s n' s' : ℕ) :
    let recorded := (h.record counts).refresh n s
    let cooled := recorded.adjustForCooling.histogram
    let halved := ((h.record (counts.map (· / 2))).refresh n' s').histogram
    ((∀ i, 1 ≤ i → cooled.getD i 0 = halved.getD i 0) ↔ ∀ c ∈ counts, ¬ Misfit c) ∧
      ((∀ c ∈ counts, 2 ≤ c) →
        (cooled = halved ↔ ∀ c ∈ counts, ¬ Misfit c) ∧ cooled.sum = recorded.histogram.sum) := by
  intro recorded cooled halved
  have hiff := suffixSum_cooled_iff hnext hc n s n' s'
  refine ⟨getD_eq_iff_suffixSum.trans hiff, fun h2 => ⟨?_, ?_⟩⟩
  · have hrec : recorded.histogram = tally 16 bucketOf counts := record_fresh hnext counts
    have hhalved : halved = tally 16 bucketOf (counts.map (· / 2)) := record_fresh hnext _
    have hlen : cooled.length = halved.length := by
      show recorded.adjustForCooling.histogram.length = halved.length
      rw [adjustForCooling_histogram (by rw [hrec, length_tally]), hrec, hhalved]
      simp
    have hzero : suffixSum cooled 0 = suffixSum halved 0 := by
      rw [suffixSum_zero, suffixSum_zero, sum_recorded hnext, List.length_map]
      exact sum_cooled hnext hc h2 n s
    rw [eq_iff_getD hlen, getD_eq_iff_suffixSum, ← hiff]
    constructor
    · intro hall j _
      exact hall j (Nat.zero_le j)
    · intro hall j _
      rcases Nat.eq_zero_or_pos j with rfl | hj
      · exact hzero
      · exact hall j hj
  · rw [sum_recorded hnext]
    exact sum_cooled hnext hc h2 n s

/-- A list of counts that fits. -/
theorem cooling_halves_three :
    let recorded := (({} : SidleHistogram).record [4, 5, 100]).refresh 3 109
    let cooled := recorded.adjustForCooling.histogram
    cooled = ((({} : SidleHistogram).record ([4, 5, 100].map (· / 2))).refresh 3 54).histogram ∧
      cooled.sum = recorded.histogram.sum := by
  have hfit : ∀ c ∈ [4, 5, 100], ¬ Misfit c := by
    rintro c hmem (rfl | ⟨k, hk, rfl⟩)
    · simp at hmem
    · have hpow : 2 ^ k = 2 ^ (k - 3) * 8 := by
        rw [show 8 = 2 ^ 3 from rfl, ← Nat.pow_add]
        congr 1
        omega
      simp only [List.mem_cons, List.not_mem_nil, or_false] at hmem
      omega
  have h := (cooling_halves_iff {} rfl [4, 5, 100] (by simp) 3 109 3 54).2 (by simp)
  exact ⟨h.1.mpr hfit, h.2⟩

/-- A single node with six accesses: cooling moves it to bucket 1, three accesses are in bucket 2. -/
theorem cooling_not_halving :
    ¬ ∀ (h : SidleHistogram) (counts : List ℕ) (n s n' s' : ℕ), h.nextHistogram = List.replicate 16 0 →
      (∀ c ∈ counts, c ≤ 65534) →
      ((h.record counts).refresh n s).adjustForCooling.histogram =
        ((h.record (counts.map (· / 2))).refresh n' s').histogram := by
  intro hall
  have hle : ∀ c ∈ [6], c ≤ 65534 := by simp
  have h := congrArg (suffixSum · 2) (hall {} [6] 1 6 1 3 rfl hle)
  simp only [cooled_suffixSum_eq (h := {}) rfl hle 1 6 (show 1 ≤ 2 by omega),
    halved_suffixSum_eq (h := {}) rfl hle 1 3 (show 1 ≤ 2 by omega)] at h
  simp at h

end SidleHistogram

end SidleBaselines.Synthetic
