import SidleBaselines.Tpcc.Checks
import SidleBaselines.Tpcc.World

/-!
# Whose warehouses are whose

The loop of `run_tpcc` gives each worker the warehouses it draws from.

## What is proved

* `ranges_eq` — what the loop gives worker `i`.
* `ranges_partition` — it divides up the warehouses, each worker having one at least,
  exactly if there are no more workers than warehouses.
-/

namespace SidleBaselines.Tpcc

/-! ### Ranges -/

/-- The loop of `run_tpcc` over the workers still to come: `w_id_start` and `w_id_end` of each. -/
def assignRanges (wNumPerThread : ℕ) : ℕ → ℕ → ℕ → List (ℕ × ℕ)
  | 0, _, _ => []
  | n + 1, prevEndI, trailingWarehouse =>
    let beginI := prevEndI
    let endI := beginI + wNumPerThread
    if trailingWarehouse > 0 then
      (beginI + 1, endI + 1 + 1) :: assignRanges wNumPerThread n (endI + 1) (trailingWarehouse - 1)
    else (beginI + 1, endI + 1) :: assignRanges wNumPerThread n endI trailingWarehouse

/-- `w_id_start` and `w_id_end` of the workers of `run_tpcc`. -/
def ranges (args : Args) (fgN : ℕ) : List (ℕ × ℕ) :=
  let wNumPerThread := args.warehouseNum / fgN
  assignRanges wNumPerThread fgN 0 (args.warehouseNum - wNumPerThread * fgN)

theorem assignRanges_eq (m n e t : ℕ) :
    assignRanges m n e t =
      (List.range n).map fun i => (e + (i * m + min i t) + 1, e + ((i + 1) * m + min (i + 1) t) + 1) := by
  induction n generalizing e t with
  | zero => rfl
  | succ n ih =>
    unfold assignRanges
    rw [List.range_succ_eq_map, List.map_cons, List.map_map]
    by_cases ht : t > 0
    · rw [if_pos ht, ih]
      congr 1
      · rw [Prod.mk.injEq, min_eq_left (show 0 + 1 ≤ t by omega)]
        omega
      · refine List.map_congr_left fun i _ => ?_
        simp only [Function.comp, Nat.succ_eq_add_one, Prod.mk.injEq, Nat.succ_mul]
        omega
    · rw [if_neg ht, ih]
      obtain rfl : t = 0 := by omega
      congr 1
      · simp
      · refine List.map_congr_left fun i _ => ?_
        simp only [Function.comp, Nat.succ_eq_add_one, Prod.mk.injEq, Nat.succ_mul]
        omega

/-- **The loop** gives worker `i` its range. -/
theorem ranges_eq (args : Args) (fgN : ℕ) :
    ranges args fgN = (List.range fgN).map (workerRange args fgN) := by
  unfold ranges
  rw [assignRanges_eq]
  refine List.map_congr_left fun i _ => ?_
  simp only [workerRange, Nat.zero_add]

/-- The ranges divide up the warehouses, and every worker draws warehouses from its own. -/
structure Partitions (args : Args) (fgN : ℕ) (l : List (ℕ × ℕ)) : Prop where
  length : l.length = fgN
  disjoint : l.Pairwise fun a b => Disjoint (Set.Ico a.1 a.2) (Set.Ico b.1 b.2)
  covers : ∀ w, (∃ a ∈ l, w ∈ Set.Ico a.1 a.2) ↔ 1 ≤ w ∧ w ≤ args.warehouseNum
  even : ∀ a ∈ l, ∀ b ∈ l, a.2 - a.1 ≤ b.2 - b.1 + 1
  nonempty : ∀ a ∈ l, a.1 < a.2
  draws : ∀ a ∈ l, ∀ r, ∃ w r', Checked.randomNumber a.1 (a.2 - 1) r = some (w, r') ∧ a.1 ≤ w ∧ w < a.2

theorem workerRange_mem (args : Args) {fgN : ℕ} (h : 0 < fgN) {i : ℕ} (hi : i < fgN) :
    1 ≤ (workerRange args fgN i).1 ∧ (workerRange args fgN i).2 ≤ args.warehouseNum + 1 := by
  refine ⟨by simp [workerRange], ?_⟩
  rcases (show i ≤ fgN - 1 by omega).eq_or_lt with rfl | hlt
  · exact (workerRange_end h).le
  · have hmono := workerRange_mono args fgN hlt
    have hle : (workerRange args fgN (fgN - 1)).1 ≤ (workerRange args fgN (fgN - 1)).2 := by
      simp only [workerRange, Nat.add_mul]
      omega
    rw [workerRange_end h] at hle
    omega

theorem workerRange_size (args : Args) (fgN i : ℕ) :
    (workerRange args fgN i).2 - (workerRange args fgN i).1 =
      args.warehouseNum / fgN + if i < args.warehouseNum - args.warehouseNum / fgN * fgN then 1 else 0 := by
  simp only [workerRange, Nat.add_mul]
  split_ifs <;> omega

/-- **The ranges of `run_tpcc`** divide up the warehouses exactly if no worker is left without. -/
theorem ranges_partition (args : Args) (fgN : ℕ) (h : 0 < fgN) :
    Partitions args fgN (ranges args fgN) ↔ fgN ≤ args.warehouseNum := by
  rw [ranges_eq]
  constructor
  · intro hp
    -- the last worker's range ends with the last warehouse, and does not have it if there are too many
    have hlast := hp.nonempty (workerRange args fgN (fgN - 1)) (List.mem_map_of_mem (List.mem_range.mpr (by omega)))
    by_contra hlt
    have hdiv : args.warehouseNum / fgN = 0 := Nat.div_eq_of_lt (by omega)
    simp only [workerRange, hdiv] at hlast
    omega
  · intro hle
    have hdiv : 1 ≤ args.warehouseNum / fgN := (Nat.one_le_div_iff h).mpr hle
    have hnonempty : ∀ a ∈ (List.range fgN).map (workerRange args fgN), a.1 < a.2 := by
      intro a ha
      obtain ⟨i, -, rfl⟩ := List.mem_map.mp ha
      have hsize := workerRange_size args fgN i
      omega
    refine ⟨by simp, ?_, fun w => ?_, fun a ha b hb => ?_, hnonempty, fun a ha r => ?_⟩
    · refine List.pairwise_map.mpr (List.pairwise_lt_range.imp fun {i j} hij => ?_)
      have hmono := workerRange_mono args fgN hij
      exact Set.disjoint_left.mpr fun w hi hj => by
        have := hi.2
        have := hj.1
        omega
    · constructor
      · rintro ⟨a, ha, hw⟩
        obtain ⟨i, hi, rfl⟩ := List.mem_map.mp ha
        obtain ⟨hstart, hend⟩ := workerRange_mem args h (List.mem_range.mp hi)
        have := hw.1
        have := hw.2
        omega
      · intro hw
        obtain ⟨i, hi, hwi⟩ := workerRange_covers h hw
        exact ⟨_, List.mem_map_of_mem (List.mem_range.mpr hi), hwi⟩
    · obtain ⟨i, -, rfl⟩ := List.mem_map.mp ha
      obtain ⟨j, -, rfl⟩ := List.mem_map.mp hb
      rw [workerRange_size, workerRange_size]
      split_ifs <;> omega
    · have hlt := hnonempty a ha
      obtain ⟨i, hi, rfl⟩ := List.mem_map.mp ha
      obtain ⟨hstart, hend⟩ := workerRange_mem args h (List.mem_range.mp hi)
      have hW := args.warehouses
      obtain ⟨hdraw, hmin, hmax⟩ := randomNumber_checked (workerRange args fgN i).1
        ((workerRange args fgN i).2 - 1) (by omega) (by omega) (by omega) r
      generalize randomNumber (workerRange args fgN i).1 ((workerRange args fgN i).2 - 1) r = x at *
      exact ⟨x.1, x.2, hdraw, hmin, by omega⟩

/-- Three workers for two warehouses: the third draws from no range. -/
theorem ranges_empty :
    ranges twoWarehouses 3 = [(1, 2), (2, 3), (3, 3)] ∧
      Checked.randomNumber 3 (3 - 1) (FastRandom.new 0) = none ∧
      ¬ Partitions twoWarehouses 3 (ranges twoWarehouses 3) := by
  have hranges : ranges twoWarehouses 3 = [(1, 2), (2, 3), (3, 3)] := by decide
  refine ⟨hranges, randomNumber_unchecked (by decide) _, fun hp => ?_⟩
  have hlt := hp.nonempty (3, 3) (by rw [hranges]; decide)
  exact lt_irrefl _ hlt

/-- Two workers for two warehouses. -/
theorem ranges_two : Partitions twoWarehouses 2 (ranges twoWarehouses 2) :=
  (ranges_partition twoWarehouses 2 (by decide)).mpr (by decide)

end SidleBaselines.Tpcc
