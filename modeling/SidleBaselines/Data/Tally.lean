import Mathlib

/-!
# Tallies

How many elements of a list have each label, for labels below a bound: the tally
as a list, kept by adding one at the label of each further element. The sum of a
tally from one label on counts the elements with at least that label, and the
largest label at which this sum is still above a bound is a quantile.

## What is proved

* `tally_concat` — one more element adds one at its label;
* `suffixSum_tally` — what the tally holds from a label on;
* `lastAbove_eq_some_iff`, `lastAbove_eq_none_iff` — the quantile is the greatest
  such label, if there is one.
-/

namespace SidleBaselines.Data

/-! ### Sums from a position on -/

/-- The entries of a list from position `i` on, added up. -/
def suffixSum (l : List ℕ) (i : ℕ) : ℕ :=
  (l.drop i).sum

@[simp] theorem suffixSum_zero (l : List ℕ) : suffixSum l 0 = l.sum := by
  simp [suffixSum]

theorem suffixSum_of_length_le {l : List ℕ} {i : ℕ} (h : l.length ≤ i) : suffixSum l i = 0 := by
  rw [suffixSum, List.drop_eq_nil_of_le h, List.sum_nil]

theorem suffixSum_succ (l : List ℕ) (i : ℕ) : suffixSum l i = suffixSum l (i + 1) + l.getD i 0 := by
  by_cases h : i < l.length
  · rw [suffixSum, List.drop_eq_getElem_cons h, List.sum_cons, suffixSum, List.getD_eq_getElem _ _ h,
      Nat.add_comm]
  · have hd : l.getD i 0 = 0 := List.getD_eq_default _ _ (by omega)
    rw [suffixSum_of_length_le (by omega), suffixSum_of_length_le (by omega), hd]

theorem suffixSum_anti (l : List ℕ) {i j : ℕ} (h : i ≤ j) : suffixSum l j ≤ suffixSum l i := by
  induction j, h using Nat.le_induction with
  | base => exact Nat.le_refl _
  | succ j _ ih =>
    have := suffixSum_succ l j
    omega

theorem suffixSum_le_sum (l : List ℕ) (i : ℕ) : suffixSum l i ≤ l.sum := by
  rw [← suffixSum_zero]
  exact suffixSum_anti l (Nat.zero_le i)

theorem suffixSum_congr {l m : List ℕ} {k i : ℕ} (h : ∀ i, k ≤ i → l.getD i 0 = m.getD i 0) (hi : k ≤ i) :
    suffixSum l i = suffixSum m i := by
  -- downwards from beyond both lists
  have hdown : ∀ d i, k ≤ i → max l.length m.length ≤ i + d → suffixSum l i = suffixSum m i := by
    intro d
    induction d with
    | zero =>
      intro i _ hd
      rw [suffixSum_of_length_le (by omega), suffixSum_of_length_le (by omega)]
    | succ d ih =>
      intro i hi hd
      rw [suffixSum_succ, suffixSum_succ m, h i hi, ih (i + 1) (by omega) (by omega)]
  exact hdown _ i hi (Nat.le_add_left _ _)

/-- Two lists agree from a position on if and only if their sums do. -/
theorem getD_eq_iff_suffixSum {l m : List ℕ} {k : ℕ} :
    (∀ i, k ≤ i → l.getD i 0 = m.getD i 0) ↔ ∀ i, k ≤ i → suffixSum l i = suffixSum m i := by
  constructor
  · intro h i hi
    exact suffixSum_congr h hi
  · intro h i hi
    have h₁ := h i hi
    have h₂ := h (i + 1) (by omega)
    have := suffixSum_succ l i
    have := suffixSum_succ m i
    omega

theorem suffixSum_modify {l : List ℕ} {k : ℕ} (hk : k < l.length) (i : ℕ) :
    suffixSum (l.modify k (· + 1)) i = suffixSum l i + if i ≤ k then 1 else 0 := by
  induction l generalizing k i with
  | nil => simp at hk
  | cons a l ih =>
    cases k with
    | zero =>
      cases i with
      | zero =>
        simp only [List.modify_zero_cons, suffixSum_zero, List.sum_cons, Nat.le_refl, if_true]
        omega
      | succ i => simp [suffixSum]
    | succ k =>
      have hk' : k < l.length := by simpa using hk
      cases i with
      | zero =>
        have := ih hk' 0
        simp only [suffixSum_zero, Nat.zero_le, if_true] at this
        simp only [List.modify_succ_cons, suffixSum_zero, List.sum_cons, this, Nat.zero_le, if_true]
        omega
      | succ i =>
        have := ih hk' i
        simp only [suffixSum] at this
        simp [suffixSum, this]

/-! ### The last position above a bound -/

/-- The largest position below `n` from which on the entries sum to more than the bound. -/
def lastAbove (l : List ℕ) (bound : ℕ) : ℕ → Option ℕ
  | 0 => none
  | i + 1 => if bound < suffixSum l i then some i else lastAbove l bound i

theorem lastAbove_eq_some_iff {l : List ℕ} {bound n i : ℕ} :
    lastAbove l bound n = some i ↔ IsGreatest {j | j < n ∧ bound < suffixSum l j} i := by
  induction n with
  | zero => simp [lastAbove, IsGreatest]
  | succ n ih =>
    by_cases h : bound < suffixSum l n
    · rw [lastAbove, if_pos h, Option.some.injEq]
      constructor
      · rintro rfl
        exact ⟨⟨by omega, h⟩, fun j hj => Nat.le_of_lt_succ hj.1⟩
      · rintro ⟨⟨hi, -⟩, hmax⟩
        exact Nat.le_antisymm (hmax ⟨Nat.lt_succ_self n, h⟩) (Nat.le_of_lt_succ hi)
    · have heq : {j | j < n + 1 ∧ bound < suffixSum l j} = {j | j < n ∧ bound < suffixSum l j} := by
        ext j
        constructor
        · rintro ⟨hj, hb⟩
          have : j ≠ n := by
            rintro rfl
            exact h hb
          exact ⟨by omega, hb⟩
        · rintro ⟨hj, hb⟩
          exact ⟨by omega, hb⟩
      rw [lastAbove, if_neg h, ih, heq]

theorem lastAbove_eq_none_iff {l : List ℕ} {bound n : ℕ} :
    lastAbove l bound n = none ↔ ∀ i < n, suffixSum l i ≤ bound := by
  induction n with
  | zero => simp [lastAbove]
  | succ n ih =>
    by_cases h : bound < suffixSum l n
    · rw [lastAbove, if_pos h]
      constructor
      · intro hn
        cases hn
      · intro hall
        have := hall n (Nat.lt_succ_self n)
        omega
    · rw [lastAbove, if_neg h, ih]
      constructor
      · intro hall i hi
        rcases Nat.lt_succ_iff_lt_or_eq.mp hi with hlt | rfl
        · exact hall i hlt
        · omega
      · intro hall i hi
        exact hall i (by omega)

/-- The last position above a smaller bound is no earlier. -/
theorem lastAbove_mono {l : List ℕ} {b b' n i : ℕ} (hb : b ≤ b') (h : lastAbove l b' n = some i) :
    ∃ j, i ≤ j ∧ lastAbove l b n = some j := by
  have hi := (lastAbove_eq_some_iff.mp h).1
  cases hj : lastAbove l b n with
  | none =>
    have := lastAbove_eq_none_iff.mp hj i hi.1
    have := hi.2
    omega
  | some j =>
    have hmax := (lastAbove_eq_some_iff.mp hj).2
    exact ⟨j, hmax ⟨hi.1, by have := hi.2; omega⟩, rfl⟩

/-! ### Tallies -/

variable {α : Type}

/-- How many elements of the list have each label below `n`. -/
def tally (n : ℕ) (label : α → ℕ) (l : List α) : List ℕ :=
  (List.range n).map fun i => l.countP (label · = i)

@[simp] theorem length_tally (n : ℕ) (label : α → ℕ) (l : List α) : (tally n label l).length = n := by
  simp [tally]

@[simp] theorem tally_nil (n : ℕ) (label : α → ℕ) : tally n label [] = List.replicate n 0 := by
  apply List.ext_getElem
  · simp
  · intro i _ _
    simp [tally]

/-- One more element adds one at its label. -/
theorem tally_concat (n : ℕ) (label : α → ℕ) (l : List α) (x : α) :
    tally n label (l ++ [x]) = (tally n label l).modify (label x) (· + 1) := by
  apply List.ext_getElem
  · simp
  · intro i h₁ h₂
    rw [List.getElem_modify]
    by_cases h : label x = i
    · simp [tally, h]
    · simp [tally, h]

/-- The tally from a label on counts the elements with at least that label. -/
theorem suffixSum_tally {n : ℕ} {label : α → ℕ} {l : List α} (hl : ∀ x ∈ l, label x < n) (i : ℕ) :
    suffixSum (tally n label l) i = l.countP (i ≤ label ·) := by
  induction l using List.reverseRecOn with
  | nil => simp [suffixSum]
  | append_singleton l x ih =>
    have hx : label x < (tally n label l).length := by
      rw [length_tally]
      exact hl x (by simp)
    rw [tally_concat, suffixSum_modify hx, ih fun y hy => hl y (by simp [hy]), List.countP_append]
    by_cases h : i ≤ label x
    · simp [h]
    · simp [h]

/-- With every label below the bound, the tally sums to the length. -/
theorem sum_tally {n : ℕ} {label : α → ℕ} {l : List α} (hl : ∀ x ∈ l, label x < n) :
    (tally n label l).sum = l.length := by
  have := suffixSum_tally hl 0
  rw [suffixSum_zero] at this
  rw [this]
  simp

end SidleBaselines.Data
