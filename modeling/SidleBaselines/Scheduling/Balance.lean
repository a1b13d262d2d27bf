import Mathlib.Data.Int.ModEq
import Mathlib.Data.List.Basic
import Mathlib.Tactic.Linarith
import Mathlib.Tactic.Ring

/-!
# Two-way stride scheduling

Two parties take turns. A turn of the first costs it `a`, one of the second costs it `b`,
and the one that has paid less goes next; a party whose turns are free has them all. Only
the difference of what they have paid, the balance, matters. Now and then both accounts
are cleared before a turn is paid for.

## What is proved

* `firsts_share` — over any run from equal accounts the first party's share of the turns is
  `b` in `a + b`, to less than a turn and one for every time the accounts were cleared.
* `firsts_window` — without that, it has exactly `b` of any `a + b` turns in a row.
-/

namespace SidleBaselines.Scheduling

/-- The first party goes next. -/
def first (a b : ℕ) (d : ℤ) : Bool := a = 0 ∨ b ≠ 0 ∧ d < 0

/-- The balance after a turn, the accounts being cleared before it is paid for or not. -/
def next (a b : ℕ) (d : ℤ) (cleared : Bool) : ℤ :=
  let d₀ := if cleared then 0 else d
  if first a b d then d₀ + a else d₀ - b

/-- The balance after some turns. -/
def balance (a b : ℕ) : ℤ → List Bool → ℤ
  | d, [] => d
  | d, r :: rs => balance a b (next a b d r) rs

/-- How many of them the first party has. -/
def firsts (a b : ℕ) : ℤ → List Bool → ℕ
  | _, [] => 0
  | d, r :: rs => firsts a b (next a b d r) rs + if first a b d then 1 else 0

variable {a b : ℕ} {d : ℤ}

/-! ### The share of the first party -/

/-- The balance is within a turn of either party, and nil if one's turns are free. -/
def Within (a b : ℕ) (d : ℤ) : Prop := if a = 0 ∨ b = 0 then d = 0 else -b ≤ d ∧ d ≤ a

theorem within_zero : Within a b 0 := by
  unfold Within
  split_ifs <;> omega

theorem Within.next (h : Within a b d) (r : Bool) : Within a b (next a b d r) := by
  unfold Within at h ⊢
  unfold Scheduling.next first
  by_cases ha : a = 0 <;> by_cases hb : b = 0 <;> by_cases hd : d < 0 <;> cases r <;>
    simp [ha, hb, hd] at h ⊢ <;> omega

theorem Within.balance {rs : List Bool} (h : Within a b d) : Within a b (balance a b d rs) := by
  induction rs generalizing d with
  | nil => exact h
  | cons r rs ih => exact ih (h.next r)

theorem Within.bound (hab : 0 < a + b) (h : Within a b d) : |d| ≤ a + b - 1 := by
  unfold Within at h
  rw [abs_le]
  split_ifs at h <;> constructor <;> omega

/-- A turn moves the balance by `a`, or back by `b`, but for what clearing does. -/
theorem next_eq (r : Bool) : Scheduling.next a b d r =
    d + (if first a b d then (1 : ℤ) else 0) * (a + b) - b - if r then d else 0 := by
  unfold Scheduling.next
  cases r <;> split_ifs <;> ring

/-- It has `b` turns in `a + b`, but for what the balance has moved and some for every time the
accounts were cleared. -/
theorem firsts_balance (hab : 0 < a + b) (h : Within a b d) (rs : List Bool) :
    |(firsts a b d rs : ℤ) * (a + b) - rs.length * b - (balance a b d rs - d)| ≤
      rs.count true * (a + b - 1) := by
  induction rs generalizing d with
  | nil => simp [firsts, balance]
  | cons r rs ih =>
    have h₁ := ih (h.next r)
    have h₂ := h.bound hab
    have hnext := next_eq (a := a) (b := b) (d := d) r
    rw [abs_le] at h₁ h₂ ⊢
    simp only [firsts, balance, List.length_cons, List.count_cons, Nat.cast_add, Nat.cast_one] at h₁ h₂ ⊢
    have hfirst : ((if first a b d = true then 1 else 0 : ℕ) : ℤ) = if first a b d then 1 else 0 := by
      split_ifs <;> rfl
    rw [hfirst]
    cases r
    · simp only [Bool.false_eq_true, if_false] at hnext
      simp only [beq_iff_eq, Bool.false_eq_true, if_false, Nat.cast_zero, add_zero]
      constructor <;> linarith [h₁.1, h₁.2]
    · simp only [if_true] at hnext
      simp only [beq_self_eq_true, if_true, Nat.cast_one]
      constructor <;> linarith [h₁.1, h₁.2, h₂.1, h₂.2]

/-- **The share**: from equal accounts, `b` turns in `a + b` to less than a turn and one for
every time the accounts were cleared. -/
theorem firsts_share (hab : 0 < a + b) (rs : List Bool) :
    |(firsts a b 0 rs : ℤ) * (a + b) - rs.length * b| < (1 + rs.count true) * (a + b) := by
  have h₁ := firsts_balance hab within_zero rs
  have hbalance : Within a b (Scheduling.balance a b 0 rs) := within_zero.balance
  have h₂ := hbalance.bound hab
  rw [abs_le] at h₁ h₂
  have hk : (0 : ℤ) ≤ rs.count true := Int.natCast_nonneg _
  rw [abs_lt]
  constructor <;> linarith [h₁.1, h₁.2, h₂.1, h₂.2]

/-! ### Windows -/

/-- The balances that come up without clearing, as many as turns in a round. -/
def Regular (a b : ℕ) (d : ℤ) : Prop := if a = 0 ∨ b = 0 then d = 0 else -b ≤ d ∧ d < a

theorem regular_zero : Regular a b 0 := by
  unfold Regular
  split_ifs <;> omega

theorem Regular.within (h : Regular a b d) : Within a b d := by
  unfold Regular at h
  unfold Within
  split_ifs at h ⊢ <;> omega

theorem Regular.next (h : Regular a b d) : Regular a b (next a b d false) := by
  unfold Regular at h ⊢
  unfold Scheduling.next first
  by_cases ha : a = 0 <;> by_cases hb : b = 0 <;> by_cases hd : d < 0 <;> simp [ha, hb, hd] at h ⊢ <;> omega

theorem Regular.balance (h : Regular a b d) (n : ℕ) :
    Regular a b (balance a b d (List.replicate n false)) := by
  induction n generalizing d with
  | zero => exact h
  | succ n ih => exact ih h.next

/-- Two of them that are whole rounds apart are one. -/
theorem Regular.eq {d' : ℤ} (h : Regular a b d) (h' : Regular a b d') (hmod : (a + b : ℤ) ∣ d' - d) :
    d' = d := by
  unfold Regular at h h'
  split_ifs at h h'
  · rw [h, h']
  · have habs : |d' - d| < (a + b : ℤ) := by
      rw [abs_lt]
      constructor <;> omega
    have := Int.eq_zero_of_abs_lt_dvd hmod habs
    omega

/-- Without clearing, the first party's share is exact but for what the balance has moved. -/
theorem firsts_regular (hab : 0 < a + b) (h : Within a b d) (n : ℕ) :
    (firsts a b d (List.replicate n false) : ℤ) * (a + b) =
      n * b + (balance a b d (List.replicate n false) - d) := by
  have := firsts_balance hab h (List.replicate n false)
  simp only [List.count_replicate, List.length_replicate] at this
  simp only [beq_iff_eq, Bool.false_eq_true, if_false, Nat.cast_zero, zero_mul] at this
  have := abs_nonpos_iff.mp this
  linarith

/-- **Windows**: of any `a + b` turns in a row without clearing the first party has `b`. -/
theorem firsts_window (hab : 0 < a + b) (h : Regular a b d) :
    firsts a b d (List.replicate (a + b) false) = b := by
  have hshare := firsts_regular hab h.within (a + b)
  have hround : balance a b d (List.replicate (a + b) false) = d := by
    refine h.eq (h.balance _) ⟨firsts a b d (List.replicate (a + b) false) - b, ?_⟩
    push_cast at hshare
    linarith
  rw [hround] at hshare
  push_cast at hshare
  have hne : (a + b : ℤ) ≠ 0 := by omega
  have : (firsts a b d (List.replicate (a + b) false) : ℤ) = b := mul_right_cancel₀ hne (by linarith)
  exact_mod_cast this

end SidleBaselines.Scheduling
