import Mathlib.Algebra.BigOperators.Intervals
import Mathlib.Algebra.BigOperators.Ring.Finset
import Mathlib.Data.Fintype.Card
import Mathlib.Data.Int.ModEq
import Mathlib.Data.Nat.Prime.Basic
import Mathlib.RingTheory.Coprime.Lemmas
import Mathlib.Tactic.Ring

/-!
# Linear congruential generators

A generator with the state `x` goes on to `(a * x + c) % m`. Where `m` is a power of
two, `c` is odd and `a` leaves 1 when it is divided by 4, it goes through all states
whatever the first one is. The reason is that after `n` steps it has moved by an odd
multiple of the geometric sum `1 + a + … + a ^ (n - 1)`, which no higher power of two
divides than divides `n`.

## What is proved

* `step_iterate` — how far the state has moved;
* `dvd_of_dvd_geomSum` — the powers of two that divide a geometric sum;
* `step_iterate_injOn`, `exists_step_iterate` — the full period;
* `exists_hit` — every state comes again within `m` steps.
-/

namespace SidleBaselines.Lcg

/-- One step of the generator. -/
def step (a c m x : ℕ) : ℕ :=
  (a * x + c) % m

/-- `1 + a + … + a ^ (n - 1)`. -/
def geomSum (a n : ℕ) : ℕ :=
  ∑ i ∈ Finset.range n, a ^ i

variable {a c m : ℕ}

theorem geomSum_succ (a n : ℕ) : geomSum a (n + 1) = a * geomSum a n + 1 := by
  rw [geomSum, geomSum, Finset.sum_range_succ', Finset.mul_sum, pow_zero]
  simp only [pow_succ']

theorem geomSum_add (a n d : ℕ) : geomSum a (n + d) = geomSum a n + a ^ n * geomSum a d := by
  rw [geomSum, geomSum, geomSum, Finset.sum_range_add, Finset.mul_sum]
  simp only [pow_add]

/-- After `n` steps the state has moved by a multiple of the geometric sum. -/
theorem step_iterate (a c m x n : ℕ) :
    (((step a c m)^[n] x : ℕ) : ℤ) ≡ x + geomSum a n * ((a - 1) * x + c) [ZMOD m] := by
  induction n with
  | zero => simp [geomSum]
  | succ n ih =>
    rw [Function.iterate_succ_apply', step, geomSum_succ]
    push_cast
    calc (a * ((step a c m)^[n] x : ℕ) + c : ℤ) % m
        ≡ a * ((step a c m)^[n] x : ℕ) + c [ZMOD m] := Int.mod_modEq _ _
      _ ≡ a * (x + geomSum a n * ((a - 1) * x + c)) + c [ZMOD m] := (ih.mul_left a).add_right c
      _ = x + (a * geomSum a n + 1) * ((a - 1) * x + c) := by ring

/-! ### Geometric sums -/

/-- A sum of odd numbers is odd or even as their number is. -/
theorem geomSum_mod_two (ha : a % 4 = 1) (n : ℕ) : geomSum a n % 2 = n % 2 := by
  induction n with
  | zero => rfl
  | succ n ih =>
    rw [geomSum_succ, Nat.add_mod, Nat.mul_mod, ih, show a % 2 = 1 by omega]
    omega

theorem pow_mod_four (ha : a % 4 = 1) (n : ℕ) : a ^ n % 4 = 1 := by
  rw [Nat.pow_mod, ha, one_pow, Nat.one_mod]

/-- No higher power of two divides the sum than divides the number of its terms. -/
theorem dvd_of_dvd_geomSum (ha : a % 4 = 1) {k n : ℕ} (h : 2 ^ k ∣ geomSum a n) : 2 ^ k ∣ n := by
  induction k generalizing n with
  | zero => exact one_dvd n
  | succ k ih =>
    have heven : n % 2 = 0 := by
      rw [← geomSum_mod_two ha]
      exact Nat.mod_eq_zero_of_dvd (Nat.dvd_trans (Dvd.intro_left _ rfl) h)
    obtain ⟨d, rfl⟩ : ∃ d, n = d + d := ⟨n / 2, by omega⟩
    have hmod := pow_mod_four ha d
    -- The two halves differ by the factor `a ^ d`, and `1 + a ^ d` is twice an odd number.
    have hsum : geomSum a (d + d) = 2 * (geomSum a d * ((1 + a ^ d) / 2)) := by
      rw [geomSum_add]
      have hhalf : 1 + a ^ d = 2 * ((1 + a ^ d) / 2) := by omega
      calc geomSum a d + a ^ d * geomSum a d
          = geomSum a d * (1 + a ^ d) := by ring
        _ = geomSum a d * (2 * ((1 + a ^ d) / 2)) := by rw [← hhalf]
        _ = 2 * (geomSum a d * ((1 + a ^ d) / 2)) := by ring
    rw [hsum, pow_succ', Nat.mul_dvd_mul_iff_left Nat.two_pos] at h
    have hodd : Nat.Coprime (2 ^ k) ((1 + a ^ d) / 2) := by
      refine Nat.Coprime.pow_left k (Nat.coprime_two_left.mpr ?_)
      rw [Nat.odd_iff]
      omega
    rw [← Nat.two_mul, pow_succ']
    exact Nat.mul_dvd_mul_left 2 (ih (hodd.dvd_of_dvd_mul_right h))

/-! ### The period -/

section

variable {k : ℕ} (ha : a % 4 = 1) (hc : c % 2 = 1)

include ha hc

/-- What a step moves by is odd. -/
theorem coprime_move (x : ℕ) : IsCoprime ((2 ^ k : ℕ) : ℤ) ((a - 1) * x + c) := by
  obtain ⟨q, rfl⟩ : ∃ q, a = 4 * q + 1 := ⟨a / 4, by omega⟩
  have hcast : (((4 * q + 1 : ℕ) : ℤ) - 1) * x + c = ((4 * (q * x) + c : ℕ) : ℤ) := by
    push_cast
    ring
  rw [hcast, Nat.isCoprime_iff_coprime]
  refine Nat.Coprime.pow_left k (Nat.coprime_two_left.mpr ?_)
  rw [Nat.odd_iff]
  omega

/-- Two states of one run, less than `2 ^ k` steps apart, are different. -/
theorem step_iterate_injOn (x : ℕ) :
    Set.InjOn (fun n => (step a c (2 ^ k))^[n] x) (Set.Iio (2 ^ k)) := by
  have hlt : ∀ i d, i + d < 2 ^ k → (step a c (2 ^ k))^[i] x = (step a c (2 ^ k))^[i + d] x → d = 0 := by
    intro i d hd heq
    have hi := step_iterate a c (2 ^ k) x i
    have hid := step_iterate a c (2 ^ k) x (i + d)
    rw [← heq, geomSum_add] at hid
    have hmod := (hi.symm.trans hid).dvd
    have hdiff : (x + ((geomSum a i + a ^ i * geomSum a d : ℕ) : ℤ) * ((a - 1) * x + c)) -
        (x + geomSum a i * ((a - 1) * x + c)) = ((a ^ i * geomSum a d : ℕ) : ℤ) * ((a - 1) * x + c) := by
      push_cast
      ring
    rw [hdiff] at hmod
    have hodd := coprime_move (k := k) ha hc x
    have hdvd := hodd.dvd_of_dvd_mul_right hmod
    rw [Int.natCast_dvd_natCast] at hdvd
    have hcop : Nat.Coprime (2 ^ k) (a ^ i) := by
      refine Nat.Coprime.pow_left k (Nat.coprime_two_left.mpr ?_)
      rw [Nat.odd_iff]
      have := pow_mod_four ha i
      omega
    have hsum := dvd_of_dvd_geomSum ha (hcop.dvd_of_dvd_mul_left hdvd)
    exact Nat.eq_zero_of_dvd_of_lt hsum (by omega)
  intro i hi j hj heq
  rw [Set.mem_Iio] at hi hj
  rcases Nat.le_total i j with hle | hle
  · obtain ⟨d, rfl⟩ := Nat.exists_eq_add_of_le hle
    rw [hlt i d hj heq, Nat.add_zero]
  · obtain ⟨d, rfl⟩ := Nat.exists_eq_add_of_le hle
    rw [hlt j d hi heq.symm, Nat.add_zero]

/-- The run goes through all states. -/
theorem exists_step_iterate {x : ℕ} (hx : x < 2 ^ k) {y : ℕ} (hy : y < 2 ^ k) :
    ∃ n < 2 ^ k, (step a c (2 ^ k))^[n] x = y := by
  have hlt : ∀ n, (step a c (2 ^ k))^[n] x < 2 ^ k := by
    intro n
    cases n with
    | zero => exact hx
    | succ n =>
      rw [Function.iterate_succ_apply']
      exact Nat.mod_lt _ (Nat.two_pow_pos k)
  let f : Fin (2 ^ k) → Fin (2 ^ k) := fun n => ⟨(step a c (2 ^ k))^[n] x, hlt n⟩
  have hinj : Function.Injective f := by
    intro i j hij
    exact Fin.ext (step_iterate_injOn ha hc x i.isLt j.isLt (congrArg Fin.val hij))
  obtain ⟨n, hn⟩ := Finite.surjective_of_injective hinj ⟨y, hy⟩
  exact ⟨n, n.isLt, congrArg Fin.val hn⟩

/-- Whatever the first state is, each of them comes within `2 ^ k` steps. -/
theorem exists_hit (x : ℕ) {y : ℕ} (hy : y < 2 ^ k) : ∃ n < 2 ^ k, (step a c (2 ^ k))^[n + 1] x = y := by
  have hfirst : step a c (2 ^ k) x < 2 ^ k := Nat.mod_lt _ (Nat.two_pow_pos k)
  obtain ⟨n, hn, heq⟩ := exists_step_iterate ha hc hfirst hy
  exact ⟨n, hn, by rw [Function.iterate_succ_apply, heq]⟩

end

end SidleBaselines.Lcg
