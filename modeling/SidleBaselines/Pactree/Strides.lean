import SidleBaselines.Pactree.PMem
import Mathlib.Tactic.Ring
import Mathlib.Tactic.Linarith

/-!
# Two copies of a scheduler

`PMem` has a copy of `stride_scheduler` and `gcd` from `cxl_allocator.c`, and `bind`
computes the strides as `cxl_init` does, but from the percentage as it is given:
`cxl_init` leaves `percentage_on_cxl` at 0 for a negative one. The strides of a negative
percentage have different signs; converted to `size_t` one of them is huge.

## What is proved

* `bind_eq` — `bind` computes the strides and then allocates the root;
* `initStrides_ne_zero` — the strides of a negative percentage are not zero;
* `decisions_agree_iff` — the two make the same decisions if and only if the percentage
  is not negative.
-/

namespace SidleBaselines.Unimalloc

/-! ### The strides of a negative percentage -/

theorem natAbs_gcd (a b : ℤ) : (gcd a b).natAbs = a.natAbs.gcd b.natAbs := by
  fun_induction gcd a b with
  | case1 a => simp
  | case2 a b hb ih =>
    rw [ih, Int.natAbs_tmod, Nat.gcd_comm, ← Nat.gcd_rec, Nat.gcd_comm]

theorem gcd_dvd_left (a b : ℤ) : gcd a b ∣ a := by
  rw [← Int.natAbs_dvd_natAbs, natAbs_gcd]
  exact Nat.gcd_dvd_left _ _

theorem gcd_dvd_right (a b : ℤ) : gcd a b ∣ b := by
  rw [← Int.natAbs_dvd_natAbs, natAbs_gcd]
  exact Nat.gcd_dvd_right _ _

/-- Each stride is the other device's percentage, divided by the common divisor. -/
theorem initStrides_of_neg {p : ℤ} (hp : p < 0) :
    ∃ g, p = g * (initStrides p).localStride ∧ 100 - p = g * (initStrides p).cxlStride := by
  obtain ⟨x, hx⟩ := gcd_dvd_left p (100 - p)
  obtain ⟨y, hy⟩ := gcd_dvd_right p (100 - p)
  refine ⟨gcd p (100 - p), ?_⟩
  rw [initStrides, if_neg (by omega), if_neg (by omega)]
  generalize hg : gcd p (100 - p) = g at hx hy ⊢
  have hg0 : g ≠ 0 := by
    rintro rfl
    omega
  have hmultiple : (p * (100 - p)).tdiv g = g * x * y := by
    rw [hy, hx, show g * x * (g * y) = g * (g * x * y) by ring, Int.mul_tdiv_cancel_left _ hg0]
  have hlocal : (g * x * y).tdiv (100 - p) = x := by
    rw [hy, show g * x * y = g * y * x by ring, Int.mul_tdiv_cancel_left _ (by rw [← hy]; omega)]
  have hcxl : (g * x * y).tdiv p = y := by
    rw [hx, Int.mul_tdiv_cancel_left _ (by rw [← hx]; omega)]
  simp only [hmultiple, hlocal, hcxl]
  exact ⟨hx, hy⟩

theorem initStrides_ne_zero {p : ℤ} (hp : p < 0) :
    (initStrides p).localStride ≠ 0 ∧ (initStrides p).cxlStride ≠ 0 := by
  obtain ⟨g, hlocal, hcxl⟩ := initStrides_of_neg hp
  constructor
  · intro h
    rw [h, mul_zero] at hlocal
    omega
  · intro h
    rw [h, mul_zero] at hcxl
    omega

/-- The local stride is at most as large as the percentage. -/
theorem natAbs_localStride_le {p : ℤ} (hp : p < 0) : (initStrides p).localStride.natAbs ≤ p.natAbs := by
  obtain ⟨g, hlocal, -⟩ := initStrides_of_neg hp
  exact Nat.le_of_dvd (by omega) (Int.natAbs_dvd_natAbs.mpr ⟨g, by rw [mul_comm]; exact hlocal⟩)

/-! ### Decisions -/

/-- The devices that `n` calls of `stride_scheduler` by thread `j` return. -/
def Scheduler.decisions {J : Type} [DecidableEq J] (j : J) : ℕ → Scheduler J → List DeviceType
  | 0, _ => []
  | n + 1, s => (s.schedule j).1.device :: decisions j n (s.schedule j).2

theorem Scheduler.decisions_eq {J : Type} [DecidableEq J] (j : J) (n : ℕ) (s : Scheduler J) :
    s.decisions j n = (calls s.strides (s.tickets j) n).map (·.device) := by
  induction n generalizing s with
  | zero => rfl
  | succ n ih =>
    rw [decisions, calls, List.map_cons, ih]
    simp [schedule]

/-- With both strides there, the second call from zero tickets goes to the CXL device. -/
theorem second_decision {s : Strides} (hlocal : s.localStride ≠ 0) (hcxl : s.cxlStride ≠ 0)
    (hsmall : s.localStride.natAbs < 2 ^ 64) :
    (calls s .zero 2).map (·.device) = [.localDev, .cxlDev] := by
  have hpos : 0 < sizeT s.localStride := by
    unfold sizeT
    omega
  have hle := sizeT_lt s.localStride
  have hfirst : strideScheduler s .zero = (⟨.localDev, false, 0 + sizeT s.localStride⟩,
      Tickets.zero.payLocal (sizeT s.localStride)) := by
    have hfit : ¬ sizeMax < sizeT s.localStride := by omega
    simp [strideScheduler, chooseDevice, overflows, Tickets.zero, hlocal, hcxl, hfit]
  have hsecond : chooseDevice s (Tickets.zero.payLocal (sizeT s.localStride)) = .cxlDev := by
    have hmod : sizeT s.localStride % 2 ^ 64 = sizeT s.localStride :=
      Nat.mod_eq_of_lt (by unfold sizeMax at hle; omega)
    rw [chooseDevice, if_neg hcxl, if_neg hlocal]
    simp only [Tickets.payLocal, Tickets.zero, Nat.zero_add, hmod, if_pos hpos]
  simp only [calls, hfirst, List.map_cons, List.map_nil]
  simp [strideScheduler, hsecond]

/-- Without a local stride every call goes to local memory. -/
theorem all_local {s : Strides} (hlocal : s.localStride = 0) (hcxl : s.cxlStride ≠ 0) (t : Tickets) (n : ℕ) :
    (calls s t n).map (·.device) = List.replicate n .localDev := by
  induction n generalizing t with
  | zero => rfl
  | succ n ih =>
    rw [calls, List.map_cons, ih, List.replicate_succ]
    simp [strideScheduler, chooseDevice, hlocal, hcxl]

theorem Scheduler.decisions_cxlInit {J : Type} [DecidableEq J] (j : J) (p : ℤ) (n : ℕ) :
    (Scheduler.start.cxlInit p).decisions j n =
      (calls (initStrides (Unimalloc.percentageOnCxl 0 p)) .zero n).map (·.device) :=
  decisions_eq j n _

/-- A negative percentage and the 0 that `cxl_init` makes of it differ in the second decision. -/
theorem second_decision_ne {p : ℤ} (hneg : p < 0) (hrange : -2 ^ 31 < p) :
    (calls (initStrides p) .zero 2).map (·.device) ≠
      (calls (initStrides (percentageOnCxl 0 p)) .zero 2).map (·.device) := by
  have hzero : initStrides (percentageOnCxl 0 p) = ⟨0, 1⟩ := by
    rw [percentageOnCxl, if_neg (by omega), if_neg (by omega)]
    rfl
  obtain ⟨hlocal, hcxl⟩ := initStrides_ne_zero hneg
  have hsmall := natAbs_localStride_le hneg
  rw [hzero, second_decision hlocal hcxl (by omega), all_local rfl (by decide)]
  decide

end SidleBaselines.Unimalloc

namespace SidleBaselines.Pactree

open SidleBaselines.Unimalloc

namespace PMem

variable {J : Type} [DecidableEq J]

/-- The strides that `bind` computes, if the thread has paid nothing for local memory. -/
def computeStrides (percentageOnCxl : ℤ) (j : J) (s : PMem J) : PMem J :=
  if (s.tickets j).localTicket = 0 then { s with strides := initStrides percentageOnCxl } else s

theorem bind_eq (poolId size : ℕ) (percentageOnCxl : ℤ) (mapped mapped2 : ℕ) (j : J) (a : Answers) (s : PMem J) :
    s.bind poolId size percentageOnCxl mapped mapped2 j a =
      ((s.bindKinds poolId size mapped mapped2).computeStrides percentageOnCxl j).alloc poolId rootSize j a := rfl

omit [DecidableEq J] in
theorem bindKinds_tickets (poolId size mapped mapped2 : ℕ) (s : PMem J) :
    (s.bindKinds poolId size mapped mapped2).tickets = s.tickets := by
  unfold bindKinds
  split_ifs <;> rfl

/-- The devices that `n` calls of `stride_scheduler` by thread `j` return. -/
def decisions (j : J) : ℕ → PMem J → List DeviceType
  | 0, _ => []
  | n + 1, s => (s.stride j).1 :: decisions j n (s.stride j).2

theorem decisions_eq (j : J) (n : ℕ) (s : PMem J) :
    s.decisions j n = (calls s.strides (s.tickets j) n).map (·.device) := by
  induction n generalizing s with
  | zero => rfl
  | succ n ih =>
    rw [decisions, calls, List.map_cons, ih]
    simp [stride]

theorem decisions_computeStrides (j : J) (p : ℤ) (poolId size mapped mapped2 n : ℕ) {s : PMem J}
    (hs : s.tickets j = .zero) :
    ((s.bindKinds poolId size mapped mapped2).computeStrides p j).decisions j n =
      (calls (initStrides p) .zero n).map (·.device) := by
  have hzero : (s.bindKinds poolId size mapped mapped2).tickets j = .zero := by
    rw [bindKinds_tickets, hs]
  rw [decisions_eq, computeStrides, if_pos (by rw [hzero]; rfl)]
  simp only [hzero]

end PMem

/-- For a percentage up to 100 whose strides are computed without overflow of an `int`, a
thread without tickets gets the decisions that Unimalloc makes after `cxl_init`, however many
there are, if and only if the percentage is not negative. -/
theorem decisions_agree_iff {J : Type} [DecidableEq J] (j : J) (p : ℤ) (hp : p ≤ 100)
    (hint : -2 ^ 31 ≤ p * (100 - p)) (poolId size mapped mapped2 : ℕ) (s : PMem J) (hs : s.tickets j = .zero) :
    (∀ n, ((s.bindKinds poolId size mapped mapped2).computeStrides p j).decisions j n =
      (Scheduler.start.cxlInit p).decisions j n) ↔ 0 ≤ p := by
  simp only [PMem.decisions_computeStrides j p poolId size mapped mapped2 _ hs, Scheduler.decisions_cxlInit]
  constructor
  · intro hall
    by_contra hneg
    have hneg : p < 0 := by omega
    exact second_decision_ne hneg (by nlinarith) (hall 2)
  · intro hpos n
    have hsame : percentageOnCxl 0 p = p := by
      unfold percentageOnCxl
      split_ifs <;> omega
    rw [hsame]

/-- A third on the CXL device. -/
theorem decisions_agree_third :
    ((PMem.start.bindKinds 0 4096 4096 8192).computeStrides 33 ()).decisions () 5 =
      (Scheduler.start.cxlInit 33).decisions () 5 :=
  (decisions_agree_iff () 33 (by decide) (by decide) 0 4096 4096 8192 .start rfl).mpr (by decide) 5

/-- With `-1` percent, `PMem` puts the second block on the CXL device. -/
theorem decisions_disagree :
    ¬ ∀ p : ℤ, p ≤ 100 → -2 ^ 31 ≤ p * (100 - p) → ∀ n,
      ((PMem.start.bindKinds 0 4096 4096 8192).computeStrides p ()).decisions () n =
        (Scheduler.start.cxlInit p).decisions () n := by
  intro hall
  have htwo := hall (-1) (by decide) (by decide) 2
  rw [PMem.decisions_computeStrides _ _ _ _ _ _ _ rfl, Scheduler.decisions_cxlInit] at htwo
  exact second_decision_ne (p := -1) (by decide) (by decide) htwo

end SidleBaselines.Pactree
