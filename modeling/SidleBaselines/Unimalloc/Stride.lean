import Mathlib.Data.Rat.Cast.Order
import Mathlib.Algebra.BigOperators.Fin
import Mathlib.Algebra.Order.BigOperators.Group.Finset
import Mathlib.Algebra.BigOperators.Field
import Mathlib.Algebra.Order.Field.Basic
import Mathlib.Algebra.Order.Field.Rat
import Mathlib.Tactic.FieldSimp
import Mathlib.Tactic.NormNum
import SidleBaselines.Scheduling.Balance

/-!
# Where the next block goes

Unimalloc puts a given percentage of the blocks on the CXL device. Each thread pays for its
blocks in tickets, a device's stride at a time, and takes the device it has paid less for.
`cxl_init` computes the strides from the percentage; before it both are zero.

## What is proved

* `scheduler_percentage` — whatever the threads do after `cxl_init`, each one's CXL blocks
  are the percentage of its blocks, to less than one block and one for each time its
  tickets were reset; any round of blocks in a row has exactly as many; and no addition of
  tickets overflows.
-/

namespace SidleBaselines.Unimalloc

open SidleBaselines.Scheduling

/-! ### Strides -/

/-- `SIZE_MAX`. -/
def sizeMax : ℕ := 2 ^ 64 - 1

/-- An `int` converted to `size_t`. -/
def sizeT (z : ℤ) : ℕ := (z % 2 ^ 64).toNat

/-- `DEVICE_TYPE`. -/
inductive DeviceType where
  | cxlDev
  | localDev
  | unknownDev
  deriving DecidableEq, Repr

/-- `gcd`. -/
def gcd (a b : ℤ) : ℤ := if b = 0 then a else gcd b (a.tmod b)
termination_by b.natAbs
decreasing_by
  rw [Int.natAbs_tmod]
  exact Nat.mod_lt _ (by omega)

/-- `local_stride` and `cxl_stride`. -/
@[ext]
structure Strides where
  localStride : ℤ
  cxlStride : ℤ
  deriving DecidableEq, Repr

/-- What `cxl_init` makes `percentage_on_cxl`, which was `old`. -/
def percentageOnCxl (old percentage : ℤ) : ℤ :=
  if percentage ≥ 100 then 100 else if percentage > 0 then percentage else old

/-- The strides for a percentage. -/
def initStrides (p : ℤ) : Strides :=
  if p = 100 then ⟨1, 0⟩
  else if p = 0 then ⟨0, 1⟩
  else
    let multipleResult := (p * (100 - p)).tdiv (gcd p (100 - p))
    ⟨multipleResult.tdiv (100 - p), multipleResult.tdiv p⟩

/-! ### Tickets -/

/-- A thread's `local_ticket` and `cxl_ticket`. -/
@[ext]
structure Tickets where
  localTicket : ℕ
  cxlTicket : ℕ
  local_le : localTicket ≤ sizeMax
  cxl_le : cxlTicket ≤ sizeMax
  deriving DecidableEq, Repr

/-- Both `0`. -/
def Tickets.zero : Tickets := ⟨0, 0, Nat.zero_le _, Nat.zero_le _⟩

theorem mod_le_sizeMax (n : ℕ) : n % 2 ^ 64 ≤ sizeMax := Nat.le_pred_of_lt (Nat.mod_lt n (by decide))

/-- `cxl_ticket += n`. -/
def Tickets.payCxl (t : Tickets) (n : ℕ) : Tickets :=
  { t with cxlTicket := (t.cxlTicket + n) % 2 ^ 64, cxl_le := mod_le_sizeMax _ }

/-- `local_ticket += n`. -/
def Tickets.payLocal (t : Tickets) (n : ℕ) : Tickets :=
  { t with localTicket := (t.localTicket + n) % 2 ^ 64, local_le := mod_le_sizeMax _ }

/-- What a call of `stride_scheduler` has done. -/
structure Scheduled where
  /-- The device it returned. -/
  device : DeviceType
  /-- It took the overflow branch. -/
  reset : Bool
  /-- The sum it made of a ticket and a stride, before it was truncated. -/
  sum : ℕ
  deriving DecidableEq, Repr

section
variable (s : Strides) (t : Tickets)

/-- The device `stride_scheduler` returns. -/
def chooseDevice : DeviceType :=
  if s.cxlStride = 0 then .cxlDev
  else if s.localStride = 0 then .localDev
  else if t.cxlTicket < t.localTicket then .cxlDev else .localDev

/-- It takes the overflow branch. -/
def overflows : DeviceType → Bool
  | .cxlDev => sizeMax - t.cxlTicket < sizeT s.cxlStride
  | .localDev => sizeMax - t.localTicket < sizeT s.localStride
  | .unknownDev => false

/-- `stride_scheduler`: what it has done, and the thread's tickets after it. -/
def strideScheduler : Scheduled × Tickets :=
  let result := chooseDevice s t
  let reset := overflows s t result
  let t := if reset then .zero else t
  match result with
  | .cxlDev => (⟨result, reset, t.cxlTicket + sizeT s.cxlStride⟩, t.payCxl (sizeT s.cxlStride))
  | .localDev => (⟨result, reset, t.localTicket + sizeT s.localStride⟩, t.payLocal (sizeT s.localStride))
  | .unknownDev => (⟨result, reset, 0⟩, t)

end

/-- What `n` calls in a row do, from tickets `t` on. -/
def calls (s : Strides) : Tickets → ℕ → List Scheduled
  | _, 0 => []
  | t, n + 1 => (strideScheduler s t).1 :: calls s (strideScheduler s t).2 n

/-- The tickets after them. -/
def after (s : Strides) : Tickets → ℕ → Tickets
  | t, 0 => t
  | t, n + 1 => after s (strideScheduler s t).2 n

/-! ### Threads -/

/-- The scheduler of a process with threads `J`. -/
structure Scheduler (J : Type) where
  /-- `cxl_kind` is not `NULL`. -/
  created : Bool
  /-- `percentage_on_cxl`. -/
  percentageOnCxl : ℤ
  /-- The strides, for all threads. -/
  strides : Strides
  /-- Each thread's tickets. -/
  tickets : J → Tickets

/-- What a thread calls. -/
inductive Call (J : Type) where
  | cxlInit (percentage : ℤ)
  | strideScheduler (j : J)

namespace Scheduler

variable {J : Type} [DecidableEq J]

/-- A process starts with everything zero. -/
def start : Scheduler J := ⟨false, 0, ⟨0, 0⟩, fun _ => .zero⟩

/-- What `cxl_init` does here: nothing, the second time. -/
def cxlInit (percentage : ℤ) (s : Scheduler J) : Scheduler J :=
  if s.created then s
  else
    let p := Unimalloc.percentageOnCxl s.percentageOnCxl percentage
    { s with created := true, percentageOnCxl := p, strides := initStrides p }

/-- A call of `stride_scheduler` by thread `j`. -/
def schedule (j : J) (s : Scheduler J) : Scheduled × Scheduler J :=
  let r := Unimalloc.strideScheduler s.strides (s.tickets j)
  (r.1, { s with tickets := Function.update s.tickets j r.2 })

/-- The scheduler after some calls. -/
def run : Scheduler J → List (Call J) → Scheduler J
  | s, [] => s
  | s, .cxlInit percentage :: cs => (s.cxlInit percentage).run cs
  | s, .strideScheduler j :: cs => (s.schedule j).2.run cs

/-- What each of them has done, and for which thread. -/
def log : Scheduler J → List (Call J) → List (J × Scheduled)
  | _, [] => []
  | s, .cxlInit percentage :: cs => (s.cxlInit percentage).log cs
  | s, .strideScheduler j :: cs => (j, (s.schedule j).1) :: (s.schedule j).2.log cs

end Scheduler

/-! ### The strides of a percentage -/

theorem gcd_eq (a b : ℕ) : gcd a b = a.gcd b := by
  induction b using Nat.strong_induction_on generalizing a with
  | _ b ih =>
    rw [gcd]
    by_cases hb : b = 0
    · simp [hb]
    · rw [if_neg (by exact_mod_cast hb), ← Int.ofNat_tmod, ih _ (Nat.mod_lt _ (by omega)) b,
        Nat.gcd_comm a b, Nat.gcd_rec b a, Nat.gcd_comm]

/-- A device's stride is what the other's share is of a round. -/
theorem initStrides_eq {p : ℕ} (hp : p ≤ 100) :
    initStrides p = ⟨(p / p.gcd (100 - p) : ℕ), ((100 - p) / p.gcd (100 - p) : ℕ)⟩ := by
  unfold initStrides
  by_cases h100 : p = 100
  · subst h100
    decide
  by_cases h0 : p = 0
  · subst h0
    decide
  have hq : (100 : ℤ) - p = (100 - p : ℕ) := by omega
  have hlt : 0 < 100 - p := by omega
  rw [if_neg (by exact_mod_cast h100), if_neg (by exact_mod_cast h0)]
  simp only [hq, gcd_eq, ← Nat.cast_mul, ← Int.ofNat_tdiv]
  have h₁ : p * (100 - p) / p.gcd (100 - p) / (100 - p) = p / p.gcd (100 - p) := by
    rw [Nat.div_right_comm, Nat.mul_div_cancel _ hlt]
  have h₂ : p * (100 - p) / p.gcd (100 - p) / p = (100 - p) / p.gcd (100 - p) := by
    rw [Nat.div_right_comm, Nat.mul_div_cancel_left _ (by omega)]
  rw [h₁, h₂]

/-- The two shares make a round. -/
theorem shares_add {p : ℕ} (hp : p ≤ 100) :
    (100 - p) / p.gcd (100 - p) + p / p.gcd (100 - p) = 100 / p.gcd (100 - p) := by
  rw [← Nat.add_div_of_dvd_left (Nat.gcd_dvd_left _ _), Nat.sub_add_cancel hp]

/-! ### One thread -/

/-- How much more a thread has paid for the CXL device. -/
def drift (t : Tickets) : ℤ := t.cxlTicket - t.localTicket

/-- The call returned `CXL_DEV`. -/
def Scheduled.onCxl (e : Scheduled) : Bool := e.device = .cxlDev

section
variable {a b : ℕ} {s : Strides} {t : Tickets}

theorem drift_payCxl {n : ℕ} (h : t.cxlTicket + n ≤ sizeMax) : drift (t.payCxl n) = drift t + n := by
  unfold sizeMax at h
  simp only [drift, Tickets.payCxl]
  omega

theorem drift_payLocal {n : ℕ} (h : t.localTicket + n ≤ sizeMax) : drift (t.payLocal n) = drift t - n := by
  unfold sizeMax at h
  simp only [drift, Tickets.payLocal]
  omega

theorem sizeT_lt (z : ℤ) : sizeT z ≤ sizeMax := by
  unfold sizeT sizeMax
  omega

theorem sizeT_natCast {n : ℕ} (h : n ≤ sizeMax) : sizeT n = n := by
  unfold sizeT sizeMax at *
  omega

/-- No addition of tickets overflows. -/
theorem sum_le (s : Strides) (t : Tickets) : (strideScheduler s t).1.sum ≤ sizeMax := by
  have h₁ := sizeT_lt s.cxlStride
  have h₂ := sizeT_lt s.localStride
  have h₃ := t.cxl_le
  have h₄ := t.local_le
  unfold strideScheduler overflows
  cases chooseDevice s t
  · by_cases hr : sizeMax - t.cxlTicket < sizeT s.cxlStride <;> simp [hr, Tickets.zero] <;> omega
  · by_cases hr : sizeMax - t.localTicket < sizeT s.localStride <;> simp [hr, Tickets.zero] <;> omega
  · exact Nat.zero_le _

theorem chooseDevice_eq (hs : s = ⟨b, a⟩) :
    chooseDevice s t = if first a b (drift t) then .cxlDev else .localDev := by
  subst hs
  unfold chooseDevice first drift
  by_cases ha : a = 0 <;> by_cases hb : b = 0 <;> simp [ha, hb]

/-- A call is a turn of the device it returns. -/
theorem strideScheduler_turn (hs : s = ⟨b, a⟩) (ha : a ≤ sizeMax) (hb : b ≤ sizeMax) :
    (strideScheduler s t).1.onCxl = first a b (drift t) ∧
      drift (strideScheduler s t).2 = next a b (drift t) (strideScheduler s t).1.reset := by
  have hsum := sum_le s t
  have hdev := chooseDevice_eq (t := t) hs
  unfold strideScheduler at hsum ⊢
  rw [hdev] at hsum ⊢
  subst hs
  unfold next
  cases hf : first a b (drift t)
  · simp only [hf, Bool.false_eq_true, if_false, sizeT_natCast hb] at hsum ⊢
    refine ⟨rfl, ?_⟩
    rw [drift_payLocal hsum]
    split_ifs <;> rfl
  · simp only [hf, if_true, sizeT_natCast ha] at hsum ⊢
    refine ⟨rfl, ?_⟩
    rw [drift_payCxl hsum]
    split_ifs <;> rfl

/-- The resets among some calls. -/
abbrev resets (es : List Scheduled) : List Bool := es.map (·.reset)

/-- Calls in a row are turns in a row. -/
theorem calls_turns (hs : s = ⟨b, a⟩) (ha : a ≤ sizeMax) (hb : b ≤ sizeMax) (n : ℕ) :
    (calls s t n).countP (·.onCxl) = firsts a b (drift t) (resets (calls s t n)) ∧
      drift (after s t n) = balance a b (drift t) (resets (calls s t n)) := by
  induction n generalizing t with
  | zero => exact ⟨rfl, rfl⟩
  | succ n ih =>
    obtain ⟨h₁, h₂⟩ := strideScheduler_turn (t := t) hs ha hb
    obtain ⟨ih₁, ih₂⟩ := ih (t := (strideScheduler s t).2)
    simp only [calls, after, List.countP_cons, List.map_cons, firsts, balance, h₁, ih₁, ih₂, h₂, and_self]

theorem length_calls (n : ℕ) : (calls s t n).length = n := by
  induction n generalizing t with
  | zero => rfl
  | succ n ih => rw [calls, List.length_cons, ih]

theorem calls_add (m n : ℕ) : calls s t (m + n) = calls s t m ++ calls s (after s t m) n := by
  induction m generalizing t with
  | zero => rw [Nat.zero_add]; rfl
  | succ m ih => rw [Nat.succ_add, calls, calls, after, ih, List.cons_append]

/-- Without resets a window of a round's calls has the CXL device's share on it. -/
theorem window_onCxl (hs : s = ⟨b, a⟩) (ha : a ≤ sizeMax) (hb : b ≤ sizeMax) (hab : 0 < a + b)
    (heq : t.localTicket = t.cxlTicket) {i : ℕ} (hreset : ∀ e ∈ calls s t (i + (a + b)), e.reset = false) :
    ((calls s t (i + (a + b))).drop i).countP (·.onCxl) = b := by
  have hrs (m : ℕ) (u : Tickets) (h : ∀ e ∈ calls s u m, e.reset = false) :
      resets (calls s u m) = List.replicate m false := by
    refine List.eq_replicate_iff.mpr ⟨by rw [List.length_map, length_calls], fun r hr => ?_⟩
    obtain ⟨e, he, rfl⟩ := List.mem_map.mp hr
    exact h e he
  rw [calls_add] at hreset ⊢
  rw [List.drop_left' (length_calls i)]
  -- the drift before the window is one that comes up without resets
  have hdrift : Regular a b (drift (after s t i)) := by
    rw [(calls_turns hs ha hb i).2, hrs i t fun e he => hreset e (List.mem_append_left _ he),
      show drift t = 0 by simp [drift, heq]]
    exact regular_zero.balance i
  rw [(calls_turns hs ha hb (a + b)).1, hrs _ _ fun e he => hreset e (List.mem_append_right _ he)]
  exact firsts_window hab hdrift

end

/-! ### All threads -/

namespace Scheduler

variable {J : Type} [DecidableEq J]

/-- Thread `j`'s part of a log. -/
def ofThread (j : J) (log : List (J × Scheduled)) : List Scheduled := (log.filter (·.1 = j)).map (·.2)

theorem ofThread_cons_self (j : J) (e : Scheduled) (log : List (J × Scheduled)) :
    ofThread j ((j, e) :: log) = e :: ofThread j log := by simp [ofThread]

theorem ofThread_cons_ne {i j : J} (h : i ≠ j) (e : Scheduled) (log : List (J × Scheduled)) :
    ofThread j ((i, e) :: log) = ofThread j log := by simp [ofThread, h]

/-- Once `cxl_init` has been called, what a thread's calls do is as if it were alone. -/
theorem ofThread_log {s : Scheduler J} (hs : s.created = true) (j : J) (cs : List (Call J)) :
    ofThread j (s.log cs) = calls s.strides (s.tickets j) (ofThread j (s.log cs)).length := by
  induction cs generalizing s with
  | nil => rfl
  | cons c cs ih =>
    cases c with
    | cxlInit percentage =>
      have hinit : s.cxlInit percentage = s := if_pos hs
      simp only [log, hinit]
      exact ih hs
    | strideScheduler i =>
      have ih := ih (s := (s.schedule i).2) hs
      by_cases hij : i = j
      · subst hij
        have hticket : (s.schedule i).2.tickets i = (Unimalloc.strideScheduler s.strides (s.tickets i)).2 :=
          Function.update_self ..
        rw [hticket] at ih
        rw [log, ofThread_cons_self, List.length_cons, calls]
        exact congrArg _ ih
      · have hticket : (s.schedule i).2.tickets j = s.tickets j := Function.update_of_ne (Ne.symm hij) ..
        rw [hticket] at ih
        rw [log, ofThread_cons_ne hij]
        exact ih

/-- No addition of tickets overflows, before `cxl_init` or after it. -/
theorem sum_log_le (s : Scheduler J) (cs : List (Call J)) : ∀ e ∈ s.log cs, e.2.sum ≤ sizeMax := by
  induction cs generalizing s with
  | nil => exact fun _ h => absurd h List.not_mem_nil
  | cons c cs ih =>
    cases c with
    | cxlInit percentage => exact ih _
    | strideScheduler j =>
      intro e he
      rcases List.mem_cons.mp he with rfl | he
      · exact sum_le _ _
      · exact ih _ e he

/-- Before `cxl_init` all tickets stay zero. -/
theorem run_start {cs : List (Call J)} (h : ∀ c ∈ cs, ∃ j, c = .strideScheduler j) :
    (start : Scheduler J).run cs = start := by
  induction cs with
  | nil => rfl
  | cons c cs ih =>
    obtain ⟨j, rfl⟩ := h c List.mem_cons_self
    have hstay : (start.schedule j).2 = (start : Scheduler J) := by
      have hzero : (Unimalloc.strideScheduler ⟨0, 0⟩ .zero).2 = .zero := by decide
      simp only [schedule, start, hzero]
      rw [Function.update_eq_self_iff.mpr rfl]
    rw [run, hstay]
    exact ih fun c hc => h c (List.mem_cons_of_mem _ hc)

theorem run_append (s : Scheduler J) (cs cs' : List (Call J)) : s.run (cs ++ cs') = (s.run cs).run cs' := by
  induction cs generalizing s with
  | nil => rfl
  | cons c cs ih => cases c <;> exact ih _

/-- A count over a log adds up what it is over its threads' parts. -/
theorem sum_ofThread [Fintype J] (f : Scheduled → Bool) (log : List (J × Scheduled)) :
    ∑ j, (ofThread j log).countP f = log.countP fun e => f e.2 := by
  induction log with
  | nil => simp [ofThread]
  | cons e log ih =>
    have hcons (j : J) : (ofThread j (e :: log)).countP f =
        (ofThread j log).countP f + if e.1 = j then (if f e.2 then 1 else 0) else 0 := by
      by_cases hj : e.1 = j <;> simp [ofThread, hj, List.countP_cons]
    simp only [hcons, Finset.sum_add_distrib, ih, Finset.sum_ite_eq, Finset.mem_univ, if_true,
      List.countP_cons]

/-! ### The percentage -/

/-- A percentage, clamped. -/
def clamp (percentage : ℤ) : ℕ := (min 100 (max 0 percentage)).toNat

theorem clamp_le (percentage : ℤ) : clamp percentage ≤ 100 := by
  unfold clamp
  omega

theorem percentageOnCxl_start (percentage : ℤ) :
    Unimalloc.percentageOnCxl 0 percentage = clamp percentage := by
  unfold Unimalloc.percentageOnCxl clamp
  split_ifs <;> omega

/-- The scheduler after `cxl_init`, with the CXL device's share `b` of `a + b` blocks. -/
theorem run_cxlInit {before : List (Call J)} (h : ∀ c ∈ before, ∃ j, c = .strideScheduler j)
    (percentage : ℤ) :
    let p := clamp percentage
    let s := (start : Scheduler J).run (before ++ [.cxlInit percentage])
    s.created = true ∧ s.strides = ⟨(p / p.gcd (100 - p) : ℕ), ((100 - p) / p.gcd (100 - p) : ℕ)⟩ ∧
      ∀ j, s.tickets j = .zero := by
  intro p s
  have hs : s = (start : Scheduler J).cxlInit percentage := by
    rw [show s = _ from run_append .., run_start h]
    rfl
  rw [hs]
  refine ⟨rfl, ?_, fun _ => rfl⟩
  refine Eq.trans ?_ (initStrides_eq (clamp_le percentage))
  rw [← percentageOnCxl_start]
  rfl

/-- A share of `b` in `a + b` as a percentage. -/
theorem percentage_of_share {a b g p c n k : ℕ} (hb : b * g = p) (hab : (a + b) * g = 100)
    (h : |(c : ℤ) * (a + b) - n * b| < (1 + k) * (a + b)) : |(c : ℚ) - n * p / 100| < 1 + k := by
  have hb' : (b : ℚ) * g = p := by exact_mod_cast hb
  have hab' : ((a : ℚ) + b) * g = 100 := by exact_mod_cast hab
  have h' : |(c : ℚ) * (a + b) - n * b| < (1 + k) * (a + b) := by exact_mod_cast h
  have hg : (g : ℚ) ≠ 0 := right_ne_zero_of_mul (by rw [hab']; norm_num)
  have hpos : (0 : ℚ) < a + b := by
    have : 0 < a + b := Nat.pos_of_ne_zero fun h => by simp [h] at hab
    exact_mod_cast this
  have heq : (c : ℚ) - n * p / 100 = (c * (a + b) - n * b) / (a + b) := by
    rw [← hb', ← hab']
    field_simp
  rwa [heq, abs_div, abs_of_pos hpos, div_lt_iff₀ hpos]

/-- The shares of `p` percent, and their round. -/
theorem shares {p : ℕ} (hp : p ≤ 100) :
    let g := p.gcd (100 - p)
    (100 - p) / g + p / g = 100 / g ∧ p / g * g = p ∧ 100 / g * g = 100 := by
  intro g
  have hp' : g ∣ p := Nat.gcd_dvd_left _ _
  have hdvd : g ∣ 100 := by
    have := Nat.dvd_add (Nat.gcd_dvd_right p (100 - p)) hp'
    rwa [Nat.sub_add_cancel hp] at this
  exact ⟨shares_add hp, Nat.div_mul_cancel hp', Nat.div_mul_cancel hdvd⟩

/-- A stride is a ticket's worth, and some stride is not free. -/
theorem shares_le {p : ℕ} (hp : p ≤ 100) :
    let g := p.gcd (100 - p)
    (100 - p) / g ≤ sizeMax ∧ p / g ≤ sizeMax ∧ 0 < (100 - p) / g + p / g := by
  intro g
  obtain ⟨hround, -, hhundred⟩ := shares hp
  have h₁ : (100 - p) / g ≤ 100 - p := Nat.div_le_self _ _
  have h₂ : p / g ≤ p := Nat.div_le_self _ _
  have hmax : 100 ≤ sizeMax := by decide
  refine ⟨by omega, by omega, ?_⟩
  rw [hround]
  exact Nat.pos_of_ne_zero fun h => by simp [h] at hhundred

/-- One thread's CXL blocks, of its first `n`. -/
theorem calls_percentage {s : Strides} {p : ℕ} (hp : p ≤ 100)
    (hs : s = ⟨(p / p.gcd (100 - p) : ℕ), ((100 - p) / p.gcd (100 - p) : ℕ)⟩) (n : ℕ) :
    |((calls s .zero n).countP (·.onCxl) : ℚ) - n * p / 100| < 1 + (calls s .zero n).countP (·.reset) := by
  obtain ⟨hround, hpg, hhundred⟩ := shares hp
  obtain ⟨ha, hb, hpos⟩ := shares_le hp
  have hcount := (calls_turns (t := .zero) hs ha hb n).1
  have hshare := firsts_share hpos (resets (calls s .zero n))
  rw [show drift .zero = 0 from rfl] at hcount
  have hreset : (resets (calls s .zero n)).count true = (calls s .zero n).countP (·.reset) := by
    rw [List.count_eq_countP, List.countP_map]
    exact List.countP_congr fun e _ => by simp
  rw [← hcount, List.length_map, length_calls, hreset] at hshare
  exact percentage_of_share hpg (by rw [hround, hhundred]) hshare

/-- **The percentage is kept**: after `cxl_init`, whatever the threads do, each thread's CXL
blocks are the percentage of its blocks to less than one block and one for every reset of
its tickets; from equal tickets and without a reset any round of blocks in a row has its
exact share of them; no addition of tickets overflows; and without resets all CXL blocks
together are the percentage of all blocks to less than one for every thread. -/
theorem scheduler_percentage [Fintype J] [Nonempty J] (percentage : ℤ) (before after : List (Call J))
    (hbefore : ∀ c ∈ before, ∃ j, c = .strideScheduler j) :
    let p := clamp percentage
    let g := p.gcd (100 - p)
    let s := (start : Scheduler J).run (before ++ [.cxlInit percentage])
    let log := s.log after
    (∀ j, |((ofThread j log).countP (·.onCxl) : ℚ) - (ofThread j log).length * p / 100| <
      1 + (ofThread j log).countP (·.reset)) ∧
    (∀ (t : Tickets) (i : ℕ), t.localTicket = t.cxlTicket →
      (∀ e ∈ calls s.strides t (i + 100 / g), e.reset = false) →
        ((calls s.strides t (i + 100 / g)).drop i).countP (·.onCxl) = p / g) ∧
    (∀ e ∈ (start : Scheduler J).log (before ++ .cxlInit percentage :: after), e.2.sum ≤ sizeMax) ∧
    ((∀ e ∈ log, e.2.reset = false) →
      |(log.countP (·.2.onCxl) : ℚ) - log.length * p / 100| < Fintype.card J) := by
  intro p g s log
  obtain ⟨hcreated, hstrides, htickets⟩ := run_cxlInit hbefore percentage
  have hp := clamp_le percentage
  obtain ⟨hround, -, -⟩ := shares hp
  obtain ⟨ha, hb, hpos⟩ := shares_le hp
  have hthread (j : J) : |((ofThread j log).countP (·.onCxl) : ℚ) - (ofThread j log).length * p / 100| <
      1 + (ofThread j log).countP (·.reset) := by
    have hlog := ofThread_log hcreated j after
    rw [htickets] at hlog
    have hshare := calls_percentage hp hstrides (ofThread j log).length
    rwa [← hlog] at hshare
  refine ⟨hthread, fun t i heq hreset => ?_, sum_log_le _ _, fun hreset => ?_⟩
  · rw [← hround] at hreset ⊢
    exact window_onCxl hstrides ha hb hpos heq hreset
  · have hlength : (log.length : ℚ) = ∑ j, ((ofThread j log).length : ℚ) := by
      have := sum_ofThread (fun _ => true) log
      simp only [List.countP_true] at this
      exact_mod_cast this.symm
    have hplaced : (log.countP (·.2.onCxl) : ℚ) = ∑ j, ((ofThread j log).countP (·.onCxl) : ℚ) := by
      exact_mod_cast (sum_ofThread (·.onCxl) log).symm
    have hnone (j : J) : (ofThread j log).countP (·.reset) = 0 := by
      refine List.countP_eq_zero.mpr fun e he => ?_
      obtain ⟨x, hx, rfl⟩ := List.mem_map.mp he
      simpa using hreset x (List.mem_of_mem_filter hx)
    calc |(log.countP (·.2.onCxl) : ℚ) - log.length * p / 100|
        = |∑ j, (((ofThread j log).countP (·.onCxl) : ℚ) - (ofThread j log).length * p / 100)| := by
          rw [hplaced, hlength, Finset.sum_sub_distrib, ← Finset.sum_div, ← Finset.sum_mul]
      _ ≤ ∑ j, |((ofThread j log).countP (·.onCxl) : ℚ) - (ofThread j log).length * p / 100| :=
          Finset.abs_sum_le_sum_abs _ _
      _ < ∑ _j : J, (1 : ℚ) := by
          refine Finset.sum_lt_sum_of_nonempty Finset.univ_nonempty fun j _ => ?_
          have := hthread j
          rwa [hnone, Nat.cast_zero, add_zero] at this
      _ = Fintype.card J := by rw [Finset.sum_const, Finset.card_univ, nsmul_eq_mul, mul_one]

/-- Two threads, 30 percent, and one call before `cxl_init`. -/
theorem scheduler_percentage_thirty :
    let log := ((start : Scheduler (Fin 2)).run [.strideScheduler 0, .cxlInit 30]).log
      [.strideScheduler 0, .strideScheduler 1, .strideScheduler 0]
    |((ofThread 0 log).countP (·.onCxl) : ℚ) - (ofThread 0 log).length * (clamp 30 : ℕ) / 100| <
      1 + (ofThread 0 log).countP (·.reset) :=
  (scheduler_percentage 30 [.strideScheduler 0] [.strideScheduler 0, .strideScheduler 1, .strideScheduler 0]
    (by simp)).1 0

end Scheduler

end SidleBaselines.Unimalloc
