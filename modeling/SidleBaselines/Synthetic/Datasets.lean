import Mathlib
import SidleBaselines.Synthetic.Skew

/-!
# The generators of datasets

`uniform_data_gen` and `linear_data_gen` of
`src/benchmark/synthetic/dataset_generator.cpp` draw numbers and reject the ones they
have, until they have `table_size` of them. The first one draws from 0 to `scale`; the
second around multiples of `gap`, each number above the last. From time to time, by a
count modulo `table_size / 10`, they report.

A loop is given by what a turn does with a draw. A turn is `none` where the behaviour of
the program is undefined: a division by zero, a signed sum that overflows.

## What is proved

* `Loop.Reach.invariant`, `Loop.not_canFinish` — the rules for loops over draws;
* `uniformLoop_canFinish_iff` — the first loop can always finish if and only if
  `table_size` is at least 10 and there are as many numbers to draw;
* `linearLoop_canFinish_iff` — the second, if and only if `table_size` is at least 10,
  `gap` is not 0 and the largest number that it can draw does not overflow;
* `generators_finish_iff` — both, for every size and scale.
-/

namespace SidleBaselines.Synthetic.Datasets

/-! ### Loops over draws -/

/-- A loop that draws in every turn. -/
structure Loop (S D : Type) where
  init : S
  /-- The condition of the loop. -/
  running : S → Prop
  /-- What can be drawn. -/
  support : D → Prop
  /-- The draw is not rejected. -/
  accepts : S → D → Prop
  /-- A turn; `none` if its behaviour is undefined. -/
  turn : S → D → Option S

namespace Loop

variable {S D : Type} {L : Loop S D}

/-- The states before the turns of a run, and after the last. -/
inductive Reach (L : Loop S D) : S → Prop where
  | init : Reach L L.init
  | turn {s s' : S} {d : D} : Reach L s → L.running s → L.support d → L.turn s d = some s' → Reach L s'

/-- No run goes wrong, none is stuck, and one that ends is `done`. -/
def CanFinish (L : Loop S D) (done : S → Prop) : Prop :=
  ∀ s, L.Reach s →
    (L.running s → (∀ d, L.support d → (L.turn s d).isSome) ∧ ∃ d, L.support d ∧ L.accepts s d) ∧
    (¬ L.running s → done s)

/-- What holds at first and is kept by every turn holds always. -/
theorem Reach.invariant {I : S → Prop} (hinit : I L.init)
    (hturn : ∀ s d s', I s → L.running s → L.support d → L.turn s d = some s' → I s') {s : S} (h : L.Reach s) :
    I s := by
  induction h with
  | init => exact hinit
  | turn _ hrun hd hs ih => exact hturn _ _ _ ih hrun hd hs

/-- A state that no draw leads on from, or a draw goes wrong in, refutes it. -/
theorem not_canFinish {done : S → Prop} {s : S} (h : L.Reach s) (hrun : L.running s)
    (hbad : ∀ d, L.support d → L.accepts s d → ∃ d', L.support d' ∧ L.turn s d' = none) :
    ¬ L.CanFinish done := by
  intro hfin
  obtain ⟨hsome, d, hd, hacc⟩ := (hfin s h).1 hrun
  obtain ⟨d', hd', hnone⟩ := hbad d hd hacc
  have := hsome d' hd'
  rw [hnone] at this
  cases this

end Loop

/-! ### Uniform numbers -/

/-- `dataset` and `cnt`. -/
structure UniformState where
  dataset : Finset ℤ
  cnt : ℕ

/-- The report at the end of a turn divides by `table_size / 10`. -/
def report {S : Type} (tableSize : ℕ) (s : S) : Option S :=
  if tableSize / 10 = 0 then none else some s

/-- The loop of `uniform_data_gen`. -/
def uniformLoop (tableSize maximum : ℕ) : Loop UniformState ℤ where
  init := ⟨∅, 0⟩
  running s := s.dataset.card < tableSize
  support n := 0 ≤ n ∧ n ≤ maximum
  accepts s n := n ∉ s.dataset
  turn s n :=
    if n ∈ s.dataset then report tableSize { s with cnt := (s.cnt + 1) % 2 ^ 64 }
    else if 0 ≤ n then report tableSize ⟨insert n s.dataset, (s.cnt + 1) % 2 ^ 64⟩
    else none

/-- The set has the wanted size. -/
def UniformState.Done (tableSize : ℕ) (s : UniformState) : Prop :=
  s.dataset.card = tableSize

section

variable {N maximum : ℕ}

theorem report_eq (h : 10 ≤ N) {S : Type} (s : S) : report N s = some s :=
  if_neg (by omega)

theorem report_none (h : N < 10) {S : Type} (s : S) : report N s = none :=
  if_pos (by omega)

theorem uniform_turn (h : 10 ≤ N) {s : UniformState} {n : ℤ} (hn : 0 ≤ n) :
    (uniformLoop N maximum).turn s n = some ⟨insert n s.dataset, (s.cnt + 1) % 2 ^ 64⟩ := by
  rw [uniformLoop]
  simp only [report_eq h, if_pos hn]
  split_ifs with hmem
  · rw [Finset.insert_eq_of_mem hmem]
  · rfl

/-- With sizes below 10 the first turn divides by zero. -/
theorem uniform_turn_none (h : N < 10) (s : UniformState) (n : ℤ) :
    (uniformLoop N maximum).turn s n = none := by
  rw [uniformLoop]
  simp only [report_none h]
  split_ifs <;> rfl

/-- What is in the set has been drawn, and no more than wanted. -/
def UniformState.Inv (N maximum : ℕ) (s : UniformState) : Prop :=
  s.dataset ⊆ Finset.Icc 0 (maximum : ℤ) ∧ s.dataset.card ≤ N

theorem uniform_inv (h : 10 ≤ N) {s : UniformState} (hs : (uniformLoop N maximum).Reach s) : s.Inv N maximum := by
  refine hs.invariant ⟨Finset.empty_subset _, Nat.zero_le N⟩ ?_
  rintro s n s' ⟨hsub, -⟩ hrun ⟨hlow, hhigh⟩ hturn
  rw [uniform_turn h hlow] at hturn
  cases hturn
  refine ⟨Finset.insert_subset (Finset.mem_Icc.mpr ⟨hlow, hhigh⟩) hsub, ?_⟩
  exact (Finset.card_insert_le _ _).trans hrun

/-- Drawing the numbers in order. -/
theorem uniform_reach (h : 10 ≤ N) {j : ℕ} (hj : j ≤ maximum + 1) (hjN : j ≤ N) :
    ∃ s, (uniformLoop N maximum).Reach s ∧ s.dataset = Finset.Ico 0 (j : ℤ) := by
  induction j with
  | zero => exact ⟨_, .init, by simp [uniformLoop]⟩
  | succ j ih =>
    obtain ⟨s, hs, hset⟩ := ih (by omega) (by omega)
    have hrun : (uniformLoop N maximum).running s := by
      change s.dataset.card < N
      rw [hset, Int.card_Ico]
      omega
    refine ⟨_, hs.turn hrun (d := (j : ℤ)) ⟨by omega, by omega⟩ (uniform_turn h (by omega)), ?_⟩
    simp only [hset]
    ext x
    simp only [Finset.mem_insert, Finset.mem_Ico]
    omega

theorem uniformLoop_canFinish_iff (hN : 0 < N) :
    (uniformLoop N maximum).CanFinish (UniformState.Done N) ↔ 10 ≤ N ∧ N ≤ maximum + 1 := by
  constructor
  · intro hfin
    have hten : 10 ≤ N := by
      by_contra hlt
      refine Loop.not_canFinish (.init) hN ?_ hfin
      exact fun d hd _ => ⟨d, hd, uniform_turn_none (by omega) _ d⟩
    refine ⟨hten, ?_⟩
    by_contra hlt
    obtain ⟨s, hs, hset⟩ := uniform_reach hten (le_refl (maximum + 1)) (by omega)
    have hrun : (uniformLoop N maximum).running s := by
      change s.dataset.card < N
      rw [hset, Int.card_Ico]
      omega
    refine Loop.not_canFinish hs hrun ?_ hfin
    rintro n ⟨hlow, hhigh⟩ hacc
    refine absurd ?_ hacc
    rw [hset, Finset.mem_Ico]
    omega
  · rintro ⟨hten, hmax⟩ s hs
    obtain ⟨hsub, hcard⟩ := uniform_inv hten hs
    refine ⟨?_, fun hstop => Nat.le_antisymm hcard (Nat.le_of_not_lt hstop)⟩
    intro hrun
    refine ⟨fun n hn => by rw [uniform_turn hten hn.1]; rfl, ?_⟩
    have hmore : s.dataset.card < (Finset.Icc 0 (maximum : ℤ)).card := by
      rw [Int.card_Icc]
      change s.dataset.card < N at hrun
      omega
    obtain ⟨n, hn, hnew⟩ := Finset.exists_mem_notMem_of_card_lt_card hmore
    exact ⟨n, Finset.mem_Icc.mp hn, hnew⟩

end

/-! ### Numbers around multiples of the gap -/

/-- `i`, `cnt`, `prev_n` and the numbers in `dataset`, the last one first. -/
structure LinearState where
  i : ℕ
  cnt : ℕ
  prevN : ℤ
  dataset : List ℤ

/-- An `int64_t` from a number of 64 bits. -/
def toInt64 (z : ℤ) : ℤ :=
  z.bmod (2 ^ 64)

/-- `n = (i + 1) * gap`, a product of unsigned numbers. -/
def slot (gap i : ℕ) : ℤ :=
  toInt64 ((i + 1) * gap)

/-- The loops of `linear_data_gen`, by the turns of the inner one. -/
def linearLoop (tableSize gap : ℕ) : Loop LinearState ℤ where
  init := ⟨0, 0, 0, []⟩
  running s := s.i < tableSize
  support d := -((gap / 2 : ℕ) : ℤ) ≤ d ∧ d ≤ ((gap / 2 : ℕ) : ℤ)
  accepts s d := slot gap s.i + d > s.prevN ∧ slot gap s.i + d ∉ s.dataset
  turn s d :=
    let num := slot gap s.i + d
    if num < -2 ^ 63 ∨ 2 ^ 63 ≤ num then none
    else if num > s.prevN ∧ num ∉ s.dataset then
      report tableSize ⟨s.i + 1, (s.cnt + 1) % 2 ^ 64, num, num :: s.dataset⟩
    else some { s with cnt := (s.cnt + 1) % 2 ^ 64 }

/-- As many numbers as wanted, each above the one before. -/
def LinearState.Done (tableSize : ℕ) (s : LinearState) : Prop :=
  s.dataset.length = tableSize ∧ s.dataset.Pairwise (· > ·)

section

variable {N gap : ℕ}

theorem slot_eq (gap i : ℕ) (h : (i + 1) * gap < 2 ^ 63) : slot gap i = (i + 1) * gap := by
  have hcast : ((i : ℤ) + 1) * gap = (((i + 1) * gap : ℕ) : ℤ) := by
    push_cast
    rfl
  rw [slot, toInt64, hcast]
  exact Int.bmod_eq_of_le (by omega) (by omega)

/-- A product that wraps once is negative. -/
theorem slot_wrap (gap i : ℕ) (hlow : 2 ^ 63 ≤ (i + 1) * gap) (hhigh : (i + 1) * gap < 2 ^ 64) :
    slot gap i = (i + 1) * gap - 2 ^ 64 := by
  have hcast : ((i : ℤ) + 1) * gap = (((i + 1) * gap : ℕ) : ℤ) := by
    push_cast
    rfl
  rw [slot, toInt64, hcast, Int.bmod]
  omega

/-- Numbers in range are taken if they lie above the last one. -/
theorem linear_turn (h : 10 ≤ N) {s : LinearState} {d : ℤ} (hlow : -2 ^ 63 ≤ slot gap s.i + d)
    (hhigh : slot gap s.i + d < 2 ^ 63) :
    (linearLoop N gap).turn s d =
      if slot gap s.i + d > s.prevN ∧ slot gap s.i + d ∉ s.dataset then
        some ⟨s.i + 1, (s.cnt + 1) % 2 ^ 64, slot gap s.i + d, (slot gap s.i + d) :: s.dataset⟩
      else some { s with cnt := (s.cnt + 1) % 2 ^ 64 } := by
  simp only [linearLoop, report_eq h]
  rw [if_neg (by omega)]

theorem linear_turn_overflow {s : LinearState} {d : ℤ} (h : 2 ^ 63 ≤ slot gap s.i + d) :
    (linearLoop N gap).turn s d = none := by
  simp only [linearLoop]
  rw [if_pos (Or.inr h)]

/-- With sizes below 10 a number that is accepted divides by zero. -/
theorem linear_turn_none (h : N < 10) {s : LinearState} {d : ℤ} (hacc : (linearLoop N gap).accepts s d) :
    (linearLoop N gap).turn s d = none := by
  simp only [linearLoop, report_none h] at hacc ⊢
  rw [if_pos hacc]
  split_ifs <;> rfl

/-- The numbers rise, and the last one lies in the range of its slot. -/
structure LinearState.Inv (N gap : ℕ) (s : LinearState) : Prop where
  i_le : s.i ≤ N
  length : s.dataset.length = s.i
  sorted : s.dataset.Pairwise (· > ·)
  le_prev : ∀ x ∈ s.dataset, x ≤ s.prevN
  prev_le : s.prevN ≤ ((s.i * gap + gap / 2 : ℕ) : ℤ)

/-- A slot that is not the last. -/
theorem slot_le (gap : ℕ) {i : ℕ} (hi : i < N) : (i + 1) * gap ≤ N * gap :=
  Nat.mul_le_mul_right gap hi

theorem linear_inv (h : 10 ≤ N) (hfit : N * gap + gap / 2 < 2 ^ 63) {s : LinearState}
    (hs : (linearLoop N gap).Reach s) : s.Inv N gap := by
  refine hs.invariant ⟨Nat.zero_le N, rfl, .nil, by simp [linearLoop], Int.natCast_nonneg _⟩ ?_
  rintro s d s' hinv hrun ⟨hlow, hhigh⟩ hturn
  have hi : s.i < N := hrun
  have hle := slot_le gap hi
  have hslot := slot_eq gap s.i (by omega)
  have hcast : slot gap s.i = (((s.i + 1) * gap : ℕ) : ℤ) := by
    rw [hslot]
    push_cast
    rfl
  rw [linear_turn h (by omega) (by omega)] at hturn
  split_ifs at hturn with hacc
  · cases hturn
    refine ⟨hi, by rw [List.length_cons, hinv.length], ?_, ?_, ?_⟩
    · refine List.pairwise_cons.mpr ⟨?_, hinv.sorted⟩
      intro x hx
      exact lt_of_le_of_lt (hinv.le_prev x hx) hacc.1
    · intro x hx
      rcases List.mem_cons.mp hx with hx | hx
      · exact hx.le
      · exact (hinv.le_prev x hx).trans hacc.1.le
    · simp only
      omega
  · cases hturn
    exact ⟨hinv.i_le, hinv.length, hinv.sorted, hinv.le_prev, hinv.prev_le⟩

/-- Drawing the largest numbers. -/
theorem linear_reach (h : 10 ≤ N) (hgap : 1 ≤ gap) {j : ℕ} (hj : j ≤ N)
    (hfit : ∀ i < j, (i + 1) * gap + gap / 2 < 2 ^ 63) :
    ∃ s, (linearLoop N gap).Reach s ∧ s.i = j ∧ (0 < j → s.prevN = ((j * gap + gap / 2 : ℕ) : ℤ)) ∧
      s.prevN ≤ ((j * gap + gap / 2 : ℕ) : ℤ) ∧ ∀ x ∈ s.dataset, x ≤ s.prevN := by
  induction j with
  | zero => exact ⟨_, .init, rfl, by simp, Int.natCast_nonneg _, by simp [linearLoop]⟩
  | succ j ih =>
    obtain ⟨s, hs, hi, -, hprev, hle⟩ := ih (by omega) fun i hi => hfit i (by omega)
    have hlast := hfit j (Nat.lt_succ_self j)
    have hslot : slot gap s.i = (((j + 1) * gap : ℕ) : ℤ) := by
      rw [hi, slot_eq gap j (by omega)]
      push_cast
      rfl
    have hmul : (j + 1) * gap = j * gap + gap := Nat.succ_mul j gap
    have hnum : slot gap s.i + ((gap / 2 : ℕ) : ℤ) > s.prevN := by omega
    have hacc : slot gap s.i + ((gap / 2 : ℕ) : ℤ) > s.prevN ∧ slot gap s.i + ((gap / 2 : ℕ) : ℤ) ∉ s.dataset := by
      refine ⟨hnum, fun hmem => ?_⟩
      exact absurd (hle _ hmem) (not_le.mpr hnum)
    have hturn : (linearLoop N gap).turn s ((gap / 2 : ℕ) : ℤ) = _ := linear_turn h (by omega) (by omega)
    rw [if_pos hacc] at hturn
    have hrun : (linearLoop N gap).running s := by
      change s.i < N
      omega
    refine ⟨_, hs.turn hrun ⟨by omega, le_rfl⟩ hturn, by rw [hi], fun _ => ?_, ?_, ?_⟩
    · simp only
      omega
    · simp only
      omega
    · intro x hx
      rcases List.mem_cons.mp hx with hx | hx
      · exact hx.le
      · exact (hle x hx).trans hnum.le

/-- The first slot whose largest number does not fit. -/
theorem exists_first_overflow (hN : 0 < N) (h : 2 ^ 63 ≤ N * gap + gap / 2) :
    ∃ i < N, 2 ^ 63 ≤ (i + 1) * gap + gap / 2 ∧ ∀ j < i, (j + 1) * gap + gap / 2 < 2 ^ 63 := by
  have hlast : 2 ^ 63 ≤ (N - 1 + 1) * gap + gap / 2 := by
    rwa [Nat.sub_add_cancel hN]
  have hex : ∃ i, 2 ^ 63 ≤ (i + 1) * gap + gap / 2 := ⟨N - 1, hlast⟩
  have hle : Nat.find hex ≤ N - 1 := Nat.find_min' hex hlast
  exact ⟨Nat.find hex, by omega, Nat.find_spec hex, fun j hj => Nat.lt_of_not_le (Nat.find_min hex hj)⟩

/-- There a draw overflows, or the product has wrapped and no draw is accepted. -/
theorem linear_not_canFinish (hten : 10 ≤ N) (hgap : 1 ≤ gap) (hgap64 : gap < 2 ^ 63)
    (h : 2 ^ 63 ≤ N * gap + gap / 2) : ¬ (linearLoop N gap).CanFinish (LinearState.Done N) := by
  obtain ⟨i, hi, hbig, hfit⟩ := exists_first_overflow (by omega) h
  obtain ⟨s, hs, hsi, hprev, -, -⟩ := linear_reach hten hgap hi.le hfit
  have hrun : (linearLoop N gap).running s := by
    change s.i < N
    rw [hsi]
    exact hi
  have hmul : (i + 1) * gap = i * gap + gap := Nat.succ_mul i gap
  refine Loop.not_canFinish hs hrun ?_
  rintro d ⟨hlow, hhigh⟩ ⟨hgt, -⟩
  by_cases hslot : (i + 1) * gap < 2 ^ 63
  · refine ⟨((gap / 2 : ℕ) : ℤ), ⟨by omega, le_rfl⟩, linear_turn_overflow ?_⟩
    have hcast : slot gap s.i = (((i + 1) * gap : ℕ) : ℤ) := by
      rw [hsi, slot_eq gap i hslot]
      push_cast
      rfl
    omega
  · exfalso
    have hpos : 0 < i := by
      by_contra hzero
      obtain rfl : i = 0 := by omega
      omega
    have hbefore := hfit (i - 1) (by omega)
    rw [Nat.sub_add_cancel hpos] at hbefore
    have hwrap : slot gap s.i = (((i + 1) * gap : ℕ) : ℤ) - 2 ^ 64 := by
      rw [hsi, slot_wrap gap i (Nat.le_of_not_lt hslot) (by omega)]
      push_cast
      rfl
    have := hprev hpos
    omega

theorem linearLoop_canFinish_iff (hN : 0 < N) (hgap64 : gap < 2 ^ 63) :
    (linearLoop N gap).CanFinish (LinearState.Done N) ↔ 10 ≤ N ∧ 1 ≤ gap ∧ N * gap + gap / 2 < 2 ^ 63 := by
  constructor
  · intro hfin
    have hten : 10 ≤ N := by
      by_contra hlt
      refine Loop.not_canFinish .init hN ?_ hfin
      exact fun d hd hacc => ⟨d, hd, linear_turn_none (by omega) hacc⟩
    have hgap : 1 ≤ gap := by
      by_contra hlt
      obtain rfl : gap = 0 := by omega
      refine Loop.not_canFinish .init hN ?_ hfin
      rintro d ⟨hlow, hhigh⟩ ⟨hgt, -⟩
      obtain rfl : d = 0 := by omega
      exact absurd hgt (by simp [linearLoop, slot, toInt64])
    refine ⟨hten, hgap, ?_⟩
    by_contra hover
    exact linear_not_canFinish hten hgap hgap64 (Nat.le_of_not_lt hover) hfin
  · rintro ⟨hten, hgap, hfit⟩ s hs
    have hinv := linear_inv hten hfit hs
    refine ⟨?_, ?_⟩
    · intro hrun
      have hi : s.i < N := hrun
      have hle := slot_le gap hi
      have hmul : (s.i + 1) * gap = s.i * gap + gap := Nat.succ_mul s.i gap
      have hslot : slot gap s.i = (((s.i + 1) * gap : ℕ) : ℤ) := by
        rw [slot_eq gap s.i (by omega)]
        push_cast
        rfl
      have hprev := hinv.prev_le
      refine ⟨?_, ((gap / 2 : ℕ) : ℤ), ⟨by omega, le_rfl⟩, ?_, ?_⟩
      · rintro d ⟨hlow, hhigh⟩
        rw [linear_turn hten (by omega) (by omega)]
        split_ifs <;> rfl
      · omega
      · intro hmem
        have := hinv.le_prev _ hmem
        omega
    · intro hstop
      have hge : N ≤ s.i := Nat.le_of_not_lt hstop
      exact ⟨by rw [hinv.length]; exact Nat.le_antisymm hinv.i_le hge, hinv.sorted⟩

end

/-! ### Sizes and scales -/

/-- `scale`, a double that `parse_args` has checked to be positive. -/
inductive Scale where
  | finite (q : ℚ) (pos : 0 < q)
  | infinite

/-- `maximum` of `uniform_data_gen`: `none` if it has more than 64 bits. -/
def maximumOf : Scale → Option ℕ
  | .finite q _ => if ⌊q⌋₊ < 2 ^ 64 then some ⌊q⌋₊ else none
  | .infinite => none

/-- `int64_t gap = maximum / table_size`: `none` if it does not fit. -/
def gapOf (tableSize : ℕ) : Scale → Option ℕ
  | .finite q _ =>
    let gap := ⌊toDouble (q / toDouble tableSize)⌋₊
    if gap < 2 ^ 63 then some gap else none
  | .infinite => none

theorem gapOf_lt {N : ℕ} {scale : Scale} {gap : ℕ} (h : gapOf N scale = some gap) : gap < 2 ^ 63 := by
  cases scale with
  | finite q pos =>
    rw [gapOf] at h
    split_ifs at h with hlt
    cases h
    exact hlt
  | infinite => cases h

/-- `linear_data_gen` has a gap, and its loop can finish. -/
def LinearCanFinish (tableSize : ℕ) (scale : Scale) : Prop :=
  ∃ gap, gapOf tableSize scale = some gap ∧ (linearLoop tableSize gap).CanFinish (LinearState.Done tableSize)

/-- When the generators can always finish: the uniform one, if at least 10 numbers are
wanted and not more than there are; the linear one, if at least 10 are wanted, the gap
is not 0 and the last number cannot overflow. -/
theorem generators_finish_iff {N : ℕ} (hN : 0 < N) (scale : Scale) :
    (∀ maximum, maximumOf scale = some maximum → maximum < 2 ^ 63 - 1 →
      ((uniformLoop N maximum).CanFinish (UniformState.Done N) ↔ 10 ≤ N ∧ N ≤ maximum + 1)) ∧
    (LinearCanFinish N scale ↔
      ∃ gap, gapOf N scale = some gap ∧ 10 ≤ N ∧ 1 ≤ gap ∧ N * gap + gap / 2 < 2 ^ 63) := by
  refine ⟨fun maximum _ _ => uniformLoop_canFinish_iff hN, ?_⟩
  refine exists_congr fun gap => and_congr_right fun hgap => ?_
  exact linearLoop_canFinish_iff hN (gapOf_lt hgap)

/-- Numbers up to 100. -/
def hundred : Scale :=
  .finite 100 (by norm_num)

theorem gapOf_hundred : gapOf 10 hundred = some 10 := by
  decide +kernel

/-- Ten of them, about 10 apart. -/
theorem generators_finish_hundred :
    (uniformLoop 10 100).CanFinish (UniformState.Done 10) ∧ LinearCanFinish 10 hundred := by
  have hmax : maximumOf hundred = some 100 := by
    decide +kernel
  have h := generators_finish_iff (show 0 < 10 by norm_num) hundred
  refine ⟨(h.1 100 hmax (by norm_num)).mpr ⟨by norm_num, by norm_num⟩, h.2.mpr ?_⟩
  exact ⟨10, gapOf_hundred, by norm_num, by norm_num, by norm_num⟩

/-- Five of them divide by zero. -/
theorem generator_divides_by_zero :
    ¬ ∀ (N : ℕ) (scale : Scale), 0 < N → ∀ maximum, maximumOf scale = some maximum → maximum < 2 ^ 63 - 1 →
      (uniformLoop N maximum).CanFinish (UniformState.Done N) ∧ LinearCanFinish N scale := by
  intro h
  have hmax : maximumOf hundred = some 100 := by
    decide +kernel
  have hfive := (h 5 hundred (by norm_num) 100 hmax (by norm_num)).1
  have hten := ((uniformLoop_canFinish_iff (by norm_num)).mp hfive).1
  exact absurd hten (by norm_num)

end SidleBaselines.Synthetic.Datasets
