import Mathlib

/-!
# Fields of a word

A word of `N` bits that holds several numbers side by side: a field is the `w` bits from bit `lo` on,
read by a shift and a mask, written by masking out and or-ing in, and counted up or down by one
at its lowest bit. A flag is a field of one bit.

## What is proved

* `getField_setField`, `getLsbD_setField` — what is written to a field is read back, and the bits
  beside it are as before.
* `getField_add_one`, `getField_add_one_of_apart` — so is what is counted up, below its bound;
* `getField_sub_one`, `getLsbD_sub_one_of_apart` — and what is counted down, above zero.
-/

namespace SidleBaselines.Data

variable {N : ℕ}

/-- The lowest `w` bits. -/
def ones (N w : ℕ) : BitVec N := (BitVec.allOnes w).setWidth N

/-- The field of `w` bits from `lo` on. -/
def getField (lo w : ℕ) (v : BitVec N) : ℕ := ((v >>> lo) &&& ones N w).toNat

/-- The word with `x` written to the field. -/
def setField (lo w : ℕ) (v : BitVec N) (x : ℕ) : BitVec N := (v &&& ~~~(ones N w <<< lo)) |||
    (BitVec.ofNat N x <<< lo)

variable {lo w lo' w' x : ℕ} {v v' : BitVec N}

/-! ### Reading -/

theorem getField_eq (lo w : ℕ) (v : BitVec N) : getField lo w v = v.toNat / 2 ^ lo % 2 ^ w := by
  refine Nat.eq_of_testBit_eq fun i => ?_
  rw [getField, BitVec.testBit_toNat, Nat.testBit_mod_two_pow, Nat.testBit_div_two_pow, BitVec.testBit_toNat]
  by_cases hi : i < N
  · simp [ones, hi, Bool.and_comm, Nat.add_comm]
  · simp [ones, hi, BitVec.getLsbD_of_ge v (lo + i) (by omega), Nat.add_comm i lo]

theorem getField_lt (lo w : ℕ) (v : BitVec N) : getField lo w v < 2 ^ w := by
  rw [getField_eq]
  exact Nat.mod_lt _ (Nat.two_pow_pos w)

/-- The bits of a field. -/
theorem testBit_getField (lo w : ℕ) (v : BitVec N) (i : ℕ) :
    (getField lo w v).testBit i = (decide (i < w) && v.getLsbD (lo + i)) := by
  rw [getField_eq, Nat.testBit_mod_two_pow, Nat.testBit_div_two_pow, BitVec.testBit_toNat, Nat.add_comm i lo]

/-- A field is the number that has its bits. -/
theorem getField_eq_of_bits (hx : x < 2 ^ w) (h : ∀ i, i < w → v.getLsbD (lo + i) = x.testBit i) :
    getField lo w v = x := by
  refine Nat.eq_of_testBit_eq fun i => ?_
  rw [testBit_getField]
  by_cases hi : i < w
  · rw [h i hi, decide_eq_true hi, Bool.true_and]
  · rw [decide_eq_false hi, Bool.false_and]
    exact (Nat.testBit_eq_false_of_lt (hx.trans_le (Nat.pow_le_pow_right (by omega) (by omega)))).symm

/-- Fields with the same bits are the same. -/
theorem getField_congr (h : ∀ i, i < w → v.getLsbD (lo + i) = v'.getLsbD (lo' + i)) :
    getField lo w v = getField lo' w v' :=
  getField_eq_of_bits (getField_lt lo' w v') fun i hi => by
    rw [h i hi, testBit_getField, decide_eq_true hi, Bool.true_and]

/-! ### Writing -/

/-- The bits of a word after a write. -/
theorem getLsbD_setField (lo w : ℕ) (v : BitVec N) (hx : x < 2 ^ w) {i : ℕ} (hi : i < N) :
    (setField lo w v x).getLsbD i = if lo ≤ i ∧ i < lo + w then x.testBit (i - lo) else v.getLsbD i := by
  by_cases hlo : lo ≤ i
  · have hlt : i - lo < N := by omega
    have hbit : (BitVec.ofNat N x)[i - lo] = x.testBit (i - lo) := by
      rw [← BitVec.getLsbD_eq_getElem, BitVec.getLsbD_ofNat, decide_eq_true hlt, Bool.true_and]
    by_cases hw : i < lo + w
    · simp [setField, ones, hi, hlo, hw, show ¬ i < lo by omega, show i - lo < w by omega, hbit]
    · have hzero : x.testBit (i - lo) = false :=
        Nat.testBit_eq_false_of_lt (hx.trans_le (Nat.pow_le_pow_right (by omega) (by omega)))
      simp [setField, ones, hi, hw, show ¬ i < lo by omega, show ¬ i - lo < w by omega, hbit, hzero]
  · simp [setField, ones, hi, show i < lo by omega, hlo]

/-- What is written is read back. -/
theorem getField_setField (hx : x < 2 ^ w) (hN : lo + w ≤ N) : getField lo w (setField lo w v x) = x :=
  getField_eq_of_bits hx fun i hi => by
    rw [getLsbD_setField lo w v hx (by omega), if_pos (by omega), Nat.add_sub_cancel_left]

theorem toNat_one_shiftLeft {n : ℕ} (h : n < N) : (1#N <<< n).toNat = 2 ^ n := by
  rw [BitVec.toNat_shiftLeft, BitVec.toNat_ofNat, Nat.shiftLeft_eq, Nat.mod_mul_mod, Nat.one_mul]
  exact Nat.mod_eq_of_lt (Nat.pow_lt_pow_right (by omega) h)

/-- The word with all bits below `n`. -/
theorem getLsbD_shiftLeft_sub_one (n : ℕ) {i : ℕ} (hi : i < N) :
    ((1#N <<< n) - 1#N).getLsbD i = decide (i < n) := by
  by_cases hn : n < N
  · have hone := toNat_one_shiftLeft hn
    have hle : 1#N ≤ 1#N <<< n := by
      rw [BitVec.le_def, hone, BitVec.toNat_ofNat]
      exact (Nat.mod_le _ _).trans Nat.one_le_two_pow
    rw [← BitVec.testBit_toNat, BitVec.toNat_sub_of_le hle, hone, BitVec.toNat_ofNat,
      Nat.mod_eq_of_lt (Nat.one_lt_two_pow (by omega)), Nat.testBit_two_pow_sub_one]
  · have hzero : 1#N <<< n = 0#N := BitVec.shiftLeft_eq_zero (by omega)
    rw [hzero, BitVec.zero_sub, BitVec.neg_one_eq_allOnes, BitVec.getLsbD_allOnes, decide_eq_true hi,
      decide_eq_true (by omega)]

/-! ### Counting up -/

/-- One added at the lowest bit of a field below its bound does not reach the end of the word. -/
theorem toNat_add_one (hN : lo + w ≤ N) (h : getField lo w v + 1 < 2 ^ w) :
    (v + (1#N <<< lo)).toNat = v.toNat + 2 ^ lo := by
  rw [getField_eq] at h
  have hword : 2 ^ N = 2 ^ lo * (2 ^ w * 2 ^ (N - (lo + w))) := by
    rw [← mul_assoc, ← pow_add, ← pow_add]
    congr 1
    omega
  have hhigh : v.toNat / 2 ^ lo / 2 ^ w + 1 ≤ 2 ^ (N - (lo + w)) :=
    Nat.div_lt_of_lt_mul (Nat.div_lt_of_lt_mul (hword ▸ v.isLt))
  have hlt : v.toNat + 2 ^ lo < 2 ^ N := by
    have hsplit := Nat.div_add_mod (v.toNat / 2 ^ lo) (2 ^ w)
    have hmul := Nat.mul_le_mul_left (2 ^ w) hhigh
    rw [Nat.mul_succ] at hmul
    calc v.toNat + 2 ^ lo
        < 2 ^ lo * (v.toNat / 2 ^ lo + 1) + 2 ^ lo := by
          have := Nat.lt_mul_div_succ v.toNat (Nat.two_pow_pos lo)
          omega
      _ = 2 ^ lo * (v.toNat / 2 ^ lo + 1 + 1) := by
          rw [Nat.mul_succ, Nat.mul_succ, Nat.mul_succ]
      _ ≤ 2 ^ lo * (2 ^ w * 2 ^ (N - (lo + w))) := Nat.mul_le_mul_left _ (by omega)
      _ = 2 ^ N := hword.symm
  have hw : w ≠ 0 := by
    rintro rfl
    simp at h
  have hone : (1#N <<< lo).toNat = 2 ^ lo := toNat_one_shiftLeft (by omega)
  rw [BitVec.toNat_add, hone, Nat.mod_eq_of_lt hlt]

/-- Where the last digit is not the highest, the next number has the same digits before it. -/
theorem add_one_div {c m : ℕ} (h : c % m + 1 < m) : (c + 1) / m = c / m := by
  have hsplit := Nat.div_add_mod c m
  refine Nat.div_eq_of_lt_le ?_ ?_
  · rw [Nat.mul_comm]
    omega
  · rw [Nat.succ_mul, Nat.mul_comm]
    omega

/-- A field below its bound is counted up. -/
theorem getField_add_one (hN : lo + w ≤ N) (h : getField lo w v + 1 < 2 ^ w) :
    getField lo w (v + (1#N <<< lo)) = getField lo w v + 1 := by
  have hadd := toNat_add_one hN h
  rw [getField_eq] at h
  have hsplit := Nat.div_add_mod (v.toNat / 2 ^ lo) (2 ^ w)
  have hnext := Nat.div_add_mod (v.toNat / 2 ^ lo + 1) (2 ^ w)
  rw [add_one_div h] at hnext
  rw [getField_eq, getField_eq, hadd, Nat.add_div_right _ (Nat.two_pow_pos lo)]
  omega

/-- The fields beside it are as before. -/
theorem getField_add_one_of_apart (hN : lo + w ≤ N) (h : getField lo w v + 1 < 2 ^ w)
    (hapart : lo' + w' ≤ lo ∨ lo + w ≤ lo') : getField lo' w' (v + (1#N <<< lo)) = getField lo' w' v := by
  have hadd := toNat_add_one hN h
  rw [getField_eq] at h
  rw [getField_eq, getField_eq, hadd]
  rcases hapart with hbelow | habove
  · obtain ⟨r, rfl⟩ := Nat.exists_eq_add_of_le hbelow
    rw [pow_add, pow_add, mul_assoc, Nat.add_mul_div_left _ _ (Nat.two_pow_pos lo'), Nat.add_mul_mod_self_left]
  · obtain ⟨r, rfl⟩ := Nat.exists_eq_add_of_le habove
    rw [pow_add, pow_add, ← Nat.div_div_eq_div_mul, ← Nat.div_div_eq_div_mul,
      Nat.add_div_right _ (Nat.two_pow_pos lo),
      add_one_div h, Nat.div_div_eq_div_mul, Nat.div_div_eq_div_mul, mul_assoc]

/-- A field of one bit. -/
theorem getField_one (lo : ℕ) (v : BitVec N) : getField lo 1 v = (v.getLsbD lo).toNat := by
  rw [getField_eq, ← BitVec.testBit_toNat, Nat.toNat_testBit, pow_one]

/-- The bits beside it are as before. -/
theorem getLsbD_add_one_of_apart (hN : lo + w ≤ N) (h : getField lo w v + 1 < 2 ^ w) {i : ℕ}
    (hi : ¬ (lo ≤ i ∧ i < lo + w)) : (v + (1#N <<< lo)).getLsbD i = v.getLsbD i := by
  have hfield : getField i 1 (v + (1#N <<< lo)) = getField i 1 v := getField_add_one_of_apart hN h (by omega)
  rw [getField_one, getField_one] at hfield
  cases hbit : v.getLsbD i <;> cases hbit' : (v + (1#N <<< lo)).getLsbD i <;> simp [hbit, hbit'] at hfield ⊢

/-! ### Counting down -/

/-- A field above zero is counted down. -/
theorem getField_sub_one (hN : lo + w ≤ N) (h : 0 < getField lo w v) :
    getField lo w (v - (1#N <<< lo)) = getField lo w v - 1 := by
  rw [getField_eq] at h
  have hw : w ≠ 0 := by
    rintro rfl
    simp [Nat.mod_one] at h
  have hone : (1#N <<< lo).toNat = 2 ^ lo := toNat_one_shiftLeft (by omega)
  have hle : 2 ^ lo ≤ v.toNat := by
    by_contra hlt
    rw [Nat.div_eq_of_lt (by omega), Nat.zero_mod] at h
    omega
  have hless : (v.toNat - 2 ^ lo) / 2 ^ lo = v.toNat / 2 ^ lo - 1 := by
    simpa using Nat.sub_mul_div v.toNat (2 ^ lo) 1
  have hsplit := Nat.div_add_mod (v.toNat / 2 ^ lo) (2 ^ w)
  have hlt := Nat.mod_lt (v.toNat / 2 ^ lo) (Nat.two_pow_pos w)
  rw [getField_eq, getField_eq, BitVec.toNat_sub_of_le (by rwa [BitVec.le_def, hone]), hone, hless]
  have hprev : v.toNat / 2 ^ lo - 1
      = 2 ^ w * (v.toNat / 2 ^ lo / 2 ^ w) + (v.toNat / 2 ^ lo % 2 ^ w - 1) := by omega
  rw [hprev, Nat.mul_add_mod, Nat.mod_eq_of_lt (by omega)]

/-- The bits beside it are as before. -/
theorem getLsbD_sub_one_of_apart (hN : lo + w ≤ N) (h : 0 < getField lo w v) {i : ℕ}
    (hi : ¬ (lo ≤ i ∧ i < lo + w)) : (v - (1#N <<< lo)).getLsbD i = v.getLsbD i := by
  have hlt := getField_lt lo w v
  have hup := getLsbD_add_one_of_apart (v := v - (1#N <<< lo)) hN
    (by rw [getField_sub_one hN h]; omega) hi
  rw [← hup, BitVec.sub_add_cancel]

end SidleBaselines.Data
