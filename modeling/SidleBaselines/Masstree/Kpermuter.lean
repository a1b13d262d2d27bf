import SidleBaselines.Data.Fields

/-!
# The permuter word

`kpermuter` of a Masstree leaf: the order of the keys in a leaf of `W` slots, in one word of 64 bits
(`Width`). The lowest four bits are the number of keys, the four bits after them the slot of the
first key, and so on; behind the slots of the keys come the slots that are free, and the last of them
is the next to be used.

What is *not* formalized: widths below 8, whose words have 16 or 32 bits; `insert_selected`, `rotate` and
`exchange_values`, which nothing calls.

## What is proved

* `get_insertFromBack`, `get_remove`, `get_removeToBack`, `get_exchange` — what is at each position
  after an operation, from what was there before;
* `get_makeSorted` — what is there at the start.
-/

namespace SidleBaselines.Masstree

/-- The widths whose permuter has 64 bits. -/
structure Width where
  slots : ℕ
  wide : 8 ≤ slots
  le : slots ≤ 15

namespace Kpermuter

open SidleBaselines.Data

/-! ### The operations -/

/-- The largest width of a permuter of 64 bits. -/
def maxWidth : ℕ := 15

def initialValue : BitVec 64 := 0x0123456789ABCDE0#64

def fullValue : BitVec 64 := 0xEDCBA98765432100#64

/-- An empty permuter, that uses the slots `0, 1, …, W - 1` in this order. -/
def makeEmpty (W : ℕ) : BitVec 64 := (initialValue >>> ((maxWidth - W) <<< 2)) &&& ~~~15#64

/-- A permuter with the slots `0, 1, …, n - 1` in use, in this order. -/
def makeSorted (W n : ℕ) : BitVec 64 :=
  let mask := (if n = W then 0#64 else 16#64 <<< (n <<< 2)) - 1#64
  (makeEmpty W <<< (n <<< 2)) ||| (fullValue &&& mask) ||| BitVec.ofNat 64 n

/-- The number of keys. -/
def size (x : BitVec 64) : ℕ := (x &&& 15#64).toNat

/-- The slot at position `i`. -/
def get (x : BitVec 64) (i : ℕ) : ℕ := ((x >>> ((i <<< 2) + 4)) &&& 15#64).toNat

/-- The next slot to be used. -/
def back (W : ℕ) (x : BitVec 64) : ℕ := get x (W - 1)

def setSize (x : BitVec 64) (n : ℕ) : BitVec 64 := (x &&& ~~~15#64) ||| BitVec.ofNat 64 n

/-- The next free slot is put at position `i`, and given. -/
def insertFromBack (W : ℕ) (x : BitVec 64) (i : ℕ) : ℕ × BitVec 64 :=
  let value := back W x
  -- the size goes up, the positions before `i` stay, those from `i` on move up
  (value, ((x + 1#64) &&& ((16#64 <<< (i <<< 2)) - 1#64)) |||
    (BitVec.ofNat 64 value <<< ((i <<< 2) + 4)) |||
    ((x <<< 4) &&& ~~~((256#64 <<< (i <<< 2)) - 1#64)))

/-- The key at position `i` is taken out, its slot the first that is free. -/
def remove (x : BitVec 64) (i : ℕ) : BitVec 64 :=
  if size x = i + 1 then x - 1#64
  else
    let rotAmount := (size x - i - 1) <<< 2
    let rotMask := ((16#64 <<< rotAmount) - 1#64) <<< ((i + 1) <<< 2)
    ((x - 1#64) &&& ~~~rotMask) ||| (((x &&& rotMask) >>> 4) &&& rotMask) |||
      (((x &&& rotMask) <<< rotAmount) &&& rotMask)

/-- The key at position `i` is taken out, its slot the next to be used. -/
def removeToBack (W : ℕ) (x : BitVec 64) (i : ℕ) : BitVec 64 :=
  let mask := ~~~((16#64 <<< (i <<< 2)) - 1#64)
  let x := x &&& ((16#64 <<< (W <<< 2)) - 1#64)
  ((x - 1#64) &&& ~~~mask) ||| ((x >>> 4) &&& mask) ||| ((x &&& mask) <<< ((W - i - 1) <<< 2))

/-- What is at the positions `i` and `j` is exchanged. -/
def exchange (x : BitVec 64) (i j : ℕ) : BitVec 64 :=
  let diff := ((x >>> (i <<< 2)) ^^^ (x >>> (j <<< 2))) &&& 240#64
  x ^^^ ((diff <<< (i <<< 2)) ||| (diff <<< (j <<< 2)))

/-! ### Positions as fields -/

variable {W : ℕ} {x x' : BitVec 64} {i j k n : ℕ}

theorem ones_four : ones 64 4 = 15#64 := by decide

theorem shl_two (n : ℕ) : n <<< 2 = 4 * n := by
  rw [Nat.shiftLeft_eq, Nat.mul_comm]

theorem size_eq (x : BitVec 64) : size x = getField 0 4 x := by
  rw [size, getField, ones_four, BitVec.ushiftRight_zero]

theorem get_eq (x : BitVec 64) (i : ℕ) : get x i = getField (4 * i + 4) 4 x := by
  rw [get, getField, ones_four, shl_two]

theorem get_lt (x : BitVec 64) (i : ℕ) : get x i < 16 := by
  rw [get_eq]
  exact getField_lt _ 4 x

theorem getLsbD_sixteen (n : ℕ) (hk : k < 64) :
    ((16#64 <<< n) - 1#64).getLsbD k = decide (k < 4 + n) := by
  have hone : 16#64 <<< n = 1#64 <<< (4 + n) := (BitVec.shiftLeft_add 1#64 4 n).symm
  rw [hone, getLsbD_shiftLeft_sub_one _ hk]

theorem getLsbD_twoFiftySix (n : ℕ) (hk : k < 64) :
    ((256#64 <<< n) - 1#64).getLsbD k = decide (k < 8 + n) := by
  have hone : 256#64 <<< n = 1#64 <<< (8 + n) := (BitVec.shiftLeft_add 1#64 8 n).symm
  rw [hone, getLsbD_shiftLeft_sub_one _ hk]

theorem getLsbD_fifteen (hk : k < 64) : (15#64).getLsbD k = decide (k < 4) := by
  simpa using getLsbD_sixteen 0 hk

/-- A slot has four bits. -/
theorem getLsbD_slot (hn : n < 16) (hk : k < 64) :
    (BitVec.ofNat 64 n).getLsbD k = (decide (k < 4) && n.testBit k) := by
  rw [BitVec.getLsbD_ofNat, decide_eq_true hk, Bool.true_and]
  by_cases h4 : k < 4
  · rw [decide_eq_true h4, Bool.true_and]
  · rw [decide_eq_false h4, Bool.false_and]
    have hpow : 2 ^ 4 ≤ 2 ^ k := Nat.pow_le_pow_right (by omega) (by omega)
    exact Nat.testBit_eq_false_of_lt (by omega)

/-- The size counted up. -/
theorem size_add_one (h : size x < 15) : size (x + 1#64) = size x + 1 := by
  rw [size_eq] at h
  rw [size_eq, size_eq]
  show getField 0 4 (x + (1#64 <<< 0)) = _
  exact getField_add_one (by omega) (by omega)

theorem getLsbD_add_one (h : size x < 15) (hk : 4 ≤ k) : (x + 1#64).getLsbD k = x.getLsbD k := by
  have hfield : getField 0 4 x + 1 < 2 ^ 4 := by
    rw [← size_eq]
    omega
  exact getLsbD_add_one_of_apart (by omega) hfield (by omega)

/-- The size counted down. -/
theorem size_sub_one (h : 0 < size x) : size (x - 1#64) = size x - 1 := by
  rw [size_eq] at h
  rw [size_eq, size_eq]
  show getField 0 4 (x - (1#64 <<< 0)) = _
  exact getField_sub_one (by omega) h

theorem getLsbD_sub_one (h : 0 < size x) (hk : 4 ≤ k) : (x - 1#64).getLsbD k = x.getLsbD k := by
  rw [size_eq] at h
  exact getLsbD_sub_one_of_apart (by omega) h (by omega)

/-- Words with the same lowest four bits have the same size. -/
theorem size_congr (h : ∀ b, b < 4 → x.getLsbD b = x'.getLsbD b) : size x = size x' := by
  rw [size_eq, size_eq]
  exact getField_congr fun b hb => by simpa using h b hb

/-- Positions with the same bits have the same slot. -/
theorem get_congr (h : ∀ b, b < 4 → x.getLsbD (4 * i + 4 + b) = x'.getLsbD (4 * j + 4 + b)) :
    get x i = get x' j := by
  rw [get_eq, get_eq]
  exact getField_congr h

theorem get_eq_of_bits (hn : n < 16) (h : ∀ b, b < 4 → x.getLsbD (4 * i + 4 + b) = n.testBit b) :
    get x i = n := by
  rw [get_eq]
  exact getField_eq_of_bits hn h

/-! ### What the operations do -/

/-- The bits after an insertion. -/
theorem getLsbD_insertFromBack (hk : k < 64) : (insertFromBack W x i).2.getLsbD k =
    if k < 4 * i + 4 then (x + 1#64).getLsbD k
    else if k < 4 * i + 8 then (back W x).testBit (k - (4 * i + 4))
    else x.getLsbD (k - 4) := by
  have hslot : back W x < 16 := get_lt x (W - 1)
  simp only [insertFromBack, shl_two, BitVec.getLsbD_or, BitVec.getLsbD_and, BitVec.getLsbD_not,
    BitVec.getLsbD_shiftLeft, getLsbD_sixteen _ hk, getLsbD_twoFiftySix _ hk, hk, decide_true, Bool.true_and]
  by_cases hlow : k < 4 * i + 4
  · simp [hlow, show k < 4 + 4 * i by omega, show k < 8 + 4 * i by omega]
  rw [getLsbD_slot hslot (by omega)]
  by_cases hat : k < 4 * i + 8
  · simp [hlow, hat, show ¬ k < 4 + 4 * i by omega, show k < 8 + 4 * i by omega,
      show k - (4 * i + 4) < 4 by omega]
  · simp [hlow, hat, show ¬ k < 4 + 4 * i by omega, show ¬ k < 8 + 4 * i by omega,
      show ¬ k - (4 * i + 4) < 4 by omega, show ¬ k < 4 by omega]

theorem size_insertFromBack (h : size x < 15) : size (insertFromBack W x i).2 = size x + 1 := by
  rw [← size_add_one h]
  refine size_congr fun b hb => ?_
  rw [getLsbD_insertFromBack (by omega), if_pos (by omega)]

theorem get_insertFromBack (h : size x < 15) (hj : j < 15) : get (insertFromBack W x i).2 j =
    if j < i then get x j else if j = i then back W x else get x (j - 1) := by
  split_ifs with hbefore hat
  · refine get_congr fun b hb => ?_
    rw [getLsbD_insertFromBack (by omega), if_pos (by omega), getLsbD_add_one h (by omega)]
  · refine get_eq_of_bits (get_lt x (W - 1)) fun b hb => ?_
    rw [getLsbD_insertFromBack (by omega), if_neg (by omega), if_pos (by omega)]
    congr 1
    omega
  · refine get_congr fun b hb => ?_
    rw [getLsbD_insertFromBack (by omega), if_neg (by omega), if_neg (by omega)]
    congr 1
    omega

theorem size_lt (x : BitVec 64) : size x < 16 := by
  rw [size_eq]
  exact getField_lt 0 4 x

/-- The mask of a removal covers the positions from `i` on, below `n`. -/
theorem getLsbD_rotMask (h : i < n) (hn : n < 16) (k : ℕ) :
    (((16#64 <<< (4 * (n - i - 1))) - 1#64) <<< (4 * (i + 1))).getLsbD k
      = decide (4 * i + 4 ≤ k ∧ k < 4 * n + 4) := by
  by_cases hk : k < 64
  · rw [BitVec.getLsbD_shiftLeft, getLsbD_sixteen _ (by omega), Bool.eq_iff_iff]
    simp only [hk, decide_true, Bool.true_and, Bool.and_eq_true, Bool.not_eq_true', decide_eq_false_iff_not,
      decide_eq_true_eq]
    omega
  · rw [BitVec.getLsbD_of_ge _ _ (by omega), decide_eq_false (by omega)]

/-- The bits after a key is removed that is not the last. -/
theorem getLsbD_remove (h : i + 1 < size x) (hk : k < 64) : (remove x i).getLsbD k =
    if k < 4 * i + 4 ∨ 4 * size x + 4 ≤ k then (x - 1#64).getLsbD k
    else if k < 4 * size x then x.getLsbD (k + 4)
    else x.getLsbD (k - 4 * (size x - i - 1)) := by
  have hmask := getLsbD_rotMask (show i < size x by omega) (size_lt x)
  rw [remove, if_neg (by omega)]
  simp only [shl_two]
  generalize ((16#64 <<< (4 * (size x - i - 1))) - 1#64) <<< (4 * (i + 1)) = mask at hmask ⊢
  simp only [BitVec.getLsbD_or, BitVec.getLsbD_and, BitVec.getLsbD_not, BitVec.getLsbD_ushiftRight,
    BitVec.getLsbD_shiftLeft, hk, decide_true, Bool.true_and, hmask]
  split_ifs with hout hdown
  · simp [show ¬ (4 * i + 4 ≤ k ∧ k < 4 * size x + 4) by omega]
  · simp [show 4 * i + 4 ≤ k ∧ k < 4 * size x + 4 by omega,
      show 4 * i + 4 ≤ 4 + k ∧ 4 + k < 4 * size x + 4 by omega, Nat.add_comm k 4,
      show ¬ (4 * i + 4 ≤ k - 4 * (size x - i - 1) ∧ k - 4 * (size x - i - 1) < 4 * size x + 4) by omega]
  · simp [show 4 * i + 4 ≤ k ∧ k < 4 * size x + 4 by omega,
      show ¬ (4 * i + 4 ≤ 4 + k ∧ 4 + k < 4 * size x + 4) by omega,
      show ¬ k < 4 * (size x - i - 1) by omega,
      show 4 * i + 4 ≤ k - 4 * (size x - i - 1) ∧ k - 4 * (size x - i - 1) < 4 * size x + 4 by omega]

/-- The last key removed, only the size goes down. -/
theorem get_remove_last (h : size x = i + 1) : get (remove x i) j = get x j := by
  rw [remove, if_pos h]
  exact get_congr fun b hb => getLsbD_sub_one (by omega) (by omega)

theorem size_remove (h : i < size x) : size (remove x i) = size x - 1 := by
  rw [← size_sub_one (by omega)]
  by_cases hlast : size x = i + 1
  · rw [remove, if_pos hlast]
  · refine size_congr fun b hb => ?_
    rw [getLsbD_remove (by omega) (by omega), if_pos (by omega)]

theorem get_remove (h : i < size x) (hj : j < 15) : get (remove x i) j =
    if j < i then get x j else if j + 1 < size x then get x (j + 1)
    else if j + 1 = size x then get x i else get x j := by
  by_cases hlast : size x = i + 1
  · rw [get_remove_last hlast]
    split_ifs with hbefore hmid hat
    · rfl
    · omega
    · congr 1
      omega
    · rfl
  · split_ifs with hbefore hmid hat
    · refine get_congr fun b hb => ?_
      rw [getLsbD_remove (by omega) (by omega), if_pos (by omega), getLsbD_sub_one (by omega) (by omega)]
    · refine get_congr fun b hb => ?_
      rw [getLsbD_remove (by omega) (by omega), if_neg (by omega), if_pos (by omega)]
      congr 1
      omega
    · refine get_congr fun b hb => ?_
      rw [getLsbD_remove (by omega) (by omega), if_neg (by omega), if_neg (by omega)]
      congr 1
      omega
    · refine get_congr fun b hb => ?_
      rw [getLsbD_remove (by omega) (by omega), if_pos (by omega), getLsbD_sub_one (by omega) (by omega)]

/-- The slots of a permuter, and nothing behind them. -/
theorem getLsbD_clear (W : ℕ) (x : BitVec 64) (k : ℕ) :
    (x &&& ((16#64 <<< (4 * W)) - 1#64)).getLsbD k = (x.getLsbD k && decide (k < 4 * W + 4)) := by
  by_cases hk : k < 64
  · rw [BitVec.getLsbD_and, getLsbD_sixteen _ hk, Nat.add_comm 4]
  · rw [BitVec.getLsbD_of_ge _ _ (by omega), BitVec.getLsbD_of_ge _ _ (by omega), Bool.false_and]

/-- The bits after a key is removed to the back. -/
theorem getLsbD_removeToBack (hi : i < W) (hW : W ≤ 15) (hk : k < 4 * W + 4) : (removeToBack W x i).getLsbD k =
    if k < 4 * i + 4 then ((x &&& ((16#64 <<< (4 * W)) - 1#64)) - 1#64).getLsbD k
    else if k < 4 * W then x.getLsbD (k + 4)
    else x.getLsbD (k - 4 * (W - i - 1)) := by
  have hclear := getLsbD_clear W x
  have hk64 : k < 64 := by omega
  rw [removeToBack]
  simp only [shl_two]
  generalize x &&& ((16#64 <<< (4 * W)) - 1#64) = y at hclear ⊢
  simp only [BitVec.getLsbD_or, BitVec.getLsbD_and, BitVec.getLsbD_not, BitVec.getLsbD_ushiftRight,
    BitVec.getLsbD_shiftLeft, hk64, decide_true, Bool.true_and, hclear, getLsbD_sixteen _ hk64,
    getLsbD_sixteen _ (show k - 4 * (W - i - 1) < 64 by omega), show k - 4 * (W - i - 1) < 64 by omega]
  split_ifs with hlow hdown
  · simp [show k < 4 + 4 * i by omega, show k - 4 * (W - i - 1) < 4 + 4 * i by omega]
  · simp [show ¬ k < 4 + 4 * i by omega, show 4 + k < 4 * W + 4 by omega, Nat.add_comm k 4,
      show k - 4 * (W - i - 1) < 4 + 4 * i by omega]
  · simp [show ¬ k < 4 + 4 * i by omega, show ¬ 4 + k < 4 * W + 4 by omega,
      show ¬ k - 4 * (W - i - 1) < 4 + 4 * i by omega, show k - 4 * (W - i - 1) < 4 * W + 4 by omega,
      show ¬ k < 4 * (W - i - 1) by omega]

theorem size_clear (W : ℕ) (x : BitVec 64) : size (x &&& ((16#64 <<< (4 * W)) - 1#64)) = size x :=
  size_congr fun b hb => by rw [getLsbD_clear W, decide_eq_true (by omega), Bool.and_true]

theorem size_removeToBack (hi : i < W) (hW : W ≤ 15) (h : 0 < size x) :
    size (removeToBack W x i) = size x - 1 := by
  rw [← size_clear W x] at h ⊢
  rw [← size_sub_one h]
  refine size_congr fun b hb => ?_
  rw [getLsbD_removeToBack hi hW (by omega), if_pos (by omega)]

theorem get_removeToBack (hi : i < W) (hW : W ≤ 15) (h : 0 < size x) (hj : j < W) :
    get (removeToBack W x i) j =
      if j < i then get x j else if j + 1 < W then get x (j + 1) else get x i := by
  split_ifs with hbefore hmid
  · refine get_congr fun b hb => ?_
    rw [getLsbD_removeToBack hi hW (by omega), if_pos (by omega),
      getLsbD_sub_one (by rwa [size_clear W]) (by omega), getLsbD_clear W, decide_eq_true (by omega),
      Bool.and_true]
  · refine get_congr fun b hb => ?_
    rw [getLsbD_removeToBack hi hW (by omega), if_neg (by omega), if_pos (by omega)]
    congr 1
    omega
  · refine get_congr fun b hb => ?_
    rw [getLsbD_removeToBack hi hW (by omega), if_neg (by omega), if_neg (by omega)]
    congr 1
    omega

theorem getLsbD_240 : ∀ b < 64, (240#64).getLsbD b = decide (4 ≤ b ∧ b < 8) := by decide

/-- The bits after an exchange. -/
theorem getLsbD_exchange (hk : k < 64) : (exchange x i j).getLsbD k =
    if 4 * i + 4 ≤ k ∧ k < 4 * i + 8 then x.getLsbD (k - 4 * i + 4 * j)
    else if 4 * j + 4 ≤ k ∧ k < 4 * j + 8 then x.getLsbD (k - 4 * j + 4 * i)
    else x.getLsbD k := by
  have hdiff {b : ℕ} (hb : b < 64) :
      (((x >>> (4 * i)) ^^^ (x >>> (4 * j))) &&& 240#64).getLsbD b
        = ((x.getLsbD (4 * i + b) ^^ x.getLsbD (4 * j + b)) && decide (4 ≤ b ∧ b < 8)) := by
    rw [BitVec.getLsbD_and, BitVec.getLsbD_xor, BitVec.getLsbD_ushiftRight, BitVec.getLsbD_ushiftRight,
      getLsbD_240 b hb]
  rw [exchange]
  simp only [shl_two, BitVec.getLsbD_xor, BitVec.getLsbD_or, BitVec.getLsbD_shiftLeft, hk, decide_true,
    Bool.true_and, hdiff (show k - 4 * i < 64 by omega), hdiff (show k - 4 * j < 64 by omega)]
  split_ifs with hi hj
  · by_cases hij : i = j
    · subst hij
      simp [show k - 4 * i + 4 * i = k by omega]
    · simp [show ¬ k < 4 * i by omega, show ¬ (4 ≤ k - 4 * j ∧ k - 4 * j < 8) by omega,
        show 4 ≤ k - 4 * i ∧ k - 4 * i < 8 by omega, show 4 * i + (k - 4 * i) = k by omega,
        Nat.add_comm (4 * j)]
  · simp [show ¬ k < 4 * j by omega, show ¬ (4 ≤ k - 4 * i ∧ k - 4 * i < 8) by omega,
      show 4 ≤ k - 4 * j ∧ k - 4 * j < 8 by omega, show 4 * j + (k - 4 * j) = k by omega,
      Nat.add_comm (4 * i), Bool.xor_comm]
  · simp [show ¬ (4 ≤ k - 4 * i ∧ k - 4 * i < 8) by omega,
      show ¬ (4 ≤ k - 4 * j ∧ k - 4 * j < 8) by omega]

theorem size_exchange (x : BitVec 64) (i j : ℕ) : size (exchange x i j) = size x := by
  refine size_congr fun b hb => ?_
  rw [getLsbD_exchange (by omega), if_neg (by omega), if_neg (by omega)]

theorem get_exchange (x : BitVec 64) (hk : k < 15) : get (exchange x i j) k =
    if k = i then get x j else if k = j then get x i else get x k := by
  split_ifs with hi hj
  · refine get_congr fun b hb => ?_
    rw [getLsbD_exchange (by omega), if_pos (by omega)]
    congr 1
    omega
  · refine get_congr fun b hb => ?_
    rw [getLsbD_exchange (by omega), if_neg (by omega), if_pos (by omega)]
    congr 1
    omega
  · refine get_congr fun b hb => ?_
    rw [getLsbD_exchange (by omega), if_neg (by omega), if_neg (by omega)]

/-! ### Setting the size -/

theorem getLsbD_setSize (hn : n < 16) (hk : k < 64) : (setSize x n).getLsbD k =
    if k < 4 then n.testBit k else x.getLsbD k := by
  rw [setSize, BitVec.getLsbD_or, BitVec.getLsbD_and, BitVec.getLsbD_not, getLsbD_fifteen hk,
    getLsbD_slot hn hk]
  by_cases h4 : k < 4 <;> simp [h4, hk]

theorem size_setSize (hn : n < 16) : size (setSize x n) = n := by
  rw [size_eq]
  refine getField_eq_of_bits hn fun b hb => ?_
  rw [getLsbD_setSize hn (by omega), if_pos (by omega), Nat.zero_add]

theorem get_setSize (hn : n < 16) (hj : j < 15) : get (setSize x n) j = get x j :=
  get_congr fun b hb => by rw [getLsbD_setSize hn (by omega), if_neg (by omega)]

/-! ### The start -/

theorem getLsbD_initialValue :
    ∀ i < 15, ∀ b < 4, initialValue.getLsbD (4 * i + 4 + b) = (14 - i).testBit b := by
  decide

theorem getLsbD_fullValue : ∀ i < 15, ∀ b < 4, fullValue.getLsbD (4 * i + 4 + b) = i.testBit b := by
  decide

/-- The bits of an empty permuter. -/
theorem getLsbD_makeEmpty (hk : k < 64) : (makeEmpty W).getLsbD k =
    (!decide (k < 4) && initialValue.getLsbD (4 * (15 - W) + k)) := by
  rw [makeEmpty, maxWidth, shl_two, BitVec.getLsbD_and, BitVec.getLsbD_not, BitVec.getLsbD_ushiftRight,
    getLsbD_fifteen hk, decide_eq_true hk, Bool.true_and, Bool.and_comm]

/-- The bits of a permuter with `n` slots in use. -/
theorem getLsbD_makeSorted (hn : n ≤ W) (hW : W ≤ 15) (hk : k < 4 * W + 4) : (makeSorted W n).getLsbD k =
    if k < 4 then n.testBit k
    else if k < 4 * n + 4 then fullValue.getLsbD k
    else initialValue.getLsbD (4 * (15 - W) + (k - 4 * n)) := by
  have hlow : ∀ b < 4, fullValue.getLsbD b = false := by decide
  have hk64 : k < 64 := by omega
  have hmask : ((if n = W then 0#64 else 16#64 <<< (4 * n)) - 1#64).getLsbD k = decide (k < 4 + 4 * n) := by
    split_ifs with hfull
    · rw [BitVec.zero_sub, BitVec.neg_one_eq_allOnes, BitVec.getLsbD_allOnes, decide_eq_true hk64,
        decide_eq_true (by omega)]
    · exact getLsbD_sixteen _ hk64
  rw [makeSorted]
  simp only [shl_two, BitVec.getLsbD_or, BitVec.getLsbD_and, BitVec.getLsbD_shiftLeft, hk64, decide_true,
    Bool.true_and, hmask, getLsbD_slot (show n < 16 by omega) hk64,
    getLsbD_makeEmpty (show k - 4 * n < 64 by omega)]
  split_ifs with hsize hfull
  · simp [hsize, hlow k hsize, show k - 4 * n < 4 by omega]
  · simp [hsize, show k - 4 * n < 4 by omega, show k < 4 + 4 * n by omega]
  · simp [hsize, show ¬ k - 4 * n < 4 by omega, show ¬ k < 4 + 4 * n by omega, show ¬ k < 4 * n by omega]

/-- An empty permuter has no slots in use. -/
theorem makeSorted_zero (hW : 0 < W) : makeSorted W 0 = makeEmpty W := by
  have hmask : fullValue &&& 15#64 = 0#64 := by decide
  simp [makeSorted, hW.ne, hmask]

theorem size_makeSorted (hn : n ≤ W) (hW : W ≤ 15) : size (makeSorted W n) = n := by
  rw [size_eq]
  refine getField_eq_of_bits (by omega) fun b hb => ?_
  rw [getLsbD_makeSorted hn hW (by omega), if_pos (by omega), Nat.zero_add]

/-- The slots `0, …, n - 1` come first, and the others are used in their order. -/
theorem get_makeSorted (hn : n ≤ W) (hW : W ≤ 15) (hj : j < W) :
    get (makeSorted W n) j = if j < n then j else W - 1 - (j - n) := by
  split_ifs with h
  · refine get_eq_of_bits (by omega) fun b hb => ?_
    rw [getLsbD_makeSorted hn hW (by omega), if_neg (by omega), if_pos (by omega),
      getLsbD_fullValue j (by omega) b hb]
  · refine get_eq_of_bits (by omega) fun b hb => ?_
    rw [getLsbD_makeSorted hn hW (by omega), if_neg (by omega), if_neg (by omega),
      show 4 * (15 - W) + (4 * j + 4 + b - 4 * n) = 4 * (15 - W + (j - n)) + 4 + b by omega,
      getLsbD_initialValue _ (by omega) b hb]
    congr 1
    omega

end Kpermuter

end SidleBaselines.Masstree
