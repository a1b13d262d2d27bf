import Mathlib

/-!
# The key buffer of a query

Masstree's scanners copy the keys they deliver into a buffer of the query, `scankey_`. A key
that does not fit is put into a new buffer of twice the length, 1024 bytes to begin with; the
length, the position in it and the memory asked for are `int`s. `String::append_uninitialized`
doubles `memo_capacity` until it is what it wants, which for a buffer of `2 ^ 30` bytes it
never is: the product wraps to a negative number, and then to zero.

A buffer is on a level: 0 if there is none yet, `j + 1` after `j` doublings.

## What is proved

* `memoLoop_never` — a loop that has not ended after 22 rounds never ends.
* `Query.At.makeRoom_some`, `Query.At.makeRoom_none` — when there is room for one key more.
-/

namespace SidleBaselines.Kv

/-! ### Strings -/

/-- `MEMO_SPACE`. -/
def memoSpace : Int32 := 12

/-- The loop of `append_uninitialized`, from `memoCapacity` on: what it ends with, if it ends within so
many rounds. -/
def memoLoop (wantMemoLen : Int32) : ℕ → Int32 → Option Int32
  | 0, _ => none
  | rounds + 1, memoCapacity =>
    if memoCapacity < wantMemoLen then memoLoop wantMemoLen rounds (memoCapacity * 2) else some memoCapacity

/-- `String::make_uninitialized`: the length of the string; `none` if the loop never ends. -/
def makeUninitialized (len : Int32) : Option Int32 :=
  if len ≤ 0 then some 0
  else
    let wantMemoLen := len + memoSpace
    if wantMemoLen ≤ 1024 then some len else (memoLoop wantMemoLen 22 2048).map fun _ => len

section
variable {want c : Int32}

theorem memoLoop_add {m : ℕ} (h : memoLoop want m c = none) (rounds : ℕ) :
    memoLoop want (m + rounds) c = memoLoop want rounds ((· * 2)^[m] c) := by
  induction m generalizing c with
  | zero => rw [Nat.zero_add, Function.iterate_zero, id]
  | succ m ih =>
    rw [memoLoop] at h
    rw [Nat.succ_add, memoLoop, Function.iterate_succ_apply]
    split at h
    · next hlt => rw [if_pos hlt, ih h]
    · cases h

theorem memoLoop_of_add {m rounds : ℕ} (h : memoLoop want (m + rounds) c = none) : memoLoop want m c = none := by
  induction m generalizing c with
  | zero => rfl
  | succ m ih =>
    rw [Nat.succ_add, memoLoop] at h
    rw [memoLoop]
    split at h
    · next hlt => rw [if_pos hlt, ih h]
    · cases h

/-- **A loop that has not ended after 22 rounds never ends**: the capacity is zero then, and stays so. -/
theorem memoLoop_never (h : memoLoop want 22 2048 = none) (rounds : ℕ) : memoLoop want rounds 2048 = none := by
  have hzero : (· * 2)^[21] (2048 : Int32) = 0 := by decide
  have hsome : memoLoop want 21 2048 = none := memoLoop_of_add (show memoLoop want (21 + 1) 2048 = none from h)
  have hlast := memoLoop_add hsome 1
  rw [h, hzero, memoLoop] at hlast
  have hlt : 0 < want := by
    by_contra hge
    rw [if_neg hge] at hlast
    cases hlast
  have hstay (k : ℕ) : memoLoop want k 0 = none := by
    induction k with
    | zero => rfl
    | succ k ih => rwa [memoLoop, if_pos hlt]
  have hall : memoLoop want (rounds + 21) 2048 = none := by
    rw [Nat.add_comm, memoLoop_add hsome, hzero, hstay]
  exact memoLoop_of_add hall

end

/-! ### The buffer -/

/-- What a `query` keeps between scans: `scankey_.length()` and `scankeypos_`. -/
structure Query where
  scankeyLength : Int32
  scankeypos : Int32
  deriving DecidableEq

namespace Query

/-- The loop of `visit_value` that makes room for `keyLength` bytes; `none` if a string is never made.
With each round the length doubles, so that 22 are enough. -/
def makeRoom (keyLength : Int32) : ℕ → Query → Option Query
  | 0, _ => none
  | rounds + 1, q =>
    if q.scankeypos + keyLength > q.scankeyLength then do
      let scankeyLength ← makeUninitialized (if q.scankeyLength ≠ 0 then q.scankeyLength * 2 else 1024)
      makeRoom keyLength rounds ⟨scankeyLength, 0⟩
    else some q

/-! ### Levels -/

/-- How many keys of eight bytes fit into the buffer on a level. -/
def cells : ℕ → ℕ
  | 0 => 0
  | j + 1 => 2 ^ (7 + j)

theorem le_cells (j : ℕ) : 128 ≤ cells (j + 1) := Nat.pow_le_pow_right Nat.two_pos (Nat.le_add_right 7 j)

theorem cells_double (j : ℕ) : cells (j + 2) = 2 * cells (j + 1) := Nat.pow_succ'

theorem cells_le : ∀ {j : ℕ}, j ≤ 20 → cells j ≤ 2 ^ 26
  | 0, _ => Nat.zero_le _
  | _ + 1, h => Nat.pow_le_pow_right Nat.two_pos (by omega)

/-- A new buffer is on the next level. -/
theorem makeUninitialized_next : ∀ j < 20,
    makeUninitialized (if Int32.ofNat (8 * cells j) ≠ 0 then Int32.ofNat (8 * cells j) * 2 else 1024) =
      some (Int32.ofNat (8 * cells (j + 1))) := by
  decide +kernel

/-- There is none after `2 ^ 29` bytes. -/
theorem makeUninitialized_last :
    makeUninitialized (if Int32.ofNat (8 * cells 20) ≠ 0 then Int32.ofNat (8 * cells 20) * 2 else 1024) =
      none := by
  decide +kernel

/-- The buffer is on some level. -/
def Grown (q : Query) : Prop := ∃ j ≤ 20, q.scankeyLength = Int32.ofNat (8 * cells j)

theorem Grown.makeRoom {keyLength : Int32} {rounds : ℕ} {q q' : Query} (h : q.Grown)
    (hq : q.makeRoom keyLength rounds = some q') : q'.Grown := by
  induction rounds generalizing q with
  | zero => cases hq
  | succ rounds ih =>
    rw [Query.makeRoom] at hq
    split at hq
    · obtain ⟨j, hj, hlength⟩ := h
      obtain ⟨length, hmade, hrest⟩ := Option.bind_eq_some_iff.mp hq
      rw [hlength] at hmade
      rcases hj.lt_or_eq with hlt | rfl
      · rw [makeUninitialized_next j hlt, Option.some.injEq] at hmade
        exact ih ⟨j + 1, hlt, hmade.symm⟩ hrest
      · rw [makeUninitialized_last] at hmade
        cases hmade
    · obtain rfl := Option.some.inj hq
      exact h

/-- The buffer is on level `j`, with `i` keys of eight bytes in it. -/
structure At (q : Query) (j i : ℕ) : Prop where
  level : j ≤ 20
  length : q.scankeyLength = Int32.ofNat (8 * cells j)
  pos : q.scankeypos = Int32.ofNat (8 * i)
  fits : i ≤ cells j

/-- For how many keys more there is room, on this level and above. -/
def room (j i : ℕ) : ℕ := 2 ^ 27 - max 128 (cells j) - i

theorem room_next {j : ℕ} (hj : j < 20) : room j (cells j) = room (j + 1) 0 := by
  cases j with
  | zero => rfl
  | succ j =>
    have hcells := cells_le (Nat.le_of_lt hj)
    have hmin := le_cells j
    rw [room, room, cells_double, max_eq_right hmin, max_eq_right (by omega)]
    omega

theorem room_pos {j i : ℕ} (hj : j ≤ 20) (hi : i < cells j) : 0 < room j i := by
  have hcells := cells_le hj
  cases j with
  | zero => exact absurd hi (Nat.not_lt_zero i)
  | succ j =>
    rw [room, max_eq_right (le_cells j)]
    omega

theorem ofNat_lt_ofNat {a b : ℕ} (ha : a < 2 ^ 31) (hb : b < 2 ^ 31) : Int32.ofNat a < Int32.ofNat b ↔ a < b := by
  rw [Int32.lt_iff_toInt_lt, Int32.toInt_ofNat_of_lt ha, Int32.toInt_ofNat_of_lt hb, Int.ofNat_lt]

/-- For how many keys of eight bytes a scan has room. -/
def keyRoom (q : Query) : ℕ := 2 ^ 27 - max 128 (q.scankeyLength.toNatClampNeg / 8)

/-- A scan begins at the front of the buffer. -/
theorem Grown.front {q : Query} (h : q.Grown) :
    ∃ j, ({ q with scankeypos := 0 } : Query).At j 0 ∧ room j 0 = q.keyRoom := by
  obtain ⟨j, hj, hlength⟩ := h
  have hcells := cells_le hj
  refine ⟨j, ⟨hj, hlength, rfl, Nat.zero_le _⟩, ?_⟩
  rw [keyRoom, hlength, Int32.toNatClampNeg_ofNat_of_lt (by omega), Nat.mul_div_cancel_left _ (by decide)]
  rfl

section
variable {q : Query} {j i : ℕ}

/-- The test of the loop. -/
theorem At.full_iff (h : q.At j i) : q.scankeypos + 8 > q.scankeyLength ↔ i = cells j := by
  have hcells := cells_le h.level
  have hfits := h.fits
  have hpos : q.scankeypos + 8 = Int32.ofNat (8 * i + 8) := by rw [h.pos, Int32.ofNat_add]; rfl
  rw [hpos, h.length, gt_iff_lt, ofNat_lt_ofNat (by omega) (by omega)]
  omega

/-- Where there is room for a key, the buffer has it in the end, ... -/
theorem At.makeRoom_some (h : q.At j i) (hroom : 0 < room j i) :
    ∃ q' j' i', q.makeRoom 8 22 = some q' ∧ q'.At j' i' ∧ i' < cells j' ∧ room j' i' = room j i := by
  rw [makeRoom]
  by_cases hi : i = cells j
  · have hj : j < 20 := by
      refine h.level.lt_of_ne fun hj => ?_
      rw [hi, hj] at hroom
      exact absurd hroom (by decide)
    have hnew : At ⟨Int32.ofNat (8 * cells (j + 1)), 0⟩ (j + 1) 0 := ⟨hj, rfl, rfl, Nat.zero_le _⟩
    have hcells := le_cells j
    refine ⟨_, j + 1, 0, ?_, hnew, by omega, by rw [hi, room_next hj]⟩
    rw [if_pos (h.full_iff.mpr hi), h.length, makeUninitialized_next j hj, Option.bind_eq_bind, Option.bind_some,
      makeRoom, if_neg (by rw [hnew.full_iff]; omega)]
  · rw [if_neg (by rwa [h.full_iff])]
    exact ⟨q, j, i, rfl, h, h.fits.lt_of_ne hi, rfl⟩

/-- ... and where there is none, the string for the next level is never made. -/
theorem At.makeRoom_none (h : q.At j i) (hroom : room j i = 0) : q.makeRoom 8 22 = none := by
  have hi : i = cells j := by
    by_contra hne
    exact absurd hroom (room_pos h.level (h.fits.lt_of_ne hne)).ne'
  have hj : j = 20 := by
    by_contra hne
    have hlt := h.level.lt_of_ne hne
    rw [hi, room_next hlt] at hroom
    have hcells := le_cells j
    exact absurd hroom (room_pos (j := j + 1) (i := 0) hlt (by omega)).ne'
  rw [makeRoom, if_pos (h.full_iff.mpr hi), h.length, hj, makeUninitialized_last]
  rfl

/-- A key is put where there is room for it. -/
theorem At.put (h : q.At j i) (hi : i < cells j) :
    ({ q with scankeypos := q.scankeypos + 8 } : Query).At j (i + 1) where
  level := h.level
  length := h.length
  pos := by
    rw [h.pos, Nat.mul_succ, Int32.ofNat_add]
    rfl
  fits := hi

end

end Query

end SidleBaselines.Kv
