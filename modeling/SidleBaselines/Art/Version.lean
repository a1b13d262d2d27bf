import SidleBaselines.Data.Fields

/-!
# The version word of an ART node

A node of ART keeps all there is to know about its layout in one word of 64 bits, `version`: how far
into the keys it stands, how many children it has, how long its prefix is, which of the four types it
is, whether it has been replaced, locked or is having its prefix cut, and how often it had.

## What is proved

* `header_setOffset` to `header_incrVexpand` — each macro changes one field of the word, and leaves
  the others as they are.
-/

namespace SidleBaselines.Art

open Data

/-! ### What the code does -/

/-- `node4`. -/
def node4 : BitVec 64 := 0x000000

/-- `node16`. -/
def node16 : BitVec 64 := 0x100000

/-- `node48`. -/
def node48 : BitVec 64 := 0x200000

/-- `node256`. -/
def node256 : BitVec 64 := 0x300000

/-- `OLD_BIT`. -/
def OLD_BIT : BitVec 64 := 1#64 <<< 19

/-- `LOCK_BIT`. -/
def LOCK_BIT : BitVec 64 := 1#64 <<< 18

/-- `EXPAND_BIT`. -/
def EXPAND_BIT : BitVec 64 := 1#64 <<< 16

/-- `set_offset`. -/
def setOffset (version : BitVec 64) (offset : ℕ) : BitVec 64 :=
  (version &&& ~~~(0xff#64 <<< 54)) ||| (BitVec.ofNat 64 offset <<< 54)

/-- `get_offset`. -/
def getOffset (version : BitVec 64) : ℕ := ((version >>> 54) &&& 0xff#64).toNat

/-- `get_prefix_len`. -/
def getPrefixLen (version : BitVec 64) : ℕ := ((version >>> 32) &&& 0xff#64).toNat

/-- `set_prefix_len`. -/
def setPrefixLen (version : BitVec 64) (len : ℕ) : BitVec 64 :=
  (version &&& ~~~(0xff#64 <<< 32)) ||| (BitVec.ofNat 64 len <<< 32)

/-- `get_count`. -/
def getCount (version : BitVec 64) : ℕ := ((version >>> 40) &&& 0xff#64).toNat

/-- `set_count`. -/
def setCount (version : BitVec 64) (count : ℕ) : BitVec 64 :=
  (version &&& ~~~(0xff#64 <<< 40)) ||| (BitVec.ofNat 64 count <<< 40)

/-- `incr_count`. -/
def incrCount (version : BitVec 64) : BitVec 64 := version + (1#64 <<< 40)

/-- `get_type`. -/
def getType (version : BitVec 64) : BitVec 64 := version &&& node256

/-- `set_type`. -/
def setType (version type : BitVec 64) : BitVec 64 := version ||| type

/-- `is_old`. -/
def isOld (version : BitVec 64) : Bool := version &&& OLD_BIT != 0

/-- `is_locked`. -/
def isLocked (version : BitVec 64) : Bool := version &&& LOCK_BIT != 0

/-- `is_expanding`. -/
def isExpanding (version : BitVec 64) : Bool := version &&& EXPAND_BIT != 0

/-- `set_old`. -/
def setOld (version : BitVec 64) : BitVec 64 := version ||| OLD_BIT

/-- `set_lock`. -/
def setLock (version : BitVec 64) : BitVec 64 := version ||| LOCK_BIT

/-- `set_expand`. -/
def setExpand (version : BitVec 64) : BitVec 64 := version ||| EXPAND_BIT

/-- `unset_lock`. -/
def unsetLock (version : BitVec 64) : BitVec 64 := version &&& ~~~LOCK_BIT

/-- `unset_expand`. -/
def unsetExpand (version : BitVec 64) : BitVec 64 := version &&& ~~~EXPAND_BIT

/-- `get_vexpand`. -/
def getVexpand (version : BitVec 64) : ℕ := (version &&& 0xff#64).toNat

/-- `incr_vexpand`. -/
def incrVexpand (version : BitVec 64) : BitVec 64 := (version &&& ~~~0xff#64) ||| ((version + 1) &&& 0xff#64)

/-- `art_node_version_compare_expand`. -/
def compareExpand (version1 version2 : BitVec 64) : Bool :=
  isExpanding version1 != isExpanding version2 || getVexpand version1 != getVexpand version2

/-! ### The fields -/

/-- What a version word says. -/
@[ext] structure Header where
  offset : ℕ
  count : ℕ
  prefixLen : ℕ
  type : BitVec 64
  old : Bool
  locked : Bool
  expanding : Bool
  vexpand : ℕ

/-- What `version` says. -/
def header (version : BitVec 64) : Header where
  offset := getOffset version
  count := getCount version
  prefixLen := getPrefixLen version
  type := getType version
  old := isOld version
  locked := isLocked version
  expanding := isExpanding version
  vexpand := getVexpand version

variable {v v' : BitVec 64} {lo w x : ℕ}

/-- The words differ in no more than the field. -/
def Same (lo w : ℕ) (v v' : BitVec 64) : Prop := ∀ i, ¬ (lo ≤ i ∧ i < lo + w) → v.getLsbD i = v'.getLsbD i

/-- A flag is its bit. -/
theorem and_flag (v : BitVec 64) {k : ℕ} (hk : k < 64) : (v &&& (1#64 <<< k) != 0) = v.getLsbD k := by
  cases hbit : v.getLsbD k with
  | false =>
    refine bne_eq_false_iff_eq.mpr (BitVec.eq_of_getLsbD_eq fun i hi => ?_)
    rcases Nat.lt_trichotomy i k with hik | rfl | hik
    · simp [hi, hik]
    · simp [hbit]
    · simp [hi, Nat.ne_of_gt (Nat.sub_pos_of_lt hik)]
  | true =>
    refine bne_iff_ne.mpr fun h => ?_
    have hflag := congrArg (BitVec.getLsbD · k) h
    rw [BitVec.getLsbD_eq_getElem hk] at hbit
    simp [hbit, hk] at hflag

/-- The bits of a flag. -/
theorem getLsbD_flag {k i : ℕ} (hk : k < 64) : (1#64 <<< k).getLsbD i = decide (i = k) := by
  rcases Nat.lt_trichotomy i k with hik | rfl | hik
  · simp [hik, hik.ne]
  · simp [hk]
  · simp [hik.ne', Nat.ne_of_gt (Nat.sub_pos_of_lt hik)]

theorem same_setField (hx : x < 2 ^ w) : Same lo w (setField lo w v x) v := by
  intro i hi
  by_cases h64 : i < 64
  · rw [getLsbD_setField lo w v hx h64, if_neg hi]
  · rw [BitVec.getLsbD_of_ge _ _ (by omega), BitVec.getLsbD_of_ge _ _ (by omega)]

theorem same_or_flag {k : ℕ} (hk : k < 64) : Same k 1 (v ||| (1#64 <<< k)) v := by
  intro i hi
  rw [BitVec.getLsbD_or, getLsbD_flag hk, decide_eq_false (by omega), Bool.or_false]

theorem same_and_not_flag {k : ℕ} (hk : k < 64) : Same k 1 (v &&& ~~~(1#64 <<< k)) v := by
  intro i hi
  by_cases h64 : i < 64
  · rw [BitVec.getLsbD_and, BitVec.getLsbD_not, getLsbD_flag hk, decide_eq_false (by omega : ¬ i = k),
      decide_eq_true h64,
      Bool.not_false, Bool.and_true, Bool.and_true]
  · rw [BitVec.getLsbD_of_ge _ _ (by omega), BitVec.getLsbD_of_ge _ _ (by omega)]

/-- What lies apart from the field that differs is the same. -/
structure Same.Elsewhere (lo w : ℕ) (v v' : BitVec 64) : Prop where
  offset : 54 + 8 ≤ lo ∨ lo + w ≤ 54 → getOffset v = getOffset v'
  count : 40 + 8 ≤ lo ∨ lo + w ≤ 40 → getCount v = getCount v'
  prefixLen : 32 + 8 ≤ lo ∨ lo + w ≤ 32 → getPrefixLen v = getPrefixLen v'
  type : 20 + 2 ≤ lo ∨ lo + w ≤ 20 → getType v = getType v'
  old : 19 + 1 ≤ lo ∨ lo + w ≤ 19 → isOld v = isOld v'
  locked : 18 + 1 ≤ lo ∨ lo + w ≤ 18 → isLocked v = isLocked v'
  expanding : 16 + 1 ≤ lo ∨ lo + w ≤ 16 → isExpanding v = isExpanding v'
  vexpand : 0 + 8 ≤ lo ∨ lo + w ≤ 0 → getVexpand v = getVexpand v'

theorem ones_eight : ones 64 8 = 0xff#64 := by rfl

theorem getOffset_eq (v : BitVec 64) : getOffset v = getField 54 8 v := by
  rw [getOffset, getField, ones_eight]

theorem getCount_eq (v : BitVec 64) : getCount v = getField 40 8 v := by
  rw [getCount, getField, ones_eight]

theorem getPrefixLen_eq (v : BitVec 64) : getPrefixLen v = getField 32 8 v := by
  rw [getPrefixLen, getField, ones_eight]

theorem getVexpand_eq (v : BitVec 64) : getVexpand v = getField 0 8 v := by
  rw [getVexpand, getField, BitVec.ushiftRight_zero, ones_eight]

theorem setOffset_eq (v : BitVec 64) (x : ℕ) : setOffset v x = setField 54 8 v x := by
  rw [setOffset, setField, ones_eight]

theorem setCount_eq (v : BitVec 64) (x : ℕ) : setCount v x = setField 40 8 v x := by
  rw [setCount, setField, ones_eight]

theorem setPrefixLen_eq (v : BitVec 64) (x : ℕ) : setPrefixLen v x = setField 32 8 v x := by
  rw [setPrefixLen, setField, ones_eight]

theorem isOld_eq (v : BitVec 64) : isOld v = v.getLsbD 19 := and_flag v (by omega)

theorem isLocked_eq (v : BitVec 64) : isLocked v = v.getLsbD 18 := and_flag v (by omega)

theorem isExpanding_eq (v : BitVec 64) : isExpanding v = v.getLsbD 16 := and_flag v (by omega)

theorem getLsbD_node256 (i : ℕ) : node256.getLsbD i = (decide (i = 20) || decide (i = 21)) := by
  have hflags : node256 = (1#64 <<< 20) ||| (1#64 <<< 21) := by rfl
  rw [hflags, BitVec.getLsbD_or, getLsbD_flag (by omega), getLsbD_flag (by omega)]

theorem Same.elsewhere (h : Same lo w v v') : Same.Elsewhere lo w v v' where
  offset hapart := by
    rw [getOffset_eq, getOffset_eq]
    exact getField_congr fun i hi => h _ (by omega)
  count hapart := by
    rw [getCount_eq, getCount_eq]
    exact getField_congr fun i hi => h _ (by omega)
  prefixLen hapart := by
    rw [getPrefixLen_eq, getPrefixLen_eq]
    exact getField_congr fun i hi => h _ (by omega)
  type hapart := by
    refine BitVec.eq_of_getLsbD_eq fun i hi => ?_
    rw [getType, getType, BitVec.getLsbD_and, BitVec.getLsbD_and, getLsbD_node256]
    by_cases h20 : i = 20 ∨ i = 21
    · rw [h i (by omega)]
    · simp [show ¬ i = 20 by omega, show ¬ i = 21 by omega]
  old hapart := by rw [isOld_eq, isOld_eq, h 19 (by omega)]
  locked hapart := by rw [isLocked_eq, isLocked_eq, h 18 (by omega)]
  expanding hapart := by rw [isExpanding_eq, isExpanding_eq, h 16 (by omega)]
  vexpand hapart := by
    rw [getVexpand_eq, getVexpand_eq]
    exact getField_congr fun i hi => h _ (by omega)

section

variable {v' v : BitVec 64}

theorem Same.header_offset (h : Same 54 8 v' v) : header v' = { header v with offset := getOffset v' } :=
  have e := h.elsewhere
  Header.ext rfl (e.count (by omega)) (e.prefixLen (by omega)) (e.type (by omega)) (e.old (by omega))
    (e.locked (by omega)) (e.expanding (by omega)) (e.vexpand (by omega))

theorem Same.header_count (h : Same 40 8 v' v) : header v' = { header v with count := getCount v' } :=
  have e := h.elsewhere
  Header.ext (e.offset (by omega)) rfl (e.prefixLen (by omega)) (e.type (by omega)) (e.old (by omega))
    (e.locked (by omega)) (e.expanding (by omega)) (e.vexpand (by omega))

theorem Same.header_prefixLen (h : Same 32 8 v' v) :
    header v' = { header v with prefixLen := getPrefixLen v' } :=
  have e := h.elsewhere
  Header.ext (e.offset (by omega)) (e.count (by omega)) rfl (e.type (by omega)) (e.old (by omega))
    (e.locked (by omega)) (e.expanding (by omega)) (e.vexpand (by omega))

theorem Same.header_locked (h : Same 18 1 v' v) : header v' = { header v with locked := isLocked v' } :=
  have e := h.elsewhere
  Header.ext (e.offset (by omega)) (e.count (by omega)) (e.prefixLen (by omega)) (e.type (by omega))
    (e.old (by omega)) rfl (e.expanding (by omega)) (e.vexpand (by omega))

theorem Same.header_expanding (h : Same 16 1 v' v) :
    header v' = { header v with expanding := isExpanding v' } :=
  have e := h.elsewhere
  Header.ext (e.offset (by omega)) (e.count (by omega)) (e.prefixLen (by omega)) (e.type (by omega))
    (e.old (by omega)) (e.locked (by omega)) rfl (e.vexpand (by omega))

theorem Same.header_vexpand (h : Same 0 8 v' v) : header v' = { header v with vexpand := getVexpand v' } :=
  have e := h.elsewhere
  Header.ext (e.offset (by omega)) (e.count (by omega)) (e.prefixLen (by omega)) (e.type (by omega))
    (e.old (by omega)) (e.locked (by omega)) (e.expanding (by omega)) rfl

end

@[simp] theorem header_setOffset (h : x < 256) : header (setOffset v x) = { header v with offset := x } := by
  rw [setOffset_eq, (same_setField h).header_offset, getOffset_eq, getField_setField h (by omega)]

@[simp] theorem header_setCount (h : x < 256) : header (setCount v x) = { header v with count := x } := by
  rw [setCount_eq, (same_setField h).header_count, getCount_eq, getField_setField h (by omega)]

@[simp] theorem header_setPrefixLen (h : x < 256) :
    header (setPrefixLen v x) = { header v with prefixLen := x } := by
  rw [setPrefixLen_eq, (same_setField h).header_prefixLen, getPrefixLen_eq, getField_setField h (by omega)]

@[simp] theorem header_setLock : header (setLock v) = { header v with locked := true } := by
  rw [setLock, LOCK_BIT, (same_or_flag (by omega)).header_locked, isLocked_eq, BitVec.getLsbD_or,
    getLsbD_flag (by omega),
    decide_eq_true rfl, Bool.or_true]

@[simp] theorem header_unsetLock : header (unsetLock v) = { header v with locked := false } := by
  rw [unsetLock, LOCK_BIT, (same_and_not_flag (by omega)).header_locked, isLocked_eq, BitVec.getLsbD_and,
    BitVec.getLsbD_not,
    getLsbD_flag (by omega), decide_eq_true rfl, Bool.not_true, Bool.and_false, Bool.and_false]

@[simp] theorem header_setExpand : header (setExpand v) = { header v with expanding := true } := by
  rw [setExpand, EXPAND_BIT, (same_or_flag (by omega)).header_expanding, isExpanding_eq, BitVec.getLsbD_or,
    getLsbD_flag (by omega), decide_eq_true rfl, Bool.or_true]

@[simp] theorem header_unsetExpand : header (unsetExpand v) = { header v with expanding := false } := by
  rw [unsetExpand, EXPAND_BIT, (same_and_not_flag (by omega)).header_expanding, isExpanding_eq,
    BitVec.getLsbD_and,
    BitVec.getLsbD_not, getLsbD_flag (by omega), decide_eq_true rfl, Bool.not_true, Bool.and_false,
      Bool.and_false]

theorem header_prefixLen_lt (v : BitVec 64) : (header v).prefixLen < 256 := by
  have h : (header v).prefixLen = getField 32 8 v := getPrefixLen_eq v
  exact h ▸ getField_lt 32 8 v

@[simp] theorem header_incrCount (h : (header v).count + 1 < 256) :
    header (incrCount v) = { header v with count := (header v).count + 1 } := by
  have hcount : getField 40 8 v + 1 < 2 ^ 8 := getCount_eq v ▸ h
  have hsame : Same 40 8 (incrCount v) v := fun i hi => getLsbD_add_one_of_apart (by omega) hcount hi
  rw [hsame.header_count, getCount_eq, incrCount, getField_add_one (by omega) hcount, ← getCount_eq]
  rfl

@[simp] theorem header_incrVexpand :
    header (incrVexpand v) = { header v with vexpand := ((header v).vexpand + 1) % 256 } := by
  have hbits : ∀ i, (incrVexpand v).getLsbD i = if i < 8 then (v + 1).getLsbD i else v.getLsbD i := by
    intro i
    have hones : (0xff#64).getLsbD i = decide (i < 8) := by
      rw [← ones_eight, ones, BitVec.getLsbD_setWidth, BitVec.getLsbD_allOnes]
      by_cases hi : i < 8
      · rw [decide_eq_true hi, decide_eq_true (by omega : i < 64), Bool.and_true]
      · rw [decide_eq_false hi, Bool.and_false]
    rw [incrVexpand, BitVec.getLsbD_or, BitVec.getLsbD_and, BitVec.getLsbD_and, BitVec.getLsbD_not, hones]
    by_cases hi : i < 8
    · simp [hi]
    · by_cases h64 : i < 64
      · simp [hi, h64]
      · simp [hi, h64, BitVec.getLsbD_of_ge v i (by omega)]
  have hsame : Same 0 8 (incrVexpand v) v := fun i hi => by rw [hbits, if_neg (by omega)]
  have hlow : getField 0 8 (incrVexpand v) = getField 0 8 (v + 1) :=
    getField_congr fun i hi => by rw [Nat.zero_add, hbits, if_pos hi]
  rw [hsame.header_vexpand, getVexpand_eq, hlow]
  have hv : (header v).vexpand = getField 0 8 v := getVexpand_eq v
  have hone : (1 : BitVec 64).toNat = 1 := rfl
  have hnext : getField 0 8 (v + 1) = (getField 0 8 v + 1) % 256 := by
    rw [getField_eq, getField_eq, BitVec.toNat_add, hone]
    omega
  rw [hv, hnext]

/-- A lock taken and given back. -/
theorem unsetLock_setLock (h : isLocked v = false) : unsetLock (setLock v) = v := by
  refine BitVec.eq_of_getLsbD_eq fun i hi => ?_
  rw [unsetLock, setLock, LOCK_BIT, BitVec.getLsbD_and, BitVec.getLsbD_or, BitVec.getLsbD_not,
    getLsbD_flag (by omega)]
  by_cases h18 : i = 18
  · rw [isLocked_eq] at h
    subst h18
    rw [h, decide_eq_true rfl, Bool.not_true, Bool.and_false, Bool.and_false]
  · simp [hi, h18]

end SidleBaselines.Art
