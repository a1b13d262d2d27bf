import Mathlib

/-!
# Nodes of PACTree's data layer

A `ListNode` keeps up to `MAX_ENTRIES` entries in slots: `bitMap` says which slots are in use,
`fingerPrint` has a byte of each key's hash, and `permuter` caches the order of the keys for
scans, good for the version `lastScanVersion`.

Arrays are functions of the index; what they give from `MAX_ENTRIES` on is the memory behind them.

## What is proved

* `getKeyIndex_eq`, `getFreeIndex_eq` — the loops, with their early exits, find what a plain search
  for the key and for a free slot finds.
* `Ok.insertAtIndex`, `Ok.removeFromIndex`, `Ok.updateAtIndex` — a slot is filled, emptied and
  overwritten without touching the other entries.
-/

namespace SidleBaselines.Pactree

/-- `MAX_ENTRIES`. -/
def MAX_ENTRIES : ℕ := 4

/-- The proofs need no more of it. -/
theorem two_le_MAX_ENTRIES : 2 ≤ MAX_ENTRIES := by simp [MAX_ENTRIES]

/-- A node of the data layer; pointers are addresses, null is `none`. -/
structure ListNode (K V : Type) where
  min : K
  max : K
  curPtr : ℕ
  nextPtr : Option ℕ
  prevPtr : Option ℕ
  deleted : Bool
  bitMap : ℕ → Bool
  fingerPrint : ℕ → UInt8
  /-- The version of the lock, odd while a writer has it. -/
  verLock : ℕ
  keyArray : ℕ → K × V
  lastScanVersion : ℕ
  permuter : ℕ → ℕ

namespace ListNode

variable {K V : Type} [LinearOrder K]

/-! ### What the code does -/

/-- The constructor, run on memory that holds `n`. -/
def new (n : ListNode K V) : ListNode K V :=
  { n with deleted := false, bitMap := fun _ => false, lastScanVersion := 0, verLock := 2 }

/-- `getNumEntries`. -/
def getNumEntries (n : ListNode K V) : ℕ := (List.range MAX_ENTRIES).countP n.bitMap

/-- `checkRange`. -/
def checkRange (n : ListNode K V) (key : K) : Bool := n.min ≤ key && key < n.max

/-- Slot `i` is in use for `key`, as the code tests it. -/
def isKey (n : ListNode K V) (key : K) (keyHash : UInt8) (i : ℕ) : Bool :=
  n.bitMap i && keyHash == n.fingerPrint i && (n.keyArray i).1 == key

/-- The loop of `getKeyIndex` over the slots `is`. -/
def keyLoop (n : ListNode K V) (key : K) (keyHash : UInt8) (numEntries : ℕ) : List ℕ → ℕ → Option ℕ
  | [], _ => none
  | i :: is, count =>
    if n.isKey key keyHash i then some i
    else
      let count := if n.bitMap i then count + 1 else count
      if count = numEntries then none else keyLoop n key keyHash numEntries is count

/-- `getKeyIndex`; `none` is -1. -/
def getKeyIndex (n : ListNode K V) (key : K) (keyHash : UInt8) : Option ℕ :=
  n.keyLoop key keyHash n.getNumEntries (List.range MAX_ENTRIES) 0

/-- What `getFreeIndex` returns. -/
inductive FreeIndex where
  /-- -1: the key is there. -/
  | present
  /-- -2: no slot is free. -/
  | full
  /-- A free slot. -/
  | slot (i : ℕ)
  deriving DecidableEq

/-- What the variable `freeIndex` stands for. -/
def FreeIndex.of : Option ℕ → FreeIndex
  | none => full
  | some i => slot i

/-- The loop of `getFreeIndex` over the slots `is`. -/
def freeLoop (n : ListNode K V) (key : K) (keyHash : UInt8) (numEntries : ℕ) :
    List ℕ → Option ℕ → ℕ → Bool → FreeIndex
  | [], freeIndex, _, _ => .of freeIndex
  | i :: is, freeIndex, count, keyCheckNeeded =>
    if keyCheckNeeded && n.isKey key keyHash i then .present
    else
      let freeIndex := if freeIndex.isNone && !n.bitMap i then some i else freeIndex
      if n.bitMap i then
        freeLoop n key keyHash numEntries is freeIndex (count + 1)
          (if count + 1 = numEntries then false else keyCheckNeeded)
      else freeLoop n key keyHash numEntries is freeIndex count keyCheckNeeded

/-- `getFreeIndex`. -/
def getFreeIndex (n : ListNode K V) (key : K) (keyHash : UInt8) : FreeIndex :=
  n.freeLoop key keyHash n.getNumEntries (List.range MAX_ENTRIES) none 0 true

/-- `insertAtIndex`. -/
def insertAtIndex (n : ListNode K V) (key : K × V) (index : ℕ) (keyHash : UInt8) : ListNode K V :=
  { n with
    keyArray := Function.update n.keyArray index key
    fingerPrint := Function.update n.fingerPrint index keyHash
    bitMap := Function.update n.bitMap index true }

/-- `updateAtIndex`. -/
def updateAtIndex (n : ListNode K V) (value : V) (index : ℕ) : ListNode K V :=
  { n with keyArray := Function.update n.keyArray index ((n.keyArray index).1, value) }

/-- `removeFromIndex`. -/
def removeFromIndex (n : ListNode K V) (index : ℕ) : ListNode K V :=
  { n with bitMap := Function.update n.bitMap index false }

/-! ### What a node holds -/

/-- The entry `(k, v)` is in a slot in use. -/
def Holds (n : ListNode K V) (k : K) (v : V) : Prop :=
  ∃ i, i < MAX_ENTRIES ∧ n.bitMap i = true ∧ n.keyArray i = (k, v)

/-- No key is in two slots, and fingerprints are those of the keys. -/
structure Ok (fp : K → UInt8) (n : ListNode K V) : Prop where
  /-- One slot for a key. -/
  distinct : ∀ i j, i < MAX_ENTRIES → j < MAX_ENTRIES → n.bitMap i = true → n.bitMap j = true →
    (n.keyArray i).1 = (n.keyArray j).1 → i = j
  /-- Its fingerprint. -/
  hash : ∀ i, i < MAX_ENTRIES → n.bitMap i = true → n.fingerPrint i = fp (n.keyArray i).1

variable {n : ListNode K V} {fp : K → UInt8} {key k : K} {v u : V} {keyHash : UInt8} {i : ℕ}

omit [LinearOrder K] in
theorem Ok.unique (h : n.Ok fp) (hv : n.Holds k v) (hu : n.Holds k u) : v = u := by
  obtain ⟨i, hi, hbi, hki⟩ := hv
  obtain ⟨j, hj, hbj, hkj⟩ := hu
  have hij : i = j := h.distinct i j hi hj hbi hbj (by rw [hki, hkj])
  rw [hij, hkj] at hki
  exact ((Prod.mk.inj hki).2).symm

/-! ### The loops -/

theorem isKey_eq_false (h : n.bitMap i = false) : n.isKey key keyHash i = false := by simp [isKey, h]

/-- Where no slot in use is left, neither is the key. -/
theorem find?_isKey_eq_none {is : List ℕ} (h : is.countP n.bitMap = 0) :
    is.find? (n.isKey key keyHash) = none := by
  rw [List.find?_eq_none]
  intro j hj
  rw [List.countP_eq_zero] at h
  rw [isKey_eq_false (by simpa using h j hj)]
  simp

theorem keyLoop_eq {numEntries : ℕ} (is : List ℕ) (count : ℕ)
    (hcount : numEntries = count + is.countP n.bitMap) :
    n.keyLoop key keyHash numEntries is count = is.find? (n.isKey key keyHash) := by
  induction is generalizing count with
  | nil => rfl
  | cons i is ih =>
    rw [keyLoop, List.find?_cons]
    rw [List.countP_cons] at hcount
    cases hkey : n.isKey key keyHash i with
    | true => rfl
    | false =>
      have hcount' : numEntries = (if n.bitMap i then count + 1 else count) + is.countP n.bitMap := by
        rw [hcount]
        split <;> omega
      simp only [Bool.false_eq_true, if_false]
      generalize (if n.bitMap i then count + 1 else count) = count' at hcount'
      by_cases hend : count' = numEntries
      · -- the early exit: no slot in use is left
        rw [if_pos hend, find?_isKey_eq_none (by omega)]
      · rw [if_neg hend, ih _ hcount']

/-- **`getKeyIndex`** is a search for the key. -/
theorem getKeyIndex_eq (n : ListNode K V) (key : K) (keyHash : UInt8) :
    n.getKeyIndex key keyHash = (List.range MAX_ENTRIES).find? (n.isKey key keyHash) :=
  keyLoop_eq _ _ (by rw [getNumEntries, Nat.zero_add])

theorem freeLoop_eq {numEntries : ℕ} (is : List ℕ) (freeIndex : Option ℕ) (count : ℕ) (check : Bool)
    (hcount : numEntries = count + is.countP n.bitMap) (hcheck : check = false → is.countP n.bitMap = 0) :
    n.freeLoop key keyHash numEntries is freeIndex count check =
      if (is.find? (n.isKey key keyHash)).isSome then .present
      else .of (freeIndex.or (is.find? fun i => !n.bitMap i)) := by
  induction is generalizing freeIndex count check with
  | nil => simp [freeLoop]
  | cons i is ih =>
    rw [freeLoop, List.find?_cons, List.find?_cons]
    rw [List.countP_cons] at hcount hcheck
    cases hbit : n.bitMap i with
    | false =>
      rw [hbit] at hcount hcheck
      rw [isKey_eq_false hbit]
      simp only [Bool.and_false, Bool.false_eq_true, if_false]
      rw [ih _ _ _ (by simpa using hcount) (by simpa using hcheck)]
      cases freeIndex <;> simp
    | true =>
      rw [hbit] at hcount hcheck
      have hc : check = true := by
        by_contra h
        have := hcheck (by simpa using h)
        simp at this
      subst hc
      cases hkey : n.isKey key keyHash i with
      | true => simp
      | false =>
        simp only [if_true] at hcount
        simp only [Bool.and_false, Bool.false_eq_true, if_false, if_true, Bool.not_true]
        have hlast : (if count + 1 = numEntries then false else true) = false → is.countP n.bitMap = 0 := by
          intro h
          have : count + 1 = numEntries := by simpa using h
          omega
        rw [ih _ _ _ (by omega) hlast]

/-- **`getFreeIndex`** is a search for the key, and then one for a free slot. -/
theorem getFreeIndex_eq (n : ListNode K V) (key : K) (keyHash : UInt8) :
    n.getFreeIndex key keyHash =
      if (n.getKeyIndex key keyHash).isSome then .present
      else .of ((List.range MAX_ENTRIES).find? fun i => !n.bitMap i) := by
  rw [getKeyIndex_eq, getFreeIndex, freeLoop_eq _ _ _ _ (by rw [getNumEntries, Nat.zero_add]) (by simp),
    Option.none_or]

/-! ### Looking a key up -/

theorem isKey_iff (h : n.Ok fp) (hi : i < MAX_ENTRIES) :
    n.isKey key (fp key) i = true ↔ n.bitMap i = true ∧ (n.keyArray i).1 = key := by
  simp only [isKey, Bool.and_eq_true, beq_iff_eq]
  constructor
  · rintro ⟨⟨hb, -⟩, hk⟩
    exact ⟨hb, hk⟩
  · rintro ⟨hb, hk⟩
    exact ⟨⟨hb, by rw [h.hash i hi hb, hk]⟩, hk⟩

/-- The slot found is in use for the key. -/
theorem Ok.of_getKeyIndex (h : n.Ok fp) (hi : n.getKeyIndex key (fp key) = some i) :
    i < MAX_ENTRIES ∧ n.bitMap i = true ∧ (n.keyArray i).1 = key := by
  rw [getKeyIndex_eq] at hi
  have hlt : i < MAX_ENTRIES := List.mem_range.mp (List.mem_of_find?_eq_some hi)
  exact ⟨hlt, (isKey_iff h hlt).mp (List.find?_some hi)⟩

/-- No slot is found for a key that is not held. -/
theorem Ok.getKeyIndex_eq_none (h : n.Ok fp) : n.getKeyIndex key (fp key) = none ↔ ∀ v, ¬ n.Holds key v := by
  rw [getKeyIndex_eq, List.find?_eq_none]
  constructor
  · rintro hnone v ⟨i, hi, hb, hk⟩
    exact hnone i (List.mem_range.mpr hi) ((isKey_iff h hi).mpr ⟨hb, by rw [hk]⟩)
  · intro hnone i hi hkey
    rw [List.mem_range] at hi
    obtain ⟨hb, hk⟩ := (isKey_iff h hi).mp hkey
    exact hnone (n.keyArray i).2 ⟨i, hi, hb, by rw [← hk]⟩

/-- The value found is the one held. -/
theorem Ok.holds_getKeyIndex (h : n.Ok fp) (hi : n.getKeyIndex key (fp key) = some i) :
    n.Holds key v ↔ v = (n.keyArray i).2 := by
  obtain ⟨hlt, hb, hk⟩ := h.of_getKeyIndex hi
  have hheld : n.Holds key (n.keyArray i).2 := ⟨i, hlt, hb, by rw [← hk]⟩
  exact ⟨fun hv => h.unique hv hheld, fun e => e ▸ hheld⟩

/-! ### Changing a slot -/

section
omit [LinearOrder K]

@[simp] theorem insertAtIndex_self (e : K × V) :
    (n.insertAtIndex e i keyHash).keyArray i = e ∧ (n.insertAtIndex e i keyHash).fingerPrint i = keyHash ∧
      (n.insertAtIndex e i keyHash).bitMap i = true := by
  simp [ListNode.insertAtIndex]

theorem insertAtIndex_ne (e : K × V) {j : ℕ} (h : j ≠ i) :
    (n.insertAtIndex e i keyHash).keyArray j = n.keyArray j ∧
      (n.insertAtIndex e i keyHash).fingerPrint j = n.fingerPrint j ∧
      (n.insertAtIndex e i keyHash).bitMap j = n.bitMap j := by
  simp [ListNode.insertAtIndex, Function.update_of_ne h]

/-- A free slot filled holds the new entry, and the others as before. -/
theorem holds_insertAtIndex (hi : i < MAX_ENTRIES) (hb : n.bitMap i = false) :
    (n.insertAtIndex (key, v) i keyHash).Holds k u ↔ n.Holds k u ∨ (k = key ∧ u = v) := by
  constructor
  · rintro ⟨j, hj, hbj, hkj⟩
    by_cases h : j = i
    · rw [h, (insertAtIndex_self _).1] at hkj
      obtain ⟨rfl, rfl⟩ := Prod.mk.inj hkj
      exact .inr ⟨rfl, rfl⟩
    · rw [(insertAtIndex_ne _ h).1] at hkj
      rw [(insertAtIndex_ne _ h).2.2] at hbj
      exact .inl ⟨j, hj, hbj, hkj⟩
  · rintro (⟨j, hj, hbj, hkj⟩ | ⟨rfl, rfl⟩)
    · have h : j ≠ i := fun e => by rw [e, hb] at hbj; cases hbj
      exact ⟨j, hj, (insertAtIndex_ne _ h).2.2.trans hbj, (insertAtIndex_ne _ h).1.trans hkj⟩
    · exact ⟨i, hi, (insertAtIndex_self _).2.2, (insertAtIndex_self _).1⟩

/-- A free slot takes a key that is not held. -/
theorem Ok.insertAtIndex (h : n.Ok fp) (hnew : ∀ u, ¬ n.Holds key u) :
    (n.insertAtIndex (key, v) i (fp key)).Ok fp := by
  have apart : ∀ j, j < MAX_ENTRIES → n.bitMap j = true → (n.keyArray j).1 ≠ key := by
    intro j hj hbj hk
    exact hnew (n.keyArray j).2 ⟨j, hj, hbj, by rw [← hk]⟩
  constructor
  · intro a b ha hb hba hbb hk
    by_cases hai : a = i <;> by_cases hbi : b = i
    · rw [hai, hbi]
    · rw [hai, (insertAtIndex_self _).1, (insertAtIndex_ne _ hbi).1] at hk
      rw [(insertAtIndex_ne _ hbi).2.2] at hbb
      exact absurd hk.symm (apart b hb hbb)
    · rw [hbi, (insertAtIndex_self _).1, (insertAtIndex_ne _ hai).1] at hk
      rw [(insertAtIndex_ne _ hai).2.2] at hba
      exact absurd hk (apart a ha hba)
    · rw [(insertAtIndex_ne _ hai).1, (insertAtIndex_ne _ hbi).1] at hk
      rw [(insertAtIndex_ne _ hai).2.2] at hba
      rw [(insertAtIndex_ne _ hbi).2.2] at hbb
      exact h.distinct a b ha hb hba hbb hk
  · intro a ha hba
    by_cases hai : a = i
    · rw [hai, (insertAtIndex_self _).1, (insertAtIndex_self _).2.1]
    · rw [(insertAtIndex_ne _ hai).2.2] at hba
      rw [(insertAtIndex_ne _ hai).1, (insertAtIndex_ne _ hai).2.1]
      exact h.hash a ha hba

theorem updateAtIndex_key (j : ℕ) : ((n.updateAtIndex v i).keyArray j).1 = (n.keyArray j).1 := by
  by_cases h : j = i <;> simp [ListNode.updateAtIndex, h]

theorem Ok.updateAtIndex (h : n.Ok fp) : (n.updateAtIndex v i).Ok fp where
  distinct a b ha hb hba hbb hk := by
    rw [updateAtIndex_key, updateAtIndex_key] at hk
    exact h.distinct a b ha hb hba hbb hk
  hash a ha hba := by
    rw [updateAtIndex_key]
    exact h.hash a ha hba

/-- A slot overwritten holds its key with the new value. -/
theorem Ok.holds_updateAtIndex (h : n.Ok fp) (hi : i < MAX_ENTRIES) (hb : n.bitMap i = true)
    (hk : (n.keyArray i).1 = key) :
    (n.updateAtIndex v i).Holds k u ↔ (k = key ∧ u = v) ∨ (k ≠ key ∧ n.Holds k u) := by
  have self : (n.updateAtIndex v i).keyArray i = (key, v) := by simp [ListNode.updateAtIndex, hk]
  have other : ∀ j, j ≠ i → (n.updateAtIndex v i).keyArray j = n.keyArray j := fun j hj => by
    simp [ListNode.updateAtIndex, Function.update_of_ne hj]
  have hheld : (n.updateAtIndex v i).Holds key v := ⟨i, hi, hb, self⟩
  constructor
  · rintro ⟨j, hj, hbj, hkj⟩
    by_cases hkey : k = key
    · subst hkey
      exact .inl ⟨rfl, h.updateAtIndex.unique ⟨j, hj, hbj, hkj⟩ hheld⟩
    · have hji : j ≠ i := fun e => hkey (by rw [e, self] at hkj; exact ((Prod.mk.inj hkj).1).symm)
      exact .inr ⟨hkey, j, hj, hbj, by rw [← other j hji, hkj]⟩
  · rintro (⟨rfl, rfl⟩ | ⟨hkey, j, hj, hbj, hkj⟩)
    · exact hheld
    · have hji : j ≠ i := fun e => hkey (by rw [← hk, ← e, hkj])
      exact ⟨j, hj, hbj, by rw [other j hji, hkj]⟩

theorem removeFromIndex_bitMap {j : ℕ} :
    (n.removeFromIndex i).bitMap j = true ↔ j ≠ i ∧ n.bitMap j = true := by
  by_cases h : j = i <;> simp [ListNode.removeFromIndex, h]

/-- Slots given up. -/
theorem Ok.of_bitMap {n' : ListNode K V} (h : n.Ok fp) (hkey : n'.keyArray = n.keyArray)
    (hhash : n'.fingerPrint = n.fingerPrint) (hbit : ∀ j, n'.bitMap j = true → n.bitMap j = true) : n'.Ok fp where
  distinct a b ha hb hba hbb hk := by
    rw [hkey] at hk
    exact h.distinct a b ha hb (hbit a hba) (hbit b hbb) hk
  hash a ha hba := by
    rw [hkey, hhash]
    exact h.hash a ha (hbit a hba)

theorem Ok.removeFromIndex (h : n.Ok fp) : (n.removeFromIndex i).Ok fp :=
  h.of_bitMap rfl rfl fun _ hj => (removeFromIndex_bitMap.mp hj).2

/-- A slot given up takes its key with it. -/
theorem Ok.holds_removeFromIndex (h : n.Ok fp) (hi : i < MAX_ENTRIES) (hb : n.bitMap i = true)
    (hk : (n.keyArray i).1 = key) : (n.removeFromIndex i).Holds k u ↔ k ≠ key ∧ n.Holds k u := by
  constructor
  · rintro ⟨j, hj, hbj, hkj⟩
    obtain ⟨hji, hbj⟩ := removeFromIndex_bitMap.mp hbj
    refine ⟨fun e => hji (h.distinct j i hj hi hbj hb ?_), j, hj, hbj, hkj⟩
    rw [hk, ← e]
    exact congrArg Prod.fst hkj
  · rintro ⟨hne, j, hj, hbj, hkj⟩
    have hji : j ≠ i := fun e => hne (by rw [← hk, ← e, hkj])
    exact ⟨j, hj, removeFromIndex_bitMap.mpr ⟨hji, hbj⟩, hkj⟩

end

end ListNode

end SidleBaselines.Pactree
