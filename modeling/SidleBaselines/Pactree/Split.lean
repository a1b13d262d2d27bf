import SidleBaselines.Pactree.ListNode

/-!
# Splitting a node

A full node that gets one more key is split at the median of its keys: the entries from the
median on are copied to a new node and their slots given up here, and the new entry goes to its
side, here to the first slot given up.

## What is proved

* `median_held`, `below_median` — the median is a key of the node, and one key is below it.
* `splitOld_half`, `splitNew_half` — the two nodes hold what the node held and the new entry, below
  the median and from it on.
-/

namespace SidleBaselines.Pactree

namespace ListNode

variable {K V : Type} [LinearOrder K]

/-! ### What the code does -/

/-- The key in the middle of the sorted copy of the slots. -/
def median (n : ListNode K V) : K :=
  ((((List.range MAX_ENTRIES).map n.keyArray).insertionSort fun a b => a.1 ≤ b.1).getD (MAX_ENTRIES / 2)
    (n.keyArray 0)).1

/-- The loop that copies the entries from `newMin` on to the new node, with `newNumEntries`. -/
def copyLoop (n : ListNode K V) (newMin : K) : List ℕ → ListNode K V → ℕ → ListNode K V × ℕ
  | [], newNode, newNumEntries => (newNode, newNumEntries)
  | i :: is, newNode, newNumEntries =>
    if newMin ≤ (n.keyArray i).1 then
      copyLoop n newMin is (newNode.insertAtIndex (n.keyArray i) newNumEntries (n.fingerPrint i))
        (newNumEntries + 1)
    else copyLoop n newMin is newNode newNumEntries

/-- The loop that gives their slots up, with `curBitMap`, `numEntries` and `removeIndex`. -/
def resetLoop (n : ListNode K V) (newMin : K) :
    List ℕ → (ℕ → Bool) → ℕ → Option ℕ → (ℕ → Bool) × ℕ × Option ℕ
  | [], curBitMap, numEntries, removeIndex => (curBitMap, numEntries, removeIndex)
  | i :: is, curBitMap, numEntries, removeIndex =>
    if newMin ≤ (n.keyArray i).1 then
      resetLoop n newMin is (Function.update curBitMap i false) (numEntries - 1)
        (if removeIndex.isNone then some i else removeIndex)
    else resetLoop n newMin is curBitMap numEntries removeIndex

/-- The new node of `split`, made at `newNodePtr` of memory that holds `g`. -/
def splitNew (n g : ListNode K V) (newNodePtr : ℕ) (key : K) (val : V) (keyHash : UInt8) : ListNode K V :=
  let newMin := n.median
  let (newNode, newNumEntries) := n.copyLoop newMin (List.range MAX_ENTRIES) g.new 0
  let newNode := if newMin ≤ key then newNode.insertAtIndex (key, val) newNumEntries keyHash else newNode
  { newNode with
    min := newMin
    nextPtr := n.nextPtr
    curPtr := newNodePtr
    deleted := false
    prevPtr := some n.curPtr
    max := n.max }

/-- The node itself after `split`. -/
def splitOld (n : ListNode K V) (newNodePtr : ℕ) (key : K) (val : V) (keyHash : UInt8) : ListNode K V :=
  let newMin := n.median
  let (curBitMap, numEntries, removeIndex) :=
    n.resetLoop newMin (List.range MAX_ENTRIES) n.bitMap n.getNumEntries none
  let n := { n with max := newMin, nextPtr := some newNodePtr, bitMap := curBitMap }
  if key < newMin then n.insertAtIndex (key, val) (removeIndex.getD numEntries) keyHash else n

/-! ### The median -/

variable {n g : ListNode K V} {fp : K → UInt8} {key k newMin : K} {v u val : V} {keyHash : UInt8} {p : ℕ}

/-- Every slot is in use. -/
def Full (n : ListNode K V) : Prop := ∀ i, i < MAX_ENTRIES → n.bitMap i = true

/-- The slots in key order. -/
def sorted (n : ListNode K V) : List (K × V) :=
  ((List.range MAX_ENTRIES).map n.keyArray).insertionSort fun a b => a.1 ≤ b.1

theorem mem_sorted {e : K × V} : e ∈ n.sorted ↔ ∃ i, i < MAX_ENTRIES ∧ n.keyArray i = e := by
  simp [sorted]

theorem length_sorted : n.sorted.length = MAX_ENTRIES := by simp [sorted]

/-- The keys of a full node, sorted, are strictly ascending. -/
theorem sorted_lt (h : n.Ok fp) (hfull : n.Full) : n.sorted.Pairwise fun a b => a.1 < b.1 := by
  have hle : n.sorted.Pairwise fun a b => a.1 ≤ b.1 := by
    have : Std.Total fun a b : K × V => a.1 ≤ b.1 := ⟨fun a b => le_total a.1 b.1⟩
    have : IsTrans (K × V) fun a b => a.1 ≤ b.1 := ⟨fun _ _ _ => le_trans⟩
    exact List.pairwise_insertionSort _ _
  have hne : n.sorted.Pairwise fun a b => a.1 ≠ b.1 := by
    refine ((List.perm_insertionSort _ _).pairwise_iff (fun h e => h e.symm)).mpr ?_
    rw [List.pairwise_map]
    refine List.pairwise_lt_range.imp_of_mem fun {i j} hi hj hij hk => ?_
    rw [List.mem_range] at hi hj
    exact hij.ne (h.distinct i j hi hj (hfull i hi) (hfull j hj) hk)
  exact (hle.and hne).imp fun h => lt_of_le_of_ne h.1 h.2

theorem median_eq (h : MAX_ENTRIES / 2 < n.sorted.length) : n.median = n.sorted[MAX_ENTRIES / 2].1 := by
  rw [median, List.getD_eq_getElem]
  rfl

/-- **The median** is the key of a slot. -/
theorem median_held (n : ListNode K V) : ∃ i, i < MAX_ENTRIES ∧ (n.keyArray i).1 = n.median := by
  have hlt : MAX_ENTRIES / 2 < n.sorted.length := by
    rw [length_sorted]
    have := two_le_MAX_ENTRIES
    omega
  obtain ⟨i, hi, he⟩ := mem_sorted.mp (List.getElem_mem hlt)
  exact ⟨i, hi, by rw [he, median_eq hlt]⟩

/-- A key of a full node is below the median. -/
theorem below_median (h : n.Ok fp) (hfull : n.Full) : ∃ i, i < MAX_ENTRIES ∧ (n.keyArray i).1 < n.median := by
  have htwo := two_le_MAX_ENTRIES
  have h0 : 0 < n.sorted.length := by rw [length_sorted]; omega
  have hmid : MAX_ENTRIES / 2 < n.sorted.length := by rw [length_sorted]; omega
  obtain ⟨i, hi, he⟩ := mem_sorted.mp (List.getElem_mem (l := n.sorted) h0)
  refine ⟨i, hi, ?_⟩
  rw [he, median_eq hmid]
  exact List.pairwise_iff_getElem.mp (sorted_lt h hfull) _ _ _ _ (by omega)

/-! ### The new node -/

/-- The first `count` slots of `newNode` are in use, and no others. -/
def Packed (newNode : ListNode K V) (count : ℕ) : Prop := ∀ i, newNode.bitMap i = true ↔ i < count

omit [LinearOrder K] in
theorem Packed.insertAtIndex {newNode : ListNode K V} {count : ℕ} (h : newNode.Packed count) (e : K × V) :
    (newNode.insertAtIndex e count keyHash).Packed (count + 1) := by
  intro i
  by_cases hi : i = count
  · subst hi
    simp
  · rw [(insertAtIndex_ne _ hi).2.2, h i]
    omega

/-- What copying the slots `is` does to a new node that holds none of their keys yet. -/
structure Copied (n : ListNode K V) (fp : K → UInt8) (newMin : K) (is : List ℕ) (newNode : ListNode K V)
    (r : ListNode K V × ℕ) : Prop where
  /-- Keys and fingerprints. -/
  ok : r.1.Ok fp
  /-- The slots. -/
  packed : r.1.Packed r.2
  /-- The entries. -/
  holds : ∀ k v, r.1.Holds k v ↔ newNode.Holds k v ∨ newMin ≤ k ∧ ∃ i ∈ is, n.keyArray i = (k, v)
  /-- The version of the lock. -/
  verLock : r.1.verLock = newNode.verLock
  /-- The version of the permuter. -/
  lastScanVersion : r.1.lastScanVersion = newNode.lastScanVersion

theorem copyLoop_spec (hn : n.Ok fp) (newMin : K) (is : List ℕ)
    (hfull : ∀ i ∈ is, i < MAX_ENTRIES ∧ n.bitMap i = true)
    (hnodup : is.Nodup) {newNode : ListNode K V} {count : ℕ} (hok : newNode.Ok fp)
    (hpacked : newNode.Packed count) (hroom : count + is.length ≤ MAX_ENTRIES)
    (hnew : ∀ i ∈ is, ∀ v, ¬ newNode.Holds (n.keyArray i).1 v) :
    Copied n fp newMin is newNode (n.copyLoop newMin is newNode count) ∧
      (n.copyLoop newMin is newNode count).2 = count + is.countP fun i => newMin ≤ (n.keyArray i).1 := by
  induction is generalizing newNode count with
  | nil => exact ⟨⟨hok, hpacked, by simp [copyLoop], rfl, rfl⟩, rfl⟩
  | cons i is ih =>
    obtain ⟨hlt, hbit⟩ := hfull i List.mem_cons_self
    obtain ⟨hi, hnodup⟩ := List.nodup_cons.mp hnodup
    rw [List.length_cons] at hroom
    have hfull' : ∀ j ∈ is, j < MAX_ENTRIES ∧ n.bitMap j = true := fun j hj => hfull j (.tail _ hj)
    rw [copyLoop, List.countP_cons]
    split
    · next hmin =>
      have hfree : newNode.bitMap count = false := by
        rw [← Bool.not_eq_true, hpacked count]
        omega
      have hheld : ∀ k v, (newNode.insertAtIndex (n.keyArray i) count (n.fingerPrint i)).Holds k v ↔
          newNode.Holds k v ∨ n.keyArray i = (k, v) := by
        intro k v
        rw [holds_insertAtIndex (by omega) hfree, Prod.ext_iff, eq_comm, @eq_comm _ v]
      have hok' : (newNode.insertAtIndex (n.keyArray i) count (n.fingerPrint i)).Ok fp := by
        rw [hn.hash i hlt hbit]
        exact hok.insertAtIndex (hnew i List.mem_cons_self)
      have hnew' : ∀ j ∈ is, ∀ v,
          ¬ (newNode.insertAtIndex (n.keyArray i) count (n.fingerPrint i)).Holds (n.keyArray j).1 v := by
        intro j hj v hv
        rcases (hheld _ _).mp hv with hv | hv
        · exact hnew j (.tail _ hj) v hv
        · have := hn.distinct i j hlt (hfull' j hj).1 hbit (hfull' j hj).2 (by rw [hv])
          exact hi (this ▸ hj)
      obtain ⟨hr, hcount⟩ := ih hfull' hnodup hok' (hpacked.insertAtIndex _) (by omega) hnew'
      refine ⟨⟨hr.ok, hr.packed, fun k v => ?_, hr.verLock, hr.lastScanVersion⟩, ?_⟩
      · rw [hr.holds, hheld, List.exists_mem_cons_iff]
        constructor
        · rintro ((h | h) | ⟨hk, h⟩)
          · exact .inl h
          · exact .inr ⟨by rwa [h] at hmin, .inl h⟩
          · exact .inr ⟨hk, .inr h⟩
        · rintro (h | ⟨hk, h | h⟩)
          · exact .inl (.inl h)
          · exact .inl (.inr h)
          · exact .inr ⟨hk, h⟩
      · rw [hcount]
        simp [hmin]
        omega
    · next hmin =>
      obtain ⟨hr, hcount⟩ := ih hfull' hnodup hok hpacked (by omega) fun j hj => hnew j (.tail _ hj)
      refine ⟨⟨hr.ok, hr.packed, fun k v => ?_, hr.verLock, hr.lastScanVersion⟩, by rw [hcount]; simp [hmin]⟩
      rw [hr.holds, List.exists_mem_cons_iff]
      constructor
      · rintro (h | ⟨hk, h⟩)
        · exact .inl h
        · exact .inr ⟨hk, .inr h⟩
      · rintro (h | ⟨hk, h | h⟩)
        · exact .inl h
        · exact absurd (by rwa [h]) hmin
        · exact .inr ⟨hk, h⟩

theorem copyLoop_new (h : n.Ok fp) (hfull : n.Full) (newMin : K) (g : ListNode K V) :
    Copied n fp newMin (List.range MAX_ENTRIES) g.new (n.copyLoop newMin (List.range MAX_ENTRIES) g.new 0) ∧
      (n.copyLoop newMin (List.range MAX_ENTRIES) g.new 0).2
        = (List.range MAX_ENTRIES).countP fun i => newMin ≤ (n.keyArray i).1 := by
  have hnone : ∀ k v, ¬ g.new.Holds k v := by
    rintro k v ⟨i, -, hb, -⟩
    cases hb
  have hpacked : g.new.Packed 0 := fun i => by simp [new]
  have := copyLoop_spec h newMin (List.range MAX_ENTRIES)
    (fun i hi => ⟨List.mem_range.mp hi, hfull i (List.mem_range.mp hi)⟩) List.nodup_range
    ⟨fun i j _ _ hb => (by cases hb), fun i _ hb => (by cases hb)⟩ hpacked (by simp) fun i _ v => hnone _ v
  simpa using this

omit [LinearOrder K] in
theorem holds_of_full (hfull : n.Full) : n.Holds k v ↔ ∃ i ∈ List.range MAX_ENTRIES, n.keyArray i = (k, v) := by
  simp only [List.mem_range]
  exact ⟨fun ⟨i, hi, _, hk⟩ => ⟨i, hi, hk⟩, fun ⟨i, hi, hk⟩ => ⟨i, hi, hfull i hi, hk⟩⟩

/-- Not all entries are copied. -/
theorem countP_median (h : n.Ok fp) (hfull : n.Full) :
    ((List.range MAX_ENTRIES).countP fun i => n.median ≤ (n.keyArray i).1) < MAX_ENTRIES := by
  refine lt_of_le_of_ne (List.countP_le_length.trans_eq List.length_range) fun he => ?_
  obtain ⟨i, hi, hlt⟩ := below_median h hfull
  have := List.countP_eq_length.mp (he.trans List.length_range.symm) i (List.mem_range.mpr hi)
  exact absurd hlt (by simpa using this)

/-- What both nodes of a split are, apart from where they stand: `side` says which keys they have. -/
structure Half (n : ListNode K V) (fp : K → UInt8) (key : K) (val : V) (side : K → Prop) (n' : ListNode K V) :
    Prop where
  /-- Keys and fingerprints. -/
  ok : n'.Ok fp
  /-- The entries. -/
  holds : ∀ k v, n'.Holds k v ↔ side k ∧ (n.Holds k v ∨ k = key ∧ v = val)

theorem splitNew_half (h : n.Ok fp) (hfull : n.Full) (hnew : ∀ u, ¬ n.Holds key u) (g : ListNode K V) (p : ℕ)
    (val : V) :
    Half n fp key val (n.median ≤ ·) (n.splitNew g p key val (fp key)) ∧
      (n.splitNew g p key val (fp key)).verLock = 2 ∧ (n.splitNew g p key val (fp key)).lastScanVersion = 0 := by
  obtain ⟨hc, hcount⟩ := copyLoop_new h hfull n.median g
  have hheld : ∀ k v, (n.copyLoop n.median (List.range MAX_ENTRIES) g.new 0).1.Holds k v ↔
      n.median ≤ k ∧ n.Holds k v := by
    intro k v
    rw [hc.holds, holds_of_full hfull, or_iff_right]
    rintro ⟨i, -, hb, -⟩
    cases hb
  have hlt := countP_median h hfull
  rw [← hcount] at hlt
  have hfree : (n.copyLoop n.median (List.range MAX_ENTRIES) g.new 0).1.bitMap
      (n.copyLoop n.median (List.range MAX_ENTRIES) g.new 0).2 = false := by
    rw [← Bool.not_eq_true, hc.packed]
    omega
  have hok := hc.ok
  have hver := hc.verLock
  have hscan := hc.lastScanVersion
  simp only [splitNew]
  generalize n.copyLoop n.median (List.range MAX_ENTRIES) g.new 0 = r at *
  split
  · next hmin =>
    refine ⟨⟨?_, fun k v => ?_⟩, hver, hscan⟩
    · exact (hok.insertAtIndex (v := val) (i := r.2) fun u hu => hnew u ((hheld _ _).mp hu).2).of_bitMap
        rfl rfl fun _ hj => hj
    · have := @holds_insertAtIndex K V _ key k val v (fp key) _ hlt hfree
      refine Iff.trans this ?_
      rw [hheld]
      constructor
      · rintro (⟨hk, hv⟩ | ⟨rfl, rfl⟩)
        · exact ⟨hk, .inl hv⟩
        · exact ⟨hmin, .inr ⟨rfl, rfl⟩⟩
      · rintro ⟨hk, hv | hv⟩
        · exact .inl ⟨hk, hv⟩
        · exact .inr hv
  · next hmin =>
    refine ⟨⟨hok.of_bitMap rfl rfl fun _ hj => hj, fun k v => ?_⟩, hver, hscan⟩
    refine (hheld k v).trans ?_
    constructor
    · rintro ⟨hk, hv⟩
      exact ⟨hk, .inl hv⟩
    · rintro ⟨hk, hv | ⟨rfl, -⟩⟩
      · exact ⟨hk, hv⟩
      · exact absurd hk hmin

/-! ### The old node -/

theorem resetLoop_bitMap (is : List ℕ) (bits : ℕ → Bool) (numEntries : ℕ) (removeIndex : Option ℕ) (j : ℕ) :
    (n.resetLoop newMin is bits numEntries removeIndex).1 j = true ↔
      bits j = true ∧ ¬ (j ∈ is ∧ newMin ≤ (n.keyArray j).1) := by
  induction is generalizing bits numEntries removeIndex with
  | nil => simp [resetLoop]
  | cons i is ih =>
    rw [resetLoop]
    split
    · next hmin =>
      rw [ih]
      by_cases hj : j = i
      · subst hj
        simp [hmin]
      · simp [hj]
    · next hmin =>
      rw [ih]
      by_cases hj : j = i
      · subst hj
        simp [hmin]
      · simp [hj]

theorem resetLoop_removeIndex (is : List ℕ) (bits : ℕ → Bool) (numEntries : ℕ) (removeIndex : Option ℕ) :
    (n.resetLoop newMin is bits numEntries removeIndex).2.2
      = removeIndex.or (is.find? fun i => newMin ≤ (n.keyArray i).1) := by
  induction is generalizing bits numEntries removeIndex with
  | nil => simp [resetLoop]
  | cons i is ih =>
    rw [resetLoop, List.find?_cons]
    split
    · next hmin =>
      rw [ih]
      cases removeIndex <;> simp [hmin]
    · next hmin =>
      rw [ih]
      simp [hmin]

theorem splitOld_half (h : n.Ok fp) (hnew : ∀ u, ¬ n.Holds key u) (p : ℕ) (val : V) :
    Half n fp key val (· < n.median) (n.splitOld p key val (fp key)) := by
  have hbit : ∀ j, (n.resetLoop n.median (List.range MAX_ENTRIES) n.bitMap n.getNumEntries none).1 j = true ↔
      n.bitMap j = true ∧ ¬ (j < MAX_ENTRIES ∧ n.median ≤ (n.keyArray j).1) := fun j => by
    rw [resetLoop_bitMap, List.mem_range]
  have hremove : ∃ i, i < MAX_ENTRIES ∧ n.median ≤ (n.keyArray i).1 ∧
      (n.resetLoop n.median (List.range MAX_ENTRIES) n.bitMap n.getNumEntries none).2.2 = some i := by
    rw [resetLoop_removeIndex, Option.none_or]
    obtain ⟨i, hi, hk⟩ := n.median_held
    obtain ⟨j, hj⟩ := Option.isSome_iff_exists.mp ((List.find?_isSome
      (p := fun i => n.median ≤ (n.keyArray i).1)).mpr ⟨i, List.mem_range.mpr hi, by simp [hk]⟩)
    exact ⟨j, List.mem_range.mp (List.mem_of_find?_eq_some hj), by simpa using List.find?_some hj, hj⟩
  simp only [splitOld]
  generalize n.resetLoop n.median (List.range MAX_ENTRIES) n.bitMap n.getNumEntries none = r at *
  obtain ⟨i, hi, hmin, hr⟩ := hremove
  rw [hr, Option.getD_some]
  have hok : ({ n with max := n.median, nextPtr := some p, bitMap := r.1 } : ListNode K V).Ok fp :=
    h.of_bitMap rfl rfl fun j hj => ((hbit j).mp hj).1
  have hheld : ∀ k v, ({ n with max := n.median, nextPtr := some p, bitMap := r.1 } : ListNode K V).Holds k v ↔
      k < n.median ∧ n.Holds k v := by
    intro k v
    constructor
    · rintro ⟨j, hj, hb, hk⟩
      obtain ⟨hb, hlt⟩ := (hbit j).mp hb
      replace hk : n.keyArray j = (k, v) := hk
      rw [hk] at hlt
      exact ⟨not_le.mp fun hle => hlt ⟨hj, hle⟩, j, hj, hb, hk⟩
    · rintro ⟨hlt, j, hj, hb, hk⟩
      refine ⟨j, hj, (hbit j).mpr ⟨hb, fun hle => ?_⟩, hk⟩
      rw [hk] at hle
      exact absurd hlt (not_lt.mpr hle.2)
  have hfree : ({ n with max := n.median, nextPtr := some p, bitMap := r.1 } : ListNode K V).bitMap i =
    false := by
    rw [← Bool.not_eq_true]
    exact fun hb => ((hbit i).mp hb).2 ⟨hi, hmin⟩
  split
  · next hlt =>
    refine ⟨hok.insertAtIndex fun u hu => hnew u ((hheld _ _).mp hu).2, fun k v => ?_⟩
    rw [holds_insertAtIndex hi hfree, hheld]
    constructor
    · rintro (⟨hk, hv⟩ | ⟨rfl, rfl⟩)
      · exact ⟨hk, .inl hv⟩
      · exact ⟨hlt, .inr ⟨rfl, rfl⟩⟩
    · rintro ⟨hk, hv | hv⟩
      · exact .inl ⟨hk, hv⟩
      · exact .inr hv
  · next hlt =>
    refine ⟨hok, fun k v => (hheld k v).trans ?_⟩
    constructor
    · rintro ⟨hk, hv⟩
      exact ⟨hk, .inl hv⟩
    · rintro ⟨hk, hv | ⟨rfl, -⟩⟩
      · exact ⟨hk, hv⟩
      · exact absurd hk hlt

end ListNode

end SidleBaselines.Pactree
