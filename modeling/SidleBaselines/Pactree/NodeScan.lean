import SidleBaselines.Pactree.ListNode

/-!
# Scanning a node

A scan reads a node's entries in key order through `permuter`, made anew when the node's version
is newer than the one it was made for, and begins where a binary search finds the start key.

## What is proved

* `permuterLowerBound_spec` — the search finds the first entry at or after the key.
* `scan_spec` — a scan appends the values of the entries at or after the start key, in key order,
  as many as are still wanted.
-/

namespace SidleBaselines.Pactree

namespace ListNode

variable {K V : Type} [LinearOrder K]

/-! ### What the code does -/

/-- The order of `std::sort` on pairs of a key and its slot. -/
def PairLE (a b : K × ℕ) : Prop := a.1 < b.1 ∨ a.1 = b.1 ∧ a.2 ≤ b.2

instance decidablePairLE (a b : K × ℕ) : Decidable (PairLE a b) :=
  inferInstanceAs (Decidable (a.1 < b.1 ∨ a.1 = b.1 ∧ a.2 ≤ b.2))

/-- The slots in use, by key. -/
def order (n : ListNode K V) : List ℕ :=
  ((((List.range MAX_ENTRIES).filter n.bitMap).map fun i => ((n.keyArray i).1, i)).insertionSort PairLE).map
    Prod.snd

/-- `generatePermuter`. -/
def generatePermuter (n : ListNode K V) (writeVersion : ℕ) : ListNode K V :=
  if writeVersion = n.lastScanVersion then n
  else
    { n with
      permuter := fun i => n.order[i]?.getD (n.permuter i)
      lastScanVersion := writeVersion }

/-- The loop of `permuterLowerBound`. -/
def lowerBoundLoop (n : ListNode K V) (key : K) (lower upper : ℕ) : ℕ :=
  let mid := (upper - lower) / 2 + lower
  let actualMid := n.permuter mid
  if key < (n.keyArray actualMid).1 then
    if lower < mid then lowerBoundLoop n key lower mid else lower
  else if (n.keyArray actualMid).1 < key then
    if mid + 1 < upper then lowerBoundLoop n key (mid + 1) upper else mid + 1
  else mid
termination_by upper - lower

/-- `permuterLowerBound`. -/
def permuterLowerBound (n : ListNode K V) (key : K) : ℕ := n.lowerBoundLoop key 0 n.getNumEntries

/-- `scan`: whether it has come to the end, the vector, and the node. -/
def scan (n : ListNode K V) (startKey : K) (range : ℕ) (rangeVector : List V) (writeVersion : ℕ) :
    Bool × List V × ListNode K V :=
  match n.nextPtr with
  | none => (true, rangeVector, n)
  | some _ =>
    let todo := range - rangeVector.length
    let numEntries := n.getNumEntries
    let n := if n.lastScanVersion < writeVersion then n.generatePermuter writeVersion else n
    let startIndex := if n.min < startKey then n.permuterLowerBound startKey else 0
    let rangeVector := rangeVector ++
      ((List.range' startIndex (numEntries - startIndex)).take todo).map fun i => (n.keyArray (n.permuter i)).2
    (rangeVector.length == range, rangeVector, n)

/-! ### The order of the slots -/

variable {n : ListNode K V} {fp : K → UInt8} {key : K} {i j : ℕ}

theorem mem_order : i ∈ n.order ↔ i < MAX_ENTRIES ∧ n.bitMap i = true := by
  simp [order]

theorem length_order : n.order.length = n.getNumEntries := by
  simp [order, getNumEntries, List.countP_eq_length_filter]

/-- The entries in key order. -/
def entries (n : ListNode K V) : List (K × V) := n.order.map n.keyArray

theorem mem_entries {e : K × V} : e ∈ n.entries ↔ n.Holds e.1 e.2 := by
  simp only [entries, List.mem_map, mem_order, Holds]
  exact ⟨fun ⟨i, ⟨hi, hb⟩, he⟩ => ⟨i, hi, hb, he⟩, fun ⟨i, hi, hb, he⟩ => ⟨i, ⟨hi, hb⟩, he⟩⟩

theorem length_entries : n.entries.length = n.getNumEntries := by rw [entries, List.length_map, length_order]

/-- They are strictly ascending. -/
theorem Ok.entries_sorted (h : n.Ok fp) : n.entries.Pairwise fun a b => a.1 < b.1 := by
  rw [entries, List.pairwise_map, order, List.pairwise_map]
  have : Std.Total (PairLE (K := K)) := ⟨fun a b => by
    rcases lt_trichotomy a.1 b.1 with hab | hab | hab
    · exact .inl (.inl hab)
    · rcases le_total a.2 b.2 with hle | hle
      · exact .inl (.inr ⟨hab, hle⟩)
      · exact .inr (.inr ⟨hab.symm, hle⟩)
    · exact .inr (.inl hab)⟩
  have : IsTrans (K × ℕ) PairLE := ⟨fun a b c hab hbc => by
    rcases hab with hab | ⟨hab, hab'⟩ <;> rcases hbc with hbc | ⟨hbc, hbc'⟩
    · exact .inl (hab.trans hbc)
    · exact .inl (hbc ▸ hab)
    · exact .inl (hab ▸ hbc)
    · exact .inr ⟨hab.trans hbc, hab'.trans hbc'⟩⟩
  have hsort := List.pairwise_insertionSort PairLE
    (((List.range MAX_ENTRIES).filter n.bitMap).map fun i => ((n.keyArray i).1, i))
  have hmem : ∀ a ∈
      (((List.range MAX_ENTRIES).filter n.bitMap).map fun i => ((n.keyArray i).1, i)).insertionSort PairLE,
      a.2 < MAX_ENTRIES ∧ n.bitMap a.2 = true ∧ a.1 = (n.keyArray a.2).1 := by
    intro a ha
    simp only [List.mem_insertionSort, List.mem_map, List.mem_filter, List.mem_range] at ha
    obtain ⟨i, ⟨hi, hb⟩, rfl⟩ := ha
    exact ⟨hi, hb, rfl⟩
  have hnodup : ((((List.range MAX_ENTRIES).filter n.bitMap).map fun i => ((n.keyArray i).1, i)).insertionSort
      PairLE).Nodup := by
    refine (List.perm_insertionSort _ _).nodup_iff.mpr ?_
    exact ((List.nodup_range).filter _).map fun i j hij => (Prod.mk.inj hij).2
  refine (hsort.and hnodup).imp_of_mem fun {a b} ha hb hab => ?_
  obtain ⟨ha1, ha2, ha3⟩ := hmem a ha
  obtain ⟨hb1, hb2, hb3⟩ := hmem b hb
  obtain ⟨hle, hne⟩ := hab
  rw [← ha3, ← hb3]
  refine hle.resolve_right fun he => hne (Prod.ext he.1 ?_)
  exact h.distinct _ _ ha1 hb1 ha2 hb2 (by rw [← ha3, ← hb3, he.1])

/-- The permuter has the order of the slots. -/
def Permuted (n : ListNode K V) : Prop := ∀ i, i < n.getNumEntries → n.order[i]? = some (n.permuter i)

/-- Read through the permuter, the entries. -/
theorem Permuted.getElem (h : n.Permuted) (hi : i < n.entries.length) :
    n.keyArray (n.permuter i) = n.entries[i] := by
  have := h i (by rwa [← length_entries])
  obtain ⟨hlt, he⟩ := List.getElem?_eq_some_iff.mp this
  simp only [entries, List.getElem_map, he]

theorem generatePermuter_permuted {writeVersion : ℕ} (h : writeVersion ≠ n.lastScanVersion) :
    (n.generatePermuter writeVersion).Permuted := by
  intro i hi
  rw [generatePermuter, if_neg h] at hi ⊢
  have hlt : i < n.order.length := by rw [length_order]; exact hi
  change n.order[i]? = some (n.order[i]?.getD (n.permuter i))
  rw [List.getElem?_eq_getElem hlt, Option.getD_some]

/-! ### The binary search -/

theorem lowerBoundLoop_spec (h : n.Ok fp) (hp : n.Permuted) {lower upper : ℕ} (hle : lower ≤ upper)
    (hupper : upper ≤ n.entries.length)
    (hbelow : ∀ i (hi : i < n.entries.length), i < lower → n.entries[i].1 < key)
    (habove : ∀ i (hi : i < n.entries.length), upper ≤ i → key ≤ n.entries[i].1) :
    ∀ i (hi : i < n.entries.length), n.entries[i].1 < key ↔ i < n.lowerBoundLoop key lower upper := by
  have mono : ∀ i j (hi : i < n.entries.length) (hj : j < n.entries.length), i < j →
      n.entries[i].1 < n.entries[j].1 := fun i j hi hj hij =>
    List.pairwise_iff_getElem.mp h.entries_sorted i j hi hj hij
  fun_induction lowerBoundLoop n key lower upper with
  | case1 lower upper mid actualMid hlt hmid ih =>
    have hm : mid < n.entries.length := by omega
    refine ih (by omega) (by omega) hbelow fun i hi hge => ?_
    rw [hp.getElem hm] at hlt
    rcases hge.lt_or_eq with hij | rfl
    · exact (hlt.trans (mono _ _ hm hi hij)).le
    · exact hlt.le
  | case2 lower upper mid actualMid hlt hmid =>
    intro i hi
    refine ⟨fun hk => ?_, hbelow i hi⟩
    by_contra hge
    rcases Nat.lt_or_ge i upper with hu | hu
    · have hm : mid < n.entries.length := by omega
      rw [hp.getElem hm] at hlt
      have him : i = mid := by omega
      subst him
      exact absurd hk hlt.not_gt
    · exact absurd hk (habove i hi hu).not_gt
  | case3 lower upper mid actualMid hnlt hgt hmid ih =>
    have hm : mid < n.entries.length := by omega
    refine ih (by omega) hupper (fun i hi hij => ?_) habove
    rw [hp.getElem hm] at hgt
    rcases Nat.lt_succ_iff_lt_or_eq.mp hij with hij | rfl
    · exact (mono _ _ hi hm hij).trans hgt
    · exact hgt
  | case4 lower upper mid actualMid hnlt hgt hmid =>
    intro i hi
    refine ⟨fun hk => ?_, fun hij => ?_⟩
    · by_contra hge
      exact absurd hk (habove i hi (by omega)).not_gt
    · rcases Nat.lt_or_ge mid n.entries.length with hm | hm
      · rw [hp.getElem hm] at hgt
        rcases Nat.lt_succ_iff_lt_or_eq.mp hij with hij | rfl
        · exact (mono _ _ hi hm hij).trans hgt
        · exact hgt
      · exact hbelow i hi (by omega)
  | case5 lower upper mid actualMid hnlt hngt =>
    intro i hi
    rcases Nat.lt_or_ge mid n.entries.length with hm | hm
    · rw [hp.getElem hm] at hnlt hngt
      have heq : n.entries[mid].1 = key := le_antisymm (not_lt.mp hnlt) (not_lt.mp hngt)
      constructor
      · intro hk
        by_contra hge
        rcases Nat.lt_or_ge mid i with hij | hij
        · exact absurd (hk.trans_eq heq.symm) (mono _ _ hm hi hij).not_gt
        · have him : i = mid := by omega
          subst him
          exact absurd hk (heq ▸ lt_irrefl _)
      · intro hij
        exact (mono _ _ hi hm hij).trans_eq heq
    · exact ⟨fun hk => by omega, fun hij => hbelow i hi (by omega)⟩

/-- **The binary search** finds how many entries are before the key. -/
theorem permuterLowerBound_spec (h : n.Ok fp) (hp : n.Permuted) :
    ∀ i (hi : i < n.entries.length), n.entries[i].1 < key ↔ i < n.permuterLowerBound key :=
  lowerBoundLoop_spec h hp (Nat.zero_le _) length_entries.ge (fun _ _ h => absurd h (by omega)) fun i hi hge =>
    absurd hge (by rw [← length_entries]; omega)

/-! ### The scan -/

/-- The entries from the `r`-th on, where the first `r` are those before the key. -/
theorem drop_eq_filter {l : List (K × V)} {r : ℕ} (h : ∀ i (hi : i < l.length), l[i].1 < key ↔ i < r) :
    l.drop r = l.filter fun e => key ≤ e.1 := by
  induction l generalizing r with
  | nil => simp
  | cons e l ih =>
    have h0 := h 0 (by simp)
    cases r with
    | zero =>
      rw [List.drop_zero, List.filter_eq_self.mpr]
      intro e' he'
      obtain ⟨i, hi, rfl⟩ := List.mem_iff_getElem.mp he'
      exact decide_eq_true (not_lt.mp fun hlt => absurd ((h i hi).mp hlt) (by omega))
    | succ r =>
      have hrest : ∀ i (hi : i < l.length), l[i].1 < key ↔ i < r := by
        intro i hi
        have := h (i + 1) (Nat.succ_lt_succ hi)
        rwa [List.getElem_cons_succ, Nat.add_lt_add_iff_right] at this
      rw [List.drop_succ_cons, List.filter_cons_of_neg (by simpa using h0), ih hrest]

/-- Read through the permuter from `r` on, the entries but the first `r`. -/
theorem Permuted.map_range' (hp : n.Permuted) (r : ℕ) :
    ((List.range' r (n.getNumEntries - r)).map fun i => n.keyArray (n.permuter i)) = n.entries.drop r := by
  refine List.ext_getElem (by simp [length_entries]) fun i hi hi' => ?_
  have hlt : r + i < n.entries.length := by rw [List.length_drop] at hi'; omega
  rw [List.getElem_map, List.getElem_range', List.getElem_drop, one_mul, hp.getElem hlt]

/-- The permuter is good for the node's version: made for it, or older. -/
def Cached (n : ListNode K V) : Prop := n.lastScanVersion < n.verLock ∨ n.Permuted

/-- The node a scan leaves: only the permuter is new. -/
def rescan (n : ListNode K V) : ListNode K V :=
  if n.lastScanVersion < n.verLock then n.generatePermuter n.verLock else n

theorem rescan_eq (n : ListNode K V) :
    n.rescan = { n with permuter := n.rescan.permuter, lastScanVersion := n.rescan.lastScanVersion } := by
  simp only [rescan, generatePermuter]
  split_ifs <;> rfl

theorem rescan_entries (n : ListNode K V) : n.rescan.entries = n.entries := by rw [rescan_eq]; rfl

theorem rescan_holds {k : K} {v : V} : n.rescan.Holds k v ↔ n.Holds k v := by rw [rescan_eq]; rfl

theorem Ok.rescan (h : n.Ok fp) : n.rescan.Ok fp := by
  rw [rescan_eq]
  exact h.of_bitMap rfl rfl fun _ hj => hj

theorem Cached.rescan (h : n.Cached) : n.rescan.Permuted := by
  rw [ListNode.rescan]
  split
  · next hlt => exact generatePermuter_permuted (by omega)
  · next hlt => exact h.resolve_left hlt

/-- **A scan** of a node appends the values at or after the start key, in key order, as many as
are still wanted. -/
theorem scan_spec (h : n.Ok fp) (hc : n.Cached) (hmin : ∀ k v, n.Holds k v → n.min ≤ k) {next : ℕ}
    (hnext : n.nextPtr = some next) (startKey : K) (range : ℕ) (rangeVector : List V) :
    n.scan startKey range rangeVector n.verLock =
      let more := (((n.entries.filter fun e => startKey ≤ e.1).take (range - rangeVector.length)).map Prod.snd)
      ((rangeVector ++ more).length == range, rangeVector ++ more, n.rescan) := by
  have hperm := hc.rescan
  have hok := h.rescan
  have hnum : n.getNumEntries = n.rescan.getNumEntries := by
    rw [← length_entries, ← length_entries, rescan_entries]
  have hdrop : n.rescan.entries.drop (if n.rescan.min < startKey then n.rescan.permuterLowerBound startKey else 0)
      = n.entries.filter fun e => startKey ≤ e.1 := by
    rw [← rescan_entries n]
    split
    · exact drop_eq_filter (permuterLowerBound_spec hok hperm)
    · next hle =>
      rw [List.drop_zero, List.filter_eq_self.mpr]
      intro e he
      have hmin' : n.rescan.min = n.min := by rw [rescan_eq]
      rw [hmin', not_lt] at hle
      exact decide_eq_true (hle.trans (hmin _ _ (rescan_holds.mp (mem_entries.mp he))))
  rw [scan, hnext]
  simp only
  rw [show (if n.lastScanVersion < n.verLock then n.generatePermuter n.verLock else n) = n.rescan from rfl,
    hnum, ← hdrop, ← hperm.map_range', ← List.map_take, List.map_map]
  rfl

end ListNode

end SidleBaselines.Pactree
