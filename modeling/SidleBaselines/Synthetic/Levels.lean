import SidleBaselines.Data.Groups
import SidleBaselines.Synthetic.Histogram

/-!
# The levels of the internal-node statistics

`src/benchmark/synthetic/false_positive_internode.cpp` reads how often each key
was accessed and adds the counts up level by level, sixteen entries to a parent.
`refresh_zipf_dist` makes one level from the level below: it walks over the list
sixteen positions at a time, names the parent after the first entry's key and
reads all sixteen counts, so a list whose length is no multiple of sixteen is
read beyond its end; the loop leaves nothing to the branch for the rest that
follows it.

Keys and counts are naturals; the sums of counts wrap at `2 ^ 64`. A read beyond
the end of the list makes the call `none`.

## What is proved

* `refreshZipfDist_eq`, `refreshZipfDist_none` — a call succeeds exactly on the
  lists whose length is a multiple of sixteen, and then makes the list cut into
  pieces by position;
* `levels_aggregate` — it aggregates an ascending list by parents if and only if
  all the sixteen children of each parent are in the list.
-/

namespace SidleBaselines.Synthetic

open SidleBaselines.Data

/-! ### One level -/

/-- `constexpr int ENTRIES_COUNT`. -/
def EntriesCount : ℕ := 16

/-- The variables of `main` that `refresh_zipf_dist` captures. -/
structure Levels where
  zipfDist : List (ℕ × ℕ)
  newZipfDist : List (ℕ × ℕ) := []
  totalNumber : ℕ := 0
  totalAccessCount : ℕ := 0
  histogram : SidleHistogram := {}
  deriving DecidableEq, Repr

/-- `for (k = j; k < j + n; ++k) value += zipf_dist[k].second`. -/
def sumCounts (zipfDist : List (ℕ × ℕ)) (j : ℕ) : ℕ → ℕ → Option ℕ
  | 0, value => some value
  | n + 1, value => do
    let p ← zipfDist[j]?
    sumCounts zipfDist (j + 1) n ((value + p.2) % 2 ^ 64)

/-- The body of the loop over `j`. -/
def addParent (s : Levels) (j : ℕ) : Option Levels := do
  let p ← s.zipfDist[j]?
  let value ← sumCounts s.zipfDist j EntriesCount 0
  return { s with
    newZipfDist := s.newZipfDist ++ [(p.1 / EntriesCount, value)]
    histogram := (s.histogram.update value).2
    totalNumber := s.totalNumber + 1
    totalAccessCount := (s.totalAccessCount + value) % 2 ^ 64 }

theorem addParent_zipfDist {s s' : Levels} {j : ℕ} (h : addParent s j = some s') :
    s'.zipfDist = s.zipfDist := by
  simp only [addParent, Option.bind_eq_bind, Option.bind_eq_some_iff, Option.pure_def, Option.some.injEq] at h
  obtain ⟨_, -, _, -, rfl⟩ := h
  rfl

/-- `for (; j < zipf_dist_size; j += ENTRIES_COUNT)`, with the final `j`. -/
def parentLoop (s : Levels) (j : ℕ) : Option (ℕ × Levels) :=
  if j < s.zipfDist.length then
    match _h : addParent s j with
    | none => none
    | some s' => parentLoop s' (j + EntriesCount)
  else some (j, s)
termination_by s.zipfDist.length - j
decreasing_by
  rw [addParent_zipfDist ‹_›]
  simp only [EntriesCount]
  omega

/-- The branch after the loop, for a rest the loop has left. -/
def addRest (s : Levels) (j : ℕ) : Option Levels :=
  if j < s.zipfDist.length then do
    let p ← s.zipfDist[j]?
    let value ← sumCounts s.zipfDist j (s.zipfDist.length - j) 0
    return { s with
      newZipfDist := s.newZipfDist ++ [(p.1 / EntriesCount, value)]
      histogram := (s.histogram.update value).2 }
  else some s

/-- `refresh_zipf_dist`. -/
def refreshZipfDist (s : Levels) : Option Levels := do
  let (j, s) ← parentLoop { s with newZipfDist := [], totalNumber := 0, totalAccessCount := 0 } 0
  let s ← addRest s j
  return { s with
    histogram := (s.histogram.refresh s.totalNumber s.totalAccessCount).adjustThreshold }

/-! ### What a call makes -/

/-- The accesses of a list of entries. -/
def accesses (l : List (ℕ × ℕ)) : ℕ :=
  (l.map (·.2)).sum

theorem accesses_append (l m : List (ℕ × ℕ)) : accesses (l ++ m) = accesses l + accesses m := by
  simp [accesses]

theorem accesses_take_add_drop (l : List (ℕ × ℕ)) (n : ℕ) :
    accesses (l.take n) + accesses (l.drop n) = accesses l := by
  rw [← accesses_append, List.take_append_drop]

/-- The entries of the list cut into pieces by position. -/
def byPosition (l : List (ℕ × ℕ)) : List (ℕ × ℕ) :=
  pieces EntriesCount (fun g => accesses g % 2 ^ 64) l

theorem entriesCount_pos : 0 < EntriesCount := by decide

theorem sumCounts_eq (l : List (ℕ × ℕ)) (j n value : ℕ) (hn : j + n ≤ l.length) (hv : value < 2 ^ 64) :
    sumCounts l j n value = some ((value + accesses ((l.drop j).take n)) % 2 ^ 64) := by
  induction n generalizing j value with
  | zero =>
    rw [sumCounts, List.take_zero, accesses, List.map_nil, List.sum_nil, Nat.add_zero, Nat.mod_eq_of_lt hv]
  | succ n ih =>
    have hj : j < l.length := by omega
    have hget : l[j]? = some l[j] := List.getElem?_eq_getElem hj
    have hcons : (l.drop j).take (n + 1) = l[j] :: (l.drop (j + 1)).take n := by
      rw [List.drop_eq_getElem_cons hj, List.take_succ_cons]
    rw [sumCounts, hget, Option.bind_eq_bind, Option.bind_some,
      ih (j + 1) _ (by omega) (Nat.mod_lt _ (by omega)), hcons]
    simp only [accesses, List.map_cons, List.sum_cons]
    congr 1
    omega

/-- Summing beyond the end of the list reads what is not there. -/
theorem sumCounts_none (l : List (ℕ × ℕ)) (j n value : ℕ) (hj : j ≤ l.length) (hn : l.length < j + n) :
    sumCounts l j n value = none := by
  induction n generalizing j value with
  | zero => omega
  | succ n ih =>
    by_cases h : j < l.length
    · rw [sumCounts, List.getElem?_eq_getElem h, Option.bind_eq_bind, Option.bind_some]
      exact ih (j + 1) _ (by omega) (by omega)
    · rw [sumCounts, List.getElem?_eq_none (by omega)]
      rfl

section parentLoop

variable {s : Levels} {j : ℕ}

theorem parentLoop_step {s' : Levels} (hj : j < s.zipfDist.length) (h : addParent s j = some s') :
    parentLoop s j = parentLoop s' (j + EntriesCount) := by
  rw [parentLoop, if_pos hj]
  split
  · rename_i hnone
    rw [h] at hnone
    cases hnone
  · rename_i s₁ hs₁
    rw [h, Option.some.injEq] at hs₁
    rw [hs₁]

theorem parentLoop_stuck (hj : j < s.zipfDist.length) (h : addParent s j = none) : parentLoop s j = none := by
  rw [parentLoop, if_pos hj]
  split
  · rfl
  · rename_i s₁ hs₁
    rw [h] at hs₁
    cases hs₁

theorem parentLoop_done (hj : ¬ j < s.zipfDist.length) : parentLoop s j = some (j, s) := by
  rw [parentLoop, if_neg hj]

end parentLoop

/-- What the loop has made of the entries from `j` on, when it goes from `s` to `s'`. -/
structure Summed (s : Levels) (j : ℕ) (s' : Levels) : Prop where
  zipfDist : s'.zipfDist = s.zipfDist
  newZipfDist : s'.newZipfDist = s.newZipfDist ++ byPosition (s.zipfDist.drop j)
  number : s'.totalNumber = s.totalNumber + (byPosition (s.zipfDist.drop j)).length
  accesses : s'.totalAccessCount = (s.totalAccessCount + accesses (s.zipfDist.drop j)) % 2 ^ 64

/-- One step of the loop, with sixteen entries from `j` on. -/
theorem addParent_eq (s : Levels) (j : ℕ) (hj : j + EntriesCount ≤ s.zipfDist.length) :
    ∃ s', addParent s j = some s' ∧ s'.zipfDist = s.zipfDist ∧ s'.totalNumber = s.totalNumber + 1 ∧
      s'.newZipfDist.length = s.newZipfDist.length + 1 ∧
      s'.newZipfDist ++ byPosition (s.zipfDist.drop (j + EntriesCount)) =
        s.newZipfDist ++ byPosition (s.zipfDist.drop j) ∧
      s'.totalAccessCount =
        (s.totalAccessCount + accesses ((s.zipfDist.drop j).take EntriesCount)) % 2 ^ 64 := by
  have hlt : j < s.zipfDist.length := by
    have := entriesCount_pos
    omega
  have hsum := sumCounts_eq s.zipfDist j EntriesCount 0 hj (by omega)
  rw [Nat.zero_add] at hsum
  rw [addParent, List.getElem?_eq_getElem hlt, Option.bind_eq_bind, Option.bind_some, hsum]
  refine ⟨_, rfl, rfl, rfl, by simp, ?_, ?_⟩
  · have hcons : s.zipfDist.drop j = s.zipfDist[j] :: s.zipfDist.drop (j + 1) := List.drop_eq_getElem_cons hlt
    have hdrop : s.zipfDist.drop (j + EntriesCount) = (s.zipfDist.drop j).drop EntriesCount := by
      rw [List.drop_drop]
    rw [hdrop, byPosition, byPosition, hcons, pieces_cons _ entriesCount_pos, List.append_assoc]
    rfl
  · show (_ + _ % _) % _ = _
    omega

/-- One step of the loop, with fewer than sixteen entries from `j` on. -/
theorem addParent_none (s : Levels) (j : ℕ) (hj : j < s.zipfDist.length)
    (hlen : s.zipfDist.length < j + EntriesCount) : addParent s j = none := by
  have hsum := sumCounts_none s.zipfDist j EntriesCount 0 (by omega) hlen
  rw [addParent, List.getElem?_eq_getElem hj, Option.bind_eq_bind, Option.bind_some, hsum]
  rfl

/-- The loop over a list with a multiple of sixteen entries left. -/
theorem parentLoop_eq (s : Levels) (j : ℕ) (hj : j ≤ s.zipfDist.length)
    (hlen : (s.zipfDist.length - j) % EntriesCount = 0) (hacc : s.totalAccessCount < 2 ^ 64) :
    ∃ s', parentLoop s j = some (s.zipfDist.length, s') ∧ Summed s j s' := by
  induction s, j using parentLoop.induct with
  | case1 s j hlt hnone =>
    have hle : j + EntriesCount ≤ s.zipfDist.length := by
      have := Nat.le_of_dvd (by omega) (Nat.dvd_of_mod_eq_zero hlen)
      omega
    obtain ⟨s', hsome, -⟩ := addParent_eq s j hle
    rw [hnone] at hsome
    cases hsome
  | case2 s j hlt s₁ hsome ih =>
    have hle : j + EntriesCount ≤ s.zipfDist.length := by
      have := Nat.le_of_dvd (by omega) (Nat.dvd_of_mod_eq_zero hlen)
      omega
    obtain ⟨s₂, hs₂, hdist, hnumber, hmore, hnew, htotal⟩ := addParent_eq s j hle
    rw [hsome, Option.some.injEq] at hs₂
    subst hs₂
    have hrest : (s₁.zipfDist.length - (j + EntriesCount)) % EntriesCount = 0 := by
      rw [hdist, ← Nat.sub_sub, ← Nat.mod_eq_sub_mod (by omega), hlen]
    have hmod : s₁.totalAccessCount < 2 ^ 64 := by
      rw [htotal]
      exact Nat.mod_lt _ (by omega)
    obtain ⟨s', hloop, hs'⟩ := ih (by rw [hdist]; exact hle) hrest hmod
    refine ⟨s', ?_, ?_⟩
    · rw [parentLoop_step hlt hsome, hloop, hdist]
    · have hlength := congrArg List.length hnew
      have htake := accesses_take_add_drop (s.zipfDist.drop j) EntriesCount
      rw [List.drop_drop] at htake
      refine ⟨hs'.zipfDist.trans hdist, ?_, ?_, ?_⟩
      · rw [hs'.newZipfDist, hdist, hnew]
      · rw [hs'.number, hnumber, hdist]
        simp only [List.length_append] at hlength
        omega
      · rw [hs'.accesses, htotal, hdist, ← htake]
        omega
  | case3 s j hge =>
    have hj' : j = s.zipfDist.length := by omega
    subst hj'
    refine ⟨s, ?_, ?_⟩
    · exact parentLoop_done hge
    · constructor
      · rfl
      · simp [byPosition]
      · simp [byPosition]
      · rw [List.drop_length, Synthetic.accesses, List.map_nil, List.sum_nil, Nat.add_zero,
        Nat.mod_eq_of_lt hacc]

/-- The loop over a list with another number of entries left reads beyond its end. -/
theorem parentLoop_none (s : Levels) (j : ℕ) (hj : j ≤ s.zipfDist.length)
    (hlen : (s.zipfDist.length - j) % EntriesCount ≠ 0) : parentLoop s j = none := by
  induction s, j using parentLoop.induct with
  | case1 s j hlt hnone =>
    exact parentLoop_stuck hlt hnone
  | case2 s j hlt s₁ hsome ih =>
    have hdist := addParent_zipfDist hsome
    have hle : j + EntriesCount ≤ s.zipfDist.length := by
      by_contra hlt'
      rw [addParent_none s j hlt (by omega)] at hsome
      cases hsome
    have hrest : (s₁.zipfDist.length - (j + EntriesCount)) % EntriesCount ≠ 0 := by
      rw [hdist, ← Nat.sub_sub, ← Nat.mod_eq_sub_mod (by omega)]
      exact hlen
    rw [parentLoop_step hlt hsome]
    exact ih (by rw [hdist]; exact hle) hrest
  | case3 s j hge =>
    have hj' : j = s.zipfDist.length := by omega
    subst hj'
    simp at hlen

/-- A call on a list whose length is a multiple of sixteen cuts it by position. -/
theorem refreshZipfDist_eq (s : Levels) (hlen : s.zipfDist.length % EntriesCount = 0) :
    ∃ s', refreshZipfDist s = some s' ∧ s'.zipfDist = s.zipfDist ∧ s'.newZipfDist = byPosition s.zipfDist ∧
      s'.totalNumber = s'.newZipfDist.length ∧ s'.totalAccessCount = accesses s.zipfDist % 2 ^ 64 := by
  let s₀ : Levels := { s with newZipfDist := [], totalNumber := 0, totalAccessCount := 0 }
  obtain ⟨s₁, hloop, hs₁⟩ := parentLoop_eq s₀ 0 (Nat.zero_le _) hlen (Nat.two_pow_pos 64)
  have hrest : addRest s₁ s.zipfDist.length = some s₁ := by
    rw [addRest, hs₁.zipfDist, if_neg (Nat.lt_irrefl _)]
  have hnew : s₁.newZipfDist = byPosition s.zipfDist := hs₁.newZipfDist
  have hnumber : s₁.totalNumber = 0 + (byPosition s.zipfDist).length := hs₁.number
  have htotal : s₁.totalAccessCount = (0 + accesses s.zipfDist) % 2 ^ 64 := hs₁.accesses
  refine ⟨{ s₁ with histogram := (s₁.histogram.refresh s₁.totalNumber s₁.totalAccessCount).adjustThreshold },
    ?_, hs₁.zipfDist, hnew, ?_, ?_⟩
  · rw [refreshZipfDist, hloop, Option.bind_eq_bind, Option.bind_some]
    show (addRest s₁ s.zipfDist.length).bind _ = _
    rw [hrest]
    rfl
  · show s₁.totalNumber = s₁.newZipfDist.length
    rw [hnumber, hnew, Nat.zero_add]
  · show s₁.totalAccessCount = _
    rw [htotal, Nat.zero_add]

/-- A call on any other list reads beyond its end. -/
theorem refreshZipfDist_none (s : Levels) (hlen : s.zipfDist.length % EntriesCount ≠ 0) :
    refreshZipfDist s = none := by
  let s₀ : Levels := { s with newZipfDist := [], totalNumber := 0, totalAccessCount := 0 }
  have hloop := parentLoop_none s₀ 0 (Nat.zero_le _) hlen
  rw [refreshZipfDist, hloop]
  rfl

/-! ### Pieces and parents -/

/-- What a call is to make of the list `l`. -/
structure Aggregates (l : List (ℕ × ℕ)) (s : Levels) : Prop where
  /-- The entries are in ascending key order. -/
  ascending : Ascending s.newZipfDist
  /-- There is an entry for each parent, with the sum of its children's counts. -/
  entries : ∀ key value, (key, value) ∈ s.newZipfDist ↔
    (∃ p ∈ l, p.1 / EntriesCount = key) ∧ value = accesses (groupOf EntriesCount l key)
  number : s.totalNumber = s.newZipfDist.length
  accesses : s.totalAccessCount = accesses l

theorem accesses_groupOf_le (l : List (ℕ × ℕ)) (key : ℕ) :
    accesses (groupOf EntriesCount l key) ≤ accesses l :=
  List.Sublist.sum_le_sum (List.filter_sublist.map _) (fun _ _ => Nat.zero_le _)

/-- A call aggregates an ascending list by parents if and only if all the sixteen
children of each parent are in the list. -/
theorem levels_aggregate (s : Levels) (hasc : s.zipfDist.Pairwise (·.1 < ·.1))
    (hsum : accesses s.zipfDist < 2 ^ 64) :
    (∃ s', refreshZipfDist s = some s' ∧ Aggregates s.zipfDist s') ↔
      ∀ p ∈ s.zipfDist, ∀ i < EntriesCount,
        ∃ count, (EntriesCount * (p.1 / EntriesCount) + i, count) ∈ s.zipfDist := by
  constructor
  · rintro ⟨s', hs', hagg⟩
    have hlen : s.zipfDist.length % EntriesCount = 0 := by
      by_contra hne
      rw [refreshZipfDist_none s hne] at hs'
      cases hs'
    obtain ⟨s₁, hs₁, -, hnew, -, -⟩ := refreshZipfDist_eq s hlen
    rw [hs', Option.some.injEq] at hs₁
    subst hs₁
    have hpieces := hagg.ascending
    rw [hnew] at hpieces
    refine full_of_pieces _ entriesCount_pos hasc hlen hpieces ?_
    intro p hp
    have he := (hagg.entries (p.1 / EntriesCount) _).mpr ⟨⟨p, hp, rfl⟩, rfl⟩
    rw [hnew] at he
    exact ⟨_, he, rfl⟩
  · intro hfull
    replace hfull : Full EntriesCount s.zipfDist := hfull
    have hlen := hfull.length_mod entriesCount_pos hasc
    obtain ⟨s', hs', -, hnew, hnumber, htotal⟩ := refreshZipfDist_eq s hlen
    refine ⟨s', hs', ?_, ?_, hnumber, ?_⟩
    · rw [hnew]
      exact hfull.pieces_ascending _ entriesCount_pos hasc
    · intro key value
      have hle := accesses_groupOf_le s.zipfDist key
      rw [hnew, byPosition, hfull.mem_pieces _ entriesCount_pos hasc, Nat.mod_eq_of_lt (by omega)]
    · rw [htotal, Nat.mod_eq_of_lt hsum]

/-- Sixteen children of one parent. -/
theorem levels_aggregate_one :
    ∃ s', refreshZipfDist { zipfDist := (List.range 16).map (fun i => (i, 1)) } = some s' ∧
      Aggregates ((List.range 16).map (fun i => (i, 1))) s' := by
  refine (levels_aggregate { zipfDist := (List.range 16).map (fun i => (i, 1)) } (by decide) (by decide)).mpr ?_
  intro p hp i hi
  simp only [List.mem_map, List.mem_range] at hp ⊢
  obtain ⟨j, hj, rfl⟩ := hp
  refine ⟨1, i, hi, ?_⟩
  rw [EntriesCount, Nat.div_eq_of_lt hj, Nat.mul_zero, Nat.zero_add]

/-- A single entry has its successors read beyond the end of the list. -/
theorem level_overread :
    ¬ ∀ s : Levels, s.zipfDist.Pairwise (·.1 < ·.1) → accesses s.zipfDist < 2 ^ 64 →
      ∃ s', refreshZipfDist s = some s' ∧ Aggregates s.zipfDist s' := by
  intro h
  obtain ⟨s', hs', -⟩ := h { zipfDist := [(7, 3)] } (by decide) (by decide)
  rw [refreshZipfDist_none _ (by decide)] at hs'
  cases hs'

end SidleBaselines.Synthetic
