import SidleBaselines.Data.Ranges
import Mathlib.Data.Int.Log
import Mathlib.Data.Rat.Floor
import Mathlib.Data.List.Sort
import Mathlib.Data.List.Forall2

/-!
# Skewed key vectors

`generate_skew_workload` of `src/benchmark/synthetic/micro_common.h` makes key
vectors in which a range of the sorted keys is hot. It copies the keys with the hot
range first, draws for each position whether the query is hot, and then an index of
the hot part or of the rest. One version overwrites the vector it is given; the other
fills a vector for each round, with the hot range moved on from round to round and
clamped to the end of the keys.

## The model

Accesses outside a vector and a uniform distribution whose lower bound is above its
upper bound make a call `none`. The random engines are those of the library: a
distribution draws any number within its bounds and leaves the engine in some state.
The sizes are computed in double precision: `toDouble` rounds a number to the nearest
double, in the range the sizes come from.

## What is proved

* `hotFirst_eq` — the three copies tile the vector;
* `drawLoop_eq` — the loop writes the keys at the indexes that are drawn;
* `drawIndexes_mem` — hot draws are of the hot part, cold draws of the rest;
* `skew_rounds` — every round of the version with several targets fills its target so.
-/

namespace SidleBaselines.Synthetic

open SidleBaselines.Data

/-! ### Doubles -/

/-- The nearest integer, a tie going to the even one. -/
def roundEven (q : ℚ) : ℤ :=
  let f := ⌊q⌋
  if q - f < 1 / 2 then f
  else if 1 / 2 < q - f then f + 1
  else if f % 2 = 0 then f else f + 1

/-- The nearest number with 53 significant bits. -/
def toDouble (q : ℚ) : ℚ :=
  if q = 0 then 0
  else
    let e := Int.log 2 |q| - 52
    roundEven (q / 2 ^ e) * 2 ^ e

/-- `n / 100.0 * percent`. -/
def percentOf (n percent : ℕ) : ℚ := toDouble (toDouble (toDouble n / 100) * percent)

/-- `size_t real_range = keys.size() / 100.0 * hot_data_ratio`. -/
def rangeSize (n hotDataRatio : ℕ) : ℕ := ⌊percentOf n hotDataRatio⌋₊

/-- `size_t real_start = keys.size() / 100.0 * hot_data_start + offset`. -/
def startAt (n hotDataStart offset : ℕ) : ℕ := ⌊toDouble (percentOf n hotDataStart + toDouble offset)⌋₊

/-- All of 29 keys are 28 keys. -/
example : rangeSize 29 100 = 28 := by
  decide +kernel

/-! ### Draws -/

/-- `uniform_int_distribution`: what it draws from an engine, and the engine afterwards. -/
structure Uniform (G : Type) where
  draw : ℕ → ℕ → G → ℕ × G
  mem : ∀ a b g, a ≤ b → a ≤ (draw a b g).1 ∧ (draw a b g).1 ≤ b

/-- An engine that draws 0 for a query, which is hot then, and the last index. -/
def lastIndex : Uniform Unit where
  draw a b _ := (if b = 99 then a else b, ())
  mem a b _ h := by
    simp only
    split_ifs
    · exact ⟨Nat.le_refl a, h⟩
    · exact ⟨h, Nat.le_refl b⟩

/-- `a - b` in 64 bits. -/
def sub64 (a b : ℕ) : ℕ :=
  if b ≤ a then a - b else a + 2 ^ 64 - b

variable {K G : Type}

section loop

variable (U : Uniform G) (hotQueryRatio numHot : ℕ) (tempKeys : List K)

/-- The loop over `i`, with `m` iterations to go, that writes to `out`. -/
def drawLoop : ℕ → ℕ → G → G → List K → Option (List K)
  | 0, _, _, _, out => some out
  | m + 1, i, gen1, gen2, out => do
    let (u, gen1) := U.draw 0 99 gen1
    let (index, gen2) :=
      if u < hotQueryRatio then U.draw 0 (sub64 numHot 1) gen2
      else U.draw numHot (sub64 tempKeys.length 1) gen2
    let key ← tempKeys[index]?
    if i < out.length then drawLoop m (i + 1) gen1 gen2 (out.set i key) else none

/-- The draws of the loop: whether the query is hot, and the index. -/
def drawIndexes : ℕ → G → G → List (Bool × ℕ)
  | 0, _, _ => []
  | m + 1, gen1, gen2 =>
    let u := U.draw 0 99 gen1
    let index :=
      if u.1 < hotQueryRatio then U.draw 0 (sub64 numHot 1) gen2
      else U.draw numHot (sub64 tempKeys.length 1) gen2
    (decide (u.1 < hotQueryRatio), index.1) :: drawIndexes m u.2 index.2

end loop

/-! ### The two versions -/

/-- In `temp_keys`, the hot range is first. -/
def hotFirst (keys : List K) (realRange realStart : ℕ) : Option (List K) := do
  let tempKeys := keys
  let tempKeys ← overwrite tempKeys 0 (← slice keys realStart (realStart + realRange))
  let tempKeys ← overwrite tempKeys realRange (← slice keys 0 realStart)
  overwrite tempKeys (realStart + realRange) (← slice keys (realStart + realRange) keys.length)

/-- From the sorted keys, a vector with hot keys: what the two versions have in common. -/
def fillSkewed (U : Uniform G) (gen1 gen2 : G) (hotQueryRatio : ℕ) (keys : List K) (realRange realStart : ℕ)
    (out : List K) : Option (List K) := do
  let tempKeys ← hotFirst keys realRange realStart
  let numHot := realRange
  -- the bounds of `uniform_cold_index`; those of `uniform_hot_index` start at 0
  if numHot ≤ sub64 tempKeys.length 1 then
    drawLoop U hotQueryRatio numHot tempKeys keys.length 0 gen1 gen2 out
  else none

/-- `if (real_start > keys.size() - real_range) real_start = keys.size() - real_range`. -/
def clampStart (n realRange realStart : ℕ) : ℕ :=
  if realStart > sub64 n realRange then sub64 n realRange else realStart

/-- The rounds of the version with several targets: round `k` fills `targets[k]`, which is not
touched when there are no keys. -/
def skewRounds (U : Uniform G) (gen1 gen2 : G) (hotQueryRatio : ℕ) (keys : List K) (realRange : ℕ)
    (realStart : ℕ → ℕ) : ℕ → List (List K) → Option (List (List K))
  | 0, targets => some targets
  | k + 1, targets => do
    let targets ← skewRounds U gen1 gen2 hotQueryRatio keys realRange realStart k targets
    let target ← fillSkewed U gen1 gen2 hotQueryRatio keys realRange
      (clampStart keys.length realRange (realStart k)) (targets.getD k [])
    return targets.set k target

variable [LinearOrder K]

/-- Sort the keys, then go through the rounds; the keys afterwards, and the targets. -/
def skewTargets (U : Uniform G) (gen1 gen2 : G) (hotQueryRatio hotRangeCount : ℕ) (realRange : ℕ → ℕ)
    (realStart : ℕ → ℕ → ℕ) (keys : List K) (targets : List (List K)) : Option (List K × List (List K)) := do
  let keys := keys.mergeSort (· ≤ ·)
  let targets ← skewRounds U gen1 gen2 hotQueryRatio keys (realRange keys.length) (realStart keys.length)
    hotRangeCount targets
  return (keys, targets)

/-- `generate_skew_workload` with several targets. -/
def generateSkewWorkloads (U : Uniform G) (gen1 gen2 : G) (hotRangeCount hotDataStart hotDataRatio hotQueryRatio : ℕ)
    (keys : List K) (targets : List (List K)) : Option (List K × List (List K)) :=
  skewTargets U gen1 gen2 hotQueryRatio hotRangeCount (rangeSize · hotDataRatio)
    (fun n k => startAt n hotDataStart (rangeSize n hotDataRatio * k % 2 ^ 64)) keys targets

/-- `generate_skew_workload` with the vector itself as its target, and no clamp. -/
def generateSkewWorkload (U : Uniform G) (gen1 gen2 : G) (hotDataStart hotDataRatio hotQueryRatio : ℕ)
    (keys : List K) : Option (List K) := do
  let keys := keys.mergeSort (· ≤ ·)
  fillSkewed U gen1 gen2 hotQueryRatio keys (rangeSize keys.length hotDataRatio)
    ⌊percentOf keys.length hotDataStart⌋₊ keys

/-! ### The copies -/

omit [LinearOrder K] in
/-- The three copies tile the vector. -/
theorem hotFirst_eq {keys : List K} {r s : ℕ} (h : s + r ≤ keys.length) :
    hotFirst keys r s = some (toFront keys s r) := by
  have hhot : ((keys.drop s).take r).length = r := length_range h
  have hcold : (keys.take s).length = s := by
    rw [List.length_take]
    omega
  have hfirst : overwrite keys 0 ((keys.drop s).take r) = some ((keys.drop s).take r ++ keys.drop r) := by
    have hlen : ((keys.drop s).take r).length = (keys.take r).length := by
      rw [hhot, List.length_take]
      omega
    have hwrite := overwrite_append (p := []) (t := keys.drop r) hlen
    rwa [List.take_append_drop] at hwrite
  have hsecond : overwrite ((keys.drop s).take r ++ keys.drop r) r (keys.take s) = some (toFront keys s r) := by
    have hlen : (keys.take s).length = ((keys.drop r).take s).length := by
      rw [hcold, List.length_take, List.length_drop]
      omega
    have hwrite := overwrite_append (p := (keys.drop s).take r) (t := keys.drop (r + s)) hlen
    rwa [hhot, ← List.drop_drop, List.take_append_drop, List.drop_drop, Nat.add_comm r s] at hwrite
  have hthird : overwrite (toFront keys s r) (s + r) (keys.drop (s + r)) = some (toFront keys s r) := by
    have hwrite := overwrite_append (p := (keys.drop s).take r ++ keys.take s) (m := keys.drop (s + r))
      (t := []) rfl
    rwa [List.length_append, hhot, hcold, List.append_nil, List.append_assoc, Nat.add_comm r s] at hwrite
  have htake : (keys.drop (s + r)).take (keys.length - (s + r)) = keys.drop (s + r) :=
    List.take_of_length_le (by rw [List.length_drop])
  simp only [hotFirst, slice_eq (Nat.le_add_right s r) h, slice_eq (Nat.zero_le s) (by omega : s ≤ keys.length),
    slice_eq h (Nat.le_refl _), Nat.add_sub_cancel_left, List.drop_zero, Nat.sub_zero, htake,
    Option.bind_eq_bind, Option.bind_some, hfirst, hsecond, hthird]

omit [LinearOrder K] in
/-- A range that ends beyond the keys is read beyond their end. -/
theorem hotFirst_none {keys : List K} {r s : ℕ} (h : keys.length < s + r) : hotFirst keys r s = none := by
  rw [hotFirst, slice_none h]
  rfl

/-! ### The loop -/

section loop

omit [LinearOrder K]
variable {U : Uniform G} {q r : ℕ} {temp : List K}

/-- Hot draws are of the hot part, cold draws of the rest. -/
theorem drawIndexes_mem (hr : 0 < r ∨ q = 0) (hlt : r < temp.length) (m : ℕ) (gen1 gen2 : G) :
    ∀ p ∈ drawIndexes U q r temp m gen1 gen2,
      (p.1 = true → p.2 < r) ∧ (p.1 = false → r ≤ p.2 ∧ p.2 < temp.length) := by
  induction m generalizing gen1 gen2 with
  | zero => simp [drawIndexes]
  | succ m ih =>
    rw [drawIndexes, List.forall_mem_cons]
    refine ⟨?_, ih _ _⟩
    by_cases hu : (U.draw 0 99 gen1).1 < q
    · have hpos : 0 < r := by omega
      have hbound := (U.mem 0 (sub64 r 1) gen2 (Nat.zero_le _)).2
      have hsub : sub64 r 1 = r - 1 := if_pos hpos
      simp only [hu, if_true, decide_true, forall_const, Bool.true_eq_false, false_implies, and_true]
      omega
    · have hsub : sub64 temp.length 1 = temp.length - 1 := if_pos (by omega)
      have hbound := U.mem r (sub64 temp.length 1) gen2 (by omega)
      simp only [hu, if_false, decide_false, forall_const, Bool.false_eq_true, false_implies, true_and]
      omega

theorem drawIndexes_lt (hr : 0 < r ∨ q = 0) (hlt : r < temp.length) (m : ℕ) (gen1 gen2 : G) :
    ∀ p ∈ drawIndexes U q r temp m gen1 gen2, p.2 < temp.length := by
  intro p hp
  have h := drawIndexes_mem hr hlt m gen1 gen2 p hp
  cases hp1 : p.1
  · exact (h.2 hp1).2
  · have := h.1 hp1
    omega

/-- The loop writes the keys at the indexes that are drawn, from position `i` on. -/
theorem drawLoop_eq (m i : ℕ) (gen1 gen2 : G) (out : List K)
    (hidx : ∀ p ∈ drawIndexes U q r temp m gen1 gen2, p.2 < temp.length) (hout : i + m ≤ out.length) :
    ∃ ks, List.Forall₂ (fun p key => temp[p.2]? = some key) (drawIndexes U q r temp m gen1 gen2) ks ∧
      drawLoop U q r temp m i gen1 gen2 out = some (out.take i ++ (ks ++ out.drop (i + m))) := by
  induction m generalizing i gen1 gen2 out with
  | zero =>
    refine ⟨[], .nil, ?_⟩
    rw [drawLoop, List.nil_append, Nat.add_zero, List.take_append_drop]
  | succ m ih =>
    rw [drawIndexes, List.forall_mem_cons] at hidx
    obtain ⟨hindex, hrest⟩ := hidx
    obtain ⟨key, hkey⟩ : ∃ key, temp[(if (U.draw 0 99 gen1).1 < q then U.draw 0 (sub64 r 1) gen2
        else U.draw r (sub64 temp.length 1) gen2).1]? = some key :=
      ⟨_, List.getElem?_eq_getElem hindex⟩
    have hi : i < out.length := by omega
    obtain ⟨ks, hks, hloop⟩ := ih (i + 1) _ _ (out.set i key) hrest (by rw [List.length_set]; omega)
    refine ⟨key :: ks, .cons hkey hks, ?_⟩
    rw [drawLoop]
    simp only [Option.bind_eq_bind, hkey, Option.bind_some, if_pos hi]
    have htake : (out.set i key).take (i + 1) = out.take i ++ [key] := by
      rw [List.take_add_one, List.take_set_of_le (Nat.le_refl i), List.getElem?_set_self hi]
      rfl
    rw [hloop, htake, List.drop_set_of_lt (by omega), Nat.add_right_comm i 1 m, ← Nat.add_assoc,
      List.append_assoc, List.singleton_append, List.cons_append]

/-- A target that is too short is written beyond its end. -/
theorem drawLoop_none (m i : ℕ) (gen1 gen2 : G) (out : List K) (hi : i ≤ out.length) (hout : out.length < i + m) :
    drawLoop U q r temp m i gen1 gen2 out = none := by
  induction m generalizing i gen1 gen2 out with
  | zero => omega
  | succ m ih =>
    rw [drawLoop]
    simp only [Option.bind_eq_bind, Option.bind_eq_none_iff]
    intro key _
    by_cases hlt : i < out.length
    · rw [if_pos hlt]
      exact ih (i + 1) _ _ _ (by rw [List.length_set]; omega) (by rw [List.length_set]; omega)
    · rw [if_neg hlt]

/-- A draw of an index of `temp_keys`, hot or not, and the key that it gives the target. -/
structure Drawn (temp : List K) (r : ℕ) (draw : Bool × ℕ) (key : K) : Prop where
  at_index : temp[draw.2]? = some key
  hot : draw.1 = true → draw.2 < r ∧ key ∈ temp.take r
  cold : draw.1 = false → r ≤ draw.2 ∧ draw.2 < temp.length ∧ key ∈ temp.drop r
  apart : draw.1 = false → temp.Nodup → key ∉ temp.take r

theorem drawn_of_mem {temp : List K} {r : ℕ} {draw : Bool × ℕ} {key : K} (hkey : temp[draw.2]? = some key)
    (hmem : (draw.1 = true → draw.2 < r) ∧ (draw.1 = false → r ≤ draw.2 ∧ draw.2 < temp.length)) :
    Drawn temp r draw key := by
  have hin : draw.1 = false → key ∈ temp.drop r := by
    intro hcold
    obtain ⟨hle, -⟩ := hmem.2 hcold
    refine List.mem_of_getElem? (i := draw.2 - r) ?_
    rwa [List.getElem?_drop, Nat.add_sub_cancel' hle]
  refine ⟨hkey, fun hhot => ⟨hmem.1 hhot, ?_⟩, fun hcold => ⟨(hmem.2 hcold).1, (hmem.2 hcold).2, hin hcold⟩,
    fun hcold hnodup htake => ?_⟩
  · refine List.mem_of_getElem? (i := draw.2) ?_
    rwa [List.getElem?_take_of_lt (hmem.1 hhot)]
  · exact List.disjoint_take_drop hnodup (Nat.le_refl r) htake (hin hcold)

theorem subset_of_drawn {ds : List (Bool × ℕ)} {t : List K} (h : List.Forall₂ (Drawn temp r) ds t) : t ⊆ temp := by
  induction h with
  | nil => exact List.nil_subset _
  | cons hd _ ih => exact List.cons_subset.mpr ⟨List.mem_of_getElem? hd.at_index, ih⟩

/-- From a range that fits, a target of the keys' length is filled with the keys at the indexes
that are drawn. -/
theorem fillSkewed_drawn {keys out : List K} {s : ℕ} (hs : s + r ≤ keys.length) (hr : 0 < r ∨ q = 0)
    (hlt : r < keys.length) (hout : out.length = keys.length) (gen1 gen2 : G) :
    ∃ t, fillSkewed U gen1 gen2 q keys r s out = some t ∧
      List.Forall₂ (Drawn (toFront keys s r) r)
        (drawIndexes U q r (toFront keys s r) keys.length gen1 gen2) t := by
  have hlen : (toFront keys s r).length = keys.length := (toFront_perm keys s r).length_eq
  have hltTemp : r < (toFront keys s r).length := by rwa [hlen]
  have hcold : r ≤ sub64 keys.length 1 := by
    rw [sub64, if_pos (by omega)]
    omega
  obtain ⟨t, ht, hloop⟩ := drawLoop_eq keys.length 0 gen1 gen2 out
    (drawIndexes_lt (U := U) hr hltTemp keys.length gen1 gen2) (by omega)
  rw [List.take_zero, List.nil_append, Nat.zero_add, List.drop_of_length_le (by omega), List.append_nil] at hloop
  refine ⟨t, ?_, ?_⟩
  · rw [fillSkewed, hotFirst_eq hs, Option.bind_eq_bind, Option.bind_some, hlen, if_pos hcold, hloop]
  · have hmem := drawIndexes_mem (U := U) hr hltTemp keys.length gen1 gen2
    exact ((List.forall₂_and_left _ _).mpr ⟨hmem, ht⟩).imp fun draw key h => drawn_of_mem h.2 h.1

end loop

/-! ### The rounds -/

section rounds

omit [LinearOrder K]
variable {U : Uniform G} {gen1 gen2 : G} {q r : ℕ} {keys : List K} {realStart : ℕ → ℕ}

theorem clampStart_fits {n s : ℕ} (hr : r ≤ n) : clampStart n r s + r ≤ n := by
  have hsub : sub64 n r = n - r := if_pos hr
  unfold clampStart
  split_ifs <;> omega

/-- The rounds that were gone through have filled their targets, and left the other targets. -/
theorem skewRounds_inv {targets targets' : List (List K)} {k : ℕ}
    (h : skewRounds U gen1 gen2 q keys r realStart k targets = some targets') :
    targets'.length = targets.length ∧
    (∀ j < k, ∃ t,
      fillSkewed U gen1 gen2 q keys r (clampStart keys.length r (realStart j)) (targets.getD j []) = some t ∧
      (j < targets.length → targets'[j]? = some t)) ∧
    ∀ j, k ≤ j → targets'[j]? = targets[j]? := by
  induction k generalizing targets' with
  | zero =>
    obtain rfl : targets = targets' := Option.some.inj h
    exact ⟨rfl, fun j hj => absurd hj (Nat.not_lt_zero j), fun _ _ => rfl⟩
  | succ k ih =>
    simp only [skewRounds, Option.bind_eq_bind, Option.bind_eq_some_iff, pure, Option.some.injEq] at h
    obtain ⟨ts, hts, t, ht, rfl⟩ := h
    obtain ⟨hlen, hdone, hrest⟩ := ih hts
    have hsame : ts.getD k [] = targets.getD k [] := by
      rw [List.getD_eq_getElem?_getD, List.getD_eq_getElem?_getD, hrest k (Nat.le_refl k)]
    rw [hsame] at ht
    refine ⟨by rw [List.length_set, hlen], fun j hj => ?_, fun j hj => ?_⟩
    · rcases Nat.lt_or_eq_of_le (Nat.le_of_lt_succ hj) with hlt | rfl
      · rw [List.getElem?_set_ne (by omega)]
        exact hdone j hlt
      · exact ⟨t, ht, fun hin => List.getElem?_set_self (by omega)⟩
    · rw [List.getElem?_set_ne (by omega), hrest j (by omega)]

theorem skewRounds_isSome {targets : List (List K)} {k : ℕ}
    (h : ∀ j < k, (fillSkewed U gen1 gen2 q keys r (clampStart keys.length r (realStart j))
      (targets.getD j [])).isSome) :
    (skewRounds U gen1 gen2 q keys r realStart k targets).isSome := by
  induction k with
  | zero => rfl
  | succ k ih =>
    obtain ⟨ts, hts⟩ := Option.isSome_iff_exists.mp (ih fun j hj => h j (by omega))
    obtain ⟨t, ht⟩ := Option.isSome_iff_exists.mp (h k (Nat.lt_succ_self k))
    have hsame : ts.getD k [] = targets.getD k [] := by
      rw [List.getD_eq_getElem?_getD, List.getD_eq_getElem?_getD, (skewRounds_inv hts).2.2 k (Nat.le_refl k)]
    rw [skewRounds, hts, Option.bind_eq_bind, Option.bind_some, hsame, ht]
    rfl

end rounds

theorem skewTargets_eq {U : Uniform G} {gen1 gen2 : G} {q count : ℕ} {realRange : ℕ → ℕ} {realStart : ℕ → ℕ → ℕ}
    {keys : List K} {targets : List (List K)} :
    skewTargets U gen1 gen2 q count realRange realStart keys targets =
      (skewRounds U gen1 gen2 q (keys.mergeSort (· ≤ ·)) (realRange keys.length) (realStart keys.length) count
        targets).map fun ts => (keys.mergeSort (· ≤ ·), ts) := by
  rw [skewTargets]
  simp only [List.length_mergeSort, Option.map_eq_bind]
  rfl

/-- In `temp`, the `r` sorted keys from position `s` on come first, then the others in order. -/
structure Rotated (sorted : List K) (r s : ℕ) (temp : List K) : Prop where
  perm : temp.Perm sorted
  fits : s + r ≤ sorted.length
  hot : temp.take r = (sorted.drop s).take r
  cold : temp.drop r = sorted.take s ++ sorted.drop (s + r)
  ascending : (temp.drop r).Pairwise (· ≤ ·)

theorem rotated_toFront {sorted : List K} {r s : ℕ} (hsorted : sorted.Pairwise (· ≤ ·))
    (hfits : s + r ≤ sorted.length) : Rotated sorted r s (toFront sorted s r) where
  perm := toFront_perm sorted s r
  fits := hfits
  hot := take_toFront hfits
  cold := drop_toFront hfits
  ascending := by
    have hsub : (sorted.take s ++ sorted.drop (s + r)).Sublist (sorted.take s ++ sorted.drop s) :=
      (List.Sublist.refl _).append (List.drop_drop ▸ List.drop_sublist r _)
    rw [drop_toFront hfits]
    rw [List.take_append_drop] at hsub
    exact hsorted.sublist hsub

/-- Every round of the version with several targets puts its hot range first and fills its
target from there; the keys are only sorted. -/
theorem skew_rounds {U : Uniform G} {gen1 gen2 : G} {q count : ℕ} {realRange : ℕ → ℕ} {realStart : ℕ → ℕ → ℕ}
    {keys : List K} {targets : List (List K)} (hr : 0 < realRange keys.length)
    (hlt : realRange keys.length < keys.length) (hcount : targets.length = count)
    (hlen : ∀ t ∈ targets, t.length = keys.length) :
    ∃ sorted targets', skewTargets U gen1 gen2 q count realRange realStart keys targets = some (sorted, targets') ∧
      sorted.Perm keys ∧ sorted.Pairwise (· ≤ ·) ∧ targets'.length = count ∧
      ∀ k < count, ∃ temp target,
        let start := clampStart keys.length (realRange keys.length) (realStart keys.length k)
        hotFirst sorted (realRange keys.length) start = some temp ∧
        Rotated sorted (realRange keys.length) start temp ∧
        targets'[k]? = some target ∧
        List.Forall₂ (Drawn temp (realRange keys.length))
          (drawIndexes U q (realRange keys.length) temp keys.length gen1 gen2) target := by
  have hperm : (keys.mergeSort (· ≤ ·)).Perm keys := List.mergeSort_perm _ _
  have hsorted : (keys.mergeSort (· ≤ ·)).Pairwise (· ≤ ·) := List.pairwise_mergeSort' _ keys
  have hsize : (keys.mergeSort (· ≤ ·)).length = keys.length := hperm.length_eq
  rw [skewTargets_eq]
  generalize keys.mergeSort (· ≤ ·) = sorted at hperm hsorted hsize
  generalize realRange keys.length = r at hr hlt
  generalize realStart keys.length = start
  rw [← hsize] at hlt hlen ⊢
  have hfits : ∀ k, clampStart sorted.length r (start k) + r ≤ sorted.length := fun k => clampStart_fits hlt.le
  have hfill : ∀ k < count, ∃ t,
      fillSkewed U gen1 gen2 q sorted r (clampStart sorted.length r (start k)) (targets.getD k []) = some t ∧
      List.Forall₂ (Drawn (toFront sorted (clampStart sorted.length r (start k)) r) r)
        (drawIndexes U q r (toFront sorted (clampStart sorted.length r (start k)) r) sorted.length gen1 gen2) t := by
    intro k hk
    have htarget : (targets.getD k []).length = sorted.length := by
      rw [← List.getElem_eq_getD (h := by omega)]
      exact hlen _ (List.getElem_mem _)
    exact fillSkewed_drawn (hfits k) (.inl hr) hlt htarget gen1 gen2
  obtain ⟨targets', hrun⟩ := Option.isSome_iff_exists.mp <| skewRounds_isSome fun k hk =>
    Option.isSome_iff_exists.mpr ((hfill k hk).imp fun _ h => h.1)
  obtain ⟨hlen', hdone, -⟩ := skewRounds_inv hrun
  refine ⟨sorted, targets', ?_, hperm, hsorted, by rw [hlen', hcount], fun k hk => ?_⟩
  · rw [hrun, Option.map_some]
  · obtain ⟨t, ht, hdrawn⟩ := hfill k hk
    obtain ⟨t', ht', hat⟩ := hdone k hk
    obtain rfl : t = t' := Option.some.inj (ht.symm.trans ht')
    exact ⟨_, t, hotFirst_eq (hfits k), rotated_toFront hsorted (hfits k), hat (by omega), hdrawn⟩

/-- Three keys and two targets; the second round starts where no range fits, and is clamped. -/
theorem skew_rounds_three :
    ∃ sorted targets', skewTargets lastIndex () () 50 2 (fun _ => 1) (fun _ k => 5 * k) [30, 10, 20]
        [[0, 0, 0], [0, 0, 0]] = some (sorted, targets') ∧
      sorted.Perm [30, 10, 20] ∧ sorted.Pairwise (· ≤ ·) ∧ targets'.length = 2 ∧
      ∀ k < 2, ∃ temp target,
        let start := clampStart 3 1 (5 * k)
        hotFirst sorted 1 start = some temp ∧
        Rotated sorted 1 start temp ∧
        targets'[k]? = some target ∧
        List.Forall₂ (Drawn temp 1) (drawIndexes lastIndex 50 1 temp 3 () ()) target :=
  skew_rounds (by decide) (by decide) rfl (by decide)

end SidleBaselines.Synthetic
