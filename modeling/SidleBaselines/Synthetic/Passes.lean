import Mathlib.Data.Finset.Basic
import Mathlib.Data.Finset.Dedup
import Mathlib.Data.Nat.GCD.Basic
import SidleBaselines.Synthetic.Traces

/-!
# The passes of heavy_insert over its operations

The measured loop of `run_fg` in `src/benchmark/synthetic/heavy_insert.cpp` goes
through the vector of operations again and again. In pass `bias`, counted from
0, a key is shifted by `bias * working_set`, so that a new pass inserts other keys
than the ones before; `main` sets `working_set` to a tenth of the distance of two
keys, but only for the targets `art` and `pac`.

## What is proved

* `run_position` — where a run stands after a number of turns;
* `mem_run_table` — what is in the table then;
* `operationsLoop_inserts` — the inserts of the operations, in order;
* `collision` — which keys of two passes can be equal;
* `heavyInsert_fresh_iff` — all the inserts of a run name new keys if and only if
  the shifts cannot meet within the keys of a pass, or the run stops before the
  pass in which they do inserts its first key.
-/

namespace SidleBaselines.Synthetic.Passes

open Traces

/-! ### The measured loop -/

/-- `working_set`, which `main` leaves at 0 where the keys are not spread. -/
def workingSet (target : Target) (tableSize : ℕ) : ℕ :=
  if target.spread then keyStep target tableSize / 10 else 0

/-- `op.second.key + bias * working_set`. -/
def shifted (w bias key : ℕ) : ℕ :=
  (key + bias * w) % 2 ^ 64

/-- The loop's variables and the keys in the table. -/
structure State where
  opI : ℕ
  bias : ℕ
  table : Finset ℕ

/-- The `switch` over the operation. Only a `remove` does not shift its key. -/
def execute (w bias : ℕ) (table : Finset ℕ) : OpType × ℕ → Finset ℕ
  | (.read, _) => table
  | (.insert, key) => insert (shifted w bias key) table
  | (.remove, key) => table.erase key

/-- One turn of the loop. -/
def turn (ops : List (OpType × ℕ)) (w : ℕ) (s : State) : State :=
  let table := match ops[s.opI]? with
    | none => s.table
    | some op => execute w s.bias s.table op
  if s.opI + 1 = ops.length then ⟨0, (s.bias + 1) % 2 ^ 64, table⟩
  else ⟨s.opI + 1, s.bias, table⟩

/-- The state after `t` turns. -/
def run (ops : List (OpType × ℕ)) (w : ℕ) (loaded : Finset ℕ) : ℕ → State
  | 0 => ⟨0, 0, loaded⟩
  | t + 1 => turn ops w (run ops w loaded t)

/-- The key of an insert. -/
def insertKey : OpType × ℕ → Option ℕ
  | (.insert, key) => some key
  | (.read, _) => none
  | (.remove, _) => none

/-- The key that the next turn inserts. -/
def inserted (ops : List (OpType × ℕ)) (w : ℕ) (s : State) : Option ℕ :=
  (ops[s.opI]?.bind insertKey).map (shifted w s.bias)

/-- In the first `t` turns every insert is of a key that is not in the table. -/
def Fresh (ops : List (OpType × ℕ)) (w : ℕ) (loaded : Finset ℕ) (t : ℕ) : Prop :=
  ∀ i < t, ∀ k, inserted ops w (run ops w loaded i) = some k → k ∉ (run ops w loaded i).table

/-- No key of the first `t` turns exceeds 64 bits. -/
def Fits (ops : List (OpType × ℕ)) (w t : ℕ) : Prop :=
  ∀ i < t, ∀ op, ops[i % ops.length]? = some op → op.2 + i / ops.length * w < 2 ^ 64

/-! ### Runs -/

section

variable {ops : List (OpType × ℕ)} {w : ℕ} {loaded : Finset ℕ}

/-- The position in the vector and the number of the pass. -/
theorem run_position (hpos : 0 < ops.length) (t : ℕ) :
    (run ops w loaded t).opI = t % ops.length ∧ (run ops w loaded t).bias = t / ops.length % 2 ^ 64 := by
  induction t with
  | zero => simp [run]
  | succ t ih =>
    obtain ⟨hopI, hbias⟩ := ih
    have hlt := Nat.mod_lt t hpos
    have hdiv := Nat.mod_add_div t ops.length
    rw [run, turn, hopI, hbias]
    split_ifs with hend
    · obtain ⟨hq, hr⟩ := (Nat.div_mod_unique (a := t + 1) (d := t / ops.length + 1) (c := 0) hpos).mpr
        ⟨by rw [Nat.mul_succ]; omega, hpos⟩
      rw [hq, hr, Nat.mod_add_mod]
      exact ⟨rfl, rfl⟩
    · obtain ⟨hq, hr⟩ := (Nat.div_mod_unique (a := t + 1) (d := t / ops.length) (c := t % ops.length + 1)
        hpos).mpr ⟨by omega, by omega⟩
      rw [hq, hr]
      exact ⟨rfl, rfl⟩

/-- Keys are shifted alike when the number of the pass wraps. -/
theorem shifted_mod (w bias key : ℕ) : shifted w (bias % 2 ^ 64) key = shifted w bias key := by
  rw [shifted, shifted, Nat.add_mod, Nat.mul_mod, Nat.mod_mod, ← Nat.mul_mod, ← Nat.add_mod]

theorem inserted_run (hpos : 0 < ops.length) (t : ℕ) :
    inserted ops w (run ops w loaded t) =
      (ops[t % ops.length]?.bind insertKey).map (shifted w (t / ops.length)) := by
  rw [inserted, (run_position hpos t).1, (run_position hpos t).2]
  congr 1
  funext key
  exact shifted_mod w _ key

/-- Without removes, a turn leaves what was there and what it inserts. -/
theorem mem_turn_table (hkeep : ∀ op ∈ ops, op.1 ≠ .remove) (s : State) (k : ℕ) :
    k ∈ (turn ops w s).table ↔ k ∈ s.table ∨ inserted ops w s = some k := by
  have htable : (turn ops w s).table =
      match ops[s.opI]? with
      | none => s.table
      | some op => execute w s.bias s.table op := by
    rw [turn]
    split_ifs <;> rfl
  rw [htable, inserted]
  cases hop : ops[s.opI]? with
  | none => simp
  | some op =>
    obtain ⟨type, key⟩ := op
    cases type with
    | read => simp [execute, insertKey]
    | insert => simp [execute, insertKey, or_comm, eq_comm]
    | remove => exact absurd rfl (hkeep _ (List.mem_of_getElem? hop))

theorem mem_run_table (hkeep : ∀ op ∈ ops, op.1 ≠ .remove) (t k : ℕ) :
    k ∈ (run ops w loaded t).table ↔
      k ∈ loaded ∨ ∃ i < t, inserted ops w (run ops w loaded i) = some k := by
  induction t with
  | zero => simp [run]
  | succ t ih =>
    rw [run, mem_turn_table hkeep, ih, or_assoc]
    refine or_congr Iff.rfl ?_
    constructor
    · rintro (⟨i, hi, hk⟩ | hk)
      · exact ⟨i, by omega, hk⟩
      · exact ⟨t, Nat.lt_succ_self t, hk⟩
    · rintro ⟨i, hi, hk⟩
      rcases Nat.lt_succ_iff_lt_or_eq.mp hi with hi | rfl
      · exact Or.inl ⟨i, hi, hk⟩
      · exact Or.inr hk

/-- A run is fresh when it inserts no loaded key and none twice. -/
theorem fresh_iff (hkeep : ∀ op ∈ ops, op.1 ≠ .remove) (t : ℕ) :
    Fresh ops w loaded t ↔ ∀ i < t, ∀ k, inserted ops w (run ops w loaded i) = some k →
      k ∉ loaded ∧ ∀ j < i, inserted ops w (run ops w loaded j) ≠ some k := by
  refine forall₄_congr fun i _ k hk => ?_
  rw [mem_run_table hkeep, not_or]
  refine and_congr Iff.rfl ?_
  push Not
  rfl

end

/-! ### The operations -/

section

variable {n : ℕ} {keys : List ℕ}

/-- The inserts of the operations take the keys from `insert_i` on, in order. -/
theorem operationsLoop_inserts (b : Bench) (draws : List (Draw n)) (deleteI insertI : ℕ) (hn : n ≤ insertI)
    {ops : List (OpType × ℕ)} (h : operationsLoop b keys draws deleteI insertI = some ops) :
    ops.filterMap insertKey = keys.drop insertI ∧ ∀ op ∈ ops, op.1 ≠ .remove := by
  induction draws generalizing insertI ops with
  | nil =>
    rw [operationsLoop] at h
    split_ifs at h with hlt
    cases h
    exact ⟨(List.drop_eq_nil_of_le (Nat.not_lt.mp hlt)).symm, by simp⟩
  | cons d draws ih =>
    by_cases hlt : insertI < keys.length
    · obtain ⟨k, k', -, hk', hstep⟩ := operationsLoop_cons (b := b) d draws deleteI insertI hn hlt
      rw [hstep] at h
      split_ifs at h with hd
      · obtain ⟨rest, hrest, rfl⟩ := Option.map_eq_some_iff.mp h
        obtain ⟨hkeys, hkeep⟩ := ih (insertI + 1) (by omega) hrest
        have hget : keys[insertI] = k' := by
          rw [List.getElem?_eq_getElem hlt] at hk'
          exact Option.some.inj hk'
        have hcons : List.filterMap insertKey ((.insert, k') :: rest) = k' :: rest.filterMap insertKey :=
          List.filterMap_cons_some rfl
        refine ⟨?_, ?_⟩
        · rw [hcons, hkeys, List.drop_eq_getElem_cons hlt, hget]
        · rintro op (_ | ⟨_, hop⟩)
          · simp
          · exact hkeep op hop
      · obtain ⟨rest, hrest, rfl⟩ := Option.map_eq_some_iff.mp h
        obtain ⟨hkeys, hkeep⟩ := ih insertI hn hrest
        refine ⟨by rw [List.filterMap_cons_none rfl, hkeys], ?_⟩
        rintro op (_ | ⟨_, hop⟩)
        · simp
        · exact hkeep op hop
    · rw [operationsLoop_done _ _ (Nat.not_lt.mp hlt)] at h
      cases h
      exact ⟨(List.drop_eq_nil_of_le (Nat.not_lt.mp hlt)).symm, by simp⟩

theorem segment_single (v : List ℕ) : segment v 1 0 = v := by
  simp [segment]

/-- The only thread has all the keys, in order. -/
theorem opKeys_single {target : Target} (hn : 3 ≤ n) {laid ks : Keys ℕ}
    (hlaid : layout target n 1 = some laid) (hks : Shuffled target laid ks) :
    opKeys target ks 1 0 = some (List.range' 1 (2 * n) (keyStep target n)) ∧ ks.allKeys.length / 1 = n ∧
      ∀ k ∈ ks.allKeys, k < 1 + keyStep target n * n := by
  have h : Laid target n 1 laid := layout_laid (by rwa [Nat.div_one]) hlaid
  have hready := h.ready Nat.one_pos hks
  have hbound := h.bound
  have heq := h.eq
  rw [Nat.div_one, Nat.mul_one] at hbound
  rw [Nat.div_one, pushSegments_succ _ _ _ _ hbound, pushSegments, List.append_nil, List.append_nil] at heq
  have hsame : laid.allKeys ++ laid.nonExistKeys = List.range' 1 (2 * n) (keyStep target n) := by
    rw [heq, List.range'_append, ← Nat.two_mul]
  have hlt : ∀ k ∈ laid.allKeys, k < 1 + keyStep target n * n := by
    intro k hk
    rw [heq] at hk
    obtain ⟨i, hi, rfl⟩ := List.mem_range'.mp hk
    have := Nat.mul_lt_mul_of_pos_left hi h.step_pos
    omega
  have hthread : ks.ofThread 1 0 = ks.allKeys ++ ks.nonExistKeys := by
    rw [Keys.ofThread, segment_single, segment_single]
  have hlength := hready.allKeys
  rw [Nat.div_one n] at hlength
  rw [Shuffled] at hks
  cases hspread : target.spread with
  | false =>
    rw [hspread, if_neg Bool.false_ne_true] at hks
    subst hks
    exact ⟨by rw [opKeys_plain hready hspread Nat.one_pos, hthread, hsame], hlength, hlt⟩
  | true =>
    rw [hspread, if_pos rfl] at hks
    have hperm : ((ks.allKeys ++ ks.nonExistKeys).mergeSort (· ≤ ·)).Perm
        (List.range' 1 (2 * n) (keyStep target n)) := by
      rw [← hsame]
      exact (List.mergeSort_perm _ _).trans (hks.1.append hks.2)
    have hsorted := List.pairwise_mergeSort' (· ≤ ·) (ks.allKeys ++ ks.nonExistKeys)
    have hrange : (List.range' 1 (2 * n) (keyStep target n)).Pairwise (· ≤ ·) :=
      List.pairwise_le_range' _
    rw [opKeys_spread hspread, hthread, hperm.eq_of_pairwise' hsorted hrange]
    exact ⟨rfl, hlength, fun k hk => hlt k (hks.1.mem_iff.mp hk)⟩

/-- What the operations insert, for the only thread. -/
structure Inserts (ops : List (OpType × ℕ)) (n step : ℕ) : Prop where
  keys : ops.filterMap insertKey = List.range' (1 + step * n) n step
  keep : ∀ op ∈ ops, op.1 ≠ .remove

theorem operations_inserts {target : Target} (hn : 3 ≤ n) {laid ks : Keys ℕ}
    (hlaid : layout target n 1 = some laid) (hks : Shuffled target laid ks) (b : Bench)
    (draws : List (Draw n)) {ops : List (OpType × ℕ)} (hops : operations b target ks 1 0 draws = some ops) :
    Inserts ops n (keyStep target n) := by
  obtain ⟨hkeys, hlength, -⟩ := opKeys_single hn hlaid hks
  rw [operations, hkeys, hlength, Option.bind_eq_bind, Option.bind_some] at hops
  obtain ⟨hins, hkeep⟩ := operationsLoop_inserts b draws 0 n (Nat.le_refl n) hops
  refine ⟨?_, hkeep⟩
  rw [hins, Nat.two_mul, ← List.range'_append, List.drop_left' (List.length_range' ..)]

end

namespace Inserts

variable {ops : List (OpType × ℕ)} {n step : ℕ} (h : Inserts ops n step)

include h

/-- An insert of the vector has one of the `n` new keys. -/
theorem key_eq {r k : ℕ} (hr : ops[r]?.bind insertKey = some k) : ∃ c < n, k = 1 + step * n + step * c := by
  obtain ⟨op, hop, hk⟩ := Option.bind_eq_some_iff.mp hr
  have hmem : k ∈ ops.filterMap insertKey := List.mem_filterMap.mpr ⟨op, List.mem_of_getElem? hop, hk⟩
  rw [h.keys] at hmem
  exact List.mem_range'.mp hmem

/-- Each of them is inserted somewhere. -/
theorem exists_position {c : ℕ} (hc : c < n) :
    ∃ r < ops.length, ops[r]?.bind insertKey = some (1 + step * n + step * c) := by
  have hmem : 1 + step * n + step * c ∈ ops.filterMap insertKey := by
    rw [h.keys]
    exact List.mem_range'.mpr ⟨c, hc, rfl⟩
  obtain ⟨op, hop, hk⟩ := List.mem_filterMap.mp hmem
  obtain ⟨r, hr⟩ := List.mem_iff_getElem?.mp hop
  refine ⟨r, (List.getElem?_eq_some_iff.mp hr).1, ?_⟩
  rw [hr, Option.bind_some, hk]

/-- Later inserts have larger keys. -/
theorem key_lt (hstep : 0 < step) {r r' k k' : ℕ} (hrr : r < r') (hr : ops[r]?.bind insertKey = some k)
    (hr' : ops[r']?.bind insertKey = some k') : k < k' := by
  have hsorted : (ops.filterMap insertKey).Pairwise (· < ·) := by
    rw [h.keys]
    exact List.pairwise_lt_range' _ hstep
  rw [List.pairwise_filterMap] at hsorted
  obtain ⟨op, hop, hk⟩ := Option.bind_eq_some_iff.mp hr
  obtain ⟨op', hop', hk'⟩ := Option.bind_eq_some_iff.mp hr'
  obtain ⟨hlt, rfl⟩ := List.getElem?_eq_some_iff.mp hop
  obtain ⟨hlt', rfl⟩ := List.getElem?_eq_some_iff.mp hop'
  exact List.pairwise_iff_getElem.mp hsorted r r' hlt hlt' hrr k hk k' hk'

end Inserts

/-- The operation is an insert. -/
def isInsert (op : OpType × ℕ) : Bool :=
  (insertKey op).isSome

/-- No insert comes before the first one. -/
theorem findIdx_le {ops : List (OpType × ℕ)} {r k : ℕ} (hr : ops[r]?.bind insertKey = some k) :
    ops.findIdx isInsert ≤ r := by
  obtain ⟨op, hop, hk⟩ := Option.bind_eq_some_iff.mp hr
  obtain ⟨_, rfl⟩ := List.getElem?_eq_some_iff.mp hop
  by_contra hlt
  have hno := List.not_of_lt_findIdx (Nat.lt_of_not_le hlt)
  rw [isInsert, hk] at hno
  exact absurd hno (by simp)

/-- The first insert has the first of the new keys. -/
theorem Inserts.first {ops : List (OpType × ℕ)} {n step : ℕ} (h : Inserts ops n step) (hn : 0 < n)
    (hstep : 0 < step) :
    ops.findIdx isInsert < ops.length ∧
      ops[ops.findIdx isInsert]?.bind insertKey = some (1 + step * n) := by
  obtain ⟨r, hr, hkey⟩ := h.exists_position hn
  rw [Nat.mul_zero, Nat.add_zero] at hkey
  have hle := findIdx_le hkey
  have hlt : ops.findIdx isInsert < ops.length := by omega
  have hins : isInsert ops[ops.findIdx isInsert] = true := List.findIdx_getElem
  obtain ⟨k, hk⟩ := Option.isSome_iff_exists.mp hins
  have hfirst : ops[ops.findIdx isInsert]?.bind insertKey = some k := by
    rw [List.getElem?_eq_getElem hlt, Option.bind_some, hk]
  rcases Nat.eq_or_lt_of_le hle with heq | hlt'
  · exact ⟨hlt, by rw [heq]; exact hkey⟩
  · have hsmall := h.key_lt hstep hlt' hfirst hkey
    obtain ⟨c, -, hc⟩ := h.key_eq hfirst
    omega

/-! ### When the passes meet -/

section

variable {step w : ℕ}

/-- A key of one pass is one of an earlier pass only `step / gcd` passes later, and
`w / gcd` keys further on. -/
theorem collision (hstep : 0 < step) {c c' d : ℕ} (hd : 0 < d) (heq : step * c + d * w = step * c') :
    step / Nat.gcd step w ≤ d ∧ w / Nat.gcd step w ≤ c' := by
  have hg : 0 < Nat.gcd step w := Nat.gcd_pos_of_pos_left w hstep
  obtain ⟨e, rfl⟩ : ∃ e, c' = c + e := by
    refine Nat.exists_eq_add_of_le (Nat.le_of_mul_le_mul_left ?_ hstep)
    omega
  rw [Nat.mul_add, Nat.add_left_cancel_iff] at heq
  have hw := Nat.div_mul_cancel (Nat.gcd_dvd_right step w)
  have hs := Nat.div_mul_cancel (Nat.gcd_dvd_left step w)
  have hcop : Nat.Coprime (step / Nat.gcd step w) (w / Nat.gcd step w) := Nat.coprime_div_gcd_div_gcd hg
  have hred : d * (w / Nat.gcd step w) = step / Nat.gcd step w * e := by
    refine Nat.eq_of_mul_eq_mul_right hg ?_
    calc d * (w / Nat.gcd step w) * Nat.gcd step w
        = d * w := by rw [Nat.mul_assoc, hw]
      _ = step / Nat.gcd step w * Nat.gcd step w * e := by rw [heq, hs]
      _ = step / Nat.gcd step w * e * Nat.gcd step w := Nat.mul_right_comm _ _ _
  have hdvd : step / Nat.gcd step w ∣ d := hcop.dvd_of_dvd_mul_right ⟨e, hred⟩
  obtain ⟨m, rfl⟩ := hdvd
  have hm : 0 < m := Nat.pos_of_mul_pos_left hd
  have hpos : 0 < step / Nat.gcd step w := Nat.div_pos (Nat.gcd_le_left w hstep) hg
  rw [Nat.mul_assoc] at hred
  have he := Nat.eq_of_mul_eq_mul_left hpos hred
  refine ⟨Nat.le_mul_of_pos_right _ hm, ?_⟩
  calc w / Nat.gcd step w ≤ m * (w / Nat.gcd step w) := Nat.le_mul_of_pos_left _ hm
    _ = e := he
    _ ≤ c + e := Nat.le_add_left e c

/-- There they do meet. -/
theorem collision_first (step w : ℕ) : step / Nat.gcd step w * w = step * (w / Nat.gcd step w) := by
  rw [← Nat.mul_div_assoc _ (Nat.gcd_dvd_right step w), Nat.mul_comm step w, Nat.mul_comm (step / _),
    ← Nat.mul_div_assoc _ (Nat.gcd_dvd_left step w)]

end

/-! ### Fresh inserts -/

section

variable {ops : List (OpType × ℕ)} {n step w t : ℕ} {loaded : Finset ℕ}

/-- What turn `i` inserts, when no key wraps. -/
theorem inserted_run_iff (hpos : 0 < ops.length) (hfits : Fits ops w t) {i : ℕ} (hi : i < t) (k : ℕ) :
    inserted ops w (run ops w loaded i) = some k ↔
      ∃ key, ops[i % ops.length]?.bind insertKey = some key ∧ k = key + i / ops.length * w := by
  have hmod : ∀ key, ops[i % ops.length]?.bind insertKey = some key →
      shifted w (i / ops.length) key = key + i / ops.length * w := by
    intro key hkey
    obtain ⟨⟨type, key'⟩, hop, hk⟩ := Option.bind_eq_some_iff.mp hkey
    cases type with
    | read => cases hk
    | insert =>
      cases hk
      exact Nat.mod_eq_of_lt (hfits i hi _ hop)
    | remove => cases hk
  rw [inserted_run hpos, Option.map_eq_some_iff]
  constructor
  · rintro ⟨key, hkey, rfl⟩
    exact ⟨key, hkey, hmod key hkey⟩
  · rintro ⟨key, hkey, rfl⟩
    exact ⟨key, hkey, hmod key hkey⟩

/-- A run inserts twice what its first pass inserts `w / gcd` keys on. -/
theorem Inserts.not_fresh (h : Inserts ops n step) (hstep : 0 < step) (hfits : Fits ops w t)
    (hkeys : w / Nat.gcd step w < n)
    (hturns : step / Nat.gcd step w * ops.length + ops.findIdx isInsert < t) : ¬ Fresh ops w loaded t := by
  obtain ⟨hfirst, hkey⟩ := h.first (Nat.zero_lt_of_lt hkeys) hstep
  obtain ⟨r, hr, hkey'⟩ := h.exists_position hkeys
  have hpos : 0 < ops.length := Nat.zero_lt_of_lt hr
  have hpass : 0 < step / Nat.gcd step w :=
    Nat.div_pos (Nat.gcd_le_left w hstep) (Nat.gcd_pos_of_pos_left w hstep)
  have hle : ops.length ≤ step / Nat.gcd step w * ops.length := Nat.le_mul_of_pos_left _ hpass
  obtain ⟨hq, hm⟩ := (Nat.div_mod_unique hpos).mpr
    ⟨Nat.add_comm (ops.findIdx isInsert) (ops.length * (step / Nat.gcd step w)), hfirst⟩
  rw [Nat.mul_comm ops.length] at hq hm
  have hagain : inserted ops w (run ops w loaded (step / Nat.gcd step w * ops.length + ops.findIdx isInsert)) =
      some (1 + step * n + step / Nat.gcd step w * w) := by
    rw [inserted_run_iff hpos hfits hturns, hq, hm]
    exact ⟨_, hkey, rfl⟩
  have hbefore : inserted ops w (run ops w loaded r) = some (1 + step * n + step / Nat.gcd step w * w) := by
    rw [inserted_run_iff hpos hfits (by omega), Nat.mod_eq_of_lt hr, Nat.div_eq_of_lt hr, collision_first]
    exact ⟨_, hkey', by rw [Nat.zero_mul, Nat.add_zero]⟩
  intro hfresh
  exact ((fresh_iff h.keep t).mp hfresh _ hturns _ hagain).2 r (by omega) hbefore

/-- Two turns insert one key only in passes and at positions that meet. -/
theorem Inserts.twice (h : Inserts ops n step) (hstep : 0 < step) (hpos : 0 < ops.length)
    (hfits : Fits ops w t) {i j k : ℕ} (hi : i < t) (hji : j < i)
    (hk : inserted ops w (run ops w loaded i) = some k)
    (hk' : inserted ops w (run ops w loaded j) = some k) :
    w / Nat.gcd step w < n ∧ step / Nat.gcd step w * ops.length + ops.findIdx isInsert < t := by
  obtain ⟨key, hkey, rfl⟩ := (inserted_run_iff hpos hfits hi k).mp hk
  obtain ⟨key', hkey', heq⟩ := (inserted_run_iff hpos hfits (Nat.lt_trans hji hi) _).mp hk'
  have hdiv := Nat.div_add_mod i ops.length
  have hdiv' := Nat.div_add_mod j ops.length
  rcases Nat.eq_or_lt_of_le (Nat.div_le_div_right (c := ops.length) hji.le) with hsame | hlater
  · rw [hsame] at heq hdiv'
    have hlt := h.key_lt hstep (show j % ops.length < i % ops.length by omega) hkey' hkey
    omega
  · have hfirst := findIdx_le hkey
    obtain ⟨c, -, hc⟩ := h.key_eq hkey
    obtain ⟨c', hc', hkeyc⟩ := h.key_eq hkey'
    obtain ⟨d, hd⟩ := Nat.exists_eq_add_of_lt hlater
    have hmeet : step * c + (d + 1) * w = step * c' := by
      rw [hd, Nat.add_assoc, Nat.add_mul] at heq
      omega
    obtain ⟨hpass, hkeys⟩ := collision hstep (Nat.succ_pos d) hmeet
    refine ⟨Nat.lt_of_le_of_lt hkeys hc', ?_⟩
    have hbias : step / Nat.gcd step w ≤ i / ops.length := by
      rw [hd, Nat.add_assoc]
      exact hpass.trans (Nat.le_add_left _ _)
    have hle := Nat.mul_le_mul_left ops.length hbias
    rw [Nat.mul_comm (step / _)]
    omega

theorem Inserts.fresh_iff (h : Inserts ops n step) (hn : 0 < n) (hstep : 0 < step) (hfits : Fits ops w t)
    (hload : ∀ k ∈ loaded, k < 1 + step * n) :
    Fresh ops w loaded t ↔
      n ≤ w / Nat.gcd step w ∨ t ≤ step / Nat.gcd step w * ops.length + ops.findIdx isInsert := by
  have hpos : 0 < ops.length := Nat.zero_lt_of_lt (h.first hn hstep).1
  constructor
  · intro hfresh
    by_contra hno
    push Not at hno
    exact h.not_fresh hstep hfits hno.1 hno.2 hfresh
  · intro hmeet
    rw [Passes.fresh_iff h.keep]
    intro i hi k hk
    refine ⟨?_, ?_⟩
    · intro hold
      obtain ⟨key, hkey, rfl⟩ := (inserted_run_iff hpos hfits hi k).mp hk
      obtain ⟨c, -, rfl⟩ := h.key_eq hkey
      have := hload _ hold
      omega
    · intro j hji hk'
      have htwice := h.twice hstep hpos hfits hi hji hk hk'
      omega

end

/-- While no key wraps, every insert that the measured loop makes in its first `t`
turns is of a new key if and only if `table_size` is at most `working_set / gcd`, for
the greatest common divisor of the distance of two keys and `working_set`, or the
loop stops before the first insert of pass `step / gcd`. -/
theorem heavyInsert_fresh_iff (target : Target) {n : ℕ} (hn : 3 ≤ n) {laid ks : Keys ℕ}
    (hlaid : layout target n 1 = some laid) (hks : Shuffled target laid ks) (draws : List (Draw n))
    {ops : List (OpType × ℕ)} (hops : operations .heavyInsert target ks 1 0 draws = some ops) {t : ℕ}
    (hfits : Fits ops (workingSet target n) t) :
    Fresh ops (workingSet target n) ks.allKeys.toFinset t ↔
      n ≤ workingSet target n / Nat.gcd (keyStep target n) (workingSet target n) ∨
      t ≤ keyStep target n / Nat.gcd (keyStep target n) (workingSet target n) * ops.length +
        ops.findIdx isInsert := by
  have hstep : 0 < keyStep target n := (layout_laid (by rwa [Nat.div_one]) hlaid).step_pos
  refine (operations_inserts hn hlaid hks .heavyInsert draws hops).fresh_iff (by omega) hstep hfits ?_
  intro k hk
  exact (opKeys_single hn hlaid hks).2.2 k (List.mem_toFinset.mp hk)

/-! ### A second pass -/

/-- The keys of masstree with a table of three keys. -/
def threeKeys : Keys ℕ :=
  pushSegments 1 3 1 1

theorem layout_threeKeys : layout .masstree 3 1 = some threeKeys := by
  rfl

/-- With three inserts drawn at once. -/
theorem operations_threeKeys :
    operations .heavyInsert .masstree threeKeys 1 0 [insertDraw, insertDraw, insertDraw] =
      some [(.insert, 4), (.insert, 5), (.insert, 6)] := by
  decide +kernel

theorem fits_threeKeys (t : ℕ) :
    Fits [(.insert, 4), (.insert, 5), (.insert, 6)] (workingSet .masstree 3) t := by
  intro i _ op hop
  have hmem := List.mem_of_getElem? hop
  have hzero : workingSet .masstree 3 = 0 := rfl
  rw [hzero, Nat.mul_zero]
  simp only [List.mem_cons, List.not_mem_nil, or_false] at hmem
  rcases hmem with rfl | rfl | rfl <;> norm_num

/-- The first pass is fresh. -/
theorem heavyInsert_fresh_three :
    Fresh [(.insert, 4), (.insert, 5), (.insert, 6)] (workingSet .masstree 3) threeKeys.allKeys.toFinset 3 := by
  refine (heavyInsert_fresh_iff .masstree (Nat.le_refl 3) layout_threeKeys rfl _ operations_threeKeys
    (fits_threeKeys 3)).mpr (Or.inr ?_)
  decide

/-- The second one inserts its first key again. -/
theorem heavyInsert_reinserts :
    ¬ ∀ (target : Target) (n : ℕ), 3 ≤ n → ∀ laid ks : Keys ℕ, layout target n 1 = some laid →
      Shuffled target laid ks → ∀ (draws : List (Draw n)) (ops : List (OpType × ℕ)),
      operations .heavyInsert target ks 1 0 draws = some ops → ∀ t, Fits ops (workingSet target n) t →
      Fresh ops (workingSet target n) ks.allKeys.toFinset t := by
  intro h
  have hfresh := h .masstree 3 (Nat.le_refl 3) _ _ layout_threeKeys rfl _ _ operations_threeKeys 4
    (fits_threeKeys 4)
  have hinserts := operations_inserts (Nat.le_refl 3) layout_threeKeys rfl .heavyInsert _ operations_threeKeys
  exact hinserts.not_fresh (by decide) (fits_threeKeys 4) (by decide) (by decide) hfresh

end SidleBaselines.Synthetic.Passes
