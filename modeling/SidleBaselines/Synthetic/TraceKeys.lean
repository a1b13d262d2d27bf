import SidleBaselines.Data.Text
import SidleBaselines.Synthetic.Traces

/-!
# The keys of a trace

`prepare_data` of `src/benchmark/synthetic/micro_common.h`, which
`src/benchmark/real_world/real_world_trace.cpp` calls, makes the keys to load
before a trace is replayed. The first line of the file is the distance of two keys;
for each key of the following lines, it pushes keys that far apart until they have
reached it, or the next one does not fit below the largest number.

A loop stops with `none` after `fuel` turns. The C++ program terminates where there
is a `fuel` that is enough.

## What is proved

* `catchUp_spec`, `followTrace_spec` — what the loops push, if they stop;
* `catchUp_isSome` — the inner loop stops when the distance is not 0;
* `catchUp_zero` — it does not when the distance is 0 and a key lies ahead;
* `prepareData_ordered_iff` — the function terminates, with ordered keys that do not
  wrap and reach every key of the trace, if and only if the distance is not 0 or all
  keys of the trace are.
-/

namespace SidleBaselines.Synthetic.TraceKeys

open Text Traces

/-- The inner loop: what it pushes, and `cur_key` after it. -/
def catchUp (step keyFromTrace : ℕ) : ℕ → ℕ → Option (List ℕ × ℕ)
  | 0, _ => none
  | fuel + 1, curKey =>
    if keyFromTrace > curKey ∧ 2 ^ 64 - 1 - curKey > step then do
      let (keys, curKey') ← catchUp step keyFromTrace fuel ((curKey + step) % 2 ^ 64)
      return (curKey :: keys, curKey')
    else some ([], curKey)

/-- The loop over the lines. -/
def followTrace (step fuel : ℕ) : List ℕ → ℕ → Option (List ℕ × ℕ)
  | [], curKey => some ([], curKey)
  | keyFromTrace :: trace, curKey => do
    let (keys, curKey) ← catchUp step keyFromTrace fuel curKey
    let (rest, curKey') ← followTrace step fuel trace curKey
    return (keys ++ curKey :: rest, curKey')

/-- `step`, as the first line has it. -/
def fileStep (file : List Char) : ℕ :=
  strtoull ((getlines file).headD [])

/-- The keys of the following lines. -/
def fileTrace (file : List Char) : List ℕ :=
  (getlines file).tail.map strtoull

/-- `test_data_set_size`. -/
def testDataSetSize : ℕ := 20000000

/-- `all_keys`, before it is shuffled for `art`. -/
def prepareData (target : Target) (fuel : ℕ) (file : List Char) : Option (List ℕ) :=
  if target = .art then some (pushKeys ((2 ^ 64 - 1) / testDataSetSize) testDataSetSize 0).1
  else (followTrace (fileStep file) fuel (fileTrace file) 0).map Prod.fst

/-! ### The inner loop -/

section

variable {step t fuel cur : ℕ}

/-- The next key is the same or the next. -/
def Follows (step : ℕ) (a b : ℕ) : Prop :=
  b = a ∨ b = a + step

/-- What the inner loop pushes, and then `cur_key`. -/
structure CaughtUp (step t cur : ℕ) (keys : List ℕ) (cur' : ℕ) : Prop where
  chain : (keys ++ [cur']).IsChain (Follows step)
  head : (keys ++ [cur']).head? = some cur
  lt : ∀ k ∈ keys ++ [cur'], k < 2 ^ 64
  reached : t ≤ cur' ∨ 2 ^ 64 - 1 - cur' ≤ step

theorem catchUp_spec (hcur : cur < 2 ^ 64) {keys : List ℕ} {cur' : ℕ}
    (h : catchUp step t fuel cur = some (keys, cur')) : CaughtUp step t cur keys cur' := by
  induction fuel generalizing cur keys with
  | zero => cases h
  | succ fuel ih =>
    rw [catchUp] at h
    split_ifs at h with hguard
    · have hfits : (cur + step) % 2 ^ 64 = cur + step := Nat.mod_eq_of_lt (by omega)
      rw [hfits] at h
      obtain ⟨⟨rest, last⟩, hrest, heq⟩ := Option.bind_eq_some_iff.mp h
      cases heq
      have hih := ih (by omega) hrest
      refine ⟨?_, rfl, ?_, hih.reached⟩
      · rw [List.cons_append, List.isChain_cons]
        refine ⟨?_, hih.chain⟩
        intro b hb
        rw [hih.head] at hb
        cases hb
        exact Or.inr rfl
      · rintro k (_ | ⟨_, hk⟩)
        · exact hcur
        · exact hih.lt k hk
    · cases h
      refine ⟨List.isChain_singleton _, rfl, ?_, by omega⟩
      intro k hk
      rw [List.nil_append, List.mem_singleton] at hk
      rw [hk]
      exact hcur

/-- Each turn comes nearer to the largest number. -/
theorem catchUp_isSome (hstep : 0 < step) (t : ℕ) (hcur : cur < 2 ^ 64) (hfuel : 2 ^ 64 ≤ cur + fuel) :
    (catchUp step t fuel cur).isSome := by
  induction fuel generalizing cur with
  | zero => omega
  | succ fuel ih =>
    rw [catchUp]
    split_ifs with hguard
    · have hfits : (cur + step) % 2 ^ 64 = cur + step := Nat.mod_eq_of_lt (by omega)
      obtain ⟨r, hr⟩ := Option.isSome_iff_exists.mp (@ih (cur + step) (by omega) (by omega))
      rw [hfits, hr]
      rfl
    · rfl

/-- With distance 0 the loop goes on forever when a key lies ahead. -/
theorem catchUp_zero (ht : 0 < t) (fuel : ℕ) : catchUp 0 t fuel 0 = none := by
  induction fuel with
  | zero => rfl
  | succ fuel ih =>
    rw [catchUp, if_pos ⟨ht, by norm_num⟩, Nat.add_zero, Nat.zero_mod, ih]
    rfl

end

/-! ### The loop over the trace -/

section

variable {step fuel cur : ℕ} {trace : List ℕ}

theorem followTrace_cons (t : ℕ) :
    followTrace step fuel (t :: trace) cur =
      (catchUp step t fuel cur).bind fun r =>
        (followTrace step fuel trace r.2).bind fun r' => some (r.1 ++ r.2 :: r'.1, r'.2) :=
  rfl

/-- A trace in two parts. -/
theorem followTrace_append (pre suf : List ℕ) (cur : ℕ) :
    followTrace step fuel (pre ++ suf) cur =
      (followTrace step fuel pre cur).bind fun r =>
        (followTrace step fuel suf r.2).bind fun r' => some (r.1 ++ r'.1, r'.2) := by
  induction pre generalizing cur with
  | nil =>
    rw [List.nil_append, followTrace, Option.bind_some]
    cases followTrace step fuel suf cur <;> rfl
  | cons t pre ih =>
    rw [List.cons_append, followTrace_cons, followTrace_cons]
    cases catchUp step t fuel cur with
    | none => rfl
    | some r =>
      rw [Option.bind_some, Option.bind_some, ih]
      cases followTrace step fuel pre r.2 with
      | none => rfl
      | some r' =>
        simp only [Option.bind_some]
        cases followTrace step fuel suf r'.2 with
        | none => rfl
        | some r'' => simp

/-- What the loop pushes for a trace. -/
structure Followed (step cur : ℕ) (trace keys : List ℕ) (cur' : ℕ) : Prop where
  chain : keys.IsChain (Follows step)
  head : ∀ k ∈ keys.head?, k = cur
  last : keys.getLast?.getD cur = cur'
  lt : ∀ k ∈ keys, k < 2 ^ 64
  cur_lt : cur' < 2 ^ 64

theorem followTrace_spec (hcur : cur < 2 ^ 64) {keys : List ℕ} {cur' : ℕ}
    (h : followTrace step fuel trace cur = some (keys, cur')) : Followed step cur trace keys cur' := by
  induction trace generalizing cur keys with
  | nil =>
    cases h
    exact ⟨List.isChain_nil, by simp, rfl, by simp, hcur⟩
  | cons t trace ih =>
    rw [followTrace_cons] at h
    obtain ⟨⟨part, mid⟩, hpart, h⟩ := Option.bind_eq_some_iff.mp h
    obtain ⟨⟨rest, last⟩, hrest, heq⟩ := Option.bind_eq_some_iff.mp h
    cases heq
    have hcatch := catchUp_spec hcur hpart
    have hmid : mid < 2 ^ 64 := hcatch.lt mid (by simp)
    have hfollow := ih hmid hrest
    have hsplit : part ++ mid :: rest = (part ++ [mid]) ++ rest := by simp
    simp only [hsplit]
    refine ⟨?_, ?_, ?_, ?_, hfollow.cur_lt⟩
    · rw [List.isChain_append]
      refine ⟨hcatch.chain, hfollow.chain, ?_⟩
      intro a ha b hb
      rw [List.getLast?_concat] at ha
      cases ha
      exact Or.inl (hfollow.head b hb)
    · intro k hk
      rw [List.head?_append, hcatch.head] at hk
      cases hk
      rfl
    · have hlast : rest.getLast?.getD mid = last := hfollow.last
      rw [← hlast, List.getLast?_append, List.getLast?_concat]
      cases rest.getLast? <;> rfl
    · intro k hk
      rcases List.mem_append.mp hk with hk | hk
      · exact hcatch.lt k hk
      · exact hfollow.lt k hk

theorem followTrace_isSome (hstep : 0 < step) (hcur : cur < 2 ^ 64) :
    (followTrace step (2 ^ 64) trace cur).isSome := by
  induction trace generalizing cur with
  | nil => rfl
  | cons t trace ih =>
    obtain ⟨⟨part, mid⟩, hpart⟩ := Option.isSome_iff_exists.mp
      (catchUp_isSome hstep t hcur (Nat.le_add_left (2 ^ 64) cur))
    have hmid : mid < 2 ^ 64 := (catchUp_spec hcur hpart).lt mid (by simp)
    obtain ⟨r, hr⟩ := Option.isSome_iff_exists.mp (ih hmid)
    rw [followTrace_cons, hpart, Option.bind_some, hr]
    rfl

/-- With distance 0 the loop ends only if there is nowhere to go. -/
theorem followTrace_zero (fuel : ℕ) : (followTrace 0 (fuel + 1) trace 0).isSome ↔ ∀ t ∈ trace, t = 0 := by
  induction trace with
  | nil => simp [followTrace]
  | cons t trace ih =>
    rw [List.forall_mem_cons, ← ih, followTrace_cons]
    rcases Nat.eq_zero_or_pos t with rfl | ht
    · rw [catchUp, if_neg (by simp), Option.bind_some]
      cases followTrace 0 (fuel + 1) trace 0 <;> simp
    · rw [catchUp_zero ht]
      simp [Nat.ne_of_gt ht]

/-- With fuel that is enough for the whole trace the loop stops. -/
theorem followTrace_terminates_iff :
    (∃ fuel, (followTrace step fuel trace 0).isSome) ↔ step ≠ 0 ∨ ∀ t ∈ trace, t = 0 := by
  rcases Nat.eq_zero_or_pos step with rfl | hstep
  · rw [← followTrace_zero 0]
    constructor
    · rintro ⟨fuel, hfuel⟩
      cases fuel with
      | zero =>
        cases trace with
        | nil => exact Or.inr rfl
        | cons t trace => cases hfuel
      | succ fuel => exact Or.inr ((followTrace_zero 0).mpr ((followTrace_zero fuel).mp hfuel))
    · rintro (hne | hsome)
      · exact absurd rfl hne
      · exact ⟨1, hsome⟩
  · refine iff_of_true ⟨2 ^ 64, followTrace_isSome hstep (Nat.two_pow_pos 64)⟩ (Or.inl (Nat.ne_of_gt hstep))

end

/-! ### Preparing the data -/

/-- The keys that are wanted for a trace. -/
structure Ordered (step fuel : ℕ) (trace keys : List ℕ) : Prop where
  /-- No addition wraps. -/
  chain : keys.IsChain (Follows step)
  lt : ∀ k ∈ keys, k < 2 ^ 64
  sorted : keys.Pairwise (· ≤ ·)
  head : ∀ k ∈ keys.head?, k = 0
  /-- After the lines up to that of `t`, the last key has reached `t`, or no other fits. -/
  reached : ∀ pre t suf, trace = pre ++ t :: suf → ∃ keys' last,
    followTrace step fuel (pre ++ [t]) 0 = some (keys', last) ∧ keys' <+: keys ∧ keys'.getLast? = some last ∧
      (t ≤ last ∨ 2 ^ 64 - 1 - last ≤ step)

theorem followTrace_ordered {step fuel : ℕ} {trace keys : List ℕ} {last : ℕ}
    (h : followTrace step fuel trace 0 = some (keys, last)) : Ordered step fuel trace keys := by
  have hspec := followTrace_spec (Nat.two_pow_pos 64) h
  refine ⟨hspec.chain, hspec.lt, ?_, hspec.head, ?_⟩
  · have hle : keys.IsChain (· ≤ ·) := by
      refine hspec.chain.imp ?_
      rintro a b (rfl | rfl)
      · exact Nat.le_refl _
      · exact Nat.le_add_right _ _
    exact List.isChain_iff_pairwise.mp hle
  · intro pre t suf htrace
    have hassoc : pre ++ t :: suf = (pre ++ [t]) ++ suf := by simp
    rw [htrace, hassoc, followTrace_append] at h
    obtain ⟨⟨keys', last'⟩, hpre, h⟩ := Option.bind_eq_some_iff.mp h
    obtain ⟨⟨rest, _⟩, _, heq⟩ := Option.bind_eq_some_iff.mp h
    cases heq
    rw [followTrace_append] at hpre
    obtain ⟨⟨before, cur⟩, hbefore, hone⟩ := Option.bind_eq_some_iff.mp hpre
    obtain ⟨⟨part, _⟩, hpart, heq⟩ := Option.bind_eq_some_iff.mp hone
    cases heq
    rw [followTrace_cons] at hpart
    obtain ⟨⟨part', mid⟩, hcatch, hpart⟩ := Option.bind_eq_some_iff.mp hpart
    cases hpart
    have hcur : cur < 2 ^ 64 := (followTrace_spec (Nat.two_pow_pos 64) hbefore).cur_lt
    have hcaught := catchUp_spec hcur hcatch
    refine ⟨before ++ (part' ++ [mid]), mid, ?_, List.prefix_append _ _, ?_, hcaught.reached⟩
    · rw [followTrace_append, hbefore, Option.bind_some, followTrace_cons, hcatch]
      rfl
    · rw [← List.append_assoc, List.getLast?_concat]

/-- For a target other than `art`, the function terminates with ordered keys if and
only if the first line is not 0 or all the others are. -/
theorem prepareData_ordered_iff {target : Target} (htarget : target ≠ .art) (file : List Char) :
    ((∃ fuel, (prepareData target fuel file).isSome) ∧
      ∀ fuel keys, prepareData target fuel file = some keys →
        Ordered (fileStep file) fuel (fileTrace file) keys) ↔
      fileStep file ≠ 0 ∨ ∀ t ∈ fileTrace file, t = 0 := by
  rw [← followTrace_terminates_iff]
  simp only [prepareData, if_neg htarget, Option.isSome_map]
  constructor
  · exact fun h => h.1
  · intro h
    refine ⟨h, ?_⟩
    intro fuel keys hkeys
    obtain ⟨⟨keys', last⟩, hfollow, rfl⟩ := Option.map_eq_some_iff.mp hkeys
    exact followTrace_ordered hfollow

/-- With distance 2 it terminates for a trace of 5 and 3. -/
theorem prepareData_ordered_two :
    ∃ fuel, (prepareData .masstree fuel ['2', '\n', '5', '\n', '3', '\n']).isSome :=
  ((@prepareData_ordered_iff .masstree (by decide) ['2', '\n', '5', '\n', '3', '\n']).mpr
    (Or.inl (by decide))).1

/-- With distance 0 it does not terminate for a trace of 5. -/
theorem prepareData_hangs :
    ¬ ∀ (target : Target) (file : List Char), target ≠ .art → ∃ fuel, (prepareData target fuel file).isSome := by
  intro h
  obtain ⟨fuel, hfuel⟩ := h .masstree ['0', '\n', '5', '\n'] (by decide)
  rw [prepareData, if_neg (by decide), Option.isSome_map] at hfuel
  have hwhere := followTrace_terminates_iff.mp ⟨fuel, hfuel⟩
  revert hwhere
  decide

end SidleBaselines.Synthetic.TraceKeys
