import SidleBaselines.Data.Lcg
import SidleBaselines.Tpcc.World

/-!
# The loops that reject draws

`RandomStr` draws characters until it has enough letters and digits, and
`txn_new_order` and `txn_payment` draw warehouses until they have another one than
their own. Nothing in the loops bounds the number of draws. They end because the
generator goes through all its `2 ^ 48` states, and some of them are accepted.

The loops are given `fuel`, a number of turns, and return `none` when it is used up.

## What is proved

* `next_step` — `next` is a step of a linear congruential generator of full period;
* `redrawLoop_accepts` — a loop over draws of one `next` each ends if some state is
  accepted, with what `redraw` gives;
* `randomStrLoop_eq` — so `RandomStr` ends, with what `randomStr` gives;
* `rejection_loops_end` — all three loops end, with letters and digits and with a
  warehouse of the range that is not the own one.
-/

namespace SidleBaselines.Tpcc

/-! ### The generator -/

/-- The state after a draw. -/
def nextSeed (seed : ℕ) : ℕ :=
  Lcg.step 0x5DEECE66D 0xB (2 ^ 48) seed

/-- A draw of one `next` that gives `f` of the new state. -/
def OneStep {α : Type} (draw : Draw α) (f : ℕ → α) : Prop :=
  ∀ r, draw r = (f (nextSeed r.seed), ⟨nextSeed r.seed⟩)

/-- The mask of `next` is the modulus. -/
theorem next_step (bits : ℕ) : OneStep (next bits) fun seed => seed >>> (48 - bits) := by
  intro r
  have hseed : (r.seed * 0x5DEECE66D + 0xB) % 2 ^ 64 &&& (2 ^ 48 - 1) = nextSeed r.seed := by
    rw [Nat.and_two_pow_sub_one_eq_mod, Nat.mod_mod_of_dvd _ (Nat.pow_dvd_pow 2 (by omega)), nextSeed,
      Lcg.step, Nat.mul_comm]
  rw [next, hseed]

theorem nextChar_step : OneStep nextChar fun seed => Char.ofNat (seed >>> 40 % 256) := by
  intro r
  have hnext := next_step 8 r
  change (let x := next 8 r; (Char.ofNat (x.1 % 256), x.2)) = _
  rw [hnext]

theorem randomNumber_step (min max : ℤ) :
    OneStep (randomNumber min max) fun seed => i32 (u32 (min + (seed >>> 16 : ℕ) % u32 (max - min + 1))) := by
  intro r
  have hnext := next_step 32 r
  change (let x := next 32 r; (i32 (u32 (min + (x.1 : ℤ) % u32 (max - min + 1))), x.2)) = _
  rw [hnext]

/-! ### A loop over draws -/

/-- `do x = draw while (!ok(x))`. -/
def redrawLoop {α : Type} (draw : Draw α) (ok : α → Bool) : ℕ → FastRandom → Option (α × FastRandom)
  | 0, _ => none
  | fuel + 1, r => if ok (draw r).1 then some (draw r) else redrawLoop draw ok fuel (draw r).2

section

variable {α : Type} {draw : Draw α} {ok : α → Bool} {f : ℕ → α}

/-- What the loop ends with is accepted. -/
theorem redrawLoop_ok {fuel : ℕ} {r : FastRandom} {x : α × FastRandom}
    (h : redrawLoop draw ok fuel r = some x) : ok x.1 = true := by
  induction fuel generalizing r with
  | zero => cases h
  | succ fuel ih =>
    rw [redrawLoop] at h
    split_ifs at h with hok
    · cases h
      exact hok
    · exact ih h

/-- `redraw` follows the loop where that ends. -/
theorem redraw_eq {fuel fuel' : ℕ} (hfuel : fuel ≤ fuel' + 1) {r : FastRandom} {x : α × FastRandom}
    (h : redrawLoop draw ok fuel r = some x) : redraw draw ok fuel' r = x := by
  induction fuel generalizing r fuel' with
  | zero => cases h
  | succ fuel ih =>
    rw [redrawLoop] at h
    cases fuel' with
    | zero =>
      split_ifs at h with hok
      · exact Option.some.inj h
      · obtain rfl : fuel = 0 := by omega
        cases h
    | succ fuel' =>
      have hredraw : redraw draw ok (fuel' + 1) r =
          if ok (draw r).1 then draw r else redraw draw ok fuel' (draw r).2 := by
        change (if ok (draw r).1 then Pure.pure (draw r).1 else redraw draw ok fuel' : Draw α) (draw r).2 = _
        split_ifs <;> rfl
      rw [hredraw]
      split_ifs at h ⊢ with hok
      · exact Option.some.inj h
      · exact ih (by omega) h

/-- The loop ends at the latest in the first accepted state. -/
theorem redrawLoop_isSome (hdraw : OneStep draw f) {n : ℕ} {r : FastRandom}
    (h : ok (f (nextSeed^[n + 1] r.seed)) = true) : (redrawLoop draw ok (n + 1) r).isSome := by
  induction n generalizing r with
  | zero =>
    have hok : ok (draw r).1 = true := by
      rw [hdraw r]
      exact h
    rw [redrawLoop, if_pos hok]
    rfl
  | succ n ih =>
    rw [redrawLoop]
    split_ifs with hok
    · rfl
    · refine ih ?_
      rw [hdraw r]
      rwa [Function.iterate_succ_apply] at h

/-- If a state is accepted, the loop ends whatever the generator, and `redraw` gives
what it ends with. -/
theorem redrawLoop_accepts (hdraw : OneStep draw f) {y : ℕ} (hy : y < 2 ^ 48) (hok : ok (f y) = true)
    (r : FastRandom) :
    ∃ fuel, redrawLoop draw ok fuel r = some (redraw draw ok generatorStates r) := by
  obtain ⟨n, hn, hhit⟩ := Lcg.exists_hit (a := 0x5DEECE66D) (c := 0xB) (k := 48) rfl rfl r.seed hy
  have hsome : (redrawLoop draw ok (n + 1) r).isSome := by
    refine redrawLoop_isSome hdraw ?_
    rw [← hhit] at hok
    exact hok
  obtain ⟨x, hx⟩ := Option.isSome_iff_exists.mp hsome
  have hfuel : n + 1 ≤ generatorStates + 1 := by
    rw [generatorStates]
    omega
  exact ⟨n + 1, by rw [hx, redraw_eq hfuel hx]⟩

end

/-! ### Strings -/

/-- The loop of `RandomStr` for `n` characters, of which `buf` has the first. -/
def strLoop (n : ℕ) : ℕ → List Char → FastRandom → Option (List Char × FastRandom)
  | 0, _, _ => none
  | fuel + 1, buf, r =>
    if buf.length < n then
      if isalnum (nextChar r).1 then strLoop n fuel (buf ++ [(nextChar r).1]) (nextChar r).2
      else strLoop n fuel buf (nextChar r).2
    else some (buf, r)

/-- `RandomStr(r, len)`. -/
def randomStrLoop (len : ℤ) (fuel : ℕ) (r : FastRandom) : Option (List Char × FastRandom) :=
  if u32 len = 0 then some ([], r) else strLoop (u32 len - 1) fuel [] r

/-- Up to the next character the loop is that of one draw. -/
theorem strLoop_of_redrawLoop {n fuel : ℕ} {buf : List Char} (hbuf : buf.length < n) {r : FastRandom}
    {c : Char × FastRandom} (h : redrawLoop nextChar isalnum fuel r = some c) {x : List Char × FastRandom}
    (hx : ∃ fuel', strLoop n fuel' (buf ++ [c.1]) c.2 = some x) : ∃ fuel', strLoop n fuel' buf r = some x := by
  induction fuel generalizing r with
  | zero => cases h
  | succ fuel ih =>
    rw [redrawLoop] at h
    split_ifs at h with hok
    · obtain ⟨fuel', hfuel'⟩ := hx
      have heq := Option.some.inj h
      refine ⟨fuel' + 1, ?_⟩
      rw [strLoop, if_pos hbuf, if_pos hok, heq, hfuel']
    · obtain ⟨fuel', hfuel'⟩ := ih h
      refine ⟨fuel' + 1, ?_⟩
      rw [strLoop, if_pos hbuf, if_neg hok, hfuel']

theorem drawChars_zero (draw : Draw Char) (r : FastRandom) : drawChars draw 0 r = ([], r) := rfl

theorem drawChars_succ (draw : Draw Char) (n : ℕ) (r : FastRandom) :
    drawChars draw (n + 1) r = ((draw r).1 :: (drawChars draw n (draw r).2).1, (drawChars draw n (draw r).2).2) :=
  rfl

/-- `'0'` comes again. -/
theorem nextChar_accepts (r : FastRandom) :
    ∃ fuel, redrawLoop nextChar isalnum fuel r = some (redraw nextChar isalnum generatorStates r) :=
  redrawLoop_accepts (y := 48 <<< 40) nextChar_step (by decide) (by decide +kernel) r

theorem strLoop_drawChars (n : ℕ) (buf : List Char) (r : FastRandom) {k : ℕ} (hk : buf.length + k = n) :
    ∃ fuel, strLoop n fuel buf r =
      some (buf ++ (drawChars (redraw nextChar isalnum generatorStates) k r).1,
        (drawChars (redraw nextChar isalnum generatorStates) k r).2) := by
  induction k generalizing buf r with
  | zero =>
    refine ⟨1, ?_⟩
    rw [strLoop, if_neg (by omega), drawChars_zero, List.append_nil]
  | succ k ih =>
    obtain ⟨fuel, hfuel⟩ := nextChar_accepts r
    refine strLoop_of_redrawLoop (by omega) hfuel ?_
    obtain ⟨fuel', hfuel'⟩ := ih (buf ++ [(redraw nextChar isalnum generatorStates r).1])
      (redraw nextChar isalnum generatorStates r).2 (by rw [List.length_append, List.length_singleton]; omega)
    refine ⟨fuel', ?_⟩
    rw [hfuel', drawChars_succ, List.append_assoc, List.singleton_append]

/-- As many characters as asked for, each one accepted. -/
theorem drawChars_spec (n : ℕ) (r : FastRandom) :
    (drawChars (redraw nextChar isalnum generatorStates) n r).1.length = n ∧
      ∀ c ∈ (drawChars (redraw nextChar isalnum generatorStates) n r).1, isalnum c = true := by
  induction n generalizing r with
  | zero =>
    rw [drawChars_zero]
    exact ⟨rfl, fun c hc => absurd hc List.not_mem_nil⟩
  | succ n ih =>
    obtain ⟨hlength, halnum⟩ := ih (redraw nextChar isalnum generatorStates r).2
    obtain ⟨fuel, hfuel⟩ := nextChar_accepts r
    rw [drawChars_succ]
    refine ⟨by rw [List.length_cons, hlength], ?_⟩
    intro c hc
    rcases List.mem_cons.mp hc with rfl | hc
    · exact redrawLoop_ok hfuel
    · exact halnum c hc

theorem randomStrLoop_eq (len : ℤ) (r : FastRandom) :
    ∃ fuel, randomStrLoop len fuel r = some (randomStr len r) := by
  by_cases hzero : u32 len = 0
  · refine ⟨0, ?_⟩
    rw [randomStrLoop, if_pos hzero, randomStr, if_pos hzero]
    rfl
  · obtain ⟨fuel, hfuel⟩ := strLoop_drawChars (u32 len - 1) [] r (Nat.zero_add _)
    refine ⟨fuel, ?_⟩
    rw [randomStrLoop, if_neg hzero, hfuel, randomStr, if_neg hzero, List.nil_append]

theorem randomStr_spec (len : ℤ) (r : FastRandom) :
    (randomStr len r).1.length = u32 len - 1 ∧ ∀ c ∈ (randomStr len r).1, isalnum c = true := by
  by_cases hzero : u32 len = 0
  · rw [randomStr, if_pos hzero, hzero]
    exact ⟨rfl, fun c hc => absurd hc List.not_mem_nil⟩
  · rw [randomStr, if_neg hzero]
    exact drawChars_spec _ r

/-! ### Other warehouses -/

section

variable (args : Args)

/-- Of the first two warehouses one is another. -/
theorem drawOtherWarehouse_accepts (h : 2 ≤ args.warehouseNum) (w : ℕ) (r : FastRandom) :
    ∃ fuel, redrawLoop (randomNumber 1 args.warehouseNum) (fun x => x ≠ w) fuel r =
      some (drawOtherWarehouse args w r) := by
  have hW := args.warehouses.2
  have hrange : u32 ((args.warehouseNum : ℤ) - 1 + 1) = args.warehouseNum := by
    rw [u32]
    omega
  have hdraw := randomNumber_step 1 args.warehouseNum
  rw [hrange] at hdraw
  by_cases hone : w = 1
  · refine redrawLoop_accepts (y := 1 <<< 16) hdraw (by decide) ?_ r
    have hmod : ((1 <<< 16 >>> 16 : ℕ) : ℤ) % (args.warehouseNum : ℤ) = 1 :=
      Int.emod_eq_of_lt (by decide) (by simp; omega)
    have htwo : i32 (u32 (1 + 1)) = 2 := by decide
    rw [hmod, htwo, hone]
    decide
  · refine redrawLoop_accepts (y := 0) hdraw (by decide) ?_ r
    have hmod : ((0 >>> 16 : ℕ) : ℤ) % (args.warehouseNum : ℤ) = 0 := by simp
    have hfirst : i32 (u32 (1 + 0)) = 1 := by decide
    rw [hmod, hfirst]
    simpa using fun heq => hone (by omega)

theorem drawOtherWarehouse_spec (h : 2 ≤ args.warehouseNum) (w : ℕ) (r : FastRandom) :
    1 ≤ (drawOtherWarehouse args w r).1 ∧ (drawOtherWarehouse args w r).1 ≤ args.warehouseNum ∧
      (drawOtherWarehouse args w r).1 ≠ w := by
  obtain ⟨fuel, hfuel⟩ := drawOtherWarehouse_accepts args h w r
  have hne := redrawLoop_ok hfuel
  obtain ⟨hlow, hhigh⟩ := @gives_drawOtherWarehouse args w r
  exact ⟨hlow, hhigh, by simpa using hne⟩

end

/-- The loops that reject draws end whatever the generator: `RandomStr` with `len - 1`
letters and digits, and where there are two warehouses or more, the loops of
`txn_new_order` and `txn_payment` with another one than the own. -/
theorem rejection_loops_end :
    (∀ (r : FastRandom) (len : ℤ), ∃ fuel x, randomStrLoop len fuel r = some x ∧
      x.1.length = u32 len - 1 ∧ ∀ c ∈ x.1, isalnum c = true) ∧
    ∀ (args : Args), 2 ≤ args.warehouseNum → ∀ (r : FastRandom) (w : ℕ), ∃ fuel x,
      redrawLoop (randomNumber 1 args.warehouseNum) (fun x => x ≠ w) fuel r = some x ∧
      1 ≤ x.1 ∧ x.1 ≤ args.warehouseNum ∧ x.1 ≠ w := by
  refine ⟨?_, ?_⟩
  · intro r len
    obtain ⟨fuel, hfuel⟩ := randomStrLoop_eq len r
    exact ⟨fuel, _, hfuel, randomStr_spec len r⟩
  · intro args h r w
    obtain ⟨fuel, hfuel⟩ := drawOtherWarehouse_accepts args h w r
    exact ⟨fuel, _, hfuel, drawOtherWarehouse_spec args h w r⟩

/-- With two warehouses the other one is drawn. -/
theorem rejection_loops_end_two :
    ∃ fuel x, redrawLoop (randomNumber 1 twoWarehouses.warehouseNum) (fun x => x ≠ (1 : ℕ)) fuel (.new 1) = some x ∧
      1 ≤ x.1 ∧ x.1 ≤ twoWarehouses.warehouseNum ∧ x.1 ≠ (1 : ℕ) :=
  rejection_loops_end.2 twoWarehouses (Nat.le_refl 2) (.new 1) 1

end SidleBaselines.Tpcc
