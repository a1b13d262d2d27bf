import Mathlib

/-!
# Random draws

The benchmark's generator `fast_random`, a 48-bit linear congruential generator,
and the functions that draw numbers, names and ids from it. A `Draw` threads the
generator; `Gives` says what it draws whatever the generator.

A loop that rejects draws until one is accepted (`redraw`) is given as many
rejections as there are generator states: with that many in a row the generator
is where it began, and the loop never ends.

## What is proved

* `Gives.bind`, `gives_forRange` — the rules of `Gives`.
* `gives_randomNumber` — a draw from `min` to `max` lies between them: the function's
  own assertion.
* `gives_nonUniformRandom`, and with it `gives_getCustomerId` and `gives_getItemId` — a
  customer or item id drawn is one the loader makes rows for.
-/

namespace SidleBaselines.Tpcc

/-! ### Options -/

/-- `warehouse_num` and `num_district_per_warehouse`, as `parse_args` accepts them, and
the shuffle of the library the program is linked with. -/
structure Args where
  /-- How many warehouses. -/
  warehouseNum : ℕ
  /-- How many districts each warehouse has. -/
  numDistrictPerWarehouse : ℕ
  /-- `assert(warehouse_num > 0 && warehouse_num < 255)`. -/
  warehouses : 0 < warehouseNum ∧ warehouseNum < 255
  /-- `assert(num_district_per_warehouse > 0 && num_district_per_warehouse < 256)`. -/
  districts : 0 < numDistrictPerWarehouse ∧ numDistrictPerWarehouse < 256
  /-- `std::shuffle(.., std::default_random_engine())`. -/
  shuffle : List ℕ → List ℕ
  /-- A shuffle permutes what it is given. -/
  shuffle_perm : ∀ l, (shuffle l).Perm l

/-- `num_item`. -/
def numItem : ℕ := 100000

/-- `num_customer_per_district`. -/
def numCustomerPerDistrict : ℕ := 3000

/-- `g_new_order_remote_item_pct`. -/
def gNewOrderRemoteItemPct : ℤ := 1

/-- `g_uniform_item_dist`. -/
def gUniformItemDist : Bool := false

/-! ### Machine integers -/

/-- The value as a `uint32_t`. -/
def u32 (z : ℤ) : ℕ := (z % 2 ^ 32).toNat

/-- The value as an `int`. -/
def i32 (z : ℤ) : ℤ := z.bmod (2 ^ 32)

theorem u32_of_mem {z : ℤ} (h₀ : 0 ≤ z) (h₁ : z < 2 ^ 32) : (u32 z : ℤ) = z := by
  unfold u32; omega

theorem u32_lt (z : ℤ) : u32 z < 2 ^ 32 := by unfold u32; omega

theorem u32_succ (n : ℕ) : u32 (n + 1) = (n + 1) % 2 ^ 32 := by unfold u32; omega

theorem i32_of_mem {z : ℤ} (h₀ : -2 ^ 31 ≤ z) (h₁ : z < 2 ^ 31) : i32 z = z := by
  unfold i32; rw [Int.bmod_eq_of_le] <;> omega

/-! ### The generator -/

/-- `fast_random`. -/
structure FastRandom where
  /-- The generator's state. -/
  seed : ℕ
  deriving DecidableEq, Repr

/-- `fast_random(seed)`. -/
def FastRandom.new (seed : ℕ) : FastRandom := ⟨(seed ^^^ 0x5DEECE66D) &&& (2 ^ 48 - 1)⟩

/-- What a generator gives, and the generator after it. -/
def Draw (α : Type) := FastRandom → α × FastRandom

namespace Draw

variable {α β : Type}

/-- Draw nothing. -/
def pure (a : α) : Draw α := fun r => (a, r)

/-- One draw, then another that depends on it. -/
def bind (m : Draw α) (f : α → Draw β) : Draw β := fun r => f (m r).1 (m r).2

instance : Monad Draw where
  pure := pure
  bind := bind

end Draw

/-- `next(bits)`: the top bits of the next state. -/
def next (bits : ℕ) : Draw ℕ := fun r =>
  let seed := (r.seed * 0x5DEECE66D + 0xB) % 2 ^ 64 &&& (2 ^ 48 - 1)
  (seed >>> (48 - bits), ⟨seed⟩)

/-- `next()`: two draws of 32 bits. -/
def nextLong : Draw ℕ := do
  let hi ← next 32
  let lo ← next 32
  return hi <<< 32 + lo

/-- `next_u32()`. -/
def nextU32 : Draw ℕ := next 32

/-- `next_char()`. -/
def nextChar : Draw Char := do
  let c ← next 8
  return Char.ofNat (c % 256)

/-! ### What is drawn, whatever the generator -/

/-- Every generator gives something that satisfies `P`. -/
def Gives {α : Type} (m : Draw α) (P : α → Prop) : Prop := ∀ r, P (m r).1

namespace Gives

variable {α β : Type} {m : Draw α} {f : α → Draw β} {P P' : α → Prop} {Q : β → Prop}

theorem pure {a : α} (h : P a) : Gives (Pure.pure a) P := fun _ => h

theorem bind (h : Gives m P) (hf : ∀ a, P a → Gives (f a) Q) : Gives (m >>= f) Q :=
  fun r => hf _ (h r) _

/-- A draw nothing is said about. -/
theorem skip (hf : ∀ a, Gives (f a) Q) : Gives (m >>= f) Q := fun _ => hf _ _

theorem mono (h : Gives m P) (hP : ∀ a, P a → P' a) : Gives m P' := fun r => hP _ (h r)

theorem trivial : Gives m fun _ => True := fun _ => ⟨⟩

end Gives

/-- How many states the generator has. -/
@[irreducible] def generatorStates : ℕ := 2 ^ 48

/-- Draw until `ok`, after at most `fuel` rejections. -/
def redraw {α : Type} (draw : Draw α) (ok : α → Bool) : ℕ → Draw α
  | 0 => draw
  | fuel + 1 => do
    let a ← draw
    if ok a then return a else redraw draw ok fuel

/-- What every draw satisfies, the accepted one does. -/
theorem gives_redraw {α : Type} {draw : Draw α} {P : α → Prop} (ok : α → Bool) (h : Gives draw P)
    (fuel : ℕ) : Gives (redraw draw ok fuel) P := by
  induction fuel with
  | zero => exact h
  | succ fuel ih =>
    refine h.bind fun a ha => ?_
    split_ifs
    · exact .pure ha
    · exact ih

/-- `for (i = 1; i <= n; i++) body`: what the rounds give, one after another, and the
loop's own variable `s` after the last. -/
def forRange {α τ : Type} (n : ℕ) (s : τ) (body : ℕ → τ → Draw (List α × τ)) : Draw (List α × τ) :=
  match n with
  | 0 => return ([], s)
  | n + 1 => do
    let (l, s) ← forRange n s body
    let (l', s) ← body (n + 1) s
    return (l ++ l', s)

/-- **Loops**: `I i` holds of the loop's variable after round `i`, and round `i` gives
one thing for each of `idx i`, in this order, that `P` relates it to. -/
theorem gives_forRange {ι α τ : Type} {n : ℕ} {s : τ} {body : ℕ → τ → Draw (List α × τ)}
    (I : ℕ → τ → Prop) (idx : ℕ → List ι) (P : ι → α → Prop) (init : I 0 s)
    (step : ∀ i s, i < n → I i s →
      Gives (body (i + 1) s) fun x => List.Forall₂ P (idx (i + 1)) x.1 ∧ I (i + 1) x.2) :
    Gives (forRange n s body) fun x =>
      List.Forall₂ P ((List.range' 1 n).flatMap idx) x.1 ∧ I n x.2 := by
  induction n with
  | zero => exact .pure ⟨.nil, init⟩
  | succ n ih =>
    refine (ih fun i s h hI => step i s (by omega) hI).bind fun x hx => ?_
    refine (step n x.2 (by omega) hx.2).bind fun y hy => .pure ⟨?_, hy.2⟩
    rw [List.range'_1_concat, List.flatMap_append, List.flatMap_singleton, Nat.add_comm 1 n]
    exact List.rel_append hx.1 hy.1

/-- A loop whose own variable nothing is said about. -/
theorem gives_loop {ι α τ : Type} {n : ℕ} {s : τ} {body : ℕ → τ → Draw (List α × τ)} (idx : ℕ → List ι)
    (P : ι → α → Prop)
    (h : ∀ i s, 1 ≤ i → i ≤ n → Gives (body i s) fun x => List.Forall₂ P (idx i) x.1) :
    Gives (forRange n s body) fun x => List.Forall₂ P ((List.range' 1 n).flatMap idx) x.1 :=
  (gives_forRange (fun _ _ => True) idx P ⟨⟩ fun i s hi _ =>
    (h (i + 1) s (by omega) (by omega)).mono fun _ hx => ⟨hx, ⟨⟩⟩).mono fun _ hx => hx.1

/-- A loop that gives one thing a round. -/
theorem gives_rows {ι α τ : Type} {n : ℕ} {s : τ} {body : ℕ → Draw α} (idx : ℕ → ι)
    (P : ι → α → Prop) (h : ∀ i, 1 ≤ i → i ≤ n → Gives (body i) (P (idx i))) :
    Gives (forRange n s fun i s => do let a ← body i; return ([a], s)) fun x =>
      List.Forall₂ P ((List.range' 1 n).flatMap fun i => [idx i]) x.1 :=
  gives_loop _ P fun i _ h₁ h₂ => (h i h₁ h₂).bind fun _ ha => .pure (.cons ha .nil)

/-! ### Numbers -/

/-- `RandomNumber(r, min, max)`: the sum is taken in `uint32_t` and read as an `int`. -/
def randomNumber (min max : ℤ) : Draw ℤ := do
  let x ← nextU32
  return i32 (u32 (min + x % u32 (max - min + 1)))

/-- `NonUniformRandom(r, A, C, min, max)`. -/
def nonUniformRandom (A C min max : ℕ) : Draw ℤ := do
  let x ← randomNumber 0 A
  let y ← randomNumber min max
  return (((x.toNat ||| y.toNat : ℕ) : ℤ) + C) % (max - min + 1) + min

/-- `GetCustomerId(r)`. -/
def getCustomerId : Draw ℤ := nonUniformRandom 1023 259 1 numCustomerPerDistrict

/-- `GetItemId(r)`. -/
def getItemId : Draw ℤ :=
  if gUniformItemDist then randomNumber 1 numItem else nonUniformRandom 8191 7911 1 numItem

/-- **The assertion of `RandomNumber`**: the draw lies in the range asked for. -/
theorem gives_randomNumber (min max : ℤ) (h₀ : 0 ≤ min) (h : min ≤ max) (h₁ : max < 2 ^ 31 - 1) :
    Gives (randomNumber min max) fun x => min ≤ x ∧ x ≤ max := by
  refine .skip fun x => .pure ?_
  have hr : (u32 (max - min + 1) : ℤ) = max - min + 1 := u32_of_mem (by omega) (by omega)
  have hlt : (x : ℤ) % (max - min + 1) < max - min + 1 := Int.emod_lt_of_pos _ (by omega)
  have hnn : 0 ≤ (x : ℤ) % (max - min + 1) := Int.emod_nonneg _ (by omega)
  rw [hr, u32_of_mem (by omega) (by omega), i32_of_mem (by omega) (by omega)]
  omega

theorem gives_nonUniformRandom (A C min max : ℕ) (h : min ≤ max) :
    Gives (nonUniformRandom A C min max) fun x => (min : ℤ) ≤ x ∧ x ≤ max := by
  refine .skip fun x => .skip fun y => .pure ?_
  have := Int.emod_lt_of_pos (((x.toNat ||| y.toNat : ℕ) : ℤ) + C) (show (0 : ℤ) < max - min + 1 by omega)
  have := Int.emod_nonneg (((x.toNat ||| y.toNat : ℕ) : ℤ) + C) (show (max - min + 1 : ℤ) ≠ 0 by omega)
  omega

theorem gives_getCustomerId : Gives getCustomerId fun x => 1 ≤ x ∧ x ≤ numCustomerPerDistrict := by
  have := gives_nonUniformRandom 1023 259 1 numCustomerPerDistrict (by decide)
  simpa [getCustomerId] using this

theorem gives_getItemId : Gives getItemId fun x => 1 ≤ x ∧ x ≤ numItem := by
  have := gives_nonUniformRandom 8191 7911 1 numItem (by decide)
  simpa [getItemId, gUniformItemDist] using this

/-! ### Strings -/

/-- `isalnum(c)`. -/
def isalnum (c : Char) : Bool :=
  ('0' ≤ c && c ≤ '9') || ('A' ≤ c && c ≤ 'Z') || ('a' ≤ c && c ≤ 'z')

/-- `n` draws, first to last. -/
def drawChars (draw : Draw Char) : ℕ → Draw (List Char)
  | 0 => return []
  | n + 1 => do
    let c ← draw
    let cs ← drawChars draw n
    return c :: cs

/-- `RandomStr(r, len)`: `len - 1` letters and digits. -/
def randomStr (len : ℤ) : Draw (List Char) :=
  if u32 len = 0 then return [] else drawChars (redraw nextChar isalnum generatorStates) (u32 len - 1)

/-- `RandomNStr(r, len)`: `len` digits. -/
def randomNStr (len : ℕ) : Draw (List Char) :=
  drawChars (do let x ← nextLong; return Char.ofNat ('0'.toNat + x % 10)) len

/-- `RandomStr(r, RandomNumber(r, min, max))`. -/
def randomStrOf (min max : ℤ) : Draw (List Char) := do
  let len ← randomNumber min max
  randomStr len

/-- `NameTokens`. -/
def nameTokens : List String :=
  ["BAR", "OUGHT", "ABLE", "PRI", "PRES", "ESE", "ANTI", "CALLY", "ATION", "EING"]

/-- `GetCustomerLastName(r, num)`. -/
def getCustomerLastName (num : ℕ) : List Char :=
  (nameTokens.getD (num / 100) "" ++ nameTokens.getD (num / 10 % 10) "" ++
    nameTokens.getD (num % 10) "").toList

/-- `GetNonUniformCustomerLastNameLoad(r)`. -/
def getNonUniformCustomerLastNameLoad : Draw (List Char) := do
  let num ← nonUniformRandom 255 157 0 999
  return getCustomerLastName num.toNat

/-- `varibale_str<N>::assign(s)`: at most `N` characters of the C string, padded with
blanks. -/
def varibaleStr (N : ℕ) (s : List Char) : List Char :=
  let s := s.takeWhile (· ≠ '\x00')
  s.take N ++ List.replicate (N - s.length) ' '

end SidleBaselines.Tpcc
