import SidleBaselines.Tpcc.Draws

/-!
# Draws that check themselves

`RandomNumber` divides by the size of its range, asserts that it has drawn from it, and
computes in `int`, as `NonUniformRandom` does. A `CheckedDraw` fails where one of these goes
wrong; `Checked` has the draws of the transactions again, all their calls checked.

## What is proved

* `Passes.bind`, `passes_redraw` — the rules of `Passes`.
* `randomNumber_checked`, `nonUniformRandom_checked` — a draw from a range that is not
  empty gets through.
* `drawNewOrder_checked`, `drawDelivery_checked`, `drawOrderStatus_checked`,
  `drawStockLevel_checked` — so does every call of these transactions.
-/

namespace SidleBaselines.Tpcc

/-! ### Checks -/

/-- The value, if it is one of an `int`. -/
def int32 (z : ℤ) : Option ℤ := if -2 ^ 31 ≤ z ∧ z < 2 ^ 31 then some z else none

theorem int32_of_mem {z : ℤ} (h₀ : -2 ^ 31 ≤ z) (h₁ : z < 2 ^ 31) : int32 z = some z := if_pos ⟨h₀, h₁⟩

/-- A draw that may fail: an `int` overflows, a remainder by zero is taken, or an assertion is
false. -/
def CheckedDraw (α : Type) := FastRandom → Option (α × FastRandom)

namespace CheckedDraw

variable {α β : Type}

/-- Draw nothing. -/
def pure (a : α) : CheckedDraw α := fun r => some (a, r)

/-- One draw, then another that depends on it. -/
def bind (m : CheckedDraw α) (f : α → CheckedDraw β) : CheckedDraw β := fun r =>
  (m r).bind fun x => f x.1 x.2

instance : Monad CheckedDraw where
  pure := pure
  bind := bind

end CheckedDraw

namespace Checked

/-- `RandomNumber(r, min, max)`. -/
def randomNumber (min max : ℤ) : CheckedDraw ℤ := fun r => do
  let size ← int32 (max - min)
  let size ← int32 (size + 1)
  let range := u32 size
  if range = 0 then none
  let (x, r) := nextU32 r
  let res := i32 (u32 (min + x % range))
  if min ≤ res ∧ res ≤ max then some (res, r) else none

/-- `(x + C) % (max - min + 1) + min`. -/
def scale (x : ℤ) (C min max : ℕ) : Option ℤ := do
  let sum ← int32 (x + C)
  let size ← int32 (max - min)
  let size ← int32 (size + 1)
  if size = 0 then none
  int32 (sum.tmod size + min)

/-- `NonUniformRandom(r, A, C, min, max)`. -/
def nonUniformRandom (A C min max : ℕ) : CheckedDraw ℤ := fun r =>
  (randomNumber 0 A r).bind fun x =>
    (randomNumber min max x.2).bind fun y =>
      (scale (x.1.toNat ||| y.1.toNat : ℕ) C min max).map fun res => (res, y.2)

/-- `GetCustomerId(r)`. -/
def getCustomerId : CheckedDraw ℤ := nonUniformRandom 1023 259 1 numCustomerPerDistrict

/-- `GetItemId(r)`. -/
def getItemId : CheckedDraw ℤ :=
  if gUniformItemDist then randomNumber 1 numItem else nonUniformRandom 8191 7911 1 numItem

end Checked

/-- The draw gets through its checks, whatever the generator, and gives what satisfies `P`. -/
def Passes {α : Type} (checked : CheckedDraw α) (m : Draw α) (P : α → Prop) : Prop :=
  ∀ r, checked r = some (m r) ∧ P (m r).1

namespace Passes

variable {α β : Type} {m' : CheckedDraw α} {m : Draw α} {f' : α → CheckedDraw β} {f : α → Draw β} {P : α → Prop}
  {Q : β → Prop}

theorem pure {a : α} (h : P a) : Passes (Pure.pure a) (Pure.pure a) P := fun _ => ⟨rfl, h⟩

theorem bind (h : Passes m' m P) (hf : ∀ a, P a → Passes (f' a) (f a) Q) :
    Passes (m' >>= f') (m >>= f) Q := by
  intro r
  obtain ⟨hm, hP⟩ := h r
  obtain ⟨hfm, hQ⟩ := hf _ hP (m r).2
  refine ⟨?_, hQ⟩
  change (m' r).bind (fun x => f' x.1 x.2) = some (f (m r).1 (m r).2)
  rw [hm, Option.bind_some, hfm]

end Passes

theorem randomNumber_apply (min max : ℤ) (r : FastRandom) :
    randomNumber min max r = (i32 (u32 (min + (nextU32 r).1 % u32 (max - min + 1))), (nextU32 r).2) := rfl

/-- **`RandomNumber`** draws from its range, without overflow and with its assertion true. -/
theorem randomNumber_checked (min max : ℤ) (h₀ : 0 ≤ min) (h : min ≤ max) (h₁ : max < 2 ^ 31 - 1) :
    Passes (Checked.randomNumber min max) (randomNumber min max) fun x => min ≤ x ∧ x ≤ max := by
  intro r
  have hgives := gives_randomNumber min max h₀ h h₁ r
  refine ⟨?_, hgives⟩
  have hrange : (u32 (max - min + 1) : ℤ) = max - min + 1 := u32_of_mem (by omega) (by omega)
  have hne : u32 (max - min + 1) ≠ 0 := by omega
  rw [randomNumber_apply] at hgives ⊢
  unfold Checked.randomNumber
  rw [int32_of_mem (by omega) (by omega), Option.bind_eq_bind, Option.bind_some,
    int32_of_mem (by omega) (by omega), Option.bind_eq_bind, Option.bind_some]
  simp only [hne, if_false, hgives, and_self, if_true]

/-- From an empty range it does not draw. -/
theorem randomNumber_unchecked {min max : ℤ} (h : max < min) (r : FastRandom) :
    Checked.randomNumber min max r = none := by
  have hout : ∀ res : ℤ, ¬ (min ≤ res ∧ res ≤ max) := fun res => by omega
  simp [Checked.randomNumber, hout]

theorem scale_eq {x : ℤ} {C min max : ℕ} (h₀ : 0 ≤ x) (hx : x < 2 ^ 30) (hC : C < 2 ^ 30) (h : min ≤ max)
    (hmax : max < 2 ^ 30) : Checked.scale x C min max = some ((x + C) % (max - min + 1) + min) := by
  have hlt := Int.emod_lt_of_pos (x + C) (show (0 : ℤ) < max - min + 1 by omega)
  have hnn := Int.emod_nonneg (x + C) (show (max - min + 1 : ℤ) ≠ 0 by omega)
  unfold Checked.scale
  simp only [Option.bind_eq_bind]
  rw [int32_of_mem (by omega) (by omega), Option.bind_some, int32_of_mem (by omega) (by omega),
    Option.bind_some, int32_of_mem (by omega) (by omega), Option.bind_some, if_neg (by omega),
    Int.tmod_eq_emod_of_nonneg (by omega), int32_of_mem (by omega) (by omega)]

theorem checked_nonUniformRandom {A C min max : ℕ} {r : FastRandom} {x y : ℤ × FastRandom}
    (hx : Checked.randomNumber 0 A r = some x) (hy : Checked.randomNumber min max x.2 = some y)
    (hxA : x.1 < 2 ^ 30) (hymax : y.1 < 2 ^ 30) (hC : C < 2 ^ 30) (h : min ≤ max) (hmax : max < 2 ^ 30) :
    Checked.nonUniformRandom A C min max r =
      some (((x.1.toNat ||| y.1.toNat : ℕ) + (C : ℤ)) % (max - min + 1) + min, y.2) := by
  have hor : x.1.toNat ||| y.1.toNat < 2 ^ 30 := Nat.or_lt_two_pow (by omega) (by omega)
  unfold Checked.nonUniformRandom
  rw [hx, Option.bind_some, hy, Option.bind_some, scale_eq (by omega) (by omega) hC h hmax, Option.map_some]

theorem nonUniformRandom_apply (A C min max : ℕ) (r : FastRandom) :
    nonUniformRandom A C min max r =
      (((((randomNumber 0 A r).1.toNat ||| (randomNumber min max (randomNumber 0 A r).2).1.toNat : ℕ) : ℤ) + C) %
        (max - min + 1) + min, (randomNumber min max (randomNumber 0 A r).2).2) := rfl

/-- **`NonUniformRandom`** likewise. -/
theorem nonUniformRandom_checked (A C min max : ℕ) (h : min ≤ max) (hA : A < 2 ^ 30) (hC : C < 2 ^ 30)
    (hmax : max < 2 ^ 30) :
    Passes (Checked.nonUniformRandom A C min max) (nonUniformRandom A C min max) fun x =>
      (min : ℤ) ≤ x ∧ x ≤ max := by
  intro r
  refine ⟨?_, gives_nonUniformRandom A C min max h r⟩
  obtain ⟨hx, -, hxA⟩ := randomNumber_checked 0 A le_rfl (by omega) (by omega) r
  obtain ⟨hy, -, hymax⟩ := randomNumber_checked min max (by omega) (by omega) (by omega)
    (randomNumber 0 A r).2
  rw [nonUniformRandom_apply]
  exact checked_nonUniformRandom hx hy (by omega) (by omega) hC h hmax

theorem getCustomerId_checked : Passes Checked.getCustomerId getCustomerId fun x =>
    1 ≤ x ∧ x ≤ numCustomerPerDistrict :=
  nonUniformRandom_checked 1023 259 1 numCustomerPerDistrict (by decide) (by decide) (by decide) (by decide)

theorem getItemId_checked : Passes Checked.getItemId getItemId fun x => 1 ≤ x ∧ x ≤ numItem := by
  have hchecked := nonUniformRandom_checked 8191 7911 1 numItem (by decide) (by decide) (by decide) (by decide)
  simpa [Checked.getItemId, getItemId, gUniformItemDist] using hchecked

/-! ### Transactions -/

namespace Checked

/-- Draw until `ok`, after at most `fuel` rejections. -/
def redraw {α : Type} (draw : CheckedDraw α) (ok : α → Bool) : ℕ → CheckedDraw α
  | 0 => draw
  | fuel + 1 => do
    let a ← draw
    if ok a then return a else redraw draw ok fuel

variable (args : Args)

/-- A warehouse other than `w`. -/
def drawOtherWarehouse (w : ℕ) : CheckedDraw ℤ :=
  redraw (randomNumber 1 args.warehouseNum) (fun x => x ≠ w) generatorStates

/-- `supplier_warehouse_ids[i]`. -/
def drawSupplier (w : ℕ) : CheckedDraw ℤ := do
  let pct ← randomNumber 1 100
  if pct > gNewOrderRemoteItemPct ∨ args.warehouseNum = 1 then return (w : ℤ)
  else drawOtherWarehouse args w

/-- Item `i` of `txn_new_order`. -/
def drawItem (w : ℕ) : CheckedDraw OrderItem := do
  let itemId ← getItemId
  let supply ← drawSupplier args w
  let quantity ← randomNumber 1 10
  return { itemId := itemId.toNat, supplyWId := supply.toNat, quantity := quantity.toNat }

/-- The items of `txn_new_order`. -/
def drawItems (w : ℕ) : ℕ → CheckedDraw (List OrderItem)
  | 0 => return []
  | n + 1 => do
    let item ← drawItem args w
    let items ← drawItems w n
    return item :: items

/-- The draws of `txn_new_order`. -/
def drawNewOrder (w : ℕ) : CheckedDraw NewOrder := do
  let districtId ← randomNumber 1 args.numDistrictPerWarehouse
  let customerId ← getCustomerId
  let numItems ← randomNumber 5 15
  let items ← drawItems args w numItems.toNat
  return { districtId := districtId.toNat, customerId := customerId.toNat, items := items,
           allLocal := items.all fun item => item.supplyWId = w }

/-- The draw of `txn_delivery`. -/
def drawDelivery : CheckedDraw Delivery := do
  let oCarrierId ← randomNumber 1 args.numDistrictPerWarehouse
  return { oCarrierId := oCarrierId.toNat }

/-- The draws of `txn_order_status`. -/
def drawOrderStatus : CheckedDraw OrderStatus := do
  let districtId ← randomNumber 1 args.numDistrictPerWarehouse
  let customerId ← getCustomerId
  return { districtId := districtId.toNat, customerId := customerId.toNat }

/-- The draws of `txn_stock_level`. -/
def drawStockLevel : CheckedDraw StockLevel := do
  let districtId ← randomNumber 1 args.numDistrictPerWarehouse
  let threshold ← randomNumber 10 20
  return { districtId := districtId.toNat, threshold := threshold.toNat }

end Checked

section
variable {args : Args} {w : ℕ}

theorem passes_redraw {α : Type} {draw' : CheckedDraw α} {draw : Draw α} {P : α → Prop} (ok : α → Bool)
    (h : Passes draw' draw P) (fuel : ℕ) : Passes (Checked.redraw draw' ok fuel) (redraw draw ok fuel) P := by
  induction fuel with
  | zero => exact h
  | succ fuel ih =>
    refine h.bind fun a ha => ?_
    split_ifs
    · exact .pure ha
    · exact ih

theorem district_checked : Passes (Checked.randomNumber 1 args.numDistrictPerWarehouse)
    (randomNumber 1 args.numDistrictPerWarehouse) fun x => 1 ≤ x ∧ x ≤ args.numDistrictPerWarehouse := by
  have hD := args.districts
  exact randomNumber_checked _ _ (by omega) (by omega) (by omega)

theorem drawSupplier_checked (hw : 1 ≤ w ∧ w ≤ args.warehouseNum) :
    Passes (Checked.drawSupplier args w) (drawSupplier args w) fun x => 1 ≤ x ∧ x ≤ args.warehouseNum := by
  have hW := args.warehouses
  refine (randomNumber_checked 1 100 (by omega) (by omega) (by omega)).bind fun pct _ => ?_
  split_ifs
  · exact .pure (by simpa using hw)
  · exact passes_redraw _ (randomNumber_checked _ _ (by omega) (by omega) (by omega)) _

theorem drawItem_checked (hw : 1 ≤ w ∧ w ≤ args.warehouseNum) :
    Passes (Checked.drawItem args w) (drawItem args w) (OrderItem.Ok args) := by
  refine getItemId_checked.bind fun i hi => (drawSupplier_checked hw).bind fun s hs => ?_
  refine (randomNumber_checked 1 10 (by omega) (by omega) (by omega)).bind fun q hq => ?_
  exact .pure ⟨by dsimp only; omega, by dsimp only; omega, by dsimp only; omega⟩

theorem drawItems_checked (hw : 1 ≤ w ∧ w ≤ args.warehouseNum) (n : ℕ) :
    Passes (Checked.drawItems args w n) (drawItems args w n) fun l =>
      l.length = n ∧ ∀ item ∈ l, item.Ok args := by
  induction n with
  | zero => exact .pure ⟨rfl, by simp⟩
  | succ n ih =>
    refine (drawItem_checked hw).bind fun item hitem => ih.bind fun l hl => .pure ⟨?_, ?_⟩
    · rw [List.length_cons, hl.1]
    · intro a ha
      rcases List.mem_cons.mp ha with rfl | ha
      · exact hitem
      · exact hl.2 a ha

/-- **A new order's draws** get through. -/
theorem drawNewOrder_checked (hw : 1 ≤ w ∧ w ≤ args.warehouseNum) :
    Passes (Checked.drawNewOrder args w) (drawNewOrder args w) (NewOrder.Ok args) := by
  refine district_checked.bind fun d hd => getCustomerId_checked.bind fun c hc => ?_
  refine (randomNumber_checked 5 15 (by omega) (by omega) (by omega)).bind fun n hn => ?_
  refine (drawItems_checked hw n.toNat).bind fun l hl => .pure ?_
  exact ⟨by dsimp only; omega, by dsimp only; omega, by dsimp only; omega, hl.2⟩

theorem drawDelivery_checked : Passes (Checked.drawDelivery args) (drawDelivery args) (Delivery.Ok args) :=
  district_checked.bind fun d hd => .pure ⟨by dsimp only; omega⟩

theorem drawOrderStatus_checked :
    Passes (Checked.drawOrderStatus args) (drawOrderStatus args) (OrderStatus.Ok args) :=
  district_checked.bind fun d hd => getCustomerId_checked.bind fun c hc =>
    .pure ⟨by dsimp only; omega, by dsimp only; omega⟩

theorem drawStockLevel_checked :
    Passes (Checked.drawStockLevel args) (drawStockLevel args) (StockLevel.Ok args) := by
  refine district_checked.bind fun d hd => ?_
  refine (randomNumber_checked 10 20 (by omega) (by omega) (by omega)).bind fun t ht => ?_
  exact .pure ⟨by dsimp only; omega, by dsimp only; omega⟩

end

end SidleBaselines.Tpcc
