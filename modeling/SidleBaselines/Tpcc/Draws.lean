import SidleBaselines.Tpcc.Random

/-!
# What a worker draws

The transactions a worker runs (`Request`), with everything each of them draws
at random: a transaction draws before its first operation on the tables. A
worker draws the kind of a transaction, its warehouse and then its parameters
from one generator (`nextRequest`).

## What is proved

* `gives_nextRequest` — whatever the generator, the next transaction is on one of
  the worker's warehouses and its draws lie within their bounds (`Request.Ok`).
* `workerRange_disjoint`, `workerRange_covers` — every warehouse is given to
  exactly one worker.
-/

namespace SidleBaselines.Tpcc

/-! ### Transactions with their draws -/

/-- `item_ids[i]`, `supplier_warehouse_ids[i]` and `order_quantities[i]`. -/
structure OrderItem where
  /-- `item_ids[i]`. -/
  itemId : ℕ
  /-- `supplier_warehouse_ids[i]`. -/
  supplyWId : ℕ
  /-- `order_quantities[i]`. -/
  quantity : ℕ

/-- What `txn_new_order` draws. -/
structure NewOrder where
  /-- `district_id`. -/
  districtId : ℕ
  /-- `customer_id`. -/
  customerId : ℕ
  /-- The items, `num_items` of them. -/
  items : List OrderItem
  /-- `all_local`. -/
  allLocal : Bool

/-- What `txn_payment` draws. -/
structure Payment where
  /-- `districtID`. -/
  districtId : ℕ
  /-- `customerDistrictID`. -/
  customerDistrictId : ℕ
  /-- `customerWarehouseID`. -/
  customerWarehouseId : ℕ
  /-- `customerID`. -/
  customerId : ℕ
  /-- `paymentAmount`. -/
  paymentAmount : ℚ

/-- What `txn_delivery` draws. -/
structure Delivery where
  /-- `o_carrier_id`. -/
  oCarrierId : ℕ

/-- What `txn_order_status` draws. -/
structure OrderStatus where
  /-- `district_id`. -/
  districtId : ℕ
  /-- `customer_id`. -/
  customerId : ℕ

/-- What `txn_stock_level` draws. -/
structure StockLevel where
  /-- `district_id`. -/
  districtId : ℕ
  /-- `threshold`. -/
  threshold : ℕ

/-- A transaction to run on a warehouse, with its draws. -/
inductive Request where
  /-- `txn_new_order`. -/
  | newOrder (w : ℕ) (x : NewOrder)
  /-- `txn_payment`. -/
  | payment (w : ℕ) (x : Payment)
  /-- `txn_delivery`. -/
  | delivery (w : ℕ) (x : Delivery)
  /-- `txn_order_status`. -/
  | orderStatus (w : ℕ) (x : OrderStatus)
  /-- `txn_stock_level`. -/
  | stockLevel (w : ℕ) (x : StockLevel)

/-- The warehouse a transaction is run on. -/
def Request.warehouseId : Request → ℕ
  | newOrder w _ | payment w _ | delivery w _ | orderStatus w _ | stockLevel w _ => w

/-! ### Drawing -/

section
variable (args : Args)

/-- A warehouse other than `w`: drawn until it is. -/
def drawOtherWarehouse (w : ℕ) : Draw ℤ :=
  redraw (randomNumber 1 args.warehouseNum) (fun x => x ≠ w) generatorStates

/-- `supplier_warehouse_ids[i]`: `warehouse_id` itself, or at times another. -/
def drawSupplier (w : ℕ) : Draw ℤ := do
  let pct ← randomNumber 1 100
  if pct > gNewOrderRemoteItemPct ∨ args.warehouseNum = 1 then return (w : ℤ)
  else drawOtherWarehouse args w

/-- Item `i` of `txn_new_order`. -/
def drawItem (w : ℕ) : Draw OrderItem := do
  let itemId ← getItemId
  let supply ← drawSupplier args w
  let quantity ← randomNumber 1 10
  return { itemId := itemId.toNat, supplyWId := supply.toNat, quantity := quantity.toNat }

/-- The items of `txn_new_order`, `num_items` of them. -/
def drawItems (w : ℕ) : ℕ → Draw (List OrderItem)
  | 0 => return []
  | n + 1 => do
    let item ← drawItem args w
    let items ← drawItems w n
    return item :: items

/-- The draws of `txn_new_order`; an item's supplier is another warehouse exactly
when it was drawn to be. -/
def drawNewOrder (w : ℕ) : Draw NewOrder := do
  let districtId ← randomNumber 1 args.numDistrictPerWarehouse
  let customerId ← getCustomerId
  let numItems ← randomNumber 5 15
  let items ← drawItems args w numItems.toNat
  return { districtId := districtId.toNat, customerId := customerId.toNat, items := items,
           allLocal := items.all fun item => item.supplyWId = w }

/-- Whether `txn_payment` is for a customer of the same district. -/
def drawHome : Draw Bool := do
  if args.warehouseNum = 1 then return true
  let pct ← randomNumber 1 100
  return pct ≤ 85

/-- `customerDistrictID` and `customerWarehouseID`. -/
def drawCustomerDistrict (w : ℕ) (districtId : ℤ) : Draw (ℤ × ℤ) := do
  let home ← drawHome args
  if home then return (districtId, (w : ℤ))
  let d ← randomNumber 1 10
  let cw ← drawOtherWarehouse args w
  return (d, cw)

/-- The draws of `txn_payment`. -/
def drawPayment (w : ℕ) : Draw Payment := do
  let districtId ← randomNumber 1 10
  let customer ← drawCustomerDistrict args w districtId
  let cents ← randomNumber 100 500000
  let customerId ← getCustomerId
  return { districtId := districtId.toNat, customerDistrictId := customer.1.toNat,
           customerWarehouseId := customer.2.toNat, customerId := customerId.toNat,
           paymentAmount := (cents : ℚ) / 100 }

/-- The draw of `txn_delivery`. -/
def drawDelivery : Draw Delivery := do
  let oCarrierId ← randomNumber 1 args.numDistrictPerWarehouse
  return { oCarrierId := oCarrierId.toNat }

/-- The draws of `txn_order_status`. -/
def drawOrderStatus : Draw OrderStatus := do
  let districtId ← randomNumber 1 args.numDistrictPerWarehouse
  let customerId ← getCustomerId
  return { districtId := districtId.toNat, customerId := customerId.toNat }

/-- The draws of `txn_stock_level`. -/
def drawStockLevel : Draw StockLevel := do
  let districtId ← randomNumber 1 args.numDistrictPerWarehouse
  let threshold ← randomNumber 10 20
  return { districtId := districtId.toNat, threshold := threshold.toNat }

/-- One round of `run_worker`: the next transaction of the worker whose warehouses
are those from `wStart` up to but not including `wEnd`, `ratio` being the shares
of the five kinds. -/
def nextRequest (ratio : Fin 5 → ℤ) (wStart wEnd : ℕ) : Draw Request := do
  let d ← randomNumber 1 100
  let warehouseId ← randomNumber wStart (wEnd - 1)
  let w := warehouseId.toNat
  if d ≤ ratio 0 then return .newOrder w (← drawNewOrder args w)
  else if d ≤ ratio 0 + ratio 1 then return .payment w (← drawPayment args w)
  else if d ≤ ratio 0 + ratio 1 + ratio 2 then return .delivery w (← drawDelivery args)
  else if d ≤ ratio 0 + ratio 1 + ratio 2 + ratio 3 then return .orderStatus w (← drawOrderStatus args)
  else return .stockLevel w (← drawStockLevel args)

/-- `w_id_start` and `w_id_end` of worker `i` of `fg_n`, as the loop of `run_tpcc`
gives them out: the first `warehouse_num % fg_n` workers get one warehouse more. -/
def workerRange (fgN i : ℕ) : ℕ × ℕ :=
  let wNumPerThread := args.warehouseNum / fgN
  let trailingWarehouse := args.warehouseNum - wNumPerThread * fgN
  let begin (i : ℕ) := i * wNumPerThread + min i trailingWarehouse
  (begin i + 1, begin (i + 1) + 1)

/-! ### Bounds on the draws -/

/-- An item a draw may give. -/
structure OrderItem.Ok (x : OrderItem) : Prop where
  item : 1 ≤ x.itemId ∧ x.itemId ≤ numItem
  supply : 1 ≤ x.supplyWId ∧ x.supplyWId ≤ args.warehouseNum
  quantity : 1 ≤ x.quantity ∧ x.quantity ≤ 10

/-- What `txn_new_order` may draw. -/
structure NewOrder.Ok (x : NewOrder) : Prop where
  district : 1 ≤ x.districtId ∧ x.districtId ≤ args.numDistrictPerWarehouse
  customer : 1 ≤ x.customerId ∧ x.customerId ≤ numCustomerPerDistrict
  count : 5 ≤ x.items.length ∧ x.items.length ≤ 15
  items : ∀ item ∈ x.items, item.Ok args

/-- What `txn_payment` may draw: its districts go to `10` whatever the option says. -/
structure Payment.Ok (x : Payment) : Prop where
  district : 1 ≤ x.districtId ∧ x.districtId ≤ 10
  customerDistrict : 1 ≤ x.customerDistrictId ∧ x.customerDistrictId ≤ 10
  customerWarehouse : 1 ≤ x.customerWarehouseId ∧ x.customerWarehouseId ≤ args.warehouseNum
  customer : 1 ≤ x.customerId ∧ x.customerId ≤ numCustomerPerDistrict
  amount : 1 ≤ x.paymentAmount ∧ x.paymentAmount ≤ 5000

/-- What `txn_delivery` may draw. -/
structure Delivery.Ok (x : Delivery) : Prop where
  carrier : 1 ≤ x.oCarrierId ∧ x.oCarrierId ≤ args.numDistrictPerWarehouse

/-- What `txn_order_status` may draw. -/
structure OrderStatus.Ok (x : OrderStatus) : Prop where
  district : 1 ≤ x.districtId ∧ x.districtId ≤ args.numDistrictPerWarehouse
  customer : 1 ≤ x.customerId ∧ x.customerId ≤ numCustomerPerDistrict

/-- What `txn_stock_level` may draw. -/
structure StockLevel.Ok (x : StockLevel) : Prop where
  district : 1 ≤ x.districtId ∧ x.districtId ≤ args.numDistrictPerWarehouse
  threshold : 10 ≤ x.threshold ∧ x.threshold ≤ 20

/-- What a transaction on an existing warehouse may draw. -/
def Request.Ok (q : Request) : Prop :=
  (1 ≤ q.warehouseId ∧ q.warehouseId ≤ args.warehouseNum) ∧
    match q with
    | newOrder _ x => x.Ok args
    | payment _ x => x.Ok args
    | delivery _ x => x.Ok args
    | orderStatus _ x => x.Ok args
    | stockLevel _ x => x.Ok args

variable {args} {w : ℕ}

theorem gives_district : Gives (randomNumber 1 args.numDistrictPerWarehouse) fun x =>
    1 ≤ x ∧ x ≤ args.numDistrictPerWarehouse := by
  have hD := args.districts
  exact gives_randomNumber _ _ (by omega) (by omega) (by omega)

theorem gives_drawOtherWarehouse (w : ℕ) :
    Gives (drawOtherWarehouse args w) fun x => 1 ≤ x ∧ x ≤ args.warehouseNum := by
  have hW := args.warehouses
  exact gives_redraw _ (gives_randomNumber _ _ (by omega) (by omega) (by omega)) _

theorem gives_drawSupplier (hw : 1 ≤ w ∧ w ≤ args.warehouseNum) :
    Gives (drawSupplier args w) fun x => 1 ≤ x ∧ x ≤ args.warehouseNum := by
  refine .skip fun pct => ?_
  split_ifs
  · exact .pure (by simpa using hw)
  · exact gives_drawOtherWarehouse w

theorem gives_drawItem (hw : 1 ≤ w ∧ w ≤ args.warehouseNum) :
    Gives (drawItem args w) (OrderItem.Ok args) := by
  refine gives_getItemId.bind fun i hi => (gives_drawSupplier hw).bind fun s hs => ?_
  refine (gives_randomNumber 1 10 (by omega) (by omega) (by omega)).bind fun q hq => ?_
  exact .pure ⟨by dsimp only; omega, by dsimp only; omega, by dsimp only; omega⟩

theorem gives_drawItems (hw : 1 ≤ w ∧ w ≤ args.warehouseNum) (n : ℕ) :
    Gives (drawItems args w n) fun l => l.length = n ∧ ∀ item ∈ l, item.Ok args := by
  induction n with
  | zero => exact .pure ⟨rfl, by simp⟩
  | succ n ih =>
    refine (gives_drawItem hw).bind fun item hitem => ih.bind fun l hl => .pure ⟨?_, ?_⟩
    · rw [List.length_cons, hl.1]
    · intro a ha
      rcases List.mem_cons.mp ha with rfl | ha
      · exact hitem
      · exact hl.2 a ha

theorem gives_drawNewOrder (hw : 1 ≤ w ∧ w ≤ args.warehouseNum) :
    Gives (drawNewOrder args w) (NewOrder.Ok args) := by
  refine gives_district.bind fun d hd => gives_getCustomerId.bind fun c hc => ?_
  refine (gives_randomNumber 5 15 (by omega) (by omega) (by omega)).bind fun n hn => ?_
  refine (gives_drawItems hw n.toNat).bind fun l hl => .pure ?_
  exact ⟨by dsimp only; omega, by dsimp only; omega, by dsimp only; omega, hl.2⟩

theorem gives_drawCustomerDistrict (hw : 1 ≤ w ∧ w ≤ args.warehouseNum) {d : ℤ} (hd : 1 ≤ d ∧ d ≤ 10) :
    Gives (drawCustomerDistrict args w d) fun x =>
      (1 ≤ x.1 ∧ x.1 ≤ 10) ∧ 1 ≤ x.2 ∧ x.2 ≤ args.warehouseNum := by
  refine .skip fun home => ?_
  cases home
  · refine (gives_randomNumber 1 10 (by omega) (by omega) (by omega)).bind
      fun cd hcd => ?_
    exact (gives_drawOtherWarehouse w).bind fun cw hcw => .pure ⟨hcd, hcw⟩
  · exact .pure ⟨hd, by simpa using hw⟩

theorem gives_drawPayment (hw : 1 ≤ w ∧ w ≤ args.warehouseNum) :
    Gives (drawPayment args w) (Payment.Ok args) := by
  refine (gives_randomNumber 1 10 (by omega) (by omega) (by omega)).bind fun d hd => ?_
  refine (gives_drawCustomerDistrict hw hd).bind fun x hx => ?_
  refine (gives_randomNumber 100 500000 (by omega) (by omega) (by omega)).bind
    fun cents ha => gives_getCustomerId.bind fun c hc => .pure ?_
  have hlo := (Int.cast_le (R := ℚ)).mpr ha.1
  have hhi := (Int.cast_le (R := ℚ)).mpr ha.2
  push_cast at hlo hhi
  refine ⟨?_, ?_, ?_, ?_, ?_⟩ <;> dsimp only
  · omega
  · omega
  · omega
  · omega
  · constructor <;> linarith

theorem gives_drawDelivery : Gives (drawDelivery args) (Delivery.Ok args) :=
  gives_district.bind fun d hd => .pure ⟨by dsimp only; omega⟩

theorem gives_drawOrderStatus : Gives (drawOrderStatus args) (OrderStatus.Ok args) :=
  gives_district.bind fun d hd => gives_getCustomerId.bind fun c hc =>
    .pure ⟨by dsimp only; omega, by dsimp only; omega⟩

theorem gives_drawStockLevel : Gives (drawStockLevel args) (StockLevel.Ok args) := by
  refine gives_district.bind fun d hd => ?_
  refine (gives_randomNumber 10 20 (by omega) (by omega) (by omega)).bind fun t ht => ?_
  exact .pure ⟨by dsimp only; omega, by dsimp only; omega⟩

/-- **A worker's transactions**: each is on a warehouse of its own, its draws within
their bounds. -/
theorem gives_nextRequest (ratio : Fin 5 → ℤ) {wStart wEnd : ℕ} (h₀ : 1 ≤ wStart) (h : wStart < wEnd)
    (h₁ : wEnd ≤ args.warehouseNum + 1) :
    Gives (nextRequest args ratio wStart wEnd) fun q =>
      q.Ok args ∧ wStart ≤ q.warehouseId ∧ q.warehouseId < wEnd := by
  have hW := args.warehouses
  refine .skip fun d => (gives_randomNumber wStart (wEnd - 1) (by omega) (by omega)
    (by omega)).bind fun w hw => ?_
  have hw' : 1 ≤ w.toNat ∧ w.toNat ≤ args.warehouseNum := by omega
  have hown : wStart ≤ w.toNat ∧ w.toNat < wEnd := by omega
  dsimp only
  split_ifs
  · exact (gives_drawNewOrder hw').bind fun x hx => .pure ⟨⟨hw', hx⟩, hown⟩
  · exact (gives_drawPayment hw').bind fun x hx => .pure ⟨⟨hw', hx⟩, hown⟩
  · exact gives_drawDelivery.bind fun x hx => .pure ⟨⟨hw', hx⟩, hown⟩
  · exact gives_drawOrderStatus.bind fun x hx => .pure ⟨⟨hw', hx⟩, hown⟩
  · exact gives_drawStockLevel.bind fun x hx => .pure ⟨⟨hw', hx⟩, hown⟩

/-! ### Whose warehouses -/

/-- The first worker gets warehouses from `1`, the last up to `warehouse_num`, and each
next one goes on where the one before ended. -/
theorem workerRange_start (fgN : ℕ) : (workerRange args fgN 0).1 = 1 := by simp [workerRange]

theorem workerRange_next (fgN i : ℕ) :
    (workerRange args fgN (i + 1)).1 = (workerRange args fgN i).2 := rfl

theorem workerRange_end {fgN : ℕ} (h : 0 < fgN) :
    (workerRange args fgN (fgN - 1)).2 = args.warehouseNum + 1 := by
  have hlt : args.warehouseNum % fgN < fgN := Nat.mod_lt _ h
  have hdiv := Nat.div_add_mod args.warehouseNum fgN
  rw [Nat.mul_comm] at hdiv
  simp only [workerRange, Nat.sub_add_cancel h]
  rw [min_eq_right (by omega), Nat.mul_comm]
  omega

theorem workerRange_mono (args : Args) (fgN : ℕ) {i j : ℕ} (h : i < j) :
    (workerRange args fgN i).2 ≤ (workerRange args fgN j).1 := by
  simp only [workerRange]
  have h₁ := Nat.mul_le_mul_right (args.warehouseNum / fgN) (show i + 1 ≤ j from h)
  omega

/-- **No warehouse has two workers.** -/
theorem workerRange_disjoint (fgN : ℕ) {i j w : ℕ}
    (hi : (workerRange args fgN i).1 ≤ w ∧ w < (workerRange args fgN i).2)
    (hj : (workerRange args fgN j).1 ≤ w ∧ w < (workerRange args fgN j).2) : i = j := by
  rcases Nat.lt_trichotomy i j with h | h | h
  · have := workerRange_mono args fgN h; omega
  · exact h
  · have := workerRange_mono args fgN h; omega

/-- **Every warehouse has a worker.** -/
theorem workerRange_covers {fgN w : ℕ} (h : 0 < fgN) (hw : 1 ≤ w ∧ w ≤ args.warehouseNum) :
    ∃ i < fgN, (workerRange args fgN i).1 ≤ w ∧ w < (workerRange args fgN i).2 := by
  have hn : ∃ i, w < (workerRange args fgN i).2 :=
    ⟨fgN - 1, by rw [workerRange_end h]; omega⟩
  classical
  refine ⟨Nat.find hn, ?_, ?_, Nat.find_spec hn⟩
  · have := Nat.find_min' hn (show w < (workerRange args fgN (fgN - 1)).2 by
      rw [workerRange_end h]; omega)
    omega
  · rcases hi : Nat.find hn with _ | i
    · rw [workerRange_start]; exact hw.1
    · rw [workerRange_next]
      exact Nat.not_lt.mp (Nat.find_min hn (m := i) (by omega))

end

end SidleBaselines.Tpcc
