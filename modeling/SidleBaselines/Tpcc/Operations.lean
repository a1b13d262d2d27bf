import SidleBaselines.Tpcc.Checks
import SidleBaselines.Tpcc.World

/-!
# The operations of tpcc_op

`src/benchmark/real_world/tpcc_op.cpp` runs single operations on the loaded tables
instead of transactions: lookups, scans, updates of rows, insertions of new ones and a
removal. Each draws its keys, and aborts when a lookup or an insertion reports a
failure; `RandomNumber` asserts that what it has drawn lies in its range.

An operation is a checked draw of the state after it. The tables are finite maps: a
lookup succeeds if the row is there, an insertion always does.

## What is proved

* `Safe.bind`, `Fails.of_bind` — the rules for draws that pass their checks, and for
  draws that never do;
* `store_safe` — an insertion keeps the loaded rows there;
* `safe_func` — all operations but three pass their checks and keep those rows;
* `fails_func` — the other three never pass: their limit does not fit an `int`;
* `operations_pass_iff` — a sequence of operations passes all its checks if and only if
  it has none of the three.
-/

namespace SidleBaselines.Tpcc

open SidleBaselines.Data

/-! ### Checked draws -/

namespace Checked

/-- A draw without checks. -/
def lift {α : Type} (m : Draw α) : CheckedDraw α := fun r => some (m r)

/-- `INVARIANT(res)`. -/
def invariant (res : Bool) : CheckedDraw Unit := fun r => if res then some ((), r) else none

/-- `RandomStr(r, RandomNumber(r, min, max))`. -/
def randomStrOf (min max : ℤ) : CheckedDraw (List Char) := do
  let len ← randomNumber min max
  lift (randomStr len)

/-- `GetNonUniformCustomerLastNameLoad(r)`. -/
def getNonUniformCustomerLastNameLoad : CheckedDraw (List Char) := do
  let num ← nonUniformRandom 255 157 0 999
  return getCustomerLastName num.toNat

/-- The two streets, the city and the state of a row. -/
def drawAddress : CheckedDraw Unit := do
  let _ ← randomStrOf 10 20
  let _ ← randomStrOf 10 20
  let _ ← randomStrOf 10 20
  let _ ← lift (randomStr 3)
  return ()

end Checked

open Checked (lift invariant)

/-! ### The state -/

/-- The tables and what the operations count with. -/
structure OpState where
  db : Db
  /-- `next_o_id_hack_info_`. -/
  nextOId : ℕ → ℕ → ℕ
  /-- `next_ol_number_hack_info_`. -/
  nextOlNumber : ℕ → ℕ → ℕ
  /-- `tl_hack` of `GetCurrentTimeMillis`. -/
  tlHack : ℕ

/-- As a worker finds it. -/
def OpState.start (args : Args) : OpState where
  db := prepareKvs args
  nextOId _ _ := 3001
  nextOlNumber _ _ := 1
  tlHack := 3001

namespace OpState

/-- `table->get(k, v, ...)`. -/
def get (s : OpState) (t : Tab) (k : t.Key) : Bool :=
  ((s.db t).get k).isSome

/-- `table->insert(k, v, ...)`. -/
def insert (s : OpState) (t : Tab) (k : t.Key) (v : t.Val) : Bool × OpState :=
  (true, { s with db := Function.update s.db t ((s.db t).insert k v) })

/-- `table->remove(k, ...)`. -/
def remove (s : OpState) (t : Tab) (k : t.Key) : Bool × OpState :=
  (s.get t k, { s with db := Function.update s.db t ((s.db t).remove k) })

/-- `table->scan(k, n, kvs, ...)`: how many entries, and the entries. -/
def scan (s : OpState) (t : Tab) (k : t.Key) (n : ℕ) : ℕ × List (t.Key × t.Val) :=
  (((s.db t).scan k n).length, (s.db t).scan k n)

/-- Set the next order of a district. -/
def setNextOId (s : OpState) (w d n : ℕ) : OpState :=
  { s with nextOId := Function.update s.nextOId w (Function.update (s.nextOId w) d (n % 2 ^ 32)) }

/-- Set the next line of a district. -/
def setNextOlNumber (s : OpState) (w d n : ℕ) : OpState :=
  { s with nextOlNumber := Function.update s.nextOlNumber w (Function.update (s.nextOlNumber w) d (n % 2 ^ 32)) }

/-- The clock after `GetCurrentTimeMillis()`. -/
def tick (s : OpState) : OpState :=
  { s with tlHack := (s.tlHack + 1) % 2 ^ 32 }

/-- An insertion whose result is checked. -/
def store (s : OpState) (t : Tab) (k : t.Key) (v : t.Val) : CheckedDraw OpState := do
  let res := s.insert t k v
  invariant res.1
  return res.2

end OpState

/-! ### The operations -/

section

variable (args : Args) (s : OpState)

/-- A warehouse id. -/
def drawWarehouse : CheckedDraw ℕ := do
  let w ← Checked.randomNumber 1 args.warehouseNum
  return w.toNat

/-- A district id. -/
def drawDistrict : CheckedDraw ℕ := do
  let d ← Checked.randomNumber 1 args.numDistrictPerWarehouse
  return d.toNat

/-- `op_warehouse_get`. -/
def opWarehouseGet : CheckedDraw OpState := do
  let warehouseId ← drawWarehouse args
  invariant (s.get .warehouse (WKey.make warehouseId))
  return s

/-- `op_district_get`. -/
def opDistrictGet : CheckedDraw OpState := do
  let warehouseId ← drawWarehouse args
  let districtId ← drawDistrict args
  invariant (s.get .district (DKey.make warehouseId districtId))
  return s

/-- `op_customer_get`. -/
def opCustomerGet : CheckedDraw OpState := do
  let warehouseId ← drawWarehouse args
  let districtId ← drawDistrict args
  let customerId ← Checked.getCustomerId
  invariant (s.get .customer (CKey.make customerId.toNat districtId warehouseId))
  return s

/-- `op_item_get`. -/
def opItemGet : CheckedDraw OpState := do
  let itemId ← Checked.getItemId
  invariant (s.get .item (IKey.make itemId.toNat))
  return s

/-- `op_stock_get`. -/
def opStockGet : CheckedDraw OpState := do
  let warehouseId ← drawWarehouse args
  let itemId ← Checked.getItemId
  invariant (s.get .stock (SKey.make warehouseId itemId.toNat))
  return s

/-- `op_order_get`. -/
def opOrderGet : CheckedDraw OpState := do
  let warehouseId ← drawWarehouse args
  let districtId ← drawDistrict args
  let oId ← Checked.randomNumber 1 numCustomerPerDistrict
  invariant (s.get .order (OKey.make warehouseId districtId oId.toNat))
  return s

/-- `op_new_order_get`. -/
def opNewOrderGet : CheckedDraw OpState := do
  let warehouseId ← drawWarehouse args
  let districtId ← drawDistrict args
  let oId ← Checked.randomNumber 2101 numCustomerPerDistrict
  invariant (s.get .newOrder (NOKey.make warehouseId districtId oId.toNat))
  return s

/-- `op_order_line_scan_n_short`. -/
def opOrderLineScanNShort : CheckedDraw OpState := do
  let warehouseId ← drawWarehouse args
  let districtId ← drawDistrict args
  let newestOCId ← Checked.randomNumber 1 numCustomerPerDistrict
  let ret := s.scan .orderLine (OLKey.make warehouseId districtId newestOCId.toNat 0) 10
  invariant (ret.1 = ret.2.length)
  return s

/-- `op_order_line_scan_n_long`. -/
def opOrderLineScanNLong : CheckedDraw OpState := do
  let warehouseId ← drawWarehouse args
  let districtId ← drawDistrict args
  let curNextOId ← Checked.randomNumber 1 numCustomerPerDistrict
  let lower := if 20 ≤ curNextOId.toNat then curNextOId.toNat - 20 else 0
  let ret := s.scan .orderLine (OLKey.make warehouseId districtId lower 0) 200
  invariant (ret.1 = ret.2.length)
  return s

/-- `op_district_update`. -/
def opDistrictUpdate : CheckedDraw OpState := do
  let warehouseId ← drawWarehouse args
  let dstrictId ← drawDistrict args
  let dTax ← Checked.randomNumber 0 2000
  let dName ← Checked.randomStrOf 6 10
  Checked.drawAddress
  s.store .district (DKey.make warehouseId dstrictId)
    { dYtd := 30000, dTax := dTax / 10000, dNextOId := 3001, dName := varibaleStr 10 dName }

/-- `op_stock_update`. -/
def opStockUpdate : CheckedDraw OpState := do
  let olSupplyWId ← drawWarehouse args
  let itemId ← Checked.randomNumber 1 numItem
  let sQuantity ← Checked.randomNumber 10 100
  let sYtd ← Checked.randomNumber 1 10000
  let sOrderCnt ← Checked.randomNumber 10 100
  let sRemoteCnt ← Checked.randomNumber 10 100
  s.store .stock (SKey.make olSupplyWId itemId.toNat)
    { sQuantity := sQuantity.toNat, sYtd := sYtd, sOrderCnt := sOrderCnt.toNat, sRemoteCnt := sRemoteCnt.toNat }

/-- `op_warehouse_udpate`. -/
def opWarehouseUdpate : CheckedDraw OpState := do
  let warehouseId ← drawWarehouse args
  let wTax ← Checked.randomNumber 0 2000
  let wName ← Checked.randomStrOf 6 10
  Checked.drawAddress
  s.store .warehouse (WKey.make warehouseId)
    { wYtd := 300000, wTax := wTax / 10000, wName := varibaleStr 10 wName }

/-- `op_customer_udpate`. -/
def opCustomerUdpate : CheckedDraw OpState := do
  let warehouseId ← drawWarehouse args
  let customerId ← Checked.randomNumber 1 numCustomerPerDistrict
  let dstrictId ← drawDistrict args
  let cDiscount ← Checked.randomNumber 1 5000
  let credit ← Checked.randomNumber 1 100
  let _ ← Checked.getNonUniformCustomerLastNameLoad
  let _ ← Checked.randomStrOf 8 16
  Checked.drawAddress
  let _ ← lift (randomNStr 4)
  let _ ← lift (randomNStr 16)
  let cData ← Checked.randomStrOf 300 500
  s.tick.store .customer (CKey.make customerId.toNat dstrictId warehouseId)
    { cDiscount := cDiscount / 10000, cBalance := -10, cYtdPayment := 10, cPaymentCnt := 1,
      cDeliveryCnt := 0, cCredit := varibaleStr 2 (if credit ≤ 10 then "BC" else "GC").toList,
      cData := varibaleStr 500 cData }

/-- `op_order_udpate`. -/
def opOrderUdpate : CheckedDraw OpState := do
  let warehouseId ← drawWarehouse args
  let districtId ← drawDistrict args
  let customerId ← Checked.getCustomerId
  let oId ← Checked.randomNumber 1 numCustomerPerDistrict
  let numItems ← Checked.randomNumber 5 15
  let oCarrierId ← drawDistrict args
  s.store .order (OKey.make warehouseId districtId oId.toNat)
    { oCId := customerId.toNat, oCarrierId := oCarrierId, oOlCnt := numItems.toNat % 2 ^ 8,
      oAllLocal := true, oEntryD := 0 }

/-- `std::numeric_limits<uint32_t>::max() - 1`, as an `int`. -/
def maxLimit : ℤ := i32 (2 ^ 32 - 1 - 1)

/-- `op_order_line_update`. -/
def opOrderLineUpdate : CheckedDraw OpState := do
  let warehouseId ← drawWarehouse args
  let districtId ← drawDistrict args
  let oId ← Checked.randomNumber 1 numCustomerPerDistrict
  let olNumber ← Checked.randomNumber 1 5
  let olIId ← Checked.getItemId
  let olAmount ← Checked.randomNumber 1 maxLimit
  s.store .orderLine (OLKey.make warehouseId districtId oId.toNat olNumber.toNat)
    { olIId := olIId.toNat, olDeliveryD := 1, olAmount := olAmount, olSupplyWId := warehouseId,
      olQuantity := warehouseId % 2 ^ 8 }

/-- `op_new_order_insert`. -/
def opNewOrderInsert : CheckedDraw OpState := do
  let warehouseId ← drawWarehouse args
  let districtId ← drawDistrict args
  let nextOId := s.nextOId (warehouseId - 1) (districtId - 1)
  let s := s.setNextOId (warehouseId - 1) (districtId - 1) (nextOId + 1)
  s.store .newOrder (NOKey.make warehouseId districtId nextOId) { noDummy := varibaleStr 2 "no".toList }

/-- `op_order_insert`. -/
def opOrderInsert : CheckedDraw OpState := do
  let warehouseId ← drawWarehouse args
  let districtId ← drawDistrict args
  let customerId ← Checked.getCustomerId
  let numItems ← Checked.randomNumber 5 15
  let nextOId := s.nextOId (warehouseId - 1) (districtId - 1)
  let s := s.setNextOId (warehouseId - 1) (districtId - 1) (nextOId + 1)
  let oCarrierId ← drawDistrict args
  s.store .order (OKey.make warehouseId districtId nextOId)
    { oCId := customerId.toNat, oCarrierId := oCarrierId, oOlCnt := numItems.toNat % 2 ^ 8,
      oAllLocal := true, oEntryD := 0 }

/-- `op_order_line_insert`. -/
def opOrderLineInsert : CheckedDraw OpState := do
  let warehouseId ← drawWarehouse args
  let districtId ← drawDistrict args
  let itemNum ← Checked.randomNumber 5 15
  let nextOId := s.nextOId (warehouseId - 1) (districtId - 1)
  let olNumber := s.nextOlNumber (warehouseId - 1) (districtId - 1)
  let s :=
    if olNumber > itemNum.toNat then
      (s.setNextOId (warehouseId - 1) (districtId - 1) (nextOId + 1)).setNextOlNumber
        (warehouseId - 1) (districtId - 1) 0
    else s.setNextOlNumber (warehouseId - 1) (districtId - 1) (olNumber + 1)
  let olIId ← Checked.getItemId
  let olAmount ← Checked.randomNumber 1 maxLimit
  s.store .orderLine (OLKey.make warehouseId districtId nextOId olNumber)
    { olIId := olIId.toNat, olDeliveryD := 0, olAmount := olAmount, olSupplyWId := warehouseId,
      olQuantity := warehouseId % 2 ^ 8 }

/-- `op_history_insert`. -/
def opHistoryInsert : CheckedDraw OpState := do
  let warehouseId ← drawWarehouse args
  let customerWarehouseId ← drawWarehouse args
  let customerDstrictId ← drawDistrict args
  let districtId ← drawDistrict args
  let paymentAmount ← Checked.randomNumber 100 500000
  let customerId ← Checked.getCustomerId
  let hData ← Checked.randomStrOf 12 20
  s.tick.store .history
    (HKey.make warehouseId districtId customerWarehouseId customerDstrictId customerId.toNat s.tlHack)
    { hAmount := paymentAmount / 100, hData := varibaleStr 24 hData }

/-- `op_new_order_remove`. -/
def opNewOrderRemove : CheckedDraw OpState := do
  let warehouseId ← drawWarehouse args
  let districtId ← drawDistrict args
  let noOId ← Checked.randomNumber 1 maxLimit
  let res := s.remove .newOrder (NOKey.make warehouseId districtId noOId.toNat)
  return res.2

/-- The entries of `operations`. -/
inductive Operation where
  | warehouseGet
  | districtGet
  | customerGet
  | itemGet
  | stockGet
  | orderGet
  | newOrderGet
  | orderLineScanNShort
  | orderLineScanNLong
  | districtUpdate
  | stockUpdate
  | warehouseUdpate
  | customerUdpate
  | orderUdpate
  | orderLineUpdate
  | newOrderInsert
  | orderInsert
  | orderLineInsert
  | historyInsert
  | newOrderRemove
  deriving DecidableEq

/-- Their functions. -/
def Operation.func : Operation → CheckedDraw OpState
  | .warehouseGet => opWarehouseGet args s
  | .districtGet => opDistrictGet args s
  | .customerGet => opCustomerGet args s
  | .itemGet => opItemGet s
  | .stockGet => opStockGet args s
  | .orderGet => opOrderGet args s
  | .newOrderGet => opNewOrderGet args s
  | .orderLineScanNShort => opOrderLineScanNShort args s
  | .orderLineScanNLong => opOrderLineScanNLong args s
  | .districtUpdate => opDistrictUpdate args s
  | .stockUpdate => opStockUpdate args s
  | .warehouseUdpate => opWarehouseUdpate args s
  | .customerUdpate => opCustomerUdpate args s
  | .orderUdpate => opOrderUdpate args s
  | .orderLineUpdate => opOrderLineUpdate args s
  | .newOrderInsert => opNewOrderInsert args s
  | .orderInsert => opOrderInsert args s
  | .orderLineInsert => opOrderLineInsert args s
  | .historyInsert => opHistoryInsert args s
  | .newOrderRemove => opNewOrderRemove args s

end

/-- One operation after another. -/
def runOperations (args : Args) : List Operation → OpState → CheckedDraw OpState
  | [], s => return s
  | op :: ops, s => do
    let s ← op.func args s
    runOperations args ops s

/-! ### Passing and failing -/

namespace CheckedDraw

section
variable {α β : Type} {m : CheckedDraw α} {f : α → CheckedDraw β} {P : α → Prop} {Q : β → Prop}

/-- The draw passes its checks, whatever the generator, and gives what satisfies `P`. -/
def Safe (m : CheckedDraw α) (P : α → Prop) : Prop := ∀ r, ∃ x, m r = some x ∧ P x.1

/-- The draw fails a check, whatever the generator. -/
def Fails (m : CheckedDraw α) : Prop := ∀ r, m r = none

theorem Safe.pure {a : α} (h : P a) : Safe (Pure.pure a) P := fun r => ⟨(a, r), rfl, h⟩

theorem Safe.bind (h : Safe m P) (hf : ∀ a, P a → Safe (f a) Q) : Safe (m >>= f) Q := by
  intro r
  obtain ⟨x, hx, hP⟩ := h r
  obtain ⟨y, hy, hQ⟩ := hf x.1 hP x.2
  refine ⟨y, ?_, hQ⟩
  change (m r).bind (fun x => f x.1 x.2) = some y
  rw [hx, Option.bind_some, hy]

/-- A draw that fails leaves nothing to go on with. -/
theorem Fails.bind (h : Fails m) : Fails (m >>= f) := by
  intro r
  change (m r).bind (fun x => f x.1 x.2) = none
  rw [h r, Option.bind_none]

/-- What goes on with a failing draw fails. -/
theorem Fails.of_bind (h : Safe m P) (hf : ∀ a, P a → Fails (f a)) : Fails (m >>= f) := by
  intro r
  obtain ⟨x, hx, hP⟩ := h r
  change (m r).bind (fun x => f x.1 x.2) = none
  rw [hx, Option.bind_some, hf x.1 hP]

end

end CheckedDraw

open CheckedDraw (Safe Fails)

theorem Passes.safe {α : Type} {m' : CheckedDraw α} {m : Draw α} {P : α → Prop} (h : Passes m' m P) : Safe m' P :=
  fun r => ⟨m r, h r⟩

theorem lift_safe {α : Type} (m : Draw α) : Safe (lift m) fun _ => True := fun r => ⟨m r, rfl, trivial⟩

theorem invariant_safe {res : Bool} (h : res = true) : Safe (invariant res) fun _ => True := by
  intro r
  exact ⟨((), r), if_pos h, trivial⟩

/-! ### What they draw -/

theorem randomNumber_safe {min max : ℤ} (h : 0 ≤ min ∧ min ≤ max ∧ max < 2 ^ 31 - 1) :
    Safe (Checked.randomNumber min max) fun x => min ≤ x ∧ x ≤ max :=
  (randomNumber_checked min max h.1 h.2.1 h.2.2).safe

theorem randomStrOf_safe {min max : ℤ} (h : 0 ≤ min ∧ min ≤ max ∧ max < 2 ^ 31 - 1) :
    Safe (Checked.randomStrOf min max) fun _ => True :=
  (randomNumber_safe h).bind fun len _ => lift_safe (randomStr len)

theorem getNonUniformCustomerLastNameLoad_safe :
    Safe Checked.getNonUniformCustomerLastNameLoad fun _ => True := by
  have hchecked := nonUniformRandom_checked 255 157 0 999 (by decide) (by decide) (by decide) (by decide)
  exact hchecked.safe.bind fun num _ => .pure trivial

theorem drawAddress_safe : Safe Checked.drawAddress fun _ => True := by
  have hstr : Safe (Checked.randomStrOf 10 20) fun _ => True :=
    randomStrOf_safe (by simp)
  exact hstr.bind fun _ _ => hstr.bind fun _ _ => hstr.bind fun _ _ => (lift_safe _).bind fun _ _ => .pure trivial

section

variable {args : Args} {s : OpState}

theorem drawWarehouse_safe : Safe (drawWarehouse args) args.IsWarehouse := by
  have hW := args.warehouses
  refine (randomNumber_safe (by omega)).bind fun w hw => .pure ?_
  exact ⟨by omega, by omega⟩

theorem drawDistrict_safe :
    Safe (drawDistrict args) fun d => 1 ≤ d ∧ d ≤ args.numDistrictPerWarehouse :=
  district_checked.safe.bind fun d hd => .pure (by omega)

/-- Most operations are about a district of a warehouse. -/
theorem isDistrict_safe {f : ℕ → ℕ → CheckedDraw OpState} {Q : OpState → Prop}
    (hf : ∀ w d, args.IsDistrict w d → Safe (f w d) Q) :
    Safe (drawWarehouse args >>= fun w => drawDistrict args >>= f w) Q :=
  drawWarehouse_safe.bind fun w hw => drawDistrict_safe.bind fun d hd => hf w d ⟨hw, hd⟩

/-! ### The loaded rows -/

/-- The rows the tables were loaded with are there. -/
def OpState.Present (args : Args) (s : OpState) : Prop :=
  ∀ t k, ((prepareKvs args t).get k).isSome → s.get t k = true

theorem present_start (args : Args) : (OpState.start args).Present args := fun _ _ h => h

/-- A lookup in the range of a loaded table succeeds. -/
theorem OpState.Present.found (h : s.Present args) {t : Tab} {dom : t.Key → Prop} {P : t.Key → t.Val → Prop}
    (hrows : Table.Rows (prepareKvs args t) dom P) {k : t.Key} (hk : dom k) : s.get t k = true := by
  obtain ⟨v, hv⟩ := (hrows k).1 hk
  exact h t k (by rw [hv, Option.isSome_some])

/-- An insertion keeps the rows of all tables. -/
theorem store_safe (h : s.Present args) (t : Tab) (k : t.Key) (v : t.Val) :
    Safe (s.store t k v) (OpState.Present args) := by
  refine (invariant_safe rfl).bind fun _ _ => .pure ?_
  intro t' k' hloaded
  have hget := h t' k' hloaded
  simp only [OpState.get, OpState.insert] at hget ⊢
  obtain rfl | hne := eq_or_ne t' t
  · rw [Function.update_self, Table.get_insert]
    split_ifs
    · rfl
    · exact hget
  · rw [Function.update_of_ne hne]
    exact hget

/-! ### Operations that pass -/

section
variable (h : s.Present args)
include h

/-- A lookup that is checked. -/
theorem found_safe {t : Tab} {dom : t.Key → Prop} {P : t.Key → t.Val → Prop}
    (hrows : Table.Rows (prepareKvs args t) dom P) {k : t.Key} (hk : dom k) :
    Safe (do invariant (s.get t k); return s) (OpState.Present args) :=
  (invariant_safe (h.found hrows hk)).bind fun _ _ => .pure h

theorem opWarehouseGet_safe : Safe (opWarehouseGet args s) (OpState.Present args) := by
  refine drawWarehouse_safe.bind fun w hw => found_safe h (loaded_prepareKvs args).warehouse ?_
  rw [make_wKey hw]
  exact hw

theorem opDistrictGet_safe : Safe (opDistrictGet args s) (OpState.Present args) := by
  refine isDistrict_safe fun w d hd => found_safe h (loaded_prepareKvs args).district ?_
  rw [make_dKey hd]
  exact hd

theorem opCustomerGet_safe : Safe (opCustomerGet args s) (OpState.Present args) := by
  refine isDistrict_safe fun w d hd => getCustomerId_checked.safe.bind fun c hc => ?_
  refine found_safe h (loaded_prepareKvs args).customer ?_
  have hrange : 1 ≤ c.toNat ∧ c.toNat ≤ numCustomerPerDistrict := by omega
  rw [make_cKey hd (by simp only [numCustomerPerDistrict] at hrange; omega)]
  exact ⟨hd, hrange⟩

theorem opItemGet_safe : Safe (opItemGet s) (OpState.Present args) := by
  refine getItemId_checked.safe.bind fun i hi => found_safe h (loaded_prepareKvs args).item ?_
  have hrange : 1 ≤ i.toNat ∧ i.toNat ≤ numItem := by omega
  rw [make_iKey hrange.2]
  exact hrange

theorem opStockGet_safe : Safe (opStockGet args s) (OpState.Present args) := by
  refine drawWarehouse_safe.bind fun w hw => getItemId_checked.safe.bind fun i hi => ?_
  refine found_safe h (loaded_prepareKvs args).stock ?_
  have hrange : 1 ≤ i.toNat ∧ i.toNat ≤ numItem := by omega
  rw [make_sKey hw hrange.2]
  exact ⟨hw, hrange⟩

theorem opOrderGet_safe : Safe (opOrderGet args s) (OpState.Present args) := by
  refine isDistrict_safe fun w d hd => ?_
  refine (randomNumber_safe (by simp [numCustomerPerDistrict])).bind fun o ho => ?_
  refine found_safe h (loaded_prepareKvs args).order ?_
  have hrange : 1 ≤ o.toNat ∧ o.toNat ≤ numCustomerPerDistrict := by omega
  rw [make_oKey hd (by simp only [numCustomerPerDistrict] at hrange; omega)]
  exact ⟨hd, hrange⟩

/-- The orders drawn here are those that have not been delivered. -/
theorem opNewOrderGet_safe : Safe (opNewOrderGet args s) (OpState.Present args) := by
  refine isDistrict_safe fun w d hd => ?_
  refine (randomNumber_safe (by simp [numCustomerPerDistrict])).bind fun o ho => ?_
  refine found_safe h (loaded_prepareKvs args).newOrder ?_
  have hrange : 2101 ≤ o.toNat ∧ o.toNat ≤ numCustomerPerDistrict := by omega
  rw [make_noKey hd (by simp only [numCustomerPerDistrict] at hrange; omega)]
  exact ⟨hd, hrange⟩

theorem opOrderLineScanNShort_safe : Safe (opOrderLineScanNShort args s) (OpState.Present args) := by
  refine isDistrict_safe fun w d hd => ?_
  refine (randomNumber_safe (by simp [numCustomerPerDistrict])).bind fun o ho => ?_
  exact (invariant_safe (decide_eq_true rfl)).bind fun _ _ => .pure h

theorem opOrderLineScanNLong_safe : Safe (opOrderLineScanNLong args s) (OpState.Present args) := by
  refine isDistrict_safe fun w d hd => ?_
  refine (randomNumber_safe (by simp [numCustomerPerDistrict])).bind fun o ho => ?_
  exact (invariant_safe (decide_eq_true rfl)).bind fun _ _ => .pure h

theorem opDistrictUpdate_safe : Safe (opDistrictUpdate args s) (OpState.Present args) := by
  refine isDistrict_safe fun w d _ => ?_
  refine (randomNumber_safe (by simp)).bind fun tax _ => ?_
  refine (randomStrOf_safe (by simp)).bind fun name _ => ?_
  exact drawAddress_safe.bind fun _ _ => store_safe h _ _ _

theorem opStockUpdate_safe : Safe (opStockUpdate args s) (OpState.Present args) := by
  refine drawWarehouse_safe.bind fun w _ => ?_
  refine (randomNumber_safe (by simp [numItem])).bind fun item _ => ?_
  refine (randomNumber_safe (by simp)).bind fun quantity _ => ?_
  refine (randomNumber_safe (by simp)).bind fun ytd _ => ?_
  refine (randomNumber_safe (by simp)).bind fun orderCnt _ => ?_
  refine (randomNumber_safe (by simp)).bind fun remoteCnt _ => ?_
  exact store_safe h _ _ _

theorem opWarehouseUdpate_safe : Safe (opWarehouseUdpate args s) (OpState.Present args) := by
  refine drawWarehouse_safe.bind fun w _ => ?_
  refine (randomNumber_safe (by simp)).bind fun tax _ => ?_
  refine (randomStrOf_safe (by simp)).bind fun name _ => ?_
  exact drawAddress_safe.bind fun _ _ => store_safe h _ _ _

theorem opCustomerUdpate_safe : Safe (opCustomerUdpate args s) (OpState.Present args) := by
  refine drawWarehouse_safe.bind fun w _ => ?_
  refine (randomNumber_safe (by simp [numCustomerPerDistrict])).bind fun c _ => ?_
  refine drawDistrict_safe.bind fun d _ => ?_
  refine (randomNumber_safe (by simp)).bind fun discount _ => ?_
  refine (randomNumber_safe (by simp)).bind fun credit _ => ?_
  refine getNonUniformCustomerLastNameLoad_safe.bind fun last _ => ?_
  refine (randomStrOf_safe (by simp)).bind fun first _ => ?_
  refine drawAddress_safe.bind fun _ _ => (lift_safe _).bind fun zip _ => (lift_safe _).bind fun phone _ => ?_
  refine (randomStrOf_safe (by simp)).bind fun data _ => ?_
  have htick : s.tick.Present args := h
  exact store_safe htick _ _ _

theorem opOrderUdpate_safe : Safe (opOrderUdpate args s) (OpState.Present args) := by
  refine isDistrict_safe fun w d _ => getCustomerId_checked.safe.bind fun c _ => ?_
  refine (randomNumber_safe (by simp [numCustomerPerDistrict])).bind fun o _ => ?_
  refine (randomNumber_safe (by simp)).bind fun numItems _ => ?_
  exact drawDistrict_safe.bind fun carrier _ => store_safe h _ _ _

theorem opNewOrderInsert_safe : Safe (opNewOrderInsert args s) (OpState.Present args) := by
  refine isDistrict_safe fun w d _ => ?_
  have hnext : (s.setNextOId (w - 1) (d - 1) (s.nextOId (w - 1) (d - 1) + 1)).Present args := h
  exact store_safe hnext _ _ _

theorem opOrderInsert_safe : Safe (opOrderInsert args s) (OpState.Present args) := by
  refine isDistrict_safe fun w d _ => getCustomerId_checked.safe.bind fun c _ => ?_
  refine (randomNumber_safe (by simp)).bind fun numItems _ => ?_
  have hnext : (s.setNextOId (w - 1) (d - 1) (s.nextOId (w - 1) (d - 1) + 1)).Present args := h
  exact drawDistrict_safe.bind fun carrier _ => store_safe hnext _ _ _

theorem opHistoryInsert_safe : Safe (opHistoryInsert args s) (OpState.Present args) := by
  refine drawWarehouse_safe.bind fun w _ => drawWarehouse_safe.bind fun cw _ => ?_
  refine drawDistrict_safe.bind fun cd _ => drawDistrict_safe.bind fun d _ => ?_
  refine (randomNumber_safe (by simp)).bind fun amount _ => ?_
  refine getCustomerId_checked.safe.bind fun c _ => ?_
  refine (randomStrOf_safe (by simp)).bind fun data _ => ?_
  have htick : s.tick.Present args := h
  exact store_safe htick _ _ _

end

/-! ### Operations that fail -/

/-- The limit, `2 ^ 32 - 2`, is `-2` as an `int`: the range that starts at 1 is empty. -/
theorem maxLimit_fails : Fails (Checked.randomNumber 1 maxLimit) := by
  intro r
  have hlimit : maxLimit = -2 := by norm_num [maxLimit, i32, Int.bmod]
  exact randomNumber_unchecked (by omega) r

theorem opOrderLineUpdate_fails : Fails (opOrderLineUpdate args s) := by
  refine .of_bind drawWarehouse_safe fun w _ => .of_bind drawDistrict_safe fun d _ => ?_
  refine .of_bind (randomNumber_safe (by simp [numCustomerPerDistrict])) fun o _ => ?_
  refine .of_bind (randomNumber_safe (by simp)) fun olNumber _ => ?_
  exact .of_bind getItemId_checked.safe fun item _ => maxLimit_fails.bind

theorem opOrderLineInsert_fails : Fails (opOrderLineInsert args s) := by
  refine .of_bind drawWarehouse_safe fun w _ => .of_bind drawDistrict_safe fun d _ => ?_
  refine .of_bind (randomNumber_safe (by simp)) fun itemNum _ => ?_
  exact .of_bind getItemId_checked.safe fun item _ => maxLimit_fails.bind

theorem opNewOrderRemove_fails : Fails (opNewOrderRemove args s) :=
  .of_bind drawWarehouse_safe fun _ _ => .of_bind drawDistrict_safe fun _ _ => maxLimit_fails.bind

/-! ### Sequences -/

/-- The operation asks for a number up to `maxLimit`. -/
def Operation.tooLarge : Operation → Bool
  | .orderLineUpdate | .orderLineInsert | .newOrderRemove => true
  | _ => false

theorem safe_func {op : Operation} (h : s.Present args) (hop : op.tooLarge = false) :
    Safe (op.func args s) (OpState.Present args) := by
  cases op with
  | warehouseGet => exact opWarehouseGet_safe h
  | districtGet => exact opDistrictGet_safe h
  | customerGet => exact opCustomerGet_safe h
  | itemGet => exact opItemGet_safe h
  | stockGet => exact opStockGet_safe h
  | orderGet => exact opOrderGet_safe h
  | newOrderGet => exact opNewOrderGet_safe h
  | orderLineScanNShort => exact opOrderLineScanNShort_safe h
  | orderLineScanNLong => exact opOrderLineScanNLong_safe h
  | districtUpdate => exact opDistrictUpdate_safe h
  | stockUpdate => exact opStockUpdate_safe h
  | warehouseUdpate => exact opWarehouseUdpate_safe h
  | customerUdpate => exact opCustomerUdpate_safe h
  | orderUdpate => exact opOrderUdpate_safe h
  | newOrderInsert => exact opNewOrderInsert_safe h
  | orderInsert => exact opOrderInsert_safe h
  | historyInsert => exact opHistoryInsert_safe h
  | orderLineUpdate | orderLineInsert | newOrderRemove => cases hop

theorem fails_func {op : Operation} (hop : op.tooLarge = true) : Fails (op.func args s) := by
  cases op with
  | orderLineUpdate => exact opOrderLineUpdate_fails
  | orderLineInsert => exact opOrderLineInsert_fails
  | newOrderRemove => exact opNewOrderRemove_fails
  | _ => cases hop

theorem safe_run {ops : List Operation} (h : s.Present args) (hops : ∀ op ∈ ops, op.tooLarge = false) :
    Safe (runOperations args ops s) (OpState.Present args) := by
  induction ops generalizing s with
  | nil => exact .pure h
  | cons op ops ih =>
    rw [List.forall_mem_cons] at hops
    exact (safe_func h hops.1).bind fun s hs => ih hs hops.2

/-- The first operation that fails ends the run. -/
theorem fails_run {ops : List Operation} (h : s.Present args) {op : Operation} (hop : op ∈ ops)
    (hlarge : op.tooLarge = true) : Fails (runOperations args ops s) := by
  induction ops generalizing s with
  | nil => cases hop
  | cons op' ops ih =>
    cases hfirst : op'.tooLarge with
    | true => exact (fails_func hfirst).bind
    | false =>
      obtain rfl | hop := List.mem_cons.mp hop
      · rw [hlarge] at hfirst
        cases hfirst
      · exact .of_bind (safe_func h hfirst) fun s hs => ih hs hop

end

/-- A sequence of operations on the loaded tables passes its checks if and only if none of
them asks for a number up to `maxLimit`. -/
theorem operations_pass_iff (args : Args) (ops : List Operation) (r : FastRandom) :
    (runOperations args ops (OpState.start args) r).isSome ↔ ∀ op ∈ ops, op.tooLarge = false := by
  constructor
  · intro hrun op hop
    by_contra hlarge
    have hfails := fails_run (present_start args) hop (Bool.eq_true_of_not_eq_false hlarge)
    rw [hfails r] at hrun
    cases hrun
  · intro hops
    obtain ⟨x, hx, -⟩ := safe_run (present_start args) hops r
    rw [hx]
    rfl

/-- An update of an order line fails on the tables of two warehouses. -/
theorem orderLineUpdate_aborts :
    ¬ ∀ (args : Args) (ops : List Operation) (r : FastRandom),
      (runOperations args ops (OpState.start args) r).isSome := by
  intro h
  have hrun := h twoWarehouses [.orderLineUpdate] (FastRandom.new 0)
  rw [fails_run (present_start _) (List.mem_singleton_self _) rfl] at hrun
  cases hrun

end SidleBaselines.Tpcc
