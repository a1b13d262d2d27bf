import SidleBaselines.Concurrency.Prog
import SidleBaselines.Tpcc.Draws
import SidleBaselines.Tpcc.Rows

/-!
# The transactions

The five transactions as programs over the tables, the two side arrays
`pending_new_order_per_dis` and `latest_order_id_per_customer`, and the thread's
clock, in the build without `ORIGIN_TPCC`. Machine integers wrap as their C types
do. The total of `txn_new_order`, which is computed and thrown away, is left out.
-/

namespace SidleBaselines.Tpcc

open SidleBaselines.Data SidleBaselines.Concurrency

/-! ### Operations -/

/-- What a transaction does to the state it shares with other threads, and its
reading of its own clock. -/
inductive Op where
  /-- `table->get(k, v, ...)`. -/
  | get (t : Tab) (k : t.Key)
  /-- `table->insert(k, v, ...)`. -/
  | insert (t : Tab) (k : t.Key) (v : t.Val)
  /-- `table->remove(k, ...)`. -/
  | remove (t : Tab) (k : t.Key)
  /-- `table->scan(k, n, kvs, ...)`. -/
  | scan (t : Tab) (k : t.Key) (n : ℕ)
  /-- `GetCurrentTimeMillis()`. -/
  | getCurrentTimeMillis
  /-- Read `pending_new_order_per_dis[w - 1][d - 1]`. -/
  | pending (w d : ℕ)
  /-- `pending_new_order_per_dis[w - 1][d - 1] = o`. -/
  | setPending (w d o : ℕ)
  /-- Read `latest_order_id_per_customer[w - 1][d - 1][c - 1]`. -/
  | latest (w d c : ℕ)
  /-- `latest_order_id_per_customer[w - 1][d - 1][c - 1] = o`. -/
  | setLatest (w d c o : ℕ)

/-- What an operation gives back: a `get`, whether it found the row, and the row
variable after it; a `scan`, the entries. -/
@[reducible] def Op.Res : Op → Type
  | get t _ => Bool × t.Val
  | insert _ _ _ => Bool
  | remove _ _ => Bool
  | scan t _ _ => List (t.Key × t.Val)
  | getCurrentTimeMillis => ℕ
  | pending _ _ => ℕ
  | setPending _ _ _ => Unit
  | latest _ _ _ => ℕ
  | setLatest _ _ _ _ => Unit

/-- A transaction in progress. -/
abbrev Txn := Prog Op Op.Res

/-- `table->get(k, v, ...)`. -/
def get (t : Tab) (k : t.Key) : Txn (Bool × t.Val) := Prog.issue (Op.get t k)

/-- `table->insert(k, v, ...)`. -/
def insert (t : Tab) (k : t.Key) (v : t.Val) : Txn Bool := Prog.issue (Op.insert t k v)

/-- `table->remove(k, ...)`. -/
def remove (t : Tab) (k : t.Key) : Txn Bool := Prog.issue (Op.remove t k)

/-- `table->scan(k, n, kvs, ...)`. -/
def scan (t : Tab) (k : t.Key) (n : ℕ) : Txn (List (t.Key × t.Val)) := Prog.issue (Op.scan t k n)

/-- `GetCurrentTimeMillis()`. -/
def getCurrentTimeMillis : Txn ℕ := Prog.issue Op.getCurrentTimeMillis

/-! ### `txn_new_order` -/

/-- The stock row of an item after the order of it. -/
def SVal.ordered (v : SVal) (w : ℕ) (item : OrderItem) : SVal :=
  { sQuantity :=
      if 10 ≤ u32 (v.sQuantity - item.quantity) then u32 (v.sQuantity - item.quantity)
      else u32 (v.sQuantity + (91 - item.quantity))
    sYtd := v.sYtd + item.quantity
    sOrderCnt := u32 (v.sOrderCnt + 1)
    sRemoteCnt := u32 (v.sRemoteCnt + if item.supplyWId = w then 0 else 1) }

/-- The order line of an item, not delivered yet. -/
def OrderItem.line (item : OrderItem) (vI : IVal) : OLVal :=
  { olIId := item.itemId, olDeliveryD := 0, olAmount := item.quantity * vI.iPrice,
    olSupplyWId := item.supplyWId, olQuantity := item.quantity % 2 ^ 8 }

/-- Back out of an order whose item does not exist. -/
def abortNewOrder (kD : DKey) (vD : DVal) (kNO : NOKey) (kO : OKey) : Txn Unit := do
  let _ ← insert .district kD { vD with dNextOId := u32 (vD.dNextOId - 1) }
  let _ ← remove .newOrder kNO
  let _ ← remove .order kO
  return ()

/-- The loop of `txn_new_order`, from line `olNumber` on. -/
def newOrderLines (w d : ℕ) (kD : DKey) (vD : DVal) (kNO : NOKey) (kO : OKey) :
    ℕ → List OrderItem → Txn Unit
  | _, [] => return ()
  | olNumber, item :: items => do
    let vI ← get .item (IKey.make item.itemId)
    if vI.1 then
      let vS ← get .stock (SKey.make item.supplyWId item.itemId)
      let _ ← insert .stock (SKey.make item.supplyWId item.itemId) (vS.2.ordered w item)
      let _ ← insert .orderLine (OLKey.make w d kNO.noOId olNumber) (item.line vI.2)
      newOrderLines w d kD vD kNO kO (olNumber + 1) items
    else abortNewOrder kD vD kNO kO

/-- `txn_new_order`. The order's id is the district's counter after its increment. -/
def txnNewOrder (w : ℕ) (x : NewOrder) : Txn Unit := do
  let _ ← get .warehouse (WKey.make w)
  let kD := DKey.make w x.districtId
  let vD ← get .district kD
  let vD := { vD.2 with dNextOId := u32 (vD.2.dNextOId + 1) }
  let _ ← insert .district kD vD
  let _ ← get .customer (CKey.make x.customerId x.districtId w)
  let kNO := NOKey.make w x.districtId vD.dNextOId
  let _ ← insert .newOrder kNO { noDummy := varibaleStr 2 "no".toList }
  Prog.issue (Op.setPending w x.districtId vD.dNextOId)
  Prog.issue (Op.setLatest w x.districtId x.customerId vD.dNextOId)
  let kO := OKey.make w x.districtId kNO.noOId
  let oEntryD ← getCurrentTimeMillis
  let _ ← insert .order kO
    { oCId := x.customerId, oCarrierId := 0, oOlCnt := x.items.length % 2 ^ 8,
      oAllLocal := x.allLocal, oEntryD := oEntryD }
  newOrderLines w x.districtId kD vD kNO kO 1 x.items

/-! ### `txn_payment` -/

/-- `%f`. -/
def printF (q : ℚ) : List Char :=
  let millionths := ⌊q * 10 ^ 6 + 1 / 2⌋.toNat
  let fraction := (toString (millionths % 10 ^ 6)).toList
  (toString (millionths / 10 ^ 6)).toList ++ '.' :: (List.replicate (6 - fraction.length) '0' ++ fraction)

/-- `"%d %d %d %d %d %f | %s"`, cut to the 500 characters of `c_data`. -/
def paymentData (kC : CKey) (districtId w : ℕ) (paymentAmount : ℚ) (cData : List Char) : List Char :=
  let numbers := [kC.cId, kC.cDId, kC.cWId, districtId, w].flatMap fun n => (toString n).toList ++ [' ']
  (numbers ++ printF paymentAmount ++ " | ".toList ++ cData).take 500

/-- The customer row after a payment. -/
def CVal.paid (v : CVal) (kC : CKey) (w : ℕ) (x : Payment) : CVal :=
  { v with
    cBalance := v.cBalance - x.paymentAmount
    cYtdPayment := v.cYtdPayment + x.paymentAmount
    cPaymentCnt := u32 (v.cPaymentCnt + 1)
    cData :=
      if v.cCredit = "BC".toList then paymentData kC x.districtId w x.paymentAmount v.cData
      else v.cData }

/-- `txn_payment`. -/
def txnPayment (w : ℕ) (x : Payment) : Txn Unit := do
  let ts ← getCurrentTimeMillis
  let vW ← get .warehouse (WKey.make w)
  let _ ← insert .warehouse (WKey.make w) { vW.2 with wYtd := vW.2.wYtd + x.paymentAmount }
  let kD := DKey.make w x.districtId
  let vD ← get .district kD
  let _ ← insert .district kD { vD.2 with dYtd := vD.2.dYtd + x.paymentAmount }
  let kC := CKey.make x.customerId x.customerDistrictId x.customerWarehouseId
  let vC ← get .customer kC
  let _ ← insert .customer kC (vC.2.paid kC w x)
  let kH := HKey.make w x.districtId x.customerWarehouseId x.customerDistrictId x.customerId ts
  let _ ← insert .history kH
    { hAmount := x.paymentAmount, hData := vW.2.wName ++ List.replicate 4 ' ' ++ vD.2.dName }
  return ()

/-! ### `txn_delivery` -/

/-- The loop of `txn_delivery` over the order lines it has scanned. -/
def deliverLines (olTotal : ℚ) : List (OLKey × OLVal) → Txn ℚ
  | [] => return olTotal
  | (k, v) :: kvs => do
    let ts ← getCurrentTimeMillis
    let _ ← insert .orderLine k { v with olDeliveryD := ts }
    deliverLines (olTotal + v.olAmount) kvs

/-- The customer row after a delivery worth `olTotal`. -/
def CVal.delivered (v : CVal) (olTotal : ℚ) : CVal :=
  { v with cBalance := v.cBalance + olTotal, cDeliveryCnt := u32 (v.cDeliveryCnt + 1) }

/-- Deliver order `o`, whose row is `vO`: what `txn_delivery` does in a district it has
found an order in. -/
def deliverOrder (w d oCarrierId o : ℕ) (vO : OVal) : Txn Unit := do
  let _ ← remove .newOrder (NOKey.make w d o)
  let _ ← insert .order (OKey.make w d o) { vO with oCarrierId := oCarrierId }
  let kvsOl ← scan .orderLine (OLKey.make w d o 0) 10
  let olTotal ← deliverLines 0 kvsOl
  let kC := CKey.make vO.oCId d w
  let vC ← get .customer kC
  let _ ← insert .customer kC (vC.2.delivered olTotal)
  return ()

/-- One round of `txn_delivery`: whether it goes on to the next district. -/
def deliverDistrict (w oCarrierId d : ℕ) : Txn Bool := do
  let latestNoId ← Prog.issue (Op.pending w d)
  let kNO := NOKey.make w d latestNoId
  let vNO ← get .newOrder kNO
  if vNO.1 then
    let vO ← get .order (OKey.make w d kNO.noOId)
    if vO.1 then
      deliverOrder w d oCarrierId kNO.noOId vO.2
      return true
    else return false
  else return true

/-- The loop of `txn_delivery` over the districts still to visit. -/
def deliverDistricts (w oCarrierId : ℕ) : List ℕ → Txn Unit
  | [] => return ()
  | d :: ds => do
    let goOn ← deliverDistrict w oCarrierId d
    if goOn then deliverDistricts w oCarrierId ds else return ()

/-- `txn_delivery`. -/
def txnDelivery (args : Args) (w : ℕ) (x : Delivery) : Txn Unit :=
  deliverDistricts w x.oCarrierId (List.range' 1 args.numDistrictPerWarehouse)

/-! ### `txn_order_status` and `txn_stock_level` -/

/-- `txn_order_status`. -/
def txnOrderStatus (w : ℕ) (x : OrderStatus) : Txn Unit := do
  let newestOId ← Prog.issue (Op.latest w x.districtId x.customerId)
  let _ ← scan .orderLine (OLKey.make w x.districtId newestOId 0) 10
  return ()

/-- The first order id `txn_stock_level` looks at, `curNextOId` being the district's counter. -/
def stockLevelLower (curNextOId : ℕ) : ℕ := if 20 ≤ curNextOId then curNextOId - 20 else 0

/-- The loop of `txn_stock_level`: how many of the lines' items are low in stock. -/
def countLowStock (w threshold fakeSize : ℕ) : List (OLKey × OLVal) → Txn ℕ
  | [] => return fakeSize
  | (_, v) :: kvs => do
    let vS ← get .stock (SKey.make w v.olIId)
    countLowStock w threshold (if vS.2.sQuantity < threshold then fakeSize + 1 else fakeSize) kvs

/-- `txn_stock_level`. -/
def txnStockLevel (w : ℕ) (x : StockLevel) : Txn Unit := do
  let vD ← get .district (DKey.make w x.districtId)
  let kvsOl ← scan .orderLine (OLKey.make w x.districtId (stockLevelLower vD.2.dNextOId) 0) (10 * 20)
  let _ ← countLowStock w x.threshold 0 kvsOl
  return ()

/-- The transaction a request asks for. -/
def txn (args : Args) : Request → Txn Unit
  | .newOrder w x => txnNewOrder w x
  | .payment w x => txnPayment w x
  | .delivery w x => txnDelivery args w x
  | .orderStatus w x => txnOrderStatus w x
  | .stockLevel w x => txnStockLevel w x

end SidleBaselines.Tpcc
