import SidleBaselines.Tpcc.Random
import SidleBaselines.Tpcc.Rows

/-!
# The loader

The functions that make the rows a run starts from. Each draws from a generator
of its own, and emplaces its rows in the order of its loops. Columns the rows do
not have (streets, cities, last names and the like) are still drawn, since what
is drawn after them depends on it.
-/

namespace SidleBaselines.Tpcc

open SidleBaselines.Data

variable (args : Args)

/-! ### Warehouses, districts and customers -/

/-- The two streets, the city and the state of a row. -/
def drawAddress : Draw Unit := do
  let _ ← randomStrOf 10 20
  let _ ← randomStrOf 10 20
  let _ ← randomStrOf 10 20
  let _ ← randomStr 3

/-- One row of `load_warehouse`. -/
def loadWarehouseRow (i : ℕ) : Draw (WKey × WVal) := do
  let wTax ← randomNumber 0 2000
  let wName ← randomStrOf 6 10
  drawAddress
  return (WKey.make i, { wYtd := 300000, wTax := wTax / 10000, wName := varibaleStr 10 wName })

/-- `load_warehouse`. -/
def loadWarehouse : Draw (List (WKey × WVal) × Unit) :=
  forRange args.warehouseNum () fun i s => do
    let row ← loadWarehouseRow i
    return ([row], s)

/-- One row of `load_district`. -/
def loadDistrictRow (wI dI : ℕ) : Draw (DKey × DVal) := do
  let dTax ← randomNumber 0 2000
  let dName ← randomStrOf 6 10
  drawAddress
  return (DKey.make wI dI,
    { dYtd := 30000, dTax := dTax / 10000, dNextOId := 3001, dName := varibaleStr 10 dName })

/-- `load_district`. -/
def loadDistrict : Draw (List (DKey × DVal) × Unit) :=
  forRange args.warehouseNum () fun wI s =>
    forRange args.numDistrictPerWarehouse s fun dI s => do
      let row ← loadDistrictRow wI dI
      return ([row], s)

/-- The last name of customer `cI`. -/
def loadLastName (cI : ℕ) : Draw (List Char) :=
  if cI ≤ 1000 then return getCustomerLastName (cI - 1) else getNonUniformCustomerLastNameLoad

/-- One row of `load_customer`. -/
def loadCustomerRow (wI dI cI : ℕ) : Draw (CKey × CVal) := do
  let cDiscount ← randomNumber 1 5000
  let credit ← randomNumber 1 100
  let _ ← loadLastName cI
  let _ ← randomStrOf 8 16
  drawAddress
  let _ ← randomNStr 4
  let _ ← randomNStr 16
  let cData ← randomStrOf 300 500
  return (CKey.make cI dI wI,
    { cDiscount := cDiscount / 10000, cBalance := -10, cYtdPayment := 10, cPaymentCnt := 1,
      cDeliveryCnt := 0, cCredit := varibaleStr 2 (if credit ≤ 10 then "BC" else "GC").toList,
      cData := varibaleStr 500 cData })

/-- `load_customer`. -/
def loadCustomer : Draw (List (CKey × CVal) × Unit) :=
  forRange args.warehouseNum () fun wI s =>
    forRange args.numDistrictPerWarehouse s fun dI s =>
      forRange numCustomerPerDistrict s fun cI s => do
        let row ← loadCustomerRow wI dI cI
        return ([row], s)

/-- One row of `load_history`. -/
def loadHistoryRow (wI dI cI ts : ℕ) : Draw (HKey × HVal) := do
  let hData ← randomStrOf 10 24
  return (HKey.make wI dI wI dI cI ts, { hAmount := 10, hData := varibaleStr 24 hData })

/-- `load_history`: `ts` starts over in every district. -/
def loadHistory : Draw (List (HKey × HVal) × Unit) :=
  forRange args.warehouseNum () fun wI s =>
    forRange args.numDistrictPerWarehouse s fun dI _ => do
      let rows ← forRange numCustomerPerDistrict 0 fun cI ts => do
        let ts := ts + 1
        let row ← loadHistoryRow wI dI cI ts
        return ([row], ts)
      return (rows.1, ())

/-! ### Items and stock -/

/-- `i_data`. -/
def drawItemData : Draw Unit := do
  let len ← randomNumber 26 50
  let pct ← randomNumber 1 100
  if pct > 10 then
    let _ ← randomStr len
  else
    let startOriginal ← randomNumber 2 (len - 8)
    let _ ← randomStr (startOriginal + 1)
    let _ ← randomStr (len - startOriginal - 7)

/-- One row of `load_item`. -/
def loadItemRow (i : ℕ) : Draw (IKey × IVal) := do
  let _ ← randomStrOf 14 24
  let iPrice ← randomNumber 100 10000
  drawItemData
  let _ ← randomNumber 1 10000
  return (IKey.make i, { iPrice := iPrice / 100 })

/-- `load_item`. -/
def loadItem : Draw (List (IKey × IVal) × Unit) :=
  forRange numItem () fun i s => do
    let row ← loadItemRow i
    return ([row], s)

/-- One row of `load_stock`. -/
def loadStockRow (wI iI : ℕ) : Draw (SKey × SVal) := do
  let sQuantity ← randomNumber 10 100
  return (SKey.make wI iI, { sQuantity := sQuantity.toNat, sYtd := 0, sOrderCnt := 0, sRemoteCnt := 0 })

/-- `load_stock`. -/
def loadStock : Draw (List (SKey × SVal) × Unit) :=
  forRange args.warehouseNum () fun wI s =>
    forRange numItem s fun iI s => do
      let row ← loadStockRow wI iI
      return ([row], s)

/-! ### Orders -/

/-- What one round of the loops of `load_order` emplaces. -/
structure LoadedOrder where
  /-- In the order table. -/
  order : OKey × OVal
  /-- In `temp_no_map`. -/
  newOrder : List (NOKey × NOVal)
  /-- In `temp_ol_map`. -/
  lines : List (OLKey × OLVal)

/-- `ol_amount`, for a line of order `olOId`: nothing when it is delivered already. -/
def loadAmount (olOId : ℕ) : Draw ℤ := if olOId < 2101 then return 0 else randomNumber 1 999999

/-- `o_carrier_id` of order `oId`. -/
def loadCarrier (oId : ℕ) : Draw ℤ := if oId < 2101 then randomNumber 1 10 else return 0

/-- Line `lI` of the order `kO`, `vO`. -/
def loadLine (wI dI oI lI : ℕ) (vO : OVal) : Draw (OLKey × OLVal) := do
  let kOl := OLKey.make wI dI oI lI
  let olIId ← randomNumber 1 100000
  let olAmount ← loadAmount kOl.olOId
  return (kOl,
    { olIId := olIId.toNat
      olDeliveryD := if kOl.olOId < 2101 then vO.oEntryD else 0
      olAmount := olAmount / 100
      olSupplyWId := kOl.olWId
      olQuantity := 5 })

/-- One round of the loops of `load_order`, for order `oI`, whose customer is `oCId`. -/
def loadOrderRow (wI dI oI oCId ts : ℕ) : Draw LoadedOrder := do
  let kO := OKey.make wI dI oI
  let oCarrierId ← loadCarrier kO.oId
  let oOlCnt ← randomNumber 5 15
  let vO : OVal :=
    { oCId := oCId, oCarrierId := oCarrierId.toNat, oOlCnt := oOlCnt.toNat % 2 ^ 8, oAllLocal := true,
      oEntryD := ts }
  let lines ← forRange vO.oOlCnt () fun lI s => do
    let line ← loadLine wI dI oI lI vO
    return ([line], s)
  return { order := (kO, vO)
           newOrder := if 2101 ≤ oI then [(NOKey.make wI dI oI, { noDummy := varibaleStr 2 "a".toList })] else []
           lines := lines.1 }

/-- `c_ids`: the customers of a district's orders, first to last. -/
def cIds : List ℕ := args.shuffle (List.range' 1 numCustomerPerDistrict)

/-- `load_order`: `ts` counts on over all districts. -/
def loadOrder : Draw (List LoadedOrder × ℕ) :=
  forRange args.warehouseNum 0 fun wI ts =>
    forRange args.numDistrictPerWarehouse ts fun dI ts =>
      forRange numCustomerPerDistrict ts fun oI ts => do
        let ts := (ts + 1) % 2 ^ 32
        let row ← loadOrderRow wI dI oI ((cIds args).getD (oI - 1) 0) ts
        return ([row], ts)

/-- The orders `load_order` makes, from the generator it is given. -/
def loadedOrders : List LoadedOrder := (loadOrder args (FastRandom.new 2343352)).1.1

/-- `prepare_kvs`: every table's loader, with its seed; `load_new_order` and
`load_online_order` copy what `load_order` has left in the two maps. -/
def prepareKvs : Db
  | .warehouse => Table.load (loadWarehouse args (FastRandom.new 9394)).1.1
  | .district => Table.load (loadDistrict args (FastRandom.new 129856349)).1.1
  | .customer => Table.load (loadCustomer args (FastRandom.new 923587856425)).1.1
  | .history => Table.load (loadHistory args (FastRandom.new 923587856425)).1.1
  | .item => Table.load (loadItem (FastRandom.new 235443)).1.1
  | .stock => Table.load (loadStock args (FastRandom.new 89785943)).1.1
  | .order => Table.load ((loadedOrders args).map LoadedOrder.order)
  | .newOrder => Table.load (Table.load ((loadedOrders args).flatMap LoadedOrder.newOrder)).entries
  | .orderLine => Table.load (Table.load ((loadedOrders args).flatMap LoadedOrder.lines)).entries

end SidleBaselines.Tpcc
