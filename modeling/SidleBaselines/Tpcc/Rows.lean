import SidleBaselines.Data.Table

/-!
# The tables of the benchmark

The keys and rows of the nine tables a run uses. A key's fields have the widths
the packed structure gives them: its constructor (`make`) truncates what it is
given. Keys are ordered by their fields, most significant first, as the tables
keep them. Quantities of money and `s_ytd`, `float` in the source, are exact rationals;
the columns no transaction reads are left out.
-/

namespace SidleBaselines.Tpcc

open SidleBaselines.Data

/-! ### Keys -/

/-- `W_key`. -/
structure WKey where
  /-- `uint64_t w_id`. -/
  wId : ℕ

/-- `D_key`. -/
structure DKey where
  /-- `uint8_t d_id`. -/
  dId : ℕ
  /-- `uint16_t d_w_id`. -/
  dWId : ℕ

/-- `C_key`. -/
structure CKey where
  /-- `uint16_t c_id`. -/
  cId : ℕ
  /-- `uint8_t c_d_id`. -/
  cDId : ℕ
  /-- `uint16_t c_w_id`. -/
  cWId : ℕ

/-- `H_key`. -/
structure HKey where
  /-- `uint16_t h_c_id`. -/
  hCId : ℕ
  /-- `uint8_t h_c_d_id`. -/
  hCDId : ℕ
  /-- `uint16_t h_c_w_id`. -/
  hCWId : ℕ
  /-- `uint32_t h_date`. -/
  hDate : ℕ
  /-- `uint8_t h_d_id`. -/
  hDId : ℕ
  /-- `uint16_t h_w_id`. -/
  hWId : ℕ

/-- `NO_key`. -/
structure NOKey where
  /-- `uint32_t no_o_id`. -/
  noOId : ℕ
  /-- `uint8_t no_d_id`. -/
  noDId : ℕ
  /-- `uint16_t no_w_id`. -/
  noWId : ℕ

/-- `O_key`. -/
structure OKey where
  /-- `uint32_t o_id`. -/
  oId : ℕ
  /-- `uint8_t o_d_id`. -/
  oDId : ℕ
  /-- `uint16_t o_w_id`. -/
  oWId : ℕ

/-- `OL_key`. -/
structure OLKey where
  /-- `uint8_t ol_number`. -/
  olNumber : ℕ
  /-- `uint32_t ol_o_id`. -/
  olOId : ℕ
  /-- `uint8_t ol_d_id`. -/
  olDId : ℕ
  /-- `uint16_t ol_w_id`. -/
  olWId : ℕ

/-- `I_key`. -/
structure IKey where
  /-- `uint64_t i_id`. -/
  iId : ℕ

/-- `S_key`. -/
structure SKey where
  /-- `uint32_t s_i_id`. -/
  sIId : ℕ
  /-- `uint16_t s_w_id`. -/
  sWId : ℕ

/-- `W_key(i)`. -/
def WKey.make (i : ℕ) : WKey := ⟨i % 2 ^ 64⟩

/-- `D_key(dw, di)`. -/
def DKey.make (dw di : ℕ) : DKey := { dWId := dw % 2 ^ 16, dId := di % 2 ^ 8 }

/-- `C_key(ci, di, wi)`. -/
def CKey.make (ci di wi : ℕ) : CKey :=
  { cId := ci % 2 ^ 16, cDId := di % 2 ^ 8, cWId := wi % 2 ^ 16 }

/-- `H_key(wi, di, cwi, cdi, ci, ts)`. -/
def HKey.make (wi di cwi cdi ci ts : ℕ) : HKey :=
  { hCId := ci % 2 ^ 16, hCDId := cdi % 2 ^ 8, hCWId := cwi % 2 ^ 16, hDate := ts % 2 ^ 32,
    hDId := di % 2 ^ 8, hWId := wi % 2 ^ 16 }

/-- `NO_key(wi, di, oi)`. -/
def NOKey.make (wi di oi : ℕ) : NOKey :=
  { noOId := oi % 2 ^ 32, noDId := di % 2 ^ 8, noWId := wi % 2 ^ 16 }

/-- `O_key(wi, di, oi)`. -/
def OKey.make (wi di oi : ℕ) : OKey :=
  { oId := oi % 2 ^ 32, oDId := di % 2 ^ 8, oWId := wi % 2 ^ 16 }

/-- `OL_key(ol_w_id, ol_d_id, ol_o_id, ol_number)`. -/
def OLKey.make (olWId olDId olOId olNumber : ℕ) : OLKey :=
  { olNumber := olNumber % 2 ^ 8, olOId := olOId % 2 ^ 32, olDId := olDId % 2 ^ 8,
    olWId := olWId % 2 ^ 16 }

/-- `I_key(i)`. -/
def IKey.make (i : ℕ) : IKey := ⟨i % 2 ^ 64⟩

/-- `S_key(wi, ii)`. -/
def SKey.make (wi ii : ℕ) : SKey := { sIId := ii % 2 ^ 32, sWId := wi % 2 ^ 16 }

/-! ### Key order -/

instance : LinearOrder WKey := LinearOrder.lift' WKey.wId fun a b h => by
  cases a; cases b; simpa using h

instance : LinearOrder DKey := LinearOrder.lift' (fun k => toLex (k.dWId, k.dId)) fun a b h => by
  cases a; cases b; simp_all

instance : LinearOrder CKey :=
  LinearOrder.lift' (fun k => toLex (k.cWId, toLex (k.cDId, k.cId))) fun a b h => by
    cases a; cases b; simp_all

instance : LinearOrder HKey :=
  LinearOrder.lift' (fun k =>
    toLex (k.hWId, toLex (k.hDId, toLex (k.hDate, toLex (k.hCWId, toLex (k.hCDId, k.hCId))))))
    fun a b h => by cases a; cases b; simp_all

instance : LinearOrder NOKey :=
  LinearOrder.lift' (fun k => toLex (k.noWId, toLex (k.noDId, k.noOId))) fun a b h => by
    cases a; cases b; simp_all

instance : LinearOrder OKey :=
  LinearOrder.lift' (fun k => toLex (k.oWId, toLex (k.oDId, k.oId))) fun a b h => by
    cases a; cases b; simp_all

instance : LinearOrder OLKey :=
  LinearOrder.lift' (fun k => toLex (k.olWId, toLex (k.olDId, toLex (k.olOId, k.olNumber))))
    fun a b h => by cases a; cases b; simp_all

instance : LinearOrder IKey := LinearOrder.lift' IKey.iId fun a b h => by
  cases a; cases b; simpa using h

instance : LinearOrder SKey := LinearOrder.lift' (fun k => toLex (k.sWId, k.sIId)) fun a b h => by
  cases a; cases b; simp_all

/-! ### Rows -/

/-- `W_val`. -/
structure WVal where
  /-- `float w_ytd`. -/
  wYtd : ℚ
  /-- `float w_tax`. -/
  wTax : ℚ
  /-- `varibale_str<10> w_name`. -/
  wName : List Char
  deriving Inhabited

/-- `D_val`. -/
structure DVal where
  /-- `float d_ytd`. -/
  dYtd : ℚ
  /-- `float d_tax`. -/
  dTax : ℚ
  /-- `uint32_t d_next_o_id`. -/
  dNextOId : ℕ
  /-- `varibale_str<10> d_name`. -/
  dName : List Char
  deriving Inhabited

/-- `C_val`. -/
structure CVal where
  /-- `float c_discount`. -/
  cDiscount : ℚ
  /-- `float c_balance`. -/
  cBalance : ℚ
  /-- `float c_ytd_payment`. -/
  cYtdPayment : ℚ
  /-- `uint32_t c_payment_cnt`. -/
  cPaymentCnt : ℕ
  /-- `uint32_t c_delivery_cnt`. -/
  cDeliveryCnt : ℕ
  /-- `varibale_str<2> c_credit`. -/
  cCredit : List Char
  /-- `varibale_str<500> c_data`. -/
  cData : List Char
  deriving Inhabited

/-- `H_val`. -/
structure HVal where
  /-- `float h_amount`. -/
  hAmount : ℚ
  /-- `varibale_str<24> h_data`. -/
  hData : List Char
  deriving Inhabited

/-- `NO_val`. -/
structure NOVal where
  /-- `varibale_str<2> no_dummy`. -/
  noDummy : List Char
  deriving Inhabited

/-- `O_val`. -/
structure OVal where
  /-- `uint32_t o_c_id`. -/
  oCId : ℕ
  /-- `uint32_t o_carrier_id`. -/
  oCarrierId : ℕ
  /-- `uint8_t o_ol_cnt`. -/
  oOlCnt : ℕ
  /-- `bool o_all_local`. -/
  oAllLocal : Bool
  /-- `uint32_t o_entry_d`. -/
  oEntryD : ℕ
  deriving Inhabited

/-- `OL_val`. -/
structure OLVal where
  /-- `uint32_t ol_i_id`. -/
  olIId : ℕ
  /-- `uint32_t ol_delivery_d`. -/
  olDeliveryD : ℕ
  /-- `float ol_amount`. -/
  olAmount : ℚ
  /-- `uint32_t ol_supply_w_id`. -/
  olSupplyWId : ℕ
  /-- `uint8_t ol_quantity`. -/
  olQuantity : ℕ
  deriving Inhabited

/-- `I_val`. -/
structure IVal where
  /-- `float i_price`. -/
  iPrice : ℚ
  deriving Inhabited

/-- `S_val`. -/
structure SVal where
  /-- `uint32_t s_quantity`. -/
  sQuantity : ℕ
  /-- `float s_ytd`. -/
  sYtd : ℚ
  /-- `uint32_t s_order_cnt`. -/
  sOrderCnt : ℕ
  /-- `uint32_t s_remote_cnt`. -/
  sRemoteCnt : ℕ
  deriving Inhabited

/-! ### Tables -/

/-- The tables a run uses. -/
inductive Tab where
  | warehouse | district | customer | history | item | stock | order | newOrder | orderLine
  deriving DecidableEq

/-- The keys of a table. -/
@[reducible] def Tab.Key : Tab → Type
  | warehouse => WKey
  | district => DKey
  | customer => CKey
  | history => HKey
  | item => IKey
  | stock => SKey
  | order => OKey
  | newOrder => NOKey
  | orderLine => OLKey

/-- The rows of a table. -/
@[reducible] def Tab.Val : Tab → Type
  | warehouse => WVal
  | district => DVal
  | customer => CVal
  | history => HVal
  | item => IVal
  | stock => SVal
  | order => OVal
  | newOrder => NOVal
  | orderLine => OLVal

@[reducible] instance Tab.linearOrder : (t : Tab) → LinearOrder t.Key
  | warehouse => inferInstanceAs (LinearOrder WKey)
  | district => inferInstanceAs (LinearOrder DKey)
  | customer => inferInstanceAs (LinearOrder CKey)
  | history => inferInstanceAs (LinearOrder HKey)
  | item => inferInstanceAs (LinearOrder IKey)
  | stock => inferInstanceAs (LinearOrder SKey)
  | order => inferInstanceAs (LinearOrder OKey)
  | newOrder => inferInstanceAs (LinearOrder NOKey)
  | orderLine => inferInstanceAs (LinearOrder OLKey)

/-- The database: every table's contents. -/
abbrev Db := (t : Tab) → Table t.Key t.Val

/-- The database with nothing in it. -/
def Db.empty : Db := fun _ => ∅

end SidleBaselines.Tpcc
