import SidleBaselines.Tpcc.Loader

/-!
# The loaded tables

## What is proved

* `loaded_prepareKvs` — what the tables hold when a run starts (`Loaded`): which
  keys, and what their rows have in the columns the transactions count in.
-/

namespace SidleBaselines.Tpcc

open SidleBaselines.Data

variable {args : Args}

/-- `w` is a warehouse. -/
def Args.IsWarehouse (args : Args) (w : ℕ) : Prop := 1 ≤ w ∧ w ≤ args.warehouseNum

/-- `d` is a district of warehouse `w`. -/
def Args.IsDistrict (args : Args) (w d : ℕ) : Prop :=
  args.IsWarehouse w ∧ 1 ≤ d ∧ d ≤ args.numDistrictPerWarehouse

/-- An order's customer, shuffled, is one of the district's. -/
theorem cIds_mem {o : ℕ} (ho : 1 ≤ o ∧ o ≤ numCustomerPerDistrict) :
    1 ≤ (cIds args).getD (o - 1) 0 ∧ (cIds args).getD (o - 1) 0 ≤ numCustomerPerDistrict := by
  have hperm := args.shuffle_perm (List.range' 1 numCustomerPerDistrict)
  have hlength : o - 1 < (cIds args).length := by
    rw [cIds, hperm.length_eq, List.length_range']
    omega
  rw [List.getD_eq_getElem _ _ hlength]
  have hmem := hperm.mem_iff.mp (List.getElem_mem hlength)
  rw [List.mem_range'_1] at hmem
  omega

/-- What the loaded tables hold. -/
structure Loaded (args : Args) (db : Db) : Prop where
  warehouse : Table.Rows (db .warehouse) (fun k => args.IsWarehouse k.wId) fun _ v => v.wYtd = 300000
  district : Table.Rows (db .district) (fun k => args.IsDistrict k.dWId k.dId) fun _ v =>
    v.dYtd = 30000 ∧ v.dNextOId = 3001
  customer : Table.Rows (db .customer)
    (fun k => args.IsDistrict k.cWId k.cDId ∧ 1 ≤ k.cId ∧ k.cId ≤ numCustomerPerDistrict) fun _ v =>
    v.cYtdPayment = 10 ∧ v.cPaymentCnt = 1 ∧ v.cDeliveryCnt = 0
  history : Table.Rows (db .history)
    (fun k => args.IsDistrict k.hWId k.hDId ∧ k.hCWId = k.hWId ∧ k.hCDId = k.hDId ∧ k.hDate = k.hCId ∧
      1 ≤ k.hCId ∧ k.hCId ≤ numCustomerPerDistrict) fun _ v => v.hAmount = 10
  item : Table.Rows (db .item) (fun k => 1 ≤ k.iId ∧ k.iId ≤ numItem) fun _ _ => True
  stock : Table.Rows (db .stock)
    (fun k => args.IsWarehouse k.sWId ∧ 1 ≤ k.sIId ∧ k.sIId ≤ numItem) fun _ v =>
    v.sOrderCnt = 0 ∧ v.sYtd = 0
  order : Table.Rows (db .order)
    (fun k => args.IsDistrict k.oWId k.oDId ∧ 1 ≤ k.oId ∧ k.oId ≤ numCustomerPerDistrict) fun k v =>
    v.oCId = (cIds args).getD (k.oId - 1) 0 ∧ (v.oCarrierId = 0 ↔ 2101 ≤ k.oId) ∧ v.oOlCnt ≤ 15
  newOrder : Table.Rows (db .newOrder)
    (fun k => args.IsDistrict k.noWId k.noDId ∧ 2101 ≤ k.noOId ∧ k.noOId ≤ numCustomerPerDistrict)
    fun _ _ => True
  orderLine : ∀ k, (∃ v, (db .orderLine).get k = some v) ↔
    ∃ vO, (db .order).get ⟨k.olOId, k.olDId, k.olWId⟩ = some vO ∧ 1 ≤ k.olNumber ∧ k.olNumber ≤ vO.oOlCnt

/-! ### Rows of one key -/

section
variable {w d n : ℕ}

theorem IsWarehouse.lt (h : args.IsWarehouse w) : w < 2 ^ 16 := by
  have := args.warehouses
  have := h.2
  omega

theorem IsDistrict.lt (h : args.IsDistrict w d) : w < 2 ^ 16 ∧ d < 2 ^ 8 := by
  have := args.districts
  have := h.2.2
  exact ⟨IsWarehouse.lt h.1, by omega⟩

theorem make_wKey (h : args.IsWarehouse w) : WKey.make w = ⟨w⟩ := by
  have := IsWarehouse.lt h
  simp only [WKey.make]
  rw [Nat.mod_eq_of_lt (by omega)]

theorem make_dKey (h : args.IsDistrict w d) : DKey.make w d = ⟨d, w⟩ := by
  obtain ⟨hw, hd⟩ := IsDistrict.lt h
  simp only [DKey.make, Nat.mod_eq_of_lt hw, Nat.mod_eq_of_lt hd]

theorem make_cKey (h : args.IsDistrict w d) (hn : n < 2 ^ 16) : CKey.make n d w = ⟨n, d, w⟩ := by
  obtain ⟨hw, hd⟩ := IsDistrict.lt h
  simp only [CKey.make, Nat.mod_eq_of_lt hw, Nat.mod_eq_of_lt hd, Nat.mod_eq_of_lt hn]

theorem make_oKey (h : args.IsDistrict w d) (hn : n < 2 ^ 32) : OKey.make w d n = ⟨n, d, w⟩ := by
  obtain ⟨hw, hd⟩ := IsDistrict.lt h
  simp only [OKey.make, Nat.mod_eq_of_lt hw, Nat.mod_eq_of_lt hd, Nat.mod_eq_of_lt hn]

theorem make_noKey (h : args.IsDistrict w d) (hn : n < 2 ^ 32) : NOKey.make w d n = ⟨n, d, w⟩ := by
  obtain ⟨hw, hd⟩ := IsDistrict.lt h
  simp only [NOKey.make, Nat.mod_eq_of_lt hw, Nat.mod_eq_of_lt hd, Nat.mod_eq_of_lt hn]

theorem make_olKey (h : args.IsDistrict w d) (hn : n < 2 ^ 32) {l : ℕ} (hl : l < 2 ^ 8) :
    OLKey.make w d n l = ⟨l, n, d, w⟩ := by
  obtain ⟨hw, hd⟩ := IsDistrict.lt h
  simp only [OLKey.make, Nat.mod_eq_of_lt hw, Nat.mod_eq_of_lt hd, Nat.mod_eq_of_lt hn,
    Nat.mod_eq_of_lt hl]

theorem make_iKey (hn : n ≤ numItem) : IKey.make n = ⟨n⟩ := by
  simp only [numItem] at hn
  simp only [IKey.make]
  rw [Nat.mod_eq_of_lt (by omega)]

theorem make_sKey (h : args.IsWarehouse w) (hn : n ≤ numItem) : SKey.make w n = ⟨n, w⟩ := by
  simp only [numItem] at hn
  simp only [SKey.make, Nat.mod_eq_of_lt (IsWarehouse.lt h)]
  rw [Nat.mod_eq_of_lt (by omega)]

end

/-! ### The loops' indices -/

/-- The warehouses, in the order of the loops. -/
def warehouseIdx (args : Args) : List ℕ := (List.range' 1 args.warehouseNum).flatMap fun w => [w]

/-- The districts, in the order of the loops. -/
def districtIdx (args : Args) : List (ℕ × ℕ) :=
  (List.range' 1 args.warehouseNum).flatMap fun w =>
    (List.range' 1 args.numDistrictPerWarehouse).flatMap fun d => [(w, d)]

/-- The customers, or the orders, in the order of the loops. -/
def customerIdx (args : Args) : List (ℕ × ℕ × ℕ) :=
  (List.range' 1 args.warehouseNum).flatMap fun w =>
    (List.range' 1 args.numDistrictPerWarehouse).flatMap fun d =>
      (List.range' 1 numCustomerPerDistrict).flatMap fun c => [(w, d, c)]

theorem mem_warehouseIdx {w : ℕ} : w ∈ warehouseIdx args ↔ args.IsWarehouse w := by
  simp [warehouseIdx, Nat.lt_one_add_iff, Args.IsWarehouse]

theorem mem_districtIdx {w d : ℕ} : (w, d) ∈ districtIdx args ↔ args.IsDistrict w d := by
  simp [districtIdx, Nat.lt_one_add_iff, Args.IsDistrict, Args.IsWarehouse]

theorem mem_customerIdx {w d c : ℕ} :
    (w, d, c) ∈ customerIdx args ↔ args.IsDistrict w d ∧ 1 ≤ c ∧ c ≤ numCustomerPerDistrict := by
  simp [customerIdx, Nat.lt_one_add_iff, Args.IsDistrict, Args.IsWarehouse, and_assoc]

/-! ### The tables without order lines -/

theorem loaded_warehouse : Table.Rows (prepareKvs args .warehouse) (fun k => args.IsWarehouse k.wId)
    fun _ v => v.wYtd = 300000 := by
  have h : Gives (loadWarehouse args) fun x => List.Forall₂
      (Table.Emits WKey.make fun _ (v : WVal) => v.wYtd = 300000) (warehouseIdx args) x.1 :=
    gives_rows _ _ fun i _ _ => .skip fun _ => .skip fun _ => .skip fun _ => .pure ⟨rfl, rfl⟩
  refine Table.rows_load (h _) (fun k hk => ⟨k.wId, mem_warehouseIdx.mpr hk, make_wKey hk⟩) ?_
  intro i hi v hv
  rw [make_wKey (mem_warehouseIdx.mp hi)]
  exact ⟨mem_warehouseIdx.mp hi, hv⟩

theorem loaded_district :
    Table.Rows (prepareKvs args .district) (fun k => args.IsDistrict k.dWId k.dId) fun _ v =>
      v.dYtd = 30000 ∧ v.dNextOId = 3001 := by
  have h : Gives (loadDistrict args) fun x => List.Forall₂
      (Table.Emits (fun i : ℕ × ℕ => DKey.make i.1 i.2) fun _ (v : DVal) =>
        v.dYtd = 30000 ∧ v.dNextOId = 3001) (districtIdx args) x.1 :=
    gives_loop _ _ fun w _ _ _ => gives_rows (fun d => (w, d)) _ fun d _ _ =>
      .skip fun _ => .skip fun _ => .skip fun _ => .pure ⟨rfl, rfl, rfl⟩
  refine Table.rows_load (h _)
    (fun k hk => ⟨(k.dWId, k.dId), mem_districtIdx.mpr hk, make_dKey hk⟩) ?_
  rintro ⟨w, d⟩ hi v hv
  rw [make_dKey (mem_districtIdx.mp hi)]
  exact ⟨mem_districtIdx.mp hi, hv⟩

theorem loaded_customer : Table.Rows (prepareKvs args .customer)
    (fun k => args.IsDistrict k.cWId k.cDId ∧ 1 ≤ k.cId ∧ k.cId ≤ numCustomerPerDistrict) fun _ v =>
      v.cYtdPayment = 10 ∧ v.cPaymentCnt = 1 ∧ v.cDeliveryCnt = 0 := by
  have h : Gives (loadCustomer args) fun x => List.Forall₂
      (Table.Emits (fun i : ℕ × ℕ × ℕ => CKey.make i.2.2 i.2.1 i.1) fun _ (v : CVal) =>
        v.cYtdPayment = 10 ∧ v.cPaymentCnt = 1 ∧ v.cDeliveryCnt = 0) (customerIdx args) x.1 :=
    gives_loop _ _ fun w _ _ _ => gives_loop _ _ fun d _ _ _ => gives_rows (fun c => (w, d, c)) _
      fun c _ _ => .skip fun _ => .skip fun _ => .skip fun _ => .skip fun _ => .skip fun _ =>
        .skip fun _ => .skip fun _ => .skip fun _ => .pure ⟨rfl, rfl, rfl, rfl⟩
  have lt {n : ℕ} (hn : n ≤ numCustomerPerDistrict) : n < 2 ^ 16 := by
    simp only [numCustomerPerDistrict] at hn; omega
  refine Table.rows_load (h _)
    (fun k hk => ⟨(k.cWId, k.cDId, k.cId), mem_customerIdx.mpr hk, make_cKey hk.1 (lt hk.2.2)⟩) ?_
  rintro ⟨w, d, c⟩ hi v hv
  have hi := mem_customerIdx.mp hi
  rw [make_cKey hi.1 (lt hi.2.2)]
  exact ⟨hi, hv⟩

theorem loaded_history : Table.Rows (prepareKvs args .history)
    (fun k => args.IsDistrict k.hWId k.hDId ∧ k.hCWId = k.hWId ∧ k.hCDId = k.hDId ∧ k.hDate = k.hCId ∧
      1 ≤ k.hCId ∧ k.hCId ≤ numCustomerPerDistrict) fun _ v => v.hAmount = 10 := by
  have h : Gives (loadHistory args) fun x => List.Forall₂
      (Table.Emits (fun i : ℕ × ℕ × ℕ => HKey.make i.1 i.2.1 i.1 i.2.1 i.2.2 i.2.2)
        fun _ (v : HVal) => v.hAmount = 10) (customerIdx args) x.1 := by
    refine gives_loop _ _ fun w _ _ _ => gives_loop _ _ fun d _ _ _ => ?_
    -- the round for customer `c` finds `ts = c - 1`
    refine (gives_forRange (fun c ts => ts = c) (fun c => [(w, d, c)]) _ rfl ?_).bind fun x hx =>
      .pure hx.1
    rintro _ c - rfl
    have row : Gives (loadHistoryRow w d (c + 1) (c + 1)) (Table.Emits
        (fun i : ℕ × ℕ × ℕ => HKey.make i.1 i.2.1 i.1 i.2.1 i.2.2 i.2.2)
        (fun _ (v : HVal) => v.hAmount = 10) (w, d, c + 1)) := .skip fun _ => .pure ⟨rfl, rfl⟩
    exact row.bind fun e he => .pure ⟨.cons he .nil, rfl⟩
  have key {w d c : ℕ} (hd : args.IsDistrict w d) (hc : c ≤ numCustomerPerDistrict) :
      HKey.make w d w d c c = ⟨c, d, w, c, d, w⟩ := by
    obtain ⟨hw, hd⟩ := IsDistrict.lt hd
    simp only [numCustomerPerDistrict] at hc
    simp only [HKey.make, Nat.mod_eq_of_lt hw, Nat.mod_eq_of_lt hd]
    rw [Nat.mod_eq_of_lt (by omega), Nat.mod_eq_of_lt (by omega)]
  refine Table.rows_load (h _) (fun k hk => ?_) ?_
  · obtain ⟨hd, hw', hd', hdate, h₁, h₂⟩ := hk
    refine ⟨(k.hWId, k.hDId, k.hCId), mem_customerIdx.mpr ⟨hd, h₁, h₂⟩, ?_⟩
    rw [key hd h₂]
    cases k; simp_all
  · rintro ⟨w, d, c⟩ hi v hv
    have hi := mem_customerIdx.mp hi
    rw [key hi.1 hi.2.2]
    exact ⟨⟨hi.1, rfl, rfl, rfl, hi.2⟩, hv⟩

theorem loaded_item : Table.Rows (prepareKvs args .item) (fun k => 1 ≤ k.iId ∧ k.iId ≤ numItem)
    fun _ _ => True := by
  have h : Gives loadItem fun x => List.Forall₂ (Table.Emits IKey.make fun _ (_ : IVal) => True)
      ((List.range' 1 numItem).flatMap fun i => [i]) x.1 :=
    gives_rows _ _ fun i _ _ => .skip fun _ => .skip fun _ => .skip fun _ => .skip fun _ =>
      .pure ⟨rfl, ⟨⟩⟩
  have mem {i : ℕ} : i ∈ (List.range' 1 numItem).flatMap (fun i => [i]) ↔ 1 ≤ i ∧ i ≤ numItem := by
    simp [Nat.lt_one_add_iff]
  refine Table.rows_load (h _) (fun k hk => ⟨k.iId, mem.mpr hk, make_iKey hk.2⟩) ?_
  intro i hi v hv
  rw [make_iKey (mem.mp hi).2]
  exact ⟨mem.mp hi, ⟨⟩⟩

theorem loaded_stock : Table.Rows (prepareKvs args .stock)
    (fun k => args.IsWarehouse k.sWId ∧ 1 ≤ k.sIId ∧ k.sIId ≤ numItem) fun _ v =>
      v.sOrderCnt = 0 ∧ v.sYtd = 0 := by
  have h : Gives (loadStock args) fun x => List.Forall₂
      (Table.Emits (fun i : ℕ × ℕ => SKey.make i.1 i.2) fun _ (v : SVal) =>
        v.sOrderCnt = 0 ∧ v.sYtd = 0)
      ((List.range' 1 args.warehouseNum).flatMap fun w =>
        (List.range' 1 numItem).flatMap fun i => [(w, i)]) x.1 :=
    gives_loop _ _ fun w _ _ _ => gives_rows (fun i => (w, i)) _ fun i _ _ =>
      .skip fun _ => .pure ⟨rfl, rfl, rfl⟩
  have mem {w i : ℕ} : (w, i) ∈ ((List.range' 1 args.warehouseNum).flatMap fun w =>
      (List.range' 1 numItem).flatMap fun i => [(w, i)]) ↔
      args.IsWarehouse w ∧ 1 ≤ i ∧ i ≤ numItem := by
    simp [Nat.lt_one_add_iff, Args.IsWarehouse]
  refine Table.rows_load (h _)
    (fun k hk => ⟨(k.sWId, k.sIId), mem.mpr hk, make_sKey hk.1 hk.2.2⟩) ?_
  rintro ⟨w, i⟩ hi v hv
  have hi := mem.mp hi
  rw [make_sKey hi.1 hi.2.2]
  exact ⟨hi, hv⟩

/-! ### Orders and their lines -/

/-- What `load_order` makes in its round for order `i.2.2` of district `i.2.1` of
warehouse `i.1`. -/
structure OrderEmitted (args : Args) (i : ℕ × ℕ × ℕ) (e : LoadedOrder) : Prop where
  key : e.order.1 = ⟨i.2.2, i.2.1, i.1⟩
  customer : e.order.2.oCId = (cIds args).getD (i.2.2 - 1) 0
  carrier : e.order.2.oCarrierId = 0 ↔ 2101 ≤ i.2.2
  count : e.order.2.oOlCnt ≤ 15
  newOrder : e.newOrder.map Prod.fst = if 2101 ≤ i.2.2 then [⟨i.2.2, i.2.1, i.1⟩] else []
  lines : List.Forall₂ (Table.Emits (fun l => (⟨l, i.2.2, i.2.1, i.1⟩ : OLKey)) fun _ _ => True)
    ((List.range' 1 e.order.2.oOlCnt).flatMap fun l => [l]) e.lines

theorem gives_loadCarrier (o : ℕ) : Gives (loadCarrier o) fun x => x.toNat = 0 ↔ 2101 ≤ o := by
  unfold loadCarrier
  split_ifs with h
  · exact (gives_randomNumber _ _ (by omega) (by omega) (by omega)).mono fun x hx => by omega
  · exact .pure (by simp; omega)

theorem gives_loadOrderRow {w d o : ℕ} (hd : args.IsDistrict w d) (ho : o ≤ numCustomerPerDistrict)
    (ts : ℕ) :
    Gives (loadOrderRow w d o ((cIds args).getD (o - 1) 0) ts) (OrderEmitted args (w, d, o)) := by
  have ho : o < 2 ^ 32 := by simp only [numCustomerPerDistrict] at ho; omega
  have hcarrier : Gives (loadCarrier (OKey.make w d o).oId) fun x => x.toNat = 0 ↔ 2101 ≤ o := by
    rw [make_oKey hd ho]
    exact gives_loadCarrier o
  refine hcarrier.bind fun carrier hcarrier => ?_
  refine (gives_randomNumber 5 15 (by omega) (by omega) (by omega)).bind fun n hn => ?_
  have hline (vO : OVal) (l : ℕ) (hl : l ≤ 15) : Gives (loadLine w d o l vO)
      (Table.Emits (fun l => (⟨l, o, d, w⟩ : OLKey)) (fun _ _ => True) l) :=
    .skip fun _ => .skip fun _ => .pure ⟨make_olKey hd ho (by omega), ⟨⟩⟩
  refine (gives_rows _ _ fun l _ hl => hline _ l ?_).bind fun lines hlines => .pure ?_
  · dsimp only at hl; omega
  · exact {
      key := make_oKey hd ho
      customer := rfl
      carrier := hcarrier
      count := by dsimp only; omega
      newOrder := by dsimp only; split_ifs <;> simp [make_noKey hd ho]
      lines := hlines }

/-- The orders of the loops, one for each index. -/
theorem orders_emitted : List.Forall₂ (OrderEmitted args) (customerIdx args) (loadedOrders args) := by
  have h : Gives (loadOrder args) fun x => List.Forall₂ (OrderEmitted args) (customerIdx args) x.1 := by
    refine gives_loop _ _ fun w _ hw hw' => gives_loop _ _ fun d _ hd hd' => ?_
    refine gives_loop _ _ fun o ts _ ho => ?_
    exact (gives_loadOrderRow ⟨⟨hw, hw'⟩, hd, hd'⟩ ho _).bind fun e he => .pure (.cons he .nil)
  exact h _

theorem nodup_customerIdx : (customerIdx args).Nodup := by
  have disjoint {α : Type} {n : ℕ} {f : ℕ → List α} (g : α → ℕ) (h : ∀ i, ∀ a ∈ f i, g a = i) :
      (List.range' 1 n).Pairwise (Function.onFun List.Disjoint f) :=
    List.Pairwise.imp (fun hij a ha hb => hij ((h _ a ha).symm.trans (h _ a hb))) List.nodup_range'
  refine List.nodup_flatMap.mpr ⟨fun w _ => List.nodup_flatMap.mpr ⟨fun d _ =>
    List.nodup_flatMap.mpr ⟨fun c _ => List.nodup_singleton _, ?_⟩, ?_⟩, ?_⟩
  · exact disjoint (fun i => i.2.2) (by simp)
  · exact disjoint (fun i => i.2.1) (by simp +contextual)
  · exact disjoint (fun i => i.1) (by simp +contextual)

theorem nodup_orderKeys : (((loadedOrders args).map LoadedOrder.order).map Prod.fst).Nodup := by
  have hkeys : ((loadedOrders args).map LoadedOrder.order).map Prod.fst =
      (customerIdx args).map fun i => (⟨i.2.2, i.2.1, i.1⟩ : OKey) := by
    rw [List.map_map]
    refine List.forall₂_eq_eq_eq.le _ _ ?_
    exact List.forall₂_map_left_iff.mpr (List.forall₂_map_right_iff.mpr
      (orders_emitted.flip.imp fun e i h => h.key))
  rw [hkeys]
  refine nodup_customerIdx.map fun i j h => ?_
  obtain ⟨w, d, o⟩ := i
  obtain ⟨w', d', o'⟩ := j
  simp_all

/-- What the order table holds under a key. -/
theorem get_loadedOrder {k : OKey} {v : OVal} :
    (prepareKvs args .order).get k = some v ↔ ∃ e ∈ loadedOrders args, e.order = (k, v) :=
  (Table.get_load_iff nodup_orderKeys).trans List.mem_map

theorem loaded_order : Table.Rows (prepareKvs args .order)
    (fun k => args.IsDistrict k.oWId k.oDId ∧ 1 ≤ k.oId ∧ k.oId ≤ numCustomerPerDistrict) fun k v =>
      v.oCId = (cIds args).getD (k.oId - 1) 0 ∧ (v.oCarrierId = 0 ↔ 2101 ≤ k.oId) ∧ v.oOlCnt ≤ 15 := by
  intro k
  constructor
  · intro hk
    obtain ⟨e, he, hi⟩ := Table.forall₂_exists_right orders_emitted (mem_customerIdx.mpr hk)
    exact ⟨e.order.2, get_loadedOrder.mpr ⟨e, he, Prod.ext hi.key rfl⟩⟩
  · intro v hv
    obtain ⟨e, he, hkv⟩ := get_loadedOrder.mp hv
    obtain ⟨⟨w, d, o⟩, hi, hem⟩ := Table.forall₂_exists_left orders_emitted he
    have hkey := hem.key
    rw [hkv] at hkey
    dsimp only at hkey
    subst hkey
    have hcustomer := hem.customer
    have hcarrier := hem.carrier
    have hcount := hem.count
    rw [hkv] at hcustomer hcarrier hcount
    exact ⟨mem_customerIdx.mp hi, hcustomer, hcarrier, hcount⟩

theorem loaded_newOrder : Table.Rows (prepareKvs args .newOrder)
    (fun k => args.IsDistrict k.noWId k.noDId ∧ 2101 ≤ k.noOId ∧ k.noOId ≤ numCustomerPerDistrict)
    fun _ _ => True := by
  intro k
  have hcopy : prepareKvs args .newOrder =
      Table.load ((loadedOrders args).flatMap LoadedOrder.newOrder) := Table.load_entries _
  rw [hcopy]
  constructor
  · rintro ⟨hd, h₁, h₂⟩
    obtain ⟨e, he, hi⟩ := Table.forall₂_exists_right orders_emitted
      (mem_customerIdx.mpr ⟨hd, by omega, h₂⟩)
    have hmem : k ∈ e.newOrder.map Prod.fst := by
      rw [hi.newOrder, if_pos h₁]; exact List.mem_singleton_self _
    obtain ⟨⟨_, v⟩, hv, rfl⟩ := List.mem_map.mp hmem
    exact Table.exists_get_load (List.mem_flatMap.mpr ⟨e, he, hv⟩)
  · intro v hv
    obtain ⟨e, he, hv⟩ := List.mem_flatMap.mp (Table.mem_of_get_load hv)
    obtain ⟨⟨w, d, o⟩, hi, hem⟩ := Table.forall₂_exists_left orders_emitted he
    have hmem : k ∈ e.newOrder.map Prod.fst := List.mem_map.mpr ⟨_, hv, rfl⟩
    rw [hem.newOrder] at hmem
    split_ifs at hmem with ho
    · obtain rfl := List.mem_singleton.mp hmem
      have hi := mem_customerIdx.mp hi
      exact ⟨⟨hi.1, ho, hi.2.2⟩, ⟨⟩⟩
    · cases hmem

theorem loaded_orderLine (k : OLKey) : (∃ v, (prepareKvs args .orderLine).get k = some v) ↔
    ∃ vO, (prepareKvs args .order).get ⟨k.olOId, k.olDId, k.olWId⟩ = some vO ∧ 1 ≤ k.olNumber ∧
      k.olNumber ≤ vO.oOlCnt := by
  have hcopy : prepareKvs args .orderLine =
      Table.load ((loadedOrders args).flatMap LoadedOrder.lines) := Table.load_entries _
  rw [hcopy]
  constructor
  · rintro ⟨v, hv⟩
    obtain ⟨e, he, hv⟩ := List.mem_flatMap.mp (Table.mem_of_get_load hv)
    obtain ⟨⟨w, d, o⟩, hi, hem⟩ := Table.forall₂_exists_left orders_emitted he
    obtain ⟨l, hl, hk, -⟩ := Table.forall₂_exists_left hem.lines hv
    dsimp only at hk
    subst hk
    refine ⟨e.order.2, get_loadedOrder.mpr ⟨e, he, Prod.ext hem.key rfl⟩, ?_⟩
    simpa [Nat.lt_one_add_iff] using hl
  · rintro ⟨vO, hvO, hl⟩
    obtain ⟨e, he, hkv⟩ := get_loadedOrder.mp hvO
    obtain ⟨⟨w, d, o⟩, hi, hem⟩ := Table.forall₂_exists_left orders_emitted he
    have hkey := hem.key
    rw [hkv] at hkey
    obtain ⟨rfl, rfl, rfl⟩ := OKey.mk.inj hkey
    have hl : k.olNumber ∈ (List.range' 1 e.order.2.oOlCnt).flatMap fun l => [l] := by
      rw [hkv]
      simpa [Nat.lt_one_add_iff] using hl
    obtain ⟨⟨a, v⟩, hv, rfl, -⟩ := Table.forall₂_exists_right hem.lines hl
    exact Table.exists_get_load (v := v) (List.mem_flatMap.mpr ⟨e, he, hv⟩)

/-- **The loaded tables.** -/
theorem loaded_prepareKvs (args : Args) : Loaded args (prepareKvs args) where
  warehouse := loaded_warehouse
  district := loaded_district
  customer := loaded_customer
  history := loaded_history
  item := loaded_item
  stock := loaded_stock
  order := loaded_order
  newOrder := loaded_newOrder
  orderLine := loaded_orderLine

end SidleBaselines.Tpcc
