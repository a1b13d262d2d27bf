import SidleBaselines.Concurrency.Phases
import SidleBaselines.Tpcc.Checks
import SidleBaselines.Tpcc.World

/-!
# What transactions look up

Five tables have all their rows from the loader: warehouses, districts, customers, items
and stock. A transaction looks its rows up under ids it draws, or finds in an order or an
order line, and writes them back; it does not say what it does where one is missing.

## What is proved

* `looks_txn` — a transaction looks up, and writes, loaded rows only, as long as the
  orders and the lines it finds name customers and items.
* `Kept.exec` — then it leaves the tables so.
* `lookups_find` — no lookup of a new order, a delivery or a stock-level check fails.
* `payment_inside` — nor of a payment, exactly if there are ten districts at least.
-/

namespace SidleBaselines.Tpcc

open SidleBaselines.Data SidleBaselines.Concurrency

/-! ### Loaded rows -/

/-- The tables that have all their rows from the loader. -/
def Tab.Fixed : Tab → Prop
  | .warehouse | .district | .customer | .item | .stock => True
  | .history | .order | .newOrder | .orderLine => False

/-- The keys the loader makes rows for, in these tables. -/
def Args.Loads (args : Args) : (t : Tab) → t.Key → Prop
  | .warehouse, k => args.IsWarehouse k.wId
  | .district, k => args.IsDistrict k.dWId k.dId
  | .customer, k => args.IsDistrict k.cWId k.cDId ∧ 1 ≤ k.cId ∧ k.cId ≤ numCustomerPerDistrict
  | .item, k => 1 ≤ k.iId ∧ k.iId ≤ numItem
  | .stock, k => args.IsWarehouse k.sWId ∧ 1 ≤ k.sIId ∧ k.sIId ≤ numItem
  | .history, _ | .order, _ | .newOrder, _ | .orderLine, _ => False

/-- An order names a customer, an order line an item. -/
def Tab.Names : (t : Tab) → t.Val → Prop
  | .order, v => 1 ≤ v.oCId ∧ v.oCId ≤ numCustomerPerDistrict
  | .orderLine, v => 1 ≤ v.olIId ∧ v.olIId ≤ numItem
  | .warehouse, _ | .district, _ | .customer, _ | .history, _ | .item, _ | .stock, _ | .newOrder, _ => True

/-- The tables have the loaded rows, and no order or line names anything else. -/
structure Kept (args : Args) (db : Db) : Prop where
  rows : ∀ t k, args.Loads t k → ∃ v, (db t).get k = some v
  names : ∀ t k v, (db t).get k = some v → t.Names v

/-- What a transaction looks up and writes in tables that are kept. -/
def lookupOps (args : Args) : Abstract Op Op.Res Unit where
  pre
    | _, .get t k => t.Fixed → args.Loads t k
    | _, .insert t k v => (t.Fixed → args.Loads t k) ∧ t.Names v
    | _, .remove t _ => t = .newOrder
    | _, _ => True
  gives
    | _, .get t k, r => (args.Loads t k → r.1 = true) ∧ (r.1 = true → t.Names r.2)
    | _, .scan t _ _, r => ∀ e ∈ r, t.Names e.2
    | _, _, _ => True
  next _ _ _ := ()

variable {args : Args}

section
variable {w d c : ℕ}

theorem loads_warehouse (h : args.IsWarehouse w) : args.Loads .warehouse (WKey.make w) := by
  rw [make_wKey h]
  exact h

theorem loads_district (h : args.IsDistrict w d) : args.Loads .district (DKey.make w d) := by
  rw [make_dKey h]
  exact h

theorem loads_customer (h : args.IsDistrict w d) (hc : 1 ≤ c ∧ c ≤ numCustomerPerDistrict) :
    args.Loads .customer (CKey.make c d w) := by
  have hlt : c < 2 ^ 16 := by
    have := hc.2
    simp only [numCustomerPerDistrict] at this
    omega
  rw [make_cKey h hlt]
  exact ⟨h, hc⟩

theorem loads_item (hi : 1 ≤ c ∧ c ≤ numItem) : args.Loads .item (IKey.make c) := by
  rw [make_iKey hi.2]
  exact hi

theorem loads_stock (h : args.IsWarehouse w) (hi : 1 ≤ c ∧ c ≤ numItem) :
    args.Loads .stock (SKey.make w c) := by
  rw [make_sKey h hi.2]
  exact ⟨h, hi⟩

end

/-! ### Transactions -/

/-- The districts a payment has drawn have been loaded. -/
def Payment.Inside (args : Args) (x : Payment) : Prop :=
  x.districtId ≤ args.numDistrictPerWarehouse ∧ x.customerDistrictId ≤ args.numDistrictPerWarehouse

/-- The transaction is `txn_payment`. -/
def Request.IsPayment : Request → Prop
  | payment _ _ => True
  | _ => False

/-- The districts of the transaction, if it is a payment, have been loaded. -/
def Request.Inside (args : Args) : Request → Prop
  | payment _ x => x.Inside args
  | _ => True

theorem Request.inside_of_not {q : Request} (h : ¬ q.IsPayment) : q.Inside args := by
  cases q with
  | payment w x => exact (h trivial).elim
  | _ => exact ⟨⟩

theorem Request.inside_of_ten {q : Request} (hq : q.Ok args) (hten : 10 ≤ args.numDistrictPerWarehouse) :
    q.Inside args := by
  cases q with
  | payment w x => exact ⟨hq.2.district.2.trans hten, hq.2.customerDistrict.2.trans hten⟩
  | _ => exact ⟨⟩

section
variable {α : Type} {w : ℕ}

/-- The program looks up and writes as it should. -/
abbrev Looks (args : Args) {α : Type} (p : Txn α) : Prop := Meets (lookupOps args) (fun _ _ => True) p ()

theorem looks_pure (a : α) : Looks args (pure a : Txn α) := ⟨⟩

theorem Looks.bind {β : Type} {p : Txn β} {f : β → Txn α} (hp : Looks args p) (hf : ∀ b, Looks args (f b)) :
    Looks args (p >>= f) :=
  Meets.bind (Meets.mono (fun b _ _ => hf b) hp)

/-- A row that is found. -/
theorem looks_find {t : Tab} {k : t.Key} {f : Bool × t.Val → Txn α} (hk : args.Loads t k)
    (hf : ∀ v, Looks args (f (true, v))) : Looks args (get t k >>= f) :=
  .issue (fun _ => hk) fun r hr => by
    have htrue : r = (true, r.2) := Prod.ext (hr.1 hk) rfl
    rw [htrue]
    exact hf r.2

/-- A row of another table. -/
theorem looks_get {t : Tab} {k : t.Key} {f : Bool × t.Val → Txn α} (ht : ¬ t.Fixed)
    (hf : ∀ r : Bool × t.Val, (r.1 = true → t.Names r.2) → Looks args (f r)) : Looks args (get t k >>= f) :=
  .issue (fun h => absurd h ht) fun r hr => hf r hr.2

/-- A loaded row is written back. -/
theorem looks_write {t : Tab} {k : t.Key} {v : t.Val} {f : Bool → Txn α} (hk : args.Loads t k)
    (hv : t.Names v) (hf : ∀ r, Looks args (f r)) : Looks args (insert t k v >>= f) :=
  .issue ⟨fun _ => hk, hv⟩ fun r _ => hf r

/-- A row of another table is written. -/
theorem looks_insert {t : Tab} {k : t.Key} {v : t.Val} {f : Bool → Txn α} (ht : ¬ t.Fixed) (hv : t.Names v)
    (hf : ∀ r, Looks args (f r)) : Looks args (insert t k v >>= f) :=
  .issue ⟨fun h => absurd h ht, hv⟩ fun r _ => hf r

theorem looks_newOrderLines (d : ℕ) (kD : DKey) (vD : DVal) (kNO : NOKey) (kO : OKey) (l : ℕ)
    (items : List OrderItem) (hitems : ∀ item ∈ items, item.Ok args) :
    Looks args (newOrderLines w d kD vD kNO kO l items) := by
  induction items generalizing l with
  | nil => exact looks_pure _
  | cons item items ih =>
    obtain ⟨hi, hs, -⟩ := hitems item List.mem_cons_self
    refine looks_find (loads_item hi) fun vI => ?_
    rw [if_pos rfl]
    refine looks_find (loads_stock hs hi) fun vS => looks_write (loads_stock hs hi) ⟨⟩ fun _ => ?_
    exact looks_insert id hi fun _ => ih _ fun item' h => hitems item' (List.mem_cons_of_mem _ h)

theorem looks_txnNewOrder {x : NewOrder} (hw : args.IsWarehouse w) (hx : x.Ok args) :
    Looks args (txnNewOrder w x) := by
  have hd : args.IsDistrict w x.districtId := ⟨hw, hx.district⟩
  refine looks_find (loads_warehouse hw) fun _ => looks_find (loads_district hd) fun vD => ?_
  refine looks_write (loads_district hd) ⟨⟩ fun _ => looks_find (loads_customer hd hx.customer) fun _ => ?_
  refine looks_insert id ⟨⟩ fun _ => .issue ⟨⟩ fun _ _ => .issue ⟨⟩ fun _ _ => .issue ⟨⟩ fun _ _ => ?_
  refine looks_insert id hx.customer fun _ => ?_
  exact looks_newOrderLines _ _ _ _ _ _ _ hx.items

theorem looks_txnPayment {x : Payment} (hw : args.IsWarehouse w) (hx : x.Ok args) (hin : x.Inside args) :
    Looks args (txnPayment w x) := by
  have hd : args.IsDistrict w x.districtId := ⟨hw, hx.district.1, hin.1⟩
  have hc : args.IsDistrict x.customerWarehouseId x.customerDistrictId :=
    ⟨hx.customerWarehouse, hx.customerDistrict.1, hin.2⟩
  refine .issue ⟨⟩ fun _ _ => looks_find (loads_warehouse hw) fun _ => looks_write (loads_warehouse hw) ⟨⟩ fun _ => ?_
  refine looks_find (loads_district hd) fun _ => looks_write (loads_district hd) ⟨⟩ fun _ => ?_
  refine looks_find (loads_customer hc hx.customer) fun _ => ?_
  refine looks_write (loads_customer hc hx.customer) ⟨⟩ fun _ => looks_insert id ⟨⟩ fun _ => ?_
  exact looks_pure _

theorem looks_deliverLines (olTotal : ℚ) (kvs : List (OLKey × OLVal))
    (h : ∀ e ∈ kvs, Tab.Names .orderLine e.2) : Looks args (deliverLines olTotal kvs) := by
  induction kvs generalizing olTotal with
  | nil => exact looks_pure _
  | cons e kvs ih =>
    refine .issue ⟨⟩ fun _ _ => looks_insert id (h e List.mem_cons_self) fun _ => ?_
    exact ih _ fun e' he' => h e' (List.mem_cons_of_mem _ he')

theorem looks_deliverOrder {d o : ℕ} (oCarrierId : ℕ) {vO : OVal} (hd : args.IsDistrict w d)
    (hvO : Tab.Names .order vO) : Looks args (deliverOrder w d oCarrierId o vO) := by
  refine .issue rfl fun _ _ => looks_insert id hvO fun _ => .issue ⟨⟩ fun kvs hkvs => ?_
  refine Looks.bind (looks_deliverLines _ _ hkvs) fun olTotal => ?_
  refine looks_find (loads_customer hd hvO) fun _ => looks_write (loads_customer hd hvO) ⟨⟩ fun _ => ?_
  exact looks_pure _

theorem looks_deliverDistrict {d : ℕ} (oCarrierId : ℕ) (hd : args.IsDistrict w d) :
    Looks args (deliverDistrict w oCarrierId d) := by
  refine .issue ⟨⟩ fun o _ => looks_get id fun vNO _ => ?_
  split_ifs
  · refine looks_get id fun vO hvO => ?_
    split_ifs with hfound
    · exact Looks.bind (looks_deliverOrder _ hd (hvO hfound)) fun _ => looks_pure _
    · exact looks_pure _
  · exact looks_pure _

theorem looks_deliverDistricts (oCarrierId : ℕ) (ds : List ℕ) (hds : ∀ d ∈ ds, args.IsDistrict w d) :
    Looks args (deliverDistricts w oCarrierId ds) := by
  induction ds with
  | nil => exact looks_pure _
  | cons d ds ih =>
    refine Looks.bind (looks_deliverDistrict _ (hds d List.mem_cons_self)) fun goOn => ?_
    split_ifs
    · exact ih fun d' hd' => hds d' (List.mem_cons_of_mem _ hd')
    · exact looks_pure _

theorem looks_countLowStock (hw : args.IsWarehouse w) (threshold fakeSize : ℕ) (kvs : List (OLKey × OLVal))
    (h : ∀ e ∈ kvs, Tab.Names .orderLine e.2) : Looks args (countLowStock w threshold fakeSize kvs) := by
  induction kvs generalizing fakeSize with
  | nil => exact looks_pure _
  | cons e kvs ih =>
    refine looks_find (loads_stock hw (h e List.mem_cons_self)) fun _ => ?_
    exact ih _ fun e' he' => h e' (List.mem_cons_of_mem _ he')

/-- **Transactions** look up and write loaded rows; a payment, if its districts are loaded. -/
theorem looks_txn {q : Request} (hq : q.Ok args) (hin : q.Inside args) : Looks args (txn args q) := by
  obtain ⟨hw, hq⟩ := hq
  cases q with
  | newOrder w x => exact looks_txnNewOrder hw hq
  | payment w x => exact looks_txnPayment hw hq hin
  | delivery w x =>
    refine looks_deliverDistricts _ _ fun d hd => ⟨hw, ?_⟩
    simpa [Nat.lt_one_add_iff] using hd
  | orderStatus w x => exact .issue ⟨⟩ fun _ _ => .issue ⟨⟩ fun _ _ => looks_pure _
  | stockLevel w x =>
    have hd : args.IsDistrict w x.districtId := ⟨hw, hq.district⟩
    refine looks_find (loads_district hd) fun vD => .issue ⟨⟩ fun kvs hkvs => ?_
    exact Looks.bind (looks_countLowStock hw _ _ _ hkvs) fun _ => looks_pure _

end

/-! ### Runs -/

theorem le_numItem {i : ℤ} (hi : 1 ≤ i ∧ i ≤ 100000) : 1 ≤ i.toNat ∧ i.toNat ≤ numItem := by
  rw [numItem]
  omega

/-- A loaded line names an item. -/
theorem gives_loadLine (w d o l : ℕ) (vO : OVal) :
    Gives (loadLine w d o l vO) fun e => Tab.Names .orderLine e.2 := by
  unfold loadLine
  refine (gives_randomNumber 1 100000 (by omega) (by omega) (by omega)).bind fun i hi => ?_
  refine .skip fun a => .pure ?_
  exact le_numItem hi

theorem gives_loadOrderRow_lines (w d o c ts : ℕ) :
    Gives (loadOrderRow w d o c ts) fun e => ∀ line ∈ e.lines, Tab.Names .orderLine line.2 := by
  unfold loadOrderRow
  refine .skip fun carrier => .skip fun n => ?_
  refine (gives_rows id (fun _ e => Tab.Names .orderLine e.2) fun l _ _ => ?_).bind fun lines hlines => ?_
  · exact gives_loadLine w d o l _
  · refine .pure fun line hline => ?_
    obtain ⟨-, -, hnames⟩ := Table.forall₂_exists_left hlines hline
    exact hnames

theorem loadedOrders_lines {e : LoadedOrder} (he : e ∈ loadedOrders args) :
    ∀ line ∈ e.lines, Tab.Names .orderLine line.2 := by
  have h : Gives (loadOrder args) fun x => List.Forall₂
      (fun (_ : ℕ × ℕ × ℕ) (e : LoadedOrder) => ∀ line ∈ e.lines, Tab.Names .orderLine line.2)
      (customerIdx args) x.1 := by
    refine gives_loop _ _ fun w _ _ _ => gives_loop _ _ fun d _ _ _ => gives_loop _ _ fun o ts _ _ => ?_
    exact (gives_loadOrderRow_lines w d o _ _).bind fun e he => .pure (.cons he .nil)
  obtain ⟨-, -, hlines⟩ := Table.forall₂_exists_left (h _) he
  exact hlines

theorem kept_start (args : Args) : Kept args (prepareKvs args) where
  rows t k hk := by
    have h := loaded_prepareKvs args
    cases t with
    | warehouse => exact (h.warehouse k).1 hk
    | district => exact (h.district k).1 hk
    | customer => exact (h.customer k).1 hk
    | item => exact (h.item k).1 hk
    | stock => exact (h.stock k).1 hk
    | history => exact hk.elim
    | order => exact hk.elim
    | newOrder => exact hk.elim
    | orderLine => exact hk.elim
  names t k v hv := by
    cases t with
    | order =>
      obtain ⟨hk, hv, -⟩ := ((loaded_prepareKvs args).order k).2 v hv
      change 1 ≤ v.oCId ∧ v.oCId ≤ numCustomerPerDistrict
      rw [hv]
      exact cIds_mem hk.2
    | orderLine =>
      have hcopy : prepareKvs args .orderLine =
          Table.load ((loadedOrders args).flatMap LoadedOrder.lines) := Table.load_entries _
      rw [hcopy] at hv
      obtain ⟨e, he, hline⟩ := List.mem_flatMap.mp (Table.mem_of_get_load hv)
      exact loadedOrders_lines he _ hline
    | _ => exact ⟨⟩

variable {J : Type} [DecidableEq J] {W : Workers J}

section
variable {j : J} {q : Request} {junk : Junk} {o : Op} {s : World J}

/-- What an operation on kept tables gives. -/
theorem Kept.gives (h : Kept args s.db) : (lookupOps args).gives () o (s.exec j q junk o).1 := by
  cases o with
  | get t k =>
    refine ⟨fun hk => ?_, fun hfound => ?_⟩
    · obtain ⟨v, hv⟩ := h.rows t k hk
      simp only [World.exec, World.fetch, World.record, hv]
    · simp only [World.exec, World.fetch, World.record] at hfound ⊢
      cases hv : (s.db t).get k with
      | none =>
        rw [hv] at hfound
        cases hfound
      | some v => exact h.names t k v hv
  | scan t k n => exact fun e he => h.names t e.1 e.2 (Table.mem_scan he).1
  | _ => exact ⟨⟩

/-- An operation that looks up and writes as it should keeps the tables. -/
theorem Kept.exec (h : Kept args s.db) (ho : (lookupOps args).pre () o) :
    Kept args (s.exec j q junk o).2.db := by
  cases o with
  | insert t k v =>
    refine ⟨fun t' k' hk' => ?_, fun t' k' v' hv' => ?_⟩
    · change ∃ u, (Function.update s.db t ((s.db t).insert k v) t').get k' = some u
      by_cases ht : t' = t
      · subst ht
        rw [Function.update_self, Table.get_insert]
        split_ifs
        · exact ⟨v, rfl⟩
        · exact h.rows t' k' hk'
      · rw [Function.update_of_ne ht]
        exact h.rows t' k' hk'
    · change (Function.update s.db t ((s.db t).insert k v) t').get k' = some v' at hv'
      by_cases ht : t' = t
      · subst ht
        rw [Function.update_self, Table.get_insert] at hv'
        split_ifs at hv' with hk
        · exact Option.some.inj hv' ▸ ho.2
        · exact h.names t' k' v' hv'
      · rw [Function.update_of_ne ht] at hv'
        exact h.names t' k' v' hv'
  | remove t k =>
    have ht : t = .newOrder := ho
    subst ht
    refine ⟨fun t' k' hk' => ?_, fun t' k' v' hv' => ?_⟩
    · change ∃ u, (Function.update s.db .newOrder ((s.db .newOrder).remove k) t').get k' = some u
      by_cases ht : t' = .newOrder
      · subst ht
        exact hk'.elim
      · rw [Function.update_of_ne ht]
        exact h.rows t' k' hk'
    · change (Function.update s.db .newOrder ((s.db .newOrder).remove k) t').get k' = some v' at hv'
      by_cases ht : t' = .newOrder
      · subst ht
        exact ⟨⟩
      · rw [Function.update_of_ne ht] at hv'
        exact h.names t' k' v' hv'
  | _ => exact h

end

variable {P : Request → Prop} {c : Threads J}

/-- **Kept tables**: they are what every run finds whose payments are for loaded districts. -/
theorem looked_up (hP : ∀ q, P q → q.Inside args)
    (h : Reachable ((machine args W).only P) (World.start args) c) :
    Kept args c.state.db ∧ Tracked (fun _ => lookupOps args) () c fun _ => () := by
  refine h.induct (P := fun c => Kept args c.state.db ∧ Tracked (fun _ => lookupOps args) () c fun _ => ())
    ⟨kept_start args, Tracked.init _⟩ fun c c' _ ih hs => ?_
  obtain ⟨hkept, htracked⟩ := ih
  cases hs with
  | start idle may =>
    have hlooks := looks_txn may.1.2 (hP _ may.2)
    exact ⟨hkept, htracked.start idle (Meets.mono (fun _ _ _ => rfl) hlooks)⟩
  | run n next =>
    have hpre := htracked.pre next
    exact ⟨hkept.exec hpre, htracked.run next hkept.gives _⟩
  | finish ended => exact ⟨hkept, htracked.finish ended⟩

/-- What a thread looks up next in a table that has its rows from the loader is there. -/
theorem looked_up_get (hP : ∀ q, P q → q.Inside args)
    (h : Reachable ((machine args W).only P) (World.start args) c) {j : J} {q : Request} {t : Tab} {k : t.Key}
    {f : Bool × t.Val → Txn Unit} (next : c.thread j = some (q, .op (.get t k) f)) (ht : t.Fixed) :
    ∃ v, (c.state.db t).get k = some v := by
  obtain ⟨hkept, htracked⟩ := looked_up hP h
  have hpre : t.Fixed → args.Loads t k := htracked.pre next
  exact hkept.rows t k (hpre ht)

/-- What it writes there, too. -/
theorem looked_up_insert (hP : ∀ q, P q → q.Inside args)
    (h : Reachable ((machine args W).only P) (World.start args) c) {j : J} {q : Request} {t : Tab} {k : t.Key}
    {v : t.Val} {f : Bool → Txn Unit} (next : c.thread j = some (q, .op (.insert t k v) f)) (ht : t.Fixed) :
    ∃ u, (c.state.db t).get k = some u := by
  obtain ⟨hkept, htracked⟩ := looked_up hP h
  have hpre : (t.Fixed → args.Loads t k) ∧ t.Names v := htracked.pre next
  exact hkept.rows t k (hpre.1 ht)

/-- No thread is backing out of an order. -/
theorem not_looks_abort (kD : DKey) (vD : DVal) (kNO : NOKey) (kO : OKey) :
    ¬ Looks args (abortNewOrder kD vD kNO kO) := by
  intro h
  have hremove := ((h.2 true ⟨⟩).2 true ⟨⟩).1
  cases hremove

/-! ### Lookups -/

/-- Every lookup finds its row, and no thread is backing out of an order. -/
structure LookupsFind (c : Threads J) : Prop where
  finds : ∀ j q t k f, c.thread j = some (q, .op (.get t k) f) → t.Fixed → ∃ v, (c.state.db t).get k = some v
  goesOn : ∀ j q kD vD kNO kO, c.thread j ≠ some (q, abortNewOrder kD vD kNO kO)

/-- **Lookups**: with no payments, every lookup of a warehouse, district, customer, item or
stock row finds it, and every draw lies in its range, whatever the generator. -/
theorem lookups_find (args : Args) (W : Workers J) :
    (∀ c, Reachable ((machine args W).only fun q => ¬ q.IsPayment) (World.start args) c → LookupsFind c) ∧
      (∀ w, args.IsWarehouse w →
        Passes (Checked.drawNewOrder args w) (drawNewOrder args w) (NewOrder.Ok args)) ∧
      Passes (Checked.drawDelivery args) (drawDelivery args) (Delivery.Ok args) ∧
      Passes (Checked.drawOrderStatus args) (drawOrderStatus args) (OrderStatus.Ok args) ∧
      Passes (Checked.drawStockLevel args) (drawStockLevel args) (StockLevel.Ok args) := by
  refine ⟨fun c h => ⟨fun j q t k f next ht => ?_, fun j q kD vD kNO kO habort => ?_⟩,
    fun w hw => drawNewOrder_checked hw, drawDelivery_checked, drawOrderStatus_checked, drawStockLevel_checked⟩
  · exact looked_up_get (fun _ => Request.inside_of_not) h next ht
  · obtain ⟨-, htracked⟩ := looked_up (fun _ => Request.inside_of_not) h
    exact not_looks_abort kD vD kNO kO (Meets.mono (fun _ _ _ => ⟨⟩) (htracked.busy j q _ habort))

/-- A new order finds its warehouse. -/
theorem lookups_find_warehouse :
    (∃ v, (prepareKvs twoWarehouses .warehouse).get (WKey.make 1) = some v) ∧
      Passes (Checked.drawNewOrder twoWarehouses 1) (drawNewOrder twoWarehouses 1) (NewOrder.Ok twoWarehouses) := by
  have hall := lookups_find twoWarehouses oneWorker
  have hok := orderOf_ok (w := 1) (n := 5) (by decide) (by decide)
  have hstart : Reachable ((machine twoWarehouses oneWorker).only fun q => ¬ q.IsPayment)
      (World.start twoWarehouses) _ :=
    Reachable.init.step (.start rfl ⟨⟨oneWorker_owns (by decide), hok⟩, id⟩)
  refine ⟨?_, hall.2.1 1 isDistrict_one.1⟩
  exact (hall.1 _ hstart).finds 0 (.newOrder 1 (orderOf 1 5)) .warehouse _ _ (Config.set_thread_self ..) ⟨⟩

/-! ### Payments -/

/-- What a payment looks up and writes back. -/
def Tab.Visited (t : Tab) : Prop := t = .warehouse ∨ t = .district ∨ t = .customer

theorem Tab.Visited.fixed {t : Tab} (h : t.Visited) : t.Fixed := by
  rcases h with rfl | rfl | rfl <;> exact ⟨⟩

/-- A payment finds its rows, and adds none. -/
structure PaymentInside (c : Threads J) : Prop where
  finds : ∀ j w x t k f, c.thread j = some (.payment w x, .op (.get t k) f) → t.Visited →
    ∃ v, (c.state.db t).get k = some v
  adds : ∀ j w x t k v f, c.thread j = some (.payment w x, .op (.insert t k v) f) → t.Visited →
    ∃ u, (c.state.db t).get k = some u

theorem paymentInside_of (hP : ∀ q, P q → q.Inside args)
    (h : Reachable ((machine args W).only P) (World.start args) c) : PaymentInside c where
  finds _ _ _ _ _ _ next ht := looked_up_get hP h next ht.fixed
  adds _ _ _ _ _ _ _ next ht := looked_up_insert hP h next ht.fixed

/-- A payment for a district that has not been loaded looks it up in vain. -/
theorem not_paymentInside {x : Payment} (hx : x.Ok args)
    (hout : args.numDistrictPerWarehouse < x.districtId) :
    ∃ c, Run args (Workers.run args 1) c ∧ ¬ PaymentInside c := by
  have hW := args.warehouses
  have howns : (Workers.run args 1).owns 0 1 := by
    simp only [Workers.run, workerRange]
    simp
    omega
  have hok : (Request.payment 1 x).Ok args := ⟨⟨le_rfl, hW.1⟩, hx⟩
  have hmay : (machine args (Workers.run args 1)).may 0 (.payment 1 x) := ⟨howns, hok⟩
  have hstart : Run args (Workers.run args 1) _ := Reachable.init.step (.start rfl hmay)
  have hget := hstart.leads blank (.op _ _ (.op _ _ (.op _ _ (.refl _)))) rfl (Config.set_thread_self ..)
  refine ⟨_, hget, fun h => ?_⟩
  obtain ⟨v, hv⟩ := h.finds 0 1 x .district _ _ (Config.set_thread_self ..) (.inr (.inl rfl))
  have hloaded : (prepareKvs args .district).get (DKey.make 1 x.districtId) = some v := hv
  obtain ⟨⟨-, -, hle⟩, -⟩ := ((loaded_prepareKvs args).district _).2 v hloaded
  have hten := hx.district.2
  have hid : (DKey.make 1 x.districtId).dId = x.districtId := Nat.mod_eq_of_lt (by omega)
  omega

/-- A generator that draws district 10. -/
theorem drawPayment_ten (args : Args) (w : ℕ) :
    (drawPayment args w (FastRandom.new 9)).1.districtId = 10 := by
  have hten : (randomNumber 1 10 (FastRandom.new 9)).1 = 10 := by decide
  change (randomNumber 1 10 (FastRandom.new 9)).1.toNat = 10
  rw [hten]
  rfl

/-- **Payments** stay inside the loaded districts, in every run, exactly if there are ten to a
warehouse; and in a run, as long as those they draw have been loaded. -/
theorem payment_inside (args : Args) :
    ((∀ fgN c, Run args (Workers.run args fgN) c → PaymentInside c) ↔ 10 ≤ args.numDistrictPerWarehouse) ∧
      ∀ fgN c, Reachable ((machine args (Workers.run args fgN)).only (Request.Inside args))
        (World.start args) c → PaymentInside c := by
  refine ⟨⟨fun hall => ?_, fun hten fgN c h => ?_⟩, fun fgN c h => paymentInside_of (fun _ => id) h⟩
  · by_contra hlt
    have hgives : Gives (drawPayment args 1) (Payment.Ok args) := gives_drawPayment ⟨le_rfl, args.warehouses.1⟩
    have hx := hgives (FastRandom.new 9)
    have hout : args.numDistrictPerWarehouse < (drawPayment args 1 (FastRandom.new 9)).1.districtId := by
      rw [drawPayment_ten]
      omega
    obtain ⟨c, h, hnot⟩ := not_paymentInside hx hout
    exact hnot (hall 1 c h)
  · have hin : ∀ j q, (machine args (Workers.run args fgN)).may j q → q.Inside args :=
      fun _ _ hq => Request.inside_of_ten hq.2 hten
    exact paymentInside_of (fun _ => id) (h.only hin)

/-- One warehouse with one district. -/
def oneDistrict : Args where
  warehouseNum := 1
  numDistrictPerWarehouse := 1
  warehouses := by decide
  districts := by decide
  shuffle := id
  shuffle_perm := List.Perm.refl

/-- Its first transaction, from seed 1, is a payment for district 6. -/
theorem payment_outside :
    (∃ x, (nextRequest oneDistrict ![45, 43, 4, 4, 4] 1 2 (FastRandom.new 1)).1 = .payment 1 x ∧
      x.districtId = 6) ∧
      ∃ c, Run oneDistrict (Workers.run oneDistrict 1) c ∧ ¬ PaymentInside c := by
  have hnext : ∃ x, (nextRequest oneDistrict ![45, 43, 4, 4, 4] 1 2 (FastRandom.new 1)).1 = .payment 1 x ∧
      x.districtId = 6 := ⟨_, rfl, by decide⟩
  refine ⟨hnext, ?_⟩
  obtain ⟨x, hx, hsix⟩ := hnext
  have hgives := gives_nextRequest ![45, 43, 4, 4, 4] (show 1 ≤ 1 by decide) (show 1 < 2 by decide)
    (show 2 ≤ oneDistrict.warehouseNum + 1 by decide) (FastRandom.new 1)
  rw [hx] at hgives
  exact not_paymentInside hgives.1.2 (by rw [hsix]; decide)

end SidleBaselines.Tpcc
