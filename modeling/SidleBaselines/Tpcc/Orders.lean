import SidleBaselines.Tpcc.Books

/-!
# Orders

## What is proved

For any number of workers on disjoint warehouses, however their operations
interleave, at every state of a run and every warehouse whose worker is idle:

* `orderLines_exact` — the order lines are those numbered `1` to its count of each
  order, and a new order's id is free.
* `newOrders_undelivered` — the new orders are the orders not delivered; no order is
  delivered twice.
* `orderIds_dense_iff` — the orders are those up to the district's counter exactly as
  long as none has been placed: the counter is incremented before it is used.
* `latest_greatest_iff` — a customer's noted order is his latest exactly when he has
  ordered since the start, or the last loaded order is his.
-/

namespace SidleBaselines.Tpcc

open SidleBaselines.Data SidleBaselines.Concurrency

variable {J : Type} [DecidableEq J] {args : Args} {W : Workers J} {c : Threads J}

/-! ### From the books to the tables -/

/-- The order `o` of district `d` of `w`. -/
def World.orderAt (s : World J) (w d o : ℕ) : Option OVal := (s.db .order).get ⟨o, d, w⟩

/-- The order ids of district `d` of `w`. -/
def World.orderIds (s : World J) (w d : ℕ) : Set ℕ := {o | ∃ vO, s.orderAt w d o = some vO}

omit [DecidableEq J] in
theorem viewAt_order {s : World J} {w n d o : ℕ} :
    ((viewAt w n s).db .order).get ⟨o, d, w⟩ = s.orderAt w d o :=
  viewAt_get (by simp [Tab.own])

omit [DecidableEq J] in
theorem viewAt_newOrder {s : World J} {w n d o : ℕ} :
    ((viewAt w n s).db .newOrder).get ⟨o, d, w⟩ = (s.db .newOrder).get ⟨o, d, w⟩ :=
  viewAt_get (by simp [Tab.own])

omit [DecidableEq J] in
theorem viewAt_lines {s : World J} {w n d o l : ℕ} :
    (viewAt w n s).lines ⟨l, o, d, w⟩ ↔ ∃ v, (s.db .orderLine).get ⟨l, o, d, w⟩ = some v :=
  and_iff_right rfl

/-- The books of an idle warehouse's district. -/
theorem orders_idle (hr : Run args W c) {w : ℕ} (h : OwnerIdle W c w) (d : ℕ) :
    ∃ n, DistrictOrders args w (viewAt w n c.state) d := by
  obtain ⟨n, -, hbooks⟩ := (books args).idle hr h
  exact ⟨n, hbooks.orders d⟩

/-! ### Order lines -/

/-- **Order lines**: the lines of an order are those from `1` to its count, no line is
without its order, and the id of a new order, when it is put among the new orders and
then among the orders, is one no order and no new order has. -/
theorem orderLines_exact (hr : Run args W c) (hb : ∀ w d, c.state.placed w d < 2 ^ 32 - 3002) :
    (∀ w, OwnerIdle W c w → ∀ d o,
      (∀ vO, c.state.orderAt w d o = some vO →
        ∀ l, (∃ v, (c.state.db .orderLine).get ⟨l, o, d, w⟩ = some v) ↔ 1 ≤ l ∧ l ≤ vO.oOlCnt) ∧
      (∀ l v, (c.state.db .orderLine).get ⟨l, o, d, w⟩ = some v →
        ∃ vO, c.state.orderAt w d o = some vO)) ∧
    (∀ j q k x p, c.thread j = some (q, .op (.insert .newOrder k x) p) →
      (c.state.db .newOrder).get k = none ∧ c.state.orderAt k.noWId k.noDId k.noOId = none) ∧
    ∀ j w x k v p, c.thread j = some (.newOrder w x, .op (.insert .order k v) p) →
      (c.state.db .order).get k = none := by
  refine ⟨fun w hw d o => ?_, fun j q k x p next => ?_, fun j w x k v p next => ?_⟩
  · obtain ⟨n, h⟩ := orders_idle hr hw d
    have hlines : ∀ l, (∃ v, (c.state.db .orderLine).get ⟨l, o, d, w⟩ = some v) ↔
        ∃ vO, c.state.orderAt w d o = some vO ∧ 1 ≤ l ∧ l ≤ vO.oOlCnt := by
      intro l
      have hbd : 3001 + c.state.placed w d < 2 ^ 32 := by have := hb w d; omega
      rw [← viewAt_lines (n := n), ← viewAt_order (n := n)]
      exact h.lines hbd l o
    refine ⟨fun vO hvO l => ?_, fun l v hv => ?_⟩
    · rw [hlines, hvO]
      simp
    · obtain ⟨vO, hvO, -⟩ := (hlines l).mp ⟨v, hv⟩
      exact ⟨vO, hvO⟩
  · obtain ⟨K, -, hf⟩ := (books args).within hr next
    have hw : k.noWId = q.warehouseId := by simpa [Footprint, Tab.own] using hf
    have hbd : 3002 + c.state.placed q.warehouseId k.noDId < 2 ^ 32 := by
      have := hb q.warehouseId k.noDId
      omega
    obtain ⟨h₁, h₂⟩ := (books args).finds hr next hbd
    rw [viewAt_get hf] at h₁
    rw [viewAt_get (by simp [Tab.own, hw])] at h₂
    exact ⟨h₁, h₂⟩
  · obtain ⟨K, -, hf⟩ := (books args).within hr next
    have hbd : 3001 + c.state.placed w k.oDId < 2 ^ 32 := by
      have := hb w k.oDId
      omega
    have h := ((books args).finds hr next).2 hbd
    rwa [viewAt_get hf] at h

/-- After an order and a payment. -/
theorem orderLines_exact_paid :
    (∀ w, OwnerIdle oneWorker paid w → ∀ d o,
      (∀ vO, paid.state.orderAt w d o = some vO →
        ∀ l, (∃ v, (paid.state.db .orderLine).get ⟨l, o, d, w⟩ = some v) ↔ 1 ≤ l ∧ l ≤ vO.oOlCnt) ∧
      (∀ l v, (paid.state.db .orderLine).get ⟨l, o, d, w⟩ = some v →
        ∃ vO, paid.state.orderAt w d o = some vO)) ∧
    (∀ j q k x p, paid.thread j = some (q, .op (.insert .newOrder k x) p) →
      (paid.state.db .newOrder).get k = none ∧ paid.state.orderAt k.noWId k.noDId k.noOId = none) ∧
    ∀ j w x k v p, paid.thread j = some (.newOrder w x, .op (.insert .order k v) p) →
      (paid.state.db .order).get k = none :=
  orderLines_exact run_paid fun w d => (placed_paid w d).trans_lt (by norm_num)

/-! ### New orders -/

/-- How many orders have been placed never goes down. -/
theorem placed_step {c' : Threads J} (hs : Step (machine args W) c c') (w d : ℕ) :
    c.state.placed w d ≤ c'.state.placed w d := by
  cases hs with
  | @run j q o k n next =>
    change _ ≤ (c.state.exec j q n o).2.placed w d
    rw [placed_exec]
    exact Nat.le_add_right _ _
  | _ => exact le_rfl

/-- A delivered order stays as it was delivered, while ids have not wrapped. -/
theorem carrier_step {c' : Threads J} (hr : Run args W c) (hs : Step (machine args W) c c') {w d o : ℕ}
    {vO : OVal} (hb : c.state.placed w d < 2 ^ 32 - 3002) (hvO : c.state.orderAt w d o = some vO)
    (hc : vO.oCarrierId ≠ 0) : c'.state.orderAt w d o = some vO := by
  cases hs with
  | start => exact hvO
  | finish => exact hvO
  | @run j q op k n next =>
    obtain ⟨K, -, hf⟩ := (books args).within hr next
    have hfind := (books args).finds hr next
    change (((machine args W).exec j q n op c.state).2.db .order).get ⟨o, d, w⟩ = some vO
    cases op with
    | insert t key x =>
      by_cases ht : t = .order
      · subst ht
        have hget := viewAt_get (s := c.state) (n := c.state.calls j) hf
        simp only [machine, World.exec, World.record, Function.update_self, Table.get_insert]
        rw [if_neg]
        · exact hvO
        · rintro rfl
          obtain rfl : w = q.warehouseId := by simpa [Footprint, Tab.own] using hf
          cases q with
          | newOrder w x =>
            have := hfind.2 (show 3001 + c.state.placed w d < 2 ^ 32 by simp only [Request.warehouseId] at hb; omega)
            rw [hget] at this
            exact absurd (hvO.symm.trans this) (by simp)
          | _ =>
            obtain ⟨-, -, old, hold, hc', -⟩ := hfind
            rw [hget] at hold
            exact hc (Option.some.inj (hvO.symm.trans hold) ▸ hc')
      · simpa [World.orderAt, machine, World.exec, World.record, Function.update_of_ne (Ne.symm ht)] using hvO
    | remove t key =>
      by_cases ht : t = .order
      · subst ht
        exact absurd hfind id
      · simpa [World.orderAt, machine, World.exec, World.record, Function.update_of_ne (Ne.symm ht)] using hvO
    | _ => exact hvO

/-- **New orders**: they are the orders not delivered. Whatever the delivery of an order
writes, it finds the order not delivered and sets its carrier; and, while ids have not
wrapped, a delivered order stays as it is. -/
theorem newOrders_undelivered (hr : Run args W c) :
    (∀ w, OwnerIdle W c w → ∀ d o, (∃ x, (c.state.db .newOrder).get ⟨o, d, w⟩ = some x) ↔
      ∃ vO, c.state.orderAt w d o = some vO ∧ vO.oCarrierId = 0) ∧
    (∀ j w x k v p, c.thread j = some (.delivery w x, .op (.insert .order k v) p) →
      ∃ old, (c.state.db .order).get k = some old ∧ old.oCarrierId = 0 ∧
        v = { old with oCarrierId := v.oCarrierId }) ∧
    ∀ c', Steps (machine args W) c c' → ∀ w d o vO, c'.state.placed w d < 2 ^ 32 - 3002 →
      c.state.orderAt w d o = some vO → vO.oCarrierId ≠ 0 →
        ∃ vO', c'.state.orderAt w d o = some vO' ∧ vO'.oCarrierId = vO.oCarrierId := by
  refine ⟨fun w hw d o => ?_, fun j w x k v p next => ?_, fun c' hs w d o vO hb hvO hc => ?_⟩
  · obtain ⟨n, h⟩ := orders_idle hr hw d
    rw [← viewAt_newOrder (n := n), ← viewAt_order (n := n)]
    exact h.undelivered o
  · obtain ⟨K, -, hf⟩ := (books args).within hr next
    obtain ⟨-, -, old, hold, hc, hv⟩ := (books args).finds hr next
    rw [viewAt_get hf] at hold
    exact ⟨old, hold, hc, hv⟩
  · suffices c'.state.orderAt w d o = some vO from ⟨vO, this, rfl⟩
    induction hs with
    | refl => exact hvO
    | tail hc₁ hs ih =>
      have hb₁ := lt_of_le_of_lt (placed_step hs w d) hb
      exact carrier_step (hr.trans hc₁) hs hb₁ (ih hb₁) hc

/-- After an order, a payment and a delivery. -/
theorem newOrders_undelivered_delivered :
    (∀ w, OwnerIdle oneWorker delivered w → ∀ d o,
      (∃ x, (delivered.state.db .newOrder).get ⟨o, d, w⟩ = some x) ↔
        ∃ vO, delivered.state.orderAt w d o = some vO ∧ vO.oCarrierId = 0) ∧
    (∀ j w x k v p, delivered.thread j = some (.delivery w x, .op (.insert .order k v) p) →
      ∃ old, (delivered.state.db .order).get k = some old ∧ old.oCarrierId = 0 ∧
        v = { old with oCarrierId := v.oCarrierId }) ∧
    ∀ c', Steps (machine twoWarehouses oneWorker) delivered c' → ∀ w d o vO,
      c'.state.placed w d < 2 ^ 32 - 3002 →
      delivered.state.orderAt w d o = some vO → vO.oCarrierId ≠ 0 →
        ∃ vO', c'.state.orderAt w d o = some vO' ∧ vO'.oCarrierId = vO.oCarrierId :=
  newOrders_undelivered run_delivered

/-! ### Order ids -/

/-- The counter's row of the district, the orders being those before the counter's value,
and those `txn_stock_level` looks at the last 20. -/
def OrderIdsOk (s : World J) (w d : ℕ) : Prop :=
  ∃ vD, (s.db .district).get ⟨d, w⟩ = some vD ∧
    IsGreatest (s.orderIds w d) (vD.dNextOId - 1) ∧
    s.orderIds w d = Set.Icc 1 (vD.dNextOId - 1) ∧
    Set.Ico (stockLevelLower vD.dNextOId) vD.dNextOId =
      {o ∈ s.orderIds w d | (s.orderIds w d ∩ Set.Ioi o).ncard < 20}

/-- The district's counter. -/
theorem counter_idle (hr : Run args W c) {w d : ℕ} (hd : args.IsDistrict w d) (h : OwnerIdle W c w) :
    ∃ vD, (c.state.db .district).get ⟨d, w⟩ = some vD ∧
      vD.dNextOId = (3001 + c.state.placed w d) % 2 ^ 32 := by
  obtain ⟨n, hD⟩ := orders_idle hr h d
  obtain ⟨vD, hvD, hn⟩ := hD.counter hd
  rw [viewAt_get (by simp [Tab.own])] at hvD
  exact ⟨vD, hvD, hn⟩

/-- Before the first order is placed, the ids are those before the counter. -/
theorem orderIdsOk_unplaced (hr : Run args W c) {w d : ℕ} (hd : args.IsDistrict w d) (h : OwnerIdle W c w)
    (hp : c.state.placed w d = 0) : OrderIdsOk c.state w d := by
  obtain ⟨vD, hvD, hn⟩ := counter_idle hr hd h
  obtain ⟨n, hD⟩ := orders_idle hr h d
  have hp' : (viewAt w n c.state).placed d = 0 := hp
  have hids : c.state.orderIds w d = Set.Icc 1 3000 := by
    ext o
    have := hD.ids (by rw [hp']; norm_num) o
    rw [viewAt_order, hp'] at this
    refine this.trans ?_
    simp only [hd, true_and, Set.mem_Icc]
    omega
  have hnext : vD.dNextOId = 3001 := by omega
  refine ⟨vD, hvD, ?_, ?_, ?_⟩
  · rw [hids, hnext]
    exact isGreatest_Icc (by norm_num)
  · rw [hids, hnext]
  · rw [hids, hnext]
    ext o
    have hafter : Set.Icc 1 3000 ∩ Set.Ioi o = (Finset.Ioc o 3000 : Set ℕ) := by
      ext o'
      simp only [Set.mem_inter_iff, Set.mem_Icc, Set.mem_Ioi, Finset.coe_Ioc, Set.mem_Ioc]
      omega
    simp only [Set.mem_ofPred_eq, hafter, Set.ncard_coe_finset, Nat.card_Ioc, Set.mem_Ico, Set.mem_Icc,
      stockLevelLower]
    rw [if_pos (by norm_num)]
    constructor <;> rintro ⟨h₁, h₂⟩ <;> constructor <;> omega

/-- After it, the counter itself is the last id. -/
theorem not_orderIdsOk_placed (hr : Run args W c) {w d : ℕ} (hd : args.IsDistrict w d)
    (h : OwnerIdle W c w) (hp : 0 < c.state.placed w d) : ¬ OrderIdsOk c.state w d := by
  rintro ⟨vD, hvD, -, hids, -⟩
  obtain ⟨vD', hvD', hn⟩ := counter_idle hr hd h
  obtain rfl : vD = vD' := Option.some.inj (hvD.symm.trans hvD')
  obtain ⟨n, hD⟩ := orders_idle hr h d
  obtain ⟨vO, hvO⟩ := hD.last hp
  have hmem : vD.dNextOId ∈ c.state.orderIds w d := ⟨vO, by rw [hn, ← viewAt_order (n := n)]; exact hvO⟩
  rw [hids, Set.mem_Icc] at hmem
  omega

/-- **Order ids** are dense exactly as long as no order has been placed: `txn_new_order`
uses the counter after it has incremented it, so that id `3001` is left out. -/
theorem orderIds_dense_iff (hr : Run args W c) {w d : ℕ} (hd : args.IsDistrict w d)
    (h : OwnerIdle W c w) : OrderIdsOk c.state w d ↔ c.state.placed w d = 0 := by
  refine ⟨fun hok => ?_, orderIdsOk_unplaced hr hd h⟩
  by_contra hp
  exact not_orderIdsOk_placed hr hd h (Nat.pos_of_ne_zero hp) hok

theorem orderIds_dense_paid : OrderIdsOk paid.state 1 1 ↔ paid.state.placed 1 1 = 0 :=
  orderIds_dense_iff run_paid isDistrict_one idle_answered

/-- `txn_new_order` places an order. -/
theorem placed_txnNewOrder {j : J} {q : Request} {junk : Junk} {w : ℕ} {x : NewOrder}
    (hd : args.IsDistrict w x.districtId) (s : World J) : s.placed w x.districtId <
      ((txnNewOrder w x).run (World.exec j q junk) s).2.placed w x.districtId := by
  obtain ⟨hw, hd⟩ := IsDistrict.lt hd
  simp only [txnNewOrder, get, insert, Prog.issue_bind, Prog.run_op]
  refine lt_of_lt_of_le ?_ (count_run_le _ _ _)
  simp only [World.placed, trace_exec, List.countP_cons, Op.places, NOKey.make, Nat.mod_eq_of_lt hw,
    Nat.mod_eq_of_lt hd]
  simp

theorem placed_answered (c : Threads (Fin 1)) {w : ℕ} {x : NewOrder}
    (hd : twoWarehouses.IsDistrict w x.districtId) :
    c.state.placed w x.districtId < (answered c (.newOrder w x)).state.placed w x.districtId :=
  placed_txnNewOrder hd c.state

/-- After one order the ids are `1` to `3000` and `3002`. -/
theorem orderIds_gap : Run twoWarehouses oneWorker (answered loaded (.newOrder 1 (orderOf 1 5))) ∧
    twoWarehouses.IsDistrict 1 1 ∧ OwnerIdle oneWorker (answered loaded (.newOrder 1 (orderOf 1 5))) 1 ∧
      ¬ OrderIdsOk (answered loaded (.newOrder 1 (orderOf 1 5))).state 1 1 := by
  have hr := run_answered run_loaded rfl (orderOf_ok (w := 1) (n := 5) (by decide) (by decide))
  have hp := placed_answered loaded (w := 1) (x := orderOf 1 5) isDistrict_one
  exact ⟨hr, isDistrict_one, idle_answered,
    not_orderIdsOk_placed hr isDistrict_one idle_answered (Nat.zero_lt_of_lt hp)⟩

/-! ### The latest order of a customer -/

/-- The note `txn_order_status` reads is the last of the customer's orders. -/
def LatestOk (s : World J) (w d c : ℕ) : Prop :=
  IsGreatest {o | ∃ vO, s.orderAt w d o = some vO ∧ vO.oCId = c} (s.latest w d c)

/-- The noted order of a customer who has ordered. -/
theorem latestOk_bought (hr : Run args W c) {w d cust : ℕ} (h : OwnerIdle W c w)
    (hb : c.state.placed w d < 2 ^ 32 - 3002) (hc : 0 < c.state.bought w d cust) :
    LatestOk c.state w d cust := by
  obtain ⟨n, hD⟩ := orders_idle hr h d
  have hbd : 3001 + (viewAt w n c.state).placed d < 2 ^ 32 := by
    have : (viewAt w n c.state).placed d = c.state.placed w d := rfl
    omega
  constructor
  · obtain ⟨-, vO, hvO, hvc⟩ := hD.bought hbd cust hc
    exact ⟨vO, viewAt_order.symm.trans hvO, hvc⟩
  · rintro o ⟨vO, hvO, hvc⟩
    exact hD.newest hbd cust hc o vO (viewAt_order.trans hvO) hvc

/-- Of one who has not, it is order `3000`, which is his or another's. -/
theorem latestOk_unbought (hr : Run args W c) {w d cust : ℕ} (hd : args.IsDistrict w d)
    (h : OwnerIdle W c w) (hb : c.state.placed w d < 2 ^ 32 - 3002) (hc : c.state.bought w d cust = 0) :
    LatestOk c.state w d cust ↔ (cIds args).getD 2999 0 = cust := by
  obtain ⟨n, hD⟩ := orders_idle hr h d
  have hbd : 3001 + (viewAt w n c.state).placed d < 2 ^ 32 := by
    have : (viewAt w n c.state).placed d = c.state.placed w d := rfl
    omega
  have hlatest : c.state.latest w d cust = 3000 := hD.unbought cust hc
  obtain ⟨vO, hvO⟩ := (hD.ids hbd 3000).mpr ⟨hd, .inl (by norm_num)⟩
  have hvc : vO.oCId = (cIds args).getD 2999 0 := hD.loaded hbd 3000 vO hvO le_rfl
  rw [viewAt_order] at hvO
  unfold LatestOk
  rw [hlatest]
  constructor
  · rintro ⟨⟨vO', hvO', hvc'⟩, -⟩
    obtain rfl : vO = vO' := Option.some.inj (hvO.symm.trans hvO')
    exact hvc.symm.trans hvc'
  · intro heq
    refine ⟨⟨vO, hvO, hvc.trans heq⟩, ?_⟩
    rintro o ⟨vO', hvO', hvc'⟩
    exact hD.old hbd cust hc o vO' (viewAt_order.trans hvO') hvc'

/-- **The noted order** of a customer is his latest exactly when he has ordered since the
start, or the last loaded order happens to be his: the notes start at `3000` for every
customer, whoever the loader gave that order to. -/
theorem latest_greatest_iff (hr : Run args W c) {w d cust : ℕ} (hd : args.IsDistrict w d)
    (_hcust : 1 ≤ cust ∧ cust ≤ numCustomerPerDistrict) (h : OwnerIdle W c w)
    (hb : c.state.placed w d < 2 ^ 32 - 3002) :
    LatestOk c.state w d cust ↔ 0 < c.state.bought w d cust ∨ (cIds args).getD 2999 0 = cust := by
  by_cases hc : c.state.bought w d cust = 0
  · rw [latestOk_unbought hr hd h hb hc]
    simp [hc]
  · have hc := Nat.pos_of_ne_zero hc
    simp only [hc, true_or, iff_true]
    exact latestOk_bought hr h hb hc

theorem cIds_twoWarehouses : (cIds twoWarehouses).getD 2999 0 = 3000 := by
  have : cIds twoWarehouses = List.range' 1 3000 := rfl
  rw [this]
  simp

theorem latest_greatest_paid :
    LatestOk paid.state 1 1 1 ↔ 0 < paid.state.bought 1 1 1 ∨ (cIds twoWarehouses).getD 2999 0 = 1 :=
  latest_greatest_iff run_paid isDistrict_one (by simp [numCustomerPerDistrict]) idle_answered
    ((placed_paid 1 1).trans_lt (by norm_num))

/-- Customer 1 is noted with order `3000` though it is another's. -/
theorem latest_not_greatest : Run twoWarehouses oneWorker loaded ∧ twoWarehouses.IsDistrict 1 1 ∧
    OwnerIdle oneWorker loaded 1 ∧ ¬ LatestOk loaded.state 1 1 1 := by
  refine ⟨run_loaded, isDistrict_one, idle_loaded, ?_⟩
  rw [latestOk_unbought run_loaded isDistrict_one idle_loaded
    (by simp [loaded, Config.init, World.placed, World.start])
    (by simp [loaded, Config.init, World.bought, World.start]), cIds_twoWarehouses]
  norm_num

end SidleBaselines.Tpcc
