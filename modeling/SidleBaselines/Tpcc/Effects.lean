import SidleBaselines.Tpcc.Ledger

/-!
# What a transaction does to the view

## What is proved

* `does_txnNewOrder`, `does_txnPayment`, `does_deliverDistrict` — a transaction run
  on its warehouse's view leaves it as `View.placeOrder`, `View.pay` and
  `View.deliver` say, and every insertion in it finds what `View.finds` says.
-/

namespace SidleBaselines.Tpcc

open SidleBaselines.Data SidleBaselines.Concurrency

/-- What the insertions into the order, new-order and history tables find: a new order
no order under its id, as long as the ids of its district have not wrapped; the
delivery of an order that order, not delivered and not one loaded as delivered; a
payment no history row under its key, as long as the worker's clock has not wrapped.
No order is taken away. -/
def View.finds (q : Request) (v : View) : Op → Prop
  | .insert .newOrder k _ => 3002 + v.placed k.noDId < 2 ^ 32 →
      (v.db .newOrder).get k = none ∧ (v.db .order).get ⟨k.noOId, k.noDId, k.noWId⟩ = none
  | .insert .order k x => v.placed k.oDId ≤ v.calls ∧
      match q with
      | .newOrder _ _ => 3001 + v.placed k.oDId < 2 ^ 32 → (v.db .order).get k = none
      | _ => (3001 + v.placed k.oDId < 2 ^ 32 → 2101 ≤ k.oId) ∧
          ∃ old, (v.db .order).get k = some old ∧ old.oCarrierId = 0 ∧
            x = { old with oCarrierId := x.oCarrierId }
  | .insert .history k _ => 3000 + v.calls < 2 ^ 32 → (v.db .history).get k = none
  | .remove .order _ => False
  | _ => True

section
variable {args : Args} {q : Request} {w : ℕ} {v : View}

/-- Run alone on the view of `w`, the program ends where `post` holds. -/
abbrev Does {α : Type} (q : Request) (w : ℕ) (post : α → View → Prop) (p : Txn α) (v : View) : Prop :=
  Meets (viewOps w (View.finds q)) post p v

/-! ### One operation -/

theorem does_issue {α : Type} {post : α → View → Prop} {o : Op} {f : o.Res → Txn α} (hp : v.finds q o)
    (h : ∀ r, v.gives w o r → Does q w post (f r) (v.next w o)) :
    Does q w post (Prog.issue o >>= f) v := .issue hp h

section
variable {α : Type} {post : α → View → Prop} {f : Bool → Txn α} {t : Tab} {k : t.Key} {x : t.Val}

theorem does_get {f : Bool × t.Val → Txn α} (h : ∀ r, v.gives w (.get t k) r → Does q w post (f r) v) :
    Does q w post (get t k >>= f) v := does_issue ⟨⟩ h

/-- A row of the warehouse is found. -/
theorem does_find {f : Bool × t.Val → Txn α} (hk : t.own w k) (hx : (v.db t).get k = some x)
    (h : Does q w post (f (true, x)) v) : Does q w post (get t k >>= f) v :=
  does_get fun r hr => by rw [(hr hk).1 x hx]; exact h

/-- Or not. -/
theorem does_miss {f : Bool × t.Val → Txn α} (hk : t.own w k) (hx : (v.db t).get k = none)
    (h : ∀ x, Does q w post (f (false, x)) v) : Does q w post (get t k >>= f) v :=
  does_get fun r hr => by
    have : r = (false, r.2) := Prod.ext ((hr hk).2 hx) rfl
    rw [this]
    exact h r.2

/-- A row any worker may write. -/
theorem does_shared (ht : t = .customer ∨ t = .stock) (h : ∀ r, Does q w post (f r) v) :
    Does q w post (insert t k x >>= f) v := by
  refine does_issue ?_ fun r _ => ?_
  · rcases ht with rfl | rfl <;> exact ⟨⟩
  · have : v.next w (.insert t k x) = v := by
      rcases ht with rfl | rfl <;> exact put_frame (by simp [Tab.own])
    rw [this]
    exact h r

/-- A row of the warehouse is written. -/
theorem does_put (ht : t ≠ .newOrder ∧ t ≠ .orderLine) (hk : t.own w k) (hp : v.finds q (.insert t k x))
    (h : ∀ r, Does q w post (f r) { v with db := Function.update v.db t ((v.db t).insert k x) }) :
    Does q w post (insert t k x >>= f) v := by
  refine does_issue hp fun r _ => ?_
  have : v.next w (.insert t k x) = v.put w t k x := by
    cases t <;> first | rfl | exact absurd rfl ht.1 | exact absurd rfl ht.2
  rw [this, View.put, if_pos hk]
  exact h r

end

section
variable {α : Type} {post : α → View → Prop}

/-- A new order is placed. -/
theorem does_place {f : Bool → Txn α} {k : NOKey} {x : NOVal} (hk : k.noWId = w)
    (hp : v.finds q (.insert .newOrder k x))
    (h : ∀ r, Does q w post (f r) { v with
      db := Function.update v.db .newOrder ((v.db .newOrder).insert k x)
      placed := fun d => v.placed d + if k.noDId = d then 1 else 0 }) :
    Does q w post (insert .newOrder k x >>= f) v := by
  refine does_issue hp fun r _ => ?_
  have hown : Tab.own w .newOrder k := by simpa [Tab.own] using hk
  have := h r
  simpa [View.next, View.put, hown, hk] using this

/-- A line of the warehouse is written. -/
theorem does_line {f : Bool → Txn α} {k : OLKey} {x : OLVal} (hk : k.olWId = w)
    (h : ∀ r, Does q w post (f r) { v with lines := fun a => v.lines a ∨ a = k }) :
    Does q w post (insert .orderLine k x >>= f) v := by
  refine does_issue ⟨⟩ fun r _ => ?_
  simpa [View.next, hk] using h r

/-- A line that is there already, or another warehouse's. -/
theorem does_rewriteLine {f : Bool → Txn α} {k : OLKey} {x : OLVal} (hk : k.olWId = w → v.lines k)
    (h : ∀ r, Does q w post (f r) v) : Does q w post (insert .orderLine k x >>= f) v := by
  refine does_issue ⟨⟩ fun r _ => ?_
  have hlines : (fun a => v.lines a ∨ (a = k ∧ k.olWId = w)) = v.lines := by
    funext a
    refine propext ⟨fun ha => ha.elim id ?_, .inl⟩
    rintro ⟨rfl, hw⟩
    exact hk hw
  simpa [View.next, hlines] using h r

theorem does_remove {f : Bool → Txn α} {k : NOKey} (hk : k.noWId = w)
    (h : ∀ r, Does q w post (f r) { v with
      db := Function.update v.db .newOrder ((v.db .newOrder).remove k) }) :
    Does q w post (remove .newOrder k >>= f) v := by
  refine does_issue ⟨⟩ fun r _ => ?_
  have hown : Tab.own w .newOrder k := by simpa [Tab.own] using hk
  simpa [View.next, hown] using h r

theorem does_scan {f : List (OLKey × OLVal) → Txn α} {k : OLKey} {n : ℕ}
    (h : ∀ r, (∀ e ∈ r, e.1.olWId = w → v.lines e.1) → Does q w post (f r) v) :
    Does q w post (scan .orderLine k n >>= f) v := does_issue ⟨⟩ h

theorem does_clock {f : ℕ → Txn α} (h : Does q w post (f (clock v.calls)) { v with calls := v.calls + 1 }) :
    Does q w post (getCurrentTimeMillis >>= f) v :=
  does_issue ⟨⟩ fun r hr => by
    obtain rfl : r = clock v.calls := hr
    exact h

theorem does_setPending {f : Unit → Txn α} {d o : ℕ}
    (h : Does q w post (f ()) { v with pending := Function.update v.pending d o }) :
    Does q w post (Prog.issue (Op.setPending w d o) >>= f) v :=
  does_issue ⟨⟩ fun r _ => by simpa [View.next] using h

theorem does_setLatest {f : Unit → Txn α} {d c o : ℕ}
    (h : Does q w post (f ()) { v with
      latest := Function.update v.latest d (Function.update (v.latest d) c o)
      bought := fun d' c' => v.bought d' c' + if d = d' ∧ c = c' then 1 else 0 }) :
    Does q w post (Prog.issue (Op.setLatest w d c o) >>= f) v :=
  does_issue ⟨⟩ fun r _ => by simpa [View.next] using h

end

/-! ### New orders -/

/-- The order row of a new order. -/
def NewOrder.row (x : NewOrder) (oEntryD : ℕ) : OVal :=
  { oCId := x.customerId, oCarrierId := 0, oOlCnt := x.items.length % 2 ^ 8, oAllLocal := x.allLocal,
    oEntryD := oEntryD }

/-- The view after `txn_new_order` has placed order `o`, the district's row being `vD`. -/
def View.placeOrder (w : ℕ) (x : NewOrder) (vD : DVal) (o : ℕ) (v : View) : View :=
  { db := Function.update (Function.update (Function.update v.db
      .district ((v.db .district).insert ⟨x.districtId, w⟩ { vD with dNextOId := o }))
      .newOrder ((v.db .newOrder).insert ⟨o, x.districtId, w⟩ { noDummy := varibaleStr 2 "no".toList }))
      .order ((v.db .order).insert ⟨o, x.districtId, w⟩ (x.row (clock v.calls)))
    lines := fun k => v.lines k ∨ ∃ l, 1 ≤ l ∧ l ≤ x.items.length ∧ k = ⟨l, o, x.districtId, w⟩
    pending := Function.update v.pending x.districtId o
    latest := Function.update v.latest x.districtId
      (Function.update (v.latest x.districtId) x.customerId o)
    placed := fun d => v.placed d + if x.districtId = d then 1 else 0
    bought := fun d c => v.bought d c + if x.districtId = d ∧ x.customerId = c then 1 else 0
    calls := v.calls + 1 }

/-- The loop of `txn_new_order` adds its lines. -/
theorem does_newOrderLines {d o : ℕ} (hd : args.IsDistrict w d) (ho : o < 2 ^ 32) (kD : DKey) (vD : DVal)
    (kO : OKey) (l : ℕ) (items : List OrderItem) (hl : l + items.length ≤ 2 ^ 8)
    (hitems : ∀ item ∈ items, item.Ok args)
    (hitem : ∀ i, 1 ≤ i → i ≤ numItem → ∃ x, (v.db .item).get ⟨i⟩ = some x) :
    Does q w (fun _ v' => v' = { v with
        lines := fun k => v.lines k ∨ ∃ l', l ≤ l' ∧ l' < l + items.length ∧ k = ⟨l', o, d, w⟩ })
      (newOrderLines w d kD vD ⟨o, d, w⟩ kO l items) v := by
  induction items generalizing l v with
  | nil =>
    have : (fun k => v.lines k ∨ ∃ l', l ≤ l' ∧ l' < l + ([] : List OrderItem).length ∧
        k = (⟨l', o, d, w⟩ : OLKey)) = v.lines := by
      funext k
      simp only [List.length_nil, Nat.add_zero, eq_iff_iff, or_iff_left_iff_imp]
      rintro ⟨l', h₁, h₂, -⟩
      omega
    simp only [this]
    exact rfl
  | cons item items ih =>
    have hi := hitems item List.mem_cons_self
    simp only [List.length_cons] at hl
    obtain ⟨vI, hvI⟩ := hitem _ hi.item.1 hi.item.2
    refine does_find rfl (by rw [make_iKey hi.item.2]; exact hvI) ?_
    refine does_get fun vS _ => does_shared (.inr rfl) fun _ => does_line ?_ fun _ => ?_
    · simp [make_olKey hd ho (l := l) (by omega)]
    refine Meets.mono ?_ (ih (l + 1) (by omega) (fun item' h => hitems item' (List.mem_cons_of_mem _ h)) ?_)
    swap
    · exact hitem
    rintro _ v' rfl
    have : (fun k => (v.lines k ∨ k = OLKey.make w d o l) ∨
          ∃ l', l + 1 ≤ l' ∧ l' < l + 1 + items.length ∧ k = ⟨l', o, d, w⟩) =
        fun k => v.lines k ∨ ∃ l', l ≤ l' ∧ l' < l + (items.length + 1) ∧ k = ⟨l', o, d, w⟩ := by
      funext k
      rw [make_olKey hd ho (by omega), or_assoc]
      refine propext (or_congr_right ⟨?_, ?_⟩)
      · rintro (h | ⟨l', h₁, h₂, h⟩)
        · exact ⟨l, le_rfl, by omega, h⟩
        · exact ⟨l', by omega, by omega, h⟩
      · rintro ⟨l', h₁, h₂, h⟩
        by_cases hll : l' = l
        · exact .inl (hll ▸ h)
        · exact .inr ⟨l', by omega, by omega, h⟩
    simp only [List.length_cons, ← this]

/-- **`txn_new_order`** places order `3002 + n` when `n` orders have been placed before. -/
theorem does_txnNewOrder {x : NewOrder} (hx : x.Ok args) (hd : args.IsDistrict w x.districtId) {vD : DVal}
    (hvD : (v.db .district).get ⟨x.districtId, w⟩ = some vD)
    (hitem : ∀ i, 1 ≤ i → i ≤ numItem → ∃ x, (v.db .item).get ⟨i⟩ = some x)
    (hdrawn : v.placed x.districtId ≤ v.calls)
    (hfree : 3002 + v.placed x.districtId < 2 ^ 32 →
      (v.db .newOrder).get ⟨u32 (vD.dNextOId + 1), x.districtId, w⟩ = none ∧
        (v.db .order).get ⟨u32 (vD.dNextOId + 1), x.districtId, w⟩ = none) :
    Does (.newOrder w x) w (fun _ v' => v' = v.placeOrder w x vD (u32 (vD.dNextOId + 1)))
      (txnNewOrder w x) v := by
  have hcount := hx.count
  have ho := u32_lt (vD.dNextOId + 1)
  refine does_get fun _ _ => ?_
  rw [make_dKey hd]
  refine does_find (by simp [Tab.own]) hvD ?_
  refine does_put (by decide) (by simp [Tab.own]) ⟨⟩ fun _ => does_get fun _ _ => ?_
  rw [make_noKey hd ho]
  refine does_place rfl ?_ fun _ => does_setPending <| does_setLatest <| does_clock ?_
  · simpa [View.finds] using hfree
  rw [make_oKey hd ho]
  refine does_put (by decide) (by simp [Tab.own]) ⟨?_, ?_⟩ fun _ => ?_
  · change (v.placed x.districtId + if x.districtId = x.districtId then 1 else 0) ≤ v.calls + 1
    rw [if_pos rfl]
    omega
  · intro h
    change 3001 + (v.placed x.districtId + if x.districtId = x.districtId then 1 else 0) < 2 ^ 32 at h
    rw [if_pos rfl] at h
    exact (hfree (by omega)).2
  refine Meets.mono ?_ (does_newOrderLines hd ho _ _ _ 1 x.items (by omega) hx.items ?_)
  · rintro _ v' rfl
    simp only [View.placeOrder, NewOrder.row, Nat.lt_one_add_iff]
    rfl
  · exact hitem

/-! ### Payments -/

/-- The view after `txn_payment`, the rows read being `vW` and `vD`. -/
def View.pay (w : ℕ) (x : Payment) (vW : WVal) (vD : DVal) (v : View) : View :=
  { v with
    db := Function.update (Function.update (Function.update v.db
      .warehouse ((v.db .warehouse).insert ⟨w⟩ { vW with wYtd := vW.wYtd + x.paymentAmount }))
      .district ((v.db .district).insert (DKey.make w x.districtId)
        { vD with dYtd := vD.dYtd + x.paymentAmount }))
      .history ((v.db .history).insert
        (HKey.make w x.districtId x.customerWarehouseId x.customerDistrictId x.customerId (clock v.calls))
        { hAmount := x.paymentAmount, hData := vW.wName ++ List.replicate 4 ' ' ++ vD.dName })
    calls := v.calls + 1 }

/-- **`txn_payment`**; the row of a district there is none of is whatever its variable held. -/
theorem does_txnPayment {x : Payment} (hw : args.IsWarehouse w) {vW : WVal}
    (hvW : (v.db .warehouse).get ⟨w⟩ = some vW)
    (hfree : 3001 + v.calls < 2 ^ 32 → (v.db .history).get (HKey.make w x.districtId x.customerWarehouseId
      x.customerDistrictId x.customerId (clock v.calls)) = none) :
    Does q w (fun _ v' => ∃ vD, (∀ u, (v.db .district).get (DKey.make w x.districtId) = some u → u = vD) ∧
      v' = v.pay w x vW vD) (txnPayment w x) v := by
  have hmod : w % 2 ^ 16 = w := Nat.mod_eq_of_lt (IsWarehouse.lt hw)
  refine does_clock ?_
  rw [make_wKey hw]
  refine does_find (by simp [Tab.own]) hvW ?_
  refine does_put (by decide) (by simp [Tab.own]) ⟨⟩ fun _ => does_get fun vD hvD => ?_
  have hown : Tab.own w .district (DKey.make w x.districtId) := by simpa [Tab.own, DKey.make] using hmod
  refine does_put (by decide) hown ⟨⟩ fun _ => does_get fun vC _ => does_shared (.inl rfl) fun _ => ?_
  refine does_put (by decide) (by simpa [Tab.own, HKey.make] using hmod) ?_ fun _ => ⟨vD.2, ?_, rfl⟩
  · exact fun h : 3000 + (v.calls + 1) < 2 ^ 32 => hfree (by omega)
  · intro u hu
    rw [(hvD hown).1 u hu]

/-! ### Deliveries -/

/-- The view after the delivery of order `o`, whose row was `vO`. -/
def View.deliver (w d oCarrierId o : ℕ) (vO : OVal) (v : View) : View :=
  { v with
    db := Function.update (Function.update v.db
      .newOrder ((v.db .newOrder).remove ⟨o, d, w⟩))
      .order ((v.db .order).insert ⟨o, d, w⟩ { vO with oCarrierId := oCarrierId }) }

theorem does_deliverLines (olTotal : ℚ) (kvs : List (OLKey × OLVal))
    (h : ∀ e ∈ kvs, e.1.olWId = w → v.lines e.1) :
    Does q w (fun _ v' => v' = { v with calls := v.calls + kvs.length }) (deliverLines olTotal kvs) v := by
  induction kvs generalizing olTotal v with
  | nil => exact rfl
  | cons e kvs ih =>
    refine does_clock <| does_rewriteLine (h e List.mem_cons_self) fun _ => ?_
    refine Meets.mono ?_ (ih _ fun e' he' => h e' (List.mem_cons_of_mem _ he'))
    rintro _ v' rfl
    simp only [List.length_cons, Nat.add_assoc, Nat.add_comm 1]

theorem does_deliverOrder {y : Delivery} {d o : ℕ} (hd : args.IsDistrict w d) (ho : o < 2 ^ 32) {vO : OVal}
    (hvO : (v.db .order).get ⟨o, d, w⟩ = some vO) (hc : vO.oCarrierId = 0)
    (hold : 3001 + v.placed d < 2 ^ 32 → 2101 ≤ o) (hdrawn : v.placed d ≤ v.calls) (oCarrierId : ℕ) :
    Does (.delivery w y) w (fun _ v' => ∃ n, v' = { v.deliver w d oCarrierId o vO with calls := v.calls + n })
      (deliverOrder w d oCarrierId o vO) v := by
  rw [deliverOrder, make_noKey hd ho, make_oKey hd ho]
  refine does_remove rfl fun _ => does_put (by decide) (by simp [Tab.own]) ?_ fun _ => ?_
  · exact ⟨hdrawn, hold, vO, hvO, hc, rfl⟩
  refine does_scan fun kvs hkvs => Meets.bind (Meets.mono ?_ (does_deliverLines 0 kvs hkvs))
  rintro olTotal v' rfl
  exact does_get fun vC _ => does_shared (.inl rfl) fun _ => ⟨kvs.length, rfl⟩

/-- **One round of `txn_delivery`** delivers the order noted for the district, when it is
among the new orders, and goes on either way. -/
theorem does_deliverDistrict {y : Delivery} {d : ℕ} (hd : args.IsDistrict w d) (oCarrierId : ℕ)
    (hnew : ∀ o, (∃ x, (v.db .newOrder).get ⟨o, d, w⟩ = some x) →
      ∃ vO, (v.db .order).get ⟨o, d, w⟩ = some vO ∧ vO.oCarrierId = 0 ∧
        (3001 + v.placed d < 2 ^ 32 → 2101 ≤ o)) (hdrawn : v.placed d ≤ v.calls) :
    Does (.delivery w y) w (fun goOn v' => goOn = true ∧ (v' = v ∨
        ∃ o vO n, (v.db .order).get ⟨o, d, w⟩ = some vO ∧ vO.oCarrierId = 0 ∧
          v' = { v.deliver w d oCarrierId o vO with calls := v.calls + n }))
      (deliverDistrict w oCarrierId d) v := by
  have hlt : v.pending d % 2 ^ 32 < 2 ^ 32 := Nat.mod_lt _ (by norm_num)
  have hkey : NOKey.make w d (v.pending d) = ⟨v.pending d % 2 ^ 32, d, w⟩ := by
    rw [← make_noKey hd hlt]
    simp [NOKey.make]
  refine does_issue ⟨⟩ fun r hr => ?_
  obtain rfl : r = v.pending d := hr rfl
  simp only [hkey]
  cases hx : (v.db .newOrder).get ⟨v.pending d % 2 ^ 32, d, w⟩ with
  | none => exact does_miss (by simp [Tab.own]) hx fun _ => ⟨rfl, .inl rfl⟩
  | some x =>
    obtain ⟨vO, hvO, hc, hold⟩ := hnew _ ⟨x, hx⟩
    refine does_find (by simp [Tab.own]) hx ?_
    rw [if_pos rfl, make_oKey hd hlt]
    refine does_find (by simp [Tab.own]) hvO ?_
    refine Meets.bind (Meets.mono ?_ (does_deliverOrder hd hlt hvO hc hold hdrawn oCarrierId))
    rintro _ v' ⟨n, rfl⟩
    exact ⟨rfl, .inr ⟨_, vO, n, hvO, hc, rfl⟩⟩

/-! ### The transactions that only read -/

theorem does_txnOrderStatus (x : OrderStatus) : Does q w (fun _ v' => v' = v) (txnOrderStatus w x) v :=
  does_issue ⟨⟩ fun _ _ => does_scan fun _ _ => rfl

theorem does_countLowStock (threshold fakeSize : ℕ) (kvs : List (OLKey × OLVal)) :
    Does q w (fun _ v' => v' = v) (countLowStock w threshold fakeSize kvs) v := by
  induction kvs generalizing fakeSize with
  | nil => exact rfl
  | cons e kvs ih => exact does_get fun _ _ => ih _

theorem does_txnStockLevel (x : StockLevel) : Does q w (fun _ v' => v' = v) (txnStockLevel w x) v := by
  refine does_get fun _ _ => does_scan fun kvs _ => Meets.bind (Meets.mono ?_ (does_countLowStock _ _ kvs))
  rintro _ v' rfl
  exact rfl

end

end SidleBaselines.Tpcc
