import SidleBaselines.Tpcc.Books

/-!
# Customers under one worker

With one worker a customer's row is written by no one else between a transaction's
reading of it and its writing. `Accounts` is what the customers' counters and the
tables they count in hold.

## What is proved

* `accounts_txn` — every transaction keeps the counters in step with the history and
  the orders (`AccountsOk`).
* `customers_ledger` — hence they are, in every run, whenever the worker is idle.
-/

namespace SidleBaselines.Tpcc

open SidleBaselines.Data SidleBaselines.Concurrency

/-! ### Accounts -/

/-- The customers, what is counted for them, and the worker's clock readings. -/
@[ext]
structure Accounts where
  /-- The customers. -/
  customer : Table CKey CVal
  /-- Their payments. -/
  history : Table HKey HVal
  /-- Their orders. -/
  order : Table OKey OVal
  /-- The clock readings. -/
  calls : ℕ

/-- The payments of customer `k`, each counting `f`. -/
def paymentSum {A : Type} [AddCommMonoid A] (f : HVal → A) (k : CKey) (t : Table HKey HVal) : A :=
  t.total fun kH vH => if kH.hCWId = k.cWId ∧ kH.hCDId = k.cDId ∧ kH.hCId = k.cId then f vH else 0

/-- The order is one of customer `k`'s, delivered since the start. -/
def OVal.deliveredFor (k : CKey) (kO : OKey) (vO : OVal) : Prop :=
  kO.oWId = k.cWId ∧ kO.oDId = k.cDId ∧ vO.oCId = k.cId ∧ 2101 ≤ kO.oId ∧ vO.oCarrierId ≠ 0

instance (k : CKey) (kO : OKey) (vO : OVal) : Decidable (vO.deliveredFor k kO) :=
  inferInstanceAs (Decidable (_ ∧ _))

/-- How many of customer `k`'s orders have been delivered since the start. -/
def deliveries (k : CKey) (t : Table OKey OVal) : ℕ :=
  t.total fun kO vO => if vO.deliveredFor k kO then 1 else 0

/-- `k` is a customer's key. -/
def Args.IsCustomer (args : Args) (k : CKey) : Prop :=
  args.IsDistrict k.cWId k.cDId ∧ 1 ≤ k.cId ∧ k.cId ≤ numCustomerPerDistrict

/-- The counters of every customer are in step with the tables they count in. -/
structure AccountsOk (args : Args) (v : Accounts) : Prop where
  /-- A customer's counters. -/
  customers : ∀ k, args.IsCustomer k → ∃ vC, v.customer.get k = some vC ∧
    vC.cPaymentCnt = paymentSum (fun _ => 1) k v.history ∧
    vC.cYtdPayment = paymentSum HVal.hAmount k v.history ∧
    vC.cDeliveryCnt = deliveries k v.order % 2 ^ 32
  /-- Every payment has been dated, the loaded one apart. -/
  dated : ∀ k, args.IsCustomer k → paymentSum (fun _ => 1) k v.history ≤ 1 + v.calls
  /-- Orders are by customers. -/
  buyers : ∀ k vO, v.order.get k = some vO → 1 ≤ vO.oCId ∧ vO.oCId ≤ numCustomerPerDistrict

/-! ### Operations -/

/-- What an operation may give the only worker, and what its insertions find. -/
def Accounts.gives (q : Request) (v : Accounts) : (o : Op) → o.Res → Prop
  | .get .customer k, r => ∀ x, v.customer.get k = some x → r = (true, x)
  | .get .order k, r => r.1 = true → v.order.get k = some r.2
  | .insert .history k _, _ => 3000 + v.calls < 2 ^ 32 → v.history.get k = none
  | .insert .order k x, _ => 3001 + v.calls < 2 ^ 32 →
      match q with
      | .newOrder _ _ => v.order.get k = none
      | _ => 2101 ≤ k.oId ∧ ∃ old, v.order.get k = some old ∧ old.oCarrierId = 0 ∧
          x = { old with oCarrierId := x.oCarrierId }
  | .remove .order _, _ => False
  | _, _ => True

/-- The accounts after an operation. -/
def Accounts.next (v : Accounts) : Op → Accounts
  | .insert .customer k x => { v with customer := v.customer.insert k x }
  | .insert .history k x => { v with history := v.history.insert k x }
  | .insert .order k x => { v with order := v.order.insert k x }
  | .remove .customer k => { v with customer := v.customer.remove k }
  | .remove .history k => { v with history := v.history.remove k }
  | .remove .order k => { v with order := v.order.remove k }
  | .getCurrentTimeMillis => { v with calls := v.calls + 1 }
  | _ => v

/-- The only worker's operations on the accounts. -/
def accountOps (q : Request) : Abstract Op Op.Res Accounts where
  pre _ _ := True
  gives := Accounts.gives q
  next v o _ := v.next o

/-- The program, run alone, leaves the accounts as `post` says. -/
abbrev Posts {α : Type} (q : Request) (post : Accounts → Prop) (p : Txn α) (v : Accounts) : Prop :=
  Meets (accountOps q) (fun _ v' => post v') p v

/-- The accounts are in order as long as the clock has not wrapped. -/
def AccountsInv (args : Args) (v : Accounts) : Prop := 3001 + v.calls < 2 ^ 32 → AccountsOk args v

/-! ### The sums -/

section
variable {k : CKey} {kH : HKey} {vH : HVal} {kO : OKey} {vO vO' : OVal} {tH : Table HKey HVal}
  {tO : Table OKey OVal}

theorem paymentSum_insert {A : Type} [AddCommMonoid A] {f : HVal → A} (h : tH.get kH = none) :
    paymentSum f k (tH.insert kH vH) =
      (if kH.hCWId = k.cWId ∧ kH.hCDId = k.cDId ∧ kH.hCId = k.cId then f vH else 0) + paymentSum f k tH :=
  Table.total_insert_new h

theorem deliveries_new (h : tO.get kO = none) (hc : vO.oCarrierId = 0) :
    deliveries k (tO.insert kO vO) = deliveries k tO := by
  rw [deliveries, Table.total_insert_new h, if_neg, zero_add]
  · rfl
  · exact fun hd => hd.2.2.2.2 hc

/-- An order not delivered does not count; delivered, it does. -/
theorem deliveries_insert (h : tO.get kO = some vO) (hc : vO.oCarrierId = 0) :
    deliveries k (tO.insert kO vO') = (if vO'.deliveredFor k kO then 1 else 0) + deliveries k tO := by
  have hzero : (if vO.deliveredFor k kO then 1 else 0) = 0 := if_neg fun hd => hd.2.2.2.2 hc
  have hrest := Table.total_remove (f := fun kO vO => if OVal.deliveredFor k kO vO then (1 : ℕ) else 0) h
  rw [deliveries, Table.total_insert, deliveries, ← hrest, hzero, zero_add]

end

/-! ### The transactions -/

section
variable {args : Args} {q : Request} {w : ℕ} {v : Accounts}

theorem posts_issue {α : Type} {post : Accounts → Prop} {o : Op} {f : o.Res → Txn α}
    (h : ∀ r, v.gives q o r → Posts q post (f r) (v.next o)) :
    Posts q post (Prog.issue o >>= f) v :=
  .issue ⟨⟩ h

theorem AccountsOk.later {n : ℕ} (h : AccountsOk args v) :
    AccountsOk args { v with calls := v.calls + n } where
  customers := h.customers
  dated k hk := (h.dated k hk).trans (by dsimp only; omega)
  buyers := h.buyers

theorem AccountsInv.later (h : AccountsInv args v) (n : ℕ) :
    AccountsInv args { v with calls := v.calls + n } :=
  fun hb => (h (by dsimp only at hb; omega)).later

/-- The loop of `txn_new_order` writes none of the accounts. -/
theorem posts_newOrderLines {post : Accounts → Prop} (d : ℕ) (kD : DKey) (vD : DVal) (kNO : NOKey) (kO : OKey)
    (l : ℕ) (items : List OrderItem) (h : post v) :
    Posts q post (newOrderLines w d kD vD kNO kO l items) v := by
  induction items generalizing l with
  | nil => exact h
  | cons item items ih =>
    refine posts_issue fun vI _ => ?_
    split_ifs
    · exact posts_issue fun _ _ => posts_issue fun _ _ => posts_issue fun _ _ => ih _
    · exact posts_issue fun _ _ => posts_issue fun _ _ => posts_issue fun _ habsurd => habsurd.elim

theorem accounts_txnNewOrder {x : NewOrder} (hx : x.Ok args) (h : AccountsInv args v) :
    Posts (.newOrder w x) (AccountsInv args) (txnNewOrder w x) v := by
  refine posts_issue fun _ _ => posts_issue fun _ _ => posts_issue fun _ _ => posts_issue fun _ _ => ?_
  refine posts_issue fun _ _ => posts_issue fun _ _ => posts_issue fun _ _ => posts_issue fun ts _ => ?_
  refine posts_issue fun _ hfree => posts_newOrderLines _ _ _ _ _ _ _ fun hb => ?_
  have hok := h.later 1 hb
  refine ⟨fun k hk => ?_, hok.dated, fun k vO hvO => ?_⟩
  · obtain ⟨vC, hvC, h₁, h₂, h₃⟩ := hok.customers k hk
    refine ⟨vC, hvC, h₁, h₂, h₃.trans ?_⟩
    exact congrArg (· % 2 ^ 32) (deliveries_new (hfree hb) rfl).symm
  · simp only [Accounts.next, Table.get_insert] at hvO
    split_ifs at hvO with hkO
    · cases hvO
      exact hx.customer
    · exact hok.buyers k vO hvO

/-- The key of the customer of a payment. -/
def Payment.customer (x : Payment) : CKey := ⟨x.customerId, x.customerDistrictId, x.customerWarehouseId⟩

theorem Payment.Ok.make {x : Payment} (hx : x.Ok args) :
    CKey.make x.customerId x.customerDistrictId x.customerWarehouseId = x.customer := by
  have hw := IsWarehouse.lt hx.customerWarehouse
  have hd := hx.customerDistrict
  have hc := hx.customer
  simp only [numCustomerPerDistrict] at hc
  simp only [CKey.make, Payment.customer, CKey.mk.injEq]
  omega

/-- The accounts after a payment by customer `x.customer`, whose row was `vC`. -/
def Accounts.pay (w : ℕ) (x : Payment) (ts : ℕ) (vC : CVal) (vH : HVal) (v : Accounts) : Accounts where
  customer := v.customer.insert x.customer (vC.paid x.customer w x)
  history := v.history.insert
    (HKey.make w x.districtId x.customerWarehouseId x.customerDistrictId x.customerId ts) vH
  order := v.order
  calls := v.calls + 1

/-- **A payment** counts in the customer's row and in the history alike. -/
theorem AccountsOk.pay (w ts : ℕ) (vC : CVal) {x : Payment} {vH : HVal} (hb : 1 + v.calls + 1 < 2 ^ 32)
    (hx : x.Ok args) (h : AccountsOk args v)
    (hvC : ∀ u, v.customer.get x.customer = some u → u = vC) (hvH : vH.hAmount = x.paymentAmount)
    (hnew : v.history.get
      (HKey.make w x.districtId x.customerWarehouseId x.customerDistrictId x.customerId ts) = none) :
    AccountsOk args (v.pay w x ts vC vH) := by
  have hsum {A : Type} [AddCommMonoid A] (f : HVal → A) (k : CKey) :
      paymentSum f k (v.pay w x ts vC vH).history =
        (if x.customer = k then f vH else 0) + paymentSum f k v.history := by
    refine (paymentSum_insert hnew).trans ?_
    have hmake := CKey.mk.inj hx.make
    obtain ⟨c', d', w'⟩ := k
    simp only [HKey.make, Payment.customer, CKey.mk.injEq] at hmake ⊢
    simp only [hmake]
    congr 1
    exact if_congr (by tauto) rfl rfl
  refine ⟨fun k hk => ?_, fun k hk => ?_, h.buyers⟩
  · obtain ⟨u, hu, h₁, h₂, h₃⟩ := h.customers k hk
    have hdated := h.dated k hk
    by_cases hkk : x.customer = k
    · subst hkk
      obtain rfl := hvC u hu
      refine ⟨_, Table.get_insert_self, ?_, ?_, h₃⟩
      · rw [hsum, if_pos rfl, ← h₁]
        simp only [CVal.paid, u32_succ]
        omega
      · rw [hsum, if_pos rfl, ← h₂, hvH, add_comm]
        rfl
    · refine ⟨u, (Table.get_insert_ne hkk).trans hu, ?_, ?_, h₃⟩
      · rw [hsum, if_neg hkk, zero_add, h₁]
      · rw [hsum, if_neg hkk, zero_add, h₂]
  · have hdated := h.dated k hk
    rw [hsum]
    simp only [Accounts.pay]
    split_ifs <;> omega

theorem accounts_txnPayment {x : Payment} (hx : x.Ok args)
    (h : AccountsInv args v) : Posts (.payment w x) (AccountsInv args) (txnPayment w x) v := by
  rw [txnPayment]
  simp only [hx.make]
  refine posts_issue fun ts _ => posts_issue fun vW _ => posts_issue fun _ _ => posts_issue fun vD _ => ?_
  refine posts_issue fun _ _ => posts_issue fun vC hvC => posts_issue fun _ _ => posts_issue fun _ hnew => ?_
  intro hb
  change 3001 + (v.calls + 1) < 2 ^ 32 at hb
  refine AccountsOk.pay w ts vC.2 (by omega) hx (h (by omega)) ?_ rfl ?_
  · intro u hu
    rw [hvC u hu]
  · exact hnew (show 3000 + (v.calls + 1) < 2 ^ 32 by omega)

/-- The accounts after the delivery of order `kO`, whose row was `vO`, `n` lines of it
having been scanned. -/
def Accounts.deliver (kO : OKey) (vO : OVal) (oCarrierId : ℕ) (kC : CKey) (vC : CVal) (olTotal : ℚ) (n : ℕ)
    (v : Accounts) : Accounts where
  customer := v.customer.insert kC (vC.delivered olTotal)
  history := v.history
  order := v.order.insert kO { vO with oCarrierId := oCarrierId }
  calls := v.calls + n

/-- **A delivery** counts in the customer's row and in the order's alike. -/
theorem AccountsOk.deliver {o d oCarrierId : ℕ} {vO : OVal} (vC : CVal) (olTotal : ℚ) (n : ℕ)
    (hcarrier : 1 ≤ oCarrierId) (h : AccountsOk args v) (hvO : v.order.get ⟨o, d, w⟩ = some vO)
    (hc : vO.oCarrierId = 0) (ho : 2101 ≤ o) (hvC : ∀ u, v.customer.get ⟨vO.oCId, d, w⟩ = some u → u = vC) :
    AccountsOk args (v.deliver ⟨o, d, w⟩ vO oCarrierId ⟨vO.oCId, d, w⟩ vC olTotal n) := by
  have hcount (k : CKey) :
      deliveries k (v.deliver ⟨o, d, w⟩ vO oCarrierId ⟨vO.oCId, d, w⟩ vC olTotal n).order =
        (if (⟨vO.oCId, d, w⟩ : CKey) = k then 1 else 0) + deliveries k v.order := by
    have hfor : OVal.deliveredFor k ⟨o, d, w⟩ { vO with oCarrierId := oCarrierId } ↔
        (⟨vO.oCId, d, w⟩ : CKey) = k := by
      have hne : oCarrierId ≠ 0 := by omega
      obtain ⟨c', d', w'⟩ := k
      simp only [OVal.deliveredFor, CKey.mk.injEq, ho, hne, ne_eq, not_false_eq_true, and_true]
      tauto
    refine (deliveries_insert hvO hc).trans ?_
    simp only [hfor]
  refine ⟨fun k hk => ?_, fun k hk => (h.dated k hk).trans (by simp [Accounts.deliver]), fun k u hu => ?_⟩
  · obtain ⟨u, hu, h₁, h₂, h₃⟩ := h.customers k hk
    by_cases hkk : (⟨vO.oCId, d, w⟩ : CKey) = k
    · subst hkk
      obtain rfl := hvC u hu
      refine ⟨_, Table.get_insert_self, h₁, h₂, ?_⟩
      rw [hcount, if_pos rfl]
      simp only [CVal.delivered, u32_succ, h₃]
      omega
    · refine ⟨u, (Table.get_insert_ne hkk).trans hu, h₁, h₂, ?_⟩
      rw [hcount, if_neg hkk, zero_add, h₃]
  · have hu : (v.order.insert ⟨o, d, w⟩ { vO with oCarrierId := oCarrierId }).get k = some u := hu
    rw [Table.get_insert] at hu
    split_ifs at hu with hk
    · cases hu
      exact h.buyers _ vO hvO
    · exact h.buyers k u hu

/-- The loop over an order's lines reads the clock once for each. -/
theorem posts_deliverLines (olTotal : ℚ) (kvs : List (OLKey × OLVal)) :
    Meets (accountOps q) (fun _ v' => v' = { v with calls := v.calls + kvs.length })
      (deliverLines olTotal kvs) v := by
  induction kvs generalizing olTotal v with
  | nil => exact rfl
  | cons e kvs ih =>
    refine posts_issue fun ts _ => posts_issue fun _ _ => (ih _).mono ?_
    rintro _ v' rfl
    simp only [Accounts.next, List.length_cons, Nat.add_assoc, Nat.add_comm 1]

theorem accounts_deliverDistrict {x : Delivery} {d oCarrierId : ℕ} (hd : args.IsDistrict w d)
    (hcarrier : 1 ≤ oCarrierId) (h : AccountsInv args v) :
    Posts (.delivery w x) (AccountsInv args) (deliverDistrict w oCarrierId d) v := by
  have hmake (n : ℕ) : OKey.make w d n = ⟨n % 2 ^ 32, d, w⟩ := by
    rw [← make_oKey hd (Nat.mod_lt n (by norm_num))]
    simp [OKey.make]
  refine posts_issue fun o _ => posts_issue fun vNO _ => ?_
  split_ifs
  swap
  · exact h
  refine posts_issue fun vO hvO => ?_
  by_cases hfound : vO.1 = true
  swap
  · rw [if_neg hfound]
    exact h
  rw [if_pos hfound]
  have hvO := hvO hfound
  refine Meets.bind (posts_issue fun _ _ => posts_issue fun _ hold => posts_issue fun kvs _ => ?_)
  refine Meets.bind ((posts_deliverLines 0 kvs).mono ?_)
  rintro olTotal v' rfl
  refine posts_issue fun vC hvC => posts_issue fun _ _ => ?_
  intro hb
  change 3001 + (v.calls + kvs.length) < 2 ^ 32 at hb
  have hok := h (by omega)
  obtain ⟨ho, old, hgot, hc, -⟩ := hold (show 3001 + v.calls < 2 ^ 32 by omega)
  obtain rfl : vO.2 = old := Option.some.inj (hvO.symm.trans hgot)
  have hbuyer := hok.buyers _ _ hvO
  rw [hmake] at hvO ho
  have hkC : CKey.make vO.2.oCId d w = ⟨vO.2.oCId, d, w⟩ :=
    make_cKey hd (lt_of_le_of_lt hbuyer.2 (by norm_num [numCustomerPerDistrict]))
  have := hok.deliver vC.2 olTotal kvs.length hcarrier hvO hc ho fun u hu => by rw [hvC u (by rw [hkC]; exact hu)]
  rw [← hmake, ← hkC] at this
  exact this

theorem accounts_deliverDistricts {x : Delivery} {oCarrierId : ℕ} (hcarrier : 1 ≤ oCarrierId) (ds : List ℕ)
    (hds : ∀ d ∈ ds, args.IsDistrict w d) (h : AccountsInv args v) :
    Posts (.delivery w x) (AccountsInv args) (deliverDistricts w oCarrierId ds) v := by
  induction ds generalizing v with
  | nil => exact h
  | cons d ds ih =>
    refine Meets.bind ((accounts_deliverDistrict (hds d List.mem_cons_self) hcarrier h).mono ?_)
    intro goOn v' h'
    split_ifs
    · exact ih (fun d' hd' => hds d' (List.mem_cons_of_mem _ hd')) h'
    · exact h'

theorem posts_countLowStock (post : Accounts → Prop) (threshold fakeSize : ℕ) (kvs : List (OLKey × OLVal))
    (h : post v) : Posts q post (countLowStock w threshold fakeSize kvs) v := by
  induction kvs generalizing fakeSize with
  | nil => exact h
  | cons e kvs ih => exact posts_issue fun _ _ => ih _

/-- **Every transaction keeps the accounts in order.** -/
theorem accounts_txn (hq : q.Ok args) (h : AccountsInv args v) :
    Posts q (AccountsInv args) (txn args q) v := by
  obtain ⟨hw, hq⟩ := hq
  cases q with
  | newOrder w x => exact accounts_txnNewOrder hq h
  | payment w x => exact accounts_txnPayment hq h
  | delivery w x =>
    refine accounts_deliverDistricts hq.carrier.1 _ (fun d hd => ⟨hw, ?_⟩) h
    have := List.mem_range'_1.mp hd
    omega
  | orderStatus w x => exact posts_issue fun _ _ => posts_issue fun _ _ => h
  | stockLevel w x =>
    exact posts_issue fun _ _ => posts_issue fun kvs _ => Meets.bind
      ((posts_countLowStock (AccountsInv args) _ _ kvs h).mono fun _ _ h => h)

end

/-! ### The start -/

/-- The accounts at `s`. -/
def accountsAt (s : World (Fin 1)) : Accounts := ⟨s.db .customer, s.db .history, s.db .order, s.calls 0⟩

section
variable {args : Args}

theorem accountsOk_start : AccountsOk args (accountsAt (World.start args)) := by
  have hL := loaded_prepareKvs args
  have hpaid {A : Type} [AddCommMonoid A] (f : HVal → A) {a : A} {k : CKey} (hk : args.IsCustomer k)
      (hf : ∀ vH : HVal, vH.hAmount = 10 → f vH = a) :
      paymentSum f k (prepareKvs args .history) = a := by
    obtain ⟨hd, hc⟩ := hk
    obtain ⟨vH, hvH⟩ := (hL.history ⟨k.cId, k.cDId, k.cWId, k.cId, k.cDId, k.cWId⟩).1 ⟨hd, rfl, rfl, rfl, hc⟩
    have hten := ((hL.history _).2 vH hvH).2
    refine (Table.total_eq_nsmul a
      [(⟨k.cId, k.cDId, k.cWId, k.cId, k.cDId, k.cWId⟩ : HKey)] (List.nodup_singleton _) ?_ ?_).trans ?_
    · intro kH hkH
      rw [List.mem_singleton] at hkH
      subst hkH
      exact ⟨vH, hvH, by simp [hf vH hten]⟩
    · intro kH vH' hvH' hne
      rw [if_neg]
      rintro ⟨h₁, h₂, h₃⟩
      obtain ⟨⟨-, h₄, h₅, h₆, -⟩, -⟩ := (hL.history kH).2 vH' hvH'
      refine hne (List.mem_singleton.mpr ?_)
      cases kH
      simp_all
    · simp
  refine ⟨fun k hk => ?_, fun k hk => ?_, fun k vO hvO => ?_⟩
  · obtain ⟨vC, hvC⟩ := (hL.customer k).1 hk
    obtain ⟨-, h₁, h₂, h₃⟩ := (hL.customer k).2 vC hvC
    refine ⟨vC, hvC, ?_, ?_, ?_⟩
    · rw [h₂]
      exact (hpaid (fun _ => 1) hk fun _ _ => rfl).symm
    · rw [h₁]
      exact (hpaid HVal.hAmount hk fun _ h => h).symm
    · have : deliveries k (prepareKvs args .order) = 0 := by
        refine (Table.total_eq_nsmul 0 [] List.nodup_nil (by simp) ?_).trans (zero_nsmul _)
        intro kO vO hvO _
        rw [if_neg]
        rintro ⟨-, -, -, h₄, h₅⟩
        exact h₅ (((hL.order kO).2 vO hvO).2.2.1.mpr h₄)
      rw [h₃]
      exact (congrArg (· % 2 ^ 32) this).symm
  · have := hpaid (fun _ => 1) hk fun _ _ => rfl
    exact this.le.trans (by omega)
  · have hvO : (prepareKvs args .order).get k = some vO := hvO
    obtain ⟨⟨-, h₁, h₂⟩, hcid, -⟩ := (hL.order k).2 vO hvO
    rw [hcid]
    exact cIds_mem ⟨h₁, h₂⟩

end

/-! ### The only worker -/

section
variable {args : Args} {W : Workers (Fin 1)} {q : Request} {s : World (Fin 1)} {j : Fin 1}

theorem accounts_exec (o : Op) (junk : Junk) : accountsAt (s.exec j q junk o).2 = (accountsAt s).next o := by
  obtain rfl := Subsingleton.elim j 0
  cases o with
  | insert t k x => cases t <;> rfl
  | remove t k => cases t <;> rfl
  | _ => simp [accountsAt, World.exec, World.record, Accounts.next]

theorem accounts_gives (o : Op) (junk : Junk) {K : OLKey → Prop} (hf : Footprint q.warehouseId K o)
    (hfind : (viewAt q.warehouseId (s.calls j) s).finds q o) :
    (accountsAt s).gives q o (s.exec j q junk o).1 := by
  obtain rfl := Subsingleton.elim j 0
  cases o with
  | get t k =>
    cases t <;> try trivial
    · intro x hx
      change (s.db .customer).get k = some x at hx
      simp only [World.exec, World.fetch, World.record, hx]
    · simp only [Accounts.gives, accountsAt, World.exec, World.fetch, World.record]
      cases (s.db .order).get k <;> simp
  | insert t k x =>
    cases t <;> try trivial
    · intro hb
      have := hfind hb
      rwa [viewAt_get hf] at this
    · intro hb
      change 3001 + s.calls 0 < 2 ^ 32 at hb
      obtain ⟨hdrawn, hfind⟩ := hfind
      have hb' : 3001 + (viewAt q.warehouseId (s.calls 0) s).placed k.oDId < 2 ^ 32 :=
        lt_of_le_of_lt (Nat.add_le_add_left hdrawn 3001) hb
      rw [viewAt_get hf] at hfind
      cases q with
      | newOrder w x => exact hfind hb'
      | _ => exact ⟨hfind.1 hb', hfind.2⟩
  | remove t k => cases t <;> trivial
  | _ => trivial

/-- The only worker keeps the accounts in order. -/
def accountsDiscipline (args : Args) (W : Workers (Fin 1)) :
    Discipline (machine args W) (World.start args) fun _ : Request => () where
  env _ _ := Eq
  pre := (books args).pre
  inv _ s := AccountsInv args (accountsAt s)
  refl _ _ _ := rfl
  trans _ _ _ _ _ := Eq.trans
  exclusive i j _ _ _ _ _ := Subsingleton.elim i j
  stable _ _ _ _ _ _ _ _ hne := absurd rfl hne
  frame j _ _ _ _ _ _ i _ hij := absurd (Subsingleton.elim i j) hij
  start _ _ := accountsOk_start
  sound c j q hr hmay free hinv := by
    have hidle := ((books args).discipline W).idle hr (w := q.warehouseId)
      fun i q' p hi => absurd rfl (free i q' p hi)
    have quiet : ∀ s s' : World (Fin 1), s = s' → Ledger.env j q.warehouseId s s' := by
      rintro s _ rfl
      exact ⟨rfl, rfl, fun _ h => h⟩
    have hsafe := ((books args).safe W hmay.2 hmay.1 hidle).quiet quiet
    have h := Meets.safe (A := accountOps q) (fun s v => v = accountsAt s) (fun s s' v hv (e : s = s') => e ▸ hv)
      ?_ hsafe (accounts_txn hmay.2 hinv) rfl
    · refine h.mono (fun o s h => h.1) ?_
      rintro _ s ⟨-, v, rfl, h⟩
      exact h
    · rintro o junk s v rfl ⟨⟨K, -, hf⟩, hfind⟩ -
      exact ⟨accounts_gives o junk hf hfind, (accounts_exec o junk).symm⟩

end

/-! ### The customers' counters -/

/-- Order ids have 32 bits, so that a customer's deliveries do too. -/
theorem deliveries_lt {k : CKey} {t : Table OKey OVal} (h : ∀ kO vO, t.get kO = some vO → kO.oId < 2 ^ 32) :
    deliveries k t < 2 ^ 32 := by
  have hcount : deliveries k t ≤ (Finset.Ico 2101 (2 ^ 32)).card := by
    refine Table.count_le OKey.oId _ (fun kO vO hvO hp => ?_) ?_
    · exact Finset.mem_Ico.mpr ⟨hp.2.2.2.1, h kO vO hvO⟩
    · rintro ⟨o, d, w⟩ vO ⟨o', d', w'⟩ vO' - - ⟨hw, hd, -⟩ ⟨hw', hd', -⟩ ho
      simp only [OKey.mk.injEq]
      exact ⟨ho, hd.trans hd'.symm, hw.trans hw'.symm⟩
  rw [Nat.card_Ico] at hcount
  omega

variable {args : Args} {W : Workers (Fin 1)} {c : Threads (Fin 1)}

/-- **Customers**: with one worker and the clock not wrapped, whenever the worker is idle
a customer's payments are counted and added up as the history has them, and his
deliveries as the orders have them. -/
theorem customers_ledger (hr : Run args W c) (hb : c.state.calls 0 < 2 ^ 32 - 3001) (idle : c.thread 0 = none)
    {k : CKey} (hk : args.IsCustomer k) :
    ∃ vC, (c.state.db .customer).get k = some vC ∧
      vC.cPaymentCnt = paymentSum (fun _ => 1) k (c.state.db .history) ∧
      vC.cYtdPayment = paymentSum HVal.hAmount k (c.state.db .history) ∧
      vC.cDeliveryCnt = deliveries k (c.state.db .order) := by
  have h : AccountsInv args (accountsAt c.state) := by
    refine (accountsDiscipline args W).idle hr (w := ()) fun j q p hj => ?_
    rw [Subsingleton.elim j 0, idle] at hj
    cases hj
  obtain ⟨vC, hvC, h₁, h₂, h₃⟩ := (h (show 3001 + c.state.calls 0 < 2 ^ 32 by omega)).customers k hk
  refine ⟨vC, hvC, h₁, h₂, h₃.trans (Nat.mod_eq_of_lt (deliveries_lt fun kO vO hvO => ?_))⟩
  have hidle : OwnerIdle W c kO.oWId := fun j _ => by rw [Subsingleton.elim j 0, idle]
  obtain ⟨n, -, hbooks⟩ := (books args).idle hr hidle
  exact (hbooks.orders kO.oDId).width kO.oId vO ((viewAt_get (by simp [Tab.own])).trans hvO)

/-- The customer who has ordered and paid. -/
theorem customers_ledger_paid : ∃ vC, (paid.state.db .customer).get ⟨1, 1, 1⟩ = some vC ∧
    vC.cPaymentCnt = paymentSum (fun _ => 1) ⟨1, 1, 1⟩ (paid.state.db .history) ∧
    vC.cYtdPayment = paymentSum HVal.hAmount ⟨1, 1, 1⟩ (paid.state.db .history) ∧
    vC.cDeliveryCnt = deliveries ⟨1, 1, 1⟩ (paid.state.db .order) :=
  customers_ledger run_paid ((calls_paid 0).trans_lt (by norm_num)) (Config.set_thread_self ..)
    ⟨isDistrict_one, by simp [numCustomerPerDistrict]⟩

end SidleBaselines.Tpcc
