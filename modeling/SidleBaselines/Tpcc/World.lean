import SidleBaselines.Concurrency.Region
import SidleBaselines.Tpcc.Loaded
import SidleBaselines.Tpcc.Txn

/-!
# Runs of the benchmark

The state the worker threads share, what an operation does to it, and the machine
whose threads run transactions on their own warehouses, interleaved one operation
at a time. A run starts from the loaded tables.
-/

namespace SidleBaselines.Tpcc

open SidleBaselines.Data SidleBaselines.Concurrency

variable {J : Type} [DecidableEq J]

/-! ### The state -/

/-- An operation that has been carried out, and for what. -/
structure Event (J : Type) where
  /-- The thread. -/
  thread : J
  /-- The transaction. -/
  request : Request
  /-- The operation. -/
  op : Op

/-- The tables, the side arrays, and how often each thread has read its clock, with a
record of the operations so far, newest first. -/
@[ext]
structure World (J : Type) where
  /-- The tables. -/
  db : Db
  /-- `pending_new_order_per_dis`. -/
  pending : ℕ → ℕ → ℕ
  /-- `latest_order_id_per_customer`. -/
  latest : ℕ → ℕ → ℕ → ℕ
  /-- The calls of `GetCurrentTimeMillis`. -/
  calls : J → ℕ
  /-- The operations so far. -/
  trace : List (Event J)

/-- What a row variable holds that nothing was read into. -/
abbrev Junk := (t : Tab) → t.Val

/-- The clock of a thread that has read it `n` times: `tl_hack`, from `3001` on. -/
def clock (n : ℕ) : ℕ := (3001 + n) % 2 ^ 32

namespace World

/-- The state with one operation more on record. -/
def record (s : World J) (j : J) (q : Request) (o : Op) : World J := { s with trace := ⟨j, q, o⟩ :: s.trace }

/-- What a `get` gives: the row, or the row variable as it was. -/
def fetch (s : World J) (junk : Junk) (t : Tab) (k : t.Key) : Bool × t.Val :=
  match (s.db t).get k with
  | some v => (true, v)
  | none => (false, junk t)

/-- What an operation returns and does. -/
def exec (j : J) (q : Request) (junk : Junk) (o : Op) (s : World J) : o.Res × World J :=
  let s := s.record j q o
  match o with
  | .get t k => (s.fetch junk t k, s)
  | .insert t k v => (true, { s with db := Function.update s.db t ((s.db t).insert k v) })
  | .remove t k => (((s.db t).get k).isSome, { s with db := Function.update s.db t ((s.db t).remove k) })
  | .scan t k n => ((s.db t).scan k n, s)
  | .getCurrentTimeMillis =>
    (clock (s.calls j), { s with calls := Function.update s.calls j (s.calls j + 1) })
  | .pending w d => (s.pending w d, s)
  | .setPending w d o =>
    ((), { s with pending := Function.update s.pending w (Function.update (s.pending w) d o) })
  | .latest w d c => (s.latest w d c, s)
  | .setLatest w d c o =>
    ((), { s with latest := Function.update s.latest w
                    (Function.update (s.latest w) d (Function.update (s.latest w d) c o)) })

/-- A run's first state: the loaded tables, and `3000` everywhere in the side arrays. -/
def start (args : Args) : World J :=
  { db := prepareKvs args, pending := fun _ _ => 3000, latest := fun _ _ _ => 3000, calls := fun _ => 0,
    trace := [] }

end World

/-! ### Counting operations -/

/-- The operation is `txn_new_order`'s insertion of a new order in district `d` of `w`. -/
def Op.places (w d : ℕ) : Op → Bool
  | .insert .newOrder k _ => k.noWId = w ∧ k.noDId = d
  | _ => false

/-- How many orders have been placed in district `d` of `w` since the start. -/
def World.placed (s : World J) (w d : ℕ) : ℕ := s.trace.countP fun e => e.op.places w d

/-- The operation is `txn_new_order`'s note that customer `c` of district `d` of `w` has
ordered. -/
def Op.buys (w d c : ℕ) : Op → Bool
  | .setLatest w' d' c' _ => w' = w ∧ d' = d ∧ c' = c
  | _ => false

/-- How many orders customer `c` of district `d` of `w` has placed since the start. -/
def World.bought (s : World J) (w d c : ℕ) : ℕ := s.trace.countP fun e => e.op.buys w d c

section
variable {s : World J} {j : J} {q : Request} {junk : Junk} {o : Op}

@[simp] theorem trace_exec : (s.exec j q junk o).2.trace = ⟨j, q, o⟩ :: s.trace := by cases o <;> rfl

theorem placed_exec (w d : ℕ) :
    (s.exec j q junk o).2.placed w d = s.placed w d + if o.places w d then 1 else 0 := by
  rw [World.placed, trace_exec, List.countP_cons, World.placed]

theorem bought_exec (w d c : ℕ) :
    (s.exec j q junk o).2.bought w d c = s.bought w d c + if o.buys w d c then 1 else 0 := by
  rw [World.bought, trace_exec, List.countP_cons, World.bought]

theorem calls_exec_ne {i : J} (h : i ≠ j) : (s.exec j q junk o).2.calls i = s.calls i := by
  cases o <;> simp [World.exec, World.record, h]

theorem calls_exec_le (i : J) : s.calls i ≤ (s.exec j q junk o).2.calls i := by
  by_cases h : i = j
  · subst h; cases o <;> simp [World.exec, World.record]
  · rw [calls_exec_ne h]

theorem calls_exec_succ (i : J) : (s.exec j q junk o).2.calls i ≤ s.calls i + 1 := by
  by_cases h : i = j
  · subst h; cases o <;> simp [World.exec, World.record]
  · rw [calls_exec_ne h]
    exact Nat.le_succ _

end

/-! ### The machine -/

/-- Which worker runs transactions on which warehouses. -/
structure Workers (J : Type) where
  /-- Worker `j` runs transactions on warehouse `w`. -/
  owns : J → ℕ → Prop
  /-- No warehouse has two workers. -/
  disjoint : ∀ i j w, owns i w → owns j w → i = j

/-- The workers of `run_tpcc`, each with its range of warehouses. -/
def Workers.run (args : Args) (fgN : ℕ) : Workers (Fin fgN) where
  owns i w := (workerRange args fgN i).1 ≤ w ∧ w < (workerRange args fgN i).2
  disjoint _ _ _ hi hj := Fin.ext (workerRange_disjoint fgN hi hj)

/-- The worker threads: each runs transactions on its warehouses. -/
def machine (args : Args) (W : Workers J) : Machine J Request Junk Op Op.Res (World J) where
  exec := World.exec
  body := txn args
  may j q := W.owns j q.warehouseId ∧ q.Ok args

/-- The configurations of the threads. -/
abbrev Threads (J : Type) := Config J Request Op Op.Res (World J)

/-- The configurations a run gets to from the loaded tables. -/
abbrev Run (args : Args) (W : Workers J) (c : Threads J) : Prop :=
  Reachable (machine args W) (World.start args) c

/-- No transaction is in flight on `w`. -/
def Idle (c : Threads J) (w : ℕ) : Prop :=
  ∀ j q p, c.thread j = some (q, p) → q.warehouseId ≠ w

/-- The owner of `w` has no transaction in flight. -/
def OwnerIdle (W : Workers J) (c : Threads J) (w : ℕ) : Prop := ∀ j, W.owns j w → c.thread j = none

variable {args : Args} {W : Workers J} {c : Threads J}

theorem OwnerIdle.idle {w : ℕ} (hr : Run args W c) (h : OwnerIdle W c w) : Idle c w := by
  intro j q p hp he
  have hmay : W.owns j q.warehouseId := (hr.may hp).1
  rw [h j (he ▸ hmay)] at hp
  cases hp

/-! ### Runs of whole transactions -/

/-- A count of operations on record only grows. -/
theorem count_run_le {α : Type} {j : J} {q : Request} {junk : Junk} (f : Event J → Bool) (p : Txn α)
    (s : World J) : s.trace.countP f ≤ (p.run (World.exec j q junk) s).2.trace.countP f := by
  induction p generalizing s with
  | ret a => exact le_rfl
  | op o k ih =>
    refine le_trans ?_ (ih _ _)
    rw [trace_exec, List.countP_cons]
    exact Nat.le_add_right _ _

theorem within_newOrderLines {w d : ℕ} {kD : DKey} {vD : DVal} {kNO : NOKey} {kO : OKey} (l : ℕ)
    (items : List OrderItem) :
    Prog.Within (4 * items.length) (newOrderLines w d kD vD kNO kO l items) := by
  induction items generalizing l with
  | nil => exact .ret _ _
  | cons item items ih =>
    rw [newOrderLines, List.length_cons, Nat.mul_succ]
    refine .op _ fun vI => ?_
    change Prog.Within _ (if vI.1 then _ else _)
    split
    · exact .op _ fun _ => .op _ fun _ => .op _ fun _ => ih _
    · exact .op _ fun _ => .op _ fun _ => .op _ fun _ => .ret _ _

/-- `txn_new_order` is over after nine operations and four for each line. -/
theorem within_txnNewOrder (w : ℕ) (x : NewOrder) :
    Prog.Within (4 * x.items.length + 9) (txnNewOrder w x) :=
  .op _ fun _ => .op _ fun _ => .op _ fun _ => .op _ fun _ => .op _ fun _ => .op _ fun _ => .op _ fun _ =>
    .op _ fun _ => .op _ fun _ => within_newOrderLines _ _

theorem within_txnPayment (w : ℕ) (x : Payment) : Prog.Within 8 (txnPayment w x) :=
  .op _ fun _ => .op _ fun _ => .op _ fun _ => .op _ fun _ => .op _ fun _ => .op _ fun _ => .op _ fun _ =>
    .op _ fun _ => .ret _ _

section
variable {α : Type} {j : J} {q : Request} {junk : Junk} {s : World J}

/-- A row that is there is read. -/
theorem exec_get {t : Tab} {k : t.Key} {x : t.Val} (h : (s.db t).get k = some x) :
    World.exec j q junk (.get t k) s = ((true, x), s.record j q (.get t k)) := by
  simp only [World.exec, World.fetch, World.record, h]

theorem leads_get {t : Tab} {k : t.Key} {x : t.Val} {f : Bool × t.Val → Txn α} {y : Txn α × World J}
    (h : (s.db t).get k = some x)
    (hl : Prog.Leads (World.exec j q junk) (f (true, x), s.record j q (.get t k)) y) :
    Prog.Leads (World.exec j q junk) (get t k >>= f, s) y :=
  .op _ _ (by rw [exec_get h]; exact hl)

theorem run_get {t : Tab} {k : t.Key} {x : t.Val} {f : Bool × t.Val → Txn α}
    (h : (s.db t).get k = some x) : (get t k >>= f).run (World.exec j q junk) s =
      (f (true, x)).run (World.exec j q junk) (s.record j q (.get t k)) :=
  (leads_get h (.refl _)).run_eq

/-- `txn_new_order` comes to its loop, with an id one more than the district's counter,
having placed no line. -/
theorem leads_txnNewOrder (j : J) (q : Request) (junk : Junk) (s : World J) (w : ℕ) (x : NewOrder) :
    let o := u32 ((s.fetch junk .district (DKey.make w x.districtId)).2.dNextOId + 1)
    ∃ (s₁ : World J) (vD : DVal), s₁.db .item = s.db .item ∧ s₁.db .stock = s.db .stock ∧
      (∀ f : Event J → ℕ, (∀ e, (∀ k v, e.op ≠ .insert .orderLine k v) → f e = 0) →
        (s₁.trace.map f).sum = (s.trace.map f).sum) ∧
      Prog.Leads (World.exec j q junk) (txnNewOrder w x, s)
        (newOrderLines w x.districtId (DKey.make w x.districtId) vD (NOKey.make w x.districtId o)
          (OKey.make w x.districtId (NOKey.make w x.districtId o).noOId) 1 x.items, s₁) := by
  refine ⟨_, _, ?_, ?_, ?_, .op _ _ (.op _ _ (.op _ _ (.op _ _ (.op _ _ (.op _ _ (.op _ _ (.op _ _ (.op _ _
    (.refl _)))))))))⟩
  · rfl
  · rfl
  · intro f hf
    simp [trace_exec, hf]

end

/-- Two warehouses, and a shuffle that leaves everything where it is. -/
def twoWarehouses : Args where
  warehouseNum := 2
  numDistrictPerWarehouse := 10
  warehouses := by decide
  districts := by decide
  shuffle := id
  shuffle_perm _ := .refl _

/-- Row variables with zeroes in them. -/
def blank : Junk
  | .warehouse => default
  | .district => default
  | .customer => default
  | .history => default
  | .item => default
  | .stock => default
  | .order => default
  | .newOrder => default
  | .orderLine => default

/-- A lone worker has number 0. -/
scoped instance neZero_one : NeZero 1 := ⟨Nat.one_ne_zero⟩

/-- The only worker of the two warehouses. -/
def oneWorker : Workers (Fin 1) := Workers.run twoWarehouses 1

theorem oneWorker_owns {w : ℕ} (h : 1 ≤ w ∧ w ≤ 2) : oneWorker.owns 0 w := by
  simp only [oneWorker, Workers.run, workerRange, twoWarehouses]
  simp
  omega

/-- The configuration a transaction of the only worker leaves. -/
def answered (c : Threads (Fin 1)) (q : Request) : Threads (Fin 1) :=
  c.answer (machine twoWarehouses oneWorker) 0 q blank

/-- The loaded tables, and no transaction in flight. -/
def loaded : Threads (Fin 1) := Config.init (World.start twoWarehouses)

theorem run_loaded : Run twoWarehouses oneWorker loaded := Reachable.init

theorem idle_loaded {w : ℕ} : OwnerIdle oneWorker loaded w := fun _ _ => rfl

theorem idle_answered {c : Threads (Fin 1)} {q : Request} {w : ℕ} : OwnerIdle oneWorker (answered c q) w :=
  fun j _ => by rw [Subsingleton.elim j 0]; exact Config.set_thread_self ..

theorem isDistrict_one : twoWarehouses.IsDistrict 1 1 := by
  simp [Args.IsDistrict, Args.IsWarehouse, twoWarehouses]

/-- An order at `w` of `n` lines, for customer 1 of district 1, of item 1 from warehouse 1. -/
def orderOf (w n : ℕ) : NewOrder where
  districtId := 1
  customerId := 1
  items := List.replicate n ⟨1, 1, 1⟩
  allLocal := w = 1

theorem orderOf_ok {w n : ℕ} (hw : 1 ≤ w ∧ w ≤ 2) (h : 5 ≤ n ∧ n ≤ 15) :
    (Request.newOrder w (orderOf w n)).Ok twoWarehouses := by
  refine ⟨by simpa [Request.warehouseId, twoWarehouses] using hw, ⟨by simp [orderOf, twoWarehouses],
    by simp [orderOf, numCustomerPerDistrict], by simpa [orderOf] using h, fun item h => ?_⟩⟩
  obtain rfl := List.eq_of_mem_replicate h
  exact ⟨by simp [numItem], by simp [twoWarehouses], by simp⟩

/-- A payment of 5 by customer 1 of district 1, at home. -/
def paymentOne : Payment where
  districtId := 1
  customerDistrictId := 1
  customerWarehouseId := 1
  customerId := 1
  paymentAmount := 5

theorem paymentOne_ok : (Request.payment 1 paymentOne).Ok twoWarehouses := by
  refine ⟨by simp [Request.warehouseId, twoWarehouses], ?_⟩
  constructor <;> simp [paymentOne, twoWarehouses, numCustomerPerDistrict]
  norm_num

theorem delivery_ok : (Request.delivery 1 ⟨1⟩).Ok twoWarehouses :=
  ⟨by simp [Request.warehouseId, twoWarehouses], ⟨by simp [twoWarehouses]⟩⟩

theorem run_answered {c : Threads (Fin 1)} {q : Request} (h : Run twoWarehouses oneWorker c)
    (idle : c.thread 0 = none) (hq : q.Ok twoWarehouses) :
    Run twoWarehouses oneWorker (answered c q) :=
  h.answer blank idle ⟨oneWorker_owns hq.1, hq⟩

/-- After an order of five lines and a payment. -/
def paid : Threads (Fin 1) := answered (answered loaded (.newOrder 1 (orderOf 1 5))) (.payment 1 paymentOne)

theorem run_paid : Run twoWarehouses oneWorker paid :=
  run_answered (run_answered run_loaded rfl (orderOf_ok (by decide) (by decide)))
    (Config.set_thread_self ..) paymentOne_ok

/-- And after a delivery. -/
def delivered : Threads (Fin 1) := answered paid (.delivery 1 ⟨1⟩)

theorem run_delivered : Run twoWarehouses oneWorker delivered :=
  run_answered run_paid (Config.set_thread_self ..) delivery_ok

section
variable {μ : World (Fin 1) → ℕ} (step : ∀ q o s, μ (World.exec 0 q blank o s).2 ≤ μ s + 1)
include step

theorem measure_answered {c : Threads (Fin 1)} {q : Request} {m : ℕ}
    (h : Prog.Within m (txn twoWarehouses q)) : μ (answered c q).state ≤ μ c.state + m :=
  h.run_le (step q) c.state

/-- Forty operations are enough for both. -/
theorem measure_paid : μ paid.state ≤ μ loaded.state + 40 := by
  have horder := measure_answered (c := loaded) (q := .newOrder 1 (orderOf 1 5)) step (within_txnNewOrder _ _)
  have hpayment := measure_answered (c := answered loaded (.newOrder 1 (orderOf 1 5)))
    (q := .payment 1 paymentOne) step (within_txnPayment _ _)
  have hlines : (orderOf 1 5).items.length = 5 := List.length_replicate
  rw [hlines] at horder
  rw [paid]
  omega

end

theorem placed_paid (w d : ℕ) : paid.state.placed w d ≤ 40 := by
  have h := measure_paid (μ := fun s => s.placed w d) fun q o s => by
    rw [placed_exec]
    split <;> omega
  simpa [loaded, Config.init, World.placed, World.start] using h

theorem calls_paid (j : Fin 1) : paid.state.calls j ≤ 40 := by
  have h := measure_paid (μ := fun s => s.calls j) fun q o s => calls_exec_succ j
  simpa [loaded, Config.init, World.start] using h

end SidleBaselines.Tpcc
