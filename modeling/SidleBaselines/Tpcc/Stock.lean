import SidleBaselines.Concurrency.Phases
import SidleBaselines.Tpcc.World

/-!
# Stock

An order line for another warehouse's item makes a worker read and write back a stock
row that the other warehouse's worker reads and writes back too. A `Phase` is where in
this a worker is.

## What is proved

* `stock_undisturbed` — in a run in which no two workers are ever both between the
  reading and the writing of one stock row, whenever no transaction is in flight a stock
  row counts the order lines placed for it.
* `stock_lost` — in another run an update is lost.
-/

namespace SidleBaselines.Tpcc

open SidleBaselines.Data SidleBaselines.Concurrency

variable {J : Type} [DecidableEq J]

/-! ### Phases -/

/-- Where a worker is with a stock row. -/
inductive Phase where
  /-- It has nothing to do with one. -/
  | free
  /-- It has read row `k` and found `v`. -/
  | got (k : SKey) (v : Bool × SVal)
  /-- It has written row `k`, with `quantity` more ordered, but not the order line. -/
  | owes (k : SKey) (quantity : ℚ)

namespace Phase

/-- How many lines of row `k` are still to be written. -/
def lines (k : SKey) : Phase → ℕ
  | owes k' _ => if k' = k then 1 else 0
  | _ => 0

/-- What is ordered of row `k` in them. -/
def quantity (k : SKey) : Phase → ℚ
  | owes k' x => if k' = k then x else 0
  | _ => 0

end Phase

/-- `k` is a stock row's key. -/
def Args.IsStock (args : Args) (k : SKey) : Prop := args.IsWarehouse k.sWId ∧ 1 ≤ k.sIId ∧ k.sIId ≤ numItem

/-- The transaction is `txn_new_order`. -/
def Request.IsNewOrder : Request → Prop
  | newOrder _ _ => True
  | _ => False

instance : DecidablePred Request.IsNewOrder
  | .newOrder _ _ => .isTrue ⟨⟩
  | .payment _ _ => .isFalse id
  | .delivery _ _ => .isFalse id
  | .orderStatus _ _ => .isFalse id
  | .stockLevel _ _ => .isFalse id

/-- What a transaction does with stock rows and order lines, phase by phase: only
`txn_new_order` writes a stock row, just after it has read it, and then a line for it. -/
def stockOps (args : Args) (q : Request) : Abstract Op Op.Res Phase where
  pre
    | .free, .get .stock k => q.IsNewOrder → args.IsStock k
    | .free, .insert .stock _ _ => False
    | .free, .remove .stock _ => False
    | .free, .insert .orderLine _ _ => ¬ q.IsNewOrder
    | .free, _ => True
    | .got k v, .insert .stock k' x => k' = k ∧ x.sOrderCnt = u32 (v.2.sOrderCnt + 1)
    | .got _ _, _ => False
    | .owes k x, .insert .orderLine _ v =>
      q.IsNewOrder ∧ (⟨v.olIId, v.olSupplyWId⟩ : SKey) = k ∧ (v.olQuantity : ℚ) = x
    | .owes _ _, _ => False
  gives _ _ _ := True
  next
    | .free, .get .stock k, r => if q.IsNewOrder then .got k r else .free
    | .got k v, .insert .stock _ x, _ => .owes k (x.sYtd - v.2.sYtd)
    | .owes _ _, _, _ => .free
    | φ, _, _ => φ

section
variable {args : Args} {q : Request} {w : ℕ} {α : Type}

/-- The program begins and ends having nothing to do with stock rows. -/
abbrev Tidy (args : Args) (q : Request) {α : Type} (p : Txn α) : Prop :=
  Meets (stockOps args q) (fun _ φ => φ = .free) p .free

theorem tidy_pure (a : α) : Tidy args q (pure a : Txn α) := rfl

theorem Tidy.bind {β : Type} {p : Txn β} {f : β → Txn α} (hp : Tidy args q p) (hf : ∀ b, Tidy args q (f b)) :
    Tidy args q (p >>= f) :=
  Meets.bind (Meets.mono (fun b φ h => by subst h; exact hf b) hp)

/-- An operation on neither. -/
theorem tidy_issue {o : Op} {f : o.Res → Txn α} (hpre : (stockOps args q).pre .free o)
    (hnext : ∀ r, (stockOps args q).next .free o r = .free) (hf : ∀ r, Tidy args q (f r)) :
    Tidy args q (Prog.issue o >>= f) :=
  .issue hpre fun r _ => by rw [hnext]; exact hf r

/-- An operation on another table. -/
theorem tidy_get {t : Tab} {k : t.Key} {f : Bool × t.Val → Txn α} (ht : t ≠ .stock)
    (hf : ∀ r, Tidy args q (f r)) : Tidy args q (get t k >>= f) := by
  refine tidy_issue ?_ (fun r => ?_) hf <;> cases t <;> trivial

theorem tidy_insert {t : Tab} {k : t.Key} {x : t.Val} {f : Bool → Txn α} (ht : t ≠ .stock ∧ t ≠ .orderLine)
    (hf : ∀ r, Tidy args q (f r)) : Tidy args q (insert t k x >>= f) := by
  obtain ⟨h₁, h₂⟩ := ht
  refine tidy_issue ?_ (fun r => ?_) hf <;> cases t <;> trivial

theorem tidy_remove {t : Tab} {k : t.Key} {f : Bool → Txn α} (ht : t ≠ .stock)
    (hf : ∀ r, Tidy args q (f r)) : Tidy args q (remove t k >>= f) := by
  refine tidy_issue ?_ (fun r => ?_) hf <;> cases t <;> trivial

theorem tidy_newOrderLines {x : NewOrder} (d : ℕ) (kD : DKey) (vD : DVal) (kNO : NOKey) (kO : OKey) (l : ℕ)
    (items : List OrderItem) (hitems : ∀ item ∈ items, item.Ok args) :
    Tidy args (.newOrder w x) (newOrderLines w d kD vD kNO kO l items) := by
  induction items generalizing l with
  | nil => exact tidy_pure _
  | cons item items ih =>
    obtain ⟨hi, hs, hn⟩ := hitems item List.mem_cons_self
    have hkey : SKey.make item.supplyWId item.itemId = ⟨item.itemId, item.supplyWId⟩ := make_sKey hs hi.2
    refine tidy_get (by decide) fun vI => ?_
    split_ifs
    · refine .issue (fun _ => ?_) fun vS _ => .issue ⟨rfl, rfl⟩ fun _ _ =>
        .issue ⟨⟨⟩, hkey.symm, ?_⟩ fun _ _ => ?_
      · rw [hkey]
        exact ⟨hs, hi⟩
      · have hquantity : item.quantity % 2 ^ 8 = item.quantity := Nat.mod_eq_of_lt (by omega)
        simp only [OrderItem.line, SVal.ordered, hquantity]
        ring
      · exact ih _ fun item' h => hitems item' (List.mem_cons_of_mem _ h)
    · refine tidy_insert (by decide) fun _ => tidy_remove (by decide) fun _ => tidy_remove (by decide) fun _ => ?_
      exact tidy_pure _

theorem tidy_txnNewOrder {x : NewOrder} (hx : x.Ok args) :
    Tidy args (.newOrder w x) (txnNewOrder w x) := by
  refine tidy_get (by decide) fun _ => tidy_get (by decide) fun vD => tidy_insert (by decide) fun _ => ?_
  refine tidy_get (by decide) fun _ => tidy_insert (by decide) fun _ => ?_
  refine tidy_issue ⟨⟩ (fun _ => rfl) fun _ => tidy_issue ⟨⟩ (fun _ => rfl) fun _ => ?_
  refine tidy_issue ⟨⟩ (fun _ => rfl) fun ts => tidy_insert (by decide) fun _ => ?_
  exact tidy_newOrderLines _ _ _ _ _ _ _ hx.items

theorem tidy_txnPayment {x : Payment} : Tidy args (.payment w x) (txnPayment w x) := by
  refine tidy_issue ⟨⟩ (fun _ => rfl) fun ts => tidy_get (by decide) fun vW => tidy_insert (by decide) fun _ => ?_
  refine tidy_get (by decide) fun vD => tidy_insert (by decide) fun _ => tidy_get (by decide) fun vC => ?_
  exact tidy_insert (by decide) fun _ => tidy_insert (by decide) fun _ => tidy_pure _

theorem tidy_deliverLines {x : Delivery} (olTotal : ℚ) (kvs : List (OLKey × OLVal)) :
    Tidy args (.delivery w x) (deliverLines olTotal kvs) := by
  induction kvs generalizing olTotal with
  | nil => exact tidy_pure _
  | cons e kvs ih =>
    exact tidy_issue ⟨⟩ (fun _ => rfl) fun ts => tidy_issue id (fun _ => rfl) fun _ => ih _

theorem tidy_deliverDistricts {x : Delivery} (oCarrierId : ℕ) (ds : List ℕ) :
    Tidy args (.delivery w x) (deliverDistricts w oCarrierId ds) := by
  induction ds with
  | nil => exact tidy_pure _
  | cons d ds ih =>
    refine Tidy.bind ?_ fun goOn => ?_
    · refine tidy_issue ⟨⟩ (fun _ => rfl) fun o => tidy_get (by decide) fun vNO => ?_
      split_ifs
      · refine tidy_get (by decide) fun vO => ?_
        split_ifs
        · refine Tidy.bind ?_ fun _ => tidy_pure _
          refine tidy_remove (by decide) fun _ => tidy_insert (by decide) fun _ => ?_
          refine tidy_issue ⟨⟩ (fun _ => rfl) fun kvs => Tidy.bind (tidy_deliverLines _ _) fun olTotal => ?_
          exact tidy_get (by decide) fun vC => tidy_insert (by decide) fun _ => tidy_pure _
        · exact tidy_pure _
      · exact tidy_pure _
    · split_ifs
      · exact ih
      · exact tidy_pure _

theorem tidy_countLowStock {x : StockLevel} (threshold fakeSize : ℕ) (kvs : List (OLKey × OLVal)) :
    Tidy args (.stockLevel w x) (countLowStock w threshold fakeSize kvs) := by
  induction kvs generalizing fakeSize with
  | nil => exact tidy_pure _
  | cons e kvs ih => exact tidy_issue False.elim (fun _ => rfl) fun _ => ih _

/-- **Every transaction is tidy.** -/
theorem tidy_txn (hq : q.Ok args) : Tidy args q (txn args q) := by
  obtain ⟨hw, hq⟩ := hq
  cases q with
  | newOrder w x => exact tidy_txnNewOrder hq
  | payment w x => exact tidy_txnPayment
  | delivery w x => exact tidy_deliverDistricts _ _
  | orderStatus w x =>
    exact tidy_issue ⟨⟩ (fun _ => rfl) fun _ => tidy_issue ⟨⟩ (fun _ => rfl) fun _ => tidy_pure _
  | stockLevel w x =>
    refine tidy_get (by decide) fun vD => tidy_issue ⟨⟩ (fun _ => rfl) fun kvs => ?_
    exact Tidy.bind (tidy_countLowStock _ _ _) fun _ => tidy_pure _

end

/-! ### Lines placed -/

/-- Whether the operation places a line of stock row `k`. -/
def Event.lines (k : SKey) (e : Event J) : ℕ :=
  match e.op with
  | .insert .orderLine _ v => if e.request.IsNewOrder ∧ (⟨v.olIId, v.olSupplyWId⟩ : SKey) = k then 1 else 0
  | _ => 0

/-- What is ordered of stock row `k` in the line the operation places. -/
def Event.quantity (k : SKey) (e : Event J) : ℚ :=
  match e.op with
  | .insert .orderLine _ v =>
    if e.request.IsNewOrder ∧ (⟨v.olIId, v.olSupplyWId⟩ : SKey) = k then v.olQuantity else 0
  | _ => 0

/-- How many order lines of stock row `k` `txn_new_order` has written since the start. -/
def World.created (s : World J) (k : SKey) : ℕ := (s.trace.map (Event.lines k)).sum

/-- What is ordered of it in them. -/
def World.createdQuantity (s : World J) (k : SKey) : ℚ := (s.trace.map (Event.quantity k)).sum

section
variable {s : World J} {j : J} {q : Request} {junk : Junk} {o : Op} {k : SKey} {args : Args}

theorem created_exec : (s.exec j q junk o).2.created k = Event.lines k ⟨j, q, o⟩ + s.created k := by
  simp only [World.created, trace_exec, List.map_cons, List.sum_cons]

theorem createdQuantity_exec :
    (s.exec j q junk o).2.createdQuantity k = Event.quantity k ⟨j, q, o⟩ + s.createdQuantity k := by
  simp only [World.createdQuantity, trace_exec, List.map_cons, List.sum_cons]

/-- The phase after the operation. -/
abbrev Phase.after (args : Args) (q : Request) (φ : Phase) (o : Op) (r : o.Res) : Phase :=
  (stockOps args q).next φ o r

omit [DecidableEq J] in
/-- An operation that writes no stock row adds no line, placed or to be placed. -/
theorem lines_other {φ : Phase} (hpre : (stockOps args q).pre φ o) (ho : ∀ k x, o ≠ .insert .stock k x)
    (r : o.Res) : Event.lines k ⟨j, q, o⟩ + (φ.after args q o r).lines k = φ.lines k ∧
      Event.quantity k ⟨j, q, o⟩ + (φ.after args q o r).quantity k = φ.quantity k := by
  cases φ with
  | free =>
    cases o with
    | get t k' =>
      by_cases ht : t = .stock
      · subst ht
        have hafter : Phase.after args q .free (.get .stock k') r = if q.IsNewOrder then .got k' r else .free := rfl
        rw [hafter]
        split_ifs <;> exact ⟨rfl, zero_add _⟩
      · cases t <;> first | contradiction | exact ⟨rfl, zero_add _⟩
    | insert t k' x =>
      cases t
      case stock => exact absurd rfl (ho k' x)
      case orderLine =>
        have hq : ¬ q.IsNewOrder := hpre
        simp [Event.lines, Event.quantity, hq, Phase.lines, Phase.quantity, Phase.after, stockOps]
      all_goals exact ⟨rfl, zero_add _⟩
    | remove t k' => cases t <;> first | exact hpre.elim | exact ⟨rfl, zero_add _⟩
    | _ => exact ⟨rfl, zero_add _⟩
  | got k' v =>
    cases o with
    | insert t k'' x =>
      cases t
      case stock => exact absurd rfl (ho k'' x)
      all_goals exact hpre.elim
    | _ => exact hpre.elim
  | owes k' x =>
    cases o with
    | insert t k'' y =>
      cases t
      case orderLine =>
        obtain ⟨hq, hk, hx⟩ := hpre
        simp only [Event.lines, Event.quantity, hq, true_and, hk, Phase.lines, Phase.quantity, Phase.after,
          stockOps, hx, add_zero, and_self]
      all_goals exact hpre.elim
    | _ => exact hpre.elim

end

/-! ### Orders of item 1 -/

section
variable {J : Type} [DecidableEq J] {j : J} {q : Request} {s : World J} {k : SKey}

/-- What is left of the loop when a line's stock row is about to be written. -/
def writeLine (w d l : ℕ) (kD : DKey) (vD : DVal) (kNO : NOKey) (kO : OKey) (item : OrderItem)
    (items : List OrderItem) (k : SKey) (vI : IVal) (vS : SVal) : Txn Unit :=
  insert .stock k (vS.ordered w item) >>= fun _ =>
    insert .orderLine (OLKey.make w d kNO.noOId l) (item.line vI) >>= fun _ =>
      newOrderLines w d kD vD kNO kO (l + 1) items

/-- The loop comes to the writing of a stock row: the item is found, and the row read. -/
theorem leads_line {junk : Junk} {w d l : ℕ} {kD : DKey} {vD : DVal} {kNO : NOKey} {kO : OKey}
    (item : OrderItem) {items : List OrderItem} {vI : IVal} {vS : SVal}
    (hvI : (s.db .item).get (IKey.make item.itemId) = some vI)
    (hk : SKey.make item.supplyWId item.itemId = k) (hvS : (s.db .stock).get k = some vS) :
    ∃ s₁ : World J, s₁.db = s.db ∧ s₁.created k = s.created k ∧
      Prog.Leads (World.exec j q junk) (newOrderLines w d kD vD kNO kO l (item :: items), s)
        (writeLine w d l kD vD kNO kO item items k vI vS, s₁) := by
  subst hk
  let s₁ := s.record j q (.get .item (IKey.make item.itemId))
  refine ⟨s₁.record j q (.get .stock (SKey.make item.supplyWId item.itemId)), rfl, ?_, ?_⟩
  · simp [s₁, World.created, World.record, Event.lines]
  · exact leads_get hvI (leads_get (s := s₁) hvS (.refl _))

/-- The row is written, and the line. -/
theorem run_writeLine {junk : Junk} {w d l : ℕ} {kD : DKey} {vD : DVal} {kNO : NOKey} {kO : OKey}
    {item : OrderItem} {items : List OrderItem} {vI : IVal} {vS : SVal} (hq : q.IsNewOrder)
    (hk : (⟨item.itemId, item.supplyWId⟩ : SKey) = k) :
    ∃ s₁ : World J, s₁.db .item = s.db .item ∧ s₁.db .stock = (s.db .stock).insert k (vS.ordered w item) ∧
      s₁.created k = s.created k + 1 ∧
      (writeLine w d l kD vD kNO kO item items k vI vS).run (World.exec j q junk) s =
        (newOrderLines w d kD vD kNO kO (l + 1) items).run (World.exec j q junk) s₁ := by
  refine ⟨(World.exec j q junk (.insert .orderLine (OLKey.make w d kNO.noOId l) (item.line vI))
    (World.exec j q junk (.insert .stock k (vS.ordered w item)) s).2).2, rfl, rfl, ?_, rfl⟩
  rw [created_exec, created_exec]
  simp only [Event.lines, OrderItem.line, hq, hk, true_and, if_true, zero_add]
  exact Nat.add_comm _ _

/-- Row `k` has counted `n` lines more than `cnt`, and `n` lines of it have been placed since
there were `created`. -/
structure Counted (s' : World J) (k : SKey) (items : Table IKey IVal) (cnt created n : ℕ) : Prop where
  /-- The count is the row's. -/
  row : ∃ v, (s'.db .stock).get k = some v ∧ v.sOrderCnt % 2 ^ 32 = (cnt + n) % 2 ^ 32
  /-- The lines have been placed. -/
  created : s'.created k = created + n
  /-- The items are as they were. -/
  items : s'.db .item = items

/-- The item is for sale, and row `k` is its stock. -/
def Sells (db : Db) (k : SKey) (item : OrderItem) : Prop :=
  (⟨item.itemId, item.supplyWId⟩ : SKey) = k ∧ SKey.make item.supplyWId item.itemId = k ∧
    ∃ vI, (db .item).get (IKey.make item.itemId) = some vI

/-- Left alone, the loop counts its lines in the stock row they are all of. -/
theorem counted_lines {junk : Junk} {w d : ℕ} {kD : DKey} {vD : DVal} {kNO : NOKey} {kO : OKey}
    (hq : q.IsNewOrder) (l : ℕ) (items : List OrderItem) {n : ℕ} (hn : items.length = n) {vS : SVal}
    (hvS : (s.db .stock).get k = some vS) (hitems : ∀ item ∈ items, Sells s.db k item) :
    Counted ((newOrderLines w d kD vD kNO kO l items).run (World.exec j q junk) s).2 k (s.db .item)
      vS.sOrderCnt (s.created k) n := by
  subst hn
  induction items generalizing l s vS with
  | nil => exact ⟨⟨vS, hvS, rfl⟩, rfl, rfl⟩
  | cons item items ih =>
    obtain ⟨hk', hk, vI, hvI⟩ := hitems item List.mem_cons_self
    obtain ⟨s₁, hdb, hcreated, hleads⟩ := leads_line item hvI hk hvS
    obtain ⟨s₂, hitem, hstock, hcreated', hrun⟩ := run_writeLine (s := s₁) hq hk'
    obtain ⟨⟨vS', hvS', hcnt⟩, hlast, hitem'⟩ := ih (l + 1) (by rw [hstock, Table.get_insert_self])
      fun item' h => by
        rw [Sells, hitem, hdb]
        exact hitems item' (List.mem_cons_of_mem _ h)
    rw [hleads.run_eq, hrun]
    refine ⟨⟨vS', hvS', hcnt.trans ?_⟩, hlast.trans ?_, by rw [hitem', hitem, hdb]⟩
    · simp only [SVal.ordered, u32_succ, List.length_cons]
      omega
    · rw [hcreated', hcreated, List.length_cons]
      omega

/-- So does what is left of it when the first row is about to be written: the row then counts
from what was read of it, whatever it holds by now. -/
theorem counted_writeLine {junk : Junk} {w d l : ℕ} {kD : DKey} {vD : DVal} {kNO : NOKey} {kO : OKey}
    {item : OrderItem} {items : List OrderItem} {vI : IVal} (vS : SVal) (hq : q.IsNewOrder) {n : ℕ}
    (hn : items.length = n) (hitems : ∀ item' ∈ item :: items, Sells s.db k item') :
    Counted ((writeLine w d l kD vD kNO kO item items k vI vS).run (World.exec j q junk) s).2 k (s.db .item)
      vS.sOrderCnt (s.created k) (n + 1) := by
  obtain ⟨s₁, hitem, hstock, hcreated, hrun⟩ := run_writeLine (s := s) hq (hitems item List.mem_cons_self).1
  obtain ⟨⟨v, hv, hcnt⟩, hlast, hitem'⟩ := counted_lines (j := j) (s := s₁) hq (l + 1) items hn
    (by rw [hstock, Table.get_insert_self]) fun item' h => by
      rw [Sells, hitem]
      exact hitems item' (List.mem_cons_of_mem _ h)
  rw [hrun]
  refine ⟨⟨v, hv, hcnt.trans ?_⟩, hlast.trans ?_, hitem'.trans hitem⟩
  · simp only [SVal.ordered, u32_succ]
    omega
  · rw [hcreated]
    omega

/-- An order of item 1 from warehouse 1 is of one stock row. -/
theorem sells_orderOf {n : ℕ} {db : Db} {vI : IVal} (hvI : (db .item).get (IKey.make 1) = some vI)
    {item : OrderItem} (h : item ∈ List.replicate n ⟨1, 1, 1⟩) : Sells db ⟨1, 1⟩ item := by
  obtain rfl := List.eq_of_mem_replicate h
  exact ⟨rfl, by decide, vI, hvI⟩

/-- Such an order comes to its loop with the items and the stock as they were, and no line
placed. -/
theorem leads_lines (j : J) (q : Request) (s : World J) (w n : ℕ) :
    ∃ (s₁ : World J) (kD : DKey) (vD : DVal) (kNO : NOKey) (kO : OKey),
      s₁.db .item = s.db .item ∧ s₁.db .stock = s.db .stock ∧ s₁.created k = s.created k ∧
      Prog.Leads (World.exec j q blank) (txnNewOrder w (orderOf w n), s)
        (newOrderLines w 1 kD vD kNO kO 1 (List.replicate n ⟨1, 1, 1⟩), s₁) := by
  obtain ⟨s₁, vD, hitem, hstock, htrace, hleads⟩ := leads_txnNewOrder j q blank s w (orderOf w n)
  refine ⟨s₁, _, _, _, _, hitem, hstock, htrace _ fun e he => ?_, hleads⟩
  unfold Event.lines
  split
  · rename_i k v hop
    exact absurd hop (he k v)
  · rfl

/-- Left alone, it counts as many lines as it has. -/
theorem counted_orderOf {w n : ℕ} {vI : IVal} {vS : SVal} (hq : q.IsNewOrder)
    (hvI : (s.db .item).get (IKey.make 1) = some vI) (hvS : (s.db .stock).get ⟨1, 1⟩ = some vS) :
    Counted ((txnNewOrder w (orderOf w n)).run (World.exec j q blank) s).2 ⟨1, 1⟩ (s.db .item)
      vS.sOrderCnt (s.created ⟨1, 1⟩) n := by
  obtain ⟨s₁, kD, vD, kNO, kO, hitem, hstock, hcreated, hleads⟩ :=
    leads_lines (k := ⟨1, 1⟩) j q s w n
  rw [← hitem] at hvI
  rw [← hstock] at hvS
  rw [hleads.run_eq, ← hitem, ← hcreated]
  exact counted_lines hq 1 _ List.length_replicate hvS fun _ => sells_orderOf hvI

/-- It comes to the writing of the stock row. -/
theorem leads_orderOf {w n : ℕ} {vI : IVal} {vS : SVal}
    (hvI : (s.db .item).get (IKey.make 1) = some vI) (hvS : (s.db .stock).get ⟨1, 1⟩ = some vS) :
    ∃ (s₁ : World J) (kD : DKey) (vD : DVal) (kNO : NOKey) (kO : OKey),
      s₁.db .item = s.db .item ∧ s₁.db .stock = s.db .stock ∧ s₁.created ⟨1, 1⟩ = s.created ⟨1, 1⟩ ∧
      Prog.Leads (World.exec j q blank) (txnNewOrder w (orderOf w (n + 1)), s)
        (writeLine w 1 1 kD vD kNO kO ⟨1, 1, 1⟩ (List.replicate n ⟨1, 1, 1⟩) ⟨1, 1⟩ vI vS, s₁) := by
  obtain ⟨s₁, kD, vD, kNO, kO, hitem, hstock, hcreated, hleads⟩ :=
    leads_lines (k := ⟨1, 1⟩) j q s w (n + 1)
  rw [← hitem] at hvI
  rw [← hstock] at hvS
  obtain ⟨s₂, hdb, hcreated', hleads'⟩ := leads_line ⟨1, 1, 1⟩ hvI (by decide) hvS
  exact ⟨s₂, kD, vD, kNO, kO, by rw [hdb, hitem], by rw [hdb, hstock], hcreated'.trans hcreated,
    hleads.trans hleads'⟩

end

/-- Two workers have numbers 0 and 1. -/
scoped instance neZero_two : NeZero 2 := ⟨Nat.succ_ne_zero 1⟩

/-- The two warehouses' two workers. -/
def twoWorkers : Workers (Fin 2) := Workers.run twoWarehouses 2

/-- No transaction is in flight, and the loaded tables are as they were. -/
def loadedTwo : Threads (Fin 2) := Config.init (World.start twoWarehouses)

theorem twoWorkers_owns : twoWorkers.owns 0 1 ∧ twoWorkers.owns 1 2 := by
  simp [twoWorkers, Workers.run, workerRange, twoWarehouses]

theorem orderOf_may {j : Fin 2} {w n : ℕ} (hj : twoWorkers.owns j w) (hw : 1 ≤ w ∧ w ≤ 2)
    (hn : 5 ≤ n ∧ n ≤ 15) :
    (machine twoWarehouses twoWorkers).may j (.newOrder w (orderOf w n)) :=
  ⟨hj, orderOf_ok hw hn⟩

/-! ### Undisturbed runs -/

variable {args : Args} {W : Workers J}

/-- No two workers are both between the reading and the writing of one stock row. -/
def Undisturbed (c : Threads J) : Prop :=
  ∀ i j, i ≠ j → ∀ k q v p q' v' p', c.thread i = some (q, .op (.insert .stock k v) p) →
    c.thread j ≠ some (q', .op (.insert .stock k v') p')

/-- The runs in which this is so all along. -/
def UndisturbedRun (args : Args) (W : Workers J) (c : Threads J) : Prop :=
  Relation.ReflTransGen (fun c c' => Step (machine args W) c c' ∧ Undisturbed c')
    (Config.init (World.start args)) c

theorem UndisturbedRun.guarded {c : Threads J} (h : UndisturbedRun args W c) :
    Guarded (machine args W) Undisturbed (World.start args) c := h

theorem UndisturbedRun.run {c : Threads J} (h : UndisturbedRun args W c) : Run args W c :=
  h.guarded.reachable

variable [Fintype J]

/-- The stock rows count the lines placed and those that are still to be. -/
structure StockOk (args : Args) (c : Threads J) (φ : J → Phase) : Prop where
  /-- A row's counts. -/
  rows : ∀ k, args.IsStock k → ∃ v, (c.state.db .stock).get k = some v ∧
    v.sOrderCnt = (c.state.created k + ∑ j, (φ j).lines k) % 2 ^ 32 ∧
    v.sYtd = c.state.createdQuantity k + ∑ j, (φ j).quantity k
  /-- An idle worker has nothing to do with one. -/
  idle : ∀ j, c.thread j = none → φ j = .free
  /-- A busy one keeps to the phases. -/
  busy : ∀ j q p, c.thread j = some (q, p) → Meets (stockOps args q) (fun _ ψ => ψ = .free) p (φ j)
  /-- A row that has been read is as it was. -/
  got : ∀ j k v, φ j = .got k v → args.IsStock k ∧ (c.state.db .stock).get k = some v.2

/-- A worker that has read a row writes it next. -/
theorem writes_next {q : Request} {k : SKey} {v : Bool × SVal} {p : Txn Unit}
    (h : Meets (stockOps args q) (fun _ ψ => ψ = .free) p (.got k v)) :
    ∃ x p', p = .op (.insert .stock k x) p' := by
  cases p with
  | ret a => cases h
  | op o p' =>
    cases o with
    | insert t k' x =>
      cases t
      case stock =>
        obtain ⟨rfl, -⟩ := h.1
        exact ⟨x, p', rfl⟩
      all_goals exact h.1.elim
    | _ => exact h.1.elim

section
variable {c : Threads J} {φ : J → Phase} {j : J}

/-- A sum over the workers when one has changed. -/
theorem sum_after {A : Type} [AddCommGroup A] (f : Phase → A) (ψ : Phase) :
    ∑ i, f (Function.update φ j ψ i) = ∑ i, f (φ i) - f (φ j) + f ψ := by
  have h : (fun i => f (Function.update φ j ψ i)) = Function.update (fun i => f (φ i)) j (f ψ) := by
    funext i
    by_cases hij : i = j
    · subst hij; simp
    · simp [hij]
  rw [h, Finset.sum_update_of_mem (Finset.mem_univ j), ← Finset.add_sum_erase _ _ (Finset.mem_univ j),
    Finset.sdiff_singleton_eq_erase]
  abel

omit [DecidableEq J] in
theorem stockOk_init : StockOk args (Config.init (World.start args) : Threads J) fun _ => .free where
  rows k hk := by
    obtain ⟨v, hv⟩ := ((loaded_prepareKvs args).stock k).1 hk
    obtain ⟨-, hcnt, hytd⟩ := ((loaded_prepareKvs args).stock k).2 v hv
    exact ⟨v, hv, by simp [hcnt, Config.init, World.start, World.created, Phase.lines],
      by simp [hytd, Config.init, World.start, World.createdQuantity, Phase.quantity]⟩
  idle _ _ := rfl
  busy _ _ _ h := by cases h
  got _ _ _ h := by cases h

omit [DecidableEq J] in
/-- Every worker keeps to the phases. -/
theorem StockOk.tracked (h : StockOk args c φ) : Tracked (stockOps args) .free c φ :=
  ⟨h.idle, h.busy⟩

theorem stockOk_start {q : Request} (h : StockOk args c φ) (idle : c.thread j = none)
    (may : (machine args W).may j q) : StockOk args (c.set c.state j (some (q, txn args q))) φ := by
  have htracked := h.tracked.start idle (tidy_txn may.2)
  exact ⟨h.rows, htracked.idle, htracked.busy, h.got⟩

theorem stockOk_finish {q : Request} (h : StockOk args c φ) (ended : c.thread j = some (q, .ret ())) :
    StockOk args (c.set c.state j none) φ := by
  have htracked := h.tracked.finish ended
  exact ⟨h.rows, htracked.idle, htracked.busy, h.got⟩

/-- What the other workers do, and who is idle, is as before. -/
theorem stockOk_of_rows {q : Request} {o : Op} {k : o.Res → Txn Unit} {s : World J} {r : o.Res}
    (h : StockOk args c φ) (next : c.thread j = some (q, .op o k))
    (rows : ∀ a, args.IsStock a → ∃ v, (s.db .stock).get a = some v ∧
      v.sOrderCnt = (s.created a + ∑ i, (Function.update φ j ((φ j).after args q o r) i).lines a) % 2 ^ 32 ∧
      v.sYtd = s.createdQuantity a + ∑ i, (Function.update φ j ((φ j).after args q o r) i).quantity a)
    (got : ∀ i a v, Function.update φ j ((φ j).after args q o r) i = .got a v →
      args.IsStock a ∧ (s.db .stock).get a = some v.2) :
    StockOk args (c.set s j (some (q, k r))) (Function.update φ j ((φ j).after args q o r)) := by
  have htracked := h.tracked.run next (r := r) ⟨⟩ s
  exact ⟨rows, htracked.idle, htracked.busy, got⟩

/-- A worker that has just read a row found it as it is. -/
theorem got_after {q : Request} {o : Op} {k : o.Res → Txn Unit} {junk : Junk} (h : StockOk args c φ)
    (next : c.thread j = some (q, .op o k)) (ho : ∀ k x, o ≠ .insert .stock k x) {a : SKey} {v : Bool × SVal}
    (hgot : (φ j).after args q o (c.state.exec j q junk o).1 = .got a v) :
    args.IsStock a ∧ ((c.state.exec j q junk o).2.db .stock).get a = some v.2 := by
  have hpre := (h.busy j q _ next).1
  cases hφ : φ j with
  | free =>
    rw [hφ] at hpre hgot
    cases o with
    | get t a' =>
      cases t
      case stock =>
        have hafter : Phase.after args q .free (.get .stock a') (c.state.exec j q junk (.get .stock a')).1 =
          if q.IsNewOrder then .got a' (c.state.exec j q junk (.get .stock a')).1 else .free := rfl
        rw [hafter] at hgot
        split_ifs at hgot with hq
        cases hgot
        obtain ⟨v, hv, -⟩ := h.rows a (hpre hq)
        refine ⟨hpre hq, ?_⟩
        simp only [World.exec, World.fetch, World.record, hv]
      all_goals cases hgot
    | insert t a' x =>
      cases t
      case stock => exact absurd rfl (ho a' x)
      all_goals cases hgot
    | remove t a' => cases t <;> cases hgot
    | _ => cases hgot
  | got a' v' =>
    obtain ⟨x, p', hp⟩ := writes_next (hφ ▸ h.busy j q _ next)
    cases hp
    exact absurd rfl (ho a' x)
  | owes a' x =>
    rw [hφ] at hgot
    cases hgot

/-- An operation that writes no stock row. -/
theorem stockOk_other {q : Request} {o : Op} {k : o.Res → Txn Unit} (junk : Junk) (h : StockOk args c φ)
    (next : c.thread j = some (q, .op o k)) (ho : ∀ k x, o ≠ .insert .stock k x) :
    StockOk args (c.set (c.state.exec j q junk o).2 j (some (q, k (c.state.exec j q junk o).1)))
      (Function.update φ j ((φ j).after args q o (c.state.exec j q junk o).1)) := by
  have hpre := (h.busy j q _ next).1
  have hdb : (c.state.exec j q junk o).2.db .stock = c.state.db .stock := by
    cases o with
    | insert t a x =>
      have ht : Tab.stock ≠ t := by rintro rfl; exact ho a x rfl
      simp [World.exec, World.record, Function.update_of_ne ht]
    | remove t a =>
      have ht : Tab.stock ≠ t := by
        rintro rfl
        cases hφ : φ j <;> (rw [hφ] at hpre; exact hpre.elim)
      simp [World.exec, World.record, Function.update_of_ne ht]
    | _ => rfl
  refine stockOk_of_rows h next (fun a ha => ?_) (fun i a v hi => ?_)
  · obtain ⟨v, hv, hcnt, hytd⟩ := h.rows a ha
    obtain ⟨hl, hx⟩ := lines_other (j := j) (k := a) hpre ho (c.state.exec j q junk o).1
    refine ⟨v, hdb ▸ hv, ?_, ?_⟩
    · rw [created_exec, hcnt]
      have := sum_after (φ := φ) (j := j) (fun ψ => ((ψ.lines a : ℕ) : ℤ))
        ((φ j).after args q o (c.state.exec j q junk o).1)
      congr 1
      zify
      rw [this]
      zify at hl
      linarith
    · rw [createdQuantity_exec, hytd, sum_after (fun ψ => ψ.quantity a)]
      linarith
  · by_cases hij : i = j
    · subst hij
      rw [Function.update_self] at hi
      exact got_after h next ho hi
    · rw [Function.update_of_ne hij] at hi
      rw [hdb]
      exact h.got i a v hi

/-- A worker that has read a row and writes it owes it a line, -/
theorem lines_owes {a : SKey} {v : Bool × SVal} (hφ : φ j = .got a v) (y : ℚ) (b : SKey) :
    ∑ i, (Function.update φ j (.owes a y) i).lines b = ∑ i, (φ i).lines b + if a = b then 1 else 0 := by
  have h := sum_after (φ := φ) (j := j) (fun ψ => ((ψ.lines b : ℕ) : ℤ)) (.owes a y)
  rw [hφ] at h
  simp only [show (Phase.got a v).lines b = 0 from rfl, Nat.cast_zero, sub_zero] at h
  exact_mod_cast h

/-- and what it orders. -/
theorem quantity_owes {a : SKey} {v : Bool × SVal} (hφ : φ j = .got a v) (y : ℚ) (b : SKey) :
    ∑ i, (Function.update φ j (.owes a y) i).quantity b = ∑ i, (φ i).quantity b + if a = b then y else 0 := by
  rw [sum_after (fun ψ => ψ.quantity b), hφ, show (Phase.got a v).quantity b = 0 from rfl, sub_zero]
  rfl

omit [DecidableEq J] in
/-- No other worker is between reading and writing the row that is written. -/
theorem got_ne {q : Request} {a : SKey} {x : SVal} {k : Bool → Txn Unit} (h : StockOk args c φ) (hund : Undisturbed c)
    (next : c.thread j = some (q, .op (.insert .stock a x) k)) {i : J} (hij : i ≠ j) {b : SKey} {u : Bool × SVal}
    (hi : φ i = .got b u) : a ≠ b := by
  rintro rfl
  cases hi' : c.thread i with
  | none => rw [h.idle i hi'] at hi; cases hi
  | some p =>
    obtain ⟨q', p⟩ := p
    obtain ⟨x', p', rfl⟩ := writes_next (hi ▸ h.busy i q' p hi')
    exact hund i j hij a q' x' p' q x k hi' next

/-- A worker writes the row it has read, and no other has read it in between. -/
theorem stockOk_write {q : Request} {a : SKey} {x : SVal} {k : Bool → Txn Unit} (junk : Junk)
    (h : StockOk args c φ) (next : c.thread j = some (q, .op (.insert .stock a x) k)) (hund : Undisturbed c) :
    StockOk args (c.set (c.state.exec j q junk (.insert .stock a x)).2 j (some (q, k true)))
      (Function.update φ j ((φ j).after args q (.insert .stock a x) true)) := by
  have hpre := (h.busy j q _ next).1
  cases hφ : φ j with
  | free => rw [hφ] at hpre; exact hpre.elim
  | owes => rw [hφ] at hpre; exact hpre.elim
  | got a' v =>
    rw [hφ] at hpre
    obtain ⟨rfl, hcnt⟩ := hpre
    obtain ⟨ha, hrow⟩ := h.got j a v hφ
    have hget (b : SKey) : ((c.state.exec j q junk (.insert .stock a x)).2.db .stock).get b =
        if a = b then some x else (c.state.db .stock).get b := by
      rw [← Table.get_insert]
      simp [World.exec, World.record]
    have hafter : (φ j).after args q (.insert .stock a x) true = .owes a (x.sYtd - v.2.sYtd) := by
      rw [hφ]
      rfl
    rw [← hφ]
    refine stockOk_of_rows h next (fun b hb => ?_) (fun i b u hi => ?_)
    · obtain ⟨u, hu, hucnt, huytd⟩ := h.rows b hb
      have hnone : Event.lines b ⟨j, q, .insert .stock a x⟩ = 0 := rfl
      have hnone' : Event.quantity b ⟨j, q, .insert .stock a x⟩ = 0 := rfl
      rw [hget, hafter, created_exec, createdQuantity_exec, hnone, hnone', zero_add, zero_add, lines_owes hφ,
        quantity_owes hφ]
      by_cases hab : a = b
      · subst hab
        obtain rfl : v.2 = u := Option.some.inj (hrow.symm.trans hu)
        simp only [if_true]
        refine ⟨x, rfl, ?_, by rw [huytd]; ring⟩
        rw [hcnt, u32_succ, hucnt]
        omega
      · simp only [hab, if_false, add_zero]
        exact ⟨u, hu, hucnt, huytd⟩
    · by_cases hij : i = j
      · subst hij
        rw [Function.update_self, hafter] at hi
        cases hi
      · rw [Function.update_of_ne hij] at hi
        obtain ⟨hb, hub⟩ := h.got i b u hi
        refine ⟨hb, ?_⟩
        rw [hget, if_neg (got_ne h hund next hij hi)]
        exact hub

end

/-- In an undisturbed run the rows count the lines. -/
theorem UndisturbedRun.stockOk {c : Threads J} (h : UndisturbedRun args W c) : ∃ φ, StockOk args c φ := by
  refine h.guarded.induct (P := fun c => ∃ φ, StockOk args c φ) ⟨_, stockOk_init⟩
    (fun _ _ _ _ _ _ _ _ _ _ hi => (nomatch hi)) ?_
  intro c c' hund ⟨φ, hok⟩ hs _
  cases hs with
  | start idle may => exact ⟨φ, stockOk_start hok idle may⟩
  | finish ended => exact ⟨φ, stockOk_finish hok ended⟩
  | @run j q o k n next =>
    by_cases ho : ∀ a x, o ≠ .insert .stock a x
    · exact ⟨_, stockOk_other n hok next ho⟩
    · push Not at ho
      obtain ⟨a, x, rfl⟩ := ho
      exact ⟨_, stockOk_write n hok next hund⟩

/-- **Stock**: in a run in which no two workers are ever both between the reading and the
writing of one stock row, whenever no transaction is in flight a stock row counts the
order lines placed for it, to 32 bits, and adds up what they order, in exact arithmetic. -/
theorem stock_undisturbed {c : Threads J} (h : UndisturbedRun args W c) (quiet : ∀ j, c.thread j = none)
    {k : SKey} (hk : args.IsStock k) : ∃ v, (c.state.db .stock).get k = some v ∧
      v.sOrderCnt = c.state.created k % 2 ^ 32 ∧ v.sYtd = c.state.createdQuantity k := by
  obtain ⟨φ, hok⟩ := h.stockOk
  obtain ⟨v, hv, hcnt, hytd⟩ := hok.rows k hk
  have hfree : ∀ j, φ j = .free := fun j => hok.idle j (quiet j)
  refine ⟨v, hv, hcnt.trans ?_, hytd.trans ?_⟩
  · simp [hfree, Phase.lines]
  · simp [hfree, Phase.quantity]

/-- After an order of five lines by worker 0. -/
def soldOnce : Threads (Fin 2) :=
  loadedTwo.answer (machine twoWarehouses twoWorkers) 0 (.newOrder 1 (orderOf 1 5)) blank

/-- And one by worker 1, of the same item from the same warehouse. -/
def soldTwice : Threads (Fin 2) :=
  soldOnce.answer (machine twoWarehouses twoWorkers) 1 (.newOrder 2 (orderOf 2 5)) blank

omit [DecidableEq J] [Fintype J] in
theorem undisturbed_alone {i : J} {c : Threads J} (others : ∀ j, j ≠ i → c.thread j = none) : Undisturbed c := by
  intro a b hab k q v p q' v' p' ha hb
  have hai : a = i := by_contra fun hne => nomatch (others a hne).symm.trans ha
  have hbi : b = i := by_contra fun hne => nomatch (others b hne).symm.trans hb
  exact hab (hai.trans hbi.symm)

theorem quiet_answer {q : Request} {i : Fin 2} {c : Threads (Fin 2)} (h : ∀ j, c.thread j = none) (j : Fin 2) :
    (c.answer (machine twoWarehouses twoWorkers) i q blank).thread j = none := by
  by_cases hij : j = i
  · exact hij ▸ Config.set_thread_self ..
  · exact (Config.set_thread_ne _ _ hij _).trans (h j)

theorem quiet_soldTwice (j : Fin 2) : soldTwice.thread j = none := by
  refine quiet_answer (fun i => ?_) j
  exact quiet_answer (fun _ => rfl) i

theorem undisturbed_soldTwice : UndisturbedRun twoWarehouses twoWorkers soldTwice := by
  have hloaded : Guarded (machine twoWarehouses twoWorkers) Undisturbed (World.start twoWarehouses) loadedTwo := .refl
  have hfirst : Guarded (machine twoWarehouses twoWorkers) Undisturbed (World.start twoWarehouses) soldOnce :=
    hloaded.answer (fun _ h => undisturbed_alone h) blank (fun _ => rfl)
      (orderOf_may twoWorkers_owns.1 (by decide) (by decide))
  refine hfirst.answer (fun _ h => undisturbed_alone h) blank (fun i => ?_)
    (orderOf_may twoWorkers_owns.2 (by decide) (by decide))
  exact quiet_answer (fun _ => rfl) i

/-- An order by one of the two workers counts its lines. -/
theorem counted_answer {c : Threads (Fin 2)} {j : Fin 2} {w n : ℕ} {vI : IVal} {vS : SVal}
    (hvI : (c.state.db .item).get (IKey.make 1) = some vI) (hvS : (c.state.db .stock).get ⟨1, 1⟩ = some vS) :
    Counted (c.answer (machine twoWarehouses twoWorkers) j (.newOrder w (orderOf w n)) blank).state ⟨1, 1⟩
      (c.state.db .item) vS.sOrderCnt (c.state.created ⟨1, 1⟩) n :=
  counted_orderOf (q := .newOrder w (orderOf w n)) ⟨⟩ hvI hvS

theorem created_soldTwice : soldTwice.state.created ⟨1, 1⟩ = 10 := by
  obtain ⟨vS, hvS⟩ := ((loaded_prepareKvs twoWarehouses).stock ⟨1, 1⟩).1 ⟨isDistrict_one.1, by simp [numItem]⟩
  obtain ⟨vI, hvI⟩ := ((loaded_prepareKvs twoWarehouses).item (IKey.make 1)).1 (by decide)
  have hdb : loadedTwo.state.db = prepareKvs twoWarehouses := rfl
  have hnone : loadedTwo.state.created ⟨1, 1⟩ = 0 := rfl
  rw [← hdb] at hvI hvS
  have hfirst := counted_answer (j := 0) (w := 1) (n := 5) hvI hvS
  obtain ⟨v, hv, -⟩ := hfirst.row
  rw [← hfirst.items] at hvI
  have hsecond := counted_answer (j := 1) (w := 2) (n := 5) hvI hv
  rw [soldTwice, soldOnce, hsecond.created, hfirst.created, hnone]

theorem stock_undisturbed_twice : soldTwice.state.created ⟨1, 1⟩ = 10 ∧
    ∃ v, (soldTwice.state.db .stock).get ⟨1, 1⟩ = some v ∧
      v.sOrderCnt = soldTwice.state.created ⟨1, 1⟩ % 2 ^ 32 ∧
      v.sYtd = soldTwice.state.createdQuantity ⟨1, 1⟩ :=
  ⟨created_soldTwice, stock_undisturbed undisturbed_soldTwice quiet_soldTwice
    ⟨isDistrict_one.1, by simp [numItem]⟩⟩

/-! ### A lost update -/

/-- Both workers order item 1 from warehouse 1, the one between the other's reading and
writing of its stock row: the row counts the lines of one order only. -/
theorem run_lost {n : ℕ} (hn : 5 ≤ n + 1 ∧ n + 1 ≤ 15) {c : Threads (Fin 2)}
    (h : Run twoWarehouses twoWorkers c) (idle : ∀ j, c.thread j = none) {vI : IVal} {vS : SVal}
    (hvI : (c.state.db .item).get (IKey.make 1) = some vI) (hvS : (c.state.db .stock).get ⟨1, 1⟩ = some vS) :
    ∃ c' : Threads (Fin 2), Run twoWarehouses twoWorkers c' ∧ (∀ j, c'.thread j = none) ∧
      Counted c'.state ⟨1, 1⟩ (c.state.db .item) vS.sOrderCnt (c.state.created ⟨1, 1⟩ + (n + 1)) (n + 1) := by
  -- worker 1 comes to the writing of the row
  obtain ⟨s₁, kD, vD, kNO, kO, hitem, hstock, hcreated, hleads⟩ :=
    leads_orderOf (j := 1) (w := 2) (n := n) (q := .newOrder 2 (orderOf 2 (n + 1))) hvI hvS
  have h₁ := (h.step (.start (idle 1) (orderOf_may twoWorkers_owns.2 (by decide) hn))).leads blank hleads rfl
    (Config.set_thread_self ..)
  -- worker 0 places its order
  rw [← hitem] at hvI
  rw [← hstock] at hvS
  have h₂ := h₁.answer (j := 0) blank
    (((Config.set_thread_ne _ _ (by decide) _).trans (Config.set_thread_ne _ _ (by decide) _)).trans (idle 0))
    (orderOf_may twoWorkers_owns.1 (by decide) hn)
  have hcounted := counted_orderOf (j := (0 : Fin 2)) (q := .newOrder 1 (orderOf 1 (n + 1))) (w := 1) (n := n + 1)
    ⟨⟩ hvI hvS
  -- worker 1 goes on, and writes what it would have written before
  have h₃ := h₂.run (j := 1) blank
    ((Config.set_thread_ne _ _ (by decide) _).trans (Config.set_thread_self ..))
  refine ⟨_, h₃, fun j => ?_, ?_⟩
  · by_cases hj : j = 1
    · rw [hj, Config.set_thread_self]
    · rw [Config.set_thread_ne _ _ hj]
      obtain rfl : j = 0 := by omega
      exact Config.set_thread_self ..
  · have h := hcounted.created
    rw [hcreated] at h
    rw [← h, ← hitem, ← hcounted.items]
    exact counted_writeLine vS (by trivial) List.length_replicate fun _ hitem' =>
      sells_orderOf (n := n + 1) (hcounted.items ▸ hvI) hitem'

/-- **Lost updates**: with two workers there is a run after which, no transaction being in
flight, a stock row has not counted every order line placed for it. -/
theorem stock_lost : ∃ c : Threads (Fin 2), Run twoWarehouses twoWorkers c ∧ (∀ j, c.thread j = none) ∧
    twoWarehouses.IsStock ⟨1, 1⟩ ∧ ∃ v, (c.state.db .stock).get ⟨1, 1⟩ = some v ∧
      v.sOrderCnt ≠ c.state.created ⟨1, 1⟩ % 2 ^ 32 := by
  have hk : twoWarehouses.IsStock ⟨1, 1⟩ := ⟨isDistrict_one.1, by simp [numItem]⟩
  obtain ⟨vS, hvS⟩ := ((loaded_prepareKvs twoWarehouses).stock ⟨1, 1⟩).1 hk
  obtain ⟨vI, hvI⟩ := ((loaded_prepareKvs twoWarehouses).item (IKey.make 1)).1 (by decide)
  obtain ⟨-, hcnt, -⟩ := ((loaded_prepareKvs twoWarehouses).stock ⟨1, 1⟩).2 vS hvS
  have hdb : loadedTwo.state.db = prepareKvs twoWarehouses := rfl
  rw [← hdb] at hvI hvS
  obtain ⟨c, hrun, hidle, ⟨v, hv, hrow⟩, hcreated, -⟩ :=
    run_lost (n := 4) (by decide) (c := loadedTwo) Reachable.init (fun _ => rfl) hvI hvS
  refine ⟨c, hrun, hidle, hk, v, hv, ?_⟩
  have hnone : loadedTwo.state.created ⟨1, 1⟩ = 0 := rfl
  omega

end SidleBaselines.Tpcc
