import SidleBaselines.Concurrency.Answers
import SidleBaselines.Tpcc.Lookups
import SidleBaselines.Tpcc.Stock

/-!
# Stock quantities

`txn_new_order` takes what is ordered from a stock row's quantity, and adds 91 where less than
ten would be left. It compares unsigned integers, so that a quantity less than what is ordered
would pass for a very large one; none is, as long as every row has ten at least.

## What is proved

* `SVal.ordered_quantity` — a quantity in `10..100` stays there.
* `stock_in_range` — every row's quantity is in `10..100` in every run, whichever warehouses the
  threads work on, and every write is of the row read last, with what is ordered taken from it.
-/

namespace SidleBaselines.Tpcc

open SidleBaselines.Data SidleBaselines.Concurrency

variable {J : Type} [DecidableEq J] {args : Args}

/-! ### One order line -/

/-- The quantity of a stock row. -/
def SVal.InRange (v : SVal) : Prop := 10 ≤ v.sQuantity ∧ v.sQuantity ≤ 100

/-- An order of `item` turns row `v` into `x`. -/
structure OrderItem.Takes (item : OrderItem) (v x : SVal) : Prop where
  enough : item.quantity ≤ v.sQuantity
  left : (x.sQuantity : ℤ) = v.sQuantity - item.quantity ∨ (x.sQuantity : ℤ) = v.sQuantity + (91 - item.quantity)

/-- **A quantity in range** does not wrap, and stays there. -/
theorem SVal.ordered_quantity {v : SVal} (hv : v.InRange) {item : OrderItem} (hitem : item.Ok args) (w : ℕ) :
    item.Takes v (v.ordered w item) ∧ (v.ordered w item).InRange := by
  obtain ⟨hlo, hhi⟩ := hv
  obtain ⟨hpos, hten⟩ := hitem.quantity
  have hle : item.quantity ≤ v.sQuantity := by omega
  have hleft : (u32 (v.sQuantity - item.quantity) : ℤ) = v.sQuantity - item.quantity :=
    u32_of_mem (by omega) (by omega)
  have hmore : (u32 (v.sQuantity + (91 - item.quantity)) : ℤ) = v.sQuantity + (91 - item.quantity) :=
    u32_of_mem (by omega) (by omega)
  have hquantity : (v.ordered w item).sQuantity = if 10 ≤ u32 (v.sQuantity - item.quantity) then
      u32 (v.sQuantity - item.quantity) else u32 (v.sQuantity + (91 - item.quantity)) := rfl
  split_ifs at hquantity with h
  · refine ⟨⟨hle, .inl ?_⟩, ?_, ?_⟩ <;> omega
  · refine ⟨⟨hle, .inr ?_⟩, ?_, ?_⟩ <;> omega

/-! ### Transactions -/

/-- What a transaction does with stock rows: an order writes the one it has read just before,
with the item ordered. -/
def quantityOps (args : Args) (q : Request) : Abstract Op Op.Res (Option (Answer Op Op.Res)) where
  pre
    | a, .insert .stock k x => ∃ w y item v, q = .newOrder w y ∧ item ∈ y.items ∧ item.Ok args ∧
        k = SKey.make item.supplyWId item.itemId ∧ a = some ⟨.get .stock k, (true, v)⟩ ∧ v.InRange ∧
        x = v.ordered w item
    | _, .remove .stock _ => False
    | _, _ => True
  gives
    | _, .get .stock k, r => args.Loads .stock k → r.1 = true ∧ r.2.InRange
    | _, _, _ => True
  next _ o r := some ⟨o, r⟩

section
variable {α : Type} {q : Request} {w : ℕ}

/-- The program does with stock rows what it should, whatever the last answer. -/
abbrev Orderly (args : Args) (q : Request) {α : Type} (p : Txn α) : Prop :=
  ∀ a, Meets (quantityOps args q) (fun _ _ => True) p a

theorem orderly_pure (a : α) : Orderly args q (pure a : Txn α) := fun _ => ⟨⟩

theorem Orderly.bind {β : Type} {p : Txn β} {f : β → Txn α} (hp : Orderly args q p)
    (hf : ∀ b, Orderly args q (f b)) : Orderly args q (p >>= f) :=
  fun a => Meets.bind (Meets.mono (fun b a _ => hf b a) (hp a))

/-- An operation that writes no stock row. -/
theorem orderly_issue {o : Op} {f : o.Res → Txn α} (hpre : ∀ a, (quantityOps args q).pre a o)
    (hf : ∀ r, Orderly args q (f r)) : Orderly args q (Prog.issue o >>= f) :=
  fun a => .issue (hpre a) fun r _ => hf r _

theorem orderly_insert {t : Tab} {k : t.Key} {x : t.Val} {f : Bool → Txn α} (ht : t ≠ .stock)
    (hf : ∀ r, Orderly args q (f r)) : Orderly args q (insert t k x >>= f) := by
  refine orderly_issue (fun a => ?_) hf
  cases t <;> trivial

theorem orderly_get {t : Tab} {k : t.Key} {f : Bool × t.Val → Txn α} (hf : ∀ r, Orderly args q (f r)) :
    Orderly args q (get t k >>= f) :=
  orderly_issue (fun _ => ⟨⟩) hf

theorem orderly_newOrderLines {x : NewOrder} (d : ℕ) (kD : DKey) (vD : DVal) (kNO : NOKey) (kO : OKey) (l : ℕ)
    (items : List OrderItem) (hw : ∀ item ∈ items, item ∈ x.items ∧ item.Ok args) :
    Orderly args (.newOrder w x) (newOrderLines w d kD vD kNO kO l items) := by
  induction items generalizing l with
  | nil => exact orderly_pure _
  | cons item items ih =>
    obtain ⟨hmem, hok⟩ := hw item List.mem_cons_self
    refine orderly_get fun vI => ?_
    split_ifs
    · intro a
      refine .issue ⟨⟩ fun r hr => ?_
      obtain ⟨hfound, hrange⟩ := hr (loads_stock hok.supply hok.item)
      have hr' : r = (true, r.2) := Prod.ext hfound rfl
      refine .issue ⟨w, x, item, r.2, rfl, hmem, hok, rfl, ?_, hrange, rfl⟩ fun _ _ => ?_
      · rw [← hr']
        rfl
      · refine orderly_insert (by decide) (fun _ => ?_) _
        exact ih _ fun item' h => hw item' (List.mem_cons_of_mem _ h)
    · refine orderly_insert (by decide) fun _ => orderly_issue (fun _ => ⟨⟩) fun _ => ?_
      exact orderly_issue (fun _ => ⟨⟩) fun _ => orderly_pure _

theorem orderly_txnNewOrder {x : NewOrder} (hx : x.Ok args) :
    Orderly args (.newOrder w x) (txnNewOrder w x) := by
  refine orderly_get fun _ => orderly_get fun vD => orderly_insert (by decide) fun _ => orderly_get fun _ => ?_
  refine orderly_insert (by decide) fun _ => orderly_issue (fun _ => ⟨⟩) fun _ => ?_
  refine orderly_issue (fun _ => ⟨⟩) fun _ => orderly_issue (fun _ => ⟨⟩) fun ts => ?_
  refine orderly_insert (by decide) fun _ => ?_
  exact orderly_newOrderLines _ _ _ _ _ _ _ fun item h => ⟨h, hx.items item h⟩

theorem orderly_txnPayment {x : Payment} : Orderly args q (txnPayment w x) := by
  refine orderly_issue (fun _ => ⟨⟩) fun ts => orderly_get fun vW => orderly_insert (by decide) fun _ => ?_
  refine orderly_get fun vD => orderly_insert (by decide) fun _ => orderly_get fun vC => ?_
  exact orderly_insert (by decide) fun _ => orderly_insert (by decide) fun _ => orderly_pure _

theorem orderly_deliverLines (olTotal : ℚ) (kvs : List (OLKey × OLVal)) :
    Orderly args q (deliverLines olTotal kvs) := by
  induction kvs generalizing olTotal with
  | nil => exact orderly_pure _
  | cons e kvs ih =>
    exact orderly_issue (fun _ => ⟨⟩) fun ts => orderly_insert (by decide) fun _ => ih _

theorem orderly_deliverDistrict (oCarrierId d : ℕ) : Orderly args q (deliverDistrict w oCarrierId d) := by
  refine orderly_issue (fun _ => ⟨⟩) fun o => orderly_get fun vNO => ?_
  split_ifs
  · refine orderly_get fun vO => ?_
    split_ifs
    · refine Orderly.bind ?_ fun _ => orderly_pure _
      refine orderly_issue (fun _ => ⟨⟩) fun _ => orderly_insert (by decide) fun _ => ?_
      refine orderly_issue (fun _ => ⟨⟩) fun kvs => (orderly_deliverLines _ _).bind fun olTotal => ?_
      exact orderly_get fun vC => orderly_insert (by decide) fun _ => orderly_pure _
    · exact orderly_pure _
  · exact orderly_pure _

theorem orderly_deliverDistricts (oCarrierId : ℕ) (ds : List ℕ) :
    Orderly args q (deliverDistricts w oCarrierId ds) := by
  induction ds with
  | nil => exact orderly_pure _
  | cons d ds ih =>
    refine (orderly_deliverDistrict _ _).bind fun goOn => ?_
    split_ifs
    · exact ih
    · exact orderly_pure _

theorem orderly_countLowStock (threshold fakeSize : ℕ) (kvs : List (OLKey × OLVal)) :
    Orderly args q (countLowStock w threshold fakeSize kvs) := by
  induction kvs generalizing fakeSize with
  | nil => exact orderly_pure _
  | cons e kvs ih => exact orderly_get fun vS => ih _

/-- **Transactions** write the stock rows they have read, with what is ordered. -/
theorem orderly_txn {q : Request} (hq : q.Ok args) : Orderly args q (txn args q) := by
  cases q with
  | newOrder w x => exact orderly_txnNewOrder hq.2
  | payment w x => exact orderly_txnPayment
  | delivery w x => exact orderly_deliverDistricts _ _
  | orderStatus w x =>
    exact orderly_issue (fun _ => ⟨⟩) fun o => orderly_issue (fun _ => ⟨⟩) fun kvs => orderly_pure _
  | stockLevel w x =>
    refine orderly_get fun vD => orderly_issue (fun _ => ⟨⟩) fun kvs => ?_
    exact (orderly_countLowStock _ _ _).bind fun _ => orderly_pure _

end

/-! ### Runs -/

/-- All stock rows are there, their quantities in range. -/
structure Stocked (args : Args) (db : Db) : Prop where
  rows : ∀ k, args.Loads .stock k → ∃ v, (db .stock).get k = some v
  range : ∀ k v, (db .stock).get k = some v → v.InRange

theorem gives_loadStockRow (w i : ℕ) : Gives (loadStockRow w i) fun e => e.2.InRange :=
  (gives_randomNumber 10 100 (by omega) (by omega) (by omega)).bind fun n hn =>
    .pure (show 10 ≤ n.toNat ∧ n.toNat ≤ 100 by omega)

theorem stocked_start (args : Args) : Stocked args (prepareKvs args) where
  rows k hk := ((loaded_prepareKvs args).stock k).1 hk
  range k v hv := by
    have hgives : Gives (loadStock args) fun x => List.Forall₂
        (fun (_ : ℕ × ℕ) (e : SKey × SVal) => e.2.InRange)
        ((List.range' 1 args.warehouseNum).flatMap fun w =>
          (List.range' 1 numItem).flatMap fun i => [(w, i)]) x.1 :=
      gives_loop _ _ fun w _ _ _ => gives_rows (fun i => (w, i)) _ fun i _ _ => gives_loadStockRow w i
    have hmem := Table.mem_of_get_load (show (Table.load (loadStock args _).1.1).get k = some v from hv)
    obtain ⟨-, -, hrange⟩ := Table.forall₂_exists_left (hgives _) hmem
    exact hrange

/-- The machine whose threads may run transactions on any warehouse. -/
def anyMachine (args : Args) : Machine J Request Junk Op Op.Res (World J) where
  exec := World.exec
  body := txn args
  may _ q := q.Ok args

theorem Run.any {W : Workers J} {c : Threads J} (h : Run args W c) :
    Reachable (anyMachine args) (World.start args) c := by
  refine h.induct .init fun c c' _ ih hs => ih.step ?_
  cases hs with
  | start idle may => exact Step.start (M := anyMachine args) idle may.2
  | run n next => exact Step.run (M := anyMachine args) n next
  | finish ended => exact Step.finish ended

section
omit [DecidableEq J]
variable {junk : Junk} {s : World J}

/-- A stock row is there to be read. -/
theorem Stocked.fetch (h : Stocked args s.db) {k : SKey} (hk : args.Loads .stock k) :
    (s.fetch junk .stock k).1 = true ∧ (s.fetch junk .stock k).2.InRange := by
  obtain ⟨v, hv⟩ := h.rows k hk
  simp only [World.fetch, hv]
  exact ⟨trivial, h.range k v hv⟩

/-- What changes other tables leaves stock alone. -/
theorem Stocked.update (h : Stocked args s.db) {t : Tab} (ht : t ≠ .stock) (T : Table t.Key t.Val) :
    Stocked args (Function.update s.db t T) := by
  have hsame : Function.update s.db t T .stock = s.db .stock := Function.update_of_ne (Ne.symm ht) _ _
  exact ⟨fun k hk => hsame ▸ h.rows k hk, fun k v hv => h.range k v (hsame ▸ hv)⟩

theorem Stocked.insert (h : Stocked args s.db) (k : SKey) {x : SVal} (hx : x.InRange) :
    Stocked args (Function.update s.db .stock ((s.db .stock).insert k x)) where
  rows k' hk' := by
    rw [Function.update_self, Table.get_insert]
    split_ifs
    · exact ⟨x, rfl⟩
    · exact h.rows k' hk'
  range k' v hv := by
    rw [Function.update_self, Table.get_insert] at hv
    split_ifs at hv
    · exact Option.some.inj hv ▸ hx
    · exact h.range k' v hv

end

/-- **What an operation does** on stock. -/
theorem answers_quantity (args : Args) :
    Answers (anyMachine (J := J) args) (fun s => Stocked args s.db) (quantityOps args) where
  next _ _ _ _ := rfl
  body _ _ hq := orderly_txn hq
  exec j q junk o s a hs ho := by
    cases o with
    | get t k =>
      refine ⟨?_, hs⟩
      cases t with
      | stock => exact fun hk => hs.fetch hk
      | _ => exact ⟨⟩
    | insert t k x =>
      refine ⟨⟨⟩, ?_⟩
      by_cases ht : t = .stock
      · subst ht
        obtain ⟨w, -, item, v, -, -, hok, -, -, hv, hx⟩ := ho
        rw [hx]
        exact hs.insert k (SVal.ordered_quantity hv hok w).2
      · exact hs.update ht _
    | remove t k =>
      refine ⟨⟨⟩, hs.update (fun ht => ?_) _⟩
      subst ht
      exact ho
    | _ => exact ⟨⟨⟩, hs⟩

/-- **Stock quantities** stay in range, and every write takes from the row read last. -/
theorem stock_in_range (args : Args) :
    (∀ c : Threads J, Reachable (anyMachine args) (World.start args) c →
      ∀ k v, (c.state.db .stock).get k = some v → 10 ≤ v.sQuantity ∧ v.sQuantity ≤ 100) ∧
      ∀ c, Answering (anyMachine (J := J) args) (World.start args) c →
        ∀ j q k x f, c.thread j = some (q, .op (.insert .stock k x) f) →
          ∃ w y item v, q = .newOrder w y ∧ item ∈ y.items ∧ k = SKey.make item.supplyWId item.itemId ∧
            c.state.2 j = some ⟨.get .stock k, (true, v)⟩ ∧ item.Takes v x := by
  refine ⟨fun c h => ?_, fun c h j q k x f next => ?_⟩
  · obtain ⟨a, hrecall⟩ := h.recall
    exact ((answers_quantity args).reachable (stocked_start args) hrecall).1.range
  · obtain ⟨-, hall⟩ := (answers_quantity args).reachable (stocked_start args) h
    obtain ⟨w, y, item, v, hq, hmem, hok, hk, hlast, hrange, hx⟩ := (hall j q _ next).1
    rw [hx]
    exact ⟨w, y, item, v, hq, hmem, hk, hlast, (SVal.ordered_quantity hrange hok w).1⟩

/-- A run to where worker 0 is about to write the row its order has read. -/
theorem run_writing : ∃ (c : Threads (Fin 2)) (k : SKey) (x : SVal) (f : Bool → Txn Unit),
    Run twoWarehouses twoWorkers c ∧
      c.thread 0 = some (.newOrder 1 (orderOf 1 5), .op (.insert .stock k x) f) := by
  obtain ⟨vS, hvS⟩ := ((loaded_prepareKvs twoWarehouses).stock ⟨1, 1⟩).1 ⟨isDistrict_one.1, by simp [numItem]⟩
  obtain ⟨vI, hvI⟩ := ((loaded_prepareKvs twoWarehouses).item (IKey.make 1)).1 (by decide)
  have hdb : loadedTwo.state.db = prepareKvs twoWarehouses := rfl
  rw [← hdb] at hvI hvS
  obtain ⟨s₁, kD, vD, kNO, kO, -, -, -, hleads⟩ :=
    leads_orderOf (j := 0) (w := 1) (n := 4) (q := .newOrder 1 (orderOf 1 5)) hvI hvS
  have hloaded : Run twoWarehouses twoWorkers loadedTwo := Reachable.init
  have hstart := hloaded.step (.start rfl (orderOf_may twoWorkers_owns.1 (by decide) (n := 5) (by decide)))
  exact ⟨_, _, _, _, hstart.leads blank hleads rfl (Config.set_thread_self ..), Config.set_thread_self ..⟩

theorem stock_in_range_sold :
    (∀ k v, (soldTwice.state.db .stock).get k = some v → 10 ≤ v.sQuantity ∧ v.sQuantity ≤ 100) ∧
      ∃ c k x f, Answering (anyMachine (J := Fin 2) twoWarehouses) (World.start twoWarehouses) c ∧
        c.thread 0 = some (.newOrder 1 (orderOf 1 5), .op (.insert .stock k x) f) ∧
          ∃ w y item v, Request.newOrder 1 (orderOf 1 5) = .newOrder w y ∧ item ∈ y.items ∧
            k = SKey.make item.supplyWId item.itemId ∧ c.state.2 0 = some ⟨.get .stock k, (true, v)⟩ ∧
              item.Takes v x := by
  refine ⟨(stock_in_range twoWarehouses).1 _ undisturbed_soldTwice.run.any, ?_⟩
  obtain ⟨c, k, x, f, hrun, next⟩ := run_writing
  obtain ⟨a, ha⟩ := hrun.any.recall
  exact ⟨⟨(c.state, a), c.thread⟩, k, x, f, ha, next, (stock_in_range twoWarehouses).2 _ ha 0 _ k x f next⟩

end SidleBaselines.Tpcc
