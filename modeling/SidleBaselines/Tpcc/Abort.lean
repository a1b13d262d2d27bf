import SidleBaselines.Tpcc.World

/-!
# Backing out of an order

`txn_new_order` gives up at an item that has no row. It takes the district's counter back, and
its own rows out of the new orders and the orders; but not what it has done to stock and to
the order lines by then, nor what it has noted in the two side arrays.

## What is proved

* `aborts_iff` — it gives up exactly if an item of the order has no row.
* `stock_newOrderLines` — a stock row counts the lines placed for it.
* `abort_traceless` — the tables and the side arrays are as they were exactly if it gives up
  at the first item, its district was there, and its order's rows and notes were what it leaves.
-/

namespace SidleBaselines.Tpcc

open SidleBaselines.Data SidleBaselines.Concurrency

variable {J : Type} [DecidableEq J]

/-! ### Giving up -/

/-- The operation takes an order out, as `txn_new_order` does when it gives up. -/
def Op.backsOut : Op → Bool
  | .remove .order _ => true
  | _ => false

/-- How many orders have been taken out. -/
def World.backedOut (s : World J) : ℕ := s.trace.countP fun e => e.op.backsOut

/-- `txn_new_order`, run alone from `s`, comes to give up. -/
def Aborts (j : J) (junk : Junk) (w : ℕ) (x : NewOrder) (s : World J) : Prop :=
  ∃ kD vD kNO kO s₁, Prog.Leads (World.exec j (.newOrder w x) junk) (txnNewOrder w x, s)
    (abortNewOrder kD vD kNO kO, s₁)

/-- The tables and the side arrays are the same. -/
structure Untouched (s s' : World J) : Prop where
  db : s'.db = s.db
  pending : s'.pending = s.pending
  latest : s'.latest = s.latest

section
variable {α : Type} {j : J} {q : Request} {junk : Junk} {s : World J}

theorem backedOut_exec (o : Op) :
    (s.exec j q junk o).2.backedOut = s.backedOut + if o.backsOut then 1 else 0 := by
  rw [World.backedOut, trace_exec, List.countP_cons, World.backedOut]

theorem backedOut_leads {y z : Txn α × World J} (h : Prog.Leads (World.exec j q junk) y z) :
    y.2.backedOut ≤ z.2.backedOut := by
  induction h with
  | refl => exact le_rfl
  | op o k h ih =>
    refine le_trans ?_ ih
    rw [backedOut_exec]
    exact Nat.le_add_right _ _

variable {w d l : ℕ} {kD : DKey} {vD : DVal} {kNO : NOKey} {kO : OKey} {item : OrderItem} {items : List OrderItem}

/-- What backing out does. -/
theorem run_abortNewOrder (j : J) (q : Request) (junk : Junk) (s : World J) (kD : DKey) (vD : DVal)
    (kNO : NOKey) (kO : OKey) :
    let s' := ((abortNewOrder kD vD kNO kO).run (World.exec j q junk) s).2
    s'.db .district = (s.db .district).insert kD { vD with dNextOId := u32 (vD.dNextOId - 1) } ∧
      s'.db .newOrder = (s.db .newOrder).remove kNO ∧ s'.db .order = (s.db .order).remove kO ∧
      (∀ t, t ≠ .district → t ≠ .newOrder → t ≠ .order → s'.db t = s.db t) ∧
      s'.pending = s.pending ∧ s'.latest = s.latest ∧ s'.backedOut = s.backedOut + 1 := by
  refine ⟨rfl, rfl, rfl, fun t h₁ h₂ h₃ => ?_, rfl, rfl, ?_⟩
  · cases t <;> first | rfl | contradiction
  · simp only [abortNewOrder, insert, remove, Prog.issue_bind, Prog.run_op, Prog.pure_eq_ret, Prog.run_ret,
      backedOut_exec, Op.backsOut]
    rfl

/-! ### The loop -/

/-- The state after the line of an item whose row is `vI`. -/
def World.line (s : World J) (j : J) (q : Request) (junk : Junk) (w d : ℕ) (kNO : NOKey) (l : ℕ)
    (item : OrderItem) (vI : IVal) : World J :=
  let k := SKey.make item.supplyWId item.itemId
  let s := s.record j q (.get .item (IKey.make item.itemId))
  let vS := s.fetch junk .stock k
  let s := s.record j q (.get .stock k)
  let s := (s.exec j q junk (.insert .stock k (vS.2.ordered w item))).2
  (s.exec j q junk (.insert .orderLine (OLKey.make w d kNO.noOId l) (item.line vI))).2

theorem leads_found {vI : IVal} (h : (s.db .item).get (IKey.make item.itemId) = some vI)
    {y : Txn Unit × World J} (hl : Prog.Leads (World.exec j q junk)
      (newOrderLines w d kD vD kNO kO (l + 1) items, s.line j q junk w d kNO l item vI) y) :
    Prog.Leads (World.exec j q junk) (newOrderLines w d kD vD kNO kO l (item :: items), s) y := by
  unfold newOrderLines
  refine leads_get h ?_
  rw [if_pos rfl]
  exact .op _ _ (.op _ _ (.op _ _ hl))

theorem leads_absent (h : (s.db .item).get (IKey.make item.itemId) = none) :
    Prog.Leads (World.exec j q junk) (newOrderLines w d kD vD kNO kO l (item :: items), s)
      (abortNewOrder kD vD kNO kO, s.record j q (.get .item (IKey.make item.itemId))) := by
  have hfetch : World.exec j q junk (.get .item (IKey.make item.itemId)) s =
      ((false, junk .item), s.record j q (.get .item (IKey.make item.itemId))) := by
    simp only [World.exec, World.fetch, World.record, h]
  unfold newOrderLines
  refine .op _ _ ?_
  rw [hfetch]
  exact .refl _

theorem run_found {vI : IVal} (h : (s.db .item).get (IKey.make item.itemId) = some vI) :
    (newOrderLines w d kD vD kNO kO l (item :: items)).run (World.exec j q junk) s =
      (newOrderLines w d kD vD kNO kO (l + 1) items).run (World.exec j q junk)
        (s.line j q junk w d kNO l item vI) :=
  (leads_found h (.refl _)).run_eq

theorem run_absent (h : (s.db .item).get (IKey.make item.itemId) = none) :
    (newOrderLines w d kD vD kNO kO l (item :: items)).run (World.exec j q junk) s =
      (abortNewOrder kD vD kNO kO).run (World.exec j q junk)
        (s.record j q (.get .item (IKey.make item.itemId))) :=
  (leads_absent h).run_eq

/-- An item without a row ends the loop. -/
theorem leads_abort (h : ∃ item ∈ items, (s.db .item).get (IKey.make item.itemId) = none) :
    ∃ s₁, Prog.Leads (World.exec j q junk) (newOrderLines w d kD vD kNO kO l items, s)
      (abortNewOrder kD vD kNO kO, s₁) := by
  induction items generalizing l s with
  | nil =>
    obtain ⟨_, h, -⟩ := h
    cases h
  | cons item items ih =>
    cases hitem : (s.db .item).get (IKey.make item.itemId) with
    | none => exact ⟨_, leads_absent hitem⟩
    | some vI =>
      obtain ⟨item', hmem, hnone⟩ := h
      rcases List.mem_cons.mp hmem with rfl | hmem
      · rw [hitem] at hnone
        cases hnone
      · obtain ⟨s₁, hl⟩ := ih (l := l + 1) (s := s.line j q junk w d kNO l item vI) ⟨item', hmem, hnone⟩
        exact ⟨s₁, leads_found hitem hl⟩

/-- If every item has one, no order is taken out. -/
theorem backedOut_newOrderLines
    (h : ∀ item ∈ items, ∃ vI, (s.db .item).get (IKey.make item.itemId) = some vI) :
    ((newOrderLines w d kD vD kNO kO l items).run (World.exec j q junk) s).2.backedOut = s.backedOut := by
  induction items generalizing l s with
  | nil => rfl
  | cons item items ih =>
    obtain ⟨vI, hvI⟩ := h item List.mem_cons_self
    have hrest := ih (s := s.line j q junk w d kNO l item vI) (l := l + 1) fun item' hmem =>
      h item' (List.mem_cons_of_mem _ hmem)
    rw [run_found hvI, hrest]
    unfold World.line
    rw [backedOut_exec, backedOut_exec]
    rfl

/-! ### Stock -/

/-- Row `b` is row `a` after `n` order lines for it. -/
structure AfterLines (n : ℕ) (a b : Option SVal) : Prop where
  there : 0 < n → b ≠ none
  count : ∀ v, a = some v → ∃ v', b = some v' ∧ v'.sOrderCnt % 2 ^ 32 = (v.sOrderCnt + n) % 2 ^ 32

namespace AfterLines

variable {m n : ℕ} {a b c : Option SVal}

theorem zero (a : Option SVal) : AfterLines 0 a a := ⟨fun h => absurd h (lt_irrefl 0), fun v h => ⟨v, h, rfl⟩⟩

theorem one (v : SVal) (w : ℕ) (item : OrderItem) : AfterLines 1 (some v) (some (v.ordered w item)) where
  there _ h := by cases h
  count u hu := by
    obtain rfl := Option.some.inj hu
    refine ⟨_, rfl, ?_⟩
    simp only [SVal.ordered, u32_succ, Nat.mod_mod]

theorem trans (h : AfterLines m a b) (h' : AfterLines n b c) : AfterLines (m + n) a c where
  there hpos := by
    by_cases hn : 0 < n
    · exact h'.there hn
    · obtain ⟨v, hv⟩ := Option.ne_none_iff_exists'.mp (h.there (by omega))
      obtain ⟨v', hv', -⟩ := h'.count v hv
      rw [hv']
      exact Option.some_ne_none _
  count v hv := by
    obtain ⟨v', hv', h₁⟩ := h.count v hv
    obtain ⟨v'', hv'', h₂⟩ := h'.count v' hv'
    exact ⟨v'', hv'', by omega⟩

/-- The count tells after any lines at all. -/
theorem ne (h : AfterLines n a b) (hpos : 0 < n) (hlt : n < 2 ^ 32) : a ≠ b := by
  rintro rfl
  obtain ⟨v, hv⟩ := Option.ne_none_iff_exists'.mp (h.there hpos)
  obtain ⟨v', hv', hcount⟩ := h.count v hv
  obtain rfl := Option.some.inj (hv.symm.trans hv')
  omega

end AfterLines

theorem afterLines_line (s : World J) (j : J) (q : Request) (junk : Junk) (w d : ℕ) (kNO : NOKey) (l : ℕ)
    (item : OrderItem) (vI : IVal) (k : SKey) :
    AfterLines (if SKey.make item.supplyWId item.itemId = k then 1 else 0) ((s.db .stock).get k)
      (((s.line j q junk w d kNO l item vI).db .stock).get k) := by
  have hline : (s.line j q junk w d kNO l item vI).db .stock = (s.db .stock).insert
      (SKey.make item.supplyWId item.itemId)
      ((s.fetch junk .stock (SKey.make item.supplyWId item.itemId)).2.ordered w item) := rfl
  rw [hline, Table.get_insert]
  split_ifs with hk
  · subst hk
    unfold World.fetch
    cases hv : (s.db .stock).get (SKey.make item.supplyWId item.itemId) with
    | none => exact ⟨fun _ => Option.some_ne_none _, fun v h => nomatch h⟩
    | some v => exact AfterLines.one v w item
  · exact AfterLines.zero _

/-- **A stock row counts** the lines placed for it. -/
theorem stock_newOrderLines (j : J) (q : Request) (junk : Junk) (w d : ℕ) (kD : DKey) (vD : DVal)
    (kNO : NOKey) (kO : OKey) (items : List OrderItem) (l : ℕ) (s : World J) (k : SKey) :
    ∃ n ≤ items.length, AfterLines n ((s.db .stock).get k)
      ((((newOrderLines w d kD vD kNO kO l items).run (World.exec j q junk) s).2.db .stock).get k) := by
  induction items generalizing l s with
  | nil => exact ⟨0, le_rfl, AfterLines.zero _⟩
  | cons item items ih =>
    cases hitem : (s.db .item).get (IKey.make item.itemId) with
    | none =>
      rw [run_absent hitem]
      exact ⟨0, Nat.zero_le _, AfterLines.zero _⟩
    | some vI =>
      rw [run_found hitem]
      obtain ⟨n, hn, hafter⟩ := ih (l + 1) (s.line j q junk w d kNO l item vI)
      refine ⟨_, ?_, (afterLines_line s j q junk w d kNO l item vI k).trans hafter⟩
      rw [List.length_cons]
      split_ifs <;> omega

/-- After a first line stock is not what it was. -/
theorem stock_ne {vI : IVal} (hitem : (s.db .item).get (IKey.make item.itemId) = some vI)
    (hlength : items.length < 2 ^ 31) :
    ((newOrderLines w d kD vD kNO kO l (item :: items)).run (World.exec j q junk) s).2.db .stock ≠ s.db .stock := by
  intro hsame
  let k := SKey.make item.supplyWId item.itemId
  obtain ⟨n, hn, hafter⟩ := stock_newOrderLines j q junk w d kD vD kNO kO items (l + 1)
    (s.line j q junk w d kNO l item vI) k
  rw [run_found hitem] at hsame
  rw [hsame] at hafter
  have htwice := (afterLines_line s j q junk w d kNO l item vI k).trans hafter
  rw [if_pos rfl] at htwice
  exact htwice.ne (by omega) (by omega) rfl

end

/-! ### The transaction -/

/-- The state the loop of `txn_new_order` begins in, `vD` being the district's row as it is
written, and `o` the order's id. -/
structure Placed (w : ℕ) (x : NewOrder) (vD : DVal) (s s₁ : World J) : Prop where
  district : s₁.db .district = (s.db .district).insert (DKey.make w x.districtId) vD
  newOrder : ∃ v, s₁.db .newOrder = (s.db .newOrder).insert (NOKey.make w x.districtId vD.dNextOId) v
  order : ∃ v, s₁.db .order =
    (s.db .order).insert (OKey.make w x.districtId (NOKey.make w x.districtId vD.dNextOId).noOId) v
  others : ∀ t, t ≠ .district → t ≠ .newOrder → t ≠ .order → s₁.db t = s.db t
  pending : s₁.pending = Function.update s.pending w (Function.update (s.pending w) x.districtId vD.dNextOId)
  latest : s₁.latest = Function.update s.latest w (Function.update (s.latest w) x.districtId
    (Function.update (s.latest w x.districtId) x.customerId vD.dNextOId))
  backedOut : s₁.backedOut = s.backedOut

section
variable {j : J} {q : Request} {junk : Junk} {s : World J} {w : ℕ} {x : NewOrder}

/-- `txn_new_order` comes to its loop. -/
theorem leads_placed (j : J) (q : Request) (junk : Junk) (s : World J) (w : ℕ) (x : NewOrder) :
    let v := (s.fetch junk .district (DKey.make w x.districtId)).2
    let vD : DVal := { v with dNextOId := u32 (v.dNextOId + 1) }
    let kNO := NOKey.make w x.districtId vD.dNextOId
    ∃ s₁, Placed w x vD s s₁ ∧ Prog.Leads (World.exec j q junk) (txnNewOrder w x, s)
      (newOrderLines w x.districtId (DKey.make w x.districtId) vD kNO
        (OKey.make w x.districtId kNO.noOId) 1 x.items, s₁) := by
  refine ⟨_, ?_, .op _ _ (.op _ _ (.op _ _ (.op _ _ (.op _ _ (.op _ _ (.op _ _ (.op _ _ (.op _ _
    (.refl _)))))))))⟩
  exact {
    district := rfl
    newOrder := ⟨_, rfl⟩
    order := ⟨_, rfl⟩
    others := fun t h₁ h₂ h₃ => by cases t <;> first | rfl | contradiction
    pending := rfl
    latest := rfl
    backedOut := by
      simp only [backedOut_exec, Op.backsOut]
      rfl }

omit [DecidableEq J] in
theorem Placed.record {vD : DVal} {s₁ : World J} (h : Placed w x vD s s₁) (j : J) (q : Request) (t : Tab)
    (k : t.Key) : Placed w x vD s (s₁.record j q (.get t k)) :=
  { h with backedOut := h.backedOut }

/-- **It gives up** exactly if an item of the order has no row. -/
theorem aborts_iff : Aborts j junk w x s ↔
    ∃ item ∈ x.items, (s.db .item).get (IKey.make item.itemId) = none := by
  obtain ⟨s₁, hplaced, hleads⟩ := leads_placed j (.newOrder w x) junk s w x
  have hitem : s₁.db .item = s.db .item := hplaced.others .item (by decide) (by decide) (by decide)
  constructor
  · rintro ⟨kD, vD, kNO, kO, s₂, habort⟩
    by_contra hall
    have hfound : ∀ item ∈ x.items, ∃ vI, (s₁.db .item).get (IKey.make item.itemId) = some vI := by
      intro item hmem
      rw [hitem]
      exact Option.ne_none_iff_exists'.mp fun hnone => hall ⟨item, hmem, hnone⟩
    -- the run takes an order out if it gives up, and none if it has all its items
    have hone := (run_abortNewOrder j (.newOrder w x) junk s₂ kD vD kNO kO).2.2.2.2.2.2
    have hle := backedOut_leads habort
    have hruns := hleads.run_eq.symm.trans habort.run_eq
    dsimp only at hruns hle
    rw [← hruns, backedOut_newOrderLines hfound, hplaced.backedOut] at hone
    omega
  · intro h
    rw [← hitem] at h
    obtain ⟨s₂, habort⟩ := leads_abort h
    exact ⟨_, _, _, _, s₂, hleads.trans habort⟩

end

/-! ### Traces -/

/-- The district's row is `vD`, and of the order it would be given there is nothing but its id
in the side arrays. -/
structure Noted (w : ℕ) (x : NewOrder) (vD : DVal) (s : World J) : Prop where
  district : (s.db .district).get (DKey.make w x.districtId) = some vD
  newOrder : (s.db .newOrder).get (NOKey.make w x.districtId (u32 (vD.dNextOId + 1))) = none
  order : (s.db .order).get (OKey.make w x.districtId (u32 (vD.dNextOId + 1))) = none
  pending : s.pending w x.districtId = u32 (vD.dNextOId + 1)
  latest : s.latest w x.districtId x.customerId = u32 (vD.dNextOId + 1)

/-- An order that leaves no trace when it is given up: at its first item, and with nothing but
its id noted. -/
structure Traceless (w : ℕ) (x : NewOrder) (s : World J) : Prop where
  first : ∃ item items, x.items = item :: items ∧ (s.db .item).get (IKey.make item.itemId) = none
  noted : ∃ vD, Noted w x vD s

theorem insert_remove {K V : Type} [LinearOrder K] {T : Table K V} {k : K} (h : T.get k = none) (v : V) :
    (T.insert k v).remove k = T := by
  refine Table.ext_get fun a => ?_
  rw [Table.get_remove, Table.get_insert]
  split_ifs with hk
  · rw [← hk, h]
  · rfl

theorem insert_insert {K V : Type} [LinearOrder K] {T : Table K V} {k : K} {v : V} (h : T.get k = some v)
    (u : V) :
    (T.insert k u).insert k v = T := by
  refine Table.ext_get fun a => ?_
  rw [Table.get_insert, Table.get_insert]
  split_ifs with hk
  · rw [← hk, h]
  · rfl

/-- The counter comes back. -/
theorem u32_back {n : ℕ} (h : n < 2 ^ 32) : u32 (u32 (n + 1) - 1) = n := by
  unfold u32
  omega

section
variable {j : J} {q : Request} {junk : Junk} {s s₁ : World J} {w : ℕ} {x : NewOrder} {vD : DVal}

/-- The order's rows, taken back. -/
theorem tables_back (hplaced : Placed w x vD s s₁) {v : DVal} (h : Noted w x v s)
    (hvD : vD = { v with dNextOId := u32 (v.dNextOId + 1) }) (hcounter : v.dNextOId < 2 ^ 32) (t : Tab) :
    let kNO := NOKey.make w x.districtId vD.dNextOId
    ((abortNewOrder (DKey.make w x.districtId) vD kNO (OKey.make w x.districtId kNO.noOId)).run
      (World.exec j q junk) s₁).2.db t = s.db t := by
  intro kNO
  have hnext : vD.dNextOId = u32 (v.dNextOId + 1) := by rw [hvD]
  have hid : kNO.noOId = vD.dNextOId := Nat.mod_eq_of_lt (by rw [hnext]; exact u32_lt _)
  obtain ⟨hdistrict, hnewOrder, horder, hothers, -⟩ :=
    run_abortNewOrder j q junk s₁ (DKey.make w x.districtId) vD kNO
      (OKey.make w x.districtId kNO.noOId)
  obtain ⟨vNO, hplacedNO⟩ := hplaced.newOrder
  obtain ⟨vO, hplacedO⟩ := hplaced.order
  by_cases h₁ : t = .district
  · subst h₁
    have hback : ({ vD with dNextOId := u32 (vD.dNextOId - 1) } : DVal) = v := by
      rw [hvD]
      dsimp only
      rw [u32_back hcounter]
    rw [hdistrict, hplaced.district, hback]
    exact insert_insert h.district _
  by_cases h₂ : t = .newOrder
  · subst h₂
    rw [hnewOrder, hplacedNO]
    refine insert_remove ?_ _
    rw [hvD]
    exact h.newOrder
  by_cases h₃ : t = .order
  · subst h₃
    rw [horder, hplacedO]
    refine insert_remove ?_ _
    have hnone := h.order
    rw [hid, hvD]
    exact hnone
  · rw [hothers t h₁ h₂ h₃, hplaced.others t h₁ h₂ h₃]

/-- What an order given up at its first item leaves. -/
theorem untouched_iff (hplaced : Placed w x vD s s₁)
    (hvD : ∀ v, (s.db .district).get (DKey.make w x.districtId) =
    some v → vD = { v with dNextOId := u32 (v.dNextOId + 1) } ∧ v.dNextOId < 2 ^ 32) :
    let kNO := NOKey.make w x.districtId vD.dNextOId
    Untouched s ((abortNewOrder (DKey.make w x.districtId) vD kNO
      (OKey.make w x.districtId kNO.noOId)).run (World.exec j q junk) s₁).2 ↔ ∃ v, Noted w x v s := by
  intro kNO
  obtain ⟨hdistrict, hnewOrder, horder, -, hpending, hlatest, -⟩ :=
    run_abortNewOrder j q junk s₁ (DKey.make w x.districtId) vD kNO
      (OKey.make w x.districtId kNO.noOId)
  constructor
  · rintro ⟨hdb, hpend, hlate⟩
    rw [hdb] at hdistrict hnewOrder horder
    have hrow : (s.db .district).get (DKey.make w x.districtId) =
        some { vD with dNextOId := u32 (vD.dNextOId - 1) } := by
      rw [hdistrict, Table.get_insert_self]
    obtain ⟨hv, -⟩ := hvD _ hrow
    have hnext := congrArg DVal.dNextOId hv
    dsimp only at hnext
    have hid : kNO.noOId = vD.dNextOId := Nat.mod_eq_of_lt (by rw [hnext]; exact u32_lt _)
    refine ⟨_, hrow, ?_, ?_, ?_, ?_⟩
    · rw [← hnext, hnewOrder]
      exact Table.get_remove_self
    · rw [← hnext, horder, hid]
      exact Table.get_remove_self
    · rw [← hnext, ← hpend, hpending, hplaced.pending, Function.update_self, Function.update_self]
    · rw [← hnext, ← hlate, hlatest, hplaced.latest, Function.update_self, Function.update_self,
        Function.update_self]
  · rintro ⟨v, h⟩
    obtain ⟨hv, hcounter⟩ := hvD v h.district
    have hnext : vD.dNextOId = u32 (v.dNextOId + 1) := by rw [hv]
    refine ⟨?_, ?_, ?_⟩
    · funext t
      exact tables_back hplaced h hv hcounter t
    · rw [hpending, hplaced.pending, hnext, ← h.pending, Function.update_eq_self, Function.update_eq_self]
    · rw [hlatest, hplaced.latest, hnext, ← h.latest, Function.update_eq_self, Function.update_eq_self,
        Function.update_eq_self]

end

/-- **An order given up** leaves no trace exactly in these cases. -/
theorem abort_traceless (j : J) (junk : Junk) (s : World J) (w : ℕ) (x : NewOrder)
    (hcount : x.items.length ≤ 15) (hcounters : ∀ k v, (s.db .district).get k = some v → v.dNextOId < 2 ^ 32)
    (habort : Aborts j junk w x s) :
    Untouched s ((txnNewOrder w x).run (World.exec j (.newOrder w x) junk) s).2 ↔ Traceless w x s := by
  obtain ⟨s₁, hplaced, hleads⟩ := leads_placed j (.newOrder w x) junk s w x
  have hitem : s₁.db .item = s.db .item := hplaced.others .item (by decide) (by decide) (by decide)
  have hstock : s₁.db .stock = s.db .stock := hplaced.others .stock (by decide) (by decide) (by decide)
  obtain ⟨item', hmem, -⟩ := aborts_iff.mp habort
  have hvD : ∀ v, (s.db .district).get (DKey.make w x.districtId) = some v →
      ({ (s.fetch junk .district (DKey.make w x.districtId)).2 with
          dNextOId := u32 ((s.fetch junk .district (DKey.make w x.districtId)).2.dNextOId + 1) } : DVal) =
        { v with dNextOId := u32 (v.dNextOId + 1) } ∧ v.dNextOId < 2 ^ 32 := by
    intro v hv
    refine ⟨?_, hcounters _ v hv⟩
    unfold World.fetch
    rw [hv]
  rw [hleads.run_eq]
  dsimp only
  cases hitems : x.items with
  | nil =>
    rw [hitems] at hmem
    cases hmem
  | cons item items =>
    cases hfirst : (s.db .item).get (IKey.make item.itemId) with
    | none =>
      rw [run_absent (by rw [hitem]; exact hfirst)]
      refine (untouched_iff (hplaced.record _ _ _ _) hvD).trans ?_
      exact ⟨fun h => ⟨⟨item, items, hitems, hfirst⟩, h⟩, fun h => h.noted⟩
    | some vI =>
      have hlength : items.length < 2 ^ 31 := by
        rw [hitems, List.length_cons] at hcount
        omega
      refine iff_of_false (fun h => ?_) fun h => ?_
      · have hsame := congrFun h.db .stock
        rw [← hstock] at hsame
        exact stock_ne (by rw [hitem]; exact hfirst) hlength hsame
      · obtain ⟨item₁, items₁, hitems₁, hnone⟩ := h.first
        obtain ⟨rfl, rfl⟩ := List.cons.inj (hitems.symm.trans hitems₁)
        rw [hfirst] at hnone
        cases hnone

/-- A district with order 3001 next, a stock row, some items, and `noted` in the side arrays. -/
def lone (items : List (IKey × IVal)) (noted : ℕ) : World (Fin 1) where
  db
    | .district => Table.load [(DKey.make 1 1, { dYtd := 30000, dTax := 0, dNextOId := 3001, dName := [] })]
    | .item => Table.load items
    | .stock => Table.load [(SKey.make 1 1, { sQuantity := 50, sYtd := 0, sOrderCnt := 0, sRemoteCnt := 0 })]
    | .warehouse | .customer | .history | .order | .newOrder | .orderLine => ∅
  pending _ _ := noted
  latest _ _ _ := noted
  calls _ := 0
  trace := []

/-- An order of item 1 four times, and of item 2. -/
def orderTwo : NewOrder where
  districtId := 1
  customerId := 1
  items := List.replicate 4 ⟨1, 1, 1⟩ ++ [⟨2, 1, 1⟩]
  allLocal := true

/-- There is no item 2: the order is given up, and stock has been taken. -/
theorem abort_leaves : Aborts 0 blank 1 orderTwo (lone [(IKey.make 1, ⟨5⟩)] 3000) ∧
    ¬ Untouched (lone [(IKey.make 1, ⟨5⟩)] 3000) ((txnNewOrder 1 orderTwo).run
      (World.exec 0 (.newOrder 1 orderTwo) blank) (lone [(IKey.make 1, ⟨5⟩)] 3000)).2 := by
  refine ⟨aborts_iff.mpr ⟨⟨2, 1, 1⟩, by simp [orderTwo], ?_⟩, fun h => ?_⟩
  · change (Table.load [(IKey.make 1, (⟨5⟩ : IVal))]).get (IKey.make 2) = none
    decide
  · obtain ⟨s₁, hplaced, hleads⟩ := leads_placed 0 (.newOrder 1 orderTwo) blank (lone [(IKey.make 1, ⟨5⟩)] 3000)
      1 orderTwo
    have hstock := hplaced.others .stock (by decide) (by decide) (by decide)
    have hitem := hplaced.others .item (by decide) (by decide) (by decide)
    rw [hleads.run_eq] at h
    have hsame := congrFun h.db .stock
    rw [← hstock] at hsame
    have hfirst : (s₁.db .item).get (IKey.make 1) = some ⟨5⟩ := by
      rw [hitem]
      change (Table.load [(IKey.make 1, (⟨5⟩ : IVal))]).get (IKey.make 1) = _
      rw [Table.get_load]
      rfl
    exact stock_ne hfirst (by decide) hsame

/-- There are no items at all, and the order's id is noted already. -/
theorem abort_traceless_noted : Untouched (lone [] 3002) ((txnNewOrder 1 orderTwo).run
    (World.exec 0 (.newOrder 1 orderTwo) blank) (lone [] 3002)).2 := by
  have hrow : ((lone [] 3002).db .district).get (DKey.make 1 1) =
      some { dYtd := 30000, dTax := 0, dNextOId := 3001, dName := [] } := by
    change (Table.load _).get _ = _
    rw [Table.get_load]
    rfl
  have hcounters : ∀ k v, ((lone [] 3002).db .district).get k = some v → v.dNextOId < 2 ^ 32 := by
    intro k v hv
    have hmem := Table.mem_of_get_load hv
    obtain ⟨rfl, rfl⟩ := Prod.mk.inj (List.mem_singleton.mp hmem)
    norm_num
  have habsent : ((lone [] 3002).db .item).get (IKey.make 1) = none := Table.get_empty
  have habort : Aborts 0 blank 1 orderTwo (lone [] 3002) :=
    aborts_iff.mpr ⟨⟨1, 1, 1⟩, by simp [orderTwo], habsent⟩
  refine (abort_traceless 0 blank (lone [] 3002) 1 orderTwo (by decide) hcounters habort).mpr ⟨?_, ?_⟩
  · exact ⟨⟨1, 1, 1⟩, _, rfl, habsent⟩
  · exact ⟨_, hrow, Table.get_empty, Table.get_empty, rfl, rfl⟩

end SidleBaselines.Tpcc
