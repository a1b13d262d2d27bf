import SidleBaselines.Tpcc.World

/-!
# One warehouse, seen by its worker

Each worker writes some rows of its warehouses alone: the warehouse and district
rows, history, orders and new orders, and the keys (not the rows) of order lines.
A `View` is this part of the state. Customers, stock and order-line rows are not
in it: payments and orders for other warehouses, and `txn_delivery`'s scans that
run past a district's last order, write those of any warehouse.

## What is proved

* `view_exec` — an operation does to the view what `View.next` says, and
  (`view_gives`) gives what the view allows.
-/

namespace SidleBaselines.Tpcc

open SidleBaselines.Data SidleBaselines.Concurrency

variable {J : Type} [DecidableEq J]

/-! ### Views -/

/-- Whether only the worker of `w` writes the row; items nobody does. -/
def Tab.own (w : ℕ) : (t : Tab) → t.Key → Bool
  | warehouse, k => k.wId = w
  | district, k => k.dWId = w
  | history, k => k.hWId = w
  | order, k => k.oWId = w
  | newOrder, k => k.noWId = w
  | item, _ => true
  | customer, _ => false
  | stock, _ => false
  | orderLine, _ => false

/-- What the worker of a warehouse can rely on. -/
@[ext]
structure View where
  /-- The rows only it writes. -/
  db : Db
  /-- The warehouse's order lines there are. -/
  lines : OLKey → Prop
  /-- `pending_new_order_per_dis`. -/
  pending : ℕ → ℕ
  /-- `latest_order_id_per_customer`. -/
  latest : ℕ → ℕ → ℕ
  /-- The orders placed in each district. -/
  placed : ℕ → ℕ
  /-- The orders placed by each customer of each district. -/
  bought : ℕ → ℕ → ℕ
  /-- The worker's clock readings. -/
  calls : ℕ

/-- The view of `w` at `s`, by a worker with `n` clock readings. -/
def viewAt (w n : ℕ) (s : World J) : View where
  db t := (s.db t).restrict (t.own w)
  lines k := k.olWId = w ∧ ∃ v, (s.db .orderLine).get k = some v
  pending := s.pending w
  latest := s.latest w
  placed := s.placed w
  bought := s.bought w
  calls := n

omit [DecidableEq J] in
theorem viewAt_get {s : World J} {w n : ℕ} {t : Tab} {k : t.Key} (h : t.own w k) :
    ((viewAt w n s).db t).get k = (s.db t).get k := by
  simp only [viewAt, Table.get_restrict, h, if_true]

namespace View

/-- The view with a row put in, if it is one of the view's. -/
def put (w : ℕ) (v : View) (t : Tab) (k : t.Key) (x : t.Val) : View :=
  { v with db := Function.update v.db t (if t.own w k then (v.db t).insert k x else v.db t) }

/-- What an operation may give. -/
def gives (w : ℕ) (v : View) : (o : Op) → o.Res → Prop
  | .get t k, r => t.own w k →
      (∀ x, (v.db t).get k = some x → r = (true, x)) ∧ ((v.db t).get k = none → r.1 = false)
  | .scan .orderLine _ _, r => ∀ e ∈ r, e.1.olWId = w → v.lines e.1
  | .getCurrentTimeMillis, r => r = clock v.calls
  | .pending w' d, r => w' = w → r = v.pending d
  | .latest w' d c, r => w' = w → r = v.latest d c
  | _, _ => True

/-- The view after an operation. -/
@[simp] def next (w : ℕ) (v : View) (o : Op) : View :=
  match o with
  | .insert .newOrder k x =>
    { v.put w .newOrder k x with
      placed := fun d => v.placed d + if k.noWId = w ∧ k.noDId = d then 1 else 0 }
  | .insert .orderLine k _ => { v with lines := fun a => v.lines a ∨ (a = k ∧ k.olWId = w) }
  | .insert t k x => v.put w t k x
  | .remove .orderLine k => { v with lines := fun a => v.lines a ∧ a ≠ k }
  | .remove t k => { v with db := Function.update v.db t (if t.own w k then (v.db t).remove k else v.db t) }
  | .getCurrentTimeMillis => { v with calls := v.calls + 1 }
  | .setPending w' d o => if w' = w then { v with pending := Function.update v.pending d o } else v
  | .setLatest w' d c o =>
    { v with
      latest := if w' = w then Function.update v.latest d (Function.update (v.latest d) c o) else v.latest
      bought := fun d' c' => v.bought d' c' + if w' = w ∧ d = d' ∧ c = c' then 1 else 0 }
  | _ => v

end View

/-! ### What an operation does to the view -/

section
variable {w n : ℕ} {s : World J} {j : J} {q : Request}

theorem restrict_insert_row (db : Db) (t : Tab) (k : t.Key) (x : t.Val) :
    (fun t' => (Function.update db t ((db t).insert k x) t').restrict (t'.own w)) =
      Function.update (fun t' => (db t').restrict (t'.own w)) t
        (if t.own w k then ((db t).restrict (t.own w)).insert k x else (db t).restrict (t.own w)) := by
  funext t'
  by_cases h : t' = t
  · subst h
    simp only [Function.update_self]
    split_ifs with hk
    · exact Table.restrict_insert hk
    · exact Table.restrict_insert_of_not hk
  · simp only [Function.update_of_ne h]

theorem restrict_remove_row (db : Db) (t : Tab) (k : t.Key) :
    (fun t' => (Function.update db t ((db t).remove k) t').restrict (t'.own w)) =
      Function.update (fun t' => (db t').restrict (t'.own w)) t
        (if t.own w k then ((db t).restrict (t.own w)).remove k else (db t).restrict (t.own w)) := by
  funext t'
  by_cases h : t' = t
  · subst h
    simp only [Function.update_self]
    split_ifs with hk
    · exact Table.restrict_remove hk
    · exact Table.restrict_remove_of_not hk
  · simp only [Function.update_of_ne h]

theorem view_insert {t : Tab} {k : t.Key} {x : t.Val} (ht : t ≠ .newOrder) (hl : t ≠ .orderLine)
    (junk : Junk) : viewAt w n (s.exec j q junk (.insert t k x)).2 = (viewAt w n s).put w t k x := by
  ext1
  · exact restrict_insert_row s.db t k x
  · funext a
    simp [viewAt, World.exec, World.record, View.put, Function.update_of_ne hl.symm]
  · rfl
  · rfl
  · funext d
    have : (Op.insert t k x).places w d = false := by cases t <;> first | contradiction | rfl
    simp [viewAt, placed_exec, this, View.put]
  · funext d c
    simp [viewAt, bought_exec, Op.buys, View.put]
  · rfl

theorem view_place {k : NOKey} {x : NOVal} (junk : Junk) :
    viewAt w n (s.exec j q junk (.insert .newOrder k x)).2 =
      (viewAt w n s).next w (.insert .newOrder k x) := by
  ext1
  · exact restrict_insert_row s.db .newOrder k x
  · rfl
  · rfl
  · rfl
  · funext d
    simp [viewAt, placed_exec, Op.places, View.next]
  · funext d c
    simp [viewAt, bought_exec, Op.buys, View.next, View.put]
  · rfl

theorem view_line {k : OLKey} {x : OLVal} (junk : Junk) :
    viewAt w n (s.exec j q junk (.insert .orderLine k x)).2 =
      (viewAt w n s).next w (.insert .orderLine k x) := by
  ext1
  · refine (restrict_insert_row s.db .orderLine k x).trans ?_
    simp [Tab.own, View.next, viewAt]
  · funext a
    simp only [viewAt, World.exec, World.record, View.next, Function.update_self, Table.get_insert]
    refine propext ⟨fun h => ?_, fun h => ?_⟩
    · by_cases ha : k = a
      · exact .inr ⟨ha.symm, ha ▸ h.1⟩
      · exact .inl (by simpa [ha] using h)
    · rcases h with h | ⟨rfl, h⟩
      · by_cases ha : k = a
        · exact ⟨h.1, x, by simp [ha]⟩
        · simpa [ha] using h
      · exact ⟨h, x, by simp⟩
  · rfl
  · rfl
  · funext d
    simp [viewAt, placed_exec, Op.places, View.next]
  · funext d c
    simp [viewAt, bought_exec, Op.buys, View.next]
  · rfl

theorem view_remove {t : Tab} {k : t.Key} (junk : Junk) :
    viewAt w n (s.exec j q junk (.remove t k)).2 = (viewAt w n s).next w (.remove t k) := by
  ext1
  · refine (restrict_remove_row s.db t k).trans ?_
    cases t <;> first | rfl | simp [Tab.own, View.next, viewAt]
  · funext a
    by_cases ht : t = .orderLine
    · subst ht
      simp only [viewAt, World.exec, World.record, View.next, Function.update_self, Table.get_remove]
      refine propext ?_
      constructor
      · rintro ⟨hw, v, h⟩
        split_ifs at h with ha
        exact ⟨⟨hw, v, h⟩, Ne.symm ha⟩
      · rintro ⟨⟨hw, v, h⟩, ha⟩
        refine ⟨hw, v, ?_⟩
        rw [if_neg (Ne.symm ha), h]
    · have : ((viewAt w n s).next w (.remove t k)).lines = (viewAt w n s).lines := by
        cases t <;> first | contradiction | rfl
      rw [this]
      simp [viewAt, World.exec, World.record, Function.update_of_ne (Ne.symm ht)]
  · cases t <;> rfl
  · cases t <;> rfl
  · funext d
    cases t <;> simp [viewAt, placed_exec, Op.places, View.next]
  · funext d c
    cases t <;> simp [viewAt, bought_exec, Op.buys, View.next]
  · cases t <;> rfl

/-- An operation that only reads. -/
theorem view_read {o : Op} (junk : Junk) (hdb : (s.exec j q junk o).2.db = s.db)
    (hpending : (s.exec j q junk o).2.pending = s.pending)
    (hlatest : (s.exec j q junk o).2.latest = s.latest) (hp : ∀ d, o.places w d = false)
    (hb : ∀ d c, o.buys w d c = false) : viewAt w n (s.exec j q junk o).2 = viewAt w n s := by
  ext1
  · simp only [viewAt, hdb]
  · simp only [viewAt, hdb]
  · simp only [viewAt, hpending]
  · simp only [viewAt, hlatest]
  · funext d; simp [viewAt, placed_exec, hp]
  · funext d c; simp [viewAt, bought_exec, hb]
  · rfl

theorem view_setPending {w' d o : ℕ} (junk : Junk) :
    viewAt w n (s.exec j q junk (.setPending w' d o)).2 = (viewAt w n s).next w (.setPending w' d o) := by
  simp only [View.next]
  have hrest : ∀ d c, (Op.setPending w' d o).buys w d c = false := fun _ _ => rfl
  ext1
  · split_ifs <;> rfl
  · split_ifs <;> rfl
  · split_ifs with h
    · subst h; simp [viewAt, World.exec, World.record]
    · simp [viewAt, World.exec, World.record, Function.update_of_ne (Ne.symm h)]
  · split_ifs <;> rfl
  · funext d'; split_ifs <;> simp [viewAt, placed_exec, Op.places]
  · funext d' c; split_ifs <;> simp [viewAt, bought_exec, Op.buys]
  · split_ifs <;> rfl

theorem view_setLatest {w' d c o : ℕ} (junk : Junk) :
    viewAt w n (s.exec j q junk (.setLatest w' d c o)).2 = (viewAt w n s).next w (.setLatest w' d c o) := by
  ext1
  · rfl
  · rfl
  · rfl
  · simp only [View.next]
    split_ifs with h
    · subst h; simp [viewAt, World.exec, World.record]
    · simp [viewAt, World.exec, World.record, Function.update_of_ne (Ne.symm h)]
  · funext d'; simp [viewAt, placed_exec, Op.places, View.next]
  · funext d' c'; simp [viewAt, bought_exec, Op.buys, View.next]
  · rfl

/-- **An operation does to its warehouse's view what `View.next` says.** -/
theorem view_exec (o : Op) (junk : Junk) :
    viewAt w ((s.exec j q junk o).2.calls j) (s.exec j q junk o).2 =
      (viewAt w (s.calls j) s).next w o := by
  cases o with
  | get t k => exact view_read junk rfl rfl rfl (fun _ => rfl) fun _ _ => rfl
  | insert t k x =>
    by_cases ht : t = .newOrder
    · subst ht; exact view_place junk
    · by_cases hl : t = .orderLine
      · subst hl; exact view_line junk
      · refine (view_insert ht hl junk).trans ?_
        cases t <;> first | contradiction | rfl
  | remove t k => exact view_remove junk
  | scan t k n => exact view_read junk rfl rfl rfl (fun _ => rfl) fun _ _ => rfl
  | getCurrentTimeMillis =>
    have : (s.exec j q junk .getCurrentTimeMillis).2.calls j = s.calls j + 1 := by
      simp [World.exec, World.record]
    rw [this]
    refine (view_read (n := s.calls j + 1) junk rfl rfl rfl (fun _ => rfl) fun _ _ => rfl).trans ?_
    rfl
  | pending w' d => exact view_read junk rfl rfl rfl (fun _ => rfl) fun _ _ => rfl
  | setPending w' d o => exact view_setPending junk
  | latest w' d c => exact view_read junk rfl rfl rfl (fun _ => rfl) fun _ _ => rfl
  | setLatest w' d c o => exact view_setLatest junk

/-- And it gives what the view allows. -/
theorem view_gives (o : Op) (junk : Junk) :
    (viewAt w (s.calls j) s).gives w o (s.exec j q junk o).1 := by
  cases o with
  | get t k =>
    intro hk
    have hget : ((viewAt w (s.calls j) s).db t).get k = (s.db t).get k := by
      simp only [viewAt, Table.get_restrict, hk, if_true]
    rw [hget]
    simp only [World.exec, World.fetch, World.record]
    refine ⟨fun x hx => ?_, fun hx => ?_⟩ <;> rw [hx]
  | scan t k n =>
    cases t <;> first | trivial | skip
    exact fun e he hw => ⟨hw, e.2, (Table.mem_scan he).1⟩
  | pending w' d => rintro rfl; rfl
  | latest w' d c => rintro rfl; rfl
  | getCurrentTimeMillis => rfl
  | _ => trivial

end

end SidleBaselines.Tpcc
