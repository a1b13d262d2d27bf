import SidleBaselines.Tpcc.View

/-!
# Ledgers

A `Ledger` is an invariant of a warehouse's view that every transaction keeps when
run alone on the view. Workers do not disturb each other's views: a transaction
writes the rows of its own warehouse, customers, stock, and order lines that are
there already.

## What is proved

* `keeps_txn` — every transaction keeps to this footprint.
* `viewAt_frame` — an operation within the footprint of one warehouse leaves the
  view of another as it was.
* `Ledger.idle` — hence a ledger holds, in every run, of every warehouse no
  transaction is in flight on, and (`Ledger.finds`) every operation finds what the
  ledger says it does.
-/

namespace SidleBaselines.Tpcc

open SidleBaselines.Data SidleBaselines.Concurrency

variable {J : Type} [DecidableEq J]

/-! ### Footprints -/

/-- What a transaction on `w` may do, the order lines `K` being there. -/
@[simp] def Footprint (w : ℕ) (K : OLKey → Prop) : Op → Prop
  | .insert .customer _ _ => True
  | .insert .stock _ _ => True
  | .insert .orderLine k _ => k.olWId = w ∨ K k
  | .insert .item _ _ => False
  | .insert t k _ => t.own w k
  | .remove .item _ => False
  | .remove t k => t.own w k
  | .setPending w' _ _ => w' = w
  | .setLatest w' _ _ _ => w' = w
  | _ => True

/-- Keeping track of order lines that are there: those a scan has given. -/
def footprint (w : ℕ) : Abstract Op Op.Res (OLKey → Prop) where
  pre K o := Footprint w K o
  gives _ _ _ := True
  next K o r :=
    match o, r with
    | .scan .orderLine _ _, r => fun k => K k ∨ ∃ e ∈ r, e.1 = k
    | _, _ => K

/-- The program keeps to the footprint of `w`, whatever order lines are known. -/
def Keeps {α : Type} (w : ℕ) (p : Txn α) : Prop := ∀ K, Meets (footprint w) (fun _ _ => True) p K

section
variable {α β : Type} {w : ℕ} {args : Args}

theorem keeps_pure {a : α} : Keeps w (pure a : Txn α) := fun _ => ⟨⟩

theorem Keeps.bind {p : Txn β} {f : β → Txn α} (hp : Keeps w p) (hf : ∀ b, Keeps w (f b)) :
    Keeps w (p >>= f) :=
  fun K => ((hp K).mono fun b K' _ => hf b K').bind

theorem keeps_issue {o : Op} {f : o.Res → Txn α} (h : ∀ K, Footprint w K o) (hf : ∀ r, Keeps w (f r)) :
    Keeps w (Prog.issue o >>= f) :=
  fun K => .issue (h K) fun r _ => hf r _

theorem keeps_newOrderLines (hw : args.IsWarehouse w) (d : ℕ) (kD : DKey) (vD : DVal) (kNO : NOKey)
    (kO : OKey) (hD : kD.dWId = w) (hNO : kNO.noWId = w) (hO : kO.oWId = w) (l : ℕ)
    (items : List OrderItem) : Keeps w (newOrderLines w d kD vD kNO kO l items) := by
  have hOL : w % 2 ^ 16 = w := Nat.mod_eq_of_lt (IsWarehouse.lt hw)
  induction items generalizing l with
  | nil => exact keeps_pure
  | cons item items ih =>
    refine keeps_issue (fun _ => ⟨⟩) fun vI => ?_
    split_ifs
    · refine keeps_issue (fun _ => ⟨⟩) fun vS => keeps_issue (fun _ => ⟨⟩) fun _ => ?_
      exact keeps_issue (fun _ => .inl hOL) fun _ => ih _
    · refine keeps_issue (fun _ => ?_) fun _ => keeps_issue (fun _ => ?_) fun _ =>
        keeps_issue (fun _ => ?_) fun _ => keeps_pure
      · simpa [Footprint, Tab.own] using hD
      · simpa [Footprint, Tab.own] using hNO
      · simpa [Footprint, Tab.own] using hO

theorem keeps_txnNewOrder (hw : args.IsWarehouse w) (x : NewOrder) : Keeps w (txnNewOrder w x) := by
  have hmod : w % 2 ^ 16 = w := Nat.mod_eq_of_lt (IsWarehouse.lt hw)
  refine keeps_issue (fun _ => ⟨⟩) fun _ => keeps_issue (fun _ => ⟨⟩) fun vD => ?_
  refine keeps_issue (fun _ => ?_) fun _ => keeps_issue (fun _ => ⟨⟩) fun _ => ?_
  · simpa [Footprint, Tab.own, DKey.make] using hmod
  refine keeps_issue (fun _ => ?_) fun _ => keeps_issue (fun _ => rfl) fun _ => ?_
  · simpa [Footprint, Tab.own, NOKey.make] using hmod
  refine keeps_issue (fun _ => rfl) fun _ => keeps_issue (fun _ => ⟨⟩) fun t => ?_
  refine keeps_issue (fun _ => ?_) fun _ => keeps_newOrderLines hw _ _ _ _ _ hmod hmod hmod _ _
  simpa [Footprint, Tab.own, OKey.make] using hmod

theorem keeps_txnPayment (hw : args.IsWarehouse w) (x : Payment) : Keeps w (txnPayment w x) := by
  have hmod : w % 2 ^ 16 = w := Nat.mod_eq_of_lt (IsWarehouse.lt hw)
  refine keeps_issue (fun _ => ⟨⟩) fun ts => keeps_issue (fun _ => ⟨⟩) fun vW => ?_
  refine keeps_issue (fun _ => ?_) fun _ => keeps_issue (fun _ => ⟨⟩) fun vD => ?_
  · simp only [Footprint, Tab.own, make_wKey hw, decide_true]
  refine keeps_issue (fun _ => ?_) fun _ => keeps_issue (fun _ => ⟨⟩) fun vC => ?_
  · simpa [Footprint, Tab.own, DKey.make] using hmod
  refine keeps_issue (fun _ => ⟨⟩) fun _ => keeps_issue (fun _ => ?_) fun _ => keeps_pure
  simpa [Footprint, Tab.own, HKey.make] using hmod

theorem meets_deliverLines (kvs : List (OLKey × OLVal)) (olTotal : ℚ) (K : OLKey → Prop)
    (h : ∀ e ∈ kvs, K e.1) : Meets (footprint w) (fun _ _ => True) (deliverLines olTotal kvs) K := by
  induction kvs generalizing olTotal with
  | nil => exact ⟨⟩
  | cons e kvs ih =>
    refine .issue ⟨⟩ fun ts _ => .issue (.inr (h e List.mem_cons_self)) fun _ _ => ?_
    exact ih _ fun e' he' => h e' (List.mem_cons_of_mem _ he')

theorem keeps_deliverOrder (hw : args.IsWarehouse w) (d oCarrierId o : ℕ) (vO : OVal) :
    Keeps w (deliverOrder w d oCarrierId o vO) := by
  have hmod : w % 2 ^ 16 = w := Nat.mod_eq_of_lt (IsWarehouse.lt hw)
  refine keeps_issue (fun _ => ?_) fun _ => keeps_issue (fun _ => ?_) fun _ => fun K =>
    .issue ⟨⟩ fun kvs _ => .bind ((meets_deliverLines kvs 0 _ ?_).mono fun olTotal K' _ => ?_)
  · simpa [Footprint, Tab.own, NOKey.make] using hmod
  · simpa [Footprint, Tab.own, OKey.make] using hmod
  · exact fun e he => .inr ⟨e, he, rfl⟩
  · exact .issue ⟨⟩ fun vC _ => .issue ⟨⟩ fun _ _ => ⟨⟩

theorem keeps_deliverDistricts (hw : args.IsWarehouse w) (oCarrierId : ℕ) (ds : List ℕ) :
    Keeps w (deliverDistricts w oCarrierId ds) := by
  induction ds with
  | nil => exact keeps_pure
  | cons d ds ih =>
    refine Keeps.bind ?_ fun goOn => ?_
    · refine keeps_issue (fun _ => ⟨⟩) fun o => keeps_issue (fun _ => ⟨⟩) fun vNO => ?_
      split_ifs
      · refine keeps_issue (fun _ => ⟨⟩) fun vO => ?_
        split_ifs
        · exact (keeps_deliverOrder hw d oCarrierId _ _).bind fun _ => keeps_pure
        · exact keeps_pure
      · exact keeps_pure
    · split_ifs
      · exact ih
      · exact keeps_pure

theorem keeps_countLowStock (threshold fakeSize : ℕ) (kvs : List (OLKey × OLVal)) :
    Keeps w (countLowStock w threshold fakeSize kvs) := by
  induction kvs generalizing fakeSize with
  | nil => exact keeps_pure
  | cons e kvs ih => exact keeps_issue (fun _ => ⟨⟩) fun _ => ih _

/-- **Every transaction keeps to its warehouse's footprint.** -/
theorem keeps_txn {q : Request} (hq : q.Ok args) : Keeps q.warehouseId (txn args q) := by
  obtain ⟨hw, hq⟩ := hq
  cases q with
  | newOrder w x => exact keeps_txnNewOrder hw x
  | payment w x => exact keeps_txnPayment hw x
  | delivery w x => exact keeps_deliverDistricts hw _ _
  | orderStatus w x =>
    exact keeps_issue (fun _ => ⟨⟩) fun _ => keeps_issue (fun _ => ⟨⟩) fun _ => keeps_pure
  | stockLevel w x =>
    refine keeps_issue (fun _ => ⟨⟩) fun _ => keeps_issue (fun _ => ⟨⟩) fun kvs => ?_
    exact (keeps_countLowStock _ _ kvs).bind fun _ => keeps_pure

end

/-! ### Frames -/

/-- The order lines `K` are there. -/
def Known (s : World J) (K : OLKey → Prop) : Prop := ∀ k, K k → ∃ v, (s.db .orderLine).get k = some v

section
variable {w w' : ℕ} {s : World J} {j : J} {q : Request} {o : Op} {junk : Junk} {K : OLKey → Prop}

/-- No row has two workers. -/
theorem own_unique {t : Tab} (hi : t ≠ .item) {k : t.Key} (h : t.own w' k) (hne : w ≠ w') : ¬ t.own w k := by
  cases t <;> first | contradiction | simp_all [Tab.own]
  all_goals exact Ne.symm hne

/-- No transaction takes an order line away. -/
theorem lines_stay (hf : Footprint w' K o) {k : OLKey} (h : ∃ v, (s.db .orderLine).get k = some v) :
    ∃ v, ((s.exec j q junk o).2.db .orderLine).get k = some v := by
  obtain ⟨v, hv⟩ := h
  cases o with
  | insert t k' x =>
    by_cases ht : t = .orderLine
    · subst ht
      simp only [World.exec, World.record, Function.update_self, Table.get_insert]
      split_ifs
      · exact ⟨x, rfl⟩
      · exact ⟨v, hv⟩
    · exact ⟨v, by simpa [World.exec, World.record, Function.update_of_ne (Ne.symm ht)] using hv⟩
  | remove t k' =>
    have ht : t ≠ .orderLine := by rintro rfl; simp [Footprint, Tab.own] at hf
    exact ⟨v, by simpa [World.exec, World.record, Function.update_of_ne (Ne.symm ht)] using hv⟩
  | _ => exact ⟨v, hv⟩

theorem put_frame {v : View} {t : Tab} {k : t.Key} {x : t.Val} (h : ¬ t.own w k) : v.put w t k x = v := by
  simp [View.put, h]

/-- **Frame**: an operation within the footprint of one warehouse leaves the view of
another as it was, the clock apart. -/
theorem next_frame {v : View} (hf : Footprint w' K o) (hne : w ≠ w')
    (hK : ∀ k, K k → k.olWId = w → v.lines k) :
    { v.next w o with calls := 0 } = { v with calls := 0 } := by
  cases o with
  | insert t k x =>
    cases t with
    | newOrder =>
      have hk : ¬ Tab.own w .newOrder k := own_unique (by decide) hf hne
      have hw : ¬ k.noWId = w := by simpa [Tab.own] using hk
      simp [View.next, put_frame hk, hw]
    | orderLine =>
      have hlines : ∀ a, (v.lines a ∨ a = k ∧ k.olWId = w) = v.lines a := by
        refine fun a => propext ⟨fun h => h.elim id ?_, .inl⟩
        rintro ⟨rfl, hw⟩
        rcases hf with h | h
        · exact absurd (hw.symm.trans h) hne
        · exact hK _ h hw
      simp only [View.next, hlines]
    | customer => simp [View.next, put_frame (w := w) (t := .customer) (k := k) (by simp [Tab.own])]
    | stock => simp [View.next, put_frame (w := w) (t := .stock) (k := k) (by simp [Tab.own])]
    | item => exact absurd hf id
    | _ => rw [View.next, put_frame (own_unique (by decide) hf hne)] <;> simp
  | remove t k =>
    cases t with
    | orderLine => simp [Footprint, Tab.own] at hf
    | item => exact absurd hf id
    | _ => simp [View.next, own_unique (by decide) hf hne]
  | setPending w'' d o => rw [View.next, if_neg fun h => hne (h.symm.trans hf)]
  | setLatest w'' d c o =>
    have hw : ¬ w'' = w := fun h => hne (h.symm.trans hf)
    simp [View.next, hw]
  | _ => rfl

theorem viewAt_frame (hK : Known s K) (hf : Footprint w' K o) (hne : w ≠ w') (n : ℕ) :
    viewAt w n (s.exec j q junk o).2 = viewAt w n s := by
  have h : viewAt w 0 (s.exec j q junk o).2 = viewAt w 0 s := by
    have := next_frame (v := viewAt w (s.calls j) s) hf hne fun k hk hw => ⟨hw, hK k hk⟩
    rw [← view_exec o junk] at this
    exact this
  exact congrArg (fun v : View => { v with calls := n }) h

end

/-! ### Ledgers -/

/-- A worker's operations on its view, each finding `Pre`. -/
def viewOps (w : ℕ) (Pre : View → Op → Prop) : Abstract Op Op.Res View where
  pre := Pre
  gives := View.gives w
  next v o _ := v.next w o

/-- The view of `w` when a run starts. -/
def View.start (args : Args) (w : ℕ) : View where
  db t := (prepareKvs args t).restrict (t.own w)
  lines k := k.olWId = w ∧ ∃ v, (prepareKvs args .orderLine).get k = some v
  pending _ := 3000
  latest _ _ := 3000
  placed _ := 0
  bought _ _ := 0
  calls := 0

/-- An invariant of a warehouse's view. -/
structure Ledger (args : Args) where
  /-- The invariant of warehouse `w`. -/
  Inv : ℕ → View → Prop
  /-- What every operation of a transaction finds. -/
  Pre : Request → View → Op → Prop
  /-- The clock goes on between transactions. -/
  mono : ∀ w v n, Inv w v → v.calls ≤ n → Inv w { v with calls := n }
  /-- It holds when a run starts. -/
  start : ∀ w, Inv w (View.start args w)
  /-- Every transaction keeps it. -/
  sound : ∀ q v, q.Ok args → Inv q.warehouseId v →
    Meets (viewOps q.warehouseId (Pre q)) (fun _ v' => Inv q.warehouseId v') (txn args q) v

namespace Ledger

variable {args : Args} (L : Ledger args) (W : Workers J)

/-- The others leave a warehouse's view alone. -/
def env (i : J) (w : ℕ) (s s' : World J) : Prop :=
  viewAt w 0 s' = viewAt w 0 s ∧ s'.calls i = s.calls i ∧
    ∀ k, (∃ v, (s.db .orderLine).get k = some v) → ∃ v, (s'.db .orderLine).get k = some v

/-- What every operation of a transaction finds. -/
def pre (j : J) (q : Request) (o : Op) (s : World J) : Prop :=
  (∃ K, Known s K ∧ Footprint q.warehouseId K o) ∧ L.Pre q (viewAt q.warehouseId (s.calls j) s) o

/-- What holds of a warehouse no transaction is in flight on: the invariant, for a clock
its worker's is not behind. -/
def inv (w : ℕ) (s : World J) : Prop :=
  ∃ n, (n = 0 ∨ ∃ i, W.owns i w ∧ n ≤ s.calls i) ∧ L.Inv w (viewAt w n s)

/-- What is known stays known. -/
theorem known_exec {j : J} {q : Request} {s : World J} {K : OLKey → Prop} {w : ℕ} (o : Op) (junk : Junk)
    (hK : Known s K) (hf : Footprint w K o) :
    Known (s.exec j q junk o).2 ((footprint w).next K o (s.exec j q junk o).1) := by
  have stay : Known (s.exec j q junk o).2 K := fun k hk => lines_stay hf (hK k hk)
  cases o with
  | scan t k n =>
    cases t with
    | orderLine =>
      rintro a (ha | ⟨e, he, rfl⟩)
      · exact stay a ha
      · exact ⟨e.2, (Table.mem_scan he).1⟩
    | _ => exact stay
  | _ => exact stay

/-- A transaction keeps to its footprint among other workers. -/
theorem safe_footprint {j : J} {q : Request} (hq : q.Ok args) (s : World J) :
    Safe (machine args W) j q (env j q.warehouseId)
      (fun o s => ∃ K, Known s K ∧ Footprint q.warehouseId K o) (fun _ _ => True) (txn args q) s := by
  have h := Meets.safe (A := footprint q.warehouseId) (M := machine args W) (j := j) (q := q)
    (E := env j q.warehouseId) Known
    (fun s s' K hK he k hk => he.2.2 k (hK k hk))
    (fun o junk s K hK _ hf => ⟨⟨⟩, known_exec o junk hK hf⟩)
    (Safe.trivial _ s) (keeps_txn hq fun _ => False) (fun _ h => h.elim)
  exact h.mono (fun o s h => h.2) fun _ _ _ => ⟨⟩

/-- A transaction begun in the invariant is safe among other workers. -/
theorem safe {j : J} {q : Request} {s : World J} (hq : q.Ok args) (hj : W.owns j q.warehouseId)
    (hinv : L.inv W q.warehouseId s) :
    Safe (machine args W) j q (env j q.warehouseId) (L.pre j q) (fun _ => L.inv W q.warehouseId)
      (txn args q) s := by
  obtain ⟨n, hn, hinv⟩ := hinv
  have hn : n ≤ s.calls j := by
    rcases hn with rfl | ⟨i, hi, hn⟩
    · exact Nat.zero_le _
    · exact W.disjoint _ _ _ hi hj ▸ hn
  have hinv : L.Inv q.warehouseId (viewAt q.warehouseId (s.calls j) s) := L.mono _ _ _ hinv hn
  have h := Meets.safe (M := machine args W) (j := j) (q := q) (E := env j q.warehouseId)
    (fun s v => v = viewAt q.warehouseId (s.calls j) s) ?_ ?_ (safe_footprint W hq s)
    (L.sound q _ hq hinv) rfl
  · refine h.mono ?_ ?_
    · rintro o s ⟨hf, v, rfl, hP⟩
      exact ⟨hf, hP⟩
    · rintro a s ⟨-, v, rfl, h⟩
      exact ⟨s.calls j, .inr ⟨j, hj, le_rfl⟩, h⟩
  · rintro s s' v rfl ⟨hv, hc, -⟩
    rw [hc]
    exact congrArg (fun v : View => { v with calls := s.calls j }) hv.symm
  · rintro o junk s v rfl - -
    exact ⟨view_gives o junk, (view_exec o junk).symm⟩

/-- **A ledger is a discipline of the machine.** -/
def discipline : Discipline (machine args W) (World.start args) Request.warehouseId where
  env := env
  pre := L.pre
  inv := L.inv W
  refl _ _ _ := ⟨rfl, rfl, fun _ h => h⟩
  trans _ _ _ _ _ h₁ h₂ :=
    ⟨h₂.1.trans h₁.1, h₂.2.1.trans h₁.2.1, fun k h => h₂.2.2 k (h₁.2.2 k h)⟩
  exclusive i j q q' hi hj h := W.disjoint i j _ hi.1 (by rw [h]; exact hj.1)
  stable j q junk o s _ hpre w hne := by
    obtain ⟨⟨K, hK, hf⟩, -⟩ := hpre
    rintro ⟨n, hn, h⟩
    refine ⟨n, hn.imp id fun ⟨i, hi, hn⟩ => ⟨i, hi, hn.trans (calls_exec_le i)⟩, ?_⟩
    rw [show viewAt w n ((machine args W).exec j q junk o s).2 = viewAt w n s from
      viewAt_frame hK hf hne n]
    exact h
  frame j q junk o s _ hpre i w hij hne := by
    obtain ⟨⟨K, hK, hf⟩, -⟩ := hpre
    exact ⟨viewAt_frame hK hf hne 0, calls_exec_ne hij, fun k hk => lines_stay hf hk⟩
  start w := ⟨0, .inl rfl, L.start w⟩
  sound c j q _ hmay _ hinv := L.safe W hmay.2 hmay.1 hinv

variable {W} {c : Threads J}

/-- **A ledger holds of every idle warehouse**, for a clock its worker's is not behind. -/
theorem idle (hr : Run args W c) {w : ℕ} (h : OwnerIdle W c w) :
    ∃ n, (n = 0 ∨ ∃ i, W.owns i w ∧ n ≤ c.state.calls i) ∧ L.Inv w (viewAt w n c.state) :=
  (L.discipline W).idle hr (h.idle hr)

variable {j : J} {q : Request} {o : Op} {k : o.Res → Txn Unit}

/-- **Every operation finds what the ledger says.** -/
theorem finds (hr : Run args W c) (next : c.thread j = some (q, .op o k)) :
    L.Pre q (viewAt q.warehouseId (c.state.calls j) c.state) o :=
  ((L.discipline W).pre_run hr next).2

/-- Every operation is within the footprint of its warehouse. -/
theorem within (L : Ledger args) (hr : Run args W c) (next : c.thread j = some (q, .op o k)) :
    ∃ K, Known c.state K ∧ Footprint q.warehouseId K o :=
  ((L.discipline W).pre_run hr next).1

end Ledger

end SidleBaselines.Tpcc
