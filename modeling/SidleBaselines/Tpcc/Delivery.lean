import SidleBaselines.Tpcc.Customers

/-!
# What a delivery touches

`txn_delivery` writes to whatever order lines a scan of ten gives it, from the first
line of the order it delivers.

## What is proved

* `delivery_exact` — in every run of one worker, the delivery of an order of ten lines,
  or of fewer that are the last of the table, dates the order's lines and no others, and
  credits its customer with what they come to.
* `delivery_undated` — the eleventh line of an order of fifteen is left undelivered.
-/

namespace SidleBaselines.Tpcc

open SidleBaselines.Data SidleBaselines.Concurrency

/-! ### A program run alone -/

section
variable {α : Type}

/-- What a program run alone by the only worker does to its warehouse's view and to the
accounts. -/
theorem run_alone (q : Request) (junk : Junk) {p : Txn α} {K : OLKey → Prop} {s : World (Fin 1)}
    {postF : α → (OLKey → Prop) → Prop}
    {postV : α → View → Prop} {postA : α → Accounts → Prop} (hK : Known s K)
    (hf : Meets (footprint q.warehouseId) postF p K)
    (hv : Meets (viewOps q.warehouseId (View.finds q)) postV p (viewAt q.warehouseId (s.calls 0) s))
    (ha : Meets (accountOps q) postA p (accountsAt s)) :
    postV (p.run (World.exec 0 q junk) s).1
        (viewAt q.warehouseId ((p.run (World.exec 0 q junk) s).2.calls 0) (p.run (World.exec 0 q junk) s).2) ∧
      postA (p.run (World.exec 0 q junk) s).1 (accountsAt (p.run (World.exec 0 q junk) s).2) := by
  induction p generalizing K s with
  | ret a => exact ⟨hv, ha⟩
  | op o k ih =>
    refine ih _ (Ledger.known_exec o junk hK hf.1) (hf.2 _ ⟨⟩) ?_ ?_
    · rw [view_exec]
      exact hv.2 _ (view_gives o junk)
    · rw [accounts_exec]
      exact ha.2 _ (accounts_gives o junk hf.1 hv.1)

end

/-! ### The lines of an order -/

/-- The lines a scan of ten from the order's first gives are the order's, `n` of them:
there are ten, or fewer and no line of the table comes after them. -/
def ScanFits (s : World (Fin 1)) (w d o n : ℕ) : Prop :=
  n = 10 ∨ n < 10 ∧ ∀ k v, (s.db .orderLine).get k = some v → k ≤ ⟨n, o, d, w⟩

/-- What the order's lines come to. -/
def linesTotal (s : World (Fin 1)) (w d o : ℕ) : ℚ :=
  (s.db .orderLine).total fun k v => if k.olOId = o ∧ k.olDId = d ∧ k.olWId = w then v.olAmount else 0

theorem olKey_le {k : OLKey} {l o d w : ℕ} : (⟨l, o, d, w⟩ : OLKey) ≤ k ↔ w < k.olWId ∨ w = k.olWId ∧
    (d < k.olDId ∨ d = k.olDId ∧ (o < k.olOId ∨ o = k.olOId ∧ l ≤ k.olNumber)) := by
  change toLex (w, toLex (d, toLex (o, l))) ≤ toLex (k.olWId, toLex (k.olDId, toLex (k.olOId, k.olNumber))) ↔ _
  simp only [Prod.Lex.toLex_le_toLex]

theorem le_olKey {k : OLKey} {l o d w : ℕ} : k ≤ (⟨l, o, d, w⟩ : OLKey) ↔ k.olWId < w ∨ k.olWId = w ∧
    (k.olDId < d ∨ k.olDId = d ∧ (k.olOId < o ∨ k.olOId = o ∧ k.olNumber ≤ l)) := by
  change toLex (k.olWId, toLex (k.olDId, toLex (k.olOId, k.olNumber))) ≤ toLex (w, toLex (d, toLex (o, l))) ↔ _
  simp only [Prod.Lex.toLex_le_toLex]

section
variable {t : Table OLKey OLVal} {w d o n m : ℕ}
  (hlines : ∀ l, (∃ v, t.get ⟨l, o, d, w⟩ = some v) ↔ 1 ≤ l ∧ l ≤ n)

/-- The entries from the start of an order to its line `m` are its first `m` lines. -/
theorem mem_range_lines {e : OLKey × OLVal} : e ∈ t.range ⟨0, o, d, w⟩ ⟨m, o, d, w⟩ ↔
    t.get e.1 = some e.2 ∧ e.1.olOId = o ∧ e.1.olDId = d ∧ e.1.olWId = w ∧ e.1.olNumber ≤ m := by
  rw [Table.mem_range, olKey_le, le_olKey]
  refine and_congr_right fun _ => ?_
  omega

include hlines

theorem length_range_lines (hm : m ≤ n) : (t.range ⟨0, o, d, w⟩ ⟨m, o, d, w⟩).length = m := by
  have hperm : ((t.range ⟨0, o, d, w⟩ ⟨m, o, d, w⟩).map Prod.fst).Perm
      ((List.range' 1 m).map fun l => (⟨l, o, d, w⟩ : OLKey)) := by
    refine (List.perm_ext_iff_of_nodup Table.range_nodup ?_).mpr fun k => ?_
    · exact List.Nodup.map (fun a b h => (OLKey.mk.inj h).1) List.nodup_range'
    · simp only [List.mem_map, List.mem_range'_1]
      constructor
      · rintro ⟨e, he, rfl⟩
        obtain ⟨hget, rfl, rfl, rfl, hl⟩ := mem_range_lines.mp he
        have := (hlines e.1.olNumber).mp ⟨e.2, hget⟩
        exact ⟨e.1.olNumber, by omega, rfl⟩
      · rintro ⟨l, hl, rfl⟩
        obtain ⟨v, hv⟩ := (hlines l).mpr (by omega)
        exact ⟨(⟨l, o, d, w⟩, v), mem_range_lines.mpr ⟨hv, rfl, rfl, rfl, by dsimp only; omega⟩, rfl⟩
  have := hperm.length_eq
  simpa using this

end

/-- The scan gives the order's lines. -/
theorem scan_lines {s : World (Fin 1)} {w d o n : ℕ} (h : ScanFits s w d o n)
    (hlines : ∀ l, (∃ v, (s.db .orderLine).get ⟨l, o, d, w⟩ = some v) ↔ 1 ≤ l ∧ l ≤ n) :
    (s.db .orderLine).scan ⟨0, o, d, w⟩ 10 = (s.db .orderLine).range ⟨0, o, d, w⟩ ⟨n, o, d, w⟩ := by
  have hlen := length_range_lines hlines le_rfl
  rcases h with rfl | ⟨hlt, hlast⟩
  · rw [Table.scan_of_le hlen.ge, List.take_of_length_le hlen.le]
  · rw [Table.scan_of_last hlast, List.take_of_length_le (hlen.trans_le hlt.le)]

/-- What the scanned lines come to. -/
theorem sum_range_lines {s : World (Fin 1)} {w d o n : ℕ}
    (hlines : ∀ l, (∃ v, (s.db .orderLine).get ⟨l, o, d, w⟩ = some v) ↔ 1 ≤ l ∧ l ≤ n) :
    (((s.db .orderLine).range ⟨0, o, d, w⟩ ⟨n, o, d, w⟩).map fun e => e.2.olAmount).sum =
      linesTotal s w d o := by
  have hrange : (s.db .orderLine).range ⟨0, o, d, w⟩ ⟨n, o, d, w⟩ =
      (s.db .orderLine).entries.filter fun e => e.1.olOId = o ∧ e.1.olDId = d ∧ e.1.olWId = w := by
    refine List.filter_congr fun e he => decide_eq_decide.mpr ?_
    have hget := Table.mem_entries.mp he
    constructor
    · intro hk
      obtain ⟨-, ho, hd, hw, -⟩ := mem_range_lines.mp (Table.mem_range.mpr ⟨hget, hk⟩)
      exact ⟨ho, hd, hw⟩
    · rintro ⟨rfl, rfl, rfl⟩
      have := (hlines e.1.olNumber).mp ⟨e.2, hget⟩
      exact (Table.mem_range.mp (mem_range_lines.mpr ⟨hget, rfl, rfl, rfl, this.2⟩)).2
  rw [hrange, linesTotal, Table.total]
  generalize (s.db .orderLine).entries = l
  induction l with
  | nil => rfl
  | cons e l ih =>
    rw [List.filter_cons, List.map_cons, List.sum_cons, ← ih]
    by_cases hp : e.1.olOId = o ∧ e.1.olDId = d ∧ e.1.olWId = w
    · simp [hp]
    · simp [hp]

/-! ### What the delivery writes -/

section
variable {q : Request} {junk : Junk} {s : World (Fin 1)}

/-- What the loop over the scanned lines does. -/
structure Dated (kvs : List (OLKey × OLVal)) (olTotal : ℚ) (s : World (Fin 1)) (r : ℚ × World (Fin 1)) :
    Prop where
  /-- It adds them up, -/
  total : r.1 = olTotal + (kvs.map fun e => e.2.olAmount).sum
  /-- writes no other table, -/
  rest : ∀ t, t ≠ .orderLine → r.2.db t = s.db t
  /-- and no other line, -/
  others : ∀ k, (∀ e ∈ kvs, e.1 ≠ k) → (r.2.db .orderLine).get k = (s.db .orderLine).get k
  /-- and dates each of them. -/
  dates : ∀ e ∈ kvs, ∃ (v : OLVal) (i : ℕ), i < kvs.length ∧
    (r.2.db .orderLine).get e.1 = some { v with olDeliveryD := clock (s.calls 0 + i) }

theorem dated_deliverLines (q : Request) (junk : Junk) (kvs : List (OLKey × OLVal)) (olTotal : ℚ)
    (s : World (Fin 1)) :
    Dated kvs olTotal s ((deliverLines olTotal kvs).run (World.exec 0 q junk) s) := by
  induction kvs generalizing olTotal s with
  | nil => exact ⟨by simp [deliverLines], fun _ _ => rfl, fun _ _ => rfl, fun e he => by cases he⟩
  | cons e kvs ih =>
    obtain ⟨k, v⟩ := e
    let s' := (World.exec 0 q junk (.insert .orderLine k { v with olDeliveryD := clock (s.calls 0) })
      (World.exec 0 q junk .getCurrentTimeMillis s).2).2
    have hcalls : s'.calls 0 = s.calls 0 + 1 := by simp [s', World.exec, World.record]
    have hline : s'.db .orderLine = (s.db .orderLine).insert k { v with olDeliveryD := clock (s.calls 0) } := by
      simp [s', World.exec, World.record]
    obtain ⟨htotal, hrest, hothers, hdates⟩ := ih (olTotal + v.olAmount) s'
    refine ⟨?_, fun t ht => ?_, fun a ha => ?_, fun e he => ?_⟩
    · refine htotal.trans ?_
      rw [List.map_cons, List.sum_cons, add_assoc]
    · refine (hrest t ht).trans ?_
      simp [s', World.exec, World.record, Function.update_of_ne ht]
    · refine (hothers a fun e he => ha e (List.mem_cons_of_mem _ he)).trans ?_
      rw [hline, Table.get_insert_ne (ha _ List.mem_cons_self)]
    · by_cases hin : ∃ e' ∈ kvs, e'.1 = e.1
      · obtain ⟨e', he', hk⟩ := hin
        obtain ⟨v', i, hi, hget⟩ := hdates e' he'
        refine ⟨v', i + 1, Nat.succ_lt_succ hi, ?_⟩
        rw [← hk, Nat.add_comm i, ← Nat.add_assoc, ← hcalls]
        exact hget
      · obtain rfl : e = (k, v) := by
          rcases List.mem_cons.mp he with he | he
          · exact he
          · exact absurd ⟨e, he, rfl⟩ hin
        refine ⟨v, 0, Nat.succ_pos _, ?_⟩
        refine (hothers k fun e he hk => hin ⟨e, he, hk⟩).trans ?_
        rw [hline, Table.get_insert_self, Nat.add_zero]

variable {w d o : ℕ} {vO : OVal}

/-- What `txn_delivery` does with the lines it has scanned: the order lines are as the
loop leaves them, and the customer is credited. -/
theorem run_credit (q : Request) (junk : Junk) (kvs : List (OLKey × OLVal)) (kC : CKey) :
    let r := (deliverLines 0 kvs).run (World.exec 0 q junk) s
    let s' := ((do
      let olTotal ← deliverLines 0 kvs
      let vC ← get .customer kC
      let _ ← insert .customer kC (vC.2.delivered olTotal)
      return () : Txn Unit).run (World.exec 0 q junk) s).2
    s'.db .orderLine = r.2.db .orderLine ∧
      s'.db .customer = (s.db .customer).insert kC ((s.fetch junk .customer kC).2.delivered r.1) := by
  have hrest := (dated_deliverLines q junk kvs 0 s).rest .customer (by decide)
  simp only [get, insert, Prog.run_bind, Prog.issue_bind, Prog.run_op]
  generalize (deliverLines 0 kvs).run (World.exec 0 q junk) s = r at hrest ⊢
  have hfetch : s.fetch junk .customer kC = r.2.fetch junk .customer kC := by
    simp only [World.fetch, hrest]
  rw [hfetch, ← hrest]
  exact ⟨rfl, rfl⟩

/-- The delivery of an order: its lines as the loop leaves them, and its customer's row. -/
theorem run_deliverOrder (q : Request) (junk : Junk) (s : World (Fin 1)) (w d oCarrierId o : ℕ) (vO : OVal) :
    ∃ s₁ : World (Fin 1), s₁.db .orderLine = s.db .orderLine ∧ s₁.calls = s.calls ∧
    ((deliverOrder w d oCarrierId o vO).run (World.exec 0 q junk) s).2.db .orderLine =
      ((deliverLines 0 ((s.db .orderLine).scan (OLKey.make w d o 0) 10)).run (World.exec 0 q junk) s₁).2.db
        .orderLine ∧
    ((deliverOrder w d oCarrierId o vO).run (World.exec 0 q junk) s).2.db .customer =
      (s.db .customer).insert (CKey.make vO.oCId d w)
        ((s.fetch junk .customer (CKey.make vO.oCId d w)).2.delivered
          ((deliverLines 0 ((s.db .orderLine).scan (OLKey.make w d o 0) 10)).run (World.exec 0 q junk) s₁).1) := by
  let s₁ := (World.exec 0 q junk (.scan .orderLine (OLKey.make w d o 0) 10)
    (World.exec 0 q junk (.insert .order (OKey.make w d o) { vO with oCarrierId := oCarrierId })
      (World.exec 0 q junk (.remove .newOrder (NOKey.make w d o)) s).2).2).2
  obtain ⟨h₁, h₂⟩ := run_credit (s := s₁) q junk ((s.db .orderLine).scan (OLKey.make w d o 0) 10)
    (CKey.make vO.oCId d w)
  exact ⟨s₁, rfl, rfl, h₁, h₂⟩

theorem run_pending {α : Type} {f : ℕ → Txn α} :
    (Prog.issue (Op.pending w d) >>= f).run (World.exec 0 q junk) s =
      (f (s.pending w d)).run (World.exec 0 q junk) (s.record 0 q (.pending w d)) := rfl

/-- `txn_delivery` finds order `o`, whose row is `vO`, to deliver in the district. -/
structure Delivers (s : World (Fin 1)) (w d o : ℕ) (vO : OVal) : Prop where
  /-- It is the order noted for the district, -/
  pending : s.pending w d % 2 ^ 32 = o
  /-- among the new orders, -/
  isNew : ∃ x, (s.db .newOrder).get ⟨o, d, w⟩ = some x
  /-- and this is its row. -/
  row : (s.db .order).get ⟨o, d, w⟩ = some vO

/-- Then it delivers that order. -/
theorem run_deliverDistrict {args : Args} (q : Request) (junk : Junk) (oCarrierId : ℕ)
    (hd : args.IsDistrict w d) (h : Delivers s w d o vO) :
    ∃ s₀ : World (Fin 1), s₀.db = s.db ∧ s₀.calls = s.calls ∧
      ((deliverDistrict w oCarrierId d).run (World.exec 0 q junk) s).2 =
        ((deliverOrder w d oCarrierId o vO).run (World.exec 0 q junk) s₀).2 := by
  obtain ⟨rfl, ⟨x, hx⟩, hvO⟩ := h
  have hlt : s.pending w d % 2 ^ 32 < 2 ^ 32 := Nat.mod_lt _ (by norm_num)
  have hkey : NOKey.make w d (s.pending w d) = ⟨s.pending w d % 2 ^ 32, d, w⟩ := by
    rw [← make_noKey hd hlt]
    simp [NOKey.make]
  let s₁ := s.record 0 q (.pending w d)
  let s₂ := s₁.record 0 q (.get .newOrder ⟨s.pending w d % 2 ^ 32, d, w⟩)
  refine ⟨s₂.record 0 q (.get .order ⟨s.pending w d % 2 ^ 32, d, w⟩), rfl, rfl, ?_⟩
  rw [deliverDistrict, run_pending]
  simp only [hkey]
  rw [run_get (s := s₁) hx, if_pos rfl, make_oKey hd hlt, run_get (s := s₂) hvO, if_pos rfl, Prog.run_bind]
  rfl

end

/-! ### Deliveries of a run -/

/-- From `s` to `s'`, `txn_delivery`, begun on `w` in `c`, does its round for district `d`. -/
def Round (args : Args) (c : Threads (Fin 1)) (w : ℕ) (x : Delivery) (junk : Junk) (d : ℕ)
    (s s' : World (Fin 1)) : Prop :=
  ∃ before after, List.range' 1 args.numDistrictPerWarehouse = before ++ d :: after ∧
    s = ((deliverDistricts w x.oCarrierId before).run (World.exec 0 (.delivery w x) junk) c.state).2 ∧
    s' = ((deliverDistrict w x.oCarrierId d).run (World.exec 0 (.delivery w x) junk) s).2

/-- Order `o`'s lines have been dated, no other line has changed, and its customer has been
credited with what the lines come to. -/
structure DeliveryOk (s s' : World (Fin 1)) (w d o : ℕ) (vO : OVal) : Prop where
  /-- The order's lines have a date. -/
  dated : ∀ l v, (s'.db .orderLine).get ⟨l, o, d, w⟩ = some v → v.olDeliveryD ≠ 0
  /-- No other line has changed. -/
  others : ∀ k, ¬ (k.olOId = o ∧ k.olDId = d ∧ k.olWId = w) →
    (s'.db .orderLine).get k = (s.db .orderLine).get k
  /-- The customer's balance. -/
  credited : ∃ vC vC', (s.db .customer).get ⟨vO.oCId, d, w⟩ = some vC ∧
    (s'.db .customer).get ⟨vO.oCId, d, w⟩ = some vC' ∧ vC'.cBalance = vC.cBalance + linesTotal s w d o

variable {args : Args} {W : Workers (Fin 1)} {c : Threads (Fin 1)} {w d o : ℕ} {x : Delivery} {junk : Junk}
  {s s' : World (Fin 1)} {vO : OVal}

/-- Between two rounds of a delivery the books and the accounts are in order. -/
theorem Round.ok (hr : Run args W c) (idle : c.thread 0 = none) (hq : (Request.delivery w x).Ok args)
    (h : Round args c w x junk d s s') : args.IsDistrict w d ∧
      Books args w (viewAt w (s.calls 0) s) ∧ AccountsInv args (accountsAt s) := by
  obtain ⟨before, after, hds, rfl, -⟩ := h
  have hmem : ∀ d' ∈ before ++ d :: after, args.IsDistrict w d' := by
    intro d' hd'
    have := List.mem_range'_1.mp (hds ▸ hd')
    exact ⟨hq.1, by omega⟩
  have hbefore : ∀ d' ∈ before, args.IsDistrict w d' := fun d' hd' => hmem d' (List.mem_append_left _ hd')
  obtain ⟨n, hn, hbooks⟩ := (books args).idle hr (w := w)
    fun j _ => by rw [Subsingleton.elim j 0, idle]
  have hbooks : Books args w (viewAt w (c.state.calls 0) c.state) := by
    refine hbooks.mono ?_
    rcases hn with rfl | ⟨i, -, hn⟩
    · exact Nat.zero_le _
    · exact Subsingleton.elim i 0 ▸ hn
  have haccounts : AccountsInv args (accountsAt c.state) := by
    refine (accountsDiscipline args W).idle hr (w := ()) fun j q p hj => ?_
    rw [Subsingleton.elim j 0, idle] at hj
    cases hj
  refine ⟨hmem d (by simp), run_alone (.delivery w x) junk (K := fun _ => False) (fun _ h => h.elim)
    (keeps_deliverDistricts hq.1 _ before _) (books_deliverDistricts hq.2.carrier.1 before hbefore hbooks)
    (accounts_deliverDistricts hq.2.carrier.1 before hbefore haccounts)⟩

/-- The order's lines are those from `1` to its count. -/
theorem Round.lines (hr : Run args W c) (idle : c.thread 0 = none) (hq : (Request.delivery w x).Ok args)
    (h : Round args c w x junk d s s') (hdel : Delivers s w d o vO) (hplaced : s.placed w d < 2 ^ 32 - 3002)
    (l : ℕ) : (∃ v, (s.db .orderLine).get ⟨l, o, d, w⟩ = some v) ↔ 1 ≤ l ∧ l ≤ vO.oOlCnt := by
  have hb : 3001 + (viewAt w (s.calls 0) s).placed d < 2 ^ 32 := by
    change 3001 + s.placed w d < 2 ^ 32
    omega
  have := ((h.ok hr idle hq).2.1.orders d).lines hb l o
  rw [viewAt_get (by simp [Tab.own]), hdel.row] at this
  simpa [viewAt] using this

/-- **Deliveries**: of an order of ten lines, or of fewer with no line after them in the
table, while neither the clock nor the district's ids have wrapped. -/
theorem delivery_exact (hr : Run args W c) (idle : c.thread 0 = none) (hq : (Request.delivery w x).Ok args)
    (h : Round args c w x junk d s s') (hdel : Delivers s w d o vO) (hfits : ScanFits s w d o vO.oOlCnt)
    (hclock : 3001 + s.calls 0 + vO.oOlCnt < 2 ^ 32) (hplaced : s.placed w d < 2 ^ 32 - 3002) :
    DeliveryOk s s' w d o vO := by
  obtain ⟨hd, hbooks, haccounts⟩ := h.ok hr idle hq
  have hlines := h.lines hr idle hq hdel hplaced
  obtain ⟨-, -, -, -, rfl⟩ := h
  have horders := hbooks.orders d
  have hrow : ((viewAt w (s.calls 0) s).db .order).get ⟨o, d, w⟩ = some vO :=
    (viewAt_get (by simp [Tab.own])).trans hdel.row
  have haccounts := haccounts (show 3001 + s.calls 0 < 2 ^ 32 by omega)
  have hbuyer := haccounts.buyers _ _ hdel.row
  obtain ⟨vC, hvC, -⟩ := haccounts.customers ⟨vO.oCId, d, w⟩ ⟨hd, hbuyer⟩
  have ho : o < 2 ^ 32 := horders.width o vO hrow
  obtain ⟨s₀, hdb, hcalls, hrun⟩ := run_deliverDistrict (.delivery w x) junk x.oCarrierId hd hdel
  obtain ⟨s₁, hline, hcalls', hlines', hcust⟩ :=
    run_deliverOrder (.delivery w x) junk s₀ w d x.oCarrierId o vO
  rw [hdb] at hline hlines' hcust
  rw [hcalls] at hcalls'
  rw [make_olKey hd ho (by norm_num), scan_lines hfits hlines] at hlines' hcust
  rw [make_cKey hd (lt_of_le_of_lt hbuyer.2 (by norm_num [numCustomerPerDistrict]))] at hcust
  have hdated := dated_deliverLines (.delivery w x) junk
    ((s.db .orderLine).range ⟨0, o, d, w⟩ ⟨vO.oOlCnt, o, d, w⟩) 0 s₁
  generalize (deliverLines 0 ((s.db .orderLine).range ⟨0, o, d, w⟩ ⟨vO.oOlCnt, o, d, w⟩)).run
    (World.exec 0 (.delivery w x) junk) s₁ = r at hlines' hcust hdated
  obtain ⟨htotal, -, hothers, hdates⟩ := hdated
  rw [hrun]
  refine ⟨fun l v hv => ?_, fun k hk => ?_, vC, vC.delivered r.1, hvC, ?_, ?_⟩
  · -- a line of the order that is there now was there before, and so was scanned
    have hscanned : ∃ u, (⟨l, o, d, w⟩, u) ∈ (s.db .orderLine).range ⟨0, o, d, w⟩ ⟨vO.oOlCnt, o, d, w⟩ := by
      by_contra hnone
      push Not at hnone
      have hmiss : ∀ e ∈ (s.db .orderLine).range ⟨0, o, d, w⟩ ⟨vO.oOlCnt, o, d, w⟩, e.1 ≠ ⟨l, o, d, w⟩ :=
        fun e he hk => hnone e.2 (by rw [← hk]; exact he)
      rw [hlines', hothers _ hmiss, hline] at hv
      exact hnone v (mem_range_lines.mpr ⟨hv, rfl, rfl, rfl, ((hlines l).mp ⟨v, hv⟩).2⟩)
    obtain ⟨u, hu⟩ := hscanned
    obtain ⟨v', i, hi, hget⟩ := hdates _ hu
    rw [length_range_lines hlines le_rfl] at hi
    rw [hlines', hget] at hv
    cases hv
    change clock (s₁.calls 0 + i) ≠ 0
    rw [hcalls', clock, Nat.mod_eq_of_lt (by omega)]
    omega
  · rw [hlines', hothers k, hline]
    rintro e he rfl
    obtain ⟨-, h₁, h₂, h₃, -⟩ := mem_range_lines.mp he
    exact hk ⟨h₁, h₂, h₃⟩
  · have hread : (s₀.fetch junk .customer ⟨vO.oCId, d, w⟩).2 = vC := by
      simp only [World.fetch, hdb, show (s.db .customer).get ⟨vO.oCId, d, w⟩ = some vC from hvC]
    rw [hcust, hread, Table.get_insert_self]
  · simp only [CVal.delivered, htotal, sum_range_lines hlines, zero_add]

/-- The scan gives no line after the tenth. -/
theorem late_line (q : Request) (junk : Junk) (oCarrierId : ℕ) (hd : args.IsDistrict w d)
    (hdel : Delivers s w d o vO) (ho : o < 2 ^ 32)
    (hlines : ∀ l, (∃ v, (s.db .orderLine).get ⟨l, o, d, w⟩ = some v) ↔ 1 ≤ l ∧ l ≤ vO.oOlCnt)
    (hcnt : 10 ≤ vO.oOlCnt) {l : ℕ} (hl : 10 < l) :
    (((deliverDistrict w oCarrierId d).run (World.exec 0 q junk) s).2.db .orderLine).get ⟨l, o, d, w⟩ =
      (s.db .orderLine).get ⟨l, o, d, w⟩ := by
  obtain ⟨s₀, hdb, -, hrun⟩ := run_deliverDistrict q junk oCarrierId hd hdel
  obtain ⟨s₁, hline, -, hlines', -⟩ := run_deliverOrder q junk s₀ w d oCarrierId o vO
  rw [hdb] at hline hlines'
  have hten : 10 ≤ ((s.db .orderLine).range ⟨0, o, d, w⟩ ⟨10, o, d, w⟩).length := by
    rw [length_range_lines hlines hcnt]
  rw [make_olKey hd ho (by norm_num), Table.scan_of_le hten] at hlines'
  rw [hrun, hlines', (dated_deliverLines q junk _ 0 s₁).others, hline]
  intro e he hk
  have := (mem_range_lines.mp (List.mem_of_mem_take he)).2.2.2.2
  rw [hk] at this
  exact absurd this (not_le.mpr hl)

/-! ### Two orders of warehouse 1 -/

/-- The loop of `txn_new_order` inserts lines without a date, and writes none before. -/
theorem run_newOrderLines (q : Request) (junk : Junk) (w d : ℕ) (kD : DKey) (vD : DVal) (kNO : NOKey)
    (kO : OKey) (l : ℕ) (items : List OrderItem) (s : World (Fin 1)) (hl : l + items.length ≤ 2 ^ 8)
    (hitem : ∀ item ∈ items, ∃ x, (s.db .item).get (IKey.make item.itemId) = some x) :
    let s' := ((newOrderLines w d kD vD kNO kO l items).run (World.exec 0 q junk) s).2
    (∀ k, k.olNumber < l → (s'.db .orderLine).get k = (s.db .orderLine).get k) ∧
      ∀ i < items.length, ∃ v, (s'.db .orderLine).get (OLKey.make w d kNO.noOId (l + i)) = some v ∧
        v.olDeliveryD = 0 := by
  induction items generalizing l s with
  | nil => exact ⟨fun _ _ => rfl, fun i hi => absurd hi (Nat.not_lt_zero i)⟩
  | cons item items ih =>
    obtain ⟨vI, hvI⟩ := hitem item List.mem_cons_self
    simp only [List.length_cons] at hl
    have hnumber : (OLKey.make w d kNO.noOId l).olNumber = l := Nat.mod_eq_of_lt (by omega)
    let s₁ := s.record 0 q (.get .item (IKey.make item.itemId))
    let r := World.exec 0 q junk (.get .stock (SKey.make item.supplyWId item.itemId)) s₁
    let s₂ := (World.exec 0 q junk (.insert .stock (SKey.make item.supplyWId item.itemId)
      (r.1.2.ordered w item)) r.2).2
    let s₃ := (World.exec 0 q junk (.insert .orderLine (OLKey.make w d kNO.noOId l) (item.line vI)) s₂).2
    have hline : s₃.db .orderLine = (s.db .orderLine).insert (OLKey.make w d kNO.noOId l) (item.line vI) := rfl
    obtain ⟨h₁, h₂⟩ := ih (l + 1) s₃ (by omega) fun item' h => hitem item' (List.mem_cons_of_mem _ h)
    have hrun : ((newOrderLines w d kD vD kNO kO l (item :: items)).run (World.exec 0 q junk) s).2 =
        ((newOrderLines w d kD vD kNO kO (l + 1) items).run (World.exec 0 q junk) s₃).2 := by
      rw [newOrderLines, run_get hvI, if_pos rfl]
      rfl
    rw [hrun]
    refine ⟨fun k hk => ?_, fun i hi => ?_⟩
    · rw [h₁ k (by omega), hline, Table.get_insert_ne]
      rintro rfl
      omega
    · cases i with
      | zero =>
        refine ⟨item.line vI, ?_, rfl⟩
        simp only [Nat.add_zero]
        rw [h₁ _ (by omega), hline, Table.get_insert_self]
      | succ i =>
        have := h₂ i (by simpa using hi)
        rwa [show l + 1 + i = l + (i + 1) by omega] at this

theorem books_start (args : Args) (w : ℕ) : Books args w (viewAt w
    ((Config.init (World.start args) : Threads (Fin 1)).state.calls 0)
    (Config.init (World.start args) : Threads (Fin 1)).state) := Books.start

/-- After an order of `n` lines by customer 1 of the first district. -/
def ordered (n : ℕ) : World (Fin 1) := (answered loaded (.newOrder 1 (orderOf 1 n))).state

section
variable {n : ℕ} (hn : 5 ≤ n ∧ n ≤ 15)
include hn

/-- The first warehouse's view then. -/
theorem view_ordered : ∃ vD : DVal, (loaded.state.db .district).get ⟨1, 1⟩ = some vD ∧
    u32 (vD.dNextOId + 1) = 3002 ∧ viewAt 1 ((ordered n).calls 0) (ordered n) =
      (viewAt 1 (loaded.state.calls 0) loaded.state).placeOrder 1 (orderOf 1 n) vD 3002 := by
  have hq := orderOf_ok (w := 1) (by decide) hn
  have hbooks : Books twoWarehouses 1 (viewAt 1 (loaded.state.calls 0) loaded.state) := books_start _ _
  have hplaced : (viewAt 1 (loaded.state.calls 0) loaded.state).placed 1 = 0 := rfl
  have haccounts : AccountsInv twoWarehouses (accountsAt loaded.state) := fun _ => accountsOk_start
  generalize hv : viewAt 1 (loaded.state.calls 0) loaded.state = v at hbooks hplaced
  obtain ⟨vD, hvD, -⟩ := (hbooks.orders 1).counter isDistrict_one
  have hnext : u32 (vD.dNextOId + 1) = 3002 := by
    have := (hbooks.orders 1).nextId isDistrict_one hvD
    rw [hplaced] at this
    omega
  have hfree := (hbooks.orders 1).free
  rw [hplaced] at hfree
  have hdoes : Does (.newOrder 1 (orderOf 1 n)) 1 (fun _ v' => v' = v.placeOrder 1 (orderOf 1 n) vD 3002)
      (txnNewOrder 1 (orderOf 1 n)) v := by
    have h := does_txnNewOrder (v := v) hq.2 isDistrict_one hvD hbooks.items (hbooks.drawn 1)
    rw [hnext] at h
    exact h fun _ => hfree (by norm_num)
  rw [← hv] at hdoes
  have hrun := (run_alone (.newOrder 1 (orderOf 1 n)) blank (s := loaded.state) (K := fun _ => False)
    (fun _ h => h.elim) (keeps_txnNewOrder hq.1 _ _) hdoes (accounts_txnNewOrder hq.2 haccounts)).1
  refine ⟨vD, ?_, hnext, hv ▸ hrun⟩
  rw [← hv] at hvD
  exact (viewAt_get (by simp [Tab.own])).symm.trans hvD

/-- The order is the one the next delivery finds. -/
theorem delivers_ordered : ∃ vO, Delivers (ordered n) 1 1 3002 vO ∧ vO.oOlCnt = n := by
  obtain ⟨vD, -, -, hview⟩ := view_ordered hn
  generalize viewAt 1 (loaded.state.calls 0) loaded.state = v at hview
  have hpending : (ordered n).pending 1 1 = 3002 := by
    refine (congrFun (congrArg View.pending hview) 1).trans ?_
    simp [View.placeOrder, orderOf]
  have hnew : ∃ y, ((v.placeOrder 1 (orderOf 1 n) vD 3002).db .newOrder).get ⟨3002, (orderOf 1 n).districtId, 1⟩ =
      some y := placeOrder_newOrder.mpr (.inl rfl)
  have horder : ((v.placeOrder 1 (orderOf 1 n) vD 3002).db .order).get ⟨3002, (orderOf 1 n).districtId, 1⟩ =
      some ((orderOf 1 n).row (clock v.calls)) := placeOrder_order.trans (if_pos rfl)
  rw [← hview] at hnew horder
  refine ⟨(orderOf 1 n).row (clock v.calls), ⟨by rw [hpending]; norm_num, ?_, ?_⟩, ?_⟩
  · obtain ⟨y, hy⟩ := hnew
    exact ⟨y, (viewAt_get (by simp [Tab.own])).symm.trans hy⟩
  · exact (viewAt_get (by simp [Tab.own])).symm.trans horder
  · simp only [NewOrder.row, orderOf, List.length_replicate]
    exact Nat.mod_eq_of_lt (by omega)

theorem run_ordered : Run twoWarehouses oneWorker (answered loaded (.newOrder 1 (orderOf 1 n))) :=
  run_answered run_loaded rfl (orderOf_ok (by decide) hn)

/-- It is one of the worker's, and there has been no other. -/
theorem counts_ordered : (ordered n).calls 0 = 1 ∧ (ordered n).placed 1 1 = 1 := by
  obtain ⟨vD, -, -, hview⟩ := view_ordered hn
  have hcalls : (loaded.state.calls 0) = 0 := rfl
  have hplaced : (viewAt 1 (loaded.state.calls 0) loaded.state).placed 1 = 0 := rfl
  refine ⟨(congrArg View.calls hview).trans ?_, (congrFun (congrArg View.placed hview) 1).trans ?_⟩
  · exact congrArg (· + 1) hcalls
  · exact congrArg (· + 1) hplaced

/-- Its lines have no date. -/
theorem undated_ordered {l : ℕ} (hl : 1 ≤ l ∧ l ≤ n) :
    ∃ v, ((ordered n).db .orderLine).get ⟨l, 3002, 1, 1⟩ = some v ∧ v.olDeliveryD = 0 := by
  obtain ⟨vD, hvD, hnext, -⟩ := view_ordered hn
  have hkD : DKey.make 1 (orderOf 1 n).districtId = ⟨1, 1⟩ := make_dKey isDistrict_one
  obtain ⟨s₁, vD', hitems, -, -, hleads⟩ :=
    leads_txnNewOrder 0 (.newOrder 1 (orderOf 1 n)) blank loaded.state 1 (orderOf 1 n)
  have hread : (loaded.state.fetch blank .district (DKey.make 1 (orderOf 1 n).districtId)).2 = vD := by
    simp only [World.fetch, hkD, hvD]
  rw [hread, hnext] at hleads
  have hrun := congrArg Prod.snd hleads.run_eq
  obtain ⟨vI, hvI⟩ := (books_start twoWarehouses 1).items 1 le_rfl (by norm_num [numItem])
  rw [viewAt_get rfl] at hvI
  have hlen : (orderOf 1 n).items.length = n := List.length_replicate
  have h := (run_newOrderLines (.newOrder 1 (orderOf 1 n)) blank 1 (orderOf 1 n).districtId
    (DKey.make 1 (orderOf 1 n).districtId) vD' (NOKey.make 1 (orderOf 1 n).districtId 3002)
    (OKey.make 1 (orderOf 1 n).districtId (NOKey.make 1 (orderOf 1 n).districtId 3002).noOId) 1 (orderOf 1 n).items s₁
    (by rw [hlen]; omega) ?_).2
  · obtain ⟨v, hv, hdate⟩ := h (l - 1) (by omega)
    rw [← hrun, show 1 + (l - 1) = l by omega] at hv
    refine ⟨v, ?_, hdate⟩
    rw [← make_olKey isDistrict_one (by norm_num) (l := l) (by omega)]
    exact hv
  · intro item hitem
    obtain rfl := List.eq_of_mem_replicate hitem
    rw [hitems, make_iKey (by simp [numItem])]
    exact ⟨vI, hvI⟩

end

/-- The round of the next delivery for the first district, after an order of `n` lines. -/
def roundOf (n : ℕ) : World (Fin 1) :=
  ((deliverDistrict 1 1 1).run (World.exec 0 (.delivery 1 ⟨1⟩) blank) (ordered n)).2

theorem round_ordered (n : ℕ) : Round twoWarehouses (answered loaded (.newOrder 1 (orderOf 1 n))) 1 ⟨1⟩ blank 1
    (ordered n) (roundOf n) :=
  ⟨[], List.range' 2 9, rfl, rfl, rfl⟩

theorem delivery_exact_ten : ∃ vO, Delivers (ordered 10) 1 1 3002 vO ∧
    DeliveryOk (ordered 10) (roundOf 10) 1 1 3002 vO := by
  have hn : 5 ≤ 10 ∧ 10 ≤ 15 := by norm_num
  obtain ⟨vO, hdel, hcnt⟩ := delivers_ordered hn
  obtain ⟨hcalls, hplaced⟩ := counts_ordered hn
  refine ⟨vO, hdel, delivery_exact (run_ordered hn) rfl delivery_ok (round_ordered 10) hdel (.inl hcnt) ?_ ?_⟩
  · rw [hcalls, hcnt]
    norm_num
  · rw [hplaced]
    norm_num

/-- Of an order of more than ten lines, the scan does not give the eleventh. -/
theorem not_deliveryOk_ordered {n : ℕ} (hn : 5 ≤ n ∧ n ≤ 15) (h : 11 ≤ n) :
    ∃ vO, Delivers (ordered n) 1 1 3002 vO ∧ ¬ DeliveryOk (ordered n) (roundOf n) 1 1 3002 vO := by
  obtain ⟨vO, hdel, hcnt⟩ := delivers_ordered hn
  obtain ⟨hcalls, hplaced⟩ := counts_ordered hn
  obtain ⟨v, hv, hdate⟩ := undated_ordered hn ⟨by norm_num, h⟩
  have hlines := (round_ordered n).lines (run_ordered hn) rfl delivery_ok hdel (by rw [hplaced]; norm_num)
  have hkeep := late_line (.delivery 1 ⟨1⟩) blank 1 isDistrict_one hdel (by norm_num) hlines (by omega) (l := 11)
    (by norm_num)
  exact ⟨vO, hdel, fun hok => hok.dated 11 v (hkeep.trans hv) hdate⟩

/-- An order of fifteen lines, delivered: its eleventh is left without a date. -/
theorem delivery_undated : ∃ vO, Run twoWarehouses oneWorker (answered loaded (.newOrder 1 (orderOf 1 15))) ∧
    (answered loaded (.newOrder 1 (orderOf 1 15))).thread 0 = none ∧
    (Request.delivery 1 ⟨1⟩).Ok twoWarehouses ∧
    Round twoWarehouses (answered loaded (.newOrder 1 (orderOf 1 15))) 1 ⟨1⟩ blank 1 (ordered 15) (roundOf 15) ∧
    Delivers (ordered 15) 1 1 3002 vO ∧ ¬ DeliveryOk (ordered 15) (roundOf 15) 1 1 3002 vO := by
  have hn : 5 ≤ 15 ∧ 15 ≤ 15 := by norm_num
  obtain ⟨vO, hdel, hnot⟩ := not_deliveryOk_ordered hn (by norm_num)
  exact ⟨vO, run_ordered hn, rfl, delivery_ok, round_ordered 15, hdel, hnot⟩

end SidleBaselines.Tpcc
