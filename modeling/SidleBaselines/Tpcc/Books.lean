import SidleBaselines.Tpcc.Effects

/-!
# The books of a warehouse

Two invariants of a warehouse's view: one of each district's orders
(`DistrictOrders`), one of the money the warehouse has been paid (`Takings`).

## What is proved

* `books` — together they are a ledger: every transaction keeps them.
-/

namespace SidleBaselines.Tpcc

open SidleBaselines.Data SidleBaselines.Concurrency

/-! ### Orders -/

/-- The orders of district `d`: what its counter, the order, new-order and order-line
tables and the note of each customer's latest order have to do with each other. What
needs the district's order ids not to have wrapped says so. -/
structure DistrictOrders (args : Args) (w : ℕ) (v : View) (d : ℕ) : Prop where
  /-- The counter has been incremented once for each order placed. -/
  counter : args.IsDistrict w d → ∃ vD, (v.db .district).get ⟨d, w⟩ = some vD ∧
    vD.dNextOId = (3001 + v.placed d) % 2 ^ 32
  /-- The orders are the loaded ones and those from `3002` on. -/
  ids : 3001 + v.placed d < 2 ^ 32 → ∀ o, (∃ vO, (v.db .order).get ⟨o, d, w⟩ = some vO) ↔
    args.IsDistrict w d ∧ (1 ≤ o ∧ o ≤ 3000 ∨ 3002 ≤ o ∧ o ≤ 3001 + v.placed d)
  /-- The last order placed has the counter's value as its id. -/
  last : 0 < v.placed d → ∃ vO, (v.db .order).get ⟨(3001 + v.placed d) % 2 ^ 32, d, w⟩ = some vO
  /-- An order's id has 32 bits. -/
  width : ∀ o vO, (v.db .order).get ⟨o, d, w⟩ = some vO → o < 2 ^ 32
  /-- An order's lines are numbered from `1` to its count, and there are no others. -/
  lines : 3001 + v.placed d < 2 ^ 32 → ∀ l o, v.lines ⟨l, o, d, w⟩ ↔
    ∃ vO, (v.db .order).get ⟨o, d, w⟩ = some vO ∧ 1 ≤ l ∧ l ≤ vO.oOlCnt
  /-- The new orders are the orders not delivered. -/
  undelivered : ∀ o, (∃ x, (v.db .newOrder).get ⟨o, d, w⟩ = some x) ↔
    ∃ vO, (v.db .order).get ⟨o, d, w⟩ = some vO ∧ vO.oCarrierId = 0
  /-- An order not delivered is not one loaded as delivered. -/
  fresh : 3001 + v.placed d < 2 ^ 32 → ∀ o vO, (v.db .order).get ⟨o, d, w⟩ = some vO →
    vO.oCarrierId = 0 → 2101 ≤ o
  /-- The loaded orders are still for the customers they were loaded for. -/
  loaded : 3001 + v.placed d < 2 ^ 32 → ∀ o vO, (v.db .order).get ⟨o, d, w⟩ = some vO → o ≤ 3000 →
    vO.oCId = (cIds args).getD (o - 1) 0
  /-- A customer who has not ordered is noted with order `3000`, -/
  unbought : ∀ c, v.bought d c = 0 → v.latest d c = 3000
  /-- and has only loaded orders. -/
  old : 3001 + v.placed d < 2 ^ 32 → ∀ c, v.bought d c = 0 →
    ∀ o vO, (v.db .order).get ⟨o, d, w⟩ = some vO → vO.oCId = c → o ≤ 3000
  /-- A customer who has ordered is noted with an order of his, placed since, -/
  bought : 3001 + v.placed d < 2 ^ 32 → ∀ c, 0 < v.bought d c → 3002 ≤ v.latest d c ∧
    ∃ vO, (v.db .order).get ⟨v.latest d c, d, w⟩ = some vO ∧ vO.oCId = c
  /-- and has none after it. -/
  newest : 3001 + v.placed d < 2 ^ 32 → ∀ c, 0 < v.bought d c →
    ∀ o vO, (v.db .order).get ⟨o, d, w⟩ = some vO → vO.oCId = c → o ≤ v.latest d c

section
variable {args : Args} {w : ℕ} {v v' : View} {d : ℕ}

/-- Nothing of the district's has changed but its counter's row, outside the counter. -/
theorem DistrictOrders.congr (h : DistrictOrders args w v d)
    (hD : ∀ vD, (v.db .district).get ⟨d, w⟩ = some vD →
      ∃ vD', (v'.db .district).get ⟨d, w⟩ = some vD' ∧ vD'.dNextOId = vD.dNextOId)
    (hO : ∀ o, (v'.db .order).get ⟨o, d, w⟩ = (v.db .order).get ⟨o, d, w⟩)
    (hNO : ∀ o, (v'.db .newOrder).get ⟨o, d, w⟩ = (v.db .newOrder).get ⟨o, d, w⟩)
    (hl : ∀ l o, v'.lines ⟨l, o, d, w⟩ ↔ v.lines ⟨l, o, d, w⟩) (hlatest : v'.latest d = v.latest d)
    (hp : v'.placed d = v.placed d) (hb : v'.bought d = v.bought d) : DistrictOrders args w v' d where
  counter hd := by
    obtain ⟨vD, hvD, hn⟩ := h.counter hd
    obtain ⟨vD', hvD', hn'⟩ := hD vD hvD
    exact ⟨vD', hvD', by rw [hn', hn, hp]⟩
  ids := by simpa only [hO, hp] using h.ids
  last := by simpa only [hO, hp] using h.last
  width := by simpa only [hO] using h.width
  lines := by simpa only [hO, hp, hl] using h.lines
  undelivered := by simpa only [hO, hNO] using h.undelivered
  fresh := by simpa only [hO, hp] using h.fresh
  loaded := by simpa only [hO, hp] using h.loaded
  unbought := by simpa only [hb, hlatest] using h.unbought
  old := by simpa only [hO, hp, hb] using h.old
  bought := by simpa only [hO, hp, hb, hlatest] using h.bought
  newest := by simpa only [hO, hp, hb, hlatest] using h.newest

/-- The id of the next order, as long as ids have not wrapped. -/
theorem DistrictOrders.nextId (h : DistrictOrders args w v d) (hd : args.IsDistrict w d) {vD : DVal}
    (hvD : (v.db .district).get ⟨d, w⟩ = some vD) :
    u32 (vD.dNextOId + 1) = (3002 + v.placed d) % 2 ^ 32 := by
  obtain ⟨vD', hvD', hn⟩ := h.counter hd
  obtain rfl : vD = vD' := Option.some.inj (hvD.symm.trans hvD')
  rw [u32_succ, hn]
  omega

/-- The next order's id is free. -/
theorem DistrictOrders.free (h : DistrictOrders args w v d) (hb : 3002 + v.placed d < 2 ^ 32) :
    (v.db .newOrder).get ⟨3002 + v.placed d, d, w⟩ = none ∧
      (v.db .order).get ⟨3002 + v.placed d, d, w⟩ = none := by
  have ho : (v.db .order).get ⟨3002 + v.placed d, d, w⟩ = none := by
    cases hvO : (v.db .order).get ⟨3002 + v.placed d, d, w⟩ with
    | none => rfl
    | some vO =>
      have := ((h.ids (by omega) _).mp ⟨vO, hvO⟩).2
      omega
  refine ⟨?_, ho⟩
  cases hx : (v.db .newOrder).get ⟨3002 + v.placed d, d, w⟩ with
  | none => rfl
  | some x =>
    obtain ⟨vO, hvO, -⟩ := (h.undelivered _).mp ⟨x, hx⟩
    rw [ho] at hvO
    cases hvO

/-- Placing an order in another district. -/
theorem DistrictOrders.place_ne {x : NewOrder} {vD : DVal} {o : ℕ} (h : DistrictOrders args w v d)
    (hne : x.districtId ≠ d) : DistrictOrders args w (v.placeOrder w x vD o) d := by
  refine h.congr (fun vD' hvD' => ⟨vD', ?_, rfl⟩) (fun o' => ?_) (fun o' => ?_) (fun l o' => ?_) ?_ ?_ ?_
  · simpa [View.placeOrder, Table.get_insert, hne] using hvD'
  · simp [View.placeOrder, Table.get_insert, hne]
  · simp [View.placeOrder, Table.get_insert, hne]
  · simp [View.placeOrder, Ne.symm hne]
  · simp [View.placeOrder, Ne.symm hne]
  · simp [View.placeOrder, hne]
  · funext c; simp [View.placeOrder, hne]

section
variable {x : NewOrder} {vD : DVal} {o o' l c : ℕ}

theorem placeOrder_order : ((v.placeOrder w x vD o).db .order).get ⟨o', x.districtId, w⟩ =
    if o = o' then some (x.row (clock v.calls)) else (v.db .order).get ⟨o', x.districtId, w⟩ := by
  simp [View.placeOrder, Table.get_insert]

theorem placeOrder_newOrder :
    (∃ y, ((v.placeOrder w x vD o).db .newOrder).get ⟨o', x.districtId, w⟩ = some y) ↔
    o = o' ∨ ∃ y, (v.db .newOrder).get ⟨o', x.districtId, w⟩ = some y := by
  by_cases h : o = o' <;> simp [View.placeOrder, Table.get_insert, h]

theorem placeOrder_lines : (v.placeOrder w x vD o).lines ⟨l, o', x.districtId, w⟩ ↔
    v.lines ⟨l, o', x.districtId, w⟩ ∨ o = o' ∧ 1 ≤ l ∧ l ≤ x.items.length := by
  simp only [View.placeOrder, OLKey.mk.injEq]
  refine or_congr_right ⟨?_, ?_⟩
  · rintro ⟨l', h₁, h₂, rfl, rfl, -⟩
    exact ⟨rfl, h₁, h₂⟩
  · rintro ⟨rfl, h₁, h₂⟩
    exact ⟨l, h₁, h₂, by simp⟩

theorem placeOrder_latest : (v.placeOrder w x vD o).latest x.districtId c =
    if x.customerId = c then o else v.latest x.districtId c := by
  by_cases h : x.customerId = c
  · subst h; simp [View.placeOrder]
  · simp [View.placeOrder, h, Ne.symm h]

theorem placeOrder_placed : (v.placeOrder w x vD o).placed x.districtId = v.placed x.districtId + 1 := by
  simp [View.placeOrder]

theorem placeOrder_bought : (v.placeOrder w x vD o).bought x.districtId c =
    v.bought x.districtId c + if x.customerId = c then 1 else 0 := by
  simp [View.placeOrder]

theorem placeOrder_unbought (hc : (v.placeOrder w x vD o).bought x.districtId c = 0) :
    x.customerId ≠ c ∧ v.bought x.districtId c = 0 := by
  rw [placeOrder_bought, Nat.add_eq_zero_iff] at hc
  exact ⟨fun hcc => absurd hc.2 (by simp [hcc]), hc.1⟩

/-- There is one order more. -/
theorem DistrictOrders.place_ids (h : DistrictOrders args w v x.districtId) (hd : args.IsDistrict w x.districtId)
    (hb : 3002 + v.placed x.districtId < 2 ^ 32) (o' : ℕ) :
    (∃ vO, ((v.placeOrder w x vD (3002 + v.placed x.districtId)).db .order).get ⟨o', x.districtId, w⟩ = some vO) ↔
      args.IsDistrict w x.districtId ∧
        (1 ≤ o' ∧ o' ≤ 3000 ∨ 3002 ≤ o' ∧ o' ≤ 3001 + (v.placed x.districtId + 1)) := by
  rw [placeOrder_order]
  split_ifs with ho
  · exact ⟨fun _ => ⟨hd, .inr (by omega)⟩, fun _ => ⟨_, rfl⟩⟩
  · rw [h.ids (by omega)]
    exact and_congr_right fun _ => by omega

/-- The order's lines are as many as its row says, and the other orders keep theirs. -/
theorem DistrictOrders.place_lines (hx : x.Ok args) (h : DistrictOrders args w v x.districtId)
    (hb : 3002 + v.placed x.districtId < 2 ^ 32) (l o' : ℕ) :
    (v.placeOrder w x vD (3002 + v.placed x.districtId)).lines ⟨l, o', x.districtId, w⟩ ↔
      ∃ vO, ((v.placeOrder w x vD (3002 + v.placed x.districtId)).db .order).get ⟨o', x.districtId, w⟩ = some vO ∧
        1 ≤ l ∧ l ≤ vO.oOlCnt := by
  have hcount := hx.count
  have hrow : (x.row (clock v.calls)).oOlCnt = x.items.length := Nat.mod_eq_of_lt (by omega)
  rw [placeOrder_lines, placeOrder_order, h.lines (by omega)]
  split_ifs with ho
  · subst ho
    simp only [(h.free (by omega)).2, Option.some.injEq, exists_eq_left', hrow, true_and, reduceCtorEq,
      false_and, exists_false, false_or]
  · simp only [ho, false_and, or_false]

/-- The order is a new one. -/
theorem DistrictOrders.place_undelivered (h : DistrictOrders args w v x.districtId) (o' : ℕ) :
    (∃ y, ((v.placeOrder w x vD o).db .newOrder).get ⟨o', x.districtId, w⟩ = some y) ↔
      ∃ vO, ((v.placeOrder w x vD o).db .order).get ⟨o', x.districtId, w⟩ = some vO ∧ vO.oCarrierId = 0 := by
  rw [placeOrder_newOrder, placeOrder_order, h.undelivered]
  split_ifs with ho
  · simp only [ho, true_or, true_iff]
    exact ⟨_, rfl, rfl⟩
  · simp only [ho, false_or]

/-- No order's id has been given out yet. -/
theorem DistrictOrders.le_placed (h : DistrictOrders args w v d) (hb : 3002 + v.placed d < 2 ^ 32) {vO : OVal}
    (hvO : (v.db .order).get ⟨o', d, w⟩ = some vO) : o' < 3002 + v.placed d := by
  have := ((h.ids (by omega) o').mp ⟨vO, hvO⟩).2
  omega

/-- A customer who has not ordered is not the order's. -/
theorem DistrictOrders.place_old (h : DistrictOrders args w v x.districtId)
    (hb : 3002 + v.placed x.districtId < 2 ^ 32) (hc : (v.placeOrder w x vD o).bought x.districtId c = 0) {vO : OVal}
    (hvO : ((v.placeOrder w x vD o).db .order).get ⟨o', x.districtId, w⟩ = some vO) (hvc : vO.oCId = c) :
    o' ≤ 3000 := by
  obtain ⟨hcc, hc⟩ := placeOrder_unbought hc
  rw [placeOrder_order] at hvO
  split_ifs at hvO with ho
  · cases hvO
    exact absurd hvc hcc
  · exact h.old (by omega) c hc o' vO hvO hvc

/-- The order's customer is noted with it, the others with the order they had. -/
theorem DistrictOrders.place_bought (h : DistrictOrders args w v x.districtId)
    (hb : 3002 + v.placed x.districtId < 2 ^ 32)
    (hc : 0 < (v.placeOrder w x vD (3002 + v.placed x.districtId)).bought x.districtId c) :
    3002 ≤ (v.placeOrder w x vD (3002 + v.placed x.districtId)).latest x.districtId c ∧
      ∃ vO, ((v.placeOrder w x vD (3002 + v.placed x.districtId)).db .order).get
        ⟨(v.placeOrder w x vD (3002 + v.placed x.districtId)).latest x.districtId c, x.districtId, w⟩ = some vO ∧
          vO.oCId = c := by
  rw [placeOrder_bought] at hc
  rw [placeOrder_latest]
  by_cases hcc : x.customerId = c
  · rw [if_pos hcc, placeOrder_order, if_pos rfl]
    exact ⟨by omega, _, rfl, hcc⟩
  · rw [if_neg hcc, Nat.add_zero] at hc
    rw [if_neg hcc]
    obtain ⟨h₁, vO, hvO, hvc⟩ := h.bought (by omega) c hc
    refine ⟨h₁, vO, ?_, hvc⟩
    rw [placeOrder_order, if_neg (h.le_placed hb hvO).ne', hvO]

/-- The order a customer is noted with is still his last. -/
theorem DistrictOrders.place_newest (h : DistrictOrders args w v x.districtId)
    (hb : 3002 + v.placed x.districtId < 2 ^ 32)
    (hc : 0 < (v.placeOrder w x vD (3002 + v.placed x.districtId)).bought x.districtId c) {vO : OVal}
    (hvO : ((v.placeOrder w x vD (3002 + v.placed x.districtId)).db .order).get ⟨o', x.districtId, w⟩ = some vO)
    (hvc : vO.oCId = c) :
    o' ≤ (v.placeOrder w x vD (3002 + v.placed x.districtId)).latest x.districtId c := by
  rw [placeOrder_bought] at hc
  rw [placeOrder_order] at hvO
  rw [placeOrder_latest]
  by_cases hcc : x.customerId = c
  · rw [if_pos hcc]
    split_ifs at hvO with ho
    · exact ho.ge
    · exact (h.le_placed hb hvO).le
  · rw [if_neg hcc, Nat.add_zero] at hc
    rw [if_neg hcc]
    split_ifs at hvO with ho
    · cases hvO
      exact absurd hvc hcc
    · exact h.newest (by omega) c hc o' vO hvO hvc

/-- **Placing an order** in the district. -/
theorem DistrictOrders.place (hx : x.Ok args) (hd : args.IsDistrict w x.districtId)
    (h : DistrictOrders args w v x.districtId)
    (hvD : (v.db .district).get ⟨x.districtId, w⟩ = some vD) :
    DistrictOrders args w (v.placeOrder w x vD (u32 (vD.dNextOId + 1))) x.districtId := by
  rw [h.nextId hd hvD]
  -- what needs the ids not to have wrapped is given the id itself
  have hid (hb : 3001 + (v.placed x.districtId + 1) < 2 ^ 32) :
      (3002 + v.placed x.districtId) % 2 ^ 32 = 3002 + v.placed x.districtId := Nat.mod_eq_of_lt (by omega)
  constructor
  case counter =>
    intro _
    refine ⟨{ vD with dNextOId := (3002 + v.placed x.districtId) % 2 ^ 32 }, by simp [View.placeOrder], ?_⟩
    rw [placeOrder_placed]
    dsimp only
    omega
  case ids =>
    rw [placeOrder_placed]
    intro hb o'
    rw [hid hb]
    exact h.place_ids hd (by omega) o'
  case last =>
    rw [placeOrder_placed]
    intro _
    rw [placeOrder_order, if_pos (by omega)]
    exact ⟨_, rfl⟩
  case width =>
    intro o' vO hvO
    rw [placeOrder_order] at hvO
    split_ifs at hvO with ho
    · omega
    · exact h.width o' vO hvO
  case lines =>
    rw [placeOrder_placed]
    intro hb l o'
    rw [hid hb]
    exact h.place_lines hx (by omega) l o'
  case undelivered => exact h.place_undelivered
  case fresh =>
    rw [placeOrder_placed]
    intro hb o' vO hvO hc
    rw [placeOrder_order, hid hb] at hvO
    split_ifs at hvO with ho
    · omega
    · exact h.fresh (by omega) o' vO hvO hc
  case loaded =>
    rw [placeOrder_placed]
    intro hb o' vO hvO ho
    rw [placeOrder_order, hid hb, if_neg (by omega)] at hvO
    exact h.loaded (by omega) o' vO hvO ho
  case unbought =>
    intro c hc
    obtain ⟨hcc, hc⟩ := placeOrder_unbought hc
    rw [placeOrder_latest, if_neg hcc]
    exact h.unbought c hc
  case old =>
    rw [placeOrder_placed]
    intro hb c hc o' vO hvO hvc
    exact h.place_old (by omega) hc hvO hvc
  case bought =>
    rw [placeOrder_placed]
    intro hb c hc
    rw [hid hb] at hc ⊢
    exact h.place_bought (by omega) hc
  case newest =>
    rw [placeOrder_placed]
    intro hb c hc o' vO hvO hvc
    rw [hid hb] at hc hvO ⊢
    exact h.place_newest (by omega) hc hvO hvc

end

/-- A payment. -/
theorem DistrictOrders.pay {x : Payment} {vW : WVal} {vD : DVal}
    (hvD : ∀ u, (v.db .district).get (DKey.make w x.districtId) = some u → u = vD)
    (h : DistrictOrders args w v d) : DistrictOrders args w (v.pay w x vW vD) d := by
  refine h.congr (fun u hu => ?_) (fun _ => rfl) (fun _ => rfl) (fun _ _ => Iff.rfl) rfl rfl rfl
  have hget : ((v.pay w x vW vD).db .district).get ⟨d, w⟩ =
      if DKey.make w x.districtId = ⟨d, w⟩ then some { vD with dYtd := vD.dYtd + x.paymentAmount }
      else (v.db .district).get ⟨d, w⟩ := by
    rw [← Table.get_insert]; rfl
  rw [hget]
  split_ifs with hk
  · obtain rfl := hvD u (hk ▸ hu)
    exact ⟨_, rfl, rfl⟩
  · exact ⟨u, hu, rfl⟩

/-- A delivery: it changes no more than who has delivered the order. -/
theorem DistrictOrders.deliver {d' oCarrierId o n : ℕ} {vO : OVal} (hc : 1 ≤ oCarrierId)
    (hvO : (v.db .order).get ⟨o, d', w⟩ = some vO) (h : DistrictOrders args w v d) :
    DistrictOrders args w { v.deliver w d' oCarrierId o vO with calls := v.calls + n } d := by
  have hNO : ∀ o', ((v.deliver w d' oCarrierId o vO).db .newOrder).get ⟨o', d, w⟩ =
      if o = o' ∧ d' = d then none else (v.db .newOrder).get ⟨o', d, w⟩ := by
    intro o'
    simp [View.deliver, Table.get_remove]
  have hO : ∀ o', ((v.deliver w d' oCarrierId o vO).db .order).get ⟨o', d, w⟩ =
      if o = o' ∧ d' = d then some { vO with oCarrierId := oCarrierId }
      else (v.db .order).get ⟨o', d, w⟩ := by
    intro o'
    simp [View.deliver, Table.get_insert]
  -- but for the carrier, the rows are the same
  have same : ∀ o' (P : OVal → Prop), (∀ u : OVal, P { u with oCarrierId := oCarrierId } ↔ P u) →
      ((∃ u, ((v.deliver w d' oCarrierId o vO).db .order).get ⟨o', d, w⟩ = some u ∧ P u) ↔
        ∃ u, (v.db .order).get ⟨o', d, w⟩ = some u ∧ P u) := by
    intro o' P hP
    rw [hO]
    split_ifs with ho
    · obtain ⟨rfl, rfl⟩ := ho
      simp only [hvO, Option.some.injEq, exists_eq_left', hP]
    · rfl
  have some_iff : ∀ o', (∃ u, ((v.deliver w d' oCarrierId o vO).db .order).get ⟨o', d, w⟩ = some u) ↔
      ∃ u, (v.db .order).get ⟨o', d, w⟩ = some u := by
    intro o'
    simpa using same o' (fun _ => True) fun _ => Iff.rfl
  have back : ∀ o' u, ((v.deliver w d' oCarrierId o vO).db .order).get ⟨o', d, w⟩ = some u →
      ∃ u', (v.db .order).get ⟨o', d, w⟩ = some u' ∧ u.oCId = u'.oCId := by
    intro o' u hu
    obtain ⟨u', hu', h'⟩ := (same o' (fun u' => u.oCId = u'.oCId) fun _ => Iff.rfl).mp ⟨u, hu, rfl⟩
    exact ⟨u', hu', h'⟩
  constructor
  case counter => exact h.counter
  case ids => exact fun hb o' => (some_iff o').trans (h.ids hb o')
  case last => exact fun hp => (some_iff _).mpr (h.last hp)
  case width =>
    intro o' u hu
    obtain ⟨u', hu', -⟩ := back o' u hu
    exact h.width o' u' hu'
  case lines =>
    intro hb l o'
    exact (h.lines hb l o').trans (same o' (fun u => 1 ≤ l ∧ l ≤ u.oOlCnt) fun _ => Iff.rfl).symm
  case undelivered =>
    intro o'
    change (∃ x, ((v.deliver w d' oCarrierId o vO).db .newOrder).get _ = some x) ↔
      ∃ u, ((v.deliver w d' oCarrierId o vO).db .order).get _ = some u ∧ _
    rw [hNO, hO]
    split_ifs with ho
    · simp only [exists_false, Option.some.injEq, exists_eq_left', false_iff]
      omega
    · exact h.undelivered o'
  case fresh =>
    intro hb o' u hu huc
    rw [hO] at hu
    split_ifs at hu with ho
    · cases hu
      exact absurd huc (Nat.ne_of_gt hc)
    · exact h.fresh hb o' u hu huc
  case loaded =>
    intro hb o' u hu ho
    obtain ⟨u', hu', he⟩ := back o' u hu
    rw [he]
    exact h.loaded hb o' u' hu' ho
  case unbought => exact h.unbought
  case old =>
    intro hb c hc o' u hu huc
    obtain ⟨u', hu', he⟩ := back o' u hu
    exact h.old hb c hc o' u' hu' (he ▸ huc)
  case bought =>
    intro hb c hc
    obtain ⟨h₁, h₂⟩ := h.bought hb c hc
    exact ⟨h₁, (same _ (fun u => u.oCId = c) fun _ => Iff.rfl).mpr h₂⟩
  case newest =>
    intro hb c hc o' u hu huc
    obtain ⟨u', hu', he⟩ := back o' u hu
    exact h.newest hb c hc o' u' hu' (he ▸ huc)

end

/-! ### Takings -/

/-- What the history rows of the kind `p` are worth. -/
def historyTotal (p : HKey → Bool) (t : Table HKey HVal) : ℚ :=
  t.total fun k v => if p k then v.hAmount else 0

/-- The payments to warehouse `w`: what its year-to-date columns have to do with its
history, when it has the ten districts `txn_payment` draws from and its worker's clock
has not wrapped. -/
structure Takings (args : Args) (w : ℕ) (v : View) : Prop where
  /-- The warehouse has a row. -/
  exists_row : args.IsWarehouse w → ∃ vW, (v.db .warehouse).get ⟨w⟩ = some vW
  /-- The history is dated before the clock. -/
  dates : 3000 + v.calls < 2 ^ 32 → ∀ k x, (v.db .history).get k = some x → k.hDate ≤ 3000 + v.calls
  /-- The history is of the ten districts. -/
  districts : args.numDistrictPerWarehouse = 10 → ∀ k x, (v.db .history).get k = some x →
    1 ≤ k.hDId ∧ k.hDId ≤ 10
  /-- A district's year to date. -/
  dYtd : args.numDistrictPerWarehouse = 10 → 3000 + v.calls < 2 ^ 32 → ∀ d vD,
    (v.db .district).get ⟨d, w⟩ = some vD →
      vD.dYtd = historyTotal (fun k => k.hDId = d) (v.db .history)
  /-- The warehouse's year to date. -/
  wYtd : args.numDistrictPerWarehouse = 10 → 3000 + v.calls < 2 ^ 32 → ∀ vW,
    (v.db .warehouse).get ⟨w⟩ = some vW → vW.wYtd = historyTotal (fun _ => true) (v.db .history)

section
variable {args : Args} {w : ℕ} {v : View}

theorem Takings.mono {n : ℕ} (h : Takings args w v) (hn : v.calls ≤ n) :
    Takings args w { v with calls := n } where
  exists_row := h.exists_row
  dates hb k x hx := (h.dates (by dsimp only at hb; omega) k x hx).trans (by dsimp only; omega)
  districts := h.districts
  dYtd h10 hb := h.dYtd h10 (by dsimp only at hb; omega)
  wYtd h10 hb := h.wYtd h10 (by dsimp only at hb; omega)

theorem clock_eq {n : ℕ} (h : 3000 + (n + 1) < 2 ^ 32) : clock n = 3001 + n := Nat.mod_eq_of_lt (by omega)

/-- The next payment's key is free. -/
theorem Takings.free (h : Takings args w v) (hb : 3001 + v.calls < 2 ^ 32) (wi di cwi cdi ci : ℕ) :
    (v.db .history).get (HKey.make wi di cwi cdi ci (clock v.calls)) = none := by
  cases hx : (v.db .history).get (HKey.make wi di cwi cdi ci (clock v.calls)) with
  | none => rfl
  | some x =>
    have := h.dates (by omega) _ _ hx
    rw [clock_eq (by omega)] at this
    simp only [HKey.make] at this
    omega

theorem Takings.placeOrder {x : NewOrder} {vD : DVal} {o : ℕ} (h : Takings args w v)
    (hvD : (v.db .district).get ⟨x.districtId, w⟩ = some vD) :
    Takings args w (v.placeOrder w x vD o) where
  exists_row := h.exists_row
  dates := (h.mono (Nat.le_succ v.calls)).dates
  districts := h.districts
  dYtd h10 hb d u hu := by
    have hu : ((v.db .district).insert ⟨x.districtId, w⟩ { vD with dNextOId := o }).get ⟨d, w⟩ = some u := hu
    rw [Table.get_insert] at hu
    split_ifs at hu with hk
    · cases hu
      obtain rfl : x.districtId = d := (DKey.mk.inj hk).1
      exact (h.mono (Nat.le_succ v.calls)).dYtd h10 hb _ vD hvD
    · exact (h.mono (Nat.le_succ v.calls)).dYtd h10 hb _ _ hu
  wYtd := (h.mono (Nat.le_succ v.calls)).wYtd

theorem Takings.deliver {d oCarrierId o n : ℕ} {vO : OVal} (h : Takings args w v) :
    Takings args w { v.deliver w d oCarrierId o vO with calls := v.calls + n } where
  exists_row := h.exists_row
  dates := (h.mono (Nat.le_add_right v.calls n)).dates
  districts := h.districts
  dYtd := (h.mono (Nat.le_add_right v.calls n)).dYtd
  wYtd := (h.mono (Nat.le_add_right v.calls n)).wYtd

theorem historyTotal_insert {t : Table HKey HVal} {k : HKey} {x : HVal} (p : HKey → Bool)
    (h : t.get k = none) :
    historyTotal p (t.insert k x) = historyTotal p t + if p k then x.hAmount else 0 := by
  rw [historyTotal, Table.total_insert_new h, add_comm]
  rfl

/-- **A payment** counts in the district's row, the warehouse's and the history alike. -/
theorem Takings.pay {x : Payment} {vW : WVal} {vD : DVal} (hx : x.Ok args) (hw : args.IsWarehouse w)
    (h : Takings args w v) (hvW : (v.db .warehouse).get ⟨w⟩ = some vW)
    (hvD : ∀ u, (v.db .district).get (DKey.make w x.districtId) = some u → u = vD)
    (hrow : args.IsDistrict w x.districtId → ∃ u, (v.db .district).get ⟨x.districtId, w⟩ = some u) :
    Takings args w (v.pay w x vW vD) := by
  have hd := hx.district
  have hdId : x.districtId % 2 ^ 8 = x.districtId := Nat.mod_eq_of_lt (by omega)
  have free (hb : 3000 + (v.calls + 1) < 2 ^ 32) := h.free (w := w) (by omega) w x.districtId
    x.customerWarehouseId x.customerDistrictId x.customerId
  constructor
  case exists_row => exact fun _ => ⟨_, by simp [View.pay]; rfl⟩
  case dates =>
    intro hb k y hk
    have hk : ((v.db .history).insert (HKey.make w x.districtId x.customerWarehouseId
      x.customerDistrictId x.customerId (clock v.calls)) _).get k = some y := hk
    change 3000 + (v.calls + 1) < 2 ^ 32 at hb
    change k.hDate ≤ 3000 + (v.calls + 1)
    rw [Table.get_insert] at hk
    split_ifs at hk with he
    · rw [← he, clock_eq hb]
      simp only [HKey.make]
      omega
    · exact (h.dates (by omega) k y hk).trans (by omega)
  case districts =>
    intro h10 k y hk
    have hk : ((v.db .history).insert (HKey.make w x.districtId x.customerWarehouseId
      x.customerDistrictId x.customerId (clock v.calls)) _).get k = some y := hk
    rw [Table.get_insert] at hk
    split_ifs at hk with he
    · rw [← he]
      simp only [HKey.make, hdId]
      exact hd
    · exact h.districts h10 k y hk
  case dYtd =>
    intro h10 hb d u hu
    have hdist : args.IsDistrict w x.districtId := ⟨hw, by omega⟩
    have hu : ((v.db .district).insert (DKey.make w x.districtId)
      { vD with dYtd := vD.dYtd + x.paymentAmount }).get ⟨d, w⟩ = some u := hu
    change 3000 + (v.calls + 1) < 2 ^ 32 at hb
    change _ = historyTotal _ ((v.db .history).insert _ _)
    rw [historyTotal_insert _ (free hb)]
    simp only [HKey.make, hdId]
    rw [Table.get_insert, make_dKey hdist] at hu
    split_ifs at hu with hk
    · cases hu
      obtain rfl : x.districtId = d := (DKey.mk.inj hk).1
      obtain ⟨u, hu'⟩ := hrow hdist
      obtain rfl := hvD u (by rw [make_dKey hdist]; exact hu')
      simp [h.dYtd h10 (by omega) _ _ hu']
    · have : x.districtId ≠ d := fun e => hk (by rw [e])
      simp [this, h.dYtd h10 (by omega) _ _ hu]
  case wYtd =>
    intro h10 hb u hu
    have hu : ((v.db .warehouse).insert ⟨w⟩ { vW with wYtd := vW.wYtd + x.paymentAmount }).get ⟨w⟩ =
      some u := hu
    change 3000 + (v.calls + 1) < 2 ^ 32 at hb
    change _ = historyTotal _ ((v.db .history).insert _ _)
    rw [historyTotal_insert _ (free hb)]
    rw [Table.get_insert_self] at hu
    cases hu
    simp [h.wYtd h10 (by omega) _ hvW]

end

/-! ### The start -/

section
variable {args : Args} {w : ℕ}

theorem start_get {t : Tab} {k : t.Key} (h : t.own w k) :
    ((View.start args w).db t).get k = (prepareKvs args t).get k := by
  simp only [View.start, Table.get_restrict, h, if_true]

theorem start_order {o d : ℕ} :
    ((View.start args w).db .order).get ⟨o, d, w⟩ = (prepareKvs args .order).get ⟨o, d, w⟩ :=
  start_get (by simp [Tab.own])

theorem DistrictOrders.start (d : ℕ) : DistrictOrders args w (View.start args w) d := by
  have hL := loaded_prepareKvs args
  have hrow {o : ℕ} {vO : OVal} (hvO : ((View.start args w).db .order).get ⟨o, d, w⟩ = some vO) :=
    (hL.order ⟨o, d, w⟩).2 vO (start_order.symm.trans hvO)
  constructor
  case counter =>
    intro hd
    obtain ⟨vD, hvD⟩ := (hL.district ⟨d, w⟩).1 hd
    refine ⟨vD, (start_get (by simp [Tab.own])).trans hvD, ?_⟩
    rw [((hL.district ⟨d, w⟩).2 vD hvD).2.2]
    rfl
  case ids =>
    intro _ o
    rw [start_order]
    constructor
    · rintro ⟨vO, hvO⟩
      exact ⟨((hL.order _).2 vO hvO).1.1, .inl ((hL.order _).2 vO hvO).1.2⟩
    · rintro ⟨hd, ho⟩
      refine (hL.order ⟨o, d, w⟩).1 ⟨hd, ?_⟩
      have : (View.start args w).placed d = 0 := rfl
      simp only [numCustomerPerDistrict]
      omega
  case last => exact fun h => absurd h (lt_irrefl 0)
  case width =>
    intro o vO hvO
    have := (hrow hvO).1.2.2
    simp only [numCustomerPerDistrict] at this
    omega
  case lines =>
    intro _ l o
    rw [start_order]
    exact (and_iff_right rfl).trans (hL.orderLine ⟨l, o, d, w⟩)
  case undelivered =>
    intro o
    rw [start_order, start_get (by simp [Tab.own])]
    constructor
    · rintro ⟨x, hx⟩
      obtain ⟨⟨hd, h₁, h₂⟩, -⟩ := (hL.newOrder ⟨o, d, w⟩).2 x hx
      dsimp only at hd h₁ h₂
      obtain ⟨vO, hvO⟩ := (hL.order ⟨o, d, w⟩).1 ⟨hd, by dsimp only; omega, h₂⟩
      exact ⟨vO, hvO, ((hL.order _).2 vO hvO).2.2.1.mpr h₁⟩
    · rintro ⟨vO, hvO, hc⟩
      obtain ⟨⟨hd, h₁, h₂⟩, -, hcarrier, -⟩ := (hL.order _).2 vO hvO
      exact (hL.newOrder ⟨o, d, w⟩).1 ⟨hd, hcarrier.mp hc, h₂⟩
  case fresh => exact fun _ o vO hvO hc => (hrow hvO).2.2.1.mp hc
  case loaded => exact fun _ o vO hvO _ => (hrow hvO).2.1
  case unbought => exact fun _ _ => rfl
  case old => exact fun _ _ _ o vO hvO _ => (hrow hvO).1.2.2
  case bought => exact fun _ c hc => absurd hc (lt_irrefl 0)
  case newest => exact fun _ c hc => absurd hc (lt_irrefl 0)

/-- The loaded history of a district is worth 30,000. -/
theorem historyTotal_start (args : Args) (w : ℕ) {d : ℕ} (hd : args.IsDistrict w d) :
    historyTotal (fun k => k.hDId = d) ((View.start args w).db .history) = 30000 := by
  have hL := loaded_prepareKvs args
  have hget {k : HKey} (hk : k.hWId = w) :
      ((View.start args w).db .history).get k = (prepareKvs args .history).get k :=
    start_get (by simpa [Tab.own] using hk)
  have hown {k : HKey} {x : HVal} (hx : ((View.start args w).db .history).get k = some x) : k.hWId = w := by
    by_contra hk
    simp [View.start, Table.get_restrict, Tab.own, hk] at hx
  rw [historyTotal, Table.total_eq_nsmul (10 : ℚ)
    ((List.range' 1 numCustomerPerDistrict).map fun c => (⟨c, d, w, c, d, w⟩ : HKey))]
  · simp [numCustomerPerDistrict]
    norm_num
  · exact List.Nodup.map (fun a b h => (HKey.mk.inj h).1) List.nodup_range'
  · intro k hk
    obtain ⟨c, hc, rfl⟩ := List.mem_map.mp hk
    have hc := List.mem_range'_1.mp hc
    obtain ⟨x, hx⟩ := (hL.history ⟨c, d, w, c, d, w⟩).1 ⟨hd, rfl, rfl, rfl, by dsimp only; omega⟩
    exact ⟨x, (hget rfl).trans hx, by simp [((hL.history _).2 x hx).2]⟩
  · intro k x hx hk
    rw [if_neg]
    intro hkd
    have hkd : k.hDId = d := by simpa using hkd
    have hw := hown hx
    rw [hget hw] at hx
    obtain ⟨⟨-, h₁, h₂, h₃, h₄⟩, -⟩ := (hL.history k).2 x hx
    refine hk (List.mem_map.mpr ⟨k.hCId, List.mem_range'_1.mpr (by omega), ?_⟩)
    cases k
    simp_all

theorem Takings.start : Takings args w (View.start args w) := by
  have hL := loaded_prepareKvs args
  have hrow {k : HKey} {x : HVal} (hx : ((View.start args w).db .history).get k = some x) :
      k.hWId = w ∧ (prepareKvs args .history).get k = some x := by
    by_cases hk : k.hWId = w
    · exact ⟨hk, (start_get (by simpa [Tab.own] using hk)).symm.trans hx⟩
    · simp [View.start, Table.get_restrict, Tab.own, hk] at hx
  have districts : args.numDistrictPerWarehouse = 10 → ∀ k x,
      ((View.start args w).db .history).get k = some x → 1 ≤ k.hDId ∧ k.hDId ≤ 10 := by
    intro h10 k x hx
    obtain ⟨⟨hd, -⟩, -⟩ := (hL.history k).2 x (hrow hx).2
    exact h10 ▸ hd.2
  constructor
  case exists_row =>
    intro hw
    obtain ⟨vW, hvW⟩ := (hL.warehouse ⟨w⟩).1 hw
    exact ⟨vW, (start_get (by simp [Tab.own])).trans hvW⟩
  case dates =>
    intro _ k x hx
    obtain ⟨⟨-, -, -, hdate, -, hc⟩, -⟩ := (hL.history k).2 x (hrow hx).2
    simp only [numCustomerPerDistrict] at hc
    exact le_trans (hdate.le.trans hc) (Nat.le_add_right _ _)
  case districts => exact districts
  case dYtd =>
    intro _ _ d vD hvD
    rw [start_get (by simp [Tab.own])] at hvD
    obtain ⟨hd, hy, -⟩ := (hL.district _).2 vD hvD
    rw [hy, historyTotal_start args w hd]
  case wYtd =>
    intro h10 _ vW hvW
    rw [start_get (by simp [Tab.own])] at hvW
    obtain ⟨hw, hy⟩ := (hL.warehouse _).2 vW hvW
    rw [hy, historyTotal, Table.total_kinds HKey.hDId (Finset.Icc 1 10) fun k x hx =>
      Finset.mem_Icc.mpr (districts h10 k x hx)]
    have each : ∀ d ∈ Finset.Icc 1 10, Table.total
        (fun k (x : HVal) => if k.hDId = d then if true then x.hAmount else 0 else 0)
        ((View.start args w).db .history) = 30000 := by
      intro d hd
      rw [← historyTotal_start args w (d := d) ⟨hw, by rw [h10]; exact Finset.mem_Icc.mp hd⟩]
      simp [historyTotal]
    rw [Finset.sum_congr rfl each]
    norm_num

end

/-! ### The ledger -/

/-- The books of a warehouse: its items can be ordered, and its orders and takings are in
order. -/
structure Books (args : Args) (w : ℕ) (v : View) : Prop where
  /-- The items. -/
  items : ∀ i, 1 ≤ i → i ≤ numItem → ∃ x, (v.db .item).get ⟨i⟩ = some x
  /-- The orders of every district. -/
  orders : ∀ d, DistrictOrders args w v d
  /-- The takings. -/
  takings : Takings args w v
  /-- Every order has been dated by its worker. -/
  drawn : ∀ d, v.placed d ≤ v.calls

section
variable {args : Args} {w : ℕ} {v : View}

theorem Books.mono {n : ℕ} (h : Books args w v) (hn : v.calls ≤ n) : Books args w { v with calls := n } where
  items := h.items
  orders d := (h.orders d).congr (fun vD hvD => ⟨vD, hvD, rfl⟩) (fun _ => rfl) (fun _ => rfl)
    (fun _ _ => Iff.rfl) rfl rfl rfl
  takings := h.takings.mono hn
  drawn d := (h.drawn d).trans hn

theorem Books.start : Books args w (View.start args w) where
  items i h₁ h₂ := by
    obtain ⟨x, hx⟩ := ((loaded_prepareKvs args).item ⟨i⟩).1 ⟨h₁, h₂⟩
    exact ⟨x, (start_get rfl).trans hx⟩
  orders := DistrictOrders.start
  takings := Takings.start
  drawn _ := Nat.zero_le _

theorem books_txnNewOrder {x : NewOrder} (hw : args.IsWarehouse w) (hx : x.Ok args) (h : Books args w v) :
    Does (.newOrder w x) w (fun _ v' => Books args w v') (txnNewOrder w x) v := by
  have hd : args.IsDistrict w x.districtId := ⟨hw, hx.district⟩
  obtain ⟨vD, hvD, hn⟩ := (h.orders x.districtId).counter hd
  refine Meets.mono ?_ (does_txnNewOrder hx hd hvD h.items (h.drawn _) fun hb => ?_)
  · rintro _ v' rfl
    refine ⟨h.items, fun d => ?_, h.takings.placeOrder hvD, fun d => ?_⟩
    · by_cases hxd : x.districtId = d
      · exact hxd ▸ (h.orders x.districtId).place hx hd hvD
      · exact (h.orders d).place_ne hxd
    · have := h.drawn d
      simp only [View.placeOrder]
      split_ifs <;> omega
  · rw [(h.orders x.districtId).nextId hd hvD, Nat.mod_eq_of_lt hb]
    exact (h.orders x.districtId).free hb

theorem books_txnPayment {x : Payment} (hw : args.IsWarehouse w) (hx : x.Ok args) (h : Books args w v) :
    Does (.payment w x) w (fun _ v' => Books args w v') (txnPayment w x) v := by
  obtain ⟨vW, hvW⟩ := h.takings.exists_row hw
  refine Meets.mono ?_ (does_txnPayment hw hvW fun hb => h.takings.free hb _ _ _ _ _)
  rintro _ v' ⟨vD, hvD, rfl⟩
  refine ⟨h.items, fun d => (h.orders d).pay hvD, h.takings.pay hx hw hvW hvD fun hd => ?_,
    fun d => (h.drawn d).trans (Nat.le_succ _)⟩
  obtain ⟨u, hu, -⟩ := (h.orders x.districtId).counter hd
  exact ⟨u, hu⟩

theorem books_deliverDistricts {y : Delivery} {oCarrierId : ℕ} (hc : 1 ≤ oCarrierId) (ds : List ℕ)
    (hds : ∀ d ∈ ds, args.IsDistrict w d) (h : Books args w v) :
    Does (.delivery w y) w (fun _ v' => Books args w v') (deliverDistricts w oCarrierId ds) v := by
  induction ds generalizing v with
  | nil => exact h
  | cons d ds ih =>
    have hnew : ∀ o, (∃ x, (v.db .newOrder).get ⟨o, d, w⟩ = some x) →
        ∃ vO, (v.db .order).get ⟨o, d, w⟩ = some vO ∧ vO.oCarrierId = 0 ∧
          (3001 + v.placed d < 2 ^ 32 → 2101 ≤ o) := by
      intro o hx
      obtain ⟨vO, hvO, hc⟩ := ((h.orders d).undelivered o).mp hx
      exact ⟨vO, hvO, hc, fun hb => (h.orders d).fresh hb o vO hvO hc⟩
    have hrest : ∀ v', Books args w v' →
        Does (.delivery w y) w (fun _ v' => Books args w v') (deliverDistricts w oCarrierId ds) v' :=
      fun v' h' => ih (fun d' hd' => hds d' (List.mem_cons_of_mem _ hd')) h'
    refine Meets.bind (Meets.mono ?_ (does_deliverDistrict (hds d List.mem_cons_self) oCarrierId hnew (h.drawn d)))
    rintro _ v' ⟨rfl, rfl | ⟨o, vO, n, hvO, -, rfl⟩⟩
    · exact hrest _ h
    · exact hrest _ ⟨h.items, fun d' => (h.orders d').deliver hc hvO, h.takings.deliver,
        fun d' => (h.drawn d').trans (Nat.le_add_right _ _)⟩

end

/-- **The books are a ledger**: every transaction keeps them. -/
def books (args : Args) : Ledger args where
  Inv := Books args
  Pre := View.finds
  mono _ _ _ h hn := h.mono hn
  start _ := Books.start
  sound q v hq h := by
    obtain ⟨hw, hq⟩ := hq
    cases q with
    | newOrder w x => exact books_txnNewOrder hw hq h
    | payment w x => exact books_txnPayment hw hq h
    | delivery w x =>
      refine books_deliverDistricts hq.carrier.1 _ (fun d hd => ⟨hw, ?_⟩) h
      have := List.mem_range'_1.mp hd
      omega
    | orderStatus w x => exact (does_txnOrderStatus x).mono fun _ _ e => e ▸ h
    | stockLevel w x => exact (does_txnStockLevel x).mono fun _ _ e => e ▸ h

end SidleBaselines.Tpcc
