import SidleBaselines.Tpcc.Books

/-!
# Payments

## What is proved

* `payments_ledger` — while no clock has wrapped, a district's year-to-date column is
  the sum of its history, a warehouse's that of all of its history, and no history row
  is written over.
-/

namespace SidleBaselines.Tpcc

open SidleBaselines.Data SidleBaselines.Concurrency

variable {J : Type} [DecidableEq J] {args : Args} {W : Workers J} {c : Threads J}

/-- The takings of an idle warehouse, its worker's clock not having wrapped. -/
theorem takings_idle (hr : Run args W c) (hb : ∀ j, c.state.calls j < 2 ^ 32 - 3001) {w : ℕ}
    (h : OwnerIdle W c w) :
    ∃ n, 3000 + n < 2 ^ 32 ∧ Books args w (viewAt w n c.state) := by
  obtain ⟨n, hn, hbooks⟩ := (books args).idle hr h
  refine ⟨n, ?_, hbooks⟩
  rcases hn with rfl | ⟨i, -, hn⟩
  · norm_num
  · have := hb i
    omega

omit [DecidableEq J] in
/-- What a warehouse's history is worth can be read off its view. -/
theorem historyTotal_view (w n : ℕ) (s : World J) (p : HKey → Bool) :
    historyTotal p ((viewAt w n s).db .history) =
      historyTotal (fun k => k.hWId = w && p k) (s.db .history) := by
  have zero : ∀ (k : HKey) (x : HVal), ¬ Tab.own w .history k →
      (if k.hWId = w && p k then x.hAmount else 0) = 0 := by
    intro k x hk
    have : k.hWId ≠ w := by simpa [Tab.own] using hk
    simp [this]
  unfold historyTotal
  rw [← Table.total_restrict zero]
  refine Table.total_congr fun k x hx => ?_
  have hk : k.hWId = w := by
    simp only [viewAt, Table.get_restrict] at hx
    split_ifs at hx with hk
    simpa [Tab.own] using hk
  simp [hk]

/-- **Payments**: with ten districts to a warehouse and no clock wrapped, the year to date
of an idle warehouse and of each of its districts is what the history says, the
warehouse's is the sum of its districts', and a payment's history row is a new one. -/
theorem payments_ledger (hr : Run args W c) (h10 : args.numDistrictPerWarehouse = 10)
    (hb : ∀ j, c.state.calls j < 2 ^ 32 - 3001) :
    (∀ w, args.IsWarehouse w → OwnerIdle W c w →
      ∃ vW, (c.state.db .warehouse).get ⟨w⟩ = some vW ∧
        vW.wYtd = historyTotal (fun k => k.hWId = w) (c.state.db .history) ∧
        ∃ dYtd : ℕ → ℚ, vW.wYtd = ∑ d ∈ Finset.Icc 1 10, dYtd d ∧
          ∀ d, 1 ≤ d → d ≤ 10 → ∃ vD, (c.state.db .district).get ⟨d, w⟩ = some vD ∧ vD.dYtd = dYtd d ∧
            vD.dYtd = historyTotal (fun k => k.hWId = w && k.hDId = d) (c.state.db .history)) ∧
    ∀ j q k x p, c.thread j = some (q, .op (.insert .history k x) p) →
      (c.state.db .history).get k = none := by
  refine ⟨fun w hw hidle => ?_, fun j q k x p next => ?_⟩
  · obtain ⟨n, hn, hbooks⟩ := takings_idle hr hb hidle
    have htakings := hbooks.takings
    obtain ⟨vW, hvW⟩ := htakings.exists_row hw
    have hwYtd := htakings.wYtd h10 hn vW hvW
    have hdistrict : ∀ d, 1 ≤ d → d ≤ 10 →
        ∃ vD, (c.state.db .district).get ⟨d, w⟩ = some vD ∧
          vD.dYtd = historyTotal (fun k => k.hDId = d) ((viewAt w n c.state).db .history) := by
      intro d h₁ h₂
      obtain ⟨vD, hvD, -⟩ := (hbooks.orders d).counter ⟨hw, h₁, h10 ▸ h₂⟩
      refine ⟨vD, ?_, htakings.dYtd h10 hn d vD hvD⟩
      rwa [viewAt_get (by simp [Tab.own])] at hvD
    have hsum : vW.wYtd = ∑ d ∈ Finset.Icc 1 10,
        historyTotal (fun k => k.hDId = d) ((viewAt w n c.state).db .history) := by
      rw [hwYtd, historyTotal, Table.total_kinds HKey.hDId (Finset.Icc 1 10) fun k x hx =>
        Finset.mem_Icc.mpr (htakings.districts h10 k x hx)]
      simp [historyTotal]
    refine ⟨vW, ?_, ?_, _, hsum, fun d h₁ h₂ => ?_⟩
    · rwa [viewAt_get (by simp [Tab.own])] at hvW
    · rw [hwYtd, historyTotal_view]
      simp
    · obtain ⟨vD, hvD, hd⟩ := hdistrict d h₁ h₂
      exact ⟨vD, hvD, hd, hd.trans (historyTotal_view w n c.state _)⟩
  · obtain ⟨K, -, hf⟩ := (books args).within hr next
    have hj := hb j
    have h := (books args).finds hr next (show 3000 + c.state.calls j < 2 ^ 32 by omega)
    rwa [viewAt_get hf] at h

/-- After an order and a payment. -/
theorem payments_ledger_paid :
    (∀ w, twoWarehouses.IsWarehouse w → OwnerIdle oneWorker paid w →
      ∃ vW, (paid.state.db .warehouse).get ⟨w⟩ = some vW ∧
        vW.wYtd = historyTotal (fun k => k.hWId = w) (paid.state.db .history) ∧
        ∃ dYtd : ℕ → ℚ, vW.wYtd = ∑ d ∈ Finset.Icc 1 10, dYtd d ∧
          ∀ d, 1 ≤ d → d ≤ 10 → ∃ vD, (paid.state.db .district).get ⟨d, w⟩ = some vD ∧ vD.dYtd = dYtd d ∧
            vD.dYtd = historyTotal (fun k => k.hWId = w && k.hDId = d) (paid.state.db .history)) ∧
    ∀ j q k x p, paid.thread j = some (q, .op (.insert .history k x) p) →
      (paid.state.db .history).get k = none :=
  payments_ledger run_paid rfl fun j => (calls_paid j).trans_lt (by norm_num)

end SidleBaselines.Tpcc
