import SidleBaselines.Synthetic.Ratios
import Mathlib.MeasureTheory.Measure.Lebesgue.Basic

/-!
# The mix of operations

The draws of `src/benchmark/synthetic/rw_mix.cpp` are real numbers in the unit
interval, and the share of an operation is the length of the set of draws that
select it, in the warm-up loop and in the measured loop.

## What is proved

* `inplace_share`, `insertRemove_share` — the share of the middle branches of a chain
  of thresholds;
* `same_mix_iff` — the loops select the same operations, with the shares that were
  configured, if and only if the in-place ratio is the insert ratio.
-/

namespace SidleBaselines.Synthetic

open MeasureTheory Set

namespace Ratios

/-! ### Shares -/

/-- The share of the draws that a choice selects an operation for. -/
noncomputable def share (choice : ℝ → Operation) (o : Operation) : ENNReal :=
  volume {d | d ∈ Icc (0 : ℝ) 1 ∧ choice d = o}

/-- Draws between two bounds of the unit interval. -/
theorem share_eq {choice : ℝ → Operation} {o : Operation} {a b : ℝ} (ha : 0 ≤ a) (hb : b ≤ 1)
    (h : ∀ d, choice d = o ↔ a < d ∧ d ≤ b) : share choice o = ENNReal.ofReal (b - a) := by
  have hset : {d | d ∈ Icc (0 : ℝ) 1 ∧ choice d = o} = Ioc a b := by
    ext d
    simp only [mem_ofPred_eq, mem_Icc, mem_Ioc, h]
    constructor
    · rintro ⟨-, hd⟩
      exact hd
    · rintro ⟨had, hdb⟩
      exact ⟨⟨by linarith, by linarith⟩, had, hdb⟩
  rw [share, hset, Real.volume_Ioc]

variable {r : Ratios ℝ}

theorem warmUpChoice_inplace_iff {d : ℝ} :
    r.warmUpChoice d = .inplace ↔ r.readRatio < d ∧ d ≤ r.readRatio + r.inplaceRatio := by
  unfold warmUpChoice
  split_ifs with h₁ h₂ <;> simp_all

theorem measuredChoice_inplace_iff {d : ℝ} :
    r.measuredChoice d = .inplace ↔ r.readRatio < d ∧ d ≤ r.readRatio + r.insertRatio := by
  unfold measuredChoice
  split_ifs with h₁ h₂ <;> simp_all

theorem warmUpChoice_insertRemove_iff (hr : r.Checked) {d : ℝ} :
    r.warmUpChoice d = .insertRemove ↔
      r.readRatio + r.inplaceRatio < d ∧ d ≤ r.readRatio + r.inplaceRatio + r.insertRatio + r.deleteRatio := by
  have hin := hr.inplace
  unfold warmUpChoice
  split_ifs with h₁ h₂ h₃
  · simp only [false_iff, not_and]
    intro h
    linarith
  · simp only [false_iff, not_and]
    intro h
    linarith
  · simp only [true_iff]
    exact ⟨by linarith, h₃⟩
  · simp only [false_iff, not_and]
    intro _
    exact h₃

/-- The configured share of in-place updates, while warming up. -/
theorem inplace_share (hr : r.Checked) (hsum : r.ratioSum = 1) :
    share r.warmUpChoice .inplace = ENNReal.ofReal r.inplaceRatio := by
  obtain ⟨⟨h₁, -⟩, ⟨h₂, -⟩, ⟨h₃, -⟩, ⟨h₄, -⟩, ⟨h₅, -⟩, h₆⟩ := hr
  unfold ratioSum at hsum
  rw [share_eq h₁ (by linarith) fun d => warmUpChoice_inplace_iff]
  congr 1
  ring

/-- The configured share of inserts and removes, while warming up. -/
theorem insertRemove_share (hr : r.Checked) (hsum : r.ratioSum = 1) :
    share r.warmUpChoice .insertRemove = ENNReal.ofReal (r.insertRatio + r.deleteRatio) := by
  have hiff : ∀ d, _ := fun d => warmUpChoice_insertRemove_iff (d := d) hr
  obtain ⟨⟨h₁, -⟩, ⟨h₂, -⟩, ⟨h₃, -⟩, ⟨h₄, -⟩, ⟨h₅, -⟩, h₆⟩ := hr
  unfold ratioSum at hsum
  rw [share_eq (by linarith) (by linarith) hiff]
  congr 1
  ring

/-- With equal ratios the chains are the same. -/
theorem choice_eq (h : r.inplaceRatio = r.insertRatio) : r.measuredChoice = r.warmUpChoice := by
  funext d
  rw [measuredChoice, warmUpChoice, h]

/-- The end of one loop's in-place draws is no in-place draw of the other. -/
theorem exists_choice_ne (hr : r.Checked) (hsum : r.ratioSum = 1) (h : r.inplaceRatio ≠ r.insertRatio) :
    ∃ d ∈ Icc (0 : ℝ) 1, r.warmUpChoice d ≠ r.measuredChoice d := by
  obtain ⟨⟨h₁, -⟩, ⟨h₂, -⟩, ⟨h₃, -⟩, ⟨h₄, -⟩, ⟨h₅, -⟩, h₆⟩ := hr
  unfold ratioSum at hsum
  rcases lt_or_gt_of_ne h with hlt | hgt
  · refine ⟨r.readRatio + r.insertRatio, ⟨by linarith, by linarith⟩, fun heq => ?_⟩
    rw [measuredChoice_inplace_iff.mpr ⟨by linarith, le_refl _⟩, warmUpChoice_inplace_iff] at heq
    linarith [heq.2]
  · refine ⟨r.readRatio + r.inplaceRatio, ⟨by linarith, by linarith⟩, fun heq => ?_⟩
    rw [eq_comm, warmUpChoice_inplace_iff.mpr ⟨by linarith, le_refl _⟩, measuredChoice_inplace_iff] at heq
    linarith [heq.2]

/-- The two loops select the same operation for every draw, and in both the in-place updates
have the share of their ratio and the inserts and removes that of theirs. -/
structure SameMix (r : Ratios ℝ) : Prop where
  same : ∀ d ∈ Icc (0 : ℝ) 1, r.warmUpChoice d = r.measuredChoice d
  warmUp_inplace : share r.warmUpChoice .inplace = ENNReal.ofReal r.inplaceRatio
  warmUp_insertRemove : share r.warmUpChoice .insertRemove = ENNReal.ofReal (r.insertRatio + r.deleteRatio)
  measured_inplace : share r.measuredChoice .inplace = ENNReal.ofReal r.inplaceRatio
  measured_insertRemove :
    share r.measuredChoice .insertRemove = ENNReal.ofReal (r.insertRatio + r.deleteRatio)

/-- For ratios that sum to 1, the loops measure the mix that was warmed up with and configured
if and only if the in-place ratio is the insert ratio. -/
theorem same_mix_iff (hr : r.Checked) (hsum : r.ratioSum = 1) : r.SameMix ↔ r.inplaceRatio = r.insertRatio := by
  constructor
  · intro h
    by_contra hne
    obtain ⟨d, hd, hchoice⟩ := exists_choice_ne hr hsum hne
    exact hchoice (h.same d hd)
  · intro h
    have hin := inplace_share hr hsum
    have hins := insertRemove_share hr hsum
    refine ⟨fun d _ => by rw [choice_eq h], hin, hins, ?_, ?_⟩
    · rw [choice_eq h]
      exact hin
    · rw [choice_eq h]
      exact hins

/-- Reads and scans only. -/
noncomputable def halfScans : Ratios ℝ := ⟨1 / 2, 0, 0, 1 / 2, 0, 0⟩

theorem same_mix_halfScans : halfScans.SameMix :=
  (same_mix_iff ⟨by norm_num [halfScans], by norm_num [halfScans], by norm_num [halfScans], by norm_num [halfScans],
    by norm_num [halfScans], by norm_num [halfScans]⟩ (by norm_num [halfScans, ratioSum])).mpr rfl

/-- Half reads, half inserts and deletes: the inserts are measured as in-place updates. -/
theorem mix_differs : ¬ ∀ r : Ratios ℝ, r.Checked → r.ratioSum = 1 → r.SameMix := by
  intro h
  have hchecked : Checked ⟨1 / 2, 1 / 4, 1 / 4, 0, 0, 0⟩ := by
    constructor <;> norm_num
  have hsum : ratioSum (⟨1 / 2, 1 / 4, 1 / 4, 0, 0, 0⟩ : Ratios ℝ) = 1 := by
    norm_num [ratioSum]
  obtain ⟨d, hd, hne⟩ := exists_choice_ne hchecked hsum (by norm_num)
  exact hne ((h _ hchecked hsum).same d hd)

end Ratios

end SidleBaselines.Synthetic
