import Mathlib.Data.Real.Basic

/-!
# The ratios of rw_mix

A thread of `src/benchmark/synthetic/rw_mix.cpp` draws a number for each operation
and compares it with sums of the ratios of the command line, in the warm-up loop and
again in the measured loop. The second comparison of the measured loop adds the
insert ratio where that of the warm-up loop adds the in-place ratio.

The choices are those of the code over any ordered type of ratios; `parse_args`
checks them as real numbers.
-/

namespace SidleBaselines.Synthetic

/-- The ratios of the command line. -/
structure Ratios (R : Type) where
  readRatio : R
  insertRatio : R
  deleteRatio : R
  scanRatio : R
  readModifyWriteRatio : R
  inplaceRatio : R
  deriving Repr

/-- The branches of the loops of `run_fg`. -/
inductive Operation where
  | get
  | inplace
  | insertRemove
  | scan
  deriving DecidableEq, Repr

namespace Ratios

section choice

variable {R : Type} [Add R] [LinearOrder R]

/-- The branch of the warm-up loop. -/
def warmUpChoice (r : Ratios R) (d : R) : Operation :=
  if d ≤ r.readRatio then .get
  else if d ≤ r.readRatio + r.inplaceRatio then .inplace
  else if d ≤ r.readRatio + r.inplaceRatio + r.insertRatio + r.deleteRatio then .insertRemove
  else .scan

/-- The branch of the measured loop. -/
def measuredChoice (r : Ratios R) (d : R) : Operation :=
  if d ≤ r.readRatio then .get
  else if d ≤ r.readRatio + r.insertRatio then .inplace
  else if d ≤ r.readRatio + r.inplaceRatio + r.insertRatio + r.deleteRatio then .insertRemove
  else .scan

/-- The sum that `parse_args` checks. -/
def ratioSum (r : Ratios R) : R :=
  r.readRatio + r.insertRatio + r.deleteRatio + r.scanRatio + r.readModifyWriteRatio + r.inplaceRatio

end choice

/-- What `parse_args` has checked of each ratio. The in-place ratio has no option of its own
(`--inplace-ratio` has the letter of `--hot-range-count`), it keeps its initial 0. -/
structure Checked (r : Ratios ℝ) : Prop where
  read : 0 ≤ r.readRatio ∧ r.readRatio ≤ 1
  insert : 0 ≤ r.insertRatio ∧ r.insertRatio ≤ 1
  delete : 0 ≤ r.deleteRatio ∧ r.deleteRatio ≤ 1
  scan : 0 ≤ r.scanRatio ∧ r.scanRatio ≤ 1
  readModifyWrite : 0 ≤ r.readModifyWriteRatio ∧ r.readModifyWriteRatio ≤ 1
  inplace : 0 ≤ r.inplaceRatio

end Ratios

end SidleBaselines.Synthetic
