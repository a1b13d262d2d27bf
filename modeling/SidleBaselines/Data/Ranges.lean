import Mathlib.Data.List.Perm.Basic

/-!
# Ranges of a vector

Reading a range of a vector and writing one over it, both checked: a range that is
not within the vector gives nothing.

## What is proved

* `overwrite_append` — writing over the middle of a vector known by its parts;
* `toFront_perm` — a range moved to the front leaves the same elements.
-/

namespace SidleBaselines.Data

variable {α : Type*}

/-- The elements from position `a` up to position `b`, exclusively. -/
def slice (l : List α) (a b : ℕ) : Option (List α) :=
  if a ≤ b ∧ b ≤ l.length then some ((l.drop a).take (b - a)) else none

/-- The vector with `src` written over the elements from position `pos` on. -/
def overwrite (l : List α) (pos : ℕ) (src : List α) : Option (List α) :=
  if pos + src.length ≤ l.length then some (l.take pos ++ (src ++ l.drop (pos + src.length))) else none

/-- The vector with the `r` elements from position `s` on moved to its front. -/
def toFront (l : List α) (s r : ℕ) : List α :=
  (l.drop s).take r ++ (l.take s ++ l.drop (s + r))

theorem slice_eq {l : List α} {a b : ℕ} (hab : a ≤ b) (hb : b ≤ l.length) :
    slice l a b = some ((l.drop a).take (b - a)) :=
  if_pos ⟨hab, hb⟩

theorem slice_none {l : List α} {a b : ℕ} (hb : l.length < b) : slice l a b = none :=
  if_neg fun h => by omega

/-- Writing over the middle of a vector known by its parts. -/
theorem overwrite_append {p m t s : List α} (hlen : s.length = m.length) :
    overwrite (p ++ (m ++ t)) p.length s = some (p ++ (s ++ t)) := by
  have hfit : p.length + s.length ≤ (p ++ (m ++ t)).length := by
    simp only [List.length_append]
    omega
  rw [overwrite, if_pos hfit, List.take_left, ← List.drop_drop, List.drop_left, hlen, List.drop_left]

/-- A range moved to the front leaves the same elements. -/
theorem toFront_perm (l : List α) (s r : ℕ) : (toFront l s r).Perm l := by
  have hparts : l.take s ++ ((l.drop s).take r ++ l.drop (s + r)) = l := by
    rw [← List.drop_drop, List.take_append_drop, List.take_append_drop]
  have hswap : (toFront l s r).Perm (l.take s ++ ((l.drop s).take r ++ l.drop (s + r))) := by
    rw [toFront, ← List.append_assoc, ← List.append_assoc]
    exact List.perm_append_comm.append_right _
  rwa [hparts] at hswap

theorem length_range {l : List α} {s r : ℕ} (h : s + r ≤ l.length) : ((l.drop s).take r).length = r := by
  rw [List.length_take, List.length_drop]
  omega

theorem take_toFront {l : List α} {s r : ℕ} (h : s + r ≤ l.length) : (toFront l s r).take r = (l.drop s).take r :=
  List.take_left' (length_range h)

theorem drop_toFront {l : List α} {s r : ℕ} (h : s + r ≤ l.length) :
    (toFront l s r).drop r = l.take s ++ l.drop (s + r) :=
  List.drop_left' (length_range h)

end SidleBaselines.Data
