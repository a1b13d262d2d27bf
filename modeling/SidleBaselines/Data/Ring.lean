import Mathlib.Data.List.Nodup
import Mathlib.Data.Nat.ModEq

/-!
# Windows on a circular list

The last element of a circular list is followed by the first. A window holds
the `n` elements from position `s` on; it moves by taking in the element behind
its end and then giving up its first one.

## What is proved

* `Window.not_mem` — the element behind the end of a window is not in it;
* `Window.succ`, `Window.next` — how a window grows at its end and shrinks at
  its start.
-/

namespace SidleBaselines.Data

variable {α : Type*}

/-- A cursor that starts again at `n`. -/
def wrap (n i : ℕ) : ℕ :=
  if i = n then 0 else i

theorem wrap_succ_lt {n i : ℕ} (h : i < n) : wrap n (i + 1) < n := by
  rw [wrap]
  split_ifs <;> omega

theorem wrap_succ_eq {n i : ℕ} (h : i < n) : wrap n (i + 1) = (i + 1) % n := by
  rw [wrap]
  split_ifs with heq
  · rw [heq, Nat.mod_self]
  · rw [Nat.mod_eq_of_lt (by omega)]

/-- `a` is one of the `n` elements of the circular list `q` from position `s` on. -/
def Window (q : List α) (s n : ℕ) (a : α) : Prop :=
  ∃ j < n, q[(s + j) % q.length]? = some a

section

variable {q : List α} {s n : ℕ} {a : α}

theorem Window.mem (h : Window q s n a) : a ∈ q := by
  obtain ⟨j, -, hj⟩ := h
  exact List.mem_of_getElem? hj

/-- Without repetitions, an element is at one position. -/
theorem getElem?_inj_of_nodup (hq : q.Nodup) {i j : ℕ} (hi : q[i]? = some a) (hj : q[j]? = some a) :
    i = j := by
  have hlt : i < q.length := (List.getElem?_eq_some_iff.mp hi).1
  exact (List.getElem?_inj hlt hq).mp (hi.trans hj.symm)

/-- Positions less than a whole turn apart are different. -/
theorem add_mod_inj {m i j : ℕ} (hi : i < m) (hj : j < m) (h : (s + i) % m = (s + j) % m) : i = j := by
  have hmod : Nat.ModEq m i j := Nat.ModEq.add_left_cancel' s h
  rwa [Nat.ModEq, Nat.mod_eq_of_lt hi, Nat.mod_eq_of_lt hj] at hmod

/-- The element behind the end of a window is not in it. -/
theorem Window.not_mem (hq : q.Nodup) (hn : n < q.length) (ha : q[(s + n) % q.length]? = some a) :
    ¬ Window q s n a := by
  rintro ⟨j, hj, hja⟩
  have h := add_mod_inj (by omega) hn (getElem?_inj_of_nodup hq hja ha)
  omega

/-- A window takes in the element behind its end. -/
theorem Window.succ : Window q s (n + 1) a ↔ Window q s n a ∨ q[(s + n) % q.length]? = some a := by
  constructor
  · rintro ⟨j, hj, hja⟩
    rcases Nat.lt_succ_iff_lt_or_eq.mp hj with hlt | rfl
    · exact Or.inl ⟨j, hlt, hja⟩
    · exact Or.inr hja
  · rintro (⟨j, hj, hja⟩ | ha)
    · exact ⟨j, by omega, hja⟩
    · exact ⟨n, by omega, ha⟩

/-- A window gives up its first element. -/
theorem Window.next (hq : q.Nodup) (hs : s < q.length) (hn : n < q.length) :
    Window q ((s + 1) % q.length) n a ↔ Window q s (n + 1) a ∧ q[s]? ≠ some a := by
  have hshift : ∀ j, ((s + 1) % q.length + j) % q.length = (s + (j + 1)) % q.length := by
    intro j
    rw [Nat.mod_add_mod, Nat.add_assoc, Nat.add_comm 1 j]
  have hfirst : (s + 0) % q.length = s := by
    rw [Nat.add_zero, Nat.mod_eq_of_lt hs]
  constructor
  · rintro ⟨j, hj, hja⟩
    rw [hshift] at hja
    refine ⟨⟨j + 1, by omega, hja⟩, ?_⟩
    intro ha
    rw [← hfirst] at ha
    have h := add_mod_inj (by omega) (by omega) (getElem?_inj_of_nodup hq hja ha)
    omega
  · rintro ⟨⟨j, hj, hja⟩, ha⟩
    cases j with
    | zero =>
      rw [hfirst] at hja
      exact absurd hja ha
    | succ j => exact ⟨j, by omega, by rw [hshift]; exact hja⟩

/-- The first element of a window that is not empty is in it. -/
theorem Window.first (hs : s < q.length) (hn : 0 < n) (ha : q[s]? = some a) : Window q s n a :=
  ⟨0, hn, by rwa [Nat.add_zero, Nat.mod_eq_of_lt hs]⟩

/-- The window of the first `n` elements. -/
theorem window_zero (hn : n ≤ q.length) : Window q 0 n a ↔ a ∈ q.take n := by
  rw [List.mem_take_iff_getElem]
  constructor
  · rintro ⟨j, hj, hja⟩
    rw [Nat.zero_add, Nat.mod_eq_of_lt (by omega)] at hja
    obtain ⟨hlt, hget⟩ := List.getElem?_eq_some_iff.mp hja
    exact ⟨j, by omega, hget⟩
  · rintro ⟨j, hj, hget⟩
    have hlt : j < q.length := by omega
    refine ⟨j, by omega, ?_⟩
    rw [Nat.zero_add, Nat.mod_eq_of_lt hlt, List.getElem?_eq_getElem hlt, hget]

end

end SidleBaselines.Data
