import Mathlib

/-!
# How far two strings agree

## What is proved

* `common_append` — strings agree on a prefix they share, and from there as far as what follows.
* `common_diverge` — they agree no further than to the first place where they differ.
* `common_eq_length_iff` — strings of one length agree to the end only if they are the same.
-/

namespace SidleBaselines.Data

variable {A : Type} [DecidableEq A] {p x y k l : List A} {a b : A}

/-- On how many places two strings agree, from the first one on. -/
@[simp] def common : List A → List A → ℕ
  | a :: x, b :: y => if a = b then common x y + 1 else 0
  | _, _ => 0

theorem common_append (p x y : List A) : common (p ++ x) (p ++ y) = p.length + common x y := by
  induction p with
  | nil => exact (Nat.zero_add _).symm
  | cons a p ih =>
    rw [List.cons_append, List.cons_append, common, if_pos rfl, ih, List.length_cons]
    omega

theorem common_cons_of_ne (h : a ≠ b) : common (a :: x) (b :: y) = 0 := by rw [common, if_neg h]

theorem common_le_left : common x y ≤ x.length := by
  induction x generalizing y with
  | nil => simp [common]
  | cons a x ih =>
    cases y with
    | nil => exact Nat.zero_le _
    | cons b y =>
      rw [common]
      split_ifs with h
      · exact Nat.succ_le_succ ih
      · exact Nat.zero_le _

theorem common_le_right : common x y ≤ y.length := by
  induction x generalizing y with
  | nil => exact Nat.zero_le _
  | cons a x ih =>
    cases y with
    | nil => exact Nat.zero_le _
    | cons b y =>
      rw [common]
      split_ifs with h
      · exact Nat.succ_le_succ ih
      · exact Nat.zero_le _

theorem common_self (x : List A) : common x x = x.length := by
  simpa [common] using common_append x [] []

/-- What they agree on is a prefix of both. -/
theorem take_common (x y : List A) : x.take (common x y) = y.take (common x y) := by
  induction x generalizing y with
  | nil => simp [common]
  | cons a x ih =>
    cases y with
    | nil => rfl
    | cons b y =>
      rw [common]
      split_ifs with h
      · rw [List.take_succ_cons, List.take_succ_cons, ih, h]
      · rfl

/-- Strings of one length agree to the end only if they are the same. -/
theorem common_eq_length_iff (h : k.length = l.length) : common k l = l.length ↔ k = l := by
  refine ⟨fun hc => ?_, fun e => e ▸ common_self k⟩
  have htake := take_common k l
  rwa [hc, ← h, List.take_length, h, List.take_length] at htake

/-- Strings that share a prefix agree at least on that. -/
theorem le_common (hk : p <+: k) (hl : p <+: l) : p.length ≤ common k l := by
  obtain ⟨x, rfl⟩ := hk
  obtain ⟨y, rfl⟩ := hl
  rw [common_append]
  exact Nat.le_add_right _ _

/-- They agree no further than to where they differ. -/
theorem common_diverge (h : a ≠ b) (hk : p ++ [a] <+: k) (hl : p ++ [b] <+: l) : common k l = p.length := by
  obtain ⟨x, rfl⟩ := hk
  obtain ⟨y, rfl⟩ := hl
  rw [List.append_assoc, List.append_assoc, common_append, List.singleton_append, List.singleton_append,
    common_cons_of_ne h, Nat.add_zero]

/-- They differ where they stop agreeing. -/
theorem exists_diverge (hx : common x y < x.length) (hy : common x y < y.length) :
    ∃ p a b x' y', a ≠ b ∧ x = p ++ a :: x' ∧ y = p ++ b :: y' ∧ p.length = common x y := by
  induction x generalizing y with
  | nil => exact absurd hx (Nat.not_lt_zero _)
  | cons a x ih =>
    cases y with
    | nil => exact absurd hy (Nat.not_lt_zero _)
    | cons b y =>
      rw [common] at hx hy ⊢
      split_ifs at hx hy ⊢ with h
      · obtain ⟨p, c, d, x', y', hne, rfl, rfl, hp⟩ := ih (Nat.lt_of_succ_lt_succ hx) (Nat.lt_of_succ_lt_succ hy)
        exact ⟨a :: p, c, d, x', y', hne, rfl, by rw [h, List.cons_append], by rw [List.length_cons, hp]⟩
      · exact ⟨[], a, b, x, y, h, rfl, rfl, rfl⟩

/-- A loop that has come to place `i` comparing goes on while they agree. -/
theorem lt_common_iff {i : ℕ} (hi : i ≤ common x y) (d : A) :
    i < common x y ↔ i < x.length ∧ i < y.length ∧ x.getD i d = y.getD i d := by
  refine ⟨fun hlt => ?_, fun ⟨hx, hy, hd⟩ => lt_of_le_of_ne hi fun e => ?_⟩
  · have hx := hlt.trans_le common_le_left
    have hy := hlt.trans_le common_le_right
    refine ⟨hx, hy, ?_⟩
    have htake := congrArg (·.getD i d) (take_common x y)
    simpa [List.getD_eq_getElem?_getD, List.getElem?_take, hlt] using htake
  · obtain ⟨p, a, b, x', y', hne, hxp, hyp, hp⟩ := exists_diverge (e ▸ hx) (e ▸ hy)
    rw [e, ← hp, hxp, hyp] at hd
    simp [List.getD_eq_getElem?_getD] at hd
    exact hne hd

omit [DecidableEq A] in
/-- A prefix is one longer by the next place. -/
theorem prefix_snoc_iff : p ++ [a] <+: k ↔ p <+: k ∧ k[p.length]? = some a := by
  constructor
  · rintro ⟨x, rfl⟩
    exact ⟨⟨a :: x, by rw [List.append_assoc, List.singleton_append]⟩, by simp⟩
  · rintro ⟨⟨x, rfl⟩, h⟩
    cases x with
    | nil => simp at h
    | cons b x =>
      obtain rfl : b = a := by simpa using h
      exact ⟨x, by rw [List.append_assoc, List.singleton_append]⟩

omit [DecidableEq A] in
/-- A prefix and some of what follows. -/
theorem append_take_drop (hp : p <+: k) (m : ℕ) : p ++ (k.drop p.length).take m = k.take (p.length + m) := by
  obtain ⟨x, rfl⟩ := hp
  simp [List.take_append]

/-- A string goes on with another as far as that agrees with what follows. -/
theorem append_prefix_iff (hp : p <+: k) : p ++ x <+: k ↔ common x (k.drop p.length) = x.length := by
  obtain ⟨y, rfl⟩ := hp
  rw [List.drop_left, List.prefix_append_right_inj]
  refine ⟨fun ⟨z, hz⟩ => ?_, fun h => ?_⟩
  · rw [← hz]
    simpa [common] using common_append x [] z
  · have htake := take_common x y
    rw [h, List.take_length] at htake
    exact htake ▸ List.take_prefix _ _

end SidleBaselines.Data
