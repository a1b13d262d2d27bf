import Mathlib.Data.Finset.Erase
import Mathlib.Data.Finset.Insert
import Mathlib.Logic.Function.Basic

/-!
# Blocks and their owners

Several allocators hand out blocks, known by their addresses, and take them back. What is
asked of them is right if a block is given back to, or resized by, the allocator it came
from. Addresses lie in regions; two regions are apart when one ends before the other begins.
Where blocks have sizes, each allocator has a zone to put them in.

## What is proved

* `Placed.unique` — allocators whose blocks lie apart share none.
* `Holds.give`, `Holds.take`, `Holds.move` — the blocks in use stay the live ones.
* `Laid.apart` — if the zones are apart, no two blocks in use have an address in common.
* `Laid.give`, `Laid.take`, `Laid.move` — each allocator's blocks stay in its zone, and apart.
* `Gives.placed`, `Gives.laid`, `Gives.holds` — so they do when several allocators are asked in
  turn.
-/

namespace SidleBaselines.Memory

/-- A range of addresses. -/
structure Region where
  base : ℕ
  size : ℕ
  deriving DecidableEq, Repr

namespace Region

/-- The address is in it. -/
def Has (r : Region) (p : ℕ) : Prop := r.base ≤ p ∧ p < r.base + r.size

instance (r : Region) (p : ℕ) : Decidable (r.Has p) := inferInstanceAs (Decidable (_ ∧ _))

/-- The two have no address in common, one being before the other. -/
def Apart (r r' : Region) : Prop := r.base + r.size ≤ r'.base ∨ r'.base + r'.size ≤ r.base

instance (r r' : Region) : Decidable (r.Apart r') := inferInstanceAs (Decidable (_ ∨ _))

/-- One lies in the other. -/
def Within (r r' : Region) : Prop := r'.base ≤ r.base ∧ r.base + r.size ≤ r'.base + r'.size

instance (r r' : Region) : Decidable (r.Within r') := inferInstanceAs (Decidable (_ ∧ _))

instance : Std.Symm Apart := ⟨fun _ _ => Or.symm⟩

theorem Apart.not_has {r r' : Region} (h : r.Apart r') {p : ℕ} (hp : r.Has p) : ¬ r'.Has p := by
  unfold Apart Has at *
  omega

/-- Of two regions apart, one's addresses are on the side of the other's base that its base is
on. -/
theorem Apart.le_iff {r r' : Region} (h : r.Apart r') (hpos : 0 < r.size) {p : ℕ} (hp : r'.Has p) :
    r.base ≤ p ↔ r.base ≤ r'.base := by
  unfold Apart Has at *
  omega

theorem Within.has {r r' : Region} (h : r.Within r') (hpos : 0 < r.size) : r'.Has r.base := by
  unfold Within Has at *
  omega

theorem Apart.of_within {r r' r'' : Region} (h : r.Apart r') (h' : r''.Within r') : r.Apart r'' := by
  unfold Apart Within at *
  omega

theorem Apart.not_has_base {r r' : Region} (h : r.Apart r') (hpos : 0 < r.size) : ¬ r'.Has r.base :=
  h.not_has ⟨Nat.le_refl _, Nat.lt_add_of_pos_right hpos⟩

/-- A region with an address in it is not apart from another that begins where it does. -/
theorem Apart.base_ne {r r' : Region} (h : r.Apart r') (hpos : 0 < r.size) (hpos' : 0 < r'.size) :
    r.base ≠ r'.base := by
  unfold Apart at h
  omega

end Region

/-- What comes of resizing a block: it is now at `p`, nothing has happened, or it is gone. -/
inductive Resized where
  | moved (p : ℕ)
  | failed
  | freed
  deriving DecidableEq, Repr

/-- Where it is then, for the caller. -/
def Resized.block : Resized → Option ℕ
  | moved p => some p
  | failed => none
  | freed => none

/-- What is asked of one of the allocators `O`, with requests `R`, and what it answers. -/
inductive Ask (O R : Type) where
  /-- For a block: it gives one, or none. -/
  | give (o : O) (r : R) (p : Option ℕ)
  /-- To take block `p` back. -/
  | take (o : O) (p : ℕ)
  /-- To resize block `p`. -/
  | resize (o : O) (p : ℕ) (size : ℕ) (result : Resized)
  deriving DecidableEq, Repr

/-- The blocks each allocator has given and not taken back. -/
abbrev Live (O : Type) := O → Finset ℕ

variable {O R : Type} [DecidableEq O]

namespace Ask

/-- The live blocks afterwards. -/
def apply (live : Live O) : Ask O R → Live O
  | give _ _ none => live
  | give o _ (some p) => Function.update live o (insert p (live o))
  | take o p => Function.update live o ((live o).erase p)
  | resize o p _ (.moved p') => Function.update live o (insert p' ((live o).erase p))
  | resize _ _ _ .failed => live
  | resize o p _ .freed => Function.update live o ((live o).erase p)

/-- The allocator that is asked. -/
def owner : Ask O R → O
  | give o _ _ => o
  | take o _ => o
  | resize o _ _ _ => o

/-- The block it gives back or resizes, and the allocator it takes for its owner. -/
def returns : Ask O R → Option (O × ℕ)
  | give _ _ _ => none
  | take o p => some (o, p)
  | resize o p _ _ => some (o, p)

end Ask

/-- Each allocator's blocks lie where `place` says. -/
def Placed (place : O → ℕ → Prop) (live : Live O) : Prop := ∀ o, ∀ p ∈ live o, place o p

section
variable {place : O → ℕ → Prop} {live : Live O} {o o' : O} {p : ℕ}

omit [DecidableEq O] in
/-- Allocators whose blocks lie apart share none. -/
theorem Placed.unique (h : Placed place live) (apart : ∀ o o' p, place o p → place o' p → o = o')
    (hp : p ∈ live o) (hp' : p ∈ live o') : o = o' := apart o o' p (h o p hp) (h o' p hp')

theorem Placed.update {A : Finset ℕ} (h : Placed place live) (hA : ∀ q ∈ A, q ∈ live o ∨ place o q) :
    Placed place (Function.update live o A) := by
  intro i q hq
  by_cases hi : i = o
  · subst hi
    rw [Function.update_self] at hq
    rcases hA q hq with hq | hq
    · exact h i q hq
    · exact hq
  · rw [Function.update_of_ne hi] at hq
    exact h i q hq

end

/-- The blocks in use are the live ones. -/
def Holds (live : Live O) (held : Finset ℕ) : Prop := ∀ p, p ∈ held ↔ ∃ o, p ∈ live o

section
variable {live : Live O} {held : Finset ℕ} {o : O} {p : ℕ}

theorem mem_update {A : Finset ℕ} {q : ℕ} :
    (∃ i, q ∈ Function.update live o A i) ↔ q ∈ A ∨ ∃ i ≠ o, q ∈ live i := by
  constructor
  · rintro ⟨i, hi⟩
    by_cases h : i = o
    · subst h
      rw [Function.update_self] at hi
      exact .inl hi
    · rw [Function.update_of_ne h] at hi
      exact .inr ⟨i, h, hi⟩
  · rintro (hq | ⟨i, h, hi⟩)
    · exact ⟨o, by rwa [Function.update_self]⟩
    · exact ⟨i, by rwa [Function.update_of_ne h]⟩

theorem mem_live {q : ℕ} : (∃ i, q ∈ live i) ↔ q ∈ live o ∨ ∃ i ≠ o, q ∈ live i := by
  rw [← mem_update, Function.update_eq_self]

/-- A block is given. -/
theorem Holds.give (h : Holds live held) (o : O) (p : ℕ) :
    Holds (Function.update live o (insert p (live o))) (insert p held) := by
  intro q
  rw [mem_update, Finset.mem_insert, Finset.mem_insert, h q, mem_live (o := o), or_assoc]

/-- A block is taken back by its only owner. -/
theorem Holds.take (h : Holds live held) (only : ∀ i, p ∈ live i → i = o) :
    Holds (Function.update live o ((live o).erase p)) (held.erase p) := by
  intro q
  rw [mem_update, Finset.mem_erase, Finset.mem_erase, h q, mem_live (o := o)]
  constructor
  · rintro ⟨hq, hq' | hq'⟩
    · exact .inl ⟨hq, hq'⟩
    · exact .inr hq'
  · rintro (⟨hq, hq'⟩ | ⟨i, hi, hq'⟩)
    · exact ⟨hq, .inl hq'⟩
    · refine ⟨?_, .inr ⟨i, hi, hq'⟩⟩
      rintro rfl
      exact hi (only i hq')

/-- A block is moved by its only owner. -/
theorem Holds.move (h : Holds live held) (only : ∀ i, p ∈ live i → i = o) (p' : ℕ) :
    Holds (Function.update live o (insert p' ((live o).erase p))) (insert p' (held.erase p)) := by
  have := (h.take only).give o p'
  rwa [Function.update_self, Function.update_idem] at this

end

/-! ### Blocks with sizes -/

/-- Where the allocators put their blocks: none is empty, and two allocators' are apart. -/
structure Zones (zone : O → Region → Prop) : Prop where
  pos : ∀ {o r}, zone o r → 0 < r.size
  apart : ∀ {o o' r r'}, o ≠ o' → zone o r → zone o' r' → r.Apart r'

/-- The allocator may put a block there: in its zone, and away from its others. -/
def Room (zone : O → Region → Prop) (size : ℕ → ℕ) (live : Live O) (o : O) (r : Region) : Prop :=
  zone o r ∧ ∀ q ∈ live o, r.Apart ⟨q, size q⟩

instance (zone : O → Region → Prop) [∀ o r, Decidable (zone o r)] (size : ℕ → ℕ) (live : Live O) (o : O) (r : Region) :
    Decidable (Room zone size live o r) := inferInstanceAs (Decidable (_ ∧ _))

/-- Each allocator's blocks, of sizes `size`, lie in its zone, and apart. -/
structure Laid (zone : O → Region → Prop) (size : ℕ → ℕ) (live : Live O) : Prop where
  zone : ∀ o, ∀ p ∈ live o, zone o ⟨p, size p⟩
  own : ∀ o, ∀ p ∈ live o, ∀ q ∈ live o, p ≠ q → Region.Apart ⟨p, size p⟩ ⟨q, size q⟩

section
variable {zone : O → Region → Prop} {size : ℕ → ℕ} {live : Live O} {o o' : O} {p : ℕ}

omit [DecidableEq O] in
/-- A block has one owner. -/
theorem Laid.unique (h : Laid zone size live) (hz : Zones zone) (hp : p ∈ live o) (hp' : p ∈ live o') : o = o' := by
  by_contra hne
  have hzone := h.zone o p hp
  exact (hz.apart hne hzone (h.zone o' p hp')).base_ne (hz.pos hzone) (hz.pos hzone) rfl

omit [DecidableEq O] in
/-- Two blocks in use are apart, whoever gave them. -/
theorem Laid.apart {held : Finset ℕ} (h : Laid zone size live) (hz : Zones zone) (hh : Holds live held) :
    ∀ p ∈ held, ∀ q ∈ held, p ≠ q → Region.Apart ⟨p, size p⟩ ⟨q, size q⟩ := by
  intro p hp q hq hne
  obtain ⟨o, ho⟩ := (hh p).mp hp
  obtain ⟨o', ho'⟩ := (hh q).mp hq
  by_cases hoo : o = o'
  · subst hoo
    exact h.own o p ho q ho' hne
  · exact hz.apart hoo (h.zone o p ho) (h.zone o' q ho')

omit [DecidableEq O] in
/-- Where there is room for a block no live one begins. -/
theorem Room.fresh {n : ℕ} (hr : Room zone size live o ⟨p, n⟩) (h : Laid zone size live) (hz : Zones zone) (i : O) :
    p ∉ live i := by
  intro hp
  have hpos := hz.pos (h.zone i p hp)
  have hn := hz.pos hr.1
  by_cases hi : o = i
  · subst hi
    exact (hr.2 p hp).base_ne hn hpos rfl
  · exact (hz.apart hi hr.1 (h.zone i p hp)).base_ne hn hpos rfl

/-- A block is given. -/
theorem Laid.give {n : ℕ} (h : Laid zone size live) (hz : Zones zone) (hr : Room zone size live o ⟨p, n⟩) :
    Laid zone (Function.update size p n) (Function.update live o (insert p (live o))) := by
  have hfresh := hr.fresh h hz
  -- other blocks keep their sizes
  have hsize {i : O} {q : ℕ} (hq : q ∈ live i) : Function.update size p n q = size q :=
    Function.update_of_ne (fun hqp : q = p => hfresh i (hqp ▸ hq)) ..
  have hself : Function.update size p n p = n := Function.update_self ..
  constructor
  · intro i q hq
    by_cases hi : i = o
    · subst hi
      rw [Function.update_self] at hq
      rcases Finset.mem_insert.mp hq with rfl | hq
      · rw [hself]
        exact hr.1
      · rw [hsize hq]
        exact h.zone i q hq
    · rw [Function.update_of_ne hi] at hq
      rw [hsize hq]
      exact h.zone i q hq
  · intro i q hq q' hq' hne
    by_cases hi : i = o
    · subst hi
      rw [Function.update_self] at hq hq'
      rw [Finset.mem_insert] at hq hq'
      rcases hq with rfl | hq <;> rcases hq' with rfl | hq'
      · exact absurd rfl hne
      · rw [hself, hsize hq']
        exact hr.2 q' hq'
      · rw [hself, hsize hq]
        exact Or.symm (hr.2 q hq)
      · rw [hsize hq, hsize hq']
        exact h.own i q hq q' hq' hne
    · rw [Function.update_of_ne hi] at hq hq'
      rw [hsize hq, hsize hq']
      exact h.own i q hq q' hq' hne

/-- A block is taken back. -/
theorem Laid.take (h : Laid zone size live) (o : O) (p : ℕ) :
    Laid zone size (Function.update live o ((live o).erase p)) := by
  have hsub {i : O} {q : ℕ} (hq : q ∈ Function.update live o ((live o).erase p) i) : q ∈ live i := by
    by_cases hi : i = o
    · subst hi
      rw [Function.update_self] at hq
      exact Finset.mem_of_mem_erase hq
    · rwa [Function.update_of_ne hi] at hq
  exact ⟨fun i q hq => h.zone i q (hsub hq), fun i q hq q' hq' => h.own i q (hsub hq) q' (hsub hq')⟩

/-- A block is moved. -/
theorem Laid.move {p' n : ℕ} (h : Laid zone size live) (hz : Zones zone) (hzone : zone o ⟨p', n⟩)
    (hr : ∀ q ∈ live o, q ≠ p → Region.Apart ⟨p', n⟩ ⟨q, size q⟩) :
    Laid zone (Function.update size p' n) (Function.update live o (insert p' ((live o).erase p))) := by
  have hroom : Room zone size (Function.update live o ((live o).erase p)) o ⟨p', n⟩ := by
    refine ⟨hzone, fun q hq => ?_⟩
    rw [Function.update_self, Finset.mem_erase] at hq
    exact hr q hq.2 hq.1
  have := (h.take o p).give hz hroom
  rwa [Function.update_self, Function.update_idem] at this

end

/-! ### Asking for a block -/

/-- Asking so gets a block that lies where its owner puts them, or none. -/
def Gives (place : O → ℕ → Prop) (result : Option ℕ) (asks : List (Ask O R)) : Prop :=
  (∀ a ∈ asks, a.returns = none) ∧
    ((result = none ∧ ∀ live, asks.foldl (fun live a => a.apply live) live = live) ∨
      ∃ o p, result = some p ∧ place o p ∧ ∀ live : Live O,
        asks.foldl (fun live a => a.apply live) live = Function.update live o (insert p (live o)))

section
variable {place : O → ℕ → Prop} {result : Option ℕ} {asks : List (Ask O R)} {live : Live O} {held : Finset ℕ}

theorem gives_nil : Gives place none ([] : List (Ask O R)) :=
  ⟨fun _ h => absurd h List.not_mem_nil, .inl ⟨rfl, fun _ => rfl⟩⟩

/-- One allocator is asked. -/
theorem gives_ask (o : O) (r : R) (h : ∀ p, result = some p → place o p) :
    Gives place result [.give o r result] := by
  refine ⟨fun a ha => by rw [List.mem_singleton.mp ha]; rfl, ?_⟩
  cases result with
  | none => exact .inl ⟨rfl, fun _ => rfl⟩
  | some p => exact .inr ⟨o, p, rfl, h p rfl, fun _ => rfl⟩

/-- Others, that had none, were asked before. -/
theorem Gives.after {asks' : List (Ask O R)} (h : Gives place result asks) (h' : Gives place none asks') :
    Gives place result (asks' ++ asks) := by
  obtain ⟨hasks', ⟨-, hlive'⟩ | ⟨_, _, hsome, -⟩⟩ := h'
  · refine ⟨List.forall_mem_append.mpr ⟨hasks', h.1⟩, ?_⟩
    simp only [List.foldl_append, hlive']
    exact h.2
  · cases hsome

theorem Gives.placed (h : Gives place result asks) (hl : Placed place live) :
    Placed place (asks.foldl (fun live a => a.apply live) live) := by
  obtain ⟨-, ⟨-, hlive⟩ | ⟨o, p, -, hp, hlive⟩⟩ := h
  · rwa [hlive]
  · rw [hlive]
    refine hl.update fun q hq => ?_
    rcases Finset.mem_insert.mp hq with rfl | hq
    · exact .inr hp
    · exact .inl hq

/-- Whoever is asked has room for `n` bytes where it puts them. -/
theorem Gives.laid {zone : O → Region → Prop} {size : ℕ → ℕ} {n : ℕ}
    (h : Gives (fun o p => Room zone size live o ⟨p, n⟩) result asks) (hz : Zones zone) (hl : Laid zone size live) :
    Laid zone (result.elim size (Function.update size · n)) (asks.foldl (fun live a => a.apply live) live) := by
  obtain ⟨-, ⟨hnone, hlive⟩ | ⟨o, p, hsome, hp, hlive⟩⟩ := h
  · rwa [hlive, hnone]
  · rw [hlive, hsome]
    exact hl.give hz hp

theorem Gives.holds (h : Gives place result asks) (hh : Holds live held) :
    Holds (asks.foldl (fun live a => a.apply live) live) (result.elim held (insert · held)) := by
  obtain ⟨-, ⟨hnone, hlive⟩ | ⟨o, p, hsome, -, hlive⟩⟩ := h
  · rwa [hlive, hnone]
  · rw [hlive, hsome]
    exact hh.give o p

end

end SidleBaselines.Memory
