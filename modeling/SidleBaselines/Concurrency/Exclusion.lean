import SidleBaselines.Concurrency.Control

/-!
# Readers and writers

What a readers–writer lock is for, apart from how it is kept: every thread has a role, a move
changes one thread's role and is allowed by the others' roles only, and no move breaks
exclusion. A lock kept in one word adds up, in the word, a share for each thread that counts as a
reader and one for each that counts as a writer.

## What is proved

* `Exclusive.moves` — moves keep exclusion.
* `total_eq` — the word says how many readers and writers there are.
* `Control.Reachable.exclusive` — threads whose steps are moves and change the word by the
  change of their share exclude each other, and the word stays the sum of the shares.
-/

namespace SidleBaselines.Concurrency

/-- What a thread is to the lock. -/
inductive Role where
  /-- It neither holds nor counts. -/
  | out
  /-- It is counted as a reader before it is known to be one. -/
  | entering
  /-- It holds the lock to read. -/
  | reader
  /-- It keeps new readers out and waits for the old ones. -/
  | closing
  /-- It holds the lock to write. -/
  | writer
  deriving DecidableEq, Repr

namespace Role

/-- Counted as a reader. -/
def reads : Role → Bool
  | entering | reader => true
  | _ => false

/-- Counted as a writer. -/
def writes : Role → Bool
  | closing | writer => true
  | _ => false

/-- What the role adds to the word. -/
def share {W : Type} [Zero W] (read write : W) : Role → W
  | out => 0
  | entering | reader => read
  | closing | writer => write

end Role

variable {J : Type} [DecidableEq J] {r : J → Role} {i j : J} {x : Role}

/-- No two threads count as writers, and while one writes no one reads. -/
structure Exclusive (r : J → Role) : Prop where
  /-- One writer. -/
  writer : ∀ i j, (r i).writes = true → (r j).writes = true → i = j
  /-- No reader beside it. -/
  reader : ∀ i j, r i = .writer → r j ≠ .reader

/-- Thread `j` may take the role `x`, the threads' roles being `r`. -/
inductive Moves (r : J → Role) (j : J) : Role → Prop
  /-- It keeps its role. -/
  | stay : Moves r j (r j)
  /-- It counts itself in. -/
  | enter (from_out : r j = .out) : Moves r j .entering
  /-- It leaves. -/
  | leave (held : r j ≠ .closing) : Moves r j .out
  /-- It reads: no writer is counted. -/
  | read (fresh : r j = .out ∨ r j = .entering) (open' : ∀ i, (r i).writes = false) : Moves r j .reader
  /-- It keeps new readers out: no writer is counted. -/
  | close (from_out : r j = .out) (open' : ∀ i, (r i).writes = false) : Moves r j .closing
  /-- It writes: no other thread is counted. -/
  | seize (fresh : r j = .out ∨ r j = .closing) (alone : ∀ i, i ≠ j → r i = .out) : Moves r j .writer
  /-- The writer goes on as a reader. -/
  | share (held : r j = .writer) : Moves r j .reader

omit [DecidableEq J] in
/-- No one holds anything. -/
theorem Exclusive.init : Exclusive fun _ : J => Role.out :=
  ⟨fun _ _ h => (by cases h), fun _ _ h => (by cases h)⟩

/-- A thread that is no writer afterwards, and reads only where no other writes. -/
theorem Exclusive.update_out (h : Exclusive r) (hx : x.writes = false)
    (hr : x = .reader → ∀ i, i ≠ j → r i ≠ .writer) : Exclusive (Function.update r j x) where
  writer a b ha hb := by
    have ne : ∀ i, (Function.update r j x i).writes = true → i ≠ j ∧ (r i).writes = true := by
      intro i hi
      by_cases hij : i = j
      · rw [hij, Function.update_self, hx] at hi
        cases hi
      · rw [Function.update_of_ne hij] at hi
        exact ⟨hij, hi⟩
    exact h.writer a b (ne a ha).2 (ne b hb).2
  reader a b ha hb := by
    have haj : a ≠ j := by
      rintro rfl
      rw [Function.update_self] at ha
      rw [ha] at hx
      cases hx
    rw [Function.update_of_ne haj] at ha
    by_cases hbj : b = j
    · rw [hbj, Function.update_self] at hb
      exact hr hb a haj ha
    · rw [Function.update_of_ne hbj] at hb
      exact h.reader a b ha hb

/-- The only thread counted as a writer, and, if it writes, with no reader beside it. -/
theorem Exclusive.update_in (only : ∀ i, i ≠ j → (r i).writes = false)
    (hr : x = .writer → ∀ i, i ≠ j → r i ≠ .reader) : Exclusive (Function.update r j x) where
  writer a b ha hb := by
    have eq : ∀ i, (Function.update r j x i).writes = true → i = j := by
      intro i hi
      by_contra hij
      rw [Function.update_of_ne hij, only i hij] at hi
      cases hi
    rw [eq a ha, eq b hb]
  reader a b ha hb := by
    have haj : a = j := by
      by_contra haj
      rw [Function.update_of_ne haj] at ha
      have := only a haj
      rw [ha] at this
      cases this
    rw [haj, Function.update_self] at ha
    by_cases hbj : b = j
    · rw [hbj, Function.update_self, ha] at hb
      cases hb
    · rw [Function.update_of_ne hbj] at hb
      exact hr ha b hbj hb

/-- **Exclusion** is kept by every move. -/
theorem Exclusive.moves (h : Exclusive r) (hm : Moves r j x) : Exclusive (Function.update r j x) := by
  cases hm with
  | stay => rwa [Function.update_eq_self]
  | enter => exact h.update_out rfl fun e => (by cases e)
  | leave => exact h.update_out rfl fun e => (by cases e)
  | read _ hopen =>
    refine h.update_out rfl fun _ i _ hi => ?_
    have := hopen i
    rw [hi] at this
    cases this
  | close _ hopen => exact .update_in (fun i _ => hopen i) fun e => (by cases e)
  | seize _ alone =>
    refine .update_in (fun i hi => ?_) fun _ i hi he => ?_
    · rw [alone i hi]
      rfl
    · rw [alone i hi] at he
      cases he
  | share held =>
    refine h.update_out rfl fun _ i hi hw => hi (h.writer i j ?_ ?_)
    · rw [hw]
      rfl
    · rw [held]
      rfl

/-! ### The word -/

section
variable [Fintype J] {W : Type} [AddCommGroup W] (read write : W)

/-- The sum of the threads' shares. -/
def total (r : J → Role) : W := ∑ i, (r i).share read write

/-- How many threads count as readers. -/
def readers (r : J → Role) : ℕ := (Finset.univ.filter fun i => (r i).reads = true).card

/-- How many threads count as writers. -/
def writers (r : J → Role) : ℕ := (Finset.univ.filter fun i => (r i).writes = true).card

theorem total_update (r : J → Role) (j : J) (x : Role) :
    total read write (Function.update r j x)
      = total read write r + (x.share read write - (r j).share read write) := by
  have hf : (fun i => (Function.update r j x i).share read write)
      = Function.update (fun i => (r i).share read write) j (x.share read write) := by
    funext i
    by_cases h : i = j <;> simp [h]
  have hsum := Finset.add_sum_erase Finset.univ (fun i => (r i).share read write) (Finset.mem_univ j)
  rw [total, hf, Finset.sum_update_of_mem (Finset.mem_univ j), total, ← hsum,
    Finset.sdiff_singleton_eq_erase]
  abel

omit [DecidableEq J] in
/-- **The word tells** how many threads are counted in which way. -/
theorem total_eq (r : J → Role) : total read write r = readers r • read + writers r • write := by
  have hs : ∀ i, (r i).share read write
      = (if (r i).reads = true then read else 0) + (if (r i).writes = true then write else 0) := by
    intro i
    cases r i <;> simp [Role.share, Role.reads, Role.writes]
  rw [total, Finset.sum_congr rfl fun i _ => hs i, Finset.sum_add_distrib, ← Finset.sum_filter,
    ← Finset.sum_filter, Finset.sum_const, Finset.sum_const]
  rfl

omit [DecidableEq J] in
/-- Where the others are out, the word is the share of the one left. -/
theorem total_alone (alone : ∀ i, i ≠ j → r i = .out) : total read write r = (r j).share read write :=
  Finset.sum_eq_single j (fun i _ h => by rw [alone i h]; rfl) fun h => absurd (Finset.mem_univ j) h

omit [DecidableEq J] in
theorem readers_le (r : J → Role) : readers r ≤ Fintype.card J := Finset.card_le_univ _

omit [DecidableEq J] in
theorem Exclusive.writers_le (h : Exclusive r) : writers r ≤ 1 := by
  refine Finset.card_le_one.mpr fun a ha b hb => ?_
  rw [Finset.mem_filter] at ha hb
  exact h.writer a b ha.2 hb.2

omit [DecidableEq J] in
theorem writers_eq_zero : writers r = 0 ↔ ∀ i, (r i).writes = false := by
  rw [writers, Finset.card_eq_zero, Finset.filter_eq_empty_iff]
  simp

omit [DecidableEq J] in
theorem readers_eq_zero : readers r = 0 ↔ ∀ i, (r i).reads = false := by
  rw [readers, Finset.card_eq_zero, Finset.filter_eq_empty_iff]
  simp

theorem Role.eq_out (hr : x.reads = false) (hw : x.writes = false) : x = .out := by
  cases x <;> simp_all [reads, writes]

omit [DecidableEq J] in
/-- Who is left when no reader is counted and `j` is counted as a writer. -/
theorem Exclusive.alone (h : Exclusive r) (hj : (r j).writes = true) (none : readers r = 0) :
    ∀ i, i ≠ j → r i = .out := by
  intro i hi
  refine Role.eq_out (readers_eq_zero.mp none i) ?_
  by_contra hw
  exact hi (h.writer i j (by simpa using hw) hj)

end

/-! ### Locks kept in one word -/

namespace Control

variable [Fintype J] {N L W : Type} [AddCommGroup W] {C : Control J N L W} {c : Config J L W}

/-- **Locks kept in one word**: if a step from a reachable configuration that is exclusive and exact
is a move and changes the word by the change of the thread's share, then every configuration
reached is exclusive and exact. -/
theorem Reachable.exclusive (role : L → Role) (read write : W) {l₀ : L} (hout : role l₀ = .out)
    (sound : ∀ (c : Config J L W) j n l s, Reachable C (Config.init 0 l₀) c →
      Exclusive (fun i => role (c.point i)) →
      c.state = total read write (fun i => role (c.point i)) →
      C.step j n (c.point j) c.state = some (l, s) →
      Moves (fun i => role (c.point i)) j (role l) ∧
        s = c.state + ((role l).share read write - (role (c.point j)).share read write))
    (h : Reachable C (Config.init 0 l₀) c) :
    Exclusive (fun i => role (c.point i)) ∧ c.state = total read write fun i => role (c.point i) := by
  refine h.induct (P := fun c => Exclusive (fun i => role (c.point i)) ∧
    c.state = total read write fun i => role (c.point i)) ⟨?_, ?_⟩ ?_
  · simp only [Config.init, hout]
    exact .init
  · simp [Config.init, hout, total, Role.share]
  · rintro c j n l s hc ⟨hex, hword⟩ hs
    obtain ⟨hm, hchange⟩ := sound c j n l s hc hex hword hs
    rw [Config.map_go, Config.go_state, total_update]
    exact ⟨hex.moves hm, by rw [hchange, hword]⟩

end Control

end SidleBaselines.Concurrency
