import SidleBaselines.Concurrency.Exclusion
import Mathlib.Data.BitVec

/-!
# The readers–writer lock of SMART

`WRLock` is one 16-bit word: one for the writer, two for each reader, every change but the
writer's unlock an exchange of a value read before.

## What is proved

* `wrlock_excludes` — fewer than 2¹⁵ threads, locking and unlocking in any interleaving, never
  write beside another writer or a reader, although the writer's unlock overwrites the word.
-/

namespace SidleBaselines.Smart

open Concurrency Concurrency.Control

/-- `UNLOCKED`. -/
def UNLOCKED : BitVec 16 := 0

/-- `LOCKED`. -/
def LOCKED : BitVec 16 := 1

/-- The calls that lock to read. -/
inductive ReadCall where
  | rLock
  | try_rLock
  deriving DecidableEq

/-- The calls that lock to write. -/
inductive WriteCall where
  | wLock
  | try_wLock
  deriving DecidableEq

/-- A value loaded by a reader that was not `LOCKED`. -/
abbrev Open : Type := { v : BitVec 16 // v ≠ LOCKED }

/-- Where a thread is: outside, holding, or before an atomic operation of a call. -/
inductive Point where
  /-- Outside. -/
  | idle
  /-- Before the load of a reader's loop. -/
  | rLoad (f : ReadCall)
  /-- Before its exchange of `v` for `v + 2`. -/
  | rCas (f : ReadCall) (v : Open)
  /-- Holding the lock to read. -/
  | reading
  /-- Before the load of `rUnlock`. -/
  | uLoad
  /-- Before its exchange of `v` for `v - 2`. -/
  | uCas (v : BitVec 16)
  /-- Before the load of a writer's loop. -/
  | wLoad (f : WriteCall)
  /-- Before its exchange of `UNLOCKED` for `LOCKED`. -/
  | wCas (f : WriteCall)
  /-- Holding the lock to write. -/
  | writing
  deriving DecidableEq

/-- Where a reader goes on that has found the lock `LOCKED`. -/
def ReadCall.refused : ReadCall → Point
  | rLock => .rLoad .rLock
  | try_rLock => .idle

/-- Where a writer goes on that has not found the lock `UNLOCKED`. -/
def WriteCall.refused : WriteCall → Point
  | wLock => .wLoad .wLock
  | try_wLock => .idle

/-- What the code leaves open: the calls. -/
inductive Choice where
  | read (f : ReadCall)
  | write (f : WriteCall)
  | rUnlock
  | wUnlock
  | go
  deriving DecidableEq

/-- One atomic operation on the word. -/
def step : Choice → Point → BitVec 16 → Option (Point × BitVec 16)
  | .read f, .idle, v => some (.rLoad f, v)
  | .write f, .idle, v => some (.wLoad f, v)
  | .rUnlock, .reading, v => some (.uLoad, v)
  | .wUnlock, .writing, _ => some (.idle, UNLOCKED)
  | .go, .rLoad f, v => some (if h : v ≠ LOCKED then .rCas f ⟨v, h⟩ else f.refused, v)
  | .go, .rCas f u, v => some (if v = u then (.reading, v + 2) else (.rLoad f, v))
  | .go, .uLoad, v => some (.uCas v, v)
  | .go, .uCas u, v => some (if v = u then (.idle, v - 2) else (.uLoad, v))
  | .go, .wLoad f, v => some (if v = UNLOCKED then .wCas f else f.refused, v)
  | .go, .wCas f, v => some (if v = UNLOCKED then (.writing, LOCKED) else (f.refused, v))
  | _, _, _ => none

/-- The lock and the threads that call it. -/
def wrlock (J : Type) : Control J Choice Point (BitVec 16) := ⟨fun _ => step⟩

/-- `init`, and every thread outside. -/
def init (J : Type) : Config J Point (BitVec 16) := Config.init UNLOCKED .idle

/-- What a thread is to the lock: a reader until its unlock has gone through. -/
def Point.role : Point → Role
  | idle | rLoad _ | rCas _ _ | wLoad _ | wCas _ => .out
  | reading | uLoad | uCas _ => .reader
  | writing => .writer

/-! ### The word -/

variable {J : Type} [DecidableEq J] [Fintype J] {r : J → Role} {v v' : BitVec 16} {j : J}

omit [DecidableEq J] in
/-- The word of fewer than 2¹⁵ threads, read as a number. -/
theorem word_toNat (hJ : Fintype.card J < 2 ^ 15) (hex : Exclusive r) (hv : v = total 2 LOCKED r) :
    v.toNat = 2 * readers r + writers r := by
  have hr := readers_le r
  have hw := hex.writers_le
  rw [hv, total_eq, nsmul_eq_mul, nsmul_eq_mul, BitVec.toNat_add, BitVec.toNat_mul, BitVec.toNat_mul]
  simp only [LOCKED, BitVec.natCast_eq_ofNat, BitVec.ofNat_eq_ofNat, BitVec.toNat_ofNat]
  omega

/-- No thread counts without holding. -/
def Plain (r : J → Role) : Prop := ∀ i, r i ≠ .entering ∧ r i ≠ .closing

omit [DecidableEq J] [Fintype J] in
theorem plain_role (p : J → Point) : Plain fun i => (p i).role := by
  intro i
  cases h : p i <;> simp [h, Point.role]

omit [DecidableEq J] in
/-- Beside a writer there are no readers. -/
theorem readers_of_writer (hplain : Plain r) (hex : Exclusive r) (hj : (r j).writes = true) :
    readers r = 0 := by
  have hw : r j = .writer := by
    have := (hplain j).2
    cases h : r j <;> simp_all [Role.writes]
  refine readers_eq_zero.mpr fun i => ?_
  have he := (hplain i).1
  have hr := hex.reader j i hw
  cases h : r i <;> simp_all [Role.reads]

omit [DecidableEq J] in
/-- A word other than `LOCKED` counts no writer. -/
theorem none_writes (hJ : Fintype.card J < 2 ^ 15) (hplain : Plain r) (hex : Exclusive r)
    (hv : v = total 2 LOCKED r) (hl : v ≠ LOCKED) : ∀ i, (r i).writes = false := by
  have hn := word_toNat hJ hex hv
  by_contra hw
  obtain ⟨i, hi⟩ := not_forall.mp hw
  rw [Bool.not_eq_false] at hi
  have hle := hex.writers_le
  have hpos : writers r ≠ 0 := fun h => hw (writers_eq_zero.mp h)
  refine hl (BitVec.eq_of_toNat_eq ?_)
  rw [hn, readers_of_writer hplain hex hi, show LOCKED.toNat = 1 from rfl]
  omega

omit [DecidableEq J] in
/-- A word of zero counts no one. -/
theorem none_counted (hJ : Fintype.card J < 2 ^ 15) (hex : Exclusive r) (hv : v = total 2 LOCKED r)
    (h0 : v = UNLOCKED) : ∀ i, r i = .out := by
  have := word_toNat hJ hex hv
  rw [h0, show UNLOCKED.toNat = 0 from rfl] at this
  exact fun i => Role.eq_out (readers_eq_zero.mp (by omega) i) (writers_eq_zero.mp (by omega) i)

/-! ### Every step is a move -/

@[simp] theorem ReadCall.refused_role (f : ReadCall) : f.refused.role = .out := by cases f <;> rfl

@[simp] theorem WriteCall.refused_role (f : WriteCall) : f.refused.role = .out := by cases f <;> rfl

/-- A step of thread `j` is a move, and changes the word by the change of `j`'s share. -/
structure Sound (r : J → Role) (j : J) (v : BitVec 16) (l : Point) (v' : BitVec 16) : Prop where
  /-- The move. -/
  moves : Moves r j l.role
  /-- The word. -/
  word : v' = v + (l.role.share 2 LOCKED - (r j).share 2 LOCKED)

section
variable {l p : Point}

omit [DecidableEq J] [Fintype J] in
theorem Sound.stay (h : l.role = r j) : Sound r j v l v := ⟨h ▸ .stay, by rw [h]; simp⟩

omit [DecidableEq J] [Fintype J] in
theorem Sound.step (hp : r j = p.role) (hm : Moves r j l.role)
    (hv : v' = v + (l.role.share 2 LOCKED - p.role.share 2 LOCKED)) : Sound r j v l v' :=
  ⟨hm, by rw [hv, hp]⟩

omit [DecidableEq J] in
/-- **Every step is a move**, and changes the word accordingly. -/
theorem sound (hJ : Fintype.card J < 2 ^ 15) {n : Choice} (hplain : Plain r) (hex : Exclusive r)
    (hv : v = total 2 LOCKED r) (hp : r j = p.role) (hs : step n p v = some (l, v')) :
    Sound r j v l v' := by
  have hout := none_counted hJ hex hv
  have hopen := none_writes hJ hplain hex hv
  cases p with
  | idle =>
    cases n <;> simp only [step, Option.some.injEq, Prod.mk.injEq, reduceCtorEq] at hs
    all_goals
      obtain ⟨rfl, rfl⟩ := hs
      exact .stay hp.symm
  | rLoad f =>
    cases n <;> simp only [step, Option.some.injEq, Prod.mk.injEq, reduceCtorEq] at hs
    obtain ⟨rfl, rfl⟩ := hs
    refine .stay (Eq.trans ?_ hp.symm)
    split
    · rfl
    · exact f.refused_role
  | rCas f u =>
    cases n <;> simp only [step, Option.some.injEq, reduceCtorEq] at hs
    split at hs
    · next h =>
      obtain ⟨rfl, rfl⟩ := Prod.mk.inj hs
      exact .step hp (.read (.inl hp) (hopen (h ▸ u.2))) (by simp [Point.role, Role.share])
    · obtain ⟨rfl, rfl⟩ := Prod.mk.inj hs
      exact .stay hp.symm
  | reading =>
    cases n <;> simp only [step, Option.some.injEq, Prod.mk.injEq, reduceCtorEq] at hs
    obtain ⟨rfl, rfl⟩ := hs
    exact .stay hp.symm
  | uLoad =>
    cases n <;> simp only [step, Option.some.injEq, Prod.mk.injEq, reduceCtorEq] at hs
    obtain ⟨rfl, rfl⟩ := hs
    exact .stay hp.symm
  | uCas u =>
    cases n <;> simp only [step, Option.some.injEq, reduceCtorEq] at hs
    split at hs
    · obtain ⟨rfl, rfl⟩ := Prod.mk.inj hs
      exact .step hp (.leave (by simp [hp, Point.role])) (by simp [Point.role, Role.share, sub_eq_add_neg])
    · obtain ⟨rfl, rfl⟩ := Prod.mk.inj hs
      exact .stay hp.symm
  | wLoad f =>
    cases n <;> simp only [step, Option.some.injEq, Prod.mk.injEq, reduceCtorEq] at hs
    obtain ⟨rfl, rfl⟩ := hs
    refine .stay (Eq.trans ?_ hp.symm)
    split
    · rfl
    · exact f.refused_role
  | wCas f =>
    cases n <;> simp only [step, Option.some.injEq, reduceCtorEq] at hs
    split at hs
    · next h =>
      obtain ⟨rfl, rfl⟩ := Prod.mk.inj hs
      refine .step hp (.seize (.inl hp) fun i _ => hout h i) ?_
      simp [Point.role, Role.share, h, UNLOCKED]
    · obtain ⟨rfl, rfl⟩ := Prod.mk.inj hs
      exact .stay (f.refused_role.trans hp.symm)
  | writing =>
    cases n <;> simp only [step, Option.some.injEq, Prod.mk.injEq, reduceCtorEq] at hs
    obtain ⟨rfl, rfl⟩ := hs
    refine .step hp (.leave (by simp [hp, Point.role])) ?_
    -- the word is the writer's share, which is what the store takes away
    have hw : (r j).writes = true := by rw [hp]; rfl
    have hj : v = LOCKED := by
      rw [hv, total_alone _ _ (hex.alone hw (readers_of_writer hplain hex hw)), hp]
      rfl
    rw [hj]
    rfl

end

/-! ### Exclusion -/

/-- The threads' roles. -/
def roles (c : Config J Point (BitVec 16)) : J → Role := fun i => (c.point i).role

/-- **Exclusion, exactly counted**: a thread that writes is the only one to hold the lock, and the
word counts the threads that hold it, two for a reader and one for the only writer. -/
theorem wrlock_excludes (hJ : Fintype.card J < 2 ^ 15) {c : Config J Point (BitVec 16)}
    (h : Reachable (wrlock J) (init J) c) :
    (∀ i j, i ≠ j → (c.point i).role = .writer → (c.point j).role = .out) ∧
      writers (roles c) ≤ 1 ∧ c.state.toNat = 2 * readers (roles c) + writers (roles c) := by
  obtain ⟨hex, hv⟩ := h.exclusive Point.role 2 LOCKED rfl fun c j n l s _ hex hv hs =>
    have hsound := sound hJ (plain_role c.point) hex hv rfl hs
    ⟨hsound.moves, hsound.word⟩
  refine ⟨fun i j hij hi => ?_, hex.writers_le, word_toNat hJ hex hv⟩
  have hw : ((c.point i).role).writes = true := by rw [hi]; rfl
  exact hex.alone hw (readers_of_writer (plain_role c.point) hex hw) j hij.symm

/-- A reader beside one that has loaded the word and not yet exchanged it. -/
theorem wrlock_excludes_two :
    let c := ((init (Fin 2)).go 1 (.rCas .rLock ⟨0, by simp [LOCKED]⟩) 0).go 0 .reading 2
    (∀ i j, i ≠ j → (c.point i).role = .writer → (c.point j).role = .out) ∧
      writers (roles c) ≤ 1 ∧ c.state.toNat = 2 * readers (roles c) + writers (roles c) := by
  refine wrlock_excludes (by simp) (.trans (Steps.alone ?_) (Steps.alone ?_))
  · exact Alone.step (C := wrlock _) (.read .rLock) rfl (Alone.step (C := wrlock _) .go rfl (.refl _))
  · exact Alone.step (C := wrlock _) (.read .rLock) rfl
      (Alone.step (C := wrlock _) .go rfl (Alone.step (C := wrlock _) .go rfl (.refl _)))

end SidleBaselines.Smart
