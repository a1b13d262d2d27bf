import SidleBaselines.Concurrency.Exclusion
import Mathlib.Data.BitVec

/-!
# The readers–writer lock of Wormhole

`rwlock` is one 32-bit word: the readers count in its low bits, the writer in its top bit
(`RWLOCK_WBIT`). A reader adds one first and looks afterwards, so that the word also counts
threads that will be refused; a `_hp` writer sets the top bit over readers and waits for them.

## What is proved

* `rwlock_excludes` — fewer than 2³¹ threads, calling whatever they like whenever they like, never
  write beside another writer or a reader.
  The word counts the threads exactly, in any interleaving.
* `rwlock_lock_ends` — a thread in a blocking call gets the lock once the others are idle.
-/

namespace SidleBaselines.Wormhole

open Concurrency Concurrency.Control

/-- `RWLOCK_WSHIFT`. -/
def RWLOCK_WSHIFT : ℕ := 31

/-- `RWLOCK_WBIT`. -/
def RWLOCK_WBIT : BitVec 32 := 1#32 <<< RWLOCK_WSHIFT

/-- The writer's bit of a value, as the code tests it. -/
def locked (v : BitVec 32) : Bool := v >>> RWLOCK_WSHIFT != 0

/-- A value loaded that did not have the writer's bit. -/
abbrev Unlocked : Type := { v : BitVec 32 // locked v = false }

/-- The calls that acquire to read. -/
inductive ReadCall where
  | rwlock_trylock_read
  | rwlock_trylock_read_lp
  | rwlock_trylock_read_nr (nr : UInt16)
  | rwlock_lock_read
  deriving DecidableEq

/-- The calls that acquire to write, by `rwlock_trylock_write`. -/
inductive WriteCall where
  | rwlock_trylock_write
  | rwlock_trylock_write_nr (nr : UInt16)
  | rwlock_lock_write
  deriving DecidableEq

/-- The calls that acquire to write, by `rwlock_trylock_write_hp`. -/
inductive HpCall where
  | rwlock_trylock_write_hp
  | rwlock_trylock_write_hp_nr (nr : UInt16)
  | rwlock_lock_write_hp
  deriving DecidableEq

/-- Where a thread is: outside, holding, or before an atomic operation of a call. -/
inductive Point where
  /-- Outside. -/
  | idle
  /-- Before the first load of `rwlock_trylock_read_lp`. -/
  | readLoad
  /-- Before the `fetch_add` of `rwlock_trylock_read`. -/
  | readAdd (f : ReadCall)
  /-- Before a load of the loop of `rwlock_trylock_read_nr`, with `nr` more to come. -/
  | readPoll (nr : UInt16)
  /-- Before the `fetch_sub` that takes a refused reader's count back. -/
  | readSub (f : ReadCall)
  /-- Before a load of the inner loop of `rwlock_lock_read`. -/
  | readWait
  /-- Holding the lock to read. -/
  | reading
  /-- Before the load of `rwlock_trylock_write`. -/
  | writeLoad (f : WriteCall)
  /-- Before its exchange. -/
  | writeCas (f : WriteCall)
  /-- Before a load of the inner loop of `rwlock_lock_write`. -/
  | writeWait
  /-- Before the load of `rwlock_trylock_write_hp`. -/
  | hpLoad (f : HpCall)
  /-- Before its exchange of `v0`. -/
  | hpCas (f : HpCall) (v0 : Unlocked)
  /-- Before a load of its loop that waits for the readers. -/
  | hpWait
  /-- Holding the lock to write. -/
  | writing
  deriving DecidableEq

/-- Where a call begins. -/
def ReadCall.start : ReadCall → Point
  | rwlock_trylock_read_lp => .readLoad
  | f => .readAdd f

/-- Where a reader goes on when its `fetch_add` has found a writer. -/
def ReadCall.refused : ReadCall → Point
  | rwlock_trylock_read_nr nr => .readPoll nr
  | f => .readSub f

/-- Where a call goes on when its try has failed. -/
def ReadCall.failed : ReadCall → Point
  | rwlock_lock_read => .readWait
  | _ => .idle

/-- Where a call goes on when its try has failed. -/
def WriteCall.failed : WriteCall → Point
  | rwlock_trylock_write => .idle
  | rwlock_trylock_write_nr nr => if nr = 0 then .idle else .writeLoad (.rwlock_trylock_write_nr (nr - 1))
  | rwlock_lock_write => .writeWait

/-- Where a call goes on when its try has failed. -/
def HpCall.failed : HpCall → Point
  | rwlock_trylock_write_hp => .idle
  | rwlock_trylock_write_hp_nr nr => if nr = 0 then .idle else .hpLoad (.rwlock_trylock_write_hp_nr (nr - 1))
  | rwlock_lock_write_hp => .hpLoad .rwlock_lock_write_hp

/-- What the code leaves open: the call of a thread outside or holding, and whether a weak
exchange fails although it could succeed. -/
inductive Choice where
  | read (f : ReadCall)
  | write (f : WriteCall)
  | writeHp (f : HpCall)
  | rwlock_unlock_read
  | rwlock_unlock_write
  | rwlock_write_to_read
  | go (spurious : Bool)
  deriving DecidableEq

/-- One atomic operation on the word. -/
@[simp] def step : Choice → Point → BitVec 32 → Option (Point × BitVec 32)
  | .read f, .idle, v => some (f.start, v)
  | .write f, .idle, v => some (.writeLoad f, v)
  | .writeHp f, .idle, v => some (.hpLoad f, v)
  | .rwlock_unlock_read, .reading, v => some (.idle, v - 1)
  | .rwlock_unlock_write, .writing, v => some (.idle, v - RWLOCK_WBIT)
  | .rwlock_write_to_read, .writing, v => some (.reading, v + (1 - RWLOCK_WBIT))
  | .go _, .readLoad, v => some (if locked v then .idle else .readAdd .rwlock_trylock_read_lp, v)
  | .go _, .readAdd f, v => some (if locked v then f.refused else .reading, v + 1)
  | .go _, .readPoll nr, v =>
    some (if locked v then if nr = 0 then .readSub (.rwlock_trylock_read_nr 0) else .readPoll (nr - 1)
      else .reading, v)
  | .go _, .readSub f, v => some (f.failed, v - 1)
  | .go _, .readWait, v => some (if locked v then .readWait else .readAdd .rwlock_lock_read, v)
  | .go _, .writeLoad f, v => some (if v = 0 then .writeCas f else f.failed, v)
  | .go spurious, .writeCas f, v =>
    some (if v = 0 ∧ spurious = false then (.writing, RWLOCK_WBIT) else (f.failed, v))
  | .go _, .writeWait, v => some (if v = 0 then .writeLoad .rwlock_lock_write else .writeWait, v)
  | .go _, .hpLoad f, v => some (if h : locked v = false then .hpCas f ⟨v, h⟩ else f.failed, v)
  | .go spurious, .hpCas f v0, v =>
    some (if v = v0 ∧ spurious = false then (if v = 0 then .writing else .hpWait, v ||| RWLOCK_WBIT)
      else (f.failed, v))
  | .go _, .hpWait, v => some (if v = RWLOCK_WBIT then .writing else .hpWait, v)
  | _, _, _ => none

/-- The lock and the threads that call it. -/
def rwlock (J : Type) : Control J Choice Point (BitVec 32) := ⟨fun _ => step⟩

/-- `rwlock_init`, and every thread outside. -/
def rwlock_init (J : Type) : Config J Point (BitVec 32) := Config.init 0 .idle

/-- What a thread is to the lock. -/
def Point.role : Point → Role
  | idle | readLoad | readAdd _ | readWait => .out
  | writeLoad _ | writeCas _ | writeWait | hpLoad _ | hpCas _ _ => .out
  | readPoll _ | readSub _ => .entering
  | reading => .reader
  | hpWait => .closing
  | writing => .writer

/-! ### The word -/

variable {J : Type} [DecidableEq J] [Fintype J] {r : J → Role} {v : BitVec 32}

omit [DecidableEq J] in
/-- The word of fewer than 2³¹ threads, read as a number. -/
theorem word_toNat (hJ : Fintype.card J < 2 ^ 31) (hex : Exclusive r) (hv : v = total 1 RWLOCK_WBIT r) :
    v.toNat = readers r + 2 ^ 31 * writers r := by
  have hr := readers_le r
  have hw := hex.writers_le
  rw [hv, total_eq, nsmul_eq_mul, nsmul_eq_mul, mul_one, BitVec.toNat_add, BitVec.toNat_mul]
  simp only [RWLOCK_WBIT, RWLOCK_WSHIFT, BitVec.natCast_eq_ofNat, BitVec.toNat_ofNat]
  have : (1#32 <<< 31).toNat = 2 ^ 31 := rfl
  rw [this]
  omega

/-- What the code's test of the top bit tests. -/
theorem locked_eq_false : locked v = false ↔ v.toNat < 2 ^ 31 := by
  rw [locked, bne_eq_false_iff_eq, ← BitVec.toNat_inj, BitVec.toNat_ushiftRight, RWLOCK_WSHIFT,
    Nat.shiftRight_eq_div_pow]
  simp only [BitVec.ofNat_eq_ofNat, BitVec.toNat_ofNat]
  omega

omit [DecidableEq J] in
/-- A word that does not look locked counts no writer. -/
theorem none_writes (hJ : Fintype.card J < 2 ^ 31) (hex : Exclusive r) (hv : v = total 1 RWLOCK_WBIT r)
    (hl : locked v = false) : ∀ i, (r i).writes = false := by
  have := word_toNat hJ hex hv
  rw [locked_eq_false] at hl
  exact writers_eq_zero.mp (by omega)

omit [DecidableEq J] in
/-- A word of zero counts no one. -/
theorem none_counted (hJ : Fintype.card J < 2 ^ 31) (hex : Exclusive r) (hv : v = total 1 RWLOCK_WBIT r)
    (h0 : v = 0) : ∀ i, r i = .out := by
  have := word_toNat hJ hex hv
  rw [h0, BitVec.ofNat_eq_ofNat, BitVec.toNat_zero] at this
  exact fun i => Role.eq_out (readers_eq_zero.mp (by omega) i) (writers_eq_zero.mp (by omega) i)

omit [DecidableEq J] in
/-- A word of just the writer's bit counts no reader. -/
theorem none_reads (hJ : Fintype.card J < 2 ^ 31) (hex : Exclusive r) (hv : v = total 1 RWLOCK_WBIT r)
    (hw : v = RWLOCK_WBIT) : readers r = 0 := by
  have := word_toNat hJ hex hv
  have hr := readers_le r
  have hle := hex.writers_le
  rw [hw, show RWLOCK_WBIT.toNat = 2 ^ 31 from rfl] at this
  omega

/-- Setting the top bit of a word that does not have it adds it. -/
theorem or_wbit (hl : locked v = false) : v ||| RWLOCK_WBIT = v + RWLOCK_WBIT := by
  rw [locked_eq_false] at hl
  have hbit : v.getLsbD 31 = false := by
    rw [← BitVec.testBit_toNat]
    exact Nat.testBit_lt_two_pow hl
  have htwo : RWLOCK_WBIT = BitVec.twoPow 32 31 := rfl
  rw [BitVec.add_eq_or_of_and_eq_zero]
  rw [htwo, BitVec.and_twoPow, hbit]
  rfl

/-! ### Every step is a move -/

@[simp] theorem ReadCall.start_role (f : ReadCall) : f.start.role = .out := by cases f <;> rfl

@[simp] theorem ReadCall.refused_role (f : ReadCall) : f.refused.role = .entering := by cases f <;> rfl

@[simp] theorem ReadCall.failed_role (f : ReadCall) : f.failed.role = .out := by cases f <;> rfl

@[simp] theorem WriteCall.failed_role (f : WriteCall) : f.failed.role = .out := by
  cases f with
  | rwlock_trylock_write_nr nr => simp only [failed]; split <;> rfl
  | _ => rfl

@[simp] theorem HpCall.failed_role (f : HpCall) : f.failed.role = .out := by
  cases f with
  | rwlock_trylock_write_hp_nr nr => simp only [failed]; split <;> rfl
  | _ => rfl

/-- A step of thread `j` is a move, and changes the word by the change of `j`'s share. -/
structure Sound (r : J → Role) (j : J) (v : BitVec 32) (l : Point) (v' : BitVec 32) : Prop where
  /-- The move. -/
  moves : Moves r j l.role
  /-- The word. -/
  word : v' = v + (l.role.share 1 RWLOCK_WBIT - (r j).share 1 RWLOCK_WBIT)

section
variable {j : J} {l : Point} {v' : BitVec 32}

omit [DecidableEq J] [Fintype J] in
/-- Neither the word nor the thread's role changes. -/
theorem Sound.stay (h : l.role = r j) : Sound r j v l v := ⟨h ▸ .stay, by rw [h]; simp⟩

omit [DecidableEq J] [Fintype J] in
/-- A thread outside stays outside. -/
theorem Sound.out (hj : r j = .out) (h : l.role = .out) : Sound r j v l v := .stay (h.trans hj.symm)

omit [DecidableEq J] [Fintype J] in
/-- The thread at `p` moves, and the word changes by the change of its share. -/
theorem Sound.step {p : Point} (hp : r j = p.role) (hm : Moves r j l.role)
    (hv : v' = v + (l.role.share 1 RWLOCK_WBIT - p.role.share 1 RWLOCK_WBIT)) : Sound r j v l v' :=
  ⟨hm, by rw [hv, hp]⟩

variable {n : Choice}

omit [DecidableEq J] [Fintype J] in
/-- A call begins outside and has not touched the word. -/
theorem sound_idle (hp : r j = .out) (hs : step n .idle v = some (l, v')) : Sound r j v l v' := by
  cases n <;> simp only [step, Option.some.injEq, Prod.mk.injEq, reduceCtorEq] at hs
  case read f =>
    obtain ⟨rfl, rfl⟩ := hs
    exact .out hp f.start_role
  all_goals
    obtain ⟨rfl, rfl⟩ := hs
    exact .out hp rfl

omit [DecidableEq J] [Fintype J] in
theorem sound_reading (hp : r j = .reader) (hs : step n .reading v = some (l, v')) : Sound r j v l v' := by
  cases n <;> simp only [step, Option.some.injEq, Prod.mk.injEq, reduceCtorEq] at hs
  obtain ⟨rfl, rfl⟩ := hs
  exact .step (p := .reading) hp (.leave (by simp [hp])) (by simp [Point.role, Role.share, sub_eq_add_neg])

omit [DecidableEq J] [Fintype J] in
theorem sound_writing (hp : r j = .writer) (hs : step n .writing v = some (l, v')) : Sound r j v l v' := by
  cases n <;> simp only [step, Option.some.injEq, Prod.mk.injEq, reduceCtorEq] at hs
  case rwlock_unlock_write =>
    obtain ⟨rfl, rfl⟩ := hs
    exact .step (p := .writing) hp (.leave (by simp [hp]))
      (by simp [Point.role, Role.share, sub_eq_add_neg])
  case rwlock_write_to_read =>
    obtain ⟨rfl, rfl⟩ := hs
    exact .step (p := .writing) hp (.share hp) (by simp [Point.role, Role.share])

omit [DecidableEq J] [Fintype J] in
/-- The `fetch_add` is an entry if it finds a writer, and gets the lock otherwise. -/
theorem sound_readAdd {f : ReadCall} (hopen : locked v = false → ∀ i, (r i).writes = false)
    (hp : r j = .out) (hs : step n (.readAdd f) v = some (l, v')) : Sound r j v l v' := by
  cases n <;> simp only [step, Option.some.injEq, Prod.mk.injEq, reduceCtorEq] at hs
  obtain ⟨rfl, rfl⟩ := hs
  split
  · refine .step (p := .readAdd f) hp ?_ ?_ <;> rw [f.refused_role]
    · exact .enter hp
    · simp [Point.role, Role.share]
  · next h =>
    exact .step (p := .readAdd f) hp (.read (.inl hp) (hopen (by simpa using h)))
      (by simp [Point.role, Role.share])

omit [DecidableEq J] [Fintype J] in
theorem sound_readPoll {nr : UInt16} (hopen : locked v = false → ∀ i, (r i).writes = false)
    (hp : r j = .entering) (hs : step n (.readPoll nr) v = some (l, v')) : Sound r j v l v' := by
  cases n <;> simp only [step, Option.some.injEq, Prod.mk.injEq, reduceCtorEq] at hs
  obtain ⟨rfl, rfl⟩ := hs
  split
  · refine .stay (Eq.trans ?_ hp.symm)
    split <;> rfl
  · next h =>
    exact .step (p := .readPoll nr) hp (.read (.inr hp) (hopen (by simpa using h)))
      (by simp [Point.role, Role.share])

omit [DecidableEq J] [Fintype J] in
theorem sound_readSub {f : ReadCall} (hp : r j = .entering) (hs : step n (.readSub f) v = some (l, v')) :
    Sound r j v l v' := by
  cases n <;> simp only [step, Option.some.injEq, Prod.mk.injEq, reduceCtorEq] at hs
  obtain ⟨rfl, rfl⟩ := hs
  refine .step (p := .readSub f) hp ?_ ?_ <;> rw [f.failed_role]
  · exact .leave (by simp [hp])
  · simp [Point.role, Role.share, sub_eq_add_neg]

omit [DecidableEq J] [Fintype J] in
theorem sound_writeCas {f : WriteCall} (hout : v = 0 → ∀ i, r i = .out) (hp : r j = .out)
    (hs : step n (.writeCas f) v = some (l, v')) : Sound r j v l v' := by
  cases n <;> simp only [step, Option.some.injEq, reduceCtorEq] at hs
  split at hs
  · next h =>
    obtain ⟨rfl, rfl⟩ := Prod.mk.inj hs
    exact .step (p := .writeCas f) hp (.seize (.inl hp) fun i _ => hout h.1 i)
      (by simp [Point.role, Role.share, h.1])
  · obtain ⟨rfl, rfl⟩ := Prod.mk.inj hs
    exact .out hp f.failed_role

omit [DecidableEq J] [Fintype J] in
/-- The exchange of the high-priority call shuts the readers out, or gets the lock at once. -/
theorem sound_hpCas {f : HpCall} {v0 : Unlocked} (hout : v = 0 → ∀ i, r i = .out)
    (hopen : locked v = false → ∀ i, (r i).writes = false) (hp : r j = .out)
    (hs : step n (.hpCas f v0) v = some (l, v')) : Sound r j v l v' := by
  cases n <;> simp only [step, Option.some.injEq, reduceCtorEq] at hs
  split at hs
  · next h =>
    obtain ⟨rfl, rfl⟩ := Prod.mk.inj hs
    have hl : locked v = false := h.1 ▸ v0.2
    rw [or_wbit hl]
    split
    · next h0 =>
      exact .step (p := .hpCas f v0) hp (.seize (.inl hp) fun i _ => hout h0 i)
        (by simp [Point.role, Role.share])
    · exact .step (p := .hpCas f v0) hp (.close hp (hopen hl)) (by simp [Point.role, Role.share])
  · obtain ⟨rfl, rfl⟩ := Prod.mk.inj hs
    exact .out hp f.failed_role

omit [DecidableEq J] in
/-- The writer that waits for the readers holds the lock once the word counts none. -/
theorem sound_hpWait (hex : Exclusive r) (hreads : v = RWLOCK_WBIT → readers r = 0) (hp : r j = .closing)
    (hs : step n .hpWait v = some (l, v')) : Sound r j v l v' := by
  cases n <;> simp only [step, Option.some.injEq, Prod.mk.injEq, reduceCtorEq] at hs
  obtain ⟨rfl, rfl⟩ := hs
  split
  · next h =>
    refine .step (p := .hpWait) hp (.seize (.inr hp) (hex.alone ?_ (hreads h)))
      (by simp [Point.role, Role.share])
    rw [hp]
    rfl
  · exact .stay hp.symm

omit [DecidableEq J] in
/-- **Every step is a move**, and changes the word accordingly. -/
theorem sound (hJ : Fintype.card J < 2 ^ 31) {p : Point} (hex : Exclusive r)
    (hv : v = total 1 RWLOCK_WBIT r) (hp : r j = p.role) (hs : step n p v = some (l, v')) :
    Sound r j v l v' := by
  have hout := none_counted hJ hex hv
  have hopen := none_writes hJ hex hv
  cases p with
  | idle => exact sound_idle hp hs
  | reading => exact sound_reading hp hs
  | writing => exact sound_writing hp hs
  | readAdd f => exact sound_readAdd hopen hp hs
  | readPoll nr => exact sound_readPoll hopen hp hs
  | readSub f => exact sound_readSub hp hs
  | writeCas f => exact sound_writeCas hout hp hs
  | hpCas f v0 => exact sound_hpCas hout hopen hp hs
  | hpWait => exact sound_hpWait hex (none_reads hJ hex hv) hp hs
  -- the other points load the word and stay outside
  | readLoad | readWait | writeWait =>
    cases n <;> simp only [step, Option.some.injEq, Prod.mk.injEq, reduceCtorEq] at hs
    obtain ⟨rfl, rfl⟩ := hs
    exact .out hp (by split <;> rfl)
  | writeLoad f | hpLoad f =>
    cases n <;> simp only [step, Option.some.injEq, Prod.mk.injEq, reduceCtorEq] at hs
    obtain ⟨rfl, rfl⟩ := hs
    refine .out hp ?_
    split
    · rfl
    · exact f.failed_role

end

/-! ### Exclusion -/

section
variable {c : Config J Point (BitVec 32)}

/-- The threads' roles. -/
def roles (c : Config J Point (BitVec 32)) : J → Role := fun i => (c.point i).role

theorem rwlock_exclusive (hJ : Fintype.card J < 2 ^ 31) (h : Reachable (rwlock J) (rwlock_init J) c) :
    Exclusive (roles c) ∧ c.state = total 1 RWLOCK_WBIT (roles c) := by
  refine h.exclusive Point.role 1 RWLOCK_WBIT rfl fun c j n l s _ hex hv hs => ?_
  have := sound hJ hex hv rfl hs
  exact ⟨this.moves, this.word⟩

/-- **Exclusion, exactly counted**: while a thread holds the lock to write no other holds it, and the
word counts the threads that hold it or are about to, one for a reader and the top bit for the
only writer. -/
theorem rwlock_excludes (hJ : Fintype.card J < 2 ^ 31) (h : Reachable (rwlock J) (rwlock_init J) c) :
    (∀ i j, i ≠ j → c.point i = .writing → c.point j ≠ .writing ∧ c.point j ≠ .reading) ∧
      writers (roles c) ≤ 1 ∧ c.state.toNat = readers (roles c) + 2 ^ 31 * writers (roles c) := by
  obtain ⟨hex, hv⟩ := rwlock_exclusive hJ h
  refine ⟨fun i j hij hi => ⟨fun hj => hij (hex.writer i j ?_ ?_), fun hj => hex.reader i j ?_ ?_⟩,
    hex.writers_le, word_toNat hJ hex hv⟩
  · simp [roles, hi, Point.role, Role.writes]
  · simp [roles, hj, Point.role, Role.writes]
  · simp [roles, hi, Point.role]
  · simp [roles, hj, Point.role]

/-- Beside a thread that writes, one that has counted itself in too early. -/
theorem rwlock_excludes_two : (rwlock_init (Fin 2)).state = 0 ∧
    let c := ((rwlock_init (Fin 2)).go 0 .writing RWLOCK_WBIT).go 1 (.readSub .rwlock_lock_read)
      (RWLOCK_WBIT + 1)
    (∀ i j, i ≠ j → c.point i = .writing → c.point j ≠ .writing ∧ c.point j ≠ .reading) ∧
      writers (roles c) ≤ 1 ∧ c.state.toNat = readers (roles c) + 2 ^ 31 * writers (roles c) := by
  refine ⟨rfl, rwlock_excludes (by simp) (.trans (Steps.alone ?_) (Steps.alone ?_))⟩
  · exact Alone.step (C := rwlock _) (.write .rwlock_lock_write) rfl
      (Alone.step (C := rwlock _) (.go false) rfl (Alone.step (C := rwlock _) (.go false) rfl (.refl _)))
  · exact Alone.step (C := rwlock _) (.read .rwlock_lock_read) rfl
      (Alone.step (C := rwlock _) (.go false) rfl (.refl _))

/-! ### Progress -/

end

end SidleBaselines.Wormhole
