import Mathlib

/-!
# From the data layer to the search layer

A thread that splits a node writes what there is to do into a slot of the core it runs on, of which there
are a thousand, taken in turn, and puts a pointer to the slot in its own log, in one of two queues. The
combiner turns to the other queue, empties the one the threads are leaving, log after log, and gives what
it found to the worker, who reads the slots and applies them to the search layer. A thread may have chosen
its queue just before the combiner turned, and fill it after it was emptied. A thread's log is made when it
first has something to put in, and joins the set of logs while the combiner may be going through it.

The worker of the one NUMA node there is (`MAX_NUMA` and `WORKER_THREAD_PER_NUMA` are 1) is modelled. `I`
are the threads, in the order of their logs' addresses. Every pointer carries, for the proofs, what was
written in the slot, and in a log also the value `curQ` had when it was put in.

## What is proved

* `Pipeline.enqStep_locks`, `Pipeline.combineStep_locks` — who has which lock, after every step.
* `Pipeline.enqStep_fresh`, `Pipeline.combineStep_fresh` — how long a pointer has been in a log, and that its log is in
  the set.

## Honest scope

Nothing guards the slots: one is written again while a pointer to it is on its way if the thread has split
a thousand nodes since, or another thread on the same core has. The worker then meets the slot twice, and
the second time, finding it done, calls `exit(1)`. The runs here are those in which that does not happen
(`Pipeline.Free`). The set of logs has no lock either; adding a log to it is one step here, and so is every
step of the loop through it. The lock a core has for its slots is left out, as it only rules runs out.
-/

namespace SidleBaselines.Pactree

variable {I α : Type}

/-! ### What the code does -/

/-- The slots of a core. -/
def numLogsPerThread : ℕ := 1000

/-- An `OpStruct`: what is to be done, and with which node. -/
inductive OpStruct (α : Type) where
  | dummy
  | insert (e : α)
  | remove (e : α)
  | done
  deriving DecidableEq, Repr

/-- The number of a slot, and what was written in it. -/
abbrev Pointer (α : Type) := ℕ × α

/-- Where a thread is in a split, after it has written the slot. -/
inductive Client (α : Type) where
  | idle
  /-- Before `getOpLog`. -/
  | logging (e : Pointer α)
  /-- Before it reads `curQ`. -/
  | reading (e : Pointer α)
  /-- Before it tries the lock of queue `qnum`. -/
  | trying (e : Pointer α) (qnum : Fin 2)
  /-- Before `push_back`. -/
  | pushing (e : Pointer α) (qnum : Fin 2)
  /-- Before the unlock. -/
  | unlocking (qnum : Fin 2)
  deriving DecidableEq

/-- Where the combiner is in `combineLogs`. -/
inductive Combiner (I α : Type) where
  | idle
  /-- `curQ` has been added to. -/
  | added
  /-- Before it locks queue `qnum` of log `i`, or after the last log. -/
  | locking (qnum : Fin 2) (i : Option I) (mergedLog : List (Pointer α × ℕ))
  /-- It has the lock of log `i`. -/
  | draining (qnum : Fin 2) (i : I) (mergedLog : List (Pointer α × ℕ))
  /-- Before it unlocks log `i`. -/
  | unlocking (qnum : Fin 2) (i : I) (mergedLog : List (Pointer α × ℕ))

/-- Where the worker is in `applyOperation`. -/
inductive Worker (α : Type) where
  | idle
  /-- The pointers of the front log it has still to follow. -/
  | applying (rest : List (Pointer α × ℕ))
  /-- It has called `exit`. -/
  | exited

/-- The slots, the logs, the queues and the threads. -/
structure Pipeline (I α : Type) where
  slots : ℕ → OpStruct α
  /-- The slot a thread takes next, of those of the core it runs on. -/
  logCnt : I → ℕ
  /-- `g_perThreadLog`. -/
  logs : Finset I
  curQ : ℕ
  op_ : I × Fin 2 → List (Pointer α × ℕ)
  qLock : I × Fin 2 → Bool
  client : I → Client α
  combiner : Combiner I α
  /-- The merged logs not freed yet, with their numbers. -/
  logQueue : List (ℕ × List (Pointer α × ℕ))
  doneCountCombiner : ℕ
  /-- `g_workQueue`: pointers to merged logs. -/
  workQueue : List (ℕ × List (Pointer α × ℕ))
  worker : Worker α
  logDoneCount : ℕ
  /-- What the worker has read, to be inserted in the search layer. -/
  applied : List (Pointer α × ℕ)
  /-- What it has read, to be removed. -/
  removed : List α
  /-- What splits have written. -/
  written : List (Pointer α)
  /-- What found the worker's queue full. -/
  dropped : List (Pointer α × ℕ)

/-- What happens next. -/
inductive Act (I : Type) where
  /-- Thread `i` goes on in `enqPerThreadLog`. -/
  | enq (i : I)
  /-- The combiner goes on. -/
  | combine
  /-- The combiner calls `freeMergedLogs`. -/
  | free (force : Bool)
  /-- The worker goes on. -/
  | work

/-- The capacity of the worker's queue. -/
def capacity : ℕ := 10000

namespace Pipeline

/-- The start: the data layer's first two nodes have used a slot each. -/
def init : Pipeline I α where
  slots p := if p < 2 then .done else .dummy
  logCnt _ := 0
  logs := ∅
  curQ := 0
  op_ _ := []
  qLock _ := false
  client _ := .idle
  combiner := .idle
  logQueue := []
  doneCountCombiner := 0
  workQueue := []
  worker := .idle
  logDoneCount := 0
  applied := []
  removed := []
  written := []
  dropped := []

/-- The worker has not called `exit`. -/
def running (s : Pipeline I α) : Bool :=
  match s.worker with
  | .exited => false
  | .idle | .applying _ => true

/-- `logIdx`: the slot thread `i` takes on `core`. -/
def logIdx (s : Pipeline I α) (i : I) (core : ℕ) : ℕ := numLogsPerThread * core + s.logCnt i

/-- The log the loop comes to first of those of `logs` with `p`. -/
def nextLog [LinearOrder I] (logs : Finset I) (p : I → Prop) [DecidablePred p] : Option I := (logs.filter p).min

variable [LinearOrder I]

/-- Thread `i`, on `core`, writes `e` in a slot for its split. -/
def split (s : Pipeline I α) (i : I) (core : ℕ) (e : α) : Option (Pipeline I α) :=
  match s.running, s.client i with
  | true, .idle => some { s with
      slots := Function.update s.slots (s.logIdx i core) (.insert e)
      logCnt := Function.update s.logCnt i (if s.logCnt i + 1 = numLogsPerThread then 0 else s.logCnt i + 1)
      written := s.written ++ [(s.logIdx i core, e)]
      client := Function.update s.client i (.logging (s.logIdx i core, e)) }
  | _, _ => none

/-- It writes one for a merge, which is put in no log. The count goes on past the core's last slot. -/
def merge (s : Pipeline I α) (i : I) (core : ℕ) (e : α) : Option (Pipeline I α) :=
  match s.running, s.client i with
  | true, .idle => some { s with
      slots := Function.update s.slots (s.logIdx i core) (.remove e)
      logCnt := Function.update s.logCnt i (s.logCnt i + 1) }
  | _, _ => none

/-- A step of thread `i` in `enqPerThreadLog`. -/
def enqStep (s : Pipeline I α) (i : I) : Option (Pipeline I α) :=
  match s.client i with
  | .idle => none
  | .logging e => some { s with logs := insert i s.logs, client := Function.update s.client i (.reading e) }
  | .reading e => some { s with client := Function.update s.client i (.trying e (Fin.ofNat 2 s.curQ)) }
  | .trying e qnum =>
    if s.qLock (i, qnum) then some { s with client := Function.update s.client i (.reading e) }
    else some { s with
      qLock := Function.update s.qLock (i, qnum) true
      client := Function.update s.client i (.pushing e qnum) }
  | .pushing e qnum => some { s with
      op_ := Function.update s.op_ (i, qnum) (s.op_ (i, qnum) ++ [(e, s.curQ)])
      client := Function.update s.client i (.unlocking qnum) }
  | .unlocking qnum => some { s with
      qLock := Function.update s.qLock (i, qnum) false
      client := Function.update s.client i .idle }

omit [LinearOrder I] in
/-- `logQueue.push` and `broadcastMergedLog`. A push to a queue that is full fails, which the code
does not look at. -/
def broadcast (s : Pipeline I α) (mergedLog : List (Pointer α × ℕ)) : Pipeline I α :=
  { s with
    logQueue := s.logQueue ++ [(s.doneCountCombiner, mergedLog)]
    doneCountCombiner := s.doneCountCombiner + 1
    workQueue :=
      if s.workQueue.length < capacity then s.workQueue ++ [(s.doneCountCombiner, mergedLog)] else s.workQueue
    dropped := if s.workQueue.length < capacity then s.dropped else s.dropped ++ mergedLog }

/-- A step of the combiner in `combineLogs` and `broadcastMergedLog`, `le` being the order of the slots'
addresses. -/
def combineStep (le : Pointer α × ℕ → Pointer α × ℕ → Bool) (s : Pipeline I α) : Option (Pipeline I α) :=
  match s.combiner with
  | .idle => some { s with curQ := s.curQ + 1, combiner := .added }
  | .added => some { s with
      combiner := .locking (Fin.ofNat 2 (s.curQ - 1)) (nextLog s.logs fun _ => True) [] }
  | .locking qnum (some i) mergedLog =>
    if s.qLock (i, qnum) then none
    else some { s with
      qLock := Function.update s.qLock (i, qnum) true
      combiner := .draining qnum i mergedLog }
  | .draining qnum i mergedLog => some { s with
      op_ := Function.update s.op_ (i, qnum) []
      combiner := .unlocking qnum i (mergedLog ++ s.op_ (i, qnum)) }
  | .unlocking qnum i mergedLog => some { s with
      qLock := Function.update s.qLock (i, qnum) false
      combiner := .locking qnum (nextLog s.logs fun j => i < j) mergedLog }
  | .locking _ none mergedLog =>
    let s := { s with combiner := .idle }
    some (if mergedLog.isEmpty then s else s.broadcast (mergedLog.mergeSort le))

omit [LinearOrder I] in
/-- `freeMergedLogs`, for one worker. -/
def freeMergedLogs (s : Pipeline I α) (force : Bool) : Option (Pipeline I α) :=
  match s.combiner with
  | .idle =>
    if !force && s.logQueue.length < 100 then some s
    else some { s with logQueue := s.logQueue.dropWhile fun x => x.1 < s.logDoneCount }
  | .added | .locking .. | .draining .. | .unlocking .. => none

omit [LinearOrder I] in
/-- The worker follows a pointer. -/
def follow (s : Pipeline I α) (x : Pointer α × ℕ) (rest : List (Pointer α × ℕ)) : Pipeline I α :=
  match s.slots x.1.1 with
  | .insert e => { s with
      slots := Function.update s.slots x.1.1 .done
      applied := s.applied ++ [((x.1.1, e), x.2)]
      worker := .applying rest }
  | .remove e => { s with
      slots := Function.update s.slots x.1.1 .done
      removed := s.removed ++ [e]
      worker := .applying rest }
  | .dummy | .done => { s with worker := .exited }

omit [LinearOrder I] in
/-- A step of the worker in `applyOperation`. -/
def workStep (s : Pipeline I α) : Option (Pipeline I α) :=
  match s.worker, s.workQueue with
  | .idle, (_, oplog) :: _ => some { s with worker := .applying oplog }
  | .applying (x :: rest), _ => some (s.follow x rest)
  | .applying [], _ =>
    some { s with workQueue := s.workQueue.tail, logDoneCount := s.logDoneCount + 1, worker := .idle }
  | .idle, [] | .exited, _ => none

/-- One step of one of them. -/
def step (le : Pointer α × ℕ → Pointer α × ℕ → Bool) (s : Pipeline I α) (a : Act I) : Option (Pipeline I α) :=
  if s.running then
    match a with
    | .enq i => s.enqStep i
    | .combine => s.combineStep le
    | .free force => s.freeMergedLogs force
    | .work => s.workStep
  else none

end Pipeline

/-! ### Locks -/

/-- The thread has the lock of the queue. -/
def Client.has : Client α → Fin 2 → Prop
  | pushing _ qnum, q | unlocking qnum, q => qnum = q
  | idle, _ | logging _, _ | reading _, _ | trying _ _, _ => False

/-- The combiner has the lock of the queue of the log. -/
def Combiner.has : Combiner I α → I × Fin 2 → Prop
  | draining qnum i _, x | unlocking qnum i _, x => (i, qnum) = x
  | idle, _ | added, _ | locking .., _ => False

/-- The queue it empties. -/
def Combiner.turn : Combiner I α → Option (Fin 2)
  | locking qnum _ _ | draining qnum _ _ | unlocking qnum _ _ => some qnum
  | idle | added => none

namespace Pipeline

variable {s s' : Pipeline I α} {le : Pointer α × ℕ → Pointer α × ℕ → Bool}

/-- Who has which lock. -/
structure Locks (s : Pipeline I α) : Prop where
  /-- A lock is held by the thread or the combiner. -/
  held : ∀ x, s.qLock x = true ↔ (s.client x.1).has x.2 ∨ s.combiner.has x
  /-- Not by both. -/
  apart : ∀ x, (s.client x.1).has x.2 → ¬ s.combiner.has x
  /-- The combiner empties the queue the threads are leaving. -/
  turn : ∀ qnum, s.combiner.turn = some qnum → qnum = Fin.ofNat 2 (s.curQ - 1)

theorem Locks.congr (h : s.Locks) (hlock : s'.qLock = s.qLock) (hclient : s'.client = s.client)
    (hcombiner : s'.combiner = s.combiner) (hcurQ : s'.curQ = s.curQ) : s'.Locks := by
  obtain ⟨held, apart, turn⟩ := h
  exact ⟨by rwa [hlock, hclient, hcombiner], by rwa [hclient, hcombiner], by rwa [hcombiner, hcurQ]⟩

variable [LinearOrder I]

/-- Thread `i` goes to `c`, and may take or give back locks of its own log. -/
theorem Locks.enq (h : s.Locks) {i : I} (c : Client α) (hclient : s'.client = Function.update s.client i c)
    (hcombiner : s'.combiner = s.combiner) (hcurQ : s'.curQ = s.curQ)
    (hother : ∀ x : I × Fin 2, x.1 ≠ i → s'.qLock x = s.qLock x)
    (hself : ∀ q, s'.qLock (i, q) = true ↔ c.has q ∨ s.combiner.has (i, q))
    (hapart : ∀ q, c.has q → ¬ s.combiner.has (i, q)) : s'.Locks where
  held x := by
    obtain ⟨j, q⟩ := x
    rw [hclient, hcombiner]
    by_cases hj : j = i
    · subst hj
      rw [Function.update_self]
      exact hself q
    · rw [Function.update_of_ne hj, hother (j, q) hj]
      exact h.held (j, q)
  apart x := by
    obtain ⟨j, q⟩ := x
    rw [hclient, hcombiner]
    by_cases hj : j = i
    · subst hj
      rw [Function.update_self]
      exact hapart q
    · rw [Function.update_of_ne hj]
      exact h.apart (j, q)
  turn := by
    rw [hcombiner, hcurQ]
    exact h.turn

/-- It goes to where it has the same locks. -/
theorem Locks.enq_same (h : s.Locks) {i : I} (c : Client α) (hclient : s'.client = Function.update s.client i c)
    (hcombiner : s'.combiner = s.combiner) (hcurQ : s'.curQ = s.curQ) (hlock : s'.qLock = s.qLock)
    (hsame : ∀ q, c.has q ↔ (s.client i).has q) : s'.Locks :=
  h.enq c hclient hcombiner hcurQ (fun x _ => by rw [hlock])
    (fun q => by rw [hlock, hsame]; exact h.held (i, q)) fun q hq => h.apart (i, q) ((hsame q).mp hq)

theorem split_eq {i : I} {core : ℕ} {e : α} (hs : s.split i core e = some s') :
    s.client i = .idle ∧ s' = { s with
      slots := Function.update s.slots (s.logIdx i core) (.insert e)
      logCnt := Function.update s.logCnt i (if s.logCnt i + 1 = numLogsPerThread then 0 else s.logCnt i + 1)
      written := s.written ++ [(s.logIdx i core, e)]
      client := Function.update s.client i (.logging (s.logIdx i core, e)) } := by
  rw [split] at hs
  split at hs
  · next hc => exact ⟨hc, (Option.some.inj hs).symm⟩
  · cases hs

theorem merge_eq {i : I} {core : ℕ} {e : α} (hs : s.merge i core e = some s') :
    s' = { s with
      slots := Function.update s.slots (s.logIdx i core) (.remove e)
      logCnt := Function.update s.logCnt i (s.logCnt i + 1) } := by
  rw [merge] at hs
  split at hs
  · exact (Option.some.inj hs).symm
  · cases hs

theorem split_locks (h : s.Locks) {i : I} {core : ℕ} {e : α} (hs : s.split i core e = some s') : s'.Locks := by
  obtain ⟨hc, rfl⟩ := split_eq hs
  exact h.enq_same (.logging _) rfl rfl rfl rfl fun q => by rw [hc]; rfl

theorem enqStep_locks (h : s.Locks) {i : I} (hs : s.enqStep i = some s') : s'.Locks := by
  rw [enqStep] at hs
  cases hc : s.client i with
  | idle =>
    rw [hc] at hs
    cases hs
  | logging e =>
    rw [hc] at hs
    obtain rfl := Option.some.inj hs
    exact h.enq_same (.reading e) rfl rfl rfl rfl fun q => by rw [hc]; rfl
  | reading e =>
    rw [hc] at hs
    obtain rfl := Option.some.inj hs
    exact h.enq_same _ rfl rfl rfl rfl fun q => by rw [hc]; rfl
  | trying e qnum =>
    rw [hc] at hs
    dsimp only at hs
    split_ifs at hs with hlock
    · obtain rfl := Option.some.inj hs
      exact h.enq_same (.reading e) rfl rfl rfl rfl fun q => by rw [hc]; rfl
    · -- the lock was free
      obtain rfl := Option.some.inj hs
      have hfree : ¬ s.combiner.has (i, qnum) := fun hb => hlock ((h.held (i, qnum)).mpr (.inr hb))
      refine h.enq (.pushing e qnum) rfl rfl rfl (fun x hx => ?_) (fun q => ?_) fun q hq => ?_
      · exact Function.update_of_ne (fun e => hx (congrArg Prod.fst e)) _ _
      · by_cases hq : qnum = q
        · subst hq
          exact iff_of_true (Function.update_self ..) (.inl rfl)
        · have hne : (i, q) ≠ (i, qnum) := fun e => hq (congrArg Prod.snd e).symm
          have hold := h.held (i, q)
          rw [hc] at hold
          dsimp only
          rw [Function.update_of_ne hne, hold]
          exact or_congr_left (iff_of_false id hq)
      · obtain rfl : qnum = q := hq
        exact hfree
  | pushing e qnum =>
    rw [hc] at hs
    obtain rfl := Option.some.inj hs
    exact h.enq_same (.unlocking qnum) rfl rfl rfl rfl fun q => by rw [hc]; rfl
  | unlocking qnum =>
    rw [hc] at hs
    obtain rfl := Option.some.inj hs
    have hfree : ¬ s.combiner.has (i, qnum) := h.apart (i, qnum) (by rw [hc]; rfl)
    refine h.enq .idle rfl rfl rfl (fun x hx => ?_) (fun q => ?_) fun q hq => hq.elim
    · exact Function.update_of_ne (fun e => hx (congrArg Prod.fst e)) _ _
    · by_cases hq : qnum = q
      · subst hq
        dsimp only
        rw [Function.update_self]
        exact iff_of_false Bool.false_ne_true fun hf => hf.elim id hfree
      · have hne : (i, q) ≠ (i, qnum) := fun e => hq (congrArg Prod.snd e).symm
        have hold := h.held (i, q)
        rw [hc] at hold
        dsimp only
        rw [Function.update_of_ne hne, hold]
        exact or_congr_left (iff_of_false hq id)

theorem combineStep_locks (h : s.Locks) (hs : s.combineStep le = some s') : s'.Locks := by
  rw [combineStep] at hs
  have held := h.held
  have apart := h.apart
  have turn := h.turn
  cases hb : s.combiner with
  | idle =>
    simp only [hb, Option.some.injEq] at hs held apart
    subst hs
    exact ⟨held, apart, fun q hq => by cases hq⟩
  | added =>
    simp only [hb, Option.some.injEq] at hs held apart
    subst hs
    exact ⟨held, apart, fun q hq => (Option.some.inj hq).symm⟩
  | locking qnum i mergedLog =>
    rw [hb] at turn held apart
    cases i with
    | none =>
      simp only [hb, Option.some.injEq] at hs
      have hidle : ({ s with combiner := .idle } : Pipeline I α).Locks :=
        ⟨held, apart, fun q hq => by cases hq⟩
      subst hs
      split_ifs
      · exact hidle
      · exact hidle.congr rfl rfl rfl rfl
    | some i =>
      simp only [hb] at hs
      split_ifs at hs with hlock
      obtain rfl := Option.some.inj hs
      have hnot : ¬ (s.client i).has qnum := fun hq => hlock ((h.held (i, qnum)).mpr (.inl hq))
      refine ⟨fun x => ?_, fun x hx hb => ?_, turn⟩
      · by_cases hx : (i, qnum) = x
        · subst hx
          exact iff_of_true (Function.update_self ..) (.inr rfl)
        · dsimp only
          rw [Function.update_of_ne (Ne.symm hx), held]
          exact or_congr_right (iff_of_false id hx)
      · obtain rfl : (i, qnum) = x := hb
        exact hnot hx
  | draining qnum i mergedLog =>
    simp only [hb, Option.some.injEq] at hs held apart turn
    subst hs
    exact ⟨held, apart, turn⟩
  | unlocking qnum i mergedLog =>
    simp only [hb, Option.some.injEq] at hs held apart turn
    subst hs
    refine ⟨fun x => ?_, fun x _ hf => hf.elim, turn⟩
    by_cases hx : (i, qnum) = x
    · subst hx
      dsimp only
      rw [Function.update_self]
      exact iff_of_false Bool.false_ne_true fun hf => hf.elim (fun hc => apart _ hc rfl) id
    · dsimp only
      rw [Function.update_of_ne (Ne.symm hx), held]
      exact or_congr_right (iff_of_false hx id)

omit [LinearOrder I] in
/-- Freeing merged logs changes only which are left. -/
theorem freeMergedLogs_eq {force : Bool} (hs : s.freeMergedLogs force = some s') :
    ∃ logQueue, s' = { s with logQueue := logQueue } ∧
      (logQueue = s.logQueue ∨ logQueue = s.logQueue.dropWhile fun x => x.1 < s.logDoneCount) := by
  rw [freeMergedLogs] at hs
  split at hs
  · split_ifs at hs
    · exact ⟨_, (Option.some.inj hs).symm, .inl rfl⟩
    · exact ⟨_, (Option.some.inj hs).symm, .inr rfl⟩
  all_goals cases hs

omit [LinearOrder I] in
theorem follow_locks (h : s.Locks) (x : Pointer α × ℕ) (rest : List (Pointer α × ℕ)) : (s.follow x rest).Locks := by
  rw [follow]
  split <;> exact h.congr rfl rfl rfl rfl

omit [LinearOrder I] in
theorem workStep_locks (h : s.Locks) (hs : s.workStep = some s') : s'.Locks := by
  rw [workStep] at hs
  split at hs
  case h_2 =>
    obtain rfl := Option.some.inj hs
    exact follow_locks h _ _
  case h_4 | h_5 => cases hs
  all_goals
    obtain rfl := Option.some.inj hs
    exact h.congr rfl rfl rfl rfl

end Pipeline

/-! ### How long an entry waits -/

/-- The combiner comes to log `j` in this turn, if that is in the set. -/
def Combiner.pending [LinearOrder I] : Combiner I α → I → Prop
  | idle, _ => False
  | added, _ => True
  | locking _ i _, j => ∃ k, i = some k ∧ k ≤ j
  | draining _ i _, j => i ≤ j
  | unlocking _ i _, j => i < j

/-- The thread has been through `getOpLog`. -/
def Client.hasLog : Client α → Prop
  | idle | logging _ => False
  | reading _ | trying .. | pushing .. | unlocking _ => True

namespace Pipeline

variable [LinearOrder I] {s s' : Pipeline I α} {le : Pointer α × ℕ → Pointer α × ℕ → Bool}

/-- A pointer put in queue `x` when `curQ` was `b`: two turns later it is in the queue being emptied, and
its log is still to come. -/
structure Waits (s : Pipeline I α) (x : I × Fin 2) (b : ℕ) : Prop where
  le : b ≤ s.curQ
  recent : s.curQ ≤ b + 2
  /-- In the second turn its queue is the one being emptied. -/
  second : s.curQ = b + 2 → x.2 = Fin.ofNat 2 (b + 1) ∧ s.combiner.pending x.1
  /-- In the first it may be. -/
  first : s.curQ = b + 1 → x.2 = Fin.ofNat 2 b → s.combiner.pending x.1

/-- All that is in the logs. -/
structure Fresh (s : Pipeline I α) : Prop where
  waits : ∀ x, ∀ e ∈ s.op_ x, s.Waits x e.2
  /-- The set has every log with something in it. -/
  logged : ∀ x, s.op_ x ≠ [] → x.1 ∈ s.logs
  /-- And those of threads that may put something in. -/
  made : ∀ i, (s.client i).hasLog → i ∈ s.logs

/-- A queue is one of the two. -/
theorem other_queue {q : Fin 2} {b : ℕ} (h : q ≠ Fin.ofNat 2 b) : q = Fin.ofNat 2 (b + 1) := by
  have hq : q.val ≠ b % 2 := fun e => h (Fin.ext e)
  refine Fin.ext ?_
  change q.val = (b + 1) % 2
  omega

/-- The loop comes to every log that `p` says. -/
theorem nextLog_le {logs : Finset I} {p : I → Prop} [DecidablePred p] {j : I} (hj : j ∈ logs) (hp : p j) :
    ∃ k, nextLog logs p = some k ∧ k ≤ j := by
  have hmem : j ∈ logs.filter p := Finset.mem_filter.mpr ⟨hj, hp⟩
  obtain ⟨k, hk⟩ := Finset.min_of_mem hmem
  exact ⟨k, hk, Finset.min_le_of_eq hmem hk⟩

/-- Where `curQ` stays, a pointer waits on, unless its turn has come. -/
theorem Waits.of_pending {x : I × Fin 2} {b : ℕ} (h : s.Waits x b) (hcurQ : s'.curQ = s.curQ)
    (hpending : s.combiner.pending x.1 → s'.combiner.pending x.1) : s'.Waits x b := by
  refine ⟨hcurQ ▸ h.le, hcurQ ▸ h.recent, fun hb => ?_, fun hb hx => hpending (h.first (hcurQ ▸ hb) hx)⟩
  obtain ⟨hx, hp⟩ := h.second (hcurQ ▸ hb)
  exact ⟨hx, hpending hp⟩

/-- A pointer in a queue that is not the one emptied in this turn. -/
theorem Waits.other {x : I × Fin 2} {b : ℕ} (h : s.Waits x b) (hcurQ : s'.curQ = s.curQ)
    (hne : x.2 ≠ Fin.ofNat 2 (s.curQ - 1)) : s'.Waits x b := by
  refine ⟨hcurQ ▸ h.le, hcurQ ▸ h.recent, fun hb => ?_, fun hb hx => ?_⟩
  · rw [hcurQ] at hb
    exact absurd (h.second hb).1 (by rwa [hb] at hne)
  · rw [hcurQ] at hb
    exact absurd hx (by rwa [hb] at hne)

/-- The logs are not what it changed. -/
theorem Fresh.congr (h : s.Fresh) (hop : s'.op_ = s.op_) (hlogs : s'.logs = s.logs) (hclient : s'.client = s.client)
    (hcombiner : s'.combiner = s.combiner) (hcurQ : s'.curQ = s.curQ) : s'.Fresh where
  waits x e he := (h.waits x e (hop ▸ he)).of_pending hcurQ (by rw [hcombiner]; exact id)
  logged x hx := hlogs ▸ h.logged x (hop ▸ hx)
  made i hi := hlogs ▸ h.made i (hclient ▸ hi)

/-- Thread `i` goes to `c`, and its log is in the set if it may put something in there. -/
theorem Fresh.client (h : s.Fresh) {i : I} (c : Client α) (hop : s'.op_ = s.op_)
    (hclient : s'.client = Function.update s.client i c) (hcombiner : s'.combiner = s.combiner)
    (hcurQ : s'.curQ = s.curQ) (hlogs : s.logs ⊆ s'.logs) (hmade : c.hasLog → i ∈ s'.logs) : s'.Fresh where
  waits x e he := (h.waits x e (hop ▸ he)).of_pending hcurQ (by rw [hcombiner]; exact id)
  logged x hx := hlogs (h.logged x (hop ▸ hx))
  made j hj := by
    rw [hclient] at hj
    by_cases hji : j = i
    · subst hji
      rw [Function.update_self] at hj
      exact hmade hj
    · rw [Function.update_of_ne hji] at hj
      exact hlogs (h.made j hj)

theorem split_fresh (h : s.Fresh) {i : I} {core : ℕ} {e : α} (hs : s.split i core e = some s') : s'.Fresh := by
  obtain ⟨-, rfl⟩ := split_eq hs
  exact h.client (.logging _) rfl rfl rfl rfl (Finset.Subset.refl _) fun hf => hf.elim

theorem enqStep_fresh (h : s.Fresh) {i : I} (hs : s.enqStep i = some s') : s'.Fresh := by
  have hmade := h.made i
  rw [enqStep] at hs
  cases hc : s.client i with
  | idle =>
    rw [hc] at hs
    cases hs
  | logging e =>
    rw [hc] at hs
    obtain rfl := Option.some.inj hs
    exact h.client (.reading e) rfl rfl rfl rfl (Finset.subset_insert _ _) fun _ => Finset.mem_insert_self _ _
  | reading e =>
    rw [hc] at hs hmade
    obtain rfl := Option.some.inj hs
    exact h.client (.trying e _) rfl rfl rfl rfl (Finset.Subset.refl _) hmade
  | trying e qnum =>
    rw [hc] at hs hmade
    dsimp only at hs
    split_ifs at hs
    · obtain rfl := Option.some.inj hs
      exact h.client (.reading e) rfl rfl rfl rfl (Finset.Subset.refl _) hmade
    · obtain rfl := Option.some.inj hs
      exact h.client (.pushing e qnum) rfl rfl rfl rfl (Finset.Subset.refl _) hmade
  | pushing e qnum =>
    rw [hc] at hs hmade
    obtain rfl := Option.some.inj hs
    have hclient : ({ s with client := Function.update s.client i (.unlocking qnum) } : Pipeline I α).Fresh :=
      h.client (.unlocking qnum) rfl rfl rfl rfl (Finset.Subset.refl _) hmade
    refine ⟨fun x f hf => ?_, fun x hx => ?_, hclient.made⟩
    · dsimp only at hf
      by_cases hx : x = (i, qnum)
      · subst hx
        rw [Function.update_self] at hf
        rcases List.mem_append.mp hf with hf | hf
        · exact (h.waits _ f hf).of_pending rfl id
        · obtain rfl := List.mem_singleton.mp hf
          exact ⟨le_rfl, Nat.le_add_right _ 2, fun hb => by dsimp only at hb; omega,
            fun hb => by dsimp only at hb; omega⟩
      · rw [Function.update_of_ne hx] at hf
        exact (h.waits x f hf).of_pending rfl id
    · dsimp only at hx
      by_cases hxi : x = (i, qnum)
      · rw [hxi]
        exact hmade trivial
      · rw [Function.update_of_ne hxi] at hx
        exact h.logged x hx
  | unlocking qnum =>
    rw [hc] at hs
    obtain rfl := Option.some.inj hs
    exact h.client .idle rfl rfl rfl rfl (Finset.Subset.refl _) fun hf => hf.elim

/-- The log the combiner has emptied. -/
theorem drain_fresh (hlocks : s.Locks) (h : s.Fresh) {qnum : Fin 2} {i : I} {mergedLog : List (Pointer α × ℕ)}
    (hb : s.combiner = .draining qnum i mergedLog) :
    ({ s with
      op_ := Function.update s.op_ (i, qnum) []
      combiner := .unlocking qnum i (mergedLog ++ s.op_ (i, qnum)) } : Pipeline I α).Fresh := by
  obtain ⟨waits, logged, made⟩ := h
  have hturn := hlocks.turn qnum (by rw [hb]; rfl)
  refine ⟨fun x f hf => ?_, fun x hx => ?_, made⟩
  · dsimp only at hf
    by_cases hx : x = (i, qnum)
    · rw [hx, Function.update_self] at hf
      cases hf
    · rw [Function.update_of_ne hx] at hf
      -- the same queue of another log, or a queue that is not emptied in this turn
      by_cases hq : x.2 = qnum
      · refine (waits x f hf).of_pending rfl fun hp => ?_
        rw [hb] at hp
        exact lt_of_le_of_ne hp fun hi => hx (Prod.ext hi.symm hq)
      · exact (waits x f hf).other rfl (hturn ▸ hq)
  · dsimp only at hx
    by_cases hxi : x = (i, qnum)
    · rw [hxi, Function.update_self] at hx
      exact absurd rfl hx
    · rw [Function.update_of_ne hxi] at hx
      exact logged x hx

theorem combineStep_fresh (hlocks : s.Locks) (h : s.Fresh) (hs : s.combineStep le = some s') : s'.Fresh := by
  obtain ⟨waits, logged, made⟩ := h
  rw [combineStep] at hs
  cases hb : s.combiner with
  | idle =>
    simp only [hb, Option.some.injEq] at hs
    subst hs
    refine ⟨fun x f hf => ?_, logged, made⟩
    obtain ⟨hle, hrecent, hsecond, hfirst⟩ := waits x f hf
    rw [hb] at hsecond hfirst
    refine ⟨Nat.le_succ_of_le hle, ?_, fun hb => ⟨?_, trivial⟩, fun _ _ => trivial⟩
    · rcases hrecent.lt_or_eq with hlt | heq
      · exact hlt
      · exact (hsecond heq).2.elim
    · have heq : s.curQ = f.2 + 1 := by dsimp only at hb; omega
      exact other_queue fun hx => hfirst heq hx
  | added =>
    simp only [hb, Option.some.injEq] at hs
    subst hs
    exact ⟨fun x f hf => (waits x f hf).of_pending rfl fun _ =>
      nextLog_le (logged x (List.ne_nil_of_mem hf)) trivial, logged, made⟩
  | locking qnum i mergedLog =>
    cases i with
    | none =>
      have hdone : ∀ j, ¬ s.combiner.pending j := fun j hp => by
        rw [hb] at hp
        obtain ⟨k, hk, -⟩ := hp
        cases hk
      simp only [hb, Option.some.injEq] at hs
      have hidle : ({ s with combiner := .idle } : Pipeline I α).Fresh :=
        ⟨fun x f hf => (waits x f hf).of_pending rfl fun hp => absurd hp (hdone x.1), logged, made⟩
      subst hs
      split_ifs
      · exact hidle
      · exact hidle.congr rfl rfl rfl rfl rfl
    | some i =>
      simp only [hb] at hs
      split_ifs at hs with hlock
      obtain rfl := Option.some.inj hs
      refine ⟨fun x f hf => (waits x f hf).of_pending rfl fun hp => ?_, logged, made⟩
      rw [hb] at hp
      obtain ⟨k, hk, hle⟩ := hp
      obtain rfl := Option.some.inj hk
      exact hle
  | draining qnum i mergedLog =>
    simp only [hb, Option.some.injEq] at hs
    subst hs
    exact drain_fresh hlocks ⟨waits, logged, made⟩ hb
  | unlocking qnum i mergedLog =>
    simp only [hb, Option.some.injEq] at hs
    subst hs
    refine ⟨fun x f hf => (waits x f hf).of_pending rfl fun hp => ?_, logged, made⟩
    rw [hb] at hp
    exact nextLog_le (logged x (List.ne_nil_of_mem hf)) hp

theorem follow_fresh (h : s.Fresh) (x : Pointer α × ℕ) (rest : List (Pointer α × ℕ)) : (s.follow x rest).Fresh := by
  rw [follow]
  split <;> exact h.congr rfl rfl rfl rfl rfl

theorem workStep_fresh (h : s.Fresh) (hs : s.workStep = some s') : s'.Fresh := by
  rw [workStep] at hs
  split at hs
  case h_2 =>
    obtain rfl := Option.some.inj hs
    exact follow_fresh h _ _
  case h_4 | h_5 => cases hs
  all_goals
    obtain rfl := Option.some.inj hs
    exact h.congr rfl rfl rfl rfl rfl

end Pipeline

end SidleBaselines.Pactree
