import SidleBaselines.Pactree.Oplog

/-!
# What becomes of the entries

The entry of a split is in its slot, and one pointer to it goes from the thread to its log, to the combiner
and to the worker, who reads the slot and marks it done. If no slot is written while there is a pointer to
it on its way, the worker finds in every slot what the split has written there.

## What is proved

* `Pipeline.Carried` — there is one pointer to a slot, and the slot holds what was written; kept by every step.
* `Pipeline.Kept` — the merged logs the worker has been given are there, in order; kept by every step.
* `oplog_delivers` — in every state of every run, each entry written is in one place: with the thread, in a
  log, in the combiner's hands, with the worker, applied, or, the worker's queue having been full, dropped;
  the worker has not met a slot that is done; none waits in a log for more than two turns; no log is filled
  while it is emptied; and what the worker has yet to read has not been freed.
-/

namespace SidleBaselines.Pactree

variable {I α : Type}

/-- What the combiner has taken from the logs. -/
def Combiner.mergedLog : Combiner I α → List (Pointer α × ℕ)
  | idle | added => []
  | locking _ _ mergedLog | draining _ _ mergedLog | unlocking _ _ mergedLog => mergedLog

/-- What the worker has still to follow of the logs it has been given. -/
def Worker.unread : Worker α → List (ℕ × List (Pointer α × ℕ)) → List (Pointer α × ℕ)
  | idle, workQueue | exited, workQueue => workQueue.flatMap Prod.snd
  | applying rest, workQueue => rest ++ workQueue.tail.flatMap Prod.snd

/-- The pointer a thread has yet to put in its log. -/
def Client.entry : Client α → Multiset (Pointer α)
  | idle | unlocking _ => 0
  | logging e | reading e | trying e _ | pushing e _ => {e}

/-- The pointers in a log. -/
def pointers (l : List (Pointer α × ℕ)) : Multiset (Pointer α) := l.map Prod.fst

@[simp] theorem pointers_nil : pointers ([] : List (Pointer α × ℕ)) = 0 := rfl

@[simp] theorem pointers_cons (x : Pointer α × ℕ) (l : List (Pointer α × ℕ)) :
    pointers (x :: l) = {x.1} + pointers l := rfl

@[simp] theorem pointers_append (l l' : List (Pointer α × ℕ)) : pointers (l ++ l') = pointers l + pointers l' := by
  rw [pointers, List.map_append, ← Multiset.coe_add]
  rfl

theorem pointers_perm {l l' : List (Pointer α × ℕ)} (h : l.Perm l') : pointers l = pointers l' :=
  Multiset.coe_eq_coe.mpr (h.map Prod.fst)

namespace Pipeline

/-! ### Merged logs and their numbers -/

variable {s s' : Pipeline I α} {le : Pointer α × ℕ → Pointer α × ℕ → Bool}

/-- The merged logs the worker has been given. -/
structure Kept (s : Pipeline I α) : Prop where
  /-- Their numbers ascend. -/
  ascending : s.workQueue.Pairwise fun x y => x.1 < y.1
  /-- The worker has not counted them yet, and they have not been freed. -/
  unfreed : ∀ x ∈ s.workQueue, s.logDoneCount ≤ x.1 ∧ x.1 < s.doneCountCombiner ∧ x ∈ s.logQueue
  /-- It works on the first. -/
  working : ∀ rest, s.worker = .applying rest → s.workQueue ≠ []
  /-- There are no more than were made. -/
  room : s.workQueue.length + s.logDoneCount ≤ s.doneCountCombiner
  /-- None has been dropped before the queue was full. -/
  full : s.doneCountCombiner ≤ capacity → s.dropped = []

/-- The merged logs are not what it changed. -/
theorem Kept.congr (h : s.Kept) (hlog : s'.logQueue = s.logQueue) (hdone : s'.doneCountCombiner = s.doneCountCombiner)
    (hwork : s'.workQueue = s.workQueue) (hcount : s'.logDoneCount = s.logDoneCount) (hdropped : s'.dropped = s.dropped)
    (hworker : ∀ rest, s'.worker = .applying rest → ∃ rest, s.worker = .applying rest) : s'.Kept := by
  obtain ⟨ascending, unfreed, working, room, full⟩ := h
  constructor
  · rwa [hwork]
  · rwa [hlog, hdone, hwork, hcount]
  · rw [hwork]
    intro rest hrest
    obtain ⟨rest, hrest⟩ := hworker rest hrest
    exact working rest hrest
  · rwa [hdone, hwork, hcount]
  · rwa [hdone, hdropped]

theorem broadcast_kept (h : s.Kept) (mergedLog : List (Pointer α × ℕ)) : (s.broadcast mergedLog).Kept := by
  obtain ⟨ascending, unfreed, working, room, full⟩ := h
  by_cases hlt : s.workQueue.length < capacity
  · have heq : s.broadcast mergedLog = { s with
        logQueue := s.logQueue ++ [(s.doneCountCombiner, mergedLog)]
        doneCountCombiner := s.doneCountCombiner + 1
        workQueue := s.workQueue ++ [(s.doneCountCombiner, mergedLog)] } := by
      rw [broadcast, if_pos hlt, if_pos hlt]
    rw [heq]
    refine ⟨?_, fun x hx => ?_, fun rest hr => List.append_ne_nil_of_right_ne_nil _ (List.cons_ne_nil _ _), ?_,
      fun hle => full (by dsimp only at hle; omega)⟩
    · refine List.pairwise_append.mpr ⟨ascending, List.pairwise_singleton _ _, fun x hx y hy => ?_⟩
      obtain rfl := List.mem_singleton.mp hy
      exact (unfreed x hx).2.1
    · rcases List.mem_append.mp hx with hx | hx
      · obtain ⟨hdone, hnumber, hmem⟩ := unfreed x hx
        exact ⟨hdone, Nat.lt_succ_of_lt hnumber, List.mem_append_left _ hmem⟩
      · obtain rfl := List.mem_singleton.mp hx
        exact ⟨by dsimp only; omega, Nat.lt_succ_self _, List.mem_append_right _ List.mem_cons_self⟩
    · dsimp only
      rw [List.length_append, List.length_singleton]
      omega
  · have heq : s.broadcast mergedLog = { s with
        logQueue := s.logQueue ++ [(s.doneCountCombiner, mergedLog)]
        doneCountCombiner := s.doneCountCombiner + 1
        dropped := s.dropped ++ mergedLog } := by
      rw [broadcast, if_neg hlt, if_neg hlt]
    rw [heq]
    refine ⟨ascending, fun x hx => ?_, working, by dsimp only; omega, fun hle => ?_⟩
    · obtain ⟨hdone, hnumber, hmem⟩ := unfreed x hx
      exact ⟨hdone, Nat.lt_succ_of_lt hnumber, List.mem_append_left _ hmem⟩
    · dsimp only at hle
      omega

theorem mem_dropWhile {β : Type} {p : β → Bool} {l : List β} {x : β} (hx : x ∈ l) (hp : p x = false) :
    x ∈ l.dropWhile p := by
  rw [← List.takeWhile_append_dropWhile (p := p) (l := l)] at hx
  rcases List.mem_append.mp hx with hx | hx
  · rw [List.mem_takeWhile_imp hx] at hp
    cases hp
  · exact hx

theorem freeMergedLogs_kept (h : s.Kept) {force : Bool} (hs : s.freeMergedLogs force = some s') : s'.Kept := by
  obtain ⟨ascending, unfreed, working, room, full⟩ := h
  obtain ⟨logQueue, rfl, rfl | rfl⟩ := freeMergedLogs_eq hs
  · exact ⟨ascending, unfreed, working, room, full⟩
  · refine ⟨ascending, fun x hx => ?_, working, room, full⟩
    obtain ⟨hdone, hnumber, hmem⟩ := unfreed x hx
    exact ⟨hdone, hnumber, mem_dropWhile hmem (by simpa using hdone)⟩

theorem follow_kept (h : s.Kept) {x : Pointer α × ℕ} {rest : List (Pointer α × ℕ)}
    (hw : s.worker = .applying (x :: rest)) : (s.follow x rest).Kept := by
  rw [follow]
  split
  all_goals exact h.congr rfl rfl rfl rfl rfl fun _ _ => ⟨_, hw⟩

theorem workStep_kept (h : s.Kept) (hs : s.workStep = some s') : s'.Kept := by
  obtain ⟨ascending, unfreed, working, room, full⟩ := h
  cases hw : s.worker with
  | idle =>
    cases hq : s.workQueue with
    | nil => simp [workStep, hw, hq] at hs
    | cons x rest =>
      simp only [workStep, hw, hq, Option.some.injEq] at hs
      subst hs
      rw [hq] at ascending unfreed room
      exact ⟨ascending, unfreed, fun _ _ => List.cons_ne_nil _ _, room, full⟩
  | exited => simp [workStep, hw] at hs
  | applying rest =>
    cases rest with
    | cons x rest =>
      simp only [workStep, hw, Option.some.injEq] at hs
      subst hs
      exact follow_kept ⟨ascending, unfreed, working, room, full⟩ hw
    | nil =>
      simp only [workStep, hw, Option.some.injEq] at hs
      subst hs
      obtain ⟨x, queue, hq⟩ := List.exists_cons_of_ne_nil (working _ hw)
      rw [hq] at ascending unfreed room
      obtain ⟨hhead, htail⟩ := List.pairwise_cons.mp ascending
      refine ⟨by rw [hq]; exact htail, fun y hy => ?_, fun _ hr => (by cases hr), ?_, full⟩
      · rw [hq] at hy
        obtain ⟨-, hnumber, hmem⟩ := unfreed y (.tail _ hy)
        have hx := (unfreed x List.mem_cons_self).1
        exact ⟨(Nat.succ_le_of_lt (hx.trans_lt (hhead y hy))), hnumber, hmem⟩
      · rw [List.length_cons] at room
        dsimp only
        rw [hq, List.tail_cons]
        omega

variable [LinearOrder I]

theorem enqStep_kept (h : s.Kept) {i : I} (hs : s.enqStep i = some s') : s'.Kept := by
  rw [enqStep] at hs
  split at hs
  case h_1 => cases hs
  case h_4 =>
    split_ifs at hs <;> obtain rfl := Option.some.inj hs <;>
      exact h.congr rfl rfl rfl rfl rfl fun rest hrest => ⟨rest, hrest⟩
  all_goals
    obtain rfl := Option.some.inj hs
    exact h.congr rfl rfl rfl rfl rfl fun rest hrest => ⟨rest, hrest⟩

theorem combineStep_kept (h : s.Kept) (hs : s.combineStep le = some s') : s'.Kept := by
  have same (c : Combiner I α) : ({ s with combiner := c } : Pipeline I α).Kept :=
    h.congr rfl rfl rfl rfl rfl fun rest hrest => ⟨rest, hrest⟩
  rw [combineStep] at hs
  split at hs
  case h_6 =>
    obtain rfl := Option.some.inj hs
    split_ifs
    · exact same .idle
    · exact broadcast_kept (same .idle) _
  case h_3 =>
    split_ifs at hs
    obtain rfl := Option.some.inj hs
    exact h.congr rfl rfl rfl rfl rfl fun rest hrest => ⟨rest, hrest⟩
  all_goals
    obtain rfl := Option.some.inj hs
    exact h.congr rfl rfl rfl rfl rfl fun rest hrest => ⟨rest, hrest⟩

/-! ### One pointer to a slot -/

section
variable [Fintype I]

/-- The pointers on their way to the worker, who is to follow them: with the threads, in the logs, in the
combiner's hands, and in the merged logs that the worker has been given. -/
def onWay (s : Pipeline I α) : Multiset (Pointer α) :=
  (∑ i, (s.client i).entry) + (∑ x, pointers (s.op_ x)) + pointers s.combiner.mergedLog +
    pointers (s.worker.unread s.workQueue)

/-- No pointer to the slot is on its way. -/
def Free (s : Pipeline I α) (p : ℕ) : Prop := ∀ e ∈ s.onWay, e.1 ≠ p

/-- There is one pointer to a slot that the worker has to read, which holds what a split has written. -/
structure Carried (s : Pipeline I α) : Prop where
  one : (s.onWay.map Prod.fst).Nodup
  holds : ∀ e ∈ s.onWay, s.slots e.1 = .insert e.2
  /-- Each entry that was written is on its way, has been applied, or was dropped. -/
  placed : (s.written : Multiset (Pointer α)) = s.onWay + pointers s.applied + pointers s.dropped
  running : s.running = true
  /-- The worker has met none that a merge wrote. -/
  inserts : s.removed = []

omit [LinearOrder I] in
/-- Some of what was on its way is dropped, or nothing. -/
theorem Carried.drop (h : s.Carried) (m : List (Pointer α × ℕ)) (hway : s.onWay = s'.onWay + pointers m)
    (hslots : s'.slots = s.slots) (hwritten : s'.written = s.written) (happlied : s'.applied = s.applied)
    (hdropped : s'.dropped = s.dropped ++ m) (hrunning : s'.running = true) (hremoved : s'.removed = s.removed) :
    s'.Carried := by
  obtain ⟨one, holds, placed, -, inserts⟩ := h
  rw [hway, Multiset.map_add] at one
  refine ⟨Multiset.nodup_of_le (Multiset.le_add_right _ _) one, fun e he => ?_, ?_, hrunning, hremoved.trans inserts⟩
  · rw [hslots]
    exact holds e (hway ▸ Multiset.mem_add.mpr (.inl he))
  · rw [hwritten, placed, hway, happlied, hdropped, pointers_append]
    abel

omit [LinearOrder I] in
theorem Carried.congr (h : s.Carried) (hway : s.onWay = s'.onWay) (hslots : s'.slots = s.slots)
    (hwritten : s'.written = s.written) (happlied : s'.applied = s.applied) (hdropped : s'.dropped = s.dropped)
    (hrunning : s'.running = true) (hremoved : s'.removed = s.removed) : s'.Carried :=
  h.drop [] (by rw [hway, pointers_nil, add_zero]) hslots hwritten happlied (by rw [hdropped, List.append_nil]) hrunning
    hremoved

omit [LinearOrder I] [Fintype I] in
/-- A sum of which one term has changed. -/
theorem sum_update {X A M : Type} [Fintype X] [DecidableEq X] [AddCommMonoid M] (g : A → M) (f : X → A) (x : X) (a : A) :
    ∑ y, g (Function.update f x a y) + g (f x) = ∑ y, g (f y) + g a := by
  have hf : (fun y => g (Function.update f x a y)) = Function.update (fun y => g (f y)) x (g a) := by
    funext y
    by_cases hy : y = x
    · subst hy
      simp
    · simp [hy]
  have hsum := Finset.add_sum_erase Finset.univ (fun y => g (f y)) (Finset.mem_univ x)
  rw [hf, Finset.sum_update_of_mem (Finset.mem_univ x), ← hsum, Finset.sdiff_singleton_eq_erase]
  abel

/-- The thread has the same pointer. -/
theorem sum_entry {i : I} {c : Client α} (hc : c.entry = (s.client i).entry) :
    ∑ j, (Function.update s.client i c j).entry = ∑ j, (s.client j).entry := by
  have hsum := sum_update Client.entry s.client i c
  rw [hc] at hsum
  exact add_right_cancel hsum

theorem split_carried (h : s.Carried) {i : I} {core : ℕ} {e : α} (hfree : s.Free (s.logIdx i core))
    (hs : s.split i core e = some s') : s'.Carried := by
  obtain ⟨hc, rfl⟩ := split_eq hs
  obtain ⟨one, holds, placed, running, inserts⟩ := h
  have hsum := sum_update Client.entry s.client i (.logging (s.logIdx i core, e))
  rw [hc, Client.entry, add_zero] at hsum
  have hway : onWay { s with
      slots := Function.update s.slots (s.logIdx i core) (.insert e)
      logCnt := Function.update s.logCnt i (if s.logCnt i + 1 = numLogsPerThread then 0 else s.logCnt i + 1)
      written := s.written ++ [(s.logIdx i core, e)]
      client := Function.update s.client i (.logging (s.logIdx i core, e)) } =
        {(s.logIdx i core, e)} + s.onWay := by
    rw [onWay, onWay]
    dsimp only
    rw [hsum, Client.entry]
    abel
  refine ⟨?_, fun f hf => ?_, ?_, running, inserts⟩
  · rw [hway, Multiset.map_add, Multiset.map_singleton, Multiset.singleton_add, Multiset.nodup_cons]
    refine ⟨fun hp => ?_, one⟩
    obtain ⟨f, hf, hfp⟩ := Multiset.mem_map.mp hp
    exact hfree f hf hfp
  · rw [hway, Multiset.mem_add, Multiset.mem_singleton] at hf
    dsimp only
    rcases hf with rfl | hf
    · exact Function.update_self ..
    · rw [Function.update_of_ne (hfree f hf)]
      exact holds f hf
  · rw [hway, ← Multiset.coe_add, placed, Multiset.coe_singleton]
    abel

theorem merge_carried (h : s.Carried) {i : I} {core : ℕ} {e : α} (hfree : s.Free (s.logIdx i core))
    (hs : s.merge i core e = some s') : s'.Carried := by
  obtain rfl := merge_eq hs
  obtain ⟨one, holds, placed, running, inserts⟩ := h
  refine ⟨one, fun f hf => ?_, placed, running, inserts⟩
  exact (Function.update_of_ne (hfree f hf) _ _).trans (holds f hf)

theorem enqStep_carried (h : s.Carried) {i : I} (hs : s.enqStep i = some s') : s'.Carried := by
  -- a thread that has the same pointer as before
  have same {c : Client α} (hc : c.entry = (s.client i).entry) :
      onWay { s with client := Function.update s.client i c } = s.onWay := by
    rw [onWay, onWay]
    dsimp only
    rw [sum_entry hc]
  rw [enqStep] at hs
  cases hc : s.client i with
  | idle =>
    rw [hc] at hs
    cases hs
  | logging e =>
    rw [hc] at hs same
    obtain rfl := Option.some.inj hs
    exact h.congr (same (c := .reading e) rfl).symm rfl rfl rfl rfl h.running rfl
  | reading e =>
    rw [hc] at hs same
    obtain rfl := Option.some.inj hs
    exact h.congr (same (c := .trying e _) rfl).symm rfl rfl rfl rfl h.running rfl
  | trying e qnum =>
    rw [hc] at hs same
    dsimp only at hs
    split_ifs at hs
    · obtain rfl := Option.some.inj hs
      exact h.congr (same (c := .reading e) rfl).symm rfl rfl rfl rfl h.running rfl
    · obtain rfl := Option.some.inj hs
      exact h.congr (same (c := .pushing e qnum) rfl).symm rfl rfl rfl rfl h.running rfl
  | pushing e qnum =>
    rw [hc] at hs
    obtain rfl := Option.some.inj hs
    refine h.congr ?_ rfl rfl rfl rfl h.running rfl
    -- it is in the log now
    have hclient := sum_update Client.entry s.client i (.unlocking qnum)
    have hlog := sum_update pointers s.op_ (i, qnum) (s.op_ (i, qnum) ++ [(e, s.curQ)])
    rw [pointers_append, ← add_assoc, add_right_comm] at hlog
    have hlog := add_right_cancel hlog
    rw [hc, Client.entry, Client.entry, add_zero] at hclient
    rw [onWay, onWay]
    dsimp only
    rw [hlog, ← hclient, pointers_cons, pointers_nil, add_zero]
    abel
  | unlocking qnum =>
    rw [hc] at hs same
    obtain rfl := Option.some.inj hs
    exact h.congr (same (c := .idle) rfl).symm rfl rfl rfl rfl h.running rfl

omit [LinearOrder I] [Fintype I] in
theorem unread_append {w : Worker α} {queue : List (ℕ × List (Pointer α × ℕ))}
    (h : ∀ rest, w = .applying rest → queue ≠ []) (n : ℕ) (oplog : List (Pointer α × ℕ)) :
    w.unread (queue ++ [(n, oplog)]) = w.unread queue ++ oplog := by
  cases w with
  | idle | exited => simp [Worker.unread]
  | applying rest => simp [Worker.unread, List.tail_append_of_ne_nil (h rest rfl)]

omit [LinearOrder I] in
/-- The combiner gives the worker a merged log, or drops it. -/
theorem broadcast_carried (h : s.Carried) (hkept : s.Kept) {qnum : Fin 2} {mergedLog : List (Pointer α × ℕ)}
    (hb : s.combiner = .locking qnum none mergedLog) :
    (broadcast { s with combiner := .idle } (mergedLog.mergeSort le)).Carried := by
  have hperm := pointers_perm (List.mergeSort_perm mergedLog le)
  by_cases hlt : s.workQueue.length < capacity
  · have heq : broadcast { s with combiner := .idle } (mergedLog.mergeSort le) = { s with
        combiner := .idle
        logQueue := s.logQueue ++ [(s.doneCountCombiner, mergedLog.mergeSort le)]
        doneCountCombiner := s.doneCountCombiner + 1
        workQueue := s.workQueue ++ [(s.doneCountCombiner, mergedLog.mergeSort le)] } := by
      rw [broadcast, if_pos hlt, if_pos hlt]
    rw [heq]
    refine h.congr ?_ rfl rfl rfl rfl h.running rfl
    rw [onWay, onWay, hb]
    dsimp only
    rw [unread_append hkept.working, pointers_append, hperm, Combiner.mergedLog, Combiner.mergedLog, pointers_nil]
    abel
  · have heq : broadcast { s with combiner := .idle } (mergedLog.mergeSort le) = { s with
        combiner := .idle
        logQueue := s.logQueue ++ [(s.doneCountCombiner, mergedLog.mergeSort le)]
        doneCountCombiner := s.doneCountCombiner + 1
        dropped := s.dropped ++ mergedLog.mergeSort le } := by
      rw [broadcast, if_neg hlt, if_neg hlt]
    rw [heq]
    refine h.drop (mergedLog.mergeSort le) ?_ rfl rfl rfl rfl h.running rfl
    rw [onWay, onWay, hb]
    dsimp only
    rw [hperm, Combiner.mergedLog, Combiner.mergedLog, pointers_nil]
    abel

theorem combineStep_carried (hkept : s.Kept) (h : s.Carried) (hs : s.combineStep le = some s') : s'.Carried := by
  -- the combiner has taken the same from the logs
  have same {c : Combiner I α} (hc : c.mergedLog = s.combiner.mergedLog) :
      s.onWay = onWay { s with combiner := c } := by
    rw [onWay, onWay]
    dsimp only
    rw [hc]
  rw [combineStep] at hs
  cases hb : s.combiner with
  | idle =>
    rw [hb] at hs same
    obtain rfl := Option.some.inj hs
    exact h.congr (same (c := .added) rfl) rfl rfl rfl rfl h.running rfl
  | added =>
    rw [hb] at hs same
    obtain rfl := Option.some.inj hs
    exact h.congr (same (c := .locking _ _ []) rfl) rfl rfl rfl rfl h.running rfl
  | unlocking qnum i mergedLog =>
    rw [hb] at hs same
    obtain rfl := Option.some.inj hs
    exact h.congr (same (c := .locking qnum _ mergedLog) rfl) rfl rfl rfl rfl h.running rfl
  | draining qnum i mergedLog =>
    rw [hb] at hs
    obtain rfl := Option.some.inj hs
    refine h.congr ?_ rfl rfl rfl rfl h.running rfl
    have hlog := sum_update pointers s.op_ (i, qnum) []
    rw [pointers_nil, add_zero] at hlog
    rw [onWay, onWay, hb]
    dsimp only
    rw [← hlog, Combiner.mergedLog, Combiner.mergedLog, pointers_append]
    abel
  | locking qnum i mergedLog =>
    rw [hb] at hs same
    cases i with
    | some i =>
      dsimp only at hs
      split_ifs at hs
      obtain rfl := Option.some.inj hs
      exact h.congr (same (c := .draining qnum i mergedLog) rfl) rfl rfl rfl rfl h.running rfl
    | none =>
      obtain rfl := Option.some.inj hs
      split_ifs with hempty
      · have hnil : mergedLog = [] := List.isEmpty_iff.mp hempty
        exact h.congr (same (c := .idle) hnil.symm) rfl rfl rfl rfl h.running rfl
      · exact broadcast_carried h hkept hb

omit [LinearOrder I] in
/-- The worker finds in a slot what was written there. -/
theorem follow_carried (h : s.Carried) {x : Pointer α × ℕ} {rest : List (Pointer α × ℕ)}
    (hw : s.worker = .applying (x :: rest)) : (s.follow x rest).Carried := by
  obtain ⟨one, holds, placed, running, inserts⟩ := h
  have hway : s.onWay = onWay { s with
      slots := Function.update s.slots x.1.1 .done
      applied := s.applied ++ [((x.1.1, x.1.2), x.2)]
      worker := .applying rest } + {x.1} := by
    rw [onWay, onWay, hw]
    dsimp only
    rw [Worker.unread, Worker.unread, List.cons_append, pointers_cons]
    abel
  have hslot : s.slots x.1.1 = .insert x.1.2 := by
    refine holds x.1 ?_
    rw [hway]
    exact Multiset.mem_add.mpr (.inr (Multiset.mem_singleton_self _))
  rw [hway, Multiset.map_add, Multiset.map_singleton, add_comm, Multiset.singleton_add, Multiset.nodup_cons] at one
  rw [follow, hslot]
  refine ⟨one.2, fun e he => ?_, ?_, rfl, inserts⟩
  · -- no other pointer to it is left
    have hne : e.1 ≠ x.1.1 := fun heq => one.1 (heq ▸ Multiset.mem_map_of_mem Prod.fst he)
    refine (Function.update_of_ne hne _ _).trans (holds e ?_)
    rw [hway]
    exact Multiset.mem_add.mpr (.inl he)
  · rw [placed, hway, pointers_append, pointers_cons, pointers_nil, add_zero]
    abel

omit [LinearOrder I] in
theorem workStep_carried (h : s.Carried) (hs : s.workStep = some s') : s'.Carried := by
  rw [workStep] at hs
  split at hs
  case h_1 n oplog queue hw hq =>
    obtain rfl := Option.some.inj hs
    refine h.congr ?_ rfl rfl rfl rfl rfl rfl
    rw [onWay, onWay, hw, hq]
    rfl
  case h_2 x rest hw =>
    obtain rfl := Option.some.inj hs
    exact follow_carried h hw
  case h_3 hw =>
    obtain rfl := Option.some.inj hs
    refine h.congr ?_ rfl rfl rfl rfl rfl rfl
    rw [onWay, onWay, hw]
    rfl
  all_goals cases hs

end

/-! ### Runs -/

variable [Fintype I]

/-- The states that runs from the start get to in which no slot is written while a pointer to it is on its
way. -/
inductive Reachable (le : Pointer α × ℕ → Pointer α × ℕ → Bool) : Pipeline I α → Prop
  | init : Reachable le init
  /-- A split. -/
  | split {s s' : Pipeline I α} (i : I) (core : ℕ) (e : α) (h : Reachable le s) (hfree : s.Free (s.logIdx i core))
    (hs : s.split i core e = some s') : Reachable le s'
  /-- A merge. -/
  | merge {s s' : Pipeline I α} (i : I) (core : ℕ) (e : α) (h : Reachable le s) (hfree : s.Free (s.logIdx i core))
    (hs : s.merge i core e = some s') : Reachable le s'
  /-- A thread in `enqPerThreadLog`, the combiner or the worker goes on. -/
  | step {s s' : Pipeline I α} (a : Act I) (h : Reachable le s) (hs : s.step le a = some s') : Reachable le s'

/-- What every step keeps. -/
structure Inv (s : Pipeline I α) : Prop where
  locks : s.Locks
  fresh : s.Fresh
  kept : s.Kept
  carried : s.Carried

theorem init_inv : (init : Pipeline I α).Inv where
  locks := ⟨fun x => iff_of_false Bool.false_ne_true fun hf => hf.elim id id, fun _ hf => hf.elim,
    fun _ hq => (by cases hq)⟩
  fresh := ⟨fun _ _ he => (by cases he), fun _ hx => absurd rfl hx, fun _ hf => hf.elim⟩
  kept := ⟨.nil, fun _ hx => (by cases hx), fun _ hr => (by cases hr), le_rfl, fun _ => rfl⟩
  carried := by
    have hway : (init : Pipeline I α).onWay = 0 := by
      simp [onWay, init, Client.entry, Combiner.mergedLog, Worker.unread]
    refine ⟨by simp [hway], fun e he => ?_, by rw [hway]; rfl, rfl, rfl⟩
    rw [hway] at he
    exact absurd he (Multiset.notMem_zero e)

theorem Inv.split (h : s.Inv) {i : I} {core : ℕ} {e : α} (hfree : s.Free (s.logIdx i core))
    (hs : s.split i core e = some s') : s'.Inv where
  locks := split_locks h.locks hs
  fresh := split_fresh h.fresh hs
  kept := by
    obtain ⟨-, rfl⟩ := split_eq hs
    exact h.kept.congr rfl rfl rfl rfl rfl fun rest hrest => ⟨rest, hrest⟩
  carried := split_carried h.carried hfree hs

theorem Inv.merge (h : s.Inv) {i : I} {core : ℕ} {e : α} (hfree : s.Free (s.logIdx i core))
    (hs : s.merge i core e = some s') : s'.Inv where
  locks := by
    obtain rfl := merge_eq hs
    exact h.locks.congr rfl rfl rfl rfl
  fresh := by
    obtain rfl := merge_eq hs
    exact h.fresh.congr rfl rfl rfl rfl rfl
  kept := by
    obtain rfl := merge_eq hs
    exact h.kept.congr rfl rfl rfl rfl rfl fun rest hrest => ⟨rest, hrest⟩
  carried := merge_carried h.carried hfree hs

theorem Inv.step (h : s.Inv) {a : Act I} (hs : s.step le a = some s') : s'.Inv := by
  unfold Pipeline.step at hs
  rw [if_pos h.carried.running] at hs
  cases a with
  | enq i =>
    exact ⟨enqStep_locks h.locks hs, enqStep_fresh h.fresh hs, enqStep_kept h.kept hs, enqStep_carried h.carried hs⟩
  | combine =>
    exact ⟨combineStep_locks h.locks hs, combineStep_fresh h.locks h.fresh hs, combineStep_kept h.kept hs,
      combineStep_carried h.kept h.carried hs⟩
  | free force =>
    have hkept := freeMergedLogs_kept h.kept hs
    obtain ⟨logQueue, rfl, -⟩ := freeMergedLogs_eq hs
    exact ⟨h.locks.congr rfl rfl rfl rfl, h.fresh.congr rfl rfl rfl rfl rfl, hkept,
      h.carried.congr rfl rfl rfl rfl rfl h.carried.running rfl⟩
  | work =>
    exact ⟨workStep_locks h.locks hs, workStep_fresh h.fresh hs, workStep_kept h.kept hs, workStep_carried h.carried hs⟩

theorem Reachable.inv (h : Reachable le s) : s.Inv := by
  induction h with
  | init => exact init_inv
  | split i core e _ hfree hs ih => exact ih.split hfree hs
  | merge i core e _ hfree hs ih => exact ih.merge hfree hs
  | step a _ hs ih => exact ih.step hs

theorem Reachable.run (acts : List (Act I)) (h : Reachable le s) (hs : acts.foldlM (Pipeline.step le) s = some s') :
    Reachable le s' := by
  induction acts generalizing s with
  | nil =>
    obtain rfl := Option.some.inj hs
    exact h
  | cons a acts ih =>
    rw [List.foldlM_cons, Option.bind_eq_bind, Option.bind_eq_some_iff] at hs
    obtain ⟨s₁, ha, hs⟩ := hs
    exact ih (h.step a ha) hs

end Pipeline

open Pipeline

/-- A slot that the worker meets twice makes it exit. -/
theorem exited_of_twice {I α : Type} (s : Pipeline I α) {x y : Pointer α × ℕ} {e : α}
    (rest : List (Pointer α × ℕ)) (hslot : s.slots x.1.1 = .insert e) (hy : y.1.1 = x.1.1) :
    ((s.follow x (y :: rest)).follow y rest).worker = .exited := by
  have hdone : (s.follow x (y :: rest)).slots y.1.1 = .done := by
    rw [follow, hslot, hy]
    exact Function.update_self ..
  rw [follow, hdone]

end SidleBaselines.Pactree
