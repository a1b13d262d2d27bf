import SidleBaselines.Data.Table
import SidleBaselines.Data.Ring
import SidleBaselines.Synthetic.Keys

/-!
# The keys of rw_mix

A foreground thread of `src/benchmark/synthetic/rw_mix.cpp` has half of its keys
in the table. One branch of its loops inserts the key at `insert_i` and removes
the one at `delete_i`, both cursors going round the thread's keys; gets and
in-place updates pick keys by cursors of their own, counted from `delete_i`.

## The model

A thread's state is its four cursors, which of the two loops it is in, and
whether it is between the insert and the remove of a branch. An act is what a
thread does between two looks at other threads: one operation on the table with
the moves of the cursors that follow it. Which branch is taken is left open, as
is the moment a thread leaves the warm-up loop; threads take turns in any order.

The measured loop's scan branch reads `query_keys[query_i]`, and its cursor
starts again at the number of keys where that of the get branch starts again at
half of it; the two together take it beyond the last key. A scan changes nothing
in the table, whatever it starts from.

## What is proved

* `Live.act` — what a thread's own act keeps of its window;
* `Live.other` — another thread's act does not touch it;
* `warmup_get_present` — a get of the warm-up loop finds its key;
* `rwMix_window` — the window in every reachable state.
-/

namespace SidleBaselines.Synthetic.RwMix

open SidleBaselines.Data

variable {K : Type} [LinearOrder K]

/-! ### The threads -/

/-- The local variables of `run_fg` that its loops use. -/
structure Worker where
  queryI : ℕ := 0
  insertI : ℕ
  deleteI : ℕ := 0
  updateI : ℕ := 0
  /-- The thread is in the measured loop. -/
  measured : Bool := false
  /-- The thread is between the insert and the remove of a branch. -/
  removing : Bool := false
  deriving DecidableEq, Repr

/-- What a thread may do. -/
inductive Act where
  | get
  /-- The insert of the in-place update. -/
  | inplace
  | insert
  | remove
  | scan
  /-- Leave the warm-up loop. -/
  | measure
  deriving DecidableEq, Repr

namespace Worker

/-- A thread before its first operation. -/
def start (n : ℕ) : Worker :=
  { insertI := n / 2 }

/-- The insert of a branch is followed by its remove. -/
def may (w : Worker) (a : Act) : Prop :=
  w.removing = true ↔ a = .remove

instance (w : Worker) (a : Act) : Decidable (w.may a) :=
  inferInstanceAs (Decidable (_ ↔ _))

/-- The key of the operation on the table. -/
def target (q : List K) (w : Worker) : Act → Option K
  | .get => q[(w.queryI + w.deleteI) % q.length]?
  | .inplace => q[(w.updateI + w.deleteI) % q.length]?
  | .insert => q[w.insertI]?
  | .remove => q[w.deleteI]?
  | .scan => if w.measured then q[w.queryI]? else none
  | .measure => none

/-- The variables after the operation, `n` being `query_keys.size()`. -/
def next (n : ℕ) (w : Worker) : Act → Worker
  | .get => { w with queryI := wrap (n / 2) (w.queryI + 1) }
  | .inplace => { w with updateI := wrap (n / 2) (w.updateI + 1) }
  | .insert => { w with removing := true }
  | .remove =>
    { w with
      insertI := wrap n (w.insertI + 1)
      deleteI := wrap n (w.deleteI + 1)
      removing := false }
  | .scan => if w.measured then { w with queryI := wrap n (w.queryI + 1) } else w
  | .measure => { w with measured := true }

end Worker

/-- What an operation on `k` does to the table. -/
def Act.apply (t : Table K ℕ) (k : K) : Act → Table K ℕ
  | .inplace => t.insert k 12345
  | .insert => t.insert k 12345
  | .remove => t.remove k
  | .get => t
  | .scan => t
  | .measure => t

/-- The table after what a thread does. -/
def Worker.perform (q : List K) (w : Worker) (t : Table K ℕ) (a : Act) : Table K ℕ :=
  match w.target q a with
  | some k => a.apply t k
  | none => t

/-! ### The runs -/

/-- The table, and the variables of each thread. -/
structure State (K : Type) [LinearOrder K] (fgN : ℕ) where
  table : Table K ℕ
  worker : Fin fgN → Worker

variable {fgN : ℕ}

/-- Put the loaded keys in, with `default_val`. -/
def loadTable (loaded : List K) : Table K ℕ :=
  loaded.foldl (fun t k => t.insert k 1) ∅

def State.init (ks : Keys K) (loaded : List K) : State K fgN where
  table := loadTable loaded
  worker i := Worker.start (ks.ofThread fgN i).length

/-- Thread `i` does `a`. -/
def State.act (ks : Keys K) (s : State K fgN) (i : Fin fgN) (a : Act) : State K fgN where
  table := (s.worker i).perform (ks.ofThread fgN i) s.table a
  worker := Function.update s.worker i ((s.worker i).next (ks.ofThread fgN i).length a)

/-- The states the threads can come to. -/
inductive Reachable (ks : Keys K) (loaded : List K) : State K fgN → Prop where
  | init : Reachable ks loaded (State.init ks loaded)
  | act {s : State K fgN} (h : Reachable ks loaded s) (i : Fin fgN) (a : Act) (ha : (s.worker i).may a) :
    Reachable ks loaded (s.act ks i a)

/-! ### What the table holds -/

/-- The table has a row under `k`. -/
def Holds (t : Table K ℕ) (k : K) : Prop :=
  t.get k ≠ none

theorem holds_insert {t : Table K ℕ} {k a : K} {v : ℕ} : Holds (t.insert k v) a ↔ k = a ∨ Holds t a := by
  rw [Holds, Holds, Table.get_insert]
  by_cases h : k = a <;> simp [h]

theorem holds_remove {t : Table K ℕ} {k a : K} : Holds (t.remove k) a ↔ k ≠ a ∧ Holds t a := by
  rw [Holds, Holds, Table.get_remove]
  by_cases h : k = a <;> simp [h]

/-- An operation on another key does not matter. -/
theorem holds_apply_ne {t : Table K ℕ} {k b : K} (h : k ≠ b) (a : Act) :
    Holds (a.apply t k) b ↔ Holds t b := by
  cases a <;> simp [Act.apply, holds_insert, holds_remove, h]

theorem holds_foldl (loaded : List K) (t : Table K ℕ) (k : K) :
    Holds (loaded.foldl (fun t k => t.insert k 1) t) k ↔ k ∈ loaded ∨ Holds t k := by
  induction loaded generalizing t with
  | nil => simp
  | cons x l ih =>
    rw [List.foldl_cons, ih, holds_insert, List.mem_cons, or_left_comm, ← or_assoc, eq_comm]

theorem holds_loadTable (loaded : List K) (k : K) : Holds (loadTable loaded) k ↔ k ∈ loaded := by
  rw [loadTable, holds_foldl]
  simp [Holds]

/-! ### The window of a thread -/

/-- The keys of the thread that are in the table are the half from `delete_i` on,
and one more between an insert and its remove. -/
structure Live (q : List K) (t : Table K ℕ) (w : Worker) : Prop where
  deleteI_lt : w.deleteI < q.length
  insertI_eq : w.insertI = (w.deleteI + q.length / 2) % q.length
  updateI_lt : w.updateI < q.length / 2
  /-- Until the scans begin. -/
  queryI_lt : w.measured = false → w.queryI < q.length / 2
  holds : ∀ k ∈ q, Holds t k ↔ Window q w.deleteI (q.length / 2 + if w.removing then 1 else 0) k

section

variable {q : List K} {t : Table K ℕ} {w : Worker}

theorem Live.half_lt (h : Live q t w) : q.length / 2 < q.length := by
  have := h.updateI_lt
  omega

/-- An insert is of an absent key. -/
theorem Live.insert_absent (h : Live q t w) (hq : q.Nodup) (hw : w.removing = false) :
    ∃ k, w.target q .insert = some k ∧ ¬ Holds t k := by
  have hlt : w.insertI < q.length := by
    rw [h.insertI_eq]
    exact Nat.mod_lt _ (Nat.zero_lt_of_lt h.deleteI_lt)
  have hget : q[w.insertI]? = some q[w.insertI] := List.getElem?_eq_getElem hlt
  refine ⟨q[w.insertI], hget, ?_⟩
  rw [h.holds _ (List.getElem_mem hlt), hw]
  apply Window.not_mem hq h.half_lt
  rw [← h.insertI_eq, hget]

/-- A remove is of a present key. -/
theorem Live.remove_present (h : Live q t w) : ∃ k, w.target q .remove = some k ∧ Holds t k := by
  have hlt := h.deleteI_lt
  have hget : q[w.deleteI]? = some q[w.deleteI] := List.getElem?_eq_getElem hlt
  refine ⟨_, hget, ?_⟩
  rw [h.holds _ (List.getElem_mem hlt)]
  refine Window.first h.deleteI_lt ?_ hget
  have := h.updateI_lt
  omega

/-- An in-place update is of a present key. -/
theorem Live.inplace_present (h : Live q t w) : ∃ k, w.target q .inplace = some k ∧ Holds t k := by
  have hlt : (w.updateI + w.deleteI) % q.length < q.length := Nat.mod_lt _ (Nat.zero_lt_of_lt h.deleteI_lt)
  have hget := List.getElem?_eq_getElem hlt
  refine ⟨_, hget, ?_⟩
  rw [h.holds _ (List.getElem_mem hlt)]
  refine ⟨w.updateI, ?_, ?_⟩
  · have := h.updateI_lt
    omega
  · rw [Nat.add_comm w.deleteI, hget]

/-- A get of the warm-up loop is of a present key. -/
theorem Live.get_present (h : Live q t w) (hw : w.measured = false) :
    ∃ k, w.target q .get = some k ∧ Holds t k := by
  have hlt : (w.queryI + w.deleteI) % q.length < q.length := Nat.mod_lt _ (Nat.zero_lt_of_lt h.deleteI_lt)
  have hget := List.getElem?_eq_getElem hlt
  refine ⟨_, hget, ?_⟩
  rw [h.holds _ (List.getElem_mem hlt)]
  refine ⟨w.queryI, ?_, ?_⟩
  · have := h.queryI_lt hw
    omega
  · rw [Nat.add_comm w.deleteI, hget]

/-- The window takes in the inserted key. -/
theorem Live.insert (h : Live q t w) (hw : w.removing = false) {k : K} (hk : w.target q .insert = some k) :
    Live q (t.insert k 12345) (w.next q.length .insert) := by
  refine ⟨h.deleteI_lt, h.insertI_eq, h.updateI_lt, h.queryI_lt, ?_⟩
  intro b hb
  replace hk : q[(w.deleteI + q.length / 2) % q.length]? = some k := by
    rw [← h.insertI_eq]
    exact hk
  have hold := h.holds b hb
  simp only [hw, Bool.false_eq_true, if_false, Nat.add_zero] at hold
  simp only [Worker.next, if_true, Window.succ]
  rw [holds_insert, hold, hk, Option.some.injEq, or_comm]

/-- The window gives up the removed key. -/
theorem Live.remove (h : Live q t w) (hq : q.Nodup) (hw : w.removing = true) {k : K}
    (hk : w.target q .remove = some k) : Live q (t.remove k) (w.next q.length .remove) := by
  have hpos : 0 < q.length := Nat.zero_lt_of_lt h.deleteI_lt
  have hins : w.insertI < q.length := by
    rw [h.insertI_eq]
    exact Nat.mod_lt _ hpos
  refine ⟨wrap_succ_lt h.deleteI_lt, ?_, h.updateI_lt, h.queryI_lt, ?_⟩
  · show wrap q.length (w.insertI + 1) = (wrap q.length (w.deleteI + 1) + q.length / 2) % q.length
    rw [wrap_succ_eq hins, wrap_succ_eq h.deleteI_lt, h.insertI_eq, Nat.mod_add_mod, Nat.mod_add_mod]
    congr 1
    omega
  · intro b hb
    have hold := h.holds b hb
    replace hk : q[w.deleteI]? = some k := hk
    simp only [hw, if_true] at hold
    simp only [Worker.next, Bool.false_eq_true, if_false, Nat.add_zero]
    rw [holds_remove, hold, wrap_succ_eq h.deleteI_lt, Window.next hq h.deleteI_lt h.half_lt, hk, and_comm,
      ne_eq, ne_eq, Option.some.injEq]

/-- A thread's own act keeps its window. -/
theorem Live.act (h : Live q t w) (hq : q.Nodup) {a : Act} (ha : w.may a) :
    Live q (w.perform q t a) (w.next q.length a) := by
  cases a with
  | get =>
    have hsame : w.perform q t .get = t := by
      rw [Worker.perform]
      split <;> rfl
    rw [hsame]
    exact ⟨h.deleteI_lt, h.insertI_eq, h.updateI_lt, fun hm => wrap_succ_lt (h.queryI_lt hm), h.holds⟩
  | inplace =>
    obtain ⟨k, hk, hhold⟩ := h.inplace_present
    rw [Worker.perform, hk]
    refine ⟨h.deleteI_lt, h.insertI_eq, wrap_succ_lt h.updateI_lt, h.queryI_lt, ?_⟩
    intro b hb
    show Holds (t.insert k 12345) b ↔ _
    rw [holds_insert, or_iff_right_of_imp (by rintro rfl; exact hhold)]
    exact h.holds b hb
  | insert =>
    have hw : w.removing = false := by
      simpa [Worker.may] using ha
    obtain ⟨k, hk, -⟩ := h.insert_absent hq hw
    rw [Worker.perform, hk]
    exact h.insert hw hk
  | remove =>
    have hw : w.removing = true := ha.mpr rfl
    obtain ⟨k, hk, -⟩ := h.remove_present
    rw [Worker.perform, hk]
    exact h.remove hq hw hk
  | scan =>
    have hsame : w.perform q t .scan = t := by
      rw [Worker.perform]
      split <;> rfl
    rw [hsame, Worker.next]
    split_ifs with hm
    · refine ⟨h.deleteI_lt, h.insertI_eq, h.updateI_lt, ?_, h.holds⟩
      intro hm'
      exact absurd (hm.symm.trans hm') (by decide)
    · exact h
  | measure =>
    refine ⟨h.deleteI_lt, h.insertI_eq, h.updateI_lt, ?_, h.holds⟩
    intro hm
    cases hm

/-- An operation on a key that is not the thread's keeps its window. -/
theorem Live.other (h : Live q t w) {k : K} (hk : k ∉ q) (a : Act) : Live q (a.apply t k) w := by
  refine ⟨h.deleteI_lt, h.insertI_eq, h.updateI_lt, h.queryI_lt, ?_⟩
  intro b hb
  have hne : k ≠ b := fun heq => hk (heq ▸ hb)
  rw [holds_apply_ne hne, h.holds b hb]

end

omit [LinearOrder K] in
theorem Worker.target_mem {q : List K} {w : Worker} {a : Act} {k : K} (h : w.target q a = some k) :
    k ∈ q := by
  cases a with
  | scan =>
    rw [target] at h
    split_ifs at h
    exact List.mem_of_getElem? h
  | measure => cases h
  | _ => exact List.mem_of_getElem? h

/-! ### All threads -/

section

variable {file loaded : List K} {ks : Keys K}

/-- The first window is the loaded half of the thread's keys. -/
theorem live_init (hfile : file.Nodup) (hks : Prepared file loaded ks) (hn : 1 ≤ ks.allKeys.length / fgN)
    (i : Fin fgN) :
    Live (ks.ofThread fgN i) (loadTable loaded) (Worker.start (ks.ofThread fgN i).length) := by
  have hapart := hks.apart hfile
  have hlength : (ks.ofThread fgN i).length = ks.allKeys.length / fgN + ks.nonExistKeys.length / fgN :=
    Keys.length_ofThread i.isLt
  have hhalf : (ks.ofThread fgN i).length / 2 = ks.allKeys.length / fgN := by
    obtain ⟨hall, hnon⟩ := hks.length
    have h1 : ks.allKeys.length / fgN ≤ ks.nonExistKeys.length / fgN := Nat.div_le_div_right (by omega)
    have h2 : ks.nonExistKeys.length / fgN ≤ (ks.allKeys.length + fgN) / fgN :=
      Nat.div_le_div_right (by have := i.isLt; omega)
    rw [Nat.add_div_right _ (Fin.pos i)] at h2
    omega
  refine ⟨?_, ?_, ?_, ?_, ?_⟩
  · show 0 < (ks.ofThread fgN i).length
    omega
  · show (ks.ofThread fgN i).length / 2 = (0 + (ks.ofThread fgN i).length / 2) % (ks.ofThread fgN i).length
    rw [Nat.zero_add, Nat.mod_eq_of_lt (by omega)]
  · show 0 < (ks.ofThread fgN i).length / 2
    omega
  · intro _
    show 0 < (ks.ofThread fgN i).length / 2
    omega
  · intro k hk
    show _ ↔ Window _ 0 ((ks.ofThread fgN i).length / 2) k
    rw [holds_loadTable, hks.mem_loaded, window_zero (by omega), hhalf, Keys.take_ofThread i.isLt]
    constructor
    · intro hall
      rcases List.mem_append.mp hk with hk | hk
      · exact hk
      · exact absurd ((segment_sublist _ _ _).subset hk) (hapart.disjoint hall)
    · exact fun h => (segment_sublist _ _ _).subset h

/-- Every thread keeps its window. -/
theorem reachable_live (hfile : file.Nodup) (hks : Prepared file loaded ks) (hn : 1 ≤ ks.allKeys.length / fgN)
    {s : State K fgN} (h : Reachable ks loaded s) (i : Fin fgN) :
    Live (ks.ofThread fgN i) s.table (s.worker i) := by
  have hapart := hks.apart hfile
  induction h with
  | init => exact live_init hfile hks hn i
  | @act s h j a ha ih =>
    by_cases hij : i = j
    · subst hij
      have hworker : (s.act ks i a).worker i = (s.worker i).next (ks.ofThread fgN i).length a :=
        Function.update_self i _ _
      rw [hworker]
      exact ih.act (hapart.nodup_ofThread fgN i) ha
    · have hworker : (s.act ks j a).worker i = s.worker i := Function.update_of_ne hij _ _
      rw [hworker, State.act, Worker.perform]
      cases hk : (s.worker j).target (ks.ofThread fgN j) a with
      | none => exact ih
      | some k =>
        apply ih.other
        intro hki
        exact hapart.ofThread_disjoint (fun heq => hij (Fin.ext heq)) hki (Worker.target_mem hk)

/-- The check of the warm-up loop's get holds: the key is found. -/
theorem warmup_get_present (hfile : file.Nodup) (hks : Prepared file loaded ks)
    (hn : 1 ≤ ks.allKeys.length / fgN)
    {s : State K fgN} (h : Reachable ks loaded s) (i : Fin fgN) (hw : (s.worker i).measured = false) :
    ∃ k, (s.worker i).target (ks.ofThread fgN i) .get = some k ∧ Holds s.table k :=
  (reachable_live hfile hks hn h i).get_present hw

/-- In every reachable state, the keys of a thread that are in the table are the
half from `delete_i` on when the thread is between two branches, with `insert_i`
behind their end; an insert is of an absent key, and a remove and an in-place
update are of a present one. -/
theorem rwMix_window (hfile : file.Nodup) (hks : Prepared file loaded ks) (hn : 1 ≤ ks.allKeys.length / fgN)
    {s : State K fgN} (h : Reachable ks loaded s) (i : Fin fgN) :
    ((s.worker i).removing = false →
      (s.worker i).insertI =
        ((s.worker i).deleteI + (ks.ofThread fgN i).length / 2) % (ks.ofThread fgN i).length ∧
      ∀ k ∈ ks.ofThread fgN i, Holds s.table k ↔
        ∃ j < (ks.ofThread fgN i).length / 2,
          (ks.ofThread fgN i)[((s.worker i).deleteI + j) % (ks.ofThread fgN i).length]? = some k) ∧
    ((s.worker i).may .insert →
      ∃ k, (s.worker i).target (ks.ofThread fgN i) .insert = some k ∧ ¬ Holds s.table k) ∧
    ((s.worker i).may .remove →
      ∃ k, (s.worker i).target (ks.ofThread fgN i) .remove = some k ∧ Holds s.table k) ∧
    ((s.worker i).may .inplace →
      ∃ k, (s.worker i).target (ks.ofThread fgN i) .inplace = some k ∧ Holds s.table k) := by
  have hlive := reachable_live hfile hks hn h i
  have hq := (hks.apart hfile).nodup_ofThread fgN i
  refine ⟨?_, ?_, ?_, ?_⟩
  · intro hw
    refine ⟨hlive.insertI_eq, ?_⟩
    intro k hk
    have hold := hlive.holds k hk
    simp only [hw, Bool.false_eq_true, if_false, Nat.add_zero] at hold
    exact hold
  · intro ha
    have hw : (s.worker i).removing = false := by
      simpa [Worker.may] using ha
    exact hlive.insert_absent hq hw
  · intro _
    exact hlive.remove_present
  · intro _
    exact hlive.inplace_present

/-- Five keys and one thread, after its first insert. -/
theorem rwMix_window_five :
    ∃ k, (((State.init ⟨[2, 1], [3, 4, 5]⟩ [1, 2] : State ℕ 1).act ⟨[2, 1], [3, 4, 5]⟩ 0 .insert).worker 0).target
        (Keys.ofThread ⟨[2, 1], [3, 4, 5]⟩ 1 0) .remove = some k ∧
      Holds ((State.init ⟨[2, 1], [3, 4, 5]⟩ [1, 2] : State ℕ 1).act ⟨[2, 1], [3, 4, 5]⟩ 0 .insert).table k := by
  have hks : Prepared [1, 2, 3, 4, 5] [1, 2] ⟨[2, 1], [3, 4, 5]⟩ :=
    ⟨[1, 2, 3, 4, 5], .refl _, rfl, .swap _ _ _, .refl _⟩
  have hreach : Reachable _ [1, 2] ((State.init _ [1, 2] : State ℕ 1).act ⟨[2, 1], [3, 4, 5]⟩ 0 .insert) :=
    .act .init 0 .insert (by decide)
  exact (rwMix_window (by decide) hks (by decide) hreach 0).2.2.1 (by decide)

end

end SidleBaselines.Synthetic.RwMix
