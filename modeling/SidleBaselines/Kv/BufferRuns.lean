import SidleBaselines.Kv.Buffer

/-!
# Runs of the buffer

A `BufferKV` is meant to be a finite map. Its operations are compared with those of a
table, one after the other, as long as the rows fit in the arrays: where they do not, an
insertion takes the path that makes new arrays, which has no run that ends well.

## What is proved

* `step_refines` — one operation, in either build, does to the records what it does to
  the table; `run_refines`, so does a sequence of them.
* `buffer_refines` — the sorted build is a map, exactly if its lock is one or is never
  asked for.
* `builds_agree` — the sorted and the unsorted build give the same results.
* `never_grows` — a full buffer does not take another record.
* `failures_atomic` — the lock is given back, unless there is no memory for new arrays.
-/

namespace SidleBaselines.Kv

open SidleBaselines.Data

section
variable {K V : Type}

/-! ### Operations -/

/-- An operation on one key. -/
inductive BufferOp (K V : Type) where
  /-- `get`. -/
  | get (k : K)
  /-- `insert`. -/
  | insert (k : K) (v : V)
  /-- `insert_if_not_exst`. -/
  | insertIfNotExst (k : K) (v : V)
  /-- `remove`. -/
  | remove (k : K)

/-- An operation. -/
inductive BufferCall (K V : Type) where
  /-- On one key. -/
  | op (op : BufferOp K V)
  /-- `scan_keys`. -/
  | scanKeys

/-- What an operation returns. -/
inductive BufferResult (K V : Type) where
  /-- Of `get`: the value, if the key is there. -/
  | got (v : Option V)
  /-- Of `insert`, `insert_if_not_exst` and `remove`. -/
  | done (success : Bool)
  /-- Of `scan_keys`. -/
  | scanned (keys : List K)

variable [LinearOrder K]

namespace BufferKV

/-- One operation on a key; `mem` is what an allocation would give. -/
def step (bs : Bool) (mem : Alloc K V) (b : BufferKV K V) :
    BufferOp K V → Except Fault (BufferResult K V × BufferKV K V)
  | .get k => (fun r => (.got r.1, r.2)) <$> b.get bs k
  | .insert k v => (fun r => (.done r.1, r.2)) <$> b.insert bs mem k v
  | .insertIfNotExst k v => (fun r => (.done r.1, r.2)) <$> b.insertIfNotExst bs mem k v
  | .remove k => (fun r => (.done r.1, r.2)) <$> b.remove bs k

/-- One operation. -/
def call (bs : Bool) (mem : Alloc K V) (b : BufferKV K V) :
    BufferCall K V → Except Fault (BufferResult K V × BufferKV K V)
  | .op op => b.step bs mem op
  | .scanKeys => (fun keys => (.scanned keys, b)) <$> b.scanKeys

/-- A sequence of operations, to their results and the buffer they leave. -/
def run (bs : Bool) (mem : ℕ → Alloc K V) (b : BufferKV K V) :
    List (BufferCall K V) → Except Fault (List (BufferResult K V) × BufferKV K V)
  | [] => .ok ([], b)
  | c :: cs => do
    let (r, b) ← b.call bs (mem 0) c
    let (rs, b) ← run bs (fun i => mem (i + 1)) b cs
    return (r :: rs, b)

end BufferKV

/-! ### The map -/

/-- What the operation is meant to do. -/
def BufferOp.onMap (t : Table K V) : BufferOp K V → BufferResult K V × Table K V
  | .get k => (.got (t.get k), t)
  | .insert k v => (.done true, t.insert k v)
  | .insertIfNotExst k v => (.done (t.get k).isNone, t.emplace k v)
  | .remove k => (.done (t.get k).isSome, t.remove k)

/-- What the operation is meant to do. -/
def BufferCall.onMap (t : Table K V) : BufferCall K V → BufferResult K V × Table K V
  | .op o => o.onMap t
  | .scanKeys => (.scanned (t.entries.map Prod.fst), t)

/-- What a sequence of operations is meant to do. -/
def mapRun (t : Table K V) : List (BufferCall K V) → List (BufferResult K V) × Table K V
  | [] => ([], t)
  | c :: cs => ((c.onMap t).1 :: (mapRun (c.onMap t).2 cs).1, (mapRun (c.onMap t).2 cs).2)

/-- There are never more than `n` keys. -/
def Fits (n : ℕ) (t : Table K V) : List (BufferCall K V) → Prop
  | [] => t.entries.length ≤ n
  | c :: cs => t.entries.length ≤ n ∧ Fits n (c.onMap t).2 cs

instance Fits.decidable (n : ℕ) : ∀ (t : Table K V) (cs : List (BufferCall K V)), Decidable (Fits n t cs)
  | t, [] => inferInstanceAs (Decidable (t.entries.length ≤ n))
  | t, c :: cs =>
    let _ := Fits.decidable n (c.onMap t).2 cs
    inferInstanceAs (Decidable (t.entries.length ≤ n ∧ Fits n (c.onMap t).2 cs))

theorem Fits.length_le {n : ℕ} {t : Table K V} {cs : List (BufferCall K V)} (h : Fits n t cs) :
    t.entries.length ≤ n := by
  cases cs with
  | nil => exact h
  | cons c cs => exact h.1

theorem Fits.of_prefix {n : ℕ} {t : Table K V} {cs cs' : List (BufferCall K V)} (h : Fits n t cs)
    (hpre : cs' <+: cs) : Fits n t cs' := by
  induction cs' generalizing t cs with
  | nil => exact h.length_le
  | cons c cs' ih =>
    obtain ⟨rest, rfl⟩ := hpre
    exact ⟨h.1, ih h.2 ⟨rest, rfl⟩⟩

/-- The operation adds a record. -/
def BufferOp.Adds (t : Table K V) : BufferOp K V → Prop
  | .insert k _ => t.get k = none
  | .insertIfNotExst k _ => t.get k = none
  | .get _ => False
  | .remove _ => False

/-- The operation needs new arrays. -/
def Overflows (b : BufferKV K V) (t : Table K V) (op : BufferOp K V) : Prop :=
  op.Adds t ∧ b.recordN = b.capacityN

namespace BufferKV

variable {bs : Bool} {b : BufferKV K V} {t : Table K V}

/-! ### Refinement -/

theorem Lists.load {rs : List (K × V)} (h : rs.Pairwise fun e f => e.1 < f.1) :
    Lists bs rs (Table.load rs) := by
  have hnodup : (rs.map Prod.fst).Nodup := List.pairwise_map.mpr (h.imp fun h => h.ne)
  refine ⟨(List.perm_ext_iff_of_nodup (hnodup.of_map _) Table.entries_nodup).mpr fun e => ?_, fun _ => h⟩
  rw [Table.mem_entries, Table.get_load_iff hnodup]

theorem Records.pairs_perm (h : Records bs b t) : b.pairs.Perm t.entries := by
  obtain ⟨rs, hb, hrs⟩ := h
  rw [hb.pairs]
  exact hrs.perm

/-- A record is added where one more row has to fit. -/
theorem Records.not_overflows (h : Records bs b t) {op : BufferOp K V}
    (hfit : (op.onMap t).2.entries.length ≤ b.capacityN) : ¬ Overflows b t op := by
  rintro ⟨hk, hfull⟩
  have hlength : (op.onMap t).2.entries.length = t.entries.length + 1 := by
    cases op with
    | insert k v => exact (Table.entries_insert_new hk).length_eq
    | insertIfNotExst k v =>
      change (t.emplace k v).entries.length = t.entries.length + 1
      rw [Table.emplace_eq_insert hk]
      exact (Table.entries_insert_new hk).length_eq
    | get k => exact hk.elim
    | remove k => exact hk.elim
  rw [hlength, ← h.recordN] at hfit
  omega

/-- One operation on a key, unless it needs new arrays. -/
theorem step_refines (h : Rep bs b t) (mem : Alloc K V) (op : BufferOp K V) (hop : ¬ Overflows b t op) :
    ∃ b', b.step bs mem op = .ok ((op.onMap t).1, b') ∧ Rep bs b' (op.onMap t).2 ∧
      b'.capacityN = b.capacityN := by
  have hroom : op.Adds t → b.recordN < b.capacityN := by
    intro hadds
    obtain ⟨rs, hb, -⟩ := h.records
    exact hb.le.lt_of_ne fun hfull => hop ⟨hadds, hfull⟩
  cases op with
  | get k =>
    refine ⟨b, ?_, h, rfl⟩
    simp only [step, get_spec h]
    rfl
  | insert k v =>
    obtain ⟨b', hb', hrep, hcapacityN⟩ := insert_spec h mem k v hroom
    refine ⟨b', ?_, hrep, hcapacityN⟩
    simp only [step, hb']
    rfl
  | insertIfNotExst k v =>
    obtain ⟨b', hb', hrep, hcapacityN⟩ := insertIfNotExst_spec h mem k v hroom
    refine ⟨b', ?_, hrep, hcapacityN⟩
    simp only [step, hb']
    rfl
  | remove k =>
    obtain ⟨b', hb', hrep, hcapacityN⟩ := remove_spec h k
    refine ⟨b', ?_, hrep, hcapacityN⟩
    simp only [step, hb']
    rfl

theorem scanKeys_records (h : Records true b t) : b.scanKeys = .ok (t.entries.map Prod.fst) := by
  obtain ⟨rs, hb, hrs⟩ := h
  rw [scanKeys_spec hb, Table.eq_entries hrs.perm (hrs.sorted rfl)]

/-- One operation; the keys are scanned in key order in the sorted build only. -/
theorem call_refines (h : Rep bs b t) (mem : Alloc K V) {c : BufferCall K V} (hc : bs = true ∨ c ≠ .scanKeys)
    (hfit : (c.onMap t).2.entries.length ≤ b.capacityN) :
    ∃ b', b.call bs mem c = .ok ((c.onMap t).1, b') ∧ Rep bs b' (c.onMap t).2 ∧
      b'.capacityN = b.capacityN := by
  cases c with
  | op op => exact step_refines h mem op (h.records.not_overflows hfit)
  | scanKeys =>
    rcases hc with rfl | hc
    · refine ⟨b, ?_, h, rfl⟩
      simp only [call, scanKeys_records h.records]
      rfl
    · exact absurd rfl hc

theorem run_cons {b' : BufferKV K V} {r : BufferResult K V} {mem : ℕ → Alloc K V} {c : BufferCall K V}
    (h : b.call bs (mem 0) c = .ok (r, b')) (cs : List (BufferCall K V)) :
    run bs mem b (c :: cs) = (fun res => (r :: res.1, res.2)) <$> run bs (fun i => mem (i + 1)) b' cs := by
  conv_lhs => unfold run
  rw [h]
  rfl

/-- A sequence of operations. -/
theorem run_refines (h : Rep bs b t) (mem : ℕ → Alloc K V) {cs : List (BufferCall K V)}
    (hcs : bs = true ∨ .scanKeys ∉ cs) (hfit : Fits b.capacityN t cs) :
    ∃ b', run bs mem b cs = .ok ((mapRun t cs).1, b') ∧ Rep bs b' (mapRun t cs).2 ∧
      b'.capacityN = b.capacityN := by
  induction cs generalizing b t mem with
  | nil => exact ⟨b, rfl, h, rfl⟩
  | cons c cs ih =>
    have hc : bs = true ∨ c ≠ .scanKeys := hcs.imp_right fun h e => h (e ▸ List.mem_cons_self)
    obtain ⟨b₁, hb₁, hrep₁, hcapacityN₁⟩ := call_refines h (mem 0) hc hfit.2.length_le
    obtain ⟨b₂, hb₂, hrep₂, hcapacityN₂⟩ :=
      ih hrep₁ (fun i => mem (i + 1)) (hcs.imp_right fun h hmem => h (List.mem_cons_of_mem c hmem))
        (hcapacityN₁ ▸ hfit.2)
    refine ⟨b₂, ?_, hrep₂, hcapacityN₂.trans hcapacityN₁⟩
    rw [run_cons hb₁, hb₂]
    rfl

/-- Without a free lock, no operation on a key ends. -/
theorem step_locked (h : b.lock ≠ .free) (mem : Alloc K V) (op : BufferOp K V) :
    b.step bs mem op = .error .lock := by
  have hread : b.lock.rdlock = .error .lock := by
    cases hlock : b.lock <;> first | rfl | exact absurd hlock h
  have hwrite : b.lock.wrlock = .error .lock := by
    cases hlock : b.lock <;> first | rfl | exact absurd hlock h
  cases op with
  | get k =>
    simp only [step, get, hread]
    rfl
  | insert k v =>
    simp only [step, insert, hwrite]
    rfl
  | insertIfNotExst k v =>
    simp only [step, insertIfNotExst, hwrite]
    rfl
  | remove k =>
    simp only [step, remove, hwrite]
    rfl

/-- Without a free lock, no sequence with an operation on a key ends. -/
theorem run_locked (h : b.lock ≠ .free) (mem : ℕ → Alloc K V) {cs : List (BufferCall K V)}
    (hcs : ∃ c ∈ cs, c ≠ .scanKeys) (res : List (BufferResult K V) × BufferKV K V) :
    run bs mem b cs ≠ .ok res := by
  induction cs generalizing mem res with
  | nil => simp at hcs
  | cons c cs ih =>
    intro hrun
    cases c with
    | op op =>
      simp only [run, call, step_locked h, bind, Except.bind] at hrun
      cases hrun
    | scanKeys =>
      have hcs' : ∃ c ∈ cs, c ≠ .scanKeys := by simpa using hcs
      cases hscan : b.scanKeys with
      | error e =>
        simp only [run, call, hscan, Functor.map, Except.map, bind, Except.bind] at hrun
        cases hrun
      | ok keys =>
        have hcall : b.call bs (mem 0) .scanKeys = .ok (.scanned keys, b) := by
          simp only [call, hscan]
          rfl
        rw [run_cons hcall] at hrun
        cases hrest : run bs (fun i => mem (i + 1)) b cs with
        | error e =>
          rw [hrest] at hrun
          cases hrun
        | ok res' => exact ih _ hcs' res' hrest

/-- Scanning alone leaves everything as it is, and asks for no lock. -/
theorem run_scans (h : Records true b t) (mem : ℕ → Alloc K V) {cs : List (BufferCall K V)}
    (hcs : ∀ c ∈ cs, c = .scanKeys) : run true mem b cs = .ok ((mapRun t cs).1, b) ∧ (mapRun t cs).2 = t := by
  induction cs generalizing mem with
  | nil => exact ⟨rfl, rfl⟩
  | cons c cs ih =>
    obtain ⟨rfl, hcs'⟩ := List.forall_mem_cons.mp hcs
    obtain ⟨hrun, ht⟩ := ih (fun i => mem (i + 1)) hcs'
    have hcall : b.call true (mem 0) .scanKeys = .ok (.scanned (t.entries.map Prod.fst), b) := by
      simp only [call, scanKeys_records h]
      rfl
    refine ⟨?_, ht⟩
    rw [run_cons hcall, hrun]
    rfl

/-! ### The sorted build is a map -/

/-- The buffer is in order, its records are the rows of `t`, and the bisection ends at the lower
bound of any key. -/
structure Sound (b : BufferKV K V) (t : Table K V) : Prop where
  ascending : (b.keys.take b.recordN).Pairwise (· < ·)
  le : b.recordN ≤ b.capacityN
  pairs : b.pairs = t.entries
  search : ∀ k, b.binarySearch k = .ok ((t.get k).isSome, (t.entries.filter fun e => e.1 < k).length)

theorem Records.sound (h : Records true b t) : Sound b t := by
  obtain ⟨rs, hb, hrs⟩ := h
  have hsorted := hrs.sorted rfl
  have hpairs : b.pairs = t.entries := by
    rw [hb.pairs]
    exact Table.eq_entries hrs.perm hsorted
  refine ⟨?_, hb.le, hpairs, fun k => ?_⟩
  · obtain ⟨⟨rest, hrest⟩, -⟩ := hb.keys
    rw [← hrest, hb.recordN, ← List.length_map Prod.fst, List.take_left]
    exact List.pairwise_map.mpr hsorted
  · obtain ⟨res, hres, hfound⟩ := search_spec hb hrs.sorted k
    obtain ⟨l, r, rfl, hl, hr⟩ := exists_split hsorted k
    have hfilter : (l ++ r).filter (fun e => e.1 < k) = l := by
      rw [List.filter_append, List.filter_eq_self.mpr (by simpa using hl),
        List.filter_eq_nil_iff.mpr (by simpa using hr), List.append_nil]
    have hsearch := binarySearch_spec hb hl hr
    obtain rfl := Except.ok.inj (hres.symm.trans hsearch)
    rw [hsearch, ← Table.eq_entries hrs.perm hsorted, hfilter, ← hfound.isSome hrs]

theorem rep_new (mem : Fresh K V) : Rep bs (new mem) ∅ := by
  have hempty : (∅ : Table K V).entries = [] := by
    rw [List.eq_nil_iff_forall_not_mem]
    intro e he
    rw [Table.mem_entries, Table.get_empty] at he
    cases he
  refine ⟨rfl, [], ⟨rfl, ⟨List.nil_prefix, ?_⟩, ⟨List.nil_prefix, ?_⟩⟩, ?_, fun _ => .nil⟩
  · simp [new]
  · simp [new]
  · rw [hempty]

theorem records_ofVectors (mem : Fresh K V) (init : InitVectors K V) (capacity : ℕ) :
    Records bs (ofVectors mem init capacity) (Table.load (init.keys.zip init.vals)) := by
  have hlength := init.sameLength
  have hsorted : (init.keys.zip init.vals).Pairwise fun e f => e.1 < f.1 := by
    rw [← List.pairwise_map (f := Prod.fst) (R := (· < ·)), List.map_fst_zip hlength.ge]
    exact init.ascending
  refine ⟨_, ⟨?_, ⟨?_, ?_⟩, ⟨?_, ?_⟩⟩, Lists.load hsorted⟩
  · simp only [ofVectors, List.length_zip, hlength, min_self]
  · rw [List.map_fst_zip hlength.ge]
    exact ⟨_, rfl⟩
  · simp only [ofVectors, List.length_append, List.length_drop, List.length_map, List.length_range]
    split <;> omega
  · rw [List.map_snd_zip hlength.le]
    exact ⟨_, rfl⟩
  · simp only [ofVectors, List.length_append, List.length_drop, List.length_map, List.length_range]
    split <;> omega

end BufferKV

/-- How a buffer is constructed. -/
inductive Start (K V : Type) [LinearOrder K] where
  /-- By the default constructor. -/
  | default
  /-- From vectors. -/
  | vectors (init : InitVectors K V) (capacity : ℕ)

/-- The new buffer. -/
def Start.buffer (mem : Fresh K V) : Start K V → BufferKV K V
  | .default => .new mem
  | .vectors init capacity => .ofVectors mem init capacity

/-- The map it stands for. -/
def Start.table : Start K V → Table K V
  | .default => ∅
  | .vectors init _ => Table.load (init.keys.zip init.vals)

open BufferKV

theorem Start.records (s : Start K V) (fresh : Fresh K V) : Records true (s.buffer fresh) s.table := by
  cases s with
  | default => exact (rep_new fresh).records
  | vectors init capacity => exact records_ofVectors fresh init capacity

/-- After every step of the sequence the operations have returned what they return on the map,
and the buffer is in order and stands for the map. -/
def RefinesMap (s : Start K V) (fresh : Fresh K V) (mem : ℕ → Alloc K V) (cs : List (BufferCall K V)) :
    Prop :=
  ∀ cs', cs' <+: cs →
    ∃ b, run true mem (s.buffer fresh) cs' = .ok ((mapRun s.table cs').1, b) ∧ Sound b (mapRun s.table cs').2

/-- **The sorted build is a finite map**, as long as its rows fit, exactly if the memory of its lock
holds a free lock or no operation asks for it. -/
theorem buffer_refines (s : Start K V) (fresh : Fresh K V) (mem : ℕ → Alloc K V) (cs : List (BufferCall K V))
    (hfit : Fits (s.buffer fresh).capacityN s.table cs) :
    RefinesMap s fresh mem cs ↔ (s.buffer fresh).lock = .free ∨ ∀ c ∈ cs, c = .scanKeys := by
  constructor
  · intro h
    by_contra hlock
    push Not at hlock
    obtain ⟨hlock, hop⟩ := hlock
    obtain ⟨b, hb, -⟩ := h cs List.prefix_rfl
    exact run_locked hlock mem hop _ hb
  · rintro (hfree | hscans) cs' hpre
    · obtain ⟨b, hb, hrep, -⟩ := run_refines ⟨hfree, s.records fresh⟩ mem (.inl rfl) (hfit.of_prefix hpre)
      exact ⟨b, hb, hrep.records.sound⟩
    · obtain ⟨hrun, ht⟩ := run_scans (s.records fresh) mem fun c hc => hscans c (hpre.subset hc)
      refine ⟨_, hrun, ?_⟩
      rw [ht]
      exact (s.records fresh).sound

/-- Vectors of one record. -/
def oneRecord : InitVectors ℕ ℕ := ⟨[1], [10], List.pairwise_singleton _ _, rfl⟩

/-- A lookup in a buffer made from one record, in memory that holds no lock. -/
theorem vectors_locked :
    Fits 4 (Start.vectors oneRecord 4).table [.op (.get 1)] ∧
      ¬ RefinesMap (.vectors oneRecord 4) ⟨fun _ => 0, fun _ => 0, .unset⟩ (fun _ => ⟨none, none⟩) [.op (.get 1)] := by
  refine ⟨by decide, fun h => ?_⟩
  obtain ⟨b, hb, -⟩ := h _ List.prefix_rfl
  exact run_locked (by decide) _ ⟨.op (.get 1), List.mem_cons_self, nofun⟩ _ hb

/-- A record is added to them, in memory that happens to hold a free lock, and the first is taken out. -/
def swapRecords : List (BufferCall ℕ ℕ) :=
  [.op (.insert 2 20), .scanKeys, .op (.get 2), .op (.remove 1), .op (.get 1), .scanKeys]

theorem vectors_unlocked :
    RefinesMap (.vectors oneRecord 4) ⟨fun _ => 0, fun _ => 0, .free⟩ (fun _ => ⟨none, none⟩) swapRecords :=
  (buffer_refines (.vectors oneRecord 4) ⟨fun _ => 0, fun _ => 0, .free⟩ (fun _ => ⟨none, none⟩) swapRecords
    (by decide)).mpr (.inl rfl)

/-- **The two builds agree**: the same results at every step, and the same pairs. -/
theorem builds_agree (fresh fresh' : Fresh K V) (mem mem' : ℕ → Alloc K V) (ops : List (BufferOp K V))
    (hfit : Fits 1024 ∅ (ops.map .op)) (ops' : List (BufferOp K V)) (hpre : ops' <+: ops) :
    ∃ results b b', run true mem (new fresh) (ops'.map .op) = .ok (results, b) ∧
      run false mem' (new fresh') (ops'.map .op) = .ok (results, b') ∧ b.pairs.Perm b'.pairs := by
  have hfit' : Fits 1024 ∅ (ops'.map BufferCall.op) := hfit.of_prefix (hpre.map _)
  have hkeyed : (.scanKeys : BufferCall K V) ∉ ops'.map .op := by simp
  obtain ⟨b, hb, hrep, -⟩ := run_refines (rep_new fresh) mem (.inl rfl) hfit'
  obtain ⟨b', hb', hrep', -⟩ := run_refines (rep_new fresh') mem' (.inr hkeyed) hfit'
  exact ⟨_, b, b', hb, hb', hrep.records.pairs_perm.trans hrep'.records.pairs_perm.symm⟩

/-- Two insertions and a removal. -/
theorem builds_agree_three :
    ∃ results b b',
      run true (fun _ => ⟨none, none⟩) (new ⟨fun _ => 0, fun _ => 0, .unset⟩)
        ([.insert 2 20, .insert 1 10, .remove 2].map .op) = .ok (results, b) ∧
      run false (fun _ => ⟨none, none⟩) (new ⟨fun _ => 0, fun _ => 0, .unset⟩)
        ([.insert 2 20, .insert 1 10, .remove 2].map .op) = .ok (results, b') ∧
      (b.pairs : List (ℕ × ℕ)).Perm b'.pairs :=
  builds_agree _ _ _ _ [.insert 2 20, .insert 1 10, .remove 2] (by decide) _ List.prefix_rfl

/-! ### Full buffers -/

namespace BufferKV

variable {bs : Bool} {b b' : BufferKV K V} {t : Table K V} {k : K} {v : V} {mem : Alloc K V}

theorem bind_ok {α β : Type} {x : Except Fault α} {f : α → Except Fault β} {r : β} (h : x >>= f = .ok r) :
    ∃ a, x = .ok a ∧ f a = .ok r := by
  cases x with
  | error e => cases h
  | ok a => exact ⟨a, rfl, h⟩

/-- An insertion that returns true has found the key, or has added a record. -/
theorem of_insert (h : b.insert bs mem k v = .ok (true, b')) :
    ∃ pos, search bs b k = .ok (true, pos) ∨ ∃ b'', b.addAt mem pos k v = .ok (some b'') := by
  unfold BufferKV.insert at h
  obtain ⟨lock, -, h⟩ := bind_ok h
  split_ifs at h
  obtain ⟨⟨isMatch, pos⟩, hsearch, h⟩ := bind_ok h
  refine ⟨pos, ?_⟩
  dsimp only at h
  split_ifs at h with hpos hmatch
  · exact .inl (hmatch ▸ hsearch)
  · obtain ⟨added, hadded, h⟩ := bind_ok h
    cases added with
    | none => cases h
    | some b'' => exact .inr ⟨b'', hadded⟩

/-- So has an insertion of a new key only. -/
theorem of_insertIfNotExst (h : b.insertIfNotExst bs mem k v = .ok (true, b')) :
    ∃ pos b'', b.addAt mem pos k v = .ok (some b'') := by
  unfold BufferKV.insertIfNotExst at h
  obtain ⟨lock, -, h⟩ := bind_ok h
  split_ifs at h
  obtain ⟨⟨isMatch, pos⟩, -, h⟩ := bind_ok h
  dsimp only at h
  split_ifs at h with hpos hmatch
  · subst hmatch
    cases h
  · obtain ⟨added, hadded, h⟩ := bind_ok h
    cases added with
    | none => cases h
    | some b'' => exact ⟨pos, b'', hadded⟩

/-- No insertion of a new key in a full buffer returns true. -/
theorem insert_full (hfull : b.recordN = b.capacityN) (hk : k ∉ b.keys.take b.recordN) :
    b.insert bs mem k v ≠ .ok (true, b') := by
  intro h
  obtain ⟨pos, hsearch | ⟨b'', hadd⟩⟩ := of_insert h
  · exact hk (mem_of_search hsearch)
  · exact addAt_full_ne hfull pos hadd

theorem insertIfNotExst_full (hfull : b.recordN = b.capacityN) :
    b.insertIfNotExst bs mem k v ≠ .ok (true, b') := by
  intro h
  obtain ⟨pos, b'', hadd⟩ := of_insertIfNotExst h
  exact addAt_full_ne hfull pos hadd

end BufferKV

/-- The insertion has put the new pair into arrays with room for it. -/
def Grows (bs : Bool) (b : BufferKV K V) (k : K) (v : V) (res : Except Fault (Bool × BufferKV K V)) : Prop :=
  ∃ b', res = .ok (true, b') ∧ b'.recordN = b.recordN + 1 ∧ b'.recordN ≤ b'.capacityN ∧
    b'.pairs.Perm ((k, v) :: b.pairs) ∧ (bs = true → (b'.keys.take b'.recordN).Pairwise (· < ·))

/-- **A full buffer takes no new record**, whether or not there is memory for new arrays. -/
theorem never_grows (bs : Bool) (b : BufferKV K V) (k : K) (v : V) (mem : Alloc K V)
    (hfull : b.recordN = b.capacityN) (hk : k ∉ b.keys.take b.recordN) :
    ¬ Grows bs b k v (b.insert bs mem k v) ∧ ¬ Grows bs b k v (b.insertIfNotExst bs mem k v) := by
  constructor
  · rintro ⟨b', h, -⟩
    exact insert_full hfull hk h
  · rintro ⟨b', h, -⟩
    exact insertIfNotExst_full hfull h

/-- One record in arrays of one. -/
def fullBuffer : BufferKV ℕ ℕ := { recordN := 1, capacityN := 1, keys := [1], vals := [10], lock := .free }

/-- It does not grow for a second one. -/
theorem fullBuffer_never_grows :
    ¬ Grows true fullBuffer 2 20 (fullBuffer.insert true ⟨some fun _ => 0, some fun _ => 0⟩ 2 20) := by
  rintro ⟨b', h, -⟩
  exact insert_full rfl (by decide) h

/-- Nor does it in the other build, by either insertion. -/
theorem fullBuffer_takes_none :
    ¬ Grows false fullBuffer 2 20 (fullBuffer.insert false ⟨some fun _ => 0, some fun _ => 0⟩ 2 20) ∧
      ¬ Grows false fullBuffer 2 20 (fullBuffer.insertIfNotExst false ⟨some fun _ => 0, some fun _ => 0⟩ 2 20) :=
  never_grows false fullBuffer 2 20 _ rfl (by decide)

/-! ### Failures -/

/-- There is no memory for one of them. -/
def Alloc.Fails (mem : Alloc K V) : Prop := mem.keys = none ∨ mem.vals = none

/-- On every exit the lock is free, and if that was for lack of memory, everything is as before and no
later operation waits for the lock. -/
def FailsAtomically (bs : Bool) (b : BufferKV K V) (t : Table K V) (mem : Alloc K V) (op : BufferOp K V) :
    Prop :=
  ∀ r b', b.step bs mem op = .ok (r, b') → b'.lock = .free ∧
    (Overflows b t op → mem.Fails →
      (b'.keys = b.keys ∧ b'.vals = b.vals ∧ b'.recordN = b.recordN ∧ b'.capacityN = b.capacityN) ∧
        ∀ mem' op', b'.step bs mem' op' ≠ .error .lock)

namespace BufferKV

variable {bs : Bool} {b : BufferKV K V} {t : Table K V} {k : K} {mem : Alloc K V}

theorem search_absent (h : Records bs b t) (hk : t.get k = none) :
    ∃ pos, search bs b k = .ok (false, pos) ∧ pos ≤ b.capacityN := by
  obtain ⟨rs, hb, hrs⟩ := h
  obtain ⟨⟨isMatch, pos⟩, hsearch, hfound⟩ := search_spec hb hrs.sorted k
  obtain rfl : isMatch = false := by simpa [hk] using hfound.isSome hrs
  exact ⟨pos, hsearch, hfound.le_length.trans (hb.recordN ▸ hb.le)⟩

/-- An insertion into full arrays is what `addAt` makes of it, whatever the position. -/
theorem step_overflow (h : Rep bs b t) {op : BufferOp K V} (hop : Overflows b t op)
    {res : Except Fault (Option (BufferKV K V))} (hadd : ∀ pos k v, b.addAt mem pos k v = res) :
    b.step bs mem op = (do
      match ← res with
      | none => return (.done false, { b with lock := .write })
      | some b' => return (.done true, { b' with lock := .free })) := by
  obtain ⟨hk, hfull⟩ := hop
  cases op with
  | insert k v =>
    obtain ⟨pos, hsearch, hpos⟩ := search_absent h.records hk
    simp only [step, BufferKV.insert, h.free, RwLock.wrlock, bind, Except.bind, if_pos hfull.le, hsearch,
      if_pos hpos, hadd]
    rcases res with _ | (_ | _) <;> rfl
  | insertIfNotExst k v =>
    obtain ⟨pos, hsearch, hpos⟩ := search_absent h.records hk
    simp only [step, insertIfNotExst, h.free, RwLock.wrlock, bind, Except.bind, if_pos hfull.le, hsearch,
      if_pos hpos, hadd]
    rcases res with _ | (_ | _) <;> rfl
  | get k => exact hk.elim
  | remove k => exact hk.elim

/-- Without memory for new arrays an insertion returns false, the lock held for writing. -/
theorem step_exhausted (h : Rep bs b t) {op : BufferOp K V} (hop : Overflows b t op) (hmem : mem.Fails) :
    b.step bs mem op = .ok (.done false, { b with lock := .write }) :=
  step_overflow h hop fun pos k v => (addAt_full hop.2 mem pos k v).trans (if_pos hmem)

/-- With memory, it writes outside the new arrays. -/
theorem step_overruns (h : Rep bs b t) {op : BufferOp K V} (hop : Overflows b t op) (hmem : ¬ mem.Fails) :
    b.step bs mem op = .error .outOfBounds :=
  step_overflow h hop fun pos k v => (addAt_full hop.2 mem pos k v).trans (if_neg hmem)

end BufferKV

/-- **Failures are atomic**, except for want of memory for new arrays: then the lock is kept. An operation
that takes the lock comes to an exit, except if there is that memory: then it writes outside of it. -/
theorem failures_atomic (bs : Bool) (b : BufferKV K V) (t : Table K V) (mem : Alloc K V) (op : BufferOp K V)
    (h : Records bs b t) :
    (FailsAtomically bs b t mem op ↔ ¬ (b.lock = .free ∧ Overflows b t op ∧ mem.Fails)) ∧
      ((∃ r b', b.step bs mem op = .ok (r, b')) ↔ b.lock = .free ∧ ¬ (Overflows b t op ∧ ¬ mem.Fails)) := by
  by_cases hfree : b.lock = .free
  · have hrep : Rep bs b t := ⟨hfree, h⟩
    by_cases hop : Overflows b t op
    · by_cases hmem : mem.Fails
      · have hstep := step_exhausted hrep hop hmem
        refine ⟨iff_of_false (fun hatomic => ?_) (not_not.mpr ⟨hfree, hop, hmem⟩),
          iff_of_true ⟨_, _, hstep⟩ ⟨hfree, fun h => h.2 hmem⟩⟩
        obtain ⟨hlock, -⟩ := hatomic _ _ hstep
        cases hlock
      · have hstep := step_overruns hrep hop hmem
        refine ⟨iff_of_true (fun r b' h => ?_) fun h => hmem h.2.2, iff_of_false ?_ fun h => h.2 ⟨hop, hmem⟩⟩
        · rw [hstep] at h
          cases h
        · rintro ⟨r, b', h⟩
          rw [hstep] at h
          cases h
    · obtain ⟨b', hstep, ⟨hlock, -⟩, -⟩ := step_refines hrep mem op hop
      refine ⟨iff_of_true (fun r b₁ h => ?_) fun h => hop h.2.1,
        iff_of_true ⟨_, b', hstep⟩ ⟨hfree, fun h => hop h.1⟩⟩
      obtain ⟨rfl, rfl⟩ := Prod.mk.inj (Except.ok.inj (hstep.symm.trans h))
      exact ⟨hlock, fun h => absurd h hop⟩
  · have hstep : b.step bs mem op = .error .lock := step_locked hfree mem op
    refine ⟨iff_of_true (fun r b' h => ?_) fun h => hfree h.1, iff_of_false ?_ fun h => hfree h.1⟩
    · rw [hstep] at h
      cases h
    · rintro ⟨r, b', h⟩
      rw [hstep] at h
      cases h

/-- The full buffer, and no memory for the keys of a second record: every later operation waits. -/
theorem fullBuffer_kept :
    Records true fullBuffer (Table.load [(1, 10)]) ∧
      ¬ FailsAtomically true fullBuffer (Table.load [(1, 10)]) ⟨none, some fun _ => 0⟩ (.insert 2 20) := by
  have hrecords : Records true fullBuffer (Table.load [(1, 10)]) :=
    ⟨[(1, 10)], ⟨rfl, ⟨⟨[], rfl⟩, rfl⟩, ⟨⟨[], rfl⟩, rfl⟩⟩, Lists.load (List.pairwise_singleton _ _)⟩
  refine ⟨hrecords, fun h => ?_⟩
  have hk : (Table.load [(1, 10)]).get 2 = none := by decide
  have hop : Overflows fullBuffer (Table.load [(1, 10)]) (.insert 2 20) := ⟨hk, rfl⟩
  obtain ⟨hlock, -⟩ := h _ _ (step_exhausted ⟨rfl, hrecords⟩ hop (.inl rfl))
  cases hlock

/-- Writing over the value of the record it has takes no memory. -/
theorem fullBuffer_overwrites :
    FailsAtomically true fullBuffer (Table.load [(1, 10)]) ⟨none, none⟩ (.insert 1 20) :=
  (failures_atomic true fullBuffer (Table.load [(1, 10)]) ⟨none, none⟩ (.insert 1 20)
    ⟨[(1, 10)], ⟨rfl, ⟨⟨[], rfl⟩, rfl⟩, ⟨⟨[], rfl⟩, rfl⟩⟩, Lists.load (List.pairwise_singleton _ _)⟩).1.mpr
    fun h => absurd h.2.1.1 (show Table.get (Table.load [(1, 10)]) 1 ≠ none by decide)

end

end SidleBaselines.Kv
