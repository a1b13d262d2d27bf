import SidleBaselines.Data.Table

/-!
# The buffer

`BufferKV` keeps its records in two parallel arrays. Compiled with `BS` it keeps them
in key order and searches them by bisection, otherwise in the order of insertion with
a linear search; an insertion or a removal moves the records behind it by `memmove`.
A reader-writer lock is taken around every operation but `scan_keys`. The default
constructor initialises it, the one from vectors does not.

The arrays are lists of `capacity_n` elements of which the first `record_n` are
records; what stands in the others is arbitrary. A read or write outside an array, a
false assertion, and a lock that cannot be taken are faults.

## What is proved

* `searchLoop_spec` — the bisection ends at the lower bound, without reading outside
  the records.
* `search_spec` — either search says where a key is, or where it has to be put.
* `Column.memmove_up`, `Column.memmove_down` — what the two moves leave of an array.
* `get_spec`, `insert_spec`, `insertIfNotExst_spec`, `remove_spec`, `scanKeys_spec` —
  one operation on a buffer that holds some records, and is not full of others.
-/

namespace SidleBaselines.Kv

open SidleBaselines.Data

/-- What ends an operation before it returns. -/
inductive Fault where
  /-- An element outside an array is read or written. -/
  | outOfBounds
  /-- An assertion is false. -/
  | assertion
  /-- The lock is held and nobody gives it back, or is no lock. -/
  | lock
  deriving DecidableEq

/-! ### The lock -/

/-- What the memory of a `pthread_rwlock_t` holds. -/
inductive RwLock where
  /-- No lock: it has not been initialised. -/
  | unset
  /-- A free lock. -/
  | free
  /-- A lock held for reading. -/
  | read
  /-- A lock held for writing. -/
  | write
  deriving DecidableEq

namespace RwLock

/-- `pthread_rwlock_rdlock`, where no other thread has the lock. -/
def rdlock : RwLock → Except Fault RwLock
  | free => .ok read
  | _ => .error .lock

/-- `pthread_rwlock_wrlock`, where no other thread has the lock. -/
def wrlock : RwLock → Except Fault RwLock
  | free => .ok write
  | _ => .error .lock

/-- `pthread_rwlock_unlock`. -/
def unlock : RwLock → RwLock
  | unset => unset
  | _ => free

end RwLock

/-! ### Arrays -/

section Arrays
variable {α : Type}

/-- `p[i]`. -/
def fetch (p : List α) (i : ℕ) : Except Fault α :=
  match p[i]? with
  | some x => .ok x
  | none => .error .outOfBounds

/-- `p[i] = x`. -/
def store (p : List α) (i : ℕ) (x : α) : Except Fault (List α) :=
  if i < p.length then .ok (p.set i x) else .error .outOfBounds

/-- `memcpy(p + dst, q + src, n)`, in elements. -/
def memcpy (p : List α) (dst : ℕ) (q : List α) (src n : ℕ) : Except Fault (List α) :=
  if dst + n ≤ p.length ∧ src + n ≤ q.length then
    .ok (p.take dst ++ (q.drop src).take n ++ p.drop (dst + n))
  else .error .outOfBounds

/-- `memmove(p + dst, p + src, n)`: as if by way of another array. -/
def memmove (p : List α) (dst src n : ℕ) : Except Fault (List α) := memcpy p dst p src n

/-- `new α[n]`, where the memory holds what `mem` says, or there is none. -/
def newArray (mem : Option (ℕ → α)) (n : ℕ) : Option (List α) := mem.map fun f => (List.range n).map f

end Arrays

/-! ### The class -/

/-- `BufferKV`. -/
structure BufferKV (K V : Type) where
  /-- `record_n`. -/
  recordN : ℕ
  /-- `capacity_n`. -/
  capacityN : ℕ
  /-- `keys`. -/
  keys : List K
  /-- `vals`. -/
  vals : List V
  /-- `lock`. -/
  lock : RwLock

/-- What the memory of a new object and of its arrays happens to hold. -/
structure Fresh (K V : Type) where
  /-- In the array of keys. -/
  key : ℕ → K
  /-- In the array of values. -/
  val : ℕ → V
  /-- In the member `lock`. -/
  lock : RwLock

/-- What the two allocations of an insertion give: memory holding something, or nothing. -/
structure Alloc (K V : Type) where
  /-- To `new key_t[new_capacity]`. -/
  keys : Option (ℕ → K)
  /-- To `new val_t[new_capacity]`. -/
  vals : Option (ℕ → V)

/-- Vectors for the constructor: as many values as keys, the keys strictly ascending. -/
structure InitVectors (K V : Type) [LinearOrder K] where
  /-- `init_keys`. -/
  keys : List K
  /-- `init_vals`. -/
  vals : List V
  ascending : keys.Pairwise (· < ·)
  sameLength : vals.length = keys.length

namespace BufferKV

section
variable {K V : Type}

/-- `BufferKV()`. -/
def new (mem : Fresh K V) : BufferKV K V :=
  { recordN := 0
    capacityN := 1024
    keys := (List.range 1024).map mem.key
    vals := (List.range 1024).map mem.val
    lock := .free }

/-- `BufferKV(init_keys, init_vals, capacity)`: the initialisation of the lock is commented out. -/
def ofVectors [LinearOrder K] (mem : Fresh K V) (init : InitVectors K V) (capacity : ℕ) : BufferKV K V :=
  let capacityN := if capacity < init.keys.length then init.keys.length else capacity
  { recordN := init.keys.length
    capacityN
    keys := init.keys ++ ((List.range capacityN).map mem.key).drop init.keys.length
    vals := init.vals ++ ((List.range capacityN).map mem.val).drop init.keys.length
    lock := mem.lock }

variable [LinearOrder K]

/-- The loop of `binary_search`, to the bounds and the `mid` it ends with; `mid` is always the
middle of the bounds. -/
def searchLoop (keys : List K) (k : K) (searchBegin searchEnd mid : ℕ)
    (_mid : mid = (searchBegin + searchEnd) / 2) : Except Fault (ℕ × ℕ × ℕ) :=
  if searchEnd > searchBegin then
    match keys[mid]? with
    | none => .error .outOfBounds
    | some key =>
      if key < k then searchLoop keys k (mid + 1) searchEnd ((mid + 1 + searchEnd) / 2) rfl
      else searchLoop keys k searchBegin mid ((searchBegin + mid) / 2) rfl
  else .ok (searchBegin, searchEnd, mid)
termination_by searchEnd - searchBegin

/-- `binary_search`: `match` and `pos`. -/
def binarySearch (b : BufferKV K V) (k : K) : Except Fault (Bool × ℕ) := do
  let (searchBegin, searchEnd, mid) ← searchLoop b.keys k 0 b.recordN (b.recordN / 2) (by rw [Nat.zero_add])
  if searchBegin = searchEnd ∧ searchBegin = mid then
    let pos := mid
    if pos < b.recordN then
      let key ← fetch b.keys pos
      return (decide (key = k), pos)
    else return (false, pos)
  else .error .assertion

/-- The loop of `linear_search`, from `i`. -/
def linearLoop (keys : List K) (k : K) (recordN i : ℕ) : Except Fault (Bool × ℕ) :=
  if i < recordN then
    match keys[i]? with
    | none => .error .outOfBounds
    | some key => if k = key then .ok (true, i) else linearLoop keys k recordN (i + 1)
  else .ok (false, recordN)
termination_by recordN - i

/-- `linear_search`. -/
def linearSearch (b : BufferKV K V) (k : K) : Except Fault (Bool × ℕ) := linearLoop b.keys k b.recordN 0

/-- The search of the build with `BS` defined, or of the one without. -/
def search (bs : Bool) (b : BufferKV K V) (k : K) : Except Fault (Bool × ℕ) :=
  if bs then b.binarySearch k else b.linearSearch k

/-- `get`: `match`, and the value read if it is true. -/
def get (bs : Bool) (b : BufferKV K V) (k : K) : Except Fault (Option V × BufferKV K V) := do
  let lock ← b.lock.rdlock
  let (isMatch, pos) ← search bs b k
  if isMatch then
    let v ← fetch b.vals pos
    return (some v, { b with lock := lock.unlock })
  else return (none, { b with lock := lock.unlock })

/-- The arrays are full: new ones of `capacity_n >> 2` elements get the records before `pos`, those
behind it, and the new one. Nothing, where one of them is not to be had. -/
def grow (b : BufferKV K V) (mem : Alloc K V) (pos : ℕ) (k : K) (v : V) :
    Except Fault (Option (BufferKV K V)) :=
  let newCapacity := b.capacityN >>> 2
  match newArray mem.keys newCapacity with
  | none => .ok none
  | some newKeys =>
    match newArray mem.vals newCapacity with
    | none => .ok none
    | some newVals => do
      let newKeys ← memcpy newKeys 0 b.keys 0 pos
      let newVals ← memcpy newVals 0 b.vals 0 pos
      let newKeys ← memcpy newKeys (pos + 1) b.keys pos (b.recordN - pos)
      let newVals ← memcpy newVals (pos + 1) b.vals pos (b.recordN - pos)
      let newKeys ← store newKeys pos k
      let newVals ← store newVals pos v
      return some { b with keys := newKeys, vals := newVals, capacityN := newCapacity, recordN := b.recordN + 1 }

/-- The records from `pos` on make room for the new one. -/
def shift (b : BufferKV K V) (pos : ℕ) (k : K) (v : V) : Except Fault (BufferKV K V) := do
  let keys ← memmove b.keys (pos + 1) pos (b.recordN - pos)
  let vals ← memmove b.vals (pos + 1) pos (b.recordN - pos)
  let keys ← store keys pos k
  let vals ← store vals pos v
  return { b with keys, vals, recordN := b.recordN + 1 }

/-- The record is put at `pos`, in new arrays where these are full. -/
def addAt (b : BufferKV K V) (mem : Alloc K V) (pos : ℕ) (k : K) (v : V) :
    Except Fault (Option (BufferKV K V)) :=
  if b.recordN = b.capacityN then b.grow mem pos k v else some <$> b.shift pos k v

/-- `insert_if_not_exst`. Without memory it returns at once, the lock still held. -/
def insertIfNotExst (bs : Bool) (b : BufferKV K V) (mem : Alloc K V) (k : K) (v : V) :
    Except Fault (Bool × BufferKV K V) := do
  let lock ← b.lock.wrlock
  if b.recordN ≤ b.capacityN then
    let (isMatch, pos) ← search bs b k
    if pos ≤ b.capacityN then
      if isMatch then return (!isMatch, { b with lock := lock.unlock })
      else
        match ← b.addAt mem pos k v with
        | none => return (false, { b with lock })
        | some b' => return (!isMatch, { b' with lock := lock.unlock })
    else .error .assertion
  else .error .assertion

/-- `insert`. Without memory it returns at once, the lock still held. -/
def insert (bs : Bool) (b : BufferKV K V) (mem : Alloc K V) (k : K) (v : V) :
    Except Fault (Bool × BufferKV K V) := do
  let lock ← b.lock.wrlock
  if b.recordN ≤ b.capacityN then
    let (isMatch, pos) ← search bs b k
    if pos ≤ b.capacityN then
      if isMatch then
        let vals ← store b.vals pos v
        return (true, { b with vals, lock := lock.unlock })
      else
        match ← b.addAt mem pos k v with
        | none => return (false, { b with lock })
        | some b' => return (true, { b' with lock := lock.unlock })
    else .error .assertion
  else .error .assertion

/-- `remove`. -/
def remove (bs : Bool) (b : BufferKV K V) (k : K) : Except Fault (Bool × BufferKV K V) := do
  let lock ← b.lock.wrlock
  if b.recordN ≤ b.capacityN then
    let (isMatch, pos) ← search bs b k
    if isMatch then
      let keys ← memmove b.keys pos (pos + 1) (b.recordN - pos - 1)
      let vals ← memmove b.vals pos (pos + 1) (b.recordN - pos - 1)
      return (isMatch, { b with keys, vals, recordN := b.recordN - 1, lock := lock.unlock })
    else return (isMatch, { b with lock := lock.unlock })
  else .error .assertion

/-- `scan_keys`: the keys it appends to `result`. -/
def scanKeys (b : BufferKV K V) : Except Fault (List K) := (List.range b.recordN).mapM (fetch b.keys)

end

end BufferKV

/-! ### Arrays that begin with given elements -/

section
variable {α : Type} {p q arr : List α} {x : α} {n : ℕ}

/-- An array of `n` elements that begins with `xs`. -/
def Column (xs arr : List α) (n : ℕ) : Prop := xs <+: arr ∧ arr.length = n

theorem Column.fetch (h : Column (p ++ x :: q) arr n) : fetch arr p.length = .ok x := by
  obtain ⟨⟨rest, rfl⟩, -⟩ := h
  simp [Kv.fetch]

/-- An element is written over. -/
theorem Column.store (h : Column (p ++ x :: q) arr n) (y : α) :
    ∃ arr', store arr p.length y = .ok arr' ∧ Column (p ++ y :: q) arr' n := by
  obtain ⟨⟨rest, rfl⟩, rfl⟩ := h
  refine ⟨p ++ y :: q ++ rest, ?_, ⟨rest, rfl⟩, by simp⟩
  unfold Kv.store
  rw [if_pos (by simp), List.append_assoc, List.append_assoc, List.set_append_right _ _ le_rfl, Nat.sub_self]
  rfl

/-- The elements from `p` on move up, over the first one behind them. -/
theorem Column.memmove_up (h : Column (p ++ q) arr n) (hn : (p ++ q).length < n) :
    ∃ x arr', memmove arr (p.length + 1) p.length q.length = .ok arr' ∧ Column (p ++ x :: q) arr' n := by
  obtain ⟨⟨rest, rfl⟩, rfl⟩ := h
  have hrest : 0 < rest.length := by
    simp only [List.length_append] at hn
    omega
  obtain ⟨z, rest, rfl⟩ := List.exists_cons_of_length_pos hrest
  obtain ⟨x, q', hq⟩ : ∃ x q', q ++ z :: rest = x :: q' := by
    cases q with
    | nil => exact ⟨z, rest, rfl⟩
    | cons x q' => exact ⟨x, q' ++ z :: rest, rfl⟩
  refine ⟨x, p ++ x :: q ++ rest, ?_, ⟨rest, rfl⟩, by simp; omega⟩
  have htake : (p ++ (q ++ z :: rest)).take (p.length + 1) = p ++ [x] := by
    rw [List.take_length_add_append, hq, List.take_succ_cons, List.take_zero]
  have hdrop : (p ++ (q ++ z :: rest)).drop (p.length + 1 + q.length) = rest := by
    rw [Nat.add_assoc, List.drop_length_add_append, Nat.add_comm 1, List.drop_length_add_append]
    rfl
  unfold memmove memcpy
  rw [List.append_assoc p q, if_pos (by simp only [List.length_append, List.length_cons]; omega), htake,
    hdrop, List.drop_left, List.take_left]
  simp

/-- The elements behind `x` move down over it. -/
theorem Column.memmove_down (h : Column (p ++ x :: q) arr n) :
    ∃ arr', memmove arr p.length (p.length + 1) q.length = .ok arr' ∧ Column (p ++ q) arr' n := by
  obtain ⟨⟨rest, rfl⟩, rfl⟩ := h
  refine ⟨p ++ q ++ (x :: (q ++ rest)).drop q.length, ?_, ⟨_, rfl⟩, ?_⟩
  · have hdrop : (p ++ x :: (q ++ rest)).drop (p.length + 1) = q ++ rest := by
      rw [List.drop_length_add_append, List.drop_succ_cons, List.drop_zero]
    unfold memmove memcpy
    rw [List.append_assoc p, List.cons_append, List.append_assoc p,
      if_pos (by simp only [List.length_append, List.length_cons]; omega), hdrop, List.drop_length_add_append,
      List.take_left, List.take_left, List.append_assoc]
  · simp only [List.length_append, List.length_drop, List.length_cons]
    omega

/-- Reading one after the other. -/
theorem mapM_fetch (p xs rest : List α) :
    (List.range' p.length xs.length).mapM (fetch (p ++ (xs ++ rest))) = .ok xs := by
  induction xs generalizing p with
  | nil => rfl
  | cons x xs ih =>
    have hfetch : Kv.fetch (p ++ (x :: xs ++ rest)) p.length = .ok x := by simp [Kv.fetch]
    have hrest := ih (p ++ [x])
    rw [List.length_append, List.length_singleton, List.append_assoc] at hrest
    rw [List.length_cons, List.range'_succ, List.mapM_cons, hfetch]
    simp only [bind, Except.bind]
    rw [show x :: xs ++ rest = [x] ++ (xs ++ rest) from rfl, hrest]
    rfl

end

namespace BufferKV

section
variable {K V : Type}

/-- The buffer's records are `rs`. -/
structure Holds (b : BufferKV K V) (rs : List (K × V)) : Prop where
  recordN : b.recordN = rs.length
  keys : Column (rs.map Prod.fst) b.keys b.capacityN
  vals : Column (rs.map Prod.snd) b.vals b.capacityN

variable {b : BufferKV K V} {rs l r : List (K × V)} {mem : Alloc K V}

theorem Holds.le (h : Holds b rs) : b.recordN ≤ b.capacityN := by
  rw [h.recordN, ← h.keys.2, ← List.length_map Prod.fst]
  exact h.keys.1.length_le

/-- The records. -/
def pairs (b : BufferKV K V) : List (K × V) := (b.keys.zip b.vals).take b.recordN

theorem Holds.pairs (h : Holds b rs) : b.pairs = rs := by
  obtain ⟨⟨keys, hkeys⟩, -⟩ := h.keys
  obtain ⟨⟨vals, hvals⟩, -⟩ := h.vals
  unfold BufferKV.pairs
  rw [← hkeys, ← hvals, List.zip_append (by simp), h.recordN, List.zip_map']
  simp

theorem Holds.getElem_keys {e : K × V} (h : Holds b (l ++ e :: r)) :
    b.keys[l.length]? = some e.1 := by
  obtain ⟨⟨rest, hrest⟩, -⟩ := h.keys
  rw [← hrest]
  simp

/-! ### Moving records -/

theorem Holds.setLock (h : Holds b rs) (lock : RwLock) : Holds { b with lock := lock } rs :=
  ⟨h.recordN, h.keys, h.vals⟩

/-- With room for it, a record is put at its place. -/
theorem shift_spec (h : Holds b (l ++ r)) (hn : b.recordN < b.capacityN) (k : K) (v : V) :
    ∃ b', b.shift l.length k v = .ok b' ∧ Holds b' (l ++ (k, v) :: r) ∧ b'.capacityN = b.capacityN ∧
      b'.lock = b.lock := by
  obtain ⟨hrecordN, hkeys, hvals⟩ := h
  rw [List.map_append] at hkeys hvals
  have hmoved : b.recordN - l.length = r.length := by rw [hrecordN, List.length_append]; omega
  have hroom : l.length + r.length < b.capacityN := by rwa [hrecordN, List.length_append] at hn
  obtain ⟨k', keys, hkeys₁, hcolumn⟩ := hkeys.memmove_up (by simpa using hroom)
  obtain ⟨keys', hkeys₂, hkeys'⟩ := hcolumn.store k
  obtain ⟨v', vals, hvals₁, hcolumn⟩ := hvals.memmove_up (by simpa using hroom)
  obtain ⟨vals', hvals₂, hvals'⟩ := hcolumn.store v
  rw [List.length_map, List.length_map] at hkeys₁ hvals₁
  rw [List.length_map] at hkeys₂ hvals₂
  refine ⟨{ b with keys := keys', vals := vals', recordN := b.recordN + 1 }, ?_, ?_, rfl, rfl⟩
  · unfold shift
    rw [hmoved, hkeys₁, hvals₁]
    simp only [bind, Except.bind, hkeys₂, hvals₂]
    rfl
  · refine ⟨?_, ?_, ?_⟩
    · simp only [hrecordN, List.length_append, List.length_cons]
      omega
    · rwa [List.map_append, List.map_cons]
    · rwa [List.map_append, List.map_cons]

theorem addAt_spec (h : Holds b (l ++ r)) (hn : b.recordN < b.capacityN) (mem : Alloc K V) (k : K) (v : V) :
    ∃ b', b.addAt mem l.length k v = .ok (some b') ∧ Holds b' (l ++ (k, v) :: r) ∧
      b'.capacityN = b.capacityN ∧ b'.lock = b.lock := by
  obtain ⟨b', hb', hspec⟩ := shift_spec h hn k v
  refine ⟨b', ?_, hspec⟩
  unfold addAt
  rw [if_neg hn.ne, hb']
  rfl

/-- Nothing is put behind the end of an array. -/
theorem memcpy_overrun {α : Type} {p q : List α} {dst src n : ℕ} (h : p.length < dst + n) :
    memcpy p dst q src n = .error .outOfBounds := by
  unfold memcpy
  rw [if_neg (by omega)]

theorem memcpy_cases {α : Type} (p q : List α) (dst src n : ℕ) :
    memcpy p dst q src n = .error .outOfBounds ∨
      ∃ p', memcpy p dst q src n = .ok p' ∧ p'.length = p.length := by
  unfold memcpy
  split
  · next h =>
    refine .inr ⟨_, rfl, ?_⟩
    simp only [List.length_append, List.length_take, List.length_drop]
    omega
  · exact .inl rfl

/-- `capacity_n >> 2` elements are too few for the records that did not fit in `capacity_n`. -/
theorem grow_overruns (h : b.recordN = b.capacityN) (f : ℕ → K) (g : ℕ → V) (pos : ℕ) (k : K) (v : V) :
    b.grow ⟨some f, some g⟩ pos k v = .error .outOfBounds := by
  have hsmall : b.capacityN >>> 2 < pos + 1 + (b.recordN - pos) := by
    rw [Nat.shiftRight_eq_div_pow]
    omega
  unfold grow newArray
  simp only [Option.map_some, bind, Except.bind]
  rcases memcpy_cases ((List.range (b.capacityN >>> 2)).map f) b.keys 0 0 pos with hkeys | ⟨keys, hkeys, hlength⟩
  · rw [hkeys]
  rw [hkeys]
  rcases memcpy_cases ((List.range (b.capacityN >>> 2)).map g) b.vals 0 0 pos with hvals | ⟨vals, hvals, -⟩
  · rw [hvals]
  rw [hvals]
  have hoverrun : memcpy keys (pos + 1) b.keys pos (b.recordN - pos) = .error .outOfBounds :=
    memcpy_overrun (by rwa [hlength, List.length_map, List.length_range])
  simp only [hoverrun]

theorem grow_exhausted (h : mem.keys = none ∨ mem.vals = none) (pos : ℕ) (k : K) (v : V) :
    b.grow mem pos k v = .ok none := by
  unfold grow newArray
  rcases h with h | h
  · rw [h]
    rfl
  · rw [h]
    cases mem.keys <;> rfl

/-- A full buffer takes no further record, whatever memory there is. -/
theorem addAt_full (h : b.recordN = b.capacityN) (mem : Alloc K V) (pos : ℕ) (k : K) (v : V) :
    b.addAt mem pos k v = if mem.keys = none ∨ mem.vals = none then .ok none else .error .outOfBounds := by
  unfold addAt
  rw [if_pos h]
  obtain ⟨keys, vals⟩ := mem
  split
  · next hnone => exact grow_exhausted hnone pos k v
  · next hsome =>
    rw [not_or] at hsome
    obtain ⟨f, rfl⟩ := Option.ne_none_iff_exists'.mp hsome.1
    obtain ⟨g, rfl⟩ := Option.ne_none_iff_exists'.mp hsome.2
    exact grow_overruns h f g pos k v

theorem addAt_full_ne {b' : BufferKV K V} {k : K} {v : V} (hfull : b.recordN = b.capacityN)
    (pos : ℕ) : b.addAt mem pos k v ≠ .ok (some b') := by
  rw [addAt_full hfull]
  split <;> exact nofun

/-- `scan_keys` needs no lock: it reads the keys in the order of the array. -/
theorem scanKeys_spec (h : Holds b rs) : b.scanKeys = .ok (rs.map Prod.fst) := by
  obtain ⟨⟨rest, hrest⟩, -⟩ := h.keys
  unfold scanKeys
  rw [h.recordN, ← hrest, ← List.length_map Prod.fst, List.range_eq_range']
  exact mapM_fetch [] (rs.map Prod.fst) rest

variable [LinearOrder K]

/-! ### The searches -/

/-- The bisection ends where the keys stop being below `k`. -/
theorem searchLoop_spec {keys : List K} {k : K} {n p : ℕ}
    (hkeys : ∀ i < n, ∃ key, keys[i]? = some key ∧ (key < k ↔ i < p)) (searchBegin searchEnd mid : ℕ)
    (hmid : mid = (searchBegin + searchEnd) / 2) (hbegin : searchBegin ≤ p) (hend : p ≤ searchEnd)
    (hn : searchEnd ≤ n) : searchLoop keys k searchBegin searchEnd mid hmid = .ok (p, p, p) := by
  fun_induction searchLoop keys k searchBegin searchEnd mid hmid with
  | case1 b e hlt hnone =>
    obtain ⟨key, hkey, -⟩ := hkeys ((b + e) / 2) (by omega)
    rw [hkey] at hnone
    cases hnone
  | case2 b e hlt key hbelow hkey ih =>
    obtain ⟨key', hkey', hiff⟩ := hkeys ((b + e) / 2) (by omega)
    obtain rfl := Option.some.inj (hkey.symm.trans hkey')
    exact ih (hiff.mp hbelow) hend hn
  | case3 b e hlt key hbelow hkey ih =>
    obtain ⟨key', hkey', hiff⟩ := hkeys ((b + e) / 2) (by omega)
    obtain rfl := Option.some.inj (hkey.symm.trans hkey')
    exact ih hbegin (not_lt.mp fun h => hbelow (hiff.mpr h)) (by omega)
  | case4 b e hlt =>
    obtain rfl : b = p := by omega
    obtain rfl : e = b := by omega
    rw [show (e + e) / 2 = e by omega]

/-- Where a search for `k` in `rs` ends: at the record of `k`, or where one has to be put. -/
inductive Found (bs : Bool) (k : K) (rs : List (K × V)) : Bool × ℕ → Prop where
  /-- At its record. -/
  | hit {l r : List (K × V)} {u : V} : rs = l ++ (k, u) :: r → Found bs k rs (true, l.length)
  /-- There is none; in the sorted build the place is between those below and those above. -/
  | miss {l r : List (K × V)} : rs = l ++ r → (∀ e ∈ rs, e.1 ≠ k) →
      (bs = true → (∀ e ∈ l, e.1 < k) ∧ ∀ e ∈ r, k < e.1) → Found bs k rs (false, l.length)

/-- The records below `k`, and the others. -/
theorem exists_split {rs : List (K × V)} (hrs : rs.Pairwise fun e f => e.1 < f.1) (k : K) :
    ∃ l r, rs = l ++ r ∧ (∀ e ∈ l, e.1 < k) ∧ ∀ e ∈ r, k ≤ e.1 := by
  induction rs with
  | nil => exact ⟨[], [], rfl, by simp, by simp⟩
  | cons e rs ih =>
    obtain ⟨hlt, hrs⟩ := List.pairwise_cons.mp hrs
    by_cases he : e.1 < k
    · obtain ⟨l, r, rfl, hl, hr⟩ := ih hrs
      exact ⟨e :: l, r, rfl, List.forall_mem_cons.mpr ⟨he, hl⟩, hr⟩
    · have hk : k ≤ e.1 := not_lt.mp he
      exact ⟨[], e :: rs, rfl, by simp, List.forall_mem_cons.mpr ⟨hk, fun f hf => hk.trans (hlt f hf).le⟩⟩

/-- The bisection of the records ends behind those below `k`. -/
theorem searchLoop_records {k : K} (h : Holds b (l ++ r)) (hl : ∀ e ∈ l, e.1 < k)
    (hr : ∀ e ∈ r, k ≤ e.1) :
    searchLoop b.keys k 0 b.recordN (b.recordN / 2) (by rw [Nat.zero_add]) =
      .ok (l.length, l.length, l.length) := by
  obtain ⟨⟨rest, hrest⟩, -⟩ := h.keys
  have hn := h.recordN
  rw [List.length_append] at hn
  refine searchLoop_spec (n := b.recordN) (fun i hi => ?_) 0 b.recordN _ _ (Nat.zero_le _) (by omega) le_rfl
  rw [← hrest, List.map_append, List.append_assoc]
  rcases lt_or_ge i l.length with hlt | hge
  · refine ⟨l[i].1, ?_, iff_of_true (hl _ (List.getElem_mem hlt)) hlt⟩
    rw [List.getElem?_append_left (by rwa [List.length_map]), List.getElem?_map, List.getElem?_eq_getElem hlt]
    rfl
  · have hir : i - l.length < r.length := by omega
    refine ⟨r[i - l.length].1, ?_, iff_of_false (hr _ (List.getElem_mem hir)).not_gt hge.not_gt⟩
    rw [List.getElem?_append_right (by rwa [List.length_map]), List.length_map,
      List.getElem?_append_left (by rwa [List.length_map]), List.getElem?_map, List.getElem?_eq_getElem hir]
    rfl

/-- `binary_search` finds the lower bound, and whether `k` is there. -/
theorem binarySearch_spec {k : K} (h : Holds b (l ++ r)) (hl : ∀ e ∈ l, e.1 < k)
    (hr : ∀ e ∈ r, k ≤ e.1) :
    b.binarySearch k = .ok (decide (∃ e ∈ r.head?, e.1 = k), l.length) := by
  have hn := h.recordN
  rw [List.length_append] at hn
  unfold binarySearch
  rw [searchLoop_records h hl hr]
  simp only [bind, Except.bind, and_self, if_true]
  cases r with
  | nil =>
    rw [if_neg (by simp only [List.length_nil] at hn; omega)]
    simp
    rfl
  | cons e r =>
    have hfetch : fetch b.keys l.length = .ok e.1 := by
      unfold fetch
      rw [h.getElem_keys]
    rw [if_pos (by simp only [List.length_cons] at hn; omega), hfetch]
    simp
    rfl

theorem linearLoop_spec {k : K} (h : Holds b (l ++ r)) (hl : ∀ e ∈ l, e.1 ≠ k) :
    ∃ res, linearLoop b.keys k b.recordN l.length = .ok res ∧ Found false k (l ++ r) res := by
  induction r generalizing l with
  | nil =>
    have hn := h.recordN
    rw [List.append_nil] at hn ⊢
    refine ⟨(false, l.length), ?_, .miss (List.append_nil l).symm hl (by simp)⟩
    unfold linearLoop
    rw [if_neg (by omega), hn]
  | cons e r ih =>
    have hn := h.recordN
    rw [List.length_append, List.length_cons] at hn
    unfold linearLoop
    rw [if_pos (by omega), h.getElem_keys]
    by_cases hk : k = e.1
    · refine ⟨(true, l.length), if_pos hk, .hit (u := e.2) (r := r) ?_⟩
      rw [hk]
    · have hsnoc : l ++ e :: r = l ++ [e] ++ r := by simp
      rw [hsnoc] at h ⊢
      obtain ⟨res, hres, hfound⟩ := ih h fun f hf => by
        rcases List.mem_append.mp hf with hf | hf
        · exact hl f hf
        · rw [List.mem_singleton.mp hf]
          exact Ne.symm hk
      rw [List.length_append] at hres
      exact ⟨res, (if_neg hk).trans hres, hfound⟩

/-- Whatever the array holds, only a key among the records is found. -/
theorem mem_of_search {bs : Bool} {k : K} {pos : ℕ} (h : search bs b k = .ok (true, pos)) :
    k ∈ b.keys.take b.recordN := by
  have hmem : ∀ {i : ℕ}, i < b.recordN → b.keys[i]? = some k → k ∈ b.keys.take b.recordN := by
    intro i hi hkey
    refine List.mem_iff_getElem?.mpr ⟨i, ?_⟩
    rw [List.getElem?_take_of_lt hi, hkey]
  cases bs with
  | false =>
    have hloop : ∀ i, linearLoop b.keys k b.recordN i = .ok (true, pos) → k ∈ b.keys.take b.recordN := by
      intro i hi
      fun_induction linearLoop b.keys k b.recordN i with
      | case1 i hlt hnone => cases hi
      | case2 i hlt hkey => exact hmem hlt hkey
      | case3 i hlt key hkey hne ih => exact ih hi
      | case4 i hlt => cases hi
    exact hloop 0 h
  | true =>
    change b.binarySearch k = .ok (true, pos) at h
    unfold binarySearch at h
    cases hloop : searchLoop b.keys k 0 b.recordN (b.recordN / 2) (by rw [Nat.zero_add]) with
    | error e =>
      rw [hloop] at h
      cases h
    | ok res =>
      obtain ⟨searchBegin, searchEnd, mid⟩ := res
      rw [hloop] at h
      simp only [bind, Except.bind, pure, Except.pure] at h
      split_ifs at h with hends hlt
      · unfold fetch at h
        cases hkey : b.keys[mid]? with
        | none =>
          rw [hkey] at h
          cases h
        | some key =>
          rw [hkey] at h
          simp only [Except.ok.injEq, Prod.mk.injEq, decide_eq_true_eq] at h
          exact hmem hlt (h.1 ▸ hkey)
      · cases h

/-- Both searches find `k`, or where to put it. -/
theorem search_spec {bs : Bool} (h : Holds b rs) (hrs : bs = true → rs.Pairwise fun e f => e.1 < f.1)
    (k : K) :
    ∃ res, search bs b k = .ok res ∧ Found bs k rs res := by
  cases bs with
  | false => exact linearLoop_spec (l := []) h (by simp)
  | true =>
    obtain ⟨l, r, rfl, hl, hr⟩ := exists_split (hrs rfl) k
    refine ⟨_, binarySearch_spec h hl hr, ?_⟩
    have hlk : ∀ e ∈ l, e.1 ≠ k := fun e he => (hl e he).ne
    have hsorted := (List.pairwise_append.mp (hrs rfl)).2.1
    cases r with
    | nil =>
      have hmiss : Found true k l (false, l.length) :=
        .miss (r := []) (List.append_nil l).symm hlk fun _ => ⟨hl, by simp⟩
      simpa using hmiss
    | cons e r =>
      obtain ⟨her, -⟩ := List.pairwise_cons.mp hsorted
      obtain ⟨hke, -⟩ := List.forall_mem_cons.mp hr
      rcases hke.eq_or_lt with rfl | hlt
      · simpa using Found.hit rfl
      · have hrk : ∀ f ∈ e :: r, k < f.1 := List.forall_mem_cons.mpr ⟨hlt, fun f hf => hlt.trans (her f hf)⟩
        have hdecide : decide (∃ f ∈ (e :: r).head?, f.1 = k) = false := by simpa using hlt.ne'
        rw [hdecide]
        refine .miss rfl (fun f hf => ?_) fun _ => ⟨hl, hrk⟩
        rcases List.mem_append.mp hf with hf | hf
        · exact hlk f hf
        · exact (hrk f hf).ne'

/-! ### The operations -/

/-- `rs` lists the rows of `t`; in the sorted build, in key order. -/
structure Lists (bs : Bool) (rs : List (K × V)) (t : Table K V) : Prop where
  perm : rs.Perm t.entries
  sorted : bs = true → rs.Pairwise fun e f => e.1 < f.1

namespace Lists

variable {bs : Bool} {t : Table K V} {k : K} {u v : V}

theorem length_eq (h : Lists bs rs t) : rs.length = t.entries.length := h.perm.length_eq

theorem get_hit (h : Lists bs (l ++ (k, u) :: r) t) : t.get k = some u :=
  Table.mem_entries.mp (h.perm.mem_iff.mp (List.mem_append_right l List.mem_cons_self))

theorem get_miss (h : Lists bs rs t) (hk : ∀ e ∈ rs, e.1 ≠ k) : t.get k = none := by
  rw [Option.eq_none_iff_forall_ne_some]
  intro v hv
  exact hk (k, v) (h.perm.mem_iff.mpr (Table.mem_entries.mpr hv)) rfl

/-- A record is taken away. -/
theorem remove (h : Lists bs (l ++ (k, u) :: r) t) : Lists bs (l ++ r) (t.remove k) := by
  constructor
  · exact (List.perm_middle.symm.trans (h.perm.trans (Table.entries_remove h.get_hit))).cons_inv
  · intro hbs
    exact (h.sorted hbs).sublist ((List.sublist_cons_self (k, u) r).append_left l)

/-- A record is added. -/
theorem add (h : Lists bs (l ++ r) t) (hk : t.get k = none)
    (hlr : bs = true → (∀ e ∈ l, e.1 < k) ∧ ∀ e ∈ r, k < e.1) :
    Lists bs (l ++ (k, v) :: r) (t.insert k v) := by
  constructor
  · exact List.perm_middle.trans ((h.perm.cons (k, v)).trans (Table.entries_insert_new hk).symm)
  · intro hbs
    obtain ⟨hl, hr⟩ := hlr hbs
    obtain ⟨hsl, hsr, hlt⟩ := List.pairwise_append.mp (h.sorted hbs)
    refine List.pairwise_append.mpr ⟨hsl, List.pairwise_cons.mpr ⟨hr, hsr⟩, fun e he f hf => ?_⟩
    rcases List.mem_cons.mp hf with rfl | hf
    · exact hl e he
    · exact hlt e he f hf

/-- A value is written over. -/
theorem set (h : Lists bs (l ++ (k, u) :: r) t) : Lists bs (l ++ (k, v) :: r) (t.insert k v) := by
  have hinsert : (t.remove k).insert k v = t.insert k v := by
    apply Table.ext_get
    intro a
    rw [Table.get_insert, Table.get_insert, Table.get_remove]
    split <;> rfl
  rw [← hinsert]
  refine h.remove.add Table.get_remove_self fun hbs => ?_
  obtain ⟨-, hsr, hlt⟩ := List.pairwise_append.mp (h.sorted hbs)
  exact ⟨fun e he => hlt e he _ List.mem_cons_self, (List.pairwise_cons.mp hsr).1⟩

end Lists

variable {bs : Bool} {t : Table K V} {k : K}

/-- A search tells whether the map has the key. -/
theorem Found.isSome {res : Bool × ℕ} (h : Found bs k rs res) (hrs : Lists bs rs t) :
    res.1 = (t.get k).isSome := by
  cases h with
  | hit h =>
    subst h
    rw [hrs.get_hit]
    rfl
  | miss h hk hlr =>
    rw [hrs.get_miss hk]
    rfl

/-- The buffer's records are the rows of `t`. -/
def Records (bs : Bool) (b : BufferKV K V) (t : Table K V) : Prop := ∃ rs, Holds b rs ∧ Lists bs rs t

/-- The buffer is free and its records are the rows of `t`. -/
structure Rep (bs : Bool) (b : BufferKV K V) (t : Table K V) : Prop where
  free : b.lock = .free
  records : Records bs b t

theorem Records.recordN (h : Records bs b t) : b.recordN = t.entries.length := by
  obtain ⟨rs, hb, hrs⟩ := h
  rw [hb.recordN, hrs.length_eq]

/-- `get` on a buffer that holds `t`. -/
theorem get_spec (h : Rep bs b t) (k : K) : get bs b k = .ok (t.get k, b) := by
  obtain ⟨hfree, rs, hb, hrs⟩ := h
  obtain ⟨res, hres, hfound⟩ := search_spec hb hrs.sorted k
  have hlock : { b with lock := RwLock.read.unlock } = b := by
    cases b
    cases hfree
    rfl
  unfold get
  rw [hfree, RwLock.rdlock, hres]
  simp only [bind, Except.bind, pure, Except.pure]
  cases hfound with
  | hit h =>
    subst h
    have hvals := hb.vals
    rw [List.map_append, List.map_cons] at hvals
    have hfetch := hvals.fetch
    rw [List.length_map] at hfetch
    rw [if_pos rfl, hfetch, hrs.get_hit, hlock]
  | miss h hk hlr => rw [if_neg Bool.false_ne_true, hrs.get_miss hk, hlock]

/-- Wherever a search ends, there is a place in the arrays or just behind them. -/
theorem Found.le_length {res : Bool × ℕ} (h : Found bs k rs res) : res.2 ≤ rs.length := by
  cases h with
  | hit h => subst h; simp
  | miss h => subst h; simp

/-- `insert` on a buffer that holds `t`, and has room for another row if it needs one. -/
theorem insert_spec (h : Rep bs b t) (mem : Alloc K V) (k : K) (v : V)
    (hroom : t.get k = none → b.recordN < b.capacityN) :
    ∃ b', insert bs b mem k v = .ok (true, b') ∧ Rep bs b' (t.insert k v) ∧ b'.capacityN = b.capacityN := by
  obtain ⟨hfree, rs, hb, hrs⟩ := h
  obtain ⟨res, hres, hfound⟩ := search_spec hb hrs.sorted k
  have hpos : res.2 ≤ b.capacityN := hfound.le_length.trans (hb.recordN ▸ hb.le)
  unfold insert
  rw [hfree, RwLock.wrlock]
  simp only [bind, Except.bind, pure, Except.pure, if_pos hb.le, hres, if_pos hpos]
  cases hfound with
  | hit h =>
    subst h
    have hvals := hb.vals
    rw [List.map_append, List.map_cons] at hvals
    obtain ⟨vals, hstore, hvals'⟩ := hvals.store v
    rw [List.length_map] at hstore
    refine ⟨{ b with vals, lock := .free }, ?_, ⟨rfl, _, ⟨?_, ?_, ?_⟩, hrs.set⟩, rfl⟩
    · simp only [if_pos, hstore, RwLock.unlock]
    · simpa using hb.recordN
    · simpa using hb.keys
    · rwa [List.map_append, List.map_cons]
  | miss h hk hlr =>
    subst h
    have hget := hrs.get_miss hk
    obtain ⟨b', hb', hholds, hcapacityN, -⟩ := addAt_spec hb (hroom hget) mem k v
    refine ⟨{ b' with lock := .free }, ?_, ⟨rfl, _, hholds.setLock _, hrs.add hget hlr⟩, hcapacityN⟩
    simp only [Bool.false_eq_true, if_false, hb', RwLock.unlock]

/-- `insert_if_not_exst`, likewise. -/
theorem insertIfNotExst_spec (h : Rep bs b t) (mem : Alloc K V) (k : K) (v : V)
    (hroom : t.get k = none → b.recordN < b.capacityN) :
    ∃ b', insertIfNotExst bs b mem k v = .ok ((t.get k).isNone, b') ∧ Rep bs b' (t.emplace k v) ∧
      b'.capacityN = b.capacityN := by
  obtain ⟨hfree, rs, hb, hrs⟩ := h
  obtain ⟨res, hres, hfound⟩ := search_spec hb hrs.sorted k
  have hpos : res.2 ≤ b.capacityN := hfound.le_length.trans (hb.recordN ▸ hb.le)
  unfold insertIfNotExst
  rw [hfree, RwLock.wrlock]
  simp only [bind, Except.bind, pure, Except.pure, if_pos hb.le, hres, if_pos hpos]
  cases hfound with
  | hit h =>
    subst h
    have hget := hrs.get_hit
    rw [Table.emplace_eq_self hget, hget]
    exact ⟨{ b with lock := .free }, rfl, ⟨rfl, _, hb.setLock _, hrs⟩, rfl⟩
  | miss h hk hlr =>
    subst h
    have hget := hrs.get_miss hk
    rw [Table.emplace_eq_insert hget, hget]
    obtain ⟨b', hb', hholds, hcapacityN, -⟩ := addAt_spec hb (hroom hget) mem k v
    refine ⟨{ b' with lock := .free }, ?_, ⟨rfl, _, hholds.setLock _, hrs.add hget hlr⟩, hcapacityN⟩
    simp only [Bool.false_eq_true, if_false, hb', RwLock.unlock]
    rfl

/-- `remove`. -/
theorem remove_spec (h : Rep bs b t) (k : K) :
    ∃ b', remove bs b k = .ok ((t.get k).isSome, b') ∧ Rep bs b' (t.remove k) ∧
      b'.capacityN = b.capacityN := by
  obtain ⟨hfree, rs, hb, hrs⟩ := h
  obtain ⟨res, hres, hfound⟩ := search_spec hb hrs.sorted k
  unfold remove
  rw [hfree, RwLock.wrlock]
  simp only [bind, Except.bind, pure, Except.pure, if_pos hb.le, hres]
  cases hfound with
  | @hit l r u h =>
    subst h
    have hmoved : b.recordN - l.length - 1 = r.length := by
      rw [hb.recordN, List.length_append, List.length_cons]
      omega
    obtain ⟨hrecordN, hkeys, hvals⟩ := hb
    rw [List.map_append, List.map_cons] at hkeys hvals
    obtain ⟨keys, hkeys₁, hkeys'⟩ := hkeys.memmove_down
    obtain ⟨vals, hvals₁, hvals'⟩ := hvals.memmove_down
    rw [List.length_map, List.length_map] at hkeys₁ hvals₁
    refine ⟨{ b with keys, vals, recordN := b.recordN - 1, lock := .free }, ?_,
      ⟨rfl, _, ⟨?_, ?_, ?_⟩, hrs.remove⟩, rfl⟩
    · simp only [if_true, hmoved, hkeys₁, hvals₁, hrs.get_hit, RwLock.unlock, Option.isSome_some]
    · simp only [hrecordN, List.length_append, List.length_cons]
      omega
    · rwa [List.map_append]
    · rwa [List.map_append]
  | miss h hk hlr =>
    have hget := hrs.get_miss hk
    rw [Table.remove_eq_self hget, hget]
    exact ⟨{ b with lock := .free }, rfl, ⟨rfl, _, hb.setLock _, hrs⟩, rfl⟩

end

end BufferKV

end SidleBaselines.Kv
