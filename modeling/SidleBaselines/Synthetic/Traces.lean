import Mathlib.Data.Rat.Defs
import Mathlib.Algebra.Order.Ring.Rat
import Mathlib.Data.List.Chain
import Mathlib.Data.List.Sort
import Mathlib.Tactic.NormNum
import Mathlib.Tactic.Ring
import SidleBaselines.Synthetic.Keys

/-!
# The operations of read_latest and heavy_insert

In their `ORIGIN_YCSB` builds, `src/benchmark/synthetic/read_latest.cpp` and
`heavy_insert.cpp` lay out consecutive keys, for each thread as many to load as
to insert later, and each thread makes the vector of its operations in advance:
an insert takes the next key of `op_keys`, a read one that lies a drawn offset
before it. For the targets `art` and `pac` the keys are spread over the whole
64-bit range and both vectors are shuffled; a thread then sorts the keys it got,
loaded ones and new ones together.

The draws are arguments. A `push_back` beyond a vector's largest size and an
assertion that fails make the run `none`, as does a list of draws that is too
short for the loop to end.

## What is proved

* `pushSegments_apart`, `layout_laid` — all the keys laid out are different;
* `operationsLoop_isSome` — the loop ends as soon as enough inserts are drawn;
* `operationsLoop_valid` — it makes valid operations of a vector whose first part
  is loaded and whose rest is not;
* `operationsLoop_insert` — every key of the rest is inserted;
* `traces_valid` — a thread's operations are valid if and only if the target is
  neither `art` nor `pac`, or each key the thread got of `all_keys` lies below
  each one it got of `non_exist_keys`.
-/

namespace SidleBaselines.Synthetic.Traces

/-! ### The layout -/

/-- The values of `target`. -/
inductive Target where
  | masstree
  | wormhole
  | art
  | smart
  | pac
  deriving DecidableEq, Repr

/-- `target == "art" || target == "pac"`. -/
def Target.spread (t : Target) : Bool :=
  t == .art || t == .pac

/-- The largest size of a vector of keys, which have eight bytes. -/
def maxSize : ℕ := (2 ^ 63 - 1) / 8

/-- `push_back(key); key += step`, `n` times: what is pushed, and `key` after it. -/
def pushKeys (step : ℕ) : ℕ → ℕ → List ℕ × ℕ
  | 0, key => ([], key)
  | n + 1, key =>
    let (keys, key') := pushKeys step n ((key + step) % 2 ^ 64)
    (key :: keys, key')

/-- The loop of `main` over the threads. -/
def pushSegments (step kNPerSeg : ℕ) : ℕ → ℕ → Keys ℕ
  | 0, _ => ⟨[], []⟩
  | n + 1, key =>
    let (all, key) := pushKeys step kNPerSeg key
    let (nonExist, key) := pushKeys step kNPerSeg key
    let rest := pushSegments step kNPerSeg n key
    ⟨all ++ rest.allKeys, nonExist ++ rest.nonExistKeys⟩

/-- The distance of two keys. -/
def keyStep (target : Target) (tableSize : ℕ) : ℕ :=
  if target.spread then (2 ^ 64 - 1) / (tableSize * 10 % 2 ^ 64) else 1

/-- The key vectors of `main`, before they are shuffled. -/
def layout (target : Target) (tableSize fgN : ℕ) : Option (Keys ℕ) :=
  let kNPerSeg := tableSize / fgN
  if maxSize < fgN * kNPerSeg then none
  else some (pushSegments (keyStep target tableSize) kNPerSeg fgN 1)

/-- The two calls of `std::shuffle`. -/
def Shuffled (target : Target) (laid ks : Keys ℕ) : Prop :=
  if target.spread then ks.allKeys.Perm laid.allKeys ∧ ks.nonExistKeys.Perm laid.nonExistKeys
  else ks = laid

/-! ### The operations -/

/-- The `Op_Type`s that occur. -/
inductive OpType where
  | read
  | insert
  | remove
  deriving DecidableEq, Repr

/-- The two programs. -/
inductive Bench where
  | readLatest
  | heavyInsert
  deriving DecidableEq, Repr

/-- `read_ratio`. -/
def Bench.readRatio : Bench → ℚ
  | .readLatest => 95 / 100
  | .heavyInsert => 1 / 2

/-- `insert_ratio`. -/
def Bench.insertRatio : Bench → ℚ
  | .readLatest => 5 / 100
  | .heavyInsert => 1 / 2

/-- `delete_ratio` is 0. -/
theorem Bench.ratio_sum (b : Bench) : b.readRatio + b.insertRatio = 1 := by
  cases b <;> norm_num [readRatio, insertRatio]

/-- What one turn of the loop draws: the ratio, and the offset it takes when it is a
read, one of `1..n`. -/
structure Draw (n : ℕ) where
  ratio : ℚ
  offset : ℕ
  ratio_nonneg : 0 ≤ ratio
  ratio_lt : ratio < 1
  offset_pos : 1 ≤ offset
  offset_le : offset ≤ n

/-- The draw is an insert. -/
def Draw.inserts {n : ℕ} (b : Bench) (d : Draw n) : Bool :=
  b.readRatio < d.ratio

/-- `op_keys`: sorted when the keys are spread, else checked to be consecutive. -/
def opKeys (target : Target) (ks : Keys ℕ) (fgN threadId : ℕ) : Option (List ℕ) :=
  let keys := ks.ofThread fgN threadId
  if target.spread then some (keys.mergeSort (· ≤ ·))
  else if keys.IsChain fun a b => b = (a + 1) % 2 ^ 64 then some keys
  else none

/-- The loop that makes the operations. -/
def operationsLoop {n : ℕ} (b : Bench) (keys : List ℕ) : List (Draw n) → ℕ → ℕ → Option (List (OpType × ℕ))
  | [], _, insertI => if insertI < keys.length then none else some []
  | d :: draws, deleteI, insertI =>
    if insertI < keys.length then
      if d.ratio ≤ b.readRatio then
        if d.offset ≤ insertI then do
          let k ← keys[insertI - d.offset]?
          let ops ← operationsLoop b keys draws deleteI insertI
          return (.read, k) :: ops
        else none
      else if d.ratio ≤ b.readRatio + b.insertRatio then do
        let k ← keys[insertI]?
        let ops ← operationsLoop b keys draws deleteI (insertI + 1)
        return (.insert, k) :: ops
      else do
        let k ← keys[deleteI]?
        if deleteI + 1 < insertI then do
          let ops ← operationsLoop b keys draws (deleteI + 1) insertI
          return (.remove, k) :: ops
        else none
    else some []

/-- The operations of a thread. -/
def operations {n : ℕ} (b : Bench) (target : Target) (ks : Keys ℕ) (fgN threadId : ℕ)
    (draws : List (Draw n)) :
    Option (List (OpType × ℕ)) := do
  let keys ← opKeys target ks fgN threadId
  operationsLoop b keys draws 0 (ks.allKeys.length / fgN)

/-- In order after the keys `loaded` and `inserted`, every insert is of a new key
and every read of one that is there. -/
def ValidFrom (loaded : List ℕ) : List ℕ → List (OpType × ℕ) → Prop
  | _, [] => True
  | inserted, (.insert, k) :: ops => k ∉ loaded ∧ k ∉ inserted ∧ ValidFrom loaded (k :: inserted) ops
  | inserted, (.read, k) :: ops => (k ∈ loaded ∨ k ∈ inserted) ∧ ValidFrom loaded inserted ops
  | inserted, (.remove, _) :: ops => ValidFrom loaded inserted ops

/-! ### The loop -/

section

variable {n : ℕ} {b : Bench} {keys : List ℕ}

/-- With no deletes to draw, a turn is a read or an insert. -/
theorem operationsLoop_cons (d : Draw n) (draws : List (Draw n)) (deleteI insertI : ℕ) (hn : n ≤ insertI)
    (hlt : insertI < keys.length) :
    ∃ k k', keys[insertI - d.offset]? = some k ∧ keys[insertI]? = some k' ∧
      operationsLoop b keys (d :: draws) deleteI insertI =
        if d.inserts b then (operationsLoop b keys draws deleteI (insertI + 1)).map ((.insert, k') :: ·)
        else (operationsLoop b keys draws deleteI insertI).map ((.read, k) :: ·) := by
  have hoff := d.offset_le
  have hread : insertI - d.offset < keys.length := by omega
  have hk := List.getElem?_eq_getElem hread
  have hk' := List.getElem?_eq_getElem hlt
  refine ⟨_, _, hk, hk', ?_⟩
  rw [operationsLoop, if_pos hlt]
  by_cases hd : d.ratio ≤ b.readRatio
  · have hno : d.inserts b = false := by simpa [Draw.inserts] using hd
    rw [if_pos hd, if_pos (by omega), hk, hno, if_neg Bool.false_ne_true]
    cases operationsLoop b keys draws deleteI insertI <;> rfl
  · have hyes : d.inserts b = true := by simpa [Draw.inserts] using hd
    have hle : d.ratio ≤ b.readRatio + b.insertRatio := by
      rw [b.ratio_sum]
      exact d.ratio_lt.le
    rw [if_neg hd, if_pos hle, hk', hyes, if_pos rfl]
    cases operationsLoop b keys draws deleteI (insertI + 1) <;> rfl

theorem operationsLoop_done (draws : List (Draw n)) (deleteI : ℕ) {insertI : ℕ}
    (hge : keys.length ≤ insertI) :
    operationsLoop b keys draws deleteI insertI = some [] := by
  cases draws <;> rw [operationsLoop, if_neg (Nat.not_lt.mpr hge)]

/-- The loop ends if and only if there are as many inserts among the draws as keys
to insert. -/
theorem operationsLoop_isSome (draws : List (Draw n)) (deleteI insertI : ℕ) (hn : n ≤ insertI) :
    (operationsLoop b keys draws deleteI insertI).isSome ↔
      keys.length - insertI ≤ draws.countP (Draw.inserts b) := by
  induction draws generalizing insertI with
  | nil =>
    rw [operationsLoop, List.countP_nil]
    split_ifs with hlt
    · simp only [Option.isSome_none, Bool.false_eq_true, false_iff]
      omega
    · simp only [Option.isSome_some, true_iff]
      omega
  | cons d draws ih =>
    by_cases hlt : insertI < keys.length
    · obtain ⟨k, k', -, -, hstep⟩ := operationsLoop_cons (b := b) d draws deleteI insertI hn hlt
      rw [hstep, List.countP_cons]
      split_ifs with hd
      · rw [Option.isSome_map, ih (insertI + 1) (by omega)]
        omega
      · rw [Option.isSome_map, ih insertI hn, Nat.add_zero]
    · rw [operationsLoop_done _ _ (Nat.not_lt.mp hlt)]
      simp only [Option.isSome_some, true_iff]
      omega

/-- Every key from `insert_i` on is inserted. -/
theorem operationsLoop_insert (draws : List (Draw n)) (deleteI insertI : ℕ) (hn : n ≤ insertI)
    {ops : List (OpType × ℕ)} (h : operationsLoop b keys draws deleteI insertI = some ops) {p k : ℕ}
    (hp : insertI ≤ p) (hk : keys[p]? = some k) : (.insert, k) ∈ ops := by
  have hlt : p < keys.length := (List.getElem?_eq_some_iff.mp hk).1
  induction draws generalizing insertI ops with
  | nil =>
    rw [operationsLoop, if_pos (by omega)] at h
    cases h
  | cons d draws ih =>
    have hins : insertI < keys.length := by omega
    obtain ⟨k₁, k₂, -, hk₂, hstep⟩ := operationsLoop_cons (b := b) d draws deleteI insertI hn hins
    rw [hstep] at h
    split_ifs at h with hd
    · obtain ⟨rest, hrest, rfl⟩ := Option.map_eq_some_iff.mp h
      rcases Nat.eq_or_lt_of_le hp with rfl | hlt'
      · rw [hk, Option.some.injEq] at hk₂
        rw [hk₂]
        exact List.mem_cons_self
      · exact List.mem_cons_of_mem _ (ih (insertI + 1) (by omega) hrest hlt')
    · obtain ⟨rest, hrest, rfl⟩ := Option.map_eq_some_iff.mp h
      exact List.mem_cons_of_mem _ (ih insertI hn hrest hp)

/-- A valid insert is of a key that was not loaded. -/
theorem ValidFrom.not_mem {loaded inserted : List ℕ} {ops : List (OpType × ℕ)}
    (h : ValidFrom loaded inserted ops) {k : ℕ} (hk : (.insert, k) ∈ ops) : k ∉ loaded := by
  induction ops generalizing inserted with
  | nil => cases hk
  | cons op ops ih =>
    obtain ⟨type, k'⟩ := op
    rcases List.mem_cons.mp hk with heq | hrest
    · cases heq
      exact h.1
    · cases type with
      | read => exact ih h.2 hrest
      | insert => exact ih h.2.2 hrest
      | remove => exact ih h hrest

/-- Keys of which the first `n` are loaded and the others are not make valid
operations. What has been inserted are the keys from `n` to `insert_i`. -/
theorem operationsLoop_valid {loaded : List ℕ} (hnodup : keys.Nodup)
    (hload : ∀ p < n, ∀ k, keys[p]? = some k → k ∈ loaded)
    (hnew : ∀ p k, n ≤ p → keys[p]? = some k → k ∉ loaded)
    (draws : List (Draw n)) (deleteI insertI : ℕ) (hn : n ≤ insertI) (inserted : List ℕ)
    (hins : ∀ k, k ∈ inserted ↔ ∃ p, n ≤ p ∧ p < insertI ∧ keys[p]? = some k) {ops : List (OpType × ℕ)}
    (h : operationsLoop b keys draws deleteI insertI = some ops) : ValidFrom loaded inserted ops := by
  induction draws generalizing insertI inserted ops with
  | nil =>
    rw [operationsLoop] at h
    split_ifs at h
    cases h
    trivial
  | cons d draws ih =>
    by_cases hlt : insertI < keys.length
    · obtain ⟨k₁, k₂, hk₁, hk₂, hstep⟩ := operationsLoop_cons (b := b) d draws deleteI insertI hn hlt
      rw [hstep] at h
      split_ifs at h with hd
      · obtain ⟨rest, hrest, rfl⟩ := Option.map_eq_some_iff.mp h
        refine ⟨hnew insertI k₂ hn hk₂, ?_, ?_⟩
        · rw [hins]
          rintro ⟨p, -, hp, hpk⟩
          have heq : insertI = p := (List.getElem?_inj hlt hnodup).mp (hk₂.trans hpk.symm)
          omega
        · refine ih (insertI + 1) (by omega) (k₂ :: inserted) ?_ hrest
          intro k
          rw [List.mem_cons, hins]
          constructor
          · rintro (rfl | ⟨p, hp, hp', hpk⟩)
            · exact ⟨insertI, hn, by omega, hk₂⟩
            · exact ⟨p, hp, by omega, hpk⟩
          · rintro ⟨p, hp, hp', hpk⟩
            rcases Nat.lt_succ_iff_lt_or_eq.mp hp' with hp' | rfl
            · exact Or.inr ⟨p, hp, hp', hpk⟩
            · rw [hk₂, Option.some.injEq] at hpk
              exact Or.inl hpk.symm
      · obtain ⟨rest, hrest, rfl⟩ := Option.map_eq_some_iff.mp h
        refine ⟨?_, ih insertI hn inserted hins hrest⟩
        have hpos := d.offset_pos
        have hle := d.offset_le
        by_cases hp : insertI - d.offset < n
        · exact Or.inl (hload _ hp _ hk₁)
        · rw [hins]
          exact Or.inr ⟨insertI - d.offset, by omega, by omega, hk₁⟩
    · rw [operationsLoop_done _ _ (Nat.not_lt.mp hlt)] at h
      cases h
      trivial

end

/-! ### The keys laid out -/

theorem pushKeys_eq (step n key : ℕ) (h : key + step * n < 2 ^ 64) :
    pushKeys step n key = (List.range' key n step, key + step * n) := by
  induction n generalizing key with
  | zero => rfl
  | succ n ih =>
    rw [Nat.mul_succ] at h
    have hmod : (key + step) % 2 ^ 64 = key + step := Nat.mod_eq_of_lt (by omega)
    rw [pushKeys, hmod, ih (key + step) (by omega), List.range'_succ, Nat.mul_succ]
    simp only [Prod.mk.injEq, true_and]
    omega

/-- The keys of one thread, then those of the others. -/
theorem pushSegments_succ (step m n key : ℕ) (h : key + step * (2 * m) < 2 ^ 64) :
    pushSegments step m (n + 1) key =
      ⟨List.range' key m step ++ (pushSegments step m n (key + step * (2 * m))).allKeys,
        List.range' (key + step * m) m step ++ (pushSegments step m n (key + step * (2 * m))).nonExistKeys⟩ := by
  have htwo : step * (2 * m) = step * m + step * m := by
    rw [Nat.two_mul, Nat.mul_add]
  rw [htwo] at h ⊢
  rw [pushSegments, pushKeys_eq _ _ _ (by omega)]
  simp only
  rw [pushKeys_eq _ _ _ (by omega)]
  simp only [Nat.add_assoc]

section

variable {step m : ℕ}

/-- The bound of the keys of `n + 1` threads, for the first and for the others. -/
theorem segments_bound {n key : ℕ} (h : key + step * (2 * m) * (n + 1) < 2 ^ 64) :
    key + step * (2 * m) < 2 ^ 64 ∧ key + step * (2 * m) + step * (2 * m) * n < 2 ^ 64 := by
  rw [Nat.mul_succ] at h
  omega

theorem length_pushSegments {n key : ℕ} (h : key + step * (2 * m) * n < 2 ^ 64) :
    (pushSegments step m n key).allKeys.length = n * m ∧
      (pushSegments step m n key).nonExistKeys.length = n * m := by
  induction n generalizing key with
  | zero => simp [pushSegments]
  | succ n ih =>
    obtain ⟨h1, h2⟩ := segments_bound h
    obtain ⟨hall, hnon⟩ := ih h2
    rw [pushSegments_succ _ _ _ _ h1]
    simp only [List.length_append, List.length_range', hall, hnon]
    rw [Nat.succ_mul]
    omega

theorem le_of_mem_pushSegments {n key k : ℕ} (h : key + step * (2 * m) * n < 2 ^ 64)
    (hk : k ∈ (pushSegments step m n key).allKeys ++ (pushSegments step m n key).nonExistKeys) : key ≤ k := by
  induction n generalizing key with
  | zero => simp [pushSegments] at hk
  | succ n ih =>
    obtain ⟨h1, h2⟩ := segments_bound h
    rw [pushSegments_succ _ _ _ _ h1] at hk
    simp only [List.mem_append, List.mem_range'] at hk ih
    rcases hk with (⟨i, -, rfl⟩ | hk) | (⟨i, -, rfl⟩ | hk)
    · omega
    · have := ih h2 (Or.inl hk)
      omega
    · omega
    · have := ih h2 (Or.inr hk)
      omega

/-- All the keys are different. -/
theorem pushSegments_apart (hstep : 0 < step) {n key : ℕ} (h : key + step * (2 * m) * n < 2 ^ 64) :
    (pushSegments step m n key).Apart := by
  induction n generalizing key with
  | zero => simp [pushSegments, Keys.Apart]
  | succ n ih =>
    obtain ⟨h1, h2⟩ := segments_bound h
    rw [pushSegments_succ _ _ _ _ h1, Keys.Apart]
    have hperm : ∀ A A' B B' : List ℕ, ((A ++ A') ++ (B ++ B')).Perm ((A ++ B) ++ (A' ++ B')) := by
      intro A A' B B'
      rw [List.append_assoc, List.append_assoc]
      refine List.Perm.append_left A ?_
      rw [← List.append_assoc, ← List.append_assoc]
      exact List.Perm.append_right B' List.perm_append_comm
    rw [(hperm _ _ _ _).nodup_iff, List.range'_append, ← Nat.two_mul, List.nodup_append]
    refine ⟨List.nodup_range' step hstep, ih h2, ?_⟩
    intro a ha c hc
    obtain ⟨i, hi, rfl⟩ := List.mem_range'.mp ha
    have hle := le_of_mem_pushSegments h2 hc
    have hlt : step * i < step * (2 * m) := Nat.mul_lt_mul_of_pos_left hi hstep
    omega

/-- The part of thread `i`. -/
theorem segments_drop {n key i : ℕ} (hi : i < n) (h : key + step * (2 * m) * n < 2 ^ 64) :
    ((pushSegments step m n key).allKeys.drop (i * m)).take m =
      List.range' (key + step * (2 * m) * i) m step ∧
    ((pushSegments step m n key).nonExistKeys.drop (i * m)).take m =
      List.range' (key + step * (2 * m) * i + step * m) m step := by
  induction i generalizing n key with
  | zero =>
    obtain ⟨n, rfl⟩ := Nat.exists_eq_succ_of_ne_zero (Nat.ne_of_gt hi)
    obtain ⟨h1, -⟩ := segments_bound h
    rw [pushSegments_succ _ _ _ _ h1]
    simp
  | succ i ih =>
    obtain ⟨n, rfl⟩ := Nat.exists_eq_succ_of_ne_zero (Nat.ne_of_gt (Nat.zero_lt_of_lt hi))
    obtain ⟨h1, h2⟩ := segments_bound h
    obtain ⟨hall, hnon⟩ := ih (Nat.lt_of_succ_lt_succ hi) h2
    have hdrop : ∀ A B : List ℕ, A.length = m → (A ++ B).drop ((i + 1) * m) = B.drop (i * m) := by
      intro A B hA
      rw [List.drop_append, Nat.succ_mul, List.drop_eq_nil_of_le (by omega), hA, Nat.add_sub_cancel,
        List.nil_append]
    have hkey : key + step * (2 * m) + step * (2 * m) * i = key + step * (2 * m) * (i + 1) := by
      rw [Nat.mul_succ]
      omega
    rw [pushSegments_succ _ _ _ _ h1, hdrop _ _ (List.length_range' ..), hdrop _ _ (List.length_range' ..),
      hall, hnon, hkey]
    exact ⟨rfl, rfl⟩

end

/-- What `main` lays out before it shuffles. -/
structure Laid (target : Target) (tableSize fgN : ℕ) (laid : Keys ℕ) : Prop where
  eq : laid = pushSegments (keyStep target tableSize) (tableSize / fgN) fgN 1
  step_pos : 0 < keyStep target tableSize
  /-- No key wraps. -/
  bound : 1 + keyStep target tableSize * (2 * (tableSize / fgN)) * fgN < 2 ^ 64

/-- The keys of vectors that fit do not wrap. -/
theorem layout_laid {target : Target} {tableSize fgN : ℕ} (hn : 3 ≤ tableSize / fgN) {laid : Keys ℕ}
    (h : layout target tableSize fgN = some laid) : Laid target tableSize fgN laid := by
  rw [layout] at h
  split_ifs at h with hmax
  cases h
  have hsize : fgN * (tableSize / fgN) < 2 ^ 60 := by
    simp only [maxSize] at hmax
    omega
  have hle : fgN * (tableSize / fgN) ≤ tableSize := Nat.mul_div_le tableSize fgN
  have hprod : ∀ step, step * (2 * (tableSize / fgN)) * fgN = 2 * (step * (fgN * (tableSize / fgN))) := by
    intro step
    ring
  cases hspread : target.spread with
  | false =>
    have hstep : keyStep target tableSize = 1 := by
      rw [keyStep, hspread]
      rfl
    refine ⟨rfl, ?_, ?_⟩
    · omega
    · rw [hprod, hstep]
      omega
  | true =>
    have hfgN : 0 < fgN := by
      by_contra hzero
      rw [Nat.eq_zero_of_not_pos hzero, Nat.div_zero] at hn
      omega
    have htable : tableSize < fgN * (tableSize / fgN) + fgN := by
      have := Nat.lt_mul_div_succ tableSize hfgN
      rwa [Nat.mul_succ] at this
    have hthree : fgN * 3 ≤ fgN * (tableSize / fgN) := Nat.mul_le_mul_left _ hn
    have hmod : tableSize * 10 % 2 ^ 64 = tableSize * 10 := Nat.mod_eq_of_lt (by omega)
    have hstep : keyStep target tableSize = (2 ^ 64 - 1) / (tableSize * 10) := by
      rw [keyStep, hspread, if_pos rfl, hmod]
    have hmul : (2 ^ 64 - 1) / (tableSize * 10) * tableSize ≤ (2 ^ 64 - 1) / 10 := by
      rw [Nat.le_div_iff_mul_le (by omega), Nat.mul_assoc]
      exact Nat.div_mul_le_self _ _
    have hfew := Nat.mul_le_mul_left ((2 ^ 64 - 1) / (tableSize * 10)) hle
    refine ⟨rfl, ?_, ?_⟩
    · rw [hstep]
      exact Nat.div_pos (by omega) (by omega)
    · rw [hprod, hstep]
      omega

/-- What the threads start from. -/
structure Ready (target : Target) (n fgN : ℕ) (ks : Keys ℕ) : Prop where
  apart : ks.Apart
  allKeys : ks.allKeys.length / fgN = n
  nonExistKeys : ks.nonExistKeys.length / fgN = n
  /-- Keys that are not spread have not been shuffled. -/
  plain : target.spread = false → ∀ i < fgN, ∃ s, s + 2 * n < 2 ^ 64 ∧
    ks.ofThread fgN i = List.range' s (2 * n)

theorem Laid.ready {target : Target} {tableSize fgN : ℕ} {laid ks : Keys ℕ}
    (h : Laid target tableSize fgN laid)
    (hfgN : 0 < fgN) (hks : Shuffled target laid ks) : Ready target (tableSize / fgN) fgN ks := by
  obtain ⟨hall, hnon⟩ := length_pushSegments h.bound
  have hapart := pushSegments_apart h.step_pos h.bound
  rw [← h.eq] at hall hnon hapart
  rw [Shuffled] at hks
  cases hspread : target.spread with
  | true =>
    rw [hspread, if_pos rfl] at hks
    refine ⟨hapart.of_perm hks.1 hks.2, ?_, ?_, ?_⟩
    · rw [hks.1.length_eq, hall, Nat.mul_div_cancel_left _ hfgN]
    · rw [hks.2.length_eq, hnon, Nat.mul_div_cancel_left _ hfgN]
    · intro hno
      cases hno.symm.trans hspread
  | false =>
    rw [hspread, if_neg Bool.false_ne_true] at hks
    subst hks
    have hstep : keyStep target tableSize = 1 := by
      rw [keyStep, hspread]
      rfl
    have hallDiv : ks.allKeys.length / fgN = tableSize / fgN := by
      rw [hall, Nat.mul_div_cancel_left _ hfgN]
    have hnonDiv : ks.nonExistKeys.length / fgN = tableSize / fgN := by
      rw [hnon, Nat.mul_div_cancel_left _ hfgN]
    refine ⟨hapart, hallDiv, hnonDiv, ?_⟩
    intro _ i hi
    have hbound := h.bound
    obtain ⟨h1, h2⟩ := segments_drop hi hbound
    rw [← h.eq, hstep, Nat.one_mul] at h1 h2
    rw [hstep, Nat.one_mul] at hbound
    refine ⟨1 + 2 * (tableSize / fgN) * i, ?_, ?_⟩
    · have hle : 2 * (tableSize / fgN) * (i + 1) ≤ 2 * (tableSize / fgN) * fgN := Nat.mul_le_mul_left _ hi
      rw [Nat.mul_succ] at hle
      omega
    · rw [Keys.ofThread, segment, segment, hallDiv, hnonDiv, h1, h2, Nat.one_mul, List.range'_append_1,
      ← Nat.two_mul]

/-! ### One thread -/

section

variable {n fgN i : ℕ} {target : Target} {ks : Keys ℕ}

theorem opKeys_plain (h : Ready target n fgN ks) (hspread : target.spread = false) (hi : i < fgN) :
    opKeys target ks fgN i = some (ks.ofThread fgN i) := by
  obtain ⟨s, hs, heq⟩ := h.plain hspread i hi
  have hchain : (ks.ofThread fgN i).IsChain fun a b => b = (a + 1) % 2 ^ 64 := by
    rw [heq]
    refine List.IsChain.imp_of_mem_imp ?_ (List.isChain_range' s (2 * n) 1)
    intro a c ha _ hac
    rw [hac, Nat.mod_eq_of_lt]
    have := (List.mem_range'_1.mp ha).2
    omega
  rw [opKeys, hspread, if_neg Bool.false_ne_true, if_pos hchain]

theorem opKeys_spread (hspread : target.spread = true) :
    opKeys target ks fgN i = some ((ks.ofThread fgN i).mergeSort (· ≤ ·)) := by
  rw [opKeys, hspread, if_pos rfl]

/-- A thread has its keys, in some order. -/
theorem opKeys_perm (h : Ready target n fgN ks) (hi : i < fgN) :
    ∃ keys, opKeys target ks fgN i = some keys ∧ keys.Perm (ks.ofThread fgN i) := by
  cases hspread : target.spread with
  | true => exact ⟨_, opKeys_spread hspread, List.mergeSort_perm _ _⟩
  | false => exact ⟨_, opKeys_plain h hspread hi, .refl _⟩

/-- Two ascending lists, one below the other, are sorted together by sorting each. -/
theorem mergeSort_append_of_lt {l m : List ℕ} (h : ∀ a ∈ l, ∀ c ∈ m, a < c) :
    (l ++ m).mergeSort (· ≤ ·) = l.mergeSort (· ≤ ·) ++ m.mergeSort (· ≤ ·) := by
  have hsorted : (l.mergeSort (· ≤ ·) ++ m.mergeSort (· ≤ ·)).Pairwise (· ≤ ·) := by
    rw [List.pairwise_append]
    refine ⟨List.pairwise_mergeSort' _ l, List.pairwise_mergeSort' _ m, ?_⟩
    intro a ha c hc
    exact Nat.le_of_lt (h a (List.mem_mergeSort.mp ha) c (List.mem_mergeSort.mp hc))
  have hperm : ((l ++ m).mergeSort (· ≤ ·)).Perm (l.mergeSort (· ≤ ·) ++ m.mergeSort (· ≤ ·)) :=
    (List.mergeSort_perm _ _).trans ((List.mergeSort_perm l _).symm.append (List.mergeSort_perm m _).symm)
  exact hperm.eq_of_pairwise' (List.pairwise_mergeSort' _ _) hsorted

/-- Where the sorted keys begin with the loaded ones, those lie below the others. -/
theorem lt_of_sorted {l m : List ℕ} (hnodup : (l ++ m).Nodup)
    (hnew : ∀ k ∈ ((l ++ m).mergeSort (· ≤ ·)).drop l.length, k ∉ l) : ∀ a ∈ l, ∀ c ∈ m, a < c := by
  have hperm := List.mergeSort_perm (l ++ m) (· ≤ ·)
  have hsorted : ((l ++ m).mergeSort (· ≤ ·)).Pairwise (· ≤ ·) := List.pairwise_mergeSort' _ _
  have hsplit := List.take_append_drop l.length ((l ++ m).mergeSort (· ≤ ·))
  have hin : ∀ x ∈ l ++ m, x ∈ ((l ++ m).mergeSort (· ≤ ·)).take l.length ∨
      x ∈ ((l ++ m).mergeSort (· ≤ ·)).drop l.length := by
    intro x hx
    rw [← List.mem_append, hsplit]
    exact hperm.mem_iff.mpr hx
  have hsub : l ⊆ ((l ++ m).mergeSort (· ≤ ·)).take l.length := by
    intro a ha
    rcases hin a (List.mem_append_left m ha) with htake | hdrop
    · exact htake
    · exact absurd ha (hnew a hdrop)
  have htake : l.Perm (((l ++ m).mergeSort (· ≤ ·)).take l.length) := by
    refine (List.subperm_of_subset (List.nodup_append.mp hnodup).1 hsub).perm_of_length_le ?_
    rw [List.length_take]
    exact Nat.min_le_left _ _
  intro a ha c hc
  have hdrop : c ∈ ((l ++ m).mergeSort (· ≤ ·)).drop l.length := by
    rcases hin c (List.mem_append_right l hc) with hc' | hc'
    · exact absurd rfl ((List.nodup_append.mp hnodup).2.2 c (htake.mem_iff.mpr hc') c hc)
    · exact hc'
  rw [← hsplit, List.pairwise_append] at hsorted
  have hle := hsorted.2.2 a (hsub ha) c hdrop
  have hne := (List.nodup_append.mp hnodup).2.2 a ha c hc
  omega

/-- The loop ends if and only if enough inserts are drawn. -/
theorem operations_isSome (h : Ready target n fgN ks) (hi : i < fgN) (b : Bench) (draws : List (Draw n)) :
    (operations b target ks fgN i draws).isSome ↔ n ≤ draws.countP (Draw.inserts b) := by
  obtain ⟨keys, hkeys, hperm⟩ := opKeys_perm h hi
  have hlength : keys.length = n + n := by
    rw [hperm.length_eq, Keys.length_ofThread hi, h.allKeys, h.nonExistKeys]
  rw [operations, hkeys, Option.bind_eq_bind, Option.bind_some, h.allKeys,
    operationsLoop_isSome draws 0 n (Nat.le_refl n), hlength, Nat.add_sub_cancel]

/-- Keys that begin with the thread's part of `all_keys` make valid operations. -/
theorem valid_of_append (h : Ready target n fgN ks) (hi : i < fgN) {l m : List ℕ}
    (hl : l.Perm (segment ks.allKeys fgN i)) (hm : m.Perm (segment ks.nonExistKeys fgN i)) (b : Bench)
    (draws : List (Draw n)) {ops : List (OpType × ℕ)}
    (hops : operationsLoop b (l ++ m) draws 0 n = some ops) :
    ValidFrom ks.allKeys [] ops := by
  have hlength : l.length = n := by
    rw [hl.length_eq, length_segment _ hi, h.allKeys]
  refine operationsLoop_valid ((hl.append hm).nodup_iff.mpr (h.apart.nodup_ofThread fgN i)) ?_ ?_ draws 0 n
    (Nat.le_refl n) [] ?_ hops
  · intro p hp k hk
    rw [List.getElem?_append_left (by omega)] at hk
    exact (segment_sublist _ _ _).subset (hl.mem_iff.mp (List.mem_of_getElem? hk))
  · intro p k hp hk hall
    rw [List.getElem?_append_right (by omega)] at hk
    exact h.apart.disjoint hall ((segment_sublist _ _ _).subset (hm.mem_iff.mp (List.mem_of_getElem? hk)))
  · intro k
    simp only [List.not_mem_nil, false_iff]
    rintro ⟨p, hp, hp', -⟩
    omega

/-- A thread's operations are valid if and only if its keys are in order, or the
target's keys are not spread. -/
theorem operations_valid_iff (h : Ready target n fgN ks) (hi : i < fgN) (b : Bench) (draws : List (Draw n))
    {ops : List (OpType × ℕ)} (hops : operations b target ks fgN i draws = some ops) :
    ValidFrom ks.allKeys [] ops ↔
      (target.spread = true → ∀ k ∈ segment ks.allKeys fgN i, ∀ k' ∈ segment ks.nonExistKeys fgN i, k < k') := by
  cases hspread : target.spread with
  | false =>
    rw [operations, opKeys_plain h hspread hi, Option.bind_eq_bind, Option.bind_some, h.allKeys] at hops
    have hvalid := valid_of_append h hi (.refl _) (.refl _) b draws hops
    simp only [hvalid, Bool.false_eq_true, false_implies]
  | true =>
    rw [operations, opKeys_spread hspread, Option.bind_eq_bind, Option.bind_some, h.allKeys] at hops
    have hlength : (segment ks.allKeys fgN i).length = n := by
      rw [length_segment _ hi, h.allKeys]
    constructor
    · intro hvalid _
      refine lt_of_sorted (h.apart.nodup_ofThread fgN i) ?_
      intro k hk hmem
      rw [hlength] at hk
      obtain ⟨p, hp⟩ := List.mem_iff_getElem?.mp hk
      rw [List.getElem?_drop] at hp
      have hinsert := operationsLoop_insert draws 0 n (Nat.le_refl n) hops (Nat.le_add_right n p) hp
      exact hvalid.not_mem hinsert ((segment_sublist _ _ _).subset hmem)
    · intro hlt
      rw [Keys.ofThread, mergeSort_append_of_lt (hlt rfl)] at hops
      exact valid_of_append h hi (List.mergeSort_perm _ _) (List.mergeSort_perm _ _) b draws hops

/-- When as many inserts are drawn as a thread has new keys, it has its operations;
they are valid if and only if the target is neither `art` nor `pac`, or each key
the thread got of `all_keys` lies below each one it got of `non_exist_keys`. -/
theorem traces_valid (b : Bench) (target : Target) {tableSize fgN : ℕ} (hn : 3 ≤ tableSize / fgN)
    {laid ks : Keys ℕ}
    (hlaid : layout target tableSize fgN = some laid) (hks : Shuffled target laid ks) {i : ℕ} (hi : i < fgN)
    (draws : List (Draw (tableSize / fgN))) :
    ((operations b target ks fgN i draws).isSome ↔ tableSize / fgN ≤ draws.countP (Draw.inserts b)) ∧
    ∀ ops, operations b target ks fgN i draws = some ops →
      (ValidFrom ks.allKeys [] ops ↔
        ((target = .art ∨ target = .pac) →
          ∀ k ∈ segment ks.allKeys fgN i, ∀ k' ∈ segment ks.nonExistKeys fgN i, k < k')) := by
  have hready := (layout_laid hn hlaid).ready (Nat.zero_lt_of_lt hi) hks
  have hspread : target.spread = true ↔ target = .art ∨ target = .pac := by
    simp [Target.spread]
  refine ⟨operations_isSome hready hi b draws, ?_⟩
  intro ops hops
  rw [operations_valid_iff hready hi b draws hops, hspread]

end

/-! ### A shuffle that mixes the keys -/

/-- An insert. -/
def insertDraw : Draw 3 where
  ratio := 99 / 100
  offset := 1
  ratio_nonneg := by norm_num
  ratio_lt := by norm_num
  offset_pos := by decide
  offset_le := by decide

theorem insertDraw_inserts : insertDraw.inserts .readLatest = true := by
  norm_num [Draw.inserts, insertDraw, Bench.readRatio]

theorem three_inserts : 3 ≤ [insertDraw, insertDraw, insertDraw].countP (Draw.inserts .readLatest) := by
  simp [insertDraw_inserts]

/-- Two threads of masstree with three new keys each. -/
theorem traces_valid_masstree :
    ∃ ops, operations .readLatest .masstree (pushSegments 1 3 2 1) 2 1 [insertDraw, insertDraw, insertDraw] =
        some ops ∧ ValidFrom (pushSegments 1 3 2 1).allKeys [] ops := by
  have hlaid : layout .masstree 6 2 = some (pushSegments 1 3 2 1) := rfl
  have htrace := traces_valid .readLatest .masstree (by decide) hlaid rfl (i := 1) (by decide)
    [insertDraw, insertDraw, insertDraw]
  obtain ⟨ops, hops⟩ := Option.isSome_iff_exists.mp (htrace.1.mpr three_inserts)
  exact ⟨ops, hops, (htrace.2 ops hops).mpr (by rintro (h | h) <;> cases h)⟩

/-- The keys of two threads with three new keys each, spread. -/
def twoThreads : Keys ℕ :=
  pushSegments (keyStep .art 6) 3 2 1

/-- They are laid out for a table of six keys. -/
theorem layout_twoThreads : layout .art 6 2 = some twoThreads := by
  rfl

/-- With `all_keys` reversed, the first thread inserts keys that are loaded. -/
theorem shuffled_reinserts :
    ¬ ∀ (b : Bench) (target : Target) (tableSize fgN : ℕ), 3 ≤ tableSize / fgN → ∀ laid ks : Keys ℕ,
      layout target tableSize fgN = some laid → Shuffled target laid ks → ∀ i < fgN,
      ∀ (draws : List (Draw (tableSize / fgN))) (ops : List (OpType × ℕ)),
      operations b target ks fgN i draws = some ops → ValidFrom ks.allKeys [] ops := by
  intro h
  have hks : Shuffled .art twoThreads ⟨twoThreads.allKeys.reverse, twoThreads.nonExistKeys⟩ :=
    ⟨List.reverse_perm _, .refl _⟩
  have hready := (layout_laid (by decide) layout_twoThreads).ready (by decide) hks
  obtain ⟨ops, hops⟩ := Option.isSome_iff_exists.mp
    ((operations_isSome hready (i := 0) (by decide) .readLatest [insertDraw, insertDraw, insertDraw]).mpr three_inserts)
  have hvalid := h .readLatest .art 6 2 (by decide) _ _ layout_twoThreads hks 0 (by decide) _ ops hops
  have hlt := (operations_valid_iff hready (by decide) .readLatest _ hops).mp hvalid rfl
  revert hlt
  decide

end SidleBaselines.Synthetic.Traces
