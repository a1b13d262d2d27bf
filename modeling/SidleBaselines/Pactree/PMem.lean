import Mathlib.Data.List.Pairwise
import SidleBaselines.Memory.Owners
import SidleBaselines.Unimalloc.Stride

/-!
# PACTree's memory

`PMem`, built for CXL and without `SL_DRAM`, makes three kinds, for the search layer, the data
layer and the logs, each over an area of its own. A block comes from one of them or from libc's
heap, and goes back to the data layer's kind or the search layer's, as its address compares with
the base of pool 1.

## What is proved

* `release_iff` — in a run in which every block given back so far has met the condition, a
  block goes back to where it came from exactly if it does: it came from the data layer's kind
  and that lies at or above the base of pool 1, or from the search layer's and that lies below.
* `release_searchLayer` — a block of the search layer, mapped above the data layer, goes to the
  data layer's kind.
-/

namespace SidleBaselines.Pactree

open SidleBaselines.Memory SidleBaselines.Unimalloc

/-! ### The allocator -/

/-- Where a block may come from: libc's heap, or the `n`-th kind made. -/
inductive Owner where
  | libcHeap
  | kind (n : ℕ)
  deriving DecidableEq, Repr

/-- What the allocators underneath answer, if asked: libc's heap, the pool's kind, and the data
layer's kind when it is asked in the pool's place. -/
structure Answers where
  libc : Option ℕ
  pool : Option ℕ
  dl : Option ℕ

/-- The static members of `PMem`, in a process with threads `J`; a kind is `none` while its
pointer is `NULL`. -/
structure PMem (J : Type) where
  slCxlKind : Option ℕ
  dlCxlKind : Option ℕ
  logCxlKind : Option ℕ
  strides : Strides
  tickets : J → Tickets
  alreadyAllocated : ℕ
  baseAddresses : ℕ → ℕ
  logVaddr : ℕ → ℕ
  /-- The areas of the kinds made so far. -/
  kinds : List Region

namespace PMem

variable {J : Type} [DecidableEq J]

/-- Nothing is bound. -/
def start : PMem J where
  slCxlKind := none
  dlCxlKind := none
  logCxlKind := none
  strides := ⟨0, 0⟩
  tickets _ := .zero
  alreadyAllocated := 0
  baseAddresses _ := 0
  logVaddr _ := 0
  kinds := []

/-- `stride_scheduler`, the one of `cxl_allocator.c`. -/
def stride (j : J) (s : PMem J) : DeviceType × PMem J :=
  let r := strideScheduler s.strides (s.tickets j)
  (r.1.device, { s with tickets := Function.update s.tickets j r.2 })

@[simp] theorem stride_dlCxlKind (j : J) (s : PMem J) : (s.stride j).2.dlCxlKind = s.dlCxlKind := rfl

/-- `memkind_malloc`, which gets nothing of a kind that is not there. -/
def memkindMalloc (kind : Option ℕ) (size : ℕ) (answer : Option ℕ) : Option ℕ × List (Ask Owner ℕ) :=
  match kind with
  | some k => (answer, [.give (.kind k) size answer])
  | none => (none, [])

/-- The kind of a pool. -/
def poolKind (poolId : ℕ) (s : PMem J) : Option ℕ :=
  if poolId = 0 then s.slCxlKind else if poolId = 1 then s.dlCxlKind else s.logCxlKind

@[simp] theorem stride_poolKind (poolId : ℕ) (j : J) (s : PMem J) :
     (s.stride j).2.poolKind poolId = s.poolKind poolId := rfl

/-- `alloc(poolId, size, p)`: the block, what it asks, and the members after it. -/
def alloc (poolId size : ℕ) (j : J) (a : Answers) (s : PMem J) : Option ℕ × List (Ask Owner ℕ) × PMem J :=
  let (devType, s) := s.stride j
  if devType = .localDev then (a.libc, [.give .libcHeap size a.libc], s)
  else
    let (p, asks) := memkindMalloc (s.poolKind poolId) size a.pool
    (p, asks, s)

/-- `alloc(poolId, size, p, oid)`, which tries the data layer's kind if the pool's has none. -/
def allocOid (poolId size : ℕ) (j : J) (a : Answers) (s : PMem J) : Option ℕ × List (Ask Owner ℕ) × PMem J :=
  let (devType, s) := s.stride j
  if devType = .localDev then (a.libc, [.give .libcHeap size a.libc], s)
  else
    match memkindMalloc (s.poolKind poolId) size a.pool with
    | (some p, asks) => (some p, asks, s)
    | (none, asks) =>
      let (p, asks') := memkindMalloc s.dlCxlKind size a.dl
      (p, asks ++ asks', s)

/-- The kind that `free` gives to `memkind_free`. -/
def free (pptr : ℕ) (s : PMem J) : Option ℕ := if pptr ≥ s.baseAddresses 1 then s.dlCxlKind else s.slCxlKind

/-- The kind that `freeVaddr` gives to `memkind_free`. -/
def freeVaddr (vaddr : ℕ) (s : PMem J) : Option ℕ :=
  if vaddr ≥ s.baseAddresses 1 then s.dlCxlKind else s.slCxlKind

/-- `memkind_create_fixed`, and the area mapped before it. -/
def createFixed (r : Region) (s : PMem J) : PMem J :=
  { s with kinds := s.kinds ++ [r], alreadyAllocated := s.alreadyAllocated + r.size }

/-- Make pool `poolId`'s kind, and for pool 0 the log's. -/
def bindKinds (poolId size mapped mapped2 : ℕ) (s : PMem J) : PMem J :=
  let k := s.kinds.length
  let s := { s.createFixed ⟨mapped, size⟩ with baseAddresses := Function.update s.baseAddresses poolId mapped }
  if poolId = 0 then
    { s.createFixed ⟨mapped2, size⟩ with
      slCxlKind := some k
      logCxlKind := some (k + 1)
      baseAddresses := Function.update s.baseAddresses 2 mapped2
      logVaddr := Function.update s.logVaddr 0 mapped2 }
  else { s with dlCxlKind := some k }

/-- The size of `root_obj`. -/
def rootSize : ℕ := 16

/-- `bind`, when the device is there and is mapped at `mapped` and, for pool 0, at `mapped2`: the
root, what it asks, and the members after it. -/
def bind (poolId size : ℕ) (percentageOnCxl : ℤ) (mapped mapped2 : ℕ) (j : J) (a : Answers) (s : PMem J) :
    Option ℕ × List (Ask Owner ℕ) × PMem J :=
  let s := s.bindKinds poolId size mapped mapped2
  let s := if (s.tickets j).localTicket = 0 then { s with strides := initStrides percentageOnCxl } else s
  s.alloc poolId rootSize j a

end PMem

/-! ### Runs -/

/-- A call of `PMem` by a thread, with what comes of it underneath. -/
inductive Request (J : Type) where
  | bind (poolId size : ℕ) (percentageOnCxl : ℤ) (mapped mapped2 : ℕ) (j : J) (a : Answers)
  | alloc (poolId size : ℕ) (j : J) (a : Answers)
  | allocOid (poolId size : ℕ) (j : J) (a : Answers)
  | free (pptr : ℕ)
  | freeVaddr (vaddr : ℕ)

/-- The members, the blocks the allocators underneath have given and not taken back, and those
the callers use. -/
structure Sys (J : Type) where
  pmem : PMem J
  live : Live Owner
  held : Finset ℕ

/-- The block a request frees. -/
def Request.ptr {J : Type} : Request J → Option ℕ
  | bind .. | alloc .. | allocOid .. => none
  | free pptr => some pptr
  | freeVaddr vaddr => some vaddr

namespace Sys

variable {J : Type} [DecidableEq J]

/-- Nothing is bound and there is no block. -/
def start : Sys J := ⟨.start, fun _ => ∅, ∅⟩

/-- Who takes a block that `memkind_free` is given with this kind: the kind, or, when it is
`NULL`, the one that `memkind_free` finds the block in. -/
def taker (s : Sys J) (kind : Option ℕ) (ptr : ℕ) : Option Owner :=
  match kind with
  | some k => some (.kind k)
  | none => ((List.range s.pmem.kinds.length).find? fun k => ptr ∈ s.live (.kind k)).map .kind

/-- A block is given out. -/
def give (s : Sys J) (r : Option ℕ × List (Ask Owner ℕ) × PMem J) : Sys J where
  pmem := r.2.2
  live := r.2.1.foldl (fun live a => a.apply live) s.live
  held := r.1.elim s.held (insert · s.held)

/-- A block is given back. -/
def release (s : Sys J) (kind : Option ℕ) (ptr : ℕ) : Sys J where
  pmem := s.pmem
  live := (s.taker kind ptr).elim s.live fun o => (Ask.take o ptr : Ask Owner ℕ).apply s.live
  held := s.held.erase ptr

/-- A request is served. -/
def serve (s : Sys J) : Request J → Sys J
  | .bind poolId size percentageOnCxl mapped mapped2 j a =>
    s.give (s.pmem.bind poolId size percentageOnCxl mapped mapped2 j a)
  | .alloc poolId size j a => s.give (s.pmem.alloc poolId size j a)
  | .allocOid poolId size j a => s.give (s.pmem.allocOid poolId size j a)
  | .free pptr => s.release (s.pmem.free pptr) pptr
  | .freeVaddr vaddr => s.release (s.pmem.freeVaddr vaddr) vaddr

/-- Block `ptr` goes back to where it came from, given back with this kind. -/
def Returns (s : Sys J) (kind : Option ℕ) (ptr : ℕ) : Prop := ∃ o, s.taker kind ptr = some o ∧ ptr ∈ s.live o

/-- Kind `k` made the block, and it is the one that the comparison of its area with the base of
pool 1 leads to, or there is none yet. -/
def Routed (s : Sys J) (ptr : ℕ) : Prop :=
  ∃ k r, s.pmem.kinds[k]? = some r ∧ ptr ∈ s.live (.kind k) ∧
    (s.pmem.baseAddresses 1 ≤ r.base ∧ (s.pmem.dlCxlKind = none ∨ s.pmem.dlCxlKind = some k) ∨
      r.base < s.pmem.baseAddresses 1 ∧ (s.pmem.slCxlKind = none ∨ s.pmem.slCxlKind = some k))

/-- Kinds give blocks in their areas and libc's heap gives blocks outside all of them. -/
structure AnswersOk (s : PMem J) (poolId : ℕ) (a : Answers) : Prop where
  libc : ∀ p, a.libc = some p → ∀ r ∈ s.kinds, ¬ r.Has p
  pool : ∀ p k, a.pool = some p → s.poolKind poolId = some k → ∃ r, s.kinds[k]? = some r ∧ r.Has p
  dl : ∀ p k, a.dl = some p → s.dlCxlKind = some k → ∃ r, s.kinds[k]? = some r ∧ r.Has p

/-- An area is mapped where no kind's area and no block of the heap is. -/
def Fresh (s : Sys J) (r : Region) : Prop :=
  0 < r.size ∧ (∀ r' ∈ s.pmem.kinds, r'.Apart r) ∧ ∀ p ∈ s.live .libcHeap, ¬ r.Has p

/-- The request is one that callers make, and the system underneath answers as it does. -/
def Valid (s : Sys J) : Request J → Prop
  | .bind poolId size _ mapped mapped2 _ a =>
    poolId < 6 ∧ s.Fresh ⟨mapped, size⟩ ∧
      (poolId = 0 → s.Fresh ⟨mapped2, size⟩ ∧ (⟨mapped, size⟩ : Region).Apart ⟨mapped2, size⟩) ∧
      AnswersOk (s.pmem.bindKinds poolId size mapped mapped2) poolId a
  | .alloc poolId _ _ a => AnswersOk s.pmem poolId a
  | .allocOid poolId _ _ a => AnswersOk s.pmem poolId a
  | .free pptr => pptr ∈ s.held
  | .freeVaddr vaddr => vaddr ∈ s.held

/-- The states of runs in which every block given back meets the condition. -/
inductive Reachable : Sys J → Prop
  /-- At the start. -/
  | start : Reachable start
  /-- By a request. -/
  | serve {s : Sys J} (c : Request J) (h : Reachable s) (hc : s.Valid c) (hr : ∀ ptr, c.ptr = some ptr → s.Routed ptr) :
      Reachable (s.serve c)

/-- Where an allocator's blocks lie. -/
def place (kinds : List Region) : Owner → ℕ → Prop
  | .libcHeap, p => ∀ r ∈ kinds, ¬ r.Has p
  | .kind k, p => ∃ r, kinds[k]? = some r ∧ r.Has p

/-- Each block has one owner, in whose area it lies, and the base of pool 1 is an area's. -/
structure Owned (s : Sys J) : Prop where
  placed : Placed (place s.pmem.kinds) s.live
  holds : Holds s.live s.held
  apart : s.pmem.kinds.Pairwise Region.Apart
  pos : ∀ r ∈ s.pmem.kinds, 0 < r.size
  base : s.pmem.baseAddresses 1 = 0 ∨ ∃ r ∈ s.pmem.kinds, r.base = s.pmem.baseAddresses 1

section
variable {s : Sys J} {ptr : ℕ}

theorem place_apart {kinds : List Region} (h : kinds.Pairwise Region.Apart) (o o' : Owner) (p : ℕ)
    (ho : place kinds o p) (ho' : place kinds o' p) : o = o' := by
  cases o with
  | libcHeap =>
    cases o' with
    | libcHeap => rfl
    | kind k =>
      obtain ⟨r, hr, hp⟩ := ho'
      exact absurd hp (ho r (List.mem_of_getElem? hr))
  | kind k =>
    obtain ⟨r, hr, hp⟩ := ho
    cases o' with
    | libcHeap => exact absurd hp (ho' r (List.mem_of_getElem? hr))
    | kind k' =>
      obtain ⟨r', hr', hp'⟩ := ho'
      obtain ⟨hk, rfl⟩ := List.getElem?_eq_some_iff.mp hr
      obtain ⟨hk', rfl⟩ := List.getElem?_eq_some_iff.mp hr'
      by_contra hne
      have hne : k ≠ k' := fun e => hne (congrArg _ e)
      rcases Nat.lt_or_gt_of_ne hne with hlt | hlt
      · exact (List.pairwise_iff_getElem.mp h k k' hk hk' hlt).not_has hp hp'
      · exact (List.pairwise_iff_getElem.mp h k' k hk' hk hlt).not_has hp' hp

omit [DecidableEq J] in
/-- A live block's only owner. -/
theorem Owned.only (h : Owned s) {o : Owner} (hp : ptr ∈ s.live o) : ∀ i, ptr ∈ s.live i → i = o :=
  fun _ hi => h.placed.unique (place_apart h.apart) hi hp

omit [DecidableEq J] in
/-- A block is on the side of the base of pool 1 that its kind's area is on. -/
theorem Owned.side (h : Owned s) {r : Region} (hr : r ∈ s.pmem.kinds) (hp : r.Has ptr) :
    s.pmem.baseAddresses 1 ≤ ptr ↔ s.pmem.baseAddresses 1 ≤ r.base := by
  rcases h.base with hbase | ⟨r', hr', hbase⟩
  · simp [hbase]
  · rw [← hbase]
    by_cases heq : r' = r
    · subst heq
      exact iff_of_true hp.1 le_rfl
    · exact (h.apart.forall hr' hr heq).le_iff (h.pos r' hr') hp

omit [DecidableEq J] in
/-- A kind that `memkind_free` is given takes its own blocks, and given none it finds the one
that a block is in. -/
theorem Owned.returns_iff (h : Owned s) (kind : Option ℕ) :
    s.Returns kind ptr ↔ ∃ k, ptr ∈ s.live (.kind k) ∧ (kind = none ∨ kind = some k) := by
  cases kind with
  | some k =>
    simp only [Returns, taker, Option.some.injEq, reduceCtorEq, false_or]
    exact ⟨fun ⟨_, ho, hp⟩ => ⟨k, ho ▸ hp, rfl⟩, fun ⟨_, hp, hk⟩ => ⟨_, rfl, hk ▸ hp⟩⟩
  | none =>
    simp only [Returns, taker, true_or, and_true, Option.map_eq_some_iff]
    constructor
    · rintro ⟨_, ⟨k, -, rfl⟩, hp⟩
      exact ⟨k, hp⟩
    · rintro ⟨k, hp⟩
      obtain ⟨r, hr, -⟩ := h.placed _ _ hp
      have hk : k < s.pmem.kinds.length := (List.getElem?_eq_some_iff.mp hr).1
      cases hfind : (List.range s.pmem.kinds.length).find? fun k => decide (ptr ∈ s.live (.kind k)) with
      | none =>
        have := List.find?_eq_none.mp hfind k (List.mem_range.mpr hk)
        exact absurd hp (by simpa using this)
      | some k' => exact ⟨_, ⟨k', rfl, rfl⟩, by simpa using List.find?_some hfind⟩

omit [DecidableEq J] in
/-- **Release**: a block goes back to where it came from exactly if the condition holds of it. -/
theorem Owned.routed_iff (h : Owned s) : s.Returns (s.pmem.free ptr) ptr ↔ s.Routed ptr := by
  rw [h.returns_iff]
  constructor
  · rintro ⟨k, hp, hk⟩
    obtain ⟨r, hr, hhas⟩ := h.placed _ _ hp
    have hside := h.side (List.mem_of_getElem? hr) hhas
    refine ⟨k, r, hr, hp, ?_⟩
    unfold PMem.free at hk
    split_ifs at hk with hle
    · exact .inl ⟨hside.mp hle, hk⟩
    · exact .inr ⟨not_le.mp fun hle' => hle (hside.mpr hle'), hk⟩
  · rintro ⟨k, r, hr, hp, hroute⟩
    obtain ⟨r', hr', hhas⟩ := h.placed _ _ hp
    obtain rfl : r' = r := Option.some.inj (hr'.symm.trans hr)
    have hside := h.side (List.mem_of_getElem? hr) hhas
    refine ⟨k, hp, ?_⟩
    unfold PMem.free
    rcases hroute with ⟨hle, hk⟩ | ⟨hlt, hk⟩
    · rwa [if_pos (hside.mpr hle)]
    · rwa [if_neg fun hle => absurd (hside.mp hle) (not_le.mpr hlt)]

end

/-! ### Ownership is kept -/

omit [DecidableEq J] in
theorem Owned.start : Owned (start : Sys J) where
  placed _ _ hp := absurd hp (Finset.notMem_empty _)
  holds _ := ⟨fun h => absurd h (Finset.notMem_empty _), fun ⟨_, h⟩ => absurd h (Finset.notMem_empty _)⟩
  apart := .nil
  pos _ hr := absurd hr List.not_mem_nil
  base := .inl rfl

/-- A kind gives blocks in its area. -/
theorem gives_memkind {kinds : List Region} {kind : Option ℕ} {answer : Option ℕ} (size : ℕ)
    (h : ∀ p k, answer = some p → kind = some k → ∃ r, kinds[k]? = some r ∧ r.Has p) :
    Gives (place kinds) (PMem.memkindMalloc kind size answer).1 (PMem.memkindMalloc kind size answer).2 := by
  cases kind with
  | none => exact gives_nil
  | some k => exact gives_ask _ _ fun p hp => h p k hp rfl

/-- The kinds, and the base of pool 1, are as they were. -/
def SameKinds (s s' : PMem J) : Prop :=
  s'.kinds = s.kinds ∧ s'.baseAddresses = s.baseAddresses

theorem gives_alloc {s : PMem J} {poolId : ℕ} {a : Answers} (h : AnswersOk s poolId a) (size : ℕ) (j : J) :
    Gives (place s.kinds) (s.alloc poolId size j a).1 (s.alloc poolId size j a).2.1 ∧
      SameKinds s (s.alloc poolId size j a).2.2 := by
  unfold PMem.alloc
  by_cases hdev : (s.stride j).1 = .localDev
  · simp only [hdev, if_true]
    exact ⟨gives_ask _ _ h.libc, rfl, rfl⟩
  · simp only [hdev, if_false]
    exact ⟨gives_memkind size h.pool, rfl, rfl⟩

theorem gives_allocOid {s : PMem J} {poolId : ℕ} {a : Answers} (h : AnswersOk s poolId a) (size : ℕ) (j : J) :
    Gives (place s.kinds) (s.allocOid poolId size j a).1 (s.allocOid poolId size j a).2.1 ∧
      SameKinds s (s.allocOid poolId size j a).2.2 := by
  unfold PMem.allocOid
  by_cases hdev : (s.stride j).1 = .localDev
  · simp only [hdev, if_true]
    exact ⟨gives_ask _ _ h.libc, rfl, rfl⟩
  · simp only [hdev, if_false]
    have hpool := gives_memkind size h.pool
    simp only [PMem.stride_poolKind, PMem.stride_dlCxlKind]
    generalize PMem.memkindMalloc (s.poolKind poolId) size a.pool = r at hpool
    obtain ⟨p, asks⟩ := r
    cases p with
    | none => exact ⟨(gives_memkind size h.dl).after hpool, rfl, rfl⟩
    | some p => exact ⟨hpool, rfl, rfl⟩

section
variable {s : Sys J} (h : Owned s)
include h

omit [DecidableEq J] in
/-- A block is given out. -/
theorem Owned.give {r : Option ℕ × List (Ask Owner ℕ) × PMem J} (hr : Gives (place s.pmem.kinds) r.1 r.2.1)
    (hsame : SameKinds s.pmem r.2.2) : Owned (s.give r) where
  placed := by
    rw [Sys.give, hsame.1]
    exact hr.placed h.placed
  holds := hr.holds h.holds
  apart := by
    rw [Sys.give, hsame.1]
    exact h.apart
  pos := by
    rw [Sys.give, hsame.1]
    exact h.pos
  base := by
    rw [Sys.give, hsame.1, hsame.2]
    exact h.base

omit [DecidableEq J] in
/-- A block goes back to where it came from. -/
theorem Owned.release {kind : Option ℕ} {ptr : ℕ} (hptr : s.Returns kind ptr) :
    Owned (s.release kind ptr) := by
  obtain ⟨o, ho, hp⟩ := hptr
  rw [Sys.release, ho]
  exact ⟨h.placed.update fun _ hq => .inl (Finset.mem_of_mem_erase hq), h.holds.take (h.only hp), h.apart, h.pos, h.base⟩

omit [DecidableEq J] in
/-- A kind is made where no kind's area is, and no block. -/
theorem Owned.createFixed {r : Region} (hr : s.Fresh r) : Owned { s with pmem := s.pmem.createFixed r } where
  placed o p hp := by
    have hplace := h.placed o p hp
    cases o with
    | libcHeap =>
      intro r' hr'
      rcases List.mem_append.mp hr' with hr' | hr'
      · exact hplace r' hr'
      · exact List.mem_singleton.mp hr' ▸ hr.2.2 p hp
    | kind k =>
      obtain ⟨r', hr', hhas⟩ := hplace
      exact ⟨r', by rw [PMem.createFixed, List.getElem?_append_left (List.getElem?_eq_some_iff.mp hr').1, hr'], hhas⟩
  holds := h.holds
  apart := List.pairwise_append.mpr ⟨h.apart, List.pairwise_singleton _ _, fun r' hr' r'' hr'' =>
    List.mem_singleton.mp hr'' ▸ hr.2.1 r' hr'⟩
  pos r' hr' := by
    rcases List.mem_append.mp hr' with hr' | hr'
    · exact h.pos r' hr'
    · exact List.mem_singleton.mp hr' ▸ hr.1
  base := h.base.imp_right fun ⟨r', hr', hbase⟩ => ⟨r', List.mem_append_left _ hr', hbase⟩

omit [DecidableEq J] in
/-- Pointers may change, if the base of pool 1 is still an area's. -/
theorem Owned.pointers {m : PMem J} (hkinds : m.kinds = s.pmem.kinds)
    (hbase : m.baseAddresses 1 = s.pmem.baseAddresses 1 ∨ ∃ r ∈ m.kinds, r.base = m.baseAddresses 1) :
    Owned { s with pmem := m } where
  placed := hkinds ▸ h.placed
  holds := h.holds
  apart := hkinds ▸ h.apart
  pos := hkinds ▸ h.pos
  base := by
    rcases hbase with hbase | hbase
    · have := h.base
      rwa [← hbase, ← hkinds] at this
    · exact .inr hbase

omit [DecidableEq J] in
theorem Owned.bindKinds {poolId size mapped mapped2 : ℕ} (hr : s.Fresh ⟨mapped, size⟩)
    (hr2 : poolId = 0 → s.Fresh ⟨mapped2, size⟩ ∧ (⟨mapped, size⟩ : Region).Apart ⟨mapped2, size⟩) :
    Owned { s with pmem := s.pmem.bindKinds poolId size mapped mapped2 } := by
  have h₁ := h.createFixed hr
  unfold PMem.bindKinds
  by_cases h0 : poolId = 0
  · subst h0
    obtain ⟨hr2, hapart⟩ := hr2 rfl
    have hr2' : Sys.Fresh { s with pmem := s.pmem.createFixed ⟨mapped, size⟩ } ⟨mapped2, size⟩ := by
      refine ⟨hr2.1, fun r' hr' => ?_, hr2.2.2⟩
      rcases List.mem_append.mp hr' with hr' | hr'
      · exact hr2.2.1 r' hr'
      · exact List.mem_singleton.mp hr' ▸ hapart
    exact (h₁.createFixed hr2').pointers rfl (.inl rfl)
  · rw [if_neg h0]
    refine h₁.pointers rfl ?_
    by_cases h1 : poolId = 1
    · subst h1
      exact .inr ⟨⟨mapped, size⟩, List.mem_append_right _ List.mem_cons_self, rfl⟩
    · exact .inl (Function.update_of_ne (Ne.symm h1) ..)

/-- **Ownership is kept** by every request whose block meets the condition. -/
theorem Owned.serve {c : Request J} (hc : s.Valid c) (hr : ∀ ptr, c.ptr = some ptr → s.Routed ptr) :
    Owned (s.serve c) := by
  cases c with
  | bind poolId size percentageOnCxl mapped mapped2 j a =>
    obtain ⟨-, hfresh, hfresh2, ha⟩ := hc
    have h₁ : Owned { s with pmem := s.pmem.bindKinds poolId size mapped mapped2 } := h.bindKinds hfresh hfresh2
    simp only [Sys.serve, PMem.bind]
    split_ifs
    · obtain ⟨hg, hs⟩ := gives_alloc (s := { s.pmem.bindKinds poolId size mapped mapped2 with
        strides := initStrides percentageOnCxl }) ⟨ha.libc, ha.pool, ha.dl⟩ PMem.rootSize j
      exact h₁.give hg hs
    · obtain ⟨hg, hs⟩ := gives_alloc ha PMem.rootSize j
      exact h₁.give hg hs
  | alloc poolId size j a =>
    obtain ⟨hg, hs⟩ := gives_alloc hc size j
    exact h.give hg hs
  | allocOid poolId size j a =>
    obtain ⟨hg, hs⟩ := gives_allocOid hc size j
    exact h.give hg hs
  | free pptr => exact h.release (h.routed_iff.mpr (hr pptr rfl))
  | freeVaddr vaddr => exact h.release (h.routed_iff.mpr (hr vaddr rfl))

end

theorem Owned.of_reachable {s : Sys J} (h : Reachable s) : Owned s := by
  induction h with
  | start => exact .start
  | serve c _ hc hr ih => exact ih.serve hc hr

/-- **Blocks go back to where they came from** exactly if the condition holds of them: in a run
in which it has held of every block given back so far, `free` and `freeVaddr` give a block in
use back to its one owner if and only if this is the kind that the side of the base of pool 1
its area is on leads to. -/
theorem release_iff {s : Sys J} (h : Reachable s) {ptr : ℕ} (hptr : ptr ∈ s.held) :
    (∃! o, ptr ∈ s.live o) ∧ (s.Returns (s.pmem.free ptr) ptr ↔ s.Routed ptr) ∧
      (s.Returns (s.pmem.freeVaddr ptr) ptr ↔ s.Routed ptr) := by
  have hs := Owned.of_reachable h
  obtain ⟨o, ho⟩ := (hs.holds ptr).mp hptr
  exact ⟨⟨o, ho, hs.only ho⟩, hs.routed_iff, hs.routed_iff⟩

/-! ### A search layer above the data layer -/

/-- Pool 0 is bound, its area mapped at `16384` and the log's at `12288`, and its root allocated. -/
def searchLayer : Sys Unit := start.serve (.bind 0 4096 100 16384 12288 () ⟨none, some 16384, none⟩)

/-- Then pool 1 is bound, below. -/
def twoPools : Sys Unit := searchLayer.serve (.bind 1 4096 100 4096 0 () ⟨none, some 4096, none⟩)

theorem reachable_twoPools : Reachable twoPools := by
  have hnone {a : Option ℕ} (h : a = none) (p : ℕ) (hp : a = some p) : False := by rw [h] at hp; cases hp
  have hsearch : Reachable searchLayer := by
    refine .serve _ .start ⟨by decide, ⟨by decide, by decide, by decide⟩,
      fun _ => ⟨⟨by decide, by decide, by decide⟩, by decide⟩, ?_, ?_, ?_⟩ (fun _ h => by cases h)
    · exact fun p hp => (hnone rfl p hp).elim
    · rintro p k ⟨⟩ ⟨⟩
      exact ⟨_, rfl, by decide⟩
    · exact fun p _ hp => (hnone rfl p hp).elim
  refine hsearch.serve _ ⟨by decide, ⟨by decide, by decide, by decide⟩, fun h => absurd h (by decide), ?_, ?_, ?_⟩
    (fun _ h => by cases h)
  · exact fun p hp => (hnone rfl p hp).elim
  · rintro p k ⟨⟩ ⟨⟩
    exact ⟨_, rfl, by decide⟩
  · exact fun p _ hp => (hnone rfl p hp).elim

theorem release_iff_root : twoPools.Returns (twoPools.pmem.free 4096) 4096 ↔ twoPools.Routed 4096 :=
  (release_iff reachable_twoPools (by decide)).2.1

/-- **A block of the search layer** whose area lies above the data layer's goes back to the data
layer's kind. -/
theorem release_searchLayer : Reachable twoPools ∧ 16384 ∈ twoPools.held ∧ 16384 ∈ twoPools.live (.kind 0) ∧
    twoPools.pmem.free 16384 = some 2 ∧ ¬ twoPools.Returns (twoPools.pmem.free 16384) 16384 := by
  have hfree : twoPools.pmem.free 16384 = some 2 := by decide
  refine ⟨reachable_twoPools, by decide, by decide, hfree, ?_⟩
  rw [hfree]
  rintro ⟨o, ho, hp⟩
  cases ho
  exact absurd hp (by decide)

end Sys

end SidleBaselines.Pactree
