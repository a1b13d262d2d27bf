import SidleBaselines.Memory.Owners
import SidleBaselines.Unimalloc.Stride

/-!
# Where a block came from

Unimalloc keeps no record of which allocator a block came from. It takes a block for the
CXL kind's if its address lies in the area that `cxl_init` has mapped, and for libc's
otherwise; before `cxl_init` that area is empty.

## What is proved

* `blocks_owned` — whatever is allocated, resized, freed and unmapped, no two blocks in use
  overlap, each has exactly one owner, and that one is asked when it is freed, resized or, if it
  is not the heap's, unmapped.
* `heap_unmapped` — a block of the heap that is unmapped is not given back to the heap.
-/

namespace SidleBaselines.Unimalloc

open SidleBaselines.Memory

/-! ### The allocator -/

/-- `CXL_MAX_SIZE`, 30 GiB. -/
def cxlMaxSize : ℕ := 1024 * 1024 * 1024 * 30

/-- `CXL_MIN_SIZE`. -/
def cxlMinSize : ℕ := 2 * 1024 * 1024

/-- The allocators underneath. -/
inductive Owner where
  /-- `malloc` and its kin. -/
  | libcHeap
  /-- `mmap`. -/
  | libcMmap
  /-- `cxl_kind`. -/
  | cxlKind
  deriving DecidableEq, Repr

/-- What an allocator is asked for. -/
inductive Want where
  | malloc (size : ℕ)
  | calloc (num size : ℕ)
  | memalign (alignment size : ℕ)
  deriving DecidableEq, Repr

/-- The allocator's variables, in a process with threads `J`. -/
structure Process (J : Type) extends Scheduler J where
  mmapStartPoint : ℕ
  mmapEndPoint : ℕ
  cxlCurrentSize : ℕ
  cxlOffset : ℕ

/-- What the allocators answer, if asked. -/
structure Answers where
  kind : Option ℕ
  libc : Option ℕ

namespace Process

variable {J : Type} [DecidableEq J]

/-- A process starts with no area. -/
def start : Process J := { Scheduler.start with
  mmapStartPoint := 0, mmapEndPoint := 0, cxlCurrentSize := 0, cxlOffset := cxlMaxSize }

/-- The size `cxl_init` maps. -/
def areaSize (wantedSize : ℕ) : ℕ :=
  let size := if wantedSize > cxlMaxSize then cxlMaxSize else wantedSize
  if size < cxlMinSize then cxlMinSize else size

/-- `cxl_init`, when the device is there and is mapped at `mapped`. -/
def cxlInit (wantedSize : ℕ) (percentage : ℤ) (mapped : ℕ) (s : Process J) : Process J :=
  if s.created then s
  else { s.toScheduler.cxlInit percentage with
    mmapStartPoint := mapped
    mmapEndPoint := mapped + areaSize wantedSize
    cxlCurrentSize := areaSize wantedSize
    cxlOffset := areaSize wantedSize }

/-- The area that `cxl_init` has mapped. -/
def area (s : Process J) : Region := ⟨s.mmapStartPoint, s.mmapEndPoint - s.mmapStartPoint⟩

/-- The address is in the area. -/
def onCxl (s : Process J) (ptr : ℕ) : Bool := ptr ≥ s.mmapStartPoint ∧ ptr < s.mmapEndPoint

/-- A call of `stride_scheduler` by thread `j`. -/
def stride (j : J) (s : Process J) : DeviceType × Process J :=
  let r := s.schedule j
  (r.1.device, { s with toScheduler := r.2 })

/-- What `malloc_with_cxl`, `calloc_with_cxl` and `posix_memalign_with_cxl` do: the block,
what they ask, and the process after it. -/
def allocWithCxl (want : Want) (j : J) (a : Answers) (s : Process J) :
    Option ℕ × List (Ask Owner Want) × Process J :=
  let (dev, s) := if s.created then s.stride j else (.unknownDev, s)
  if dev = .cxlDev then
    match a.kind with
    | some p => (some p, [.give .cxlKind want (some p)], s)
    | none => (a.libc, [.give .cxlKind want none, .give .libcHeap want a.libc], s)
  else
    match a.libc with
    | some p => (some p, [.give .libcHeap want (some p)], s)
    -- if malloc fail, try to re-malloc in cxl
    | none => (a.kind, [.give .libcHeap want none, .give .cxlKind want a.kind], s)

/-- `malloc_with_cxl`. -/
def mallocWithCxl (size : ℕ) (j : J) (a : Answers) (s : Process J) := s.allocWithCxl (.malloc size) j a

/-- `calloc_with_cxl`. -/
def callocWithCxl (num size : ℕ) (j : J) (a : Answers) (s : Process J) :=
  s.allocWithCxl (.calloc num size) j a

/-- `posix_memalign_with_cxl`. -/
def posixMemalignWithCxl (alignment size : ℕ) (j : J) (a : Answers) (s : Process J) :=
  s.allocWithCxl (.memalign alignment size) j a

/-- `mmap_with_cxl`, which draws from the kind or fails. -/
def mmapWithCxl (length : ℕ) (j : J) (kind : Option ℕ) (s : Process J) :
    Option ℕ × List (Ask Owner Want) × Process J :=
  let (choice, s) := s.stride j
  if s.created ∧ choice = .cxlDev then (kind, [.give .cxlKind (.malloc length) kind], s) else (none, [], s)

/-- `realloc_with_cxl`. -/
def reallocWithCxl (ptr newSize : ℕ) (result : Resized) (s : Process J) : List (Ask Owner Want) :=
  if s.onCxl ptr then [.resize .cxlKind ptr newSize result] else [.resize .libcHeap ptr newSize result]

/-- `free_with_cxl`. -/
def freeWithCxl (ptr : ℕ) (s : Process J) : List (Ask Owner Want) :=
  if s.onCxl ptr then [.take .cxlKind ptr] else [.take .libcHeap ptr]

/-- `munmap_with_cxl`. -/
def munmapWithCxl (ptr : ℕ) (s : Process J) : List (Ask Owner Want) :=
  if s.onCxl ptr then [.take .cxlKind ptr] else [.take .libcMmap ptr]

end Process

/-! ### Calls -/

/-- A call of the allocator by a thread, with what comes of it underneath. -/
inductive Request (J : Type) where
  | cxlInit (wantedSize : ℕ) (percentage : ℤ) (mapped : ℕ)
  | malloc (j : J) (size : ℕ) (a : Answers)
  | calloc (j : J) (num size : ℕ) (a : Answers)
  | posixMemalign (j : J) (alignment size : ℕ) (a : Answers)
  | mmap (j : J) (length : ℕ) (kind : Option ℕ)
  | realloc (ptr newSize : ℕ) (result : Resized)
  | free (ptr : ℕ)
  | munmap (ptr size : ℕ)

/-- The bytes of the block it asks for, of which there is at least one. -/
def Request.bytes {J : Type} : Request J → ℕ
  | malloc _ size _ => max 1 size
  | calloc _ num size _ => max 1 (num * size)
  | posixMemalign _ _ size _ => max 1 size
  | mmap _ length _ => max 1 length
  | realloc _ newSize _ => max 1 newSize
  | cxlInit .. | free _ | munmap .. => 0

/-- What a request returns, what it asks underneath, and the process after it. -/
def Request.exec {J : Type} [DecidableEq J] (s : Process J) :
    Request J → Option ℕ × List (Ask Owner Want) × Process J
  | cxlInit wantedSize percentage mapped => (none, [], s.cxlInit wantedSize percentage mapped)
  | malloc j size a => s.mallocWithCxl size j a
  | calloc j num size a => s.callocWithCxl num size j a
  | posixMemalign j alignment size a => s.posixMemalignWithCxl alignment size j a
  | mmap j length kind => s.mmapWithCxl length j kind
  | realloc ptr newSize result => (result.block, s.reallocWithCxl ptr newSize result, s)
  | free ptr => (none, s.freeWithCxl ptr, s)
  | munmap ptr _ => (none, s.munmapWithCxl ptr, s)

/-! ### Runs -/

/-- The blocks the callers use after a request that returned `result`. -/
def Request.uses {J : Type} (result : Option ℕ) (held : Finset ℕ) : Request J → Finset ℕ
  | cxlInit .. => held
  | malloc .. | calloc .. | posixMemalign .. | mmap .. => result.elim held (insert · held)
  | realloc ptr _ (.moved p) => insert p (held.erase ptr)
  | realloc _ _ .failed => held
  | realloc ptr _ .freed => held.erase ptr
  | free ptr => held.erase ptr
  | munmap ptr _ => held.erase ptr

/-- A process, the blocks its allocators have given and not taken back, their sizes, and those
its callers use. -/
structure Sys (J : Type) where
  process : Process J
  live : Live Owner
  size : ℕ → ℕ
  held : Finset ℕ

namespace Sys

variable {J : Type} [DecidableEq J]

/-- What the request asks underneath. -/
def asks (s : Sys J) (c : Request J) : List (Ask Owner Want) := (c.exec s.process).2.1

/-- A request is served. -/
def serve (s : Sys J) (c : Request J) : Sys J where
  process := (c.exec s.process).2.2
  live := (s.asks c).foldl (fun live a => a.apply live) s.live
  size := (c.exec s.process).1.elim s.size (Function.update s.size · c.bytes)
  held := c.uses (c.exec s.process).1 s.held

/-- No block yet. -/
def start : Sys J := ⟨.start, fun _ => ∅, fun _ => 0, ∅⟩

/-- The block that begins there. -/
def block (s : Sys J) (p : ℕ) : Region := ⟨p, s.size p⟩

/-- Where an allocator puts its blocks: the kind in the area, libc's heap outside it. -/
def zone (s : Process J) : Owner → Region → Prop
  | .libcHeap, r => 0 < r.size ∧ r.Apart s.area ∧ r.base ≠ 0
  | .libcMmap, _ => False
  | .cxlKind, r => 0 < r.size ∧ r.Within s.area

instance (s : Process J) : (o : Owner) → (r : Region) → Decidable (zone s o r)
  | .libcHeap, _ => inferInstanceAs (Decidable (_ ∧ _))
  | .libcMmap, _ => inferInstanceAs (Decidable False)
  | .cxlKind, _ => inferInstanceAs (Decidable (_ ∧ _))

/-- The owner that an address tells, of those that `malloc_with_cxl` and its kin ask. -/
def ownerOf (s : Process J) (ptr : ℕ) : Owner := if s.onCxl ptr then .cxlKind else .libcHeap

/-- An allocator gives a block where it has room for one; before `cxl_init` the heap has room. -/
structure AnswersOk (s : Sys J) (n : ℕ) (a : Answers) : Prop where
  kind : ∀ p, a.kind = some p → Room (zone s.process) s.size s.live .cxlKind ⟨p, n⟩
  libc : ∀ p, a.libc = some p → Room (zone s.process) s.size s.live .libcHeap ⟨p, n⟩
  heap : s.process.created = false → a.libc ≠ none

/-- The request is one that callers make, and the allocators underneath answer as they do. -/
def Valid (s : Sys J) (c : Request J) : Prop :=
  match c with
  | .cxlInit wantedSize _ mapped => s.process.created = false →
      0 < mapped ∧ ∀ p ∈ s.live .libcHeap, (s.block p).Apart ⟨mapped, Process.areaSize wantedSize⟩
  | .malloc _ _ a | .calloc _ _ _ a | .posixMemalign _ _ _ a => s.AnswersOk c.bytes a
  | .mmap _ _ kind => ∀ p, kind = some p → Room (zone s.process) s.size s.live .cxlKind ⟨p, c.bytes⟩
  | .realloc ptr newSize result => (ptr = 0 ∨ ptr ∈ s.held) ∧ (result = .freed → newSize = 0) ∧
      ∀ p, result = .moved p → zone s.process (ownerOf s.process ptr) ⟨p, c.bytes⟩ ∧
        ∀ q ∈ s.live (ownerOf s.process ptr), q ≠ ptr → Region.Apart ⟨p, c.bytes⟩ (s.block q)
  | .free ptr => ptr = 0 ∨ ptr ∈ s.held
  | .munmap ptr _ => ptr = 0 ∨ ptr ∈ s.held ∧ ptr ∉ s.live .libcHeap

/-- The states runs get to. -/
inductive Reachable : Sys J → Prop
  /-- At the start. -/
  | start : Reachable start
  /-- By a request. -/
  | serve {s : Sys J} (c : Request J) (h : Reachable s) (hc : s.Valid c) : Reachable (s.serve c)

/-- Each block has one owner, and its address tells which. -/
structure Owned (s : Sys J) : Prop where
  /-- Blocks lie where their owners put them, and apart. -/
  laid : Laid (zone s.process) s.size s.live
  /-- The blocks in use are the live ones. -/
  holds : Holds s.live s.held
  /-- Before `cxl_init` there is no area. -/
  before : s.process.created = false → s.process.mmapEndPoint = 0
  /-- After it the area is not at `NULL`. -/
  after : s.process.created = true → 0 < s.process.mmapStartPoint

omit [DecidableEq J] in
theorem reallocWithCxl_eq (s : Process J) (ptr newSize : ℕ) (result : Resized) :
    s.reallocWithCxl ptr newSize result = [.resize (ownerOf s ptr) ptr newSize result] := by
  unfold Process.reallocWithCxl ownerOf
  split_ifs <;> rfl

omit [DecidableEq J] in
theorem freeWithCxl_eq (s : Process J) (ptr : ℕ) : s.freeWithCxl ptr = [.take (ownerOf s ptr) ptr] := by
  unfold Process.freeWithCxl ownerOf
  split_ifs <;> rfl

section
variable {s : Sys J} {ptr : ℕ}

omit [DecidableEq J] in
theorem has_area (s : Process J) (p : ℕ) : s.area.Has p ↔ s.onCxl p = true := by
  unfold Region.Has Process.area Process.onCxl
  simp only [decide_eq_true_eq]
  omega

omit [DecidableEq J] in
/-- The zones are apart, since the area divides them. -/
theorem zones (s : Process J) : Zones (zone s) where
  pos {o r} h := by
    cases o with
    | libcMmap => exact h.elim
    | _ => exact h.1
  apart {o o' r r'} hne h h' := by
    cases o <;> cases o'
    case libcHeap.cxlKind => exact h.2.1.of_within h'.2
    case cxlKind.libcHeap => exact Or.symm (h'.2.1.of_within h.2)
    all_goals first | exact absurd rfl hne | exact h.elim | exact h'.elim

omit [DecidableEq J] in
/-- The address of a block tells its owner. -/
theorem zone_owner {s : Process J} {o : Owner} {r : Region} (h : zone s o r) : ownerOf s r.base = o := by
  unfold ownerOf
  cases o with
  | libcHeap => exact if_neg fun hp => h.2.1.not_has_base h.1 ((has_area s r.base).mpr hp)
  | libcMmap => exact h.elim
  | cxlKind => exact if_pos ((has_area s r.base).mp (h.2.has h.1))

omit [DecidableEq J] in
/-- A live block's only owner. -/
theorem Owned.only (h : Owned s) {o : Owner} {p : ℕ} (hp : p ∈ s.live o) : ∀ i, p ∈ s.live i → i = o :=
  fun _ hi => h.laid.unique (zones s.process) hi hp

omit [DecidableEq J] in
/-- `NULL` is not in the area. -/
theorem Owned.onCxl_zero (h : Owned s) : s.process.onCxl 0 = false := by
  unfold Process.onCxl
  cases hc : s.process.created
  · simp [h.before hc]
  · have := h.after hc
    simp
    omega

omit [DecidableEq J] in
/-- The owner that the address tells is the block's. -/
theorem Owned.mem (h : Owned s) (hp : ptr ∈ s.held) : ptr ∈ s.live (ownerOf s.process ptr) := by
  obtain ⟨o, ho⟩ := (h.holds ptr).mp hp
  have hown : ownerOf s.process ptr = o := zone_owner (h.laid.zone o ptr ho)
  rwa [hown]

omit [DecidableEq J] in
/-- No block is at `NULL`. -/
theorem Owned.zero (h : Owned s) (o : Owner) : 0 ∉ s.live o := by
  intro h0
  have hzone := h.laid.zone o 0 h0
  cases o with
  | libcHeap => exact hzone.2.2 rfl
  | libcMmap => exact hzone
  | cxlKind =>
    have : s.process.onCxl 0 = true := (has_area s.process 0).mp (hzone.2.has hzone.1)
    rw [h.onCxl_zero] at this
    cases this

end

/-! ### What a request does -/

/-- The area is as it was, and whether there is one. -/
def SameArea (s s' : Process J) : Prop :=
  s'.created = s.created ∧ s'.mmapStartPoint = s.mmapStartPoint ∧ s'.mmapEndPoint = s.mmapEndPoint

omit [DecidableEq J] in
theorem SameArea.zone {s s' : Process J} (h : SameArea s s') : zone s' = zone s := by
  obtain ⟨-, h₁, h₂⟩ := h
  funext o r
  cases o <;> simp only [Sys.zone, Process.area, h₁, h₂]

theorem gives_alloc {s : Sys J} {n : ℕ} {a : Answers} (h : s.AnswersOk n a) (want : Want) (j : J) :
    let r := s.process.allocWithCxl want j a
    Gives (fun o p => Room (zone s.process) s.size s.live o ⟨p, n⟩) r.1 r.2.1 ∧ SameArea s.process r.2.2 := by
  unfold Process.allocWithCxl
  -- before `cxl_init` and after it
  cases hc : s.process.created
  · simp only [Bool.false_eq_true, if_false, reduceCtorEq]
    cases hl : a.libc with
    | none => exact absurd hl (h.heap hc)
    | some p => exact ⟨gives_ask _ _ (fun q hq => h.libc q (hl.trans hq)), rfl, rfl, rfl⟩
  · simp only [if_true]
    by_cases hdev : (s.process.stride j).1 = .cxlDev
    · rw [if_pos hdev]
      cases hk : a.kind with
      | none => exact ⟨(gives_ask Owner.libcHeap want h.libc).after (gives_ask _ _ fun _ h => nomatch h), rfl, rfl, rfl⟩
      | some p => exact ⟨gives_ask _ _ (fun q hq => h.kind q (hk.trans hq)), rfl, rfl, rfl⟩
    · rw [if_neg hdev]
      cases hl : a.libc with
      | none => exact ⟨(gives_ask Owner.cxlKind want h.kind).after (gives_ask _ _ fun _ h => nomatch h), rfl, rfl, rfl⟩
      | some p => exact ⟨gives_ask _ _ (fun q hq => h.libc q (hl.trans hq)), rfl, rfl, rfl⟩

theorem gives_mmap {s : Sys J} {n : ℕ} {kind : Option ℕ}
    (h : ∀ p, kind = some p → Room (zone s.process) s.size s.live .cxlKind ⟨p, n⟩) (length : ℕ) (j : J) :
    let r := s.process.mmapWithCxl length j kind
    Gives (fun o p => Room (zone s.process) s.size s.live o ⟨p, n⟩) r.1 r.2.1 ∧ SameArea s.process r.2.2 := by
  unfold Process.mmapWithCxl
  by_cases hc : (s.process.stride j).2.created = true ∧ (s.process.stride j).1 = .cxlDev
  · simp only [hc, and_self, if_true]
    exact ⟨gives_ask _ _ h, rfl, rfl, rfl⟩
  · simp only [hc, if_false]
    exact ⟨gives_nil, rfl, rfl, rfl⟩

/-! ### Ownership is kept -/

omit [DecidableEq J] in
theorem Owned.start : Owned (start : Sys J) where
  laid := ⟨fun _ _ hp => absurd hp (Finset.notMem_empty _), fun _ _ hp => absurd hp (Finset.notMem_empty _)⟩
  holds _ := ⟨fun h => absurd h (Finset.notMem_empty _), fun ⟨_, h⟩ => absurd h (Finset.notMem_empty _)⟩
  before _ := rfl
  after h := nomatch h

section
variable {s : Sys J} (h : Owned s)
include h

omit [DecidableEq J] in
/-- A block is given. -/
theorem Owned.give {n : ℕ} {r : Option ℕ × List (Ask Owner Want) × Process J}
    (hr : Gives (fun o p => Room (zone s.process) s.size s.live o ⟨p, n⟩) r.1 r.2.1)
    (harea : SameArea s.process r.2.2) :
    Owned ⟨r.2.2, r.2.1.foldl (fun live a => a.apply live) s.live, r.1.elim s.size (Function.update s.size · n),
      r.1.elim s.held (insert · s.held)⟩ where
  laid := by
    rw [harea.zone]
    exact hr.laid (zones s.process) h.laid
  holds := hr.holds h.holds
  before := by
    rw [harea.1, harea.2.2]
    exact h.before
  after := by
    rw [harea.1, harea.2.1]
    exact h.after

omit [DecidableEq J] in
/-- The allocator that the address tells takes a block back. -/
theorem Owned.take {ptr : ℕ} {o : Owner} (hptr : ptr ∈ s.held → ptr ∈ s.live o) :
    Owned ⟨s.process, Function.update s.live o ((s.live o).erase ptr), s.size, s.held.erase ptr⟩ where
  laid := h.laid.take o ptr
  holds := h.holds.take fun i hi => (h.only (hptr ((h.holds ptr).mpr ⟨i, hi⟩)) i hi)
  before := h.before
  after := h.after

omit [DecidableEq J] in
/-- It moves one. -/
theorem Owned.move {ptr p n : ℕ} {o : Owner} (hptr : ptr ∈ s.held → ptr ∈ s.live o)
    (hzone : zone s.process o ⟨p, n⟩) (hp : ∀ q ∈ s.live o, q ≠ ptr → Region.Apart ⟨p, n⟩ (s.block q)) :
    Owned ⟨s.process, Function.update s.live o (insert p ((s.live o).erase ptr)), Function.update s.size p n,
      insert p (s.held.erase ptr)⟩ where
  laid := h.laid.move (zones s.process) hzone hp
  holds := h.holds.move (fun i hi => (h.only (hptr ((h.holds ptr).mpr ⟨i, hi⟩)) i hi)) p
  before := h.before
  after := h.after

omit [DecidableEq J] in
/-- `cxl_init` maps the area where no block is. -/
theorem Owned.cxlInit {wantedSize mapped : ℕ} {percentage : ℤ}
    (hc : s.Valid (.cxlInit wantedSize percentage mapped)) :
    Owned ⟨s.process.cxlInit wantedSize percentage mapped, s.live, s.size, s.held⟩ := by
  cases hcreated : s.process.created
  · obtain ⟨hmapped, hheap⟩ := hc hcreated
    have hinit : s.process.cxlInit wantedSize percentage mapped =
        { s.process.toScheduler.cxlInit percentage with
          mmapStartPoint := mapped, mmapEndPoint := mapped + Process.areaSize wantedSize,
          cxlCurrentSize := Process.areaSize wantedSize, cxlOffset := Process.areaSize wantedSize } := by
      rw [Process.cxlInit, hcreated, if_neg (by decide)]
    have hyes : (s.process.toScheduler.cxlInit percentage).created = true := by
      rw [Scheduler.cxlInit, hcreated, if_neg (by decide)]
    rw [hinit]
    refine ⟨⟨fun o p hp => ?_, h.laid.own⟩, h.holds, fun hno => absurd (hyes.symm.trans hno) (by decide),
      fun _ => hmapped⟩
    have hzone := h.laid.zone o p hp
    cases o with
    | libcHeap =>
      refine ⟨hzone.1, ?_, hzone.2.2⟩
      have hsize : mapped + Process.areaSize wantedSize - mapped = Process.areaSize wantedSize :=
        Nat.add_sub_cancel_left ..
      have hapart := hheap p hp
      rwa [block, ← hsize] at hapart
    | libcMmap => exact hzone
    | cxlKind =>
      -- there was no area for it
      have : s.process.onCxl p = true := (has_area s.process p).mp (hzone.2.has hzone.1)
      simp [Process.onCxl, h.before hcreated] at this
  · rw [Process.cxlInit, if_pos hcreated]
    exact h

omit [DecidableEq J] in
/-- A block that is unmapped is taken back by its owner, if that is not the heap. -/
theorem Owned.munmap {ptr : ℕ} (hc : ptr = 0 ∨ ptr ∈ s.held ∧ ptr ∉ s.live .libcHeap) :
    ∃ o, s.process.munmapWithCxl ptr = [.take o ptr] ∧ (ptr ∈ s.held → ptr ∈ s.live o) := by
  unfold Process.munmapWithCxl
  by_cases hptr : s.process.onCxl ptr = true
  · refine ⟨.cxlKind, if_pos hptr, fun hp => ?_⟩
    have hmem := h.mem hp
    rwa [ownerOf, if_pos hptr] at hmem
  · refine ⟨.libcMmap, if_neg hptr, fun hp => ?_⟩
    have hmem := h.mem hp
    rw [ownerOf, if_neg hptr] at hmem
    rcases hc with rfl | ⟨-, hheap⟩
    · exact absurd hmem (h.zero _)
    · exact absurd hmem hheap

/-- **Ownership is kept** by every request. -/
theorem Owned.serve {c : Request J} (hc : s.Valid c) : Owned (s.serve c) := by
  cases c with
  | cxlInit wantedSize percentage mapped => exact h.cxlInit hc
  | malloc j size a =>
    obtain ⟨hg, ha⟩ := gives_alloc hc (.malloc size) j
    exact h.give hg ha
  | calloc j num size a =>
    obtain ⟨hg, ha⟩ := gives_alloc hc (.calloc num size) j
    exact h.give hg ha
  | posixMemalign j alignment size a =>
    obtain ⟨hg, ha⟩ := gives_alloc hc (.memalign alignment size) j
    exact h.give hg ha
  | mmap j length kind =>
    obtain ⟨hg, ha⟩ := gives_mmap hc length j
    exact h.give hg ha
  | realloc ptr newSize result =>
    obtain ⟨-, -, hmoved⟩ := hc
    cases result <;> rw [Sys.serve, Sys.asks, Request.exec, reallocWithCxl_eq]
    case moved p =>
      obtain ⟨hzone, hp⟩ := hmoved p rfl
      exact h.move h.mem hzone hp
    case failed => exact h
    case freed => exact h.take h.mem
  | free ptr =>
    rw [Sys.serve, Sys.asks, Request.exec, freeWithCxl_eq]
    exact h.take h.mem
  | munmap ptr size =>
    obtain ⟨o, ho, hptr⟩ := h.munmap hc
    rw [Sys.serve, Sys.asks, Request.exec, ho]
    exact h.take fun hp => (hptr hp)

end

theorem Owned.of_reachable {s : Sys J} (h : Reachable s) : Owned s := by
  induction h with
  | start => exact .start
  | serve c _ hc ih => exact ih.serve hc

end Sys

/-! ### Blocks go back to where they came from -/

/-- The block a request frees, resizes or unmaps. -/
def Request.ptr {J : Type} : Request J → Option ℕ
  | realloc ptr _ _ => some ptr
  | free ptr => some ptr
  | munmap ptr _ => some ptr
  | _ => none

namespace Sys

variable {J : Type} [DecidableEq J]

/-- A request about a block asks one allocator about it, which for a block in use is its
owner. -/
theorem Owned.asks_ptr {s : Sys J} (h : Owned s) {c : Request J} (hc : s.Valid c) {ptr : ℕ}
    (hptr : c.ptr = some ptr) :
    ∃ o a, s.asks c = [a] ∧ a.returns = some (o, ptr) ∧ (ptr ∈ s.held → ptr ∈ s.live o) := by
  cases c with
  | realloc ptr' newSize result =>
    cases hptr
    exact ⟨ownerOf s.process ptr, _, reallocWithCxl_eq .., rfl, h.mem⟩
  | free ptr' =>
    cases hptr
    exact ⟨ownerOf s.process ptr, _, freeWithCxl_eq .., rfl, h.mem⟩
  | munmap ptr' size =>
    cases hptr
    obtain ⟨o, ho, hmem⟩ := h.munmap hc
    exact ⟨o, _, ho, rfl, hmem⟩
  | _ => cases hptr

/-- **Blocks and owners**: in every run, no two blocks in use overlap, and every one has exactly
one owner; a request about a block in use asks its owner, and no one else; and resizing that
fails leaves everything as it was. -/
theorem blocks_owned {s : Sys J} (h : Reachable s) :
    (∀ p ∈ s.held, ∀ q ∈ s.held, p ≠ q → (s.block p).Apart (s.block q)) ∧
    (∀ p, p ∈ s.held ↔ ∃ o, p ∈ s.live o) ∧ (∀ p ∈ s.held, ∃! o, p ∈ s.live o) ∧
    (∀ c, s.Valid c → ∀ ptr ∈ s.held, c.ptr = some ptr →
      ∃ o a, ptr ∈ s.live o ∧ s.asks c = [a] ∧ a.returns = some (o, ptr)) ∧
    (∀ c, s.Valid c → c.ptr = none → ∀ a ∈ s.asks c, a.returns = none) ∧
    ∀ ptr newSize, s.serve (.realloc ptr newSize .failed) = s := by
  have hs := Owned.of_reachable h
  refine ⟨hs.laid.apart (zones s.process) hs.holds, hs.holds, fun p hp => ?_,
    fun c hc ptr hptr hcptr => ?_, fun c hc hcptr a ha => ?_, fun ptr newSize => ?_⟩
  · obtain ⟨o, ho⟩ := (hs.holds p).mp hp
    exact ⟨o, ho, hs.only ho⟩
  · obtain ⟨o, a, ha, hret, hmem⟩ := hs.asks_ptr hc hcptr
    exact ⟨o, a, hmem hptr, ha, hret⟩
  · cases c with
    | cxlInit => exact absurd ha List.not_mem_nil
    | malloc j size b => exact (gives_alloc hc (.malloc size) j).1.1 a ha
    | calloc j num size b => exact (gives_alloc hc (.calloc num size) j).1.1 a ha
    | posixMemalign j alignment size b => exact (gives_alloc hc (.memalign alignment size) j).1.1 a ha
    | mmap j length kind => exact (gives_mmap hc length j).1.1 a ha
    | _ => cases hcptr
  · rw [Sys.serve, Sys.asks, Request.exec, reallocWithCxl_eq]
    rfl

/-- Before `cxl_init`, a thread has allocated a block at `4096`. -/
def oneBlock : Sys Unit := start.serve (.malloc () 8 ⟨none, some 4096⟩)

theorem reachable_oneBlock : Reachable oneBlock :=
  .serve _ .start ⟨fun _ h => (nomatch h), fun p h => by cases h; decide, fun _ => by decide⟩

/-- Then all memory is put on the CXL device; there the thread allocates two blocks, of which it
frees the first, and the block of the heap is moved. -/
def threeBlocks : Sys Unit :=
  ((((oneBlock.serve (.cxlInit 0 100 1048576)).serve (.malloc () 64 ⟨some 1048576, none⟩)).serve
    (.calloc () 4 16 ⟨some 1048640, none⟩)).serve (.free 1048576)).serve (.realloc 4096 100 (.moved 8192))

theorem reachable_threeBlocks : Reachable threeBlocks := by
  refine .serve _ (.serve _ (.serve _ (.serve _ (.serve _ reachable_oneBlock ?_) ?_) ?_) ?_) ?_
  · exact fun _ => by decide
  · exact ⟨fun p h => by cases h; decide, fun _ h => (nomatch h), fun h => absurd h (by decide)⟩
  · exact ⟨fun p h => by cases h; decide, fun _ h => (nomatch h), fun h => absurd h (by decide)⟩
  · exact .inr (by decide)
  · exact ⟨.inr (by decide), fun h => (nomatch h), fun p h => by cases h; decide⟩

theorem blocks_owned_three :
    (Region.mk 8192 100).Apart ⟨1048640, 64⟩ ∧ (∃! o, 1048640 ∈ threeBlocks.live o) ∧
    ∃ o a, 1048640 ∈ threeBlocks.live o ∧ threeBlocks.asks (.free 1048640) = [a] ∧ a.returns = some (o, 1048640) := by
  obtain ⟨hapart, -, hone, hasks, -⟩ := blocks_owned reachable_threeBlocks
  have hp : 8192 ∈ threeBlocks.held := by decide
  have hq : 1048640 ∈ threeBlocks.held := by decide
  exact ⟨hapart 8192 hp 1048640 hq (by decide), hone 1048640 hq, hasks (.free 1048640) (.inr hq) 1048640 hq rfl⟩

/-- **A heap block that is unmapped** is taken for one of `mmap`'s, whether it is in use or
not. -/
theorem heap_unmapped : Reachable oneBlock ∧ 4096 ∈ oneBlock.held ∧ 4096 ∈ oneBlock.live .libcHeap ∧
    4096 ∉ oneBlock.live .libcMmap ∧ oneBlock.asks (.munmap 4096 8) = [.take .libcMmap 4096] :=
  ⟨reachable_oneBlock, by decide, by decide, by decide, by decide⟩

end Sys

end SidleBaselines.Unimalloc
