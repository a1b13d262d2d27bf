import SidleBaselines.Unimalloc.Blocks

/-!
# When an allocator has nothing left

`malloc_with_cxl`, `calloc_with_cxl` and `posix_memalign_with_cxl` ask a second
allocator when the first has no memory. Whether to ask the CXL kind then depends on the
device that was tried, not on there being a kind: before `cxl_init` no device was
tried, and the kind that is asked is `NULL`. `mmap_with_cxl` looks at the kind first.

## What is proved

* `exec_tried` — a request for memory that fails has asked every allocator there is;
* `kind_exists_iff` — in a run, no request asks a kind that does not exist if and only
  if libc has memory for each request before the first `cxl_init`.
-/

namespace SidleBaselines.Unimalloc

open SidleBaselines.Memory

variable {J : Type}

/-! ### Requests -/

/-- The request is a call of `cxl_init`. -/
def Request.isInit : Request J → Bool
  | cxlInit .. => true
  | _ => false

/-- What is asked for by the three functions that allocate, and the answers. -/
def Request.want : Request J → Option (Want × Answers)
  | malloc _ size a => some (.malloc size, a)
  | calloc _ num size a => some (.calloc num size, a)
  | posixMemalign _ alignment size a => some (.memalign alignment size, a)
  | _ => none

/-- One of the three is called when libc has no memory for it. -/
def Request.OutOfHeap (c : Request J) : Prop := ∃ w a, c.want = some (w, a) ∧ a.libc = none

section exec

variable [DecidableEq J] {s : Process J}

/-- No memkind function is called while `cxl_kind` is `NULL`. -/
def KindExists (s : Process J) (c : Request J) : Prop :=
  s.created = false → ∀ q ∈ (c.exec s).2.1, q.owner ≠ .cxlKind

/-- A request for memory that fails has asked libc and, if there is one, the kind. -/
def Tried (s : Process J) (c : Request J) : Prop :=
  ∀ w a, c.want = some (w, a) → (c.exec s).1 = none →
    .give .libcHeap w none ∈ (c.exec s).2.1 ∧ (s.created = true → .give .cxlKind w none ∈ (c.exec s).2.1)

/-- Two allocators in turn: the second is asked when the first has nothing. -/
def inTurn (o o' : Owner) (x y : Option ℕ) (w : Want) (s : Process J) : Option ℕ × List (Ask Owner Want) × Process J :=
  match x with
  | some p => (some p, [.give o w (some p)], s)
  | none => (y, [.give o w none, .give o' w y], s)

omit [DecidableEq J] in
theorem inTurn_process (o o' : Owner) (x y : Option ℕ) (w : Want) (s : Process J) :
    (inTurn o o' x y w s).2.2 = s := by
  cases x <;> rfl

omit [DecidableEq J] in
theorem inTurn_none {o o' : Owner} {x y : Option ℕ} {w : Want} (h : (inTurn o o' x y w s).1 = none) :
    .give o w none ∈ (inTurn o o' x y w s).2.1 ∧ .give o' w none ∈ (inTurn o o' x y w s).2.1 := by
  cases x with
  | some p => cases h
  | none =>
    have hy : y = none := h
    subst hy
    simp [inTurn]

/-- Before `cxl_init`, and when the scheduler says so, libc is asked first. Only when there is a
kind is it asked first. -/
theorem alloc_inTurn (w : Want) (j : J) (a : Answers) (s : Process J) :
    ∃ s', s'.created = s.created ∧ s'.mmapEndPoint = s.mmapEndPoint ∧
      (s.allocWithCxl w j a = inTurn .libcHeap .cxlKind a.libc a.kind w s' ∨
        s.created = true ∧ s.allocWithCxl w j a = inTurn .cxlKind .libcHeap a.kind a.libc w s') := by
  unfold Process.allocWithCxl
  cases hc : s.created
  · refine ⟨s, hc, rfl, Or.inl ?_⟩
    simp only [Bool.false_eq_true, if_false, reduceCtorEq]
    rfl
  · refine ⟨(s.stride j).2, hc, rfl, ?_⟩
    simp only [if_true]
    by_cases hdev : (s.stride j).1 = .cxlDev
    · rw [if_pos hdev]
      exact Or.inr ⟨trivial, rfl⟩
    · rw [if_neg hdev]
      exact Or.inl rfl

theorem alloc_frame (w : Want) (j : J) (a : Answers) (s : Process J) :
    (s.allocWithCxl w j a).2.2.created = s.created ∧ (s.allocWithCxl w j a).2.2.mmapEndPoint = s.mmapEndPoint := by
  obtain ⟨s', hcreated, harea, h | ⟨-, h⟩⟩ := alloc_inTurn w j a s
  · rw [h, inTurn_process]
    exact ⟨hcreated, harea⟩
  · rw [h, inTurn_process]
    exact ⟨hcreated, harea⟩

theorem Request.exec_want {c : Request J} {w : Want} {a : Answers} (hc : c.want = some (w, a)) :
    ∃ j, c.exec s = s.allocWithCxl w j a := by
  cases c <;> first | cases hc; exact ⟨_, rfl⟩ | cases hc

/-- There is a kind after a request if there was one before it or it is `cxl_init`. -/
theorem exec_created (s : Process J) (c : Request J) : (c.exec s).2.2.created = (s.created || c.isInit) := by
  cases c with
  | cxlInit wantedSize percentage mapped =>
    simp only [Request.exec, Request.isInit, Process.cxlInit, Scheduler.cxlInit, Bool.or_true]
    cases hc : s.created <;> simp [hc]
  | malloc j size a => exact (alloc_frame _ j a s).1.trans (Bool.or_false _).symm
  | calloc j num size a => exact (alloc_frame _ j a s).1.trans (Bool.or_false _).symm
  | posixMemalign j alignment size a => exact (alloc_frame _ j a s).1.trans (Bool.or_false _).symm
  | mmap j length kind =>
    simp only [Request.exec, Request.isInit, Process.mmapWithCxl, Bool.or_false]
    split_ifs <;> rfl
  | realloc ptr newSize result => simp [Request.exec, Request.isInit]
  | free ptr => simp [Request.exec, Request.isInit]
  | munmap ptr size => simp [Request.exec, Request.isInit]

/-- Whatever the state, a request that fails has asked every allocator there is. -/
theorem exec_tried (s : Process J) (c : Request J) : Tried s c := by
  intro w a hw hnone
  obtain ⟨j, hexec⟩ := Request.exec_want (s := s) hw
  rw [hexec] at hnone ⊢
  obtain ⟨s', -, -, h | ⟨-, h⟩⟩ := alloc_inTurn w j a s
  · rw [h] at hnone ⊢
    exact ⟨(inTurn_none hnone).1, fun _ => (inTurn_none hnone).2⟩
  · rw [h] at hnone ⊢
    exact ⟨(inTurn_none hnone).2, fun _ => (inTurn_none hnone).1⟩

/-- Before `cxl_init` there is no area, and only a request that libc has no memory for asks
the kind. -/
theorem kindExists_iff_of_not_created {c : Request J} (hcreated : s.created = false) (harea : s.mmapEndPoint = 0) :
    KindExists s c ↔ ¬ c.OutOfHeap := by
  have hon : ∀ p, s.onCxl p = false := fun p => by simp [Process.onCxl, harea]
  have halloc : ∀ (w : Want) (j : J) (a : Answers),
      (∀ q ∈ (s.allocWithCxl w j a).2.1, q.owner ≠ .cxlKind) ↔ a.libc ≠ none := by
    intro w j a
    obtain ⟨s', -, -, h | ⟨hyes, -⟩⟩ := alloc_inTurn w j a s
    · rw [h]
      cases a.libc <;> simp [inTurn, Ask.owner]
    · exact absurd (hcreated.symm.trans hyes) (by simp)
  unfold KindExists
  simp only [hcreated, forall_const]
  cases c with
  | cxlInit wantedSize percentage mapped => simp [Request.exec, Request.OutOfHeap, Request.want]
  | malloc j size a => exact (halloc _ j a).trans (by simp [Request.OutOfHeap, Request.want])
  | calloc j num size a => exact (halloc _ j a).trans (by simp [Request.OutOfHeap, Request.want])
  | posixMemalign j alignment size a => exact (halloc _ j a).trans (by simp [Request.OutOfHeap, Request.want])
  | mmap j length kind =>
    simp [Request.exec, Request.OutOfHeap, Request.want, Process.mmapWithCxl, Process.stride,
      Scheduler.schedule, hcreated]
  | realloc ptr newSize result =>
    simp [Request.exec, Request.OutOfHeap, Request.want, Process.reallocWithCxl, hon, Ask.owner]
  | free ptr => simp [Request.exec, Request.OutOfHeap, Request.want, Process.freeWithCxl, hon, Ask.owner]
  | munmap ptr size => simp [Request.exec, Request.OutOfHeap, Request.want, Process.munmapWithCxl, hon, Ask.owner]

/-- No request but `cxl_init` makes an area. -/
theorem exec_area {c : Request J} (hinit : c.isInit = false) : (c.exec s).2.2.mmapEndPoint = s.mmapEndPoint := by
  cases c with
  | cxlInit wantedSize percentage mapped => cases hinit
  | malloc j size a => exact (alloc_frame _ j a s).2
  | calloc j num size a => exact (alloc_frame _ j a s).2
  | posixMemalign j alignment size a => exact (alloc_frame _ j a s).2
  | mmap j length kind =>
    simp only [Request.exec, Process.mmapWithCxl]
    split_ifs <;> rfl
  | realloc ptr newSize result => rfl
  | free ptr => rfl
  | munmap ptr size => rfl

end exec

/-! ### Runs -/

variable [DecidableEq J]

/-- The requests of a run, each with the process that serves it. -/
def served (s : Process J) : List (Request J) → List (Process J × Request J)
  | [] => []
  | c :: cs => (s, c) :: served (c.exec s).2.2 cs

theorem kindExists_of_created {s : Process J} (hcreated : s.created = true) (cs : List (Request J)) :
    ∀ r ∈ served s cs, KindExists r.1 r.2 := by
  induction cs generalizing s with
  | nil => simp [served]
  | cons c cs ih =>
    intro r hr
    rcases List.mem_cons.mp hr with rfl | hr
    · intro hno
      exact absurd (hcreated.symm.trans hno) (by simp)
    · refine ih ?_ r hr
      rw [exec_created, hcreated, Bool.true_or]

theorem kindExists_before {s : Process J} (hcreated : s.created = false) (harea : s.mmapEndPoint = 0)
    (cs : List (Request J)) :
    (∀ r ∈ served s cs, KindExists r.1 r.2) ↔ ∀ c ∈ cs.takeWhile (!·.isInit), ¬ c.OutOfHeap := by
  induction cs generalizing s with
  | nil => simp [served]
  | cons c cs ih =>
    rw [served, List.forall_mem_cons, kindExists_iff_of_not_created hcreated harea]
    cases hinit : c.isInit
    · have hcreated' : (c.exec s).2.2.created = false := by rw [exec_created, hcreated, hinit, Bool.or_false]
      rw [List.takeWhile_cons_of_pos (by simp [hinit]), List.forall_mem_cons,
        ih hcreated' ((exec_area hinit).trans harea)]
    · -- from here on there is a kind
      have hcreated' : (c.exec s).2.2.created = true := by rw [exec_created, hinit, Bool.or_true]
      have hheap : ¬ c.OutOfHeap := by
        rintro ⟨w, a, hw, -⟩
        cases c with
        | cxlInit => cases hw
        | _ => cases hinit
      rw [List.takeWhile_cons_of_neg (by simp [hinit])]
      exact ⟨fun _ c hc => absurd hc List.not_mem_nil, fun _ => ⟨hheap, kindExists_of_created hcreated' cs⟩⟩

/-- In a run from the start of a process, no memkind function is called with a kind that is
`NULL`, and every request that fails has asked every allocator there is, if and only if libc
has memory for each of the requests before the first `cxl_init`. -/
theorem kind_exists_iff (cs : List (Request J)) :
    (∀ r ∈ served Process.start cs, KindExists r.1 r.2 ∧ Tried r.1 r.2) ↔
      ∀ c ∈ cs.takeWhile (!·.isInit), ¬ c.OutOfHeap := by
  rw [← kindExists_before (s := Process.start) rfl rfl]
  constructor
  · intro h r hr
    exact (h r hr).1
  · intro h r hr
    exact ⟨h r hr, exec_tried r.1 r.2⟩

/-- Before `cxl_init` a thread asks for memory that libc does not have. -/
theorem kind_missing :
    ¬ ∀ cs : List (Request Unit), ∀ r ∈ served Process.start cs, KindExists r.1 r.2 ∧ Tried r.1 r.2 := by
  intro h
  have hkind := (h [.malloc () 8 ⟨none, none⟩] (.start, .malloc () 8 ⟨none, none⟩) (by simp [served])).1
  exact hkind rfl (.give .cxlKind (.malloc 8) none) (by decide) rfl

end SidleBaselines.Unimalloc
