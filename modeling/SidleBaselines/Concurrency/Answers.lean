import SidleBaselines.Concurrency.Region

/-!
# The last answer

What an operation has given its thread is not in the state of the machine. `Machine.answering`
is the machine with each thread's last operation, and what it gave, next to the state.

## What is proved

* `Reachable.recall` — every run of the machine is one of the machine with answers.
* `Answers.reachable` — what a program may do, as its last answer allows, it does in every run.
-/

namespace SidleBaselines.Concurrency

variable {J Q N Op S : Type} {Res : Op → Type}

/-! ### The machine -/

/-- An operation, and what it gave. -/
abbrev Answer (Op : Type) (Res : Op → Type) := (o : Op) × Res o

variable [DecidableEq J]

/-- The machine with each thread's last answer. -/
def Machine.answering (M : Machine J Q N Op Res S) :
    Machine J Q N Op Res (S × (J → Option (Answer Op Res))) where
  exec j q n o s :=
    let r := M.exec j q n o s.1
    (r.1, r.2, Function.update s.2 j (some ⟨o, r.1⟩))
  body := M.body
  may := M.may

/-- The configurations it gets to, no operation having been answered at the start. -/
abbrev Answering (M : Machine J Q N Op Res S) (s₀ : S)
    (c : Config J Q Op Res (S × (J → Option (Answer Op Res)))) : Prop :=
  Reachable M.answering (s₀, fun _ => none) c

variable {M : Machine J Q N Op Res S} {s₀ : S}

/-- Every run of the machine has its answers. -/
theorem Reachable.recall {c : Config J Q Op Res S} (h : Reachable M s₀ c) :
    ∃ a, Answering M s₀ ⟨(c.state, a), c.thread⟩ := by
  refine h.induct (P := fun c => ∃ a, Answering M s₀ ⟨(c.state, a), c.thread⟩)
    ⟨_, .init⟩ fun c c' _ ih hs => ?_
  obtain ⟨a, ih⟩ := ih
  cases hs with
  | start idle may => exact ⟨_, ih.step (.start idle may)⟩
  | run n next => exact ⟨_, ih.step (.run n next)⟩
  | finish ended => exact ⟨_, ih.step (.finish ended)⟩

/-! ### What programs do -/

/-- The programs of the machine do, and its operations give, what `A` says, the abstract state
being the last answer; and operations that are as `A` says keep the invariant. -/
structure Answers (M : Machine J Q N Op Res S) (I : S → Prop)
    (A : Q → Abstract Op Res (Option (Answer Op Res))) : Prop where
  next : ∀ q a o r, (A q).next a o r = some ⟨o, r⟩
  exec : ∀ j q n o s a, I s → (A q).pre a o → (A q).gives a o (M.exec j q n o s).1 ∧ I (M.exec j q n o s).2
  body : ∀ j q, M.may j q → ∀ a, Meets (A q) (fun _ _ => True) (M.body q) a

/-- **Answers**: every thread of every run does as its last answer allows. -/
theorem Answers.reachable {I : S → Prop} {A : Q → Abstract Op Res (Option (Answer Op Res))}
    (h : Answers M I A)
    (hI : I s₀) {c : Config J Q Op Res (S × (J → Option (Answer Op Res)))} (hr : Answering M s₀ c) :
    I c.state.1 ∧ ∀ j q p, c.thread j = some (q, p) → Meets (A q) (fun _ _ => True) p (c.state.2 j) := by
  refine hr.induct (P := fun c => I c.state.1 ∧ ∀ j q p, c.thread j = some (q, p) →
    Meets (A q) (fun _ _ => True) p (c.state.2 j)) ⟨hI, fun _ _ _ hp => nomatch hp⟩ fun c c' _ ih hs => ?_
  obtain ⟨hIc, ih⟩ := ih
  cases hs with
  | @start j q idle may =>
    refine ⟨hIc, fun i q' p hi => ?_⟩
    by_cases hij : i = j
    · subst hij
      rw [Config.set_thread_self, Option.some.injEq, Prod.mk.injEq] at hi
      obtain ⟨rfl, rfl⟩ := hi
      exact h.body _ _ may _
    · exact ih i q' p ((Config.set_thread_ne _ _ hij _).symm.trans hi)
  | @run j q o k n next =>
    obtain ⟨hpre, hk⟩ := ih j q _ next
    obtain ⟨hgives, hI'⟩ := h.exec j q n o c.state.1 _ hIc hpre
    refine ⟨hI', fun i q' p hi => ?_⟩
    change Meets (A q') (fun _ _ => True) p (Function.update c.state.2 j _ i)
    by_cases hij : i = j
    · subst hij
      rw [Config.set_thread_self, Option.some.injEq, Prod.mk.injEq] at hi
      obtain ⟨rfl, rfl⟩ := hi
      rw [Function.update_self, ← h.next]
      exact hk _ hgives
    · rw [Function.update_of_ne hij]
      exact ih i q' p ((Config.set_thread_ne _ _ hij _).symm.trans hi)
  | @finish j q ended =>
    refine ⟨hIc, fun i q' p hi => ?_⟩
    by_cases hij : i = j
    · rw [hij, Config.set_thread_self] at hi
      cases hi
    · exact ih i q' p ((Config.set_thread_ne _ _ hij _).symm.trans hi)

end SidleBaselines.Concurrency
