import SidleBaselines.Concurrency.Region

/-!
# Threads in phases

Where the threads of a machine are not apart, each one is still somewhere in its program. An
`Abstract` of phases says what a program may do in each phase and which phase comes next; a
program begins and ends in the phase `free`.

## What is proved

* `Tracked.start`, `Tracked.run`, `Tracked.finish` — steps keep every thread to its phases.
* `Guarded.induct` — what holds at the start and is kept by every step between configurations
  that satisfy a guard holds of those a guarded run gets to.
* `Guarded.answer` — a thread alone may answer a request if the guard holds while no other is busy.
-/

namespace SidleBaselines.Concurrency

variable {J Q N Op S Φ : Type} {Res : Op → Type} [DecidableEq J]

/-! ### Phases -/

/-- Every thread is in its phase: an idle one in `free`, a busy one where the rest of its
program begins. -/
structure Tracked (A : Q → Abstract Op Res Φ) (free : Φ) (c : Config J Q Op Res S) (φ : J → Φ) : Prop where
  /-- Idle threads. -/
  idle : ∀ j, c.thread j = none → φ j = free
  /-- Busy threads. -/
  busy : ∀ j q p, c.thread j = some (q, p) → Meets (A q) (fun _ ψ => ψ = free) p (φ j)

section
variable {A : Q → Abstract Op Res Φ} {free : Φ} {c : Config J Q Op Res S} {φ : J → Φ} {j : J} {q : Q}

omit [DecidableEq J] in
theorem Tracked.init (s : S) : Tracked A free (Config.init s : Config J Q Op Res S) fun _ => free :=
  ⟨fun _ _ => rfl, fun _ _ _ h => nomatch h⟩

/-- A thread begins. -/
theorem Tracked.start (h : Tracked A free c φ) (idle : c.thread j = none) {p : Prog Op Res Unit}
    (hp : Meets (A q) (fun _ ψ => ψ = free) p free) : Tracked A free (c.set c.state j (some (q, p))) φ where
  idle i hi := by
    by_cases hij : i = j
    · exact hij ▸ h.idle j idle
    · exact h.idle i ((Config.set_thread_ne _ _ hij _).symm.trans hi)
  busy i q' p' hi := by
    by_cases hij : i = j
    · subst hij
      rw [Config.set_thread_self, Option.some.injEq, Prod.mk.injEq] at hi
      obtain ⟨rfl, rfl⟩ := hi
      rwa [h.idle i idle]
    · exact h.busy i q' p' ((Config.set_thread_ne _ _ hij _).symm.trans hi)

/-- A thread has an operation answered. -/
theorem Tracked.run (h : Tracked A free c φ) {o : Op} {k : Res o → Prog Op Res Unit}
    (next : c.thread j = some (q, .op o k)) {r : Res o} (hr : (A q).gives (φ j) o r) (s : S) :
    Tracked A free (c.set s j (some (q, k r))) (Function.update φ j ((A q).next (φ j) o r)) where
  idle i hi := by
    by_cases hij : i = j
    · rw [hij, Config.set_thread_self] at hi
      cases hi
    · rw [Function.update_of_ne hij]
      exact h.idle i ((Config.set_thread_ne _ _ hij _).symm.trans hi)
  busy i q' p hi := by
    by_cases hij : i = j
    · subst hij
      rw [Config.set_thread_self, Option.some.injEq, Prod.mk.injEq] at hi
      obtain ⟨rfl, rfl⟩ := hi
      rw [Function.update_self]
      exact (h.busy i q _ next).2 r hr
    · rw [Function.update_of_ne hij]
      exact h.busy i q' p ((Config.set_thread_ne _ _ hij _).symm.trans hi)

/-- A thread is done. -/
theorem Tracked.finish (h : Tracked A free c φ) (ended : c.thread j = some (q, .ret ())) :
    Tracked A free (c.set c.state j none) φ where
  idle i hi := by
    by_cases hij : i = j
    · exact hij ▸ h.busy j q _ ended
    · exact h.idle i ((Config.set_thread_ne _ _ hij _).symm.trans hi)
  busy i q' p hi := by
    by_cases hij : i = j
    · rw [hij, Config.set_thread_self] at hi
      cases hi
    · exact h.busy i q' p ((Config.set_thread_ne _ _ hij _).symm.trans hi)

omit [DecidableEq J] in
/-- What a thread does next its phase allows. -/
theorem Tracked.pre (h : Tracked A free c φ) {o : Op} {k : Res o → Prog Op Res Unit}
    (next : c.thread j = some (q, .op o k)) : (A q).pre (φ j) o := (h.busy j q _ next).1

omit [DecidableEq J] in
/-- A thread not in `free` has an operation to issue that its phase allows. -/
theorem Tracked.next_op (h : Tracked A free c φ) (hφ : φ j ≠ free) :
    ∃ q o k, c.thread j = some (q, .op o k) ∧ (A q).pre (φ j) o := by
  cases hc : c.thread j with
  | none => exact absurd (h.idle j hc) hφ
  | some x =>
    obtain ⟨q, p⟩ := x
    have hp := h.busy j q p hc
    cases p with
    | ret a => exact absurd hp hφ
    | op o k => exact ⟨q, o, k, rfl, hp.1⟩

end

/-! ### Machines that take fewer requests -/

/-- The machine, its threads taking requests that satisfy `P` only. -/
def Machine.only (M : Machine J Q N Op Res S) (P : Q → Prop) : Machine J Q N Op Res S :=
  { M with may := fun j q => M.may j q ∧ P q }

/-- It is the same machine if the others never take any. -/
theorem Reachable.only {M : Machine J Q N Op Res S} {P : Q → Prop} {s₀ : S} {c : Config J Q Op Res S}
    (hP : ∀ j q, M.may j q → P q) (h : Reachable M s₀ c) : Reachable (M.only P) s₀ c := by
  refine h.induct .init fun c c' _ ih hs => ih.step ?_
  cases hs with
  | start idle may => exact Step.start (M := M.only P) idle ⟨may, hP _ _ may⟩
  | run n next => exact Step.run (M := M.only P) n next
  | finish ended => exact Step.finish ended

/-! ### Guarded runs -/

/-- The configurations that runs get to in which the guard holds all along. -/
def Guarded (M : Machine J Q N Op Res S) (G : Config J Q Op Res S → Prop) (s₀ : S)
    (c : Config J Q Op Res S) : Prop :=
  Relation.ReflTransGen (fun c c' => Step M c c' ∧ G c') (Config.init s₀) c

theorem Guarded.reachable {M : Machine J Q N Op Res S} {G : Config J Q Op Res S → Prop} {s₀ : S}
    {c : Config J Q Op Res S} (h : Guarded M G s₀ c) : Reachable M s₀ c :=
  Relation.ReflTransGen.mono (fun _ _ hs => hs.1) _ _ h

/-- **Guarded invariants**: what holds at the start and is kept by every step between
configurations that satisfy the guard. -/
theorem Guarded.induct {M : Machine J Q N Op Res S} {G P : Config J Q Op Res S → Prop} {s₀ : S}
    {c : Config J Q Op Res S} (init : P (Config.init s₀)) (hG : G (Config.init s₀))
    (step : ∀ c c', G c → P c → Step M c c' → G c' → P c') (h : Guarded M G s₀ c) : P c := by
  suffices G c ∧ P c from this.2
  induction h with
  | refl => exact ⟨hG, init⟩
  | tail _ hs ih => exact ⟨hs.2, step _ _ ih.1 ih.2 hs.1 hs.2⟩

section
variable {M : Machine J Q N Op Res S} {G : Config J Q Op Res S → Prop} {s₀ : S} {c : Config J Q Op Res S}
  {j : J} {q : Q}

/-- A thread left alone runs its program to the end, if the guard holds while no other is busy. -/
theorem Guarded.run (hG : ∀ c : Config J Q Op Res S, (∀ i, i ≠ j → c.thread i = none) → G c) (n : N)
    {p : Prog Op Res Unit} (h : Guarded M G s₀ c) (others : ∀ i, i ≠ j → c.thread i = none)
    (hp : c.thread j = some (q, p)) :
    Guarded M G s₀ (c.set (p.run (M.exec j q n) c.state).2 j none) := by
  have still (s : S) (t : Option (Q × Prog Op Res Unit)) (i : J) (hi : i ≠ j) :
      (c.set s j t).thread i = none := (Config.set_thread_ne _ _ hi _).trans (others i hi)
  induction p generalizing c with
  | ret a => exact h.tail ⟨.finish hp, hG _ (still _ _)⟩
  | op o k ih =>
    have := ih (M.exec j q n o c.state).1 (h.tail ⟨.run n hp, hG _ (still _ _)⟩) (still _ _) (by simp)
      fun _ _ i hi => (Config.set_thread_ne _ _ hi _).trans (still _ _ i hi)
    simpa [Config.set] using this

/-- A thread may answer a request, left alone by the idle others. -/
theorem Guarded.answer (hG : ∀ c : Config J Q Op Res S, (∀ i, i ≠ j → c.thread i = none) → G c) (n : N)
    (h : Guarded M G s₀ c) (idle : ∀ i, c.thread i = none) (may : M.may j q) :
    Guarded M G s₀ (c.answer M j q n) := by
  have others (i : J) (hi : i ≠ j) : (c.set c.state j (some (q, M.body q))).thread i = none :=
    (Config.set_thread_ne _ _ hi _).trans (idle i)
  have := Guarded.run hG n (h.tail ⟨.start (idle j) may, hG _ others⟩) others (Config.set_thread_self ..)
  simpa [Config.answer, Config.set] using this

end

end SidleBaselines.Concurrency
