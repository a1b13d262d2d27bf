import SidleBaselines.Concurrency.Prog

/-!
# Programs under interference

`Safe` is the weakest precondition of a program whose thread is interrupted
between any two of its operations by others: `E` bounds what the others may do
to the state in between, `P` is what each operation must find before it, `Q`
what the end must establish.

`Meets` is its counterpart over an abstract state that no one else changes, where
an operation may give any result the abstract state allows.

A `Discipline` divides the state into regions, each worked on by at most one
thread at a time: a request belongs to a region, an operation that satisfies `P`
leaves the other regions alone (`frame`, `stable`), and every request, begun in
its region's invariant, is safe and ends in it (`sound`).

## What is proved

* `Meets.safe` — what a program does to the abstract state it does to the state
  it abstracts from, whatever the others do.
* `Discipline.idle` — in every reachable configuration the invariant holds of
  each region no request is in flight on.
* `Discipline.pre` — every operation a thread issues finds `P`.
-/

namespace SidleBaselines.Concurrency

variable {J Q N Op S R : Type} {Res : Op → Type} {α β : Type}

/-! ### Safety of one program -/

section
variable (M : Machine J Q N Op Res S) (j : J) (q : Q) (E : S → S → Prop) (P : Op → S → Prop)

/-- The program, run by thread `j` for request `q` among others that change the
state only as `E` says, issues its operations only where `P` holds, and ends
where `Q` does. -/
def Safe (post : α → S → Prop) : Prog Op Res α → S → Prop
  | .ret a, s => ∀ s', E s s' → post a s'
  | .op o k, s => ∀ s₁, E s s₁ →
      P o s₁ ∧ ∀ n, Safe post (k (M.exec j q n o s₁).1) (M.exec j q n o s₁).2

end

section
variable {M : Machine J Q N Op Res S} {j : J} {q : Q} {E : S → S → Prop} {P P' : Op → S → Prop}
  {post post' : α → S → Prop}

/-- Interference before the program begins is interference before its first
operation. -/
theorem Safe.env (trans : ∀ a b c, E a b → E b c → E a c) {p : Prog Op Res α} {s s' : S}
    (h : Safe M j q E P post p s) (hs : E s s') : Safe M j q E P post p s' := by
  cases p with
  | ret a => exact fun s₁ h₁ => h s₁ (trans _ _ _ hs h₁)
  | op o k => exact fun s₁ h₁ => h s₁ (trans _ _ _ hs h₁)

theorem Safe.mono (hpre : ∀ o s, P o s → P' o s) (hpost : ∀ a s, post a s → post' a s)
    {p : Prog Op Res α} {s : S} (h : Safe M j q E P post p s) : Safe M j q E P' post' p s := by
  induction p generalizing s with
  | ret a => exact fun s₁ h₁ => hpost _ _ (h s₁ h₁)
  | op o k ih => exact fun s₁ h₁ => ⟨hpre _ _ (h s₁ h₁).1, fun n => ih _ ((h s₁ h₁).2 n)⟩

/-- **Sequencing**: `p` must end where `f` is safe to go on. -/
theorem Safe.bind {p : Prog Op Res β} {f : β → Prog Op Res α} {s : S} (refl : ∀ s, E s s)
    (h : Safe M j q E P (fun b s' => Safe M j q E P post (f b) s') p s) :
    Safe M j q E P post (p >>= f) s := by
  induction p generalizing s with
  | ret b => exact h s (refl s)
  | op o k ih => exact fun s₁ h₁ => ⟨(h s₁ h₁).1, fun n => ih _ ((h s₁ h₁).2 n)⟩

theorem Safe.trivial (p : Prog Op Res α) (s : S) :
    Safe M j q E (fun _ _ => True) (fun _ _ => True) p s := by
  induction p generalizing s with
  | ret a => exact fun _ _ => ⟨⟩
  | op o k ih => exact fun _ _ => ⟨⟨⟩, fun n => ih _ _⟩

/-- Less interference. -/
theorem Safe.quiet {E' : S → S → Prop} (hE : ∀ s s', E' s s' → E s s') {p : Prog Op Res α} {s : S}
    (h : Safe M j q E P post p s) : Safe M j q E' P post p s := by
  induction p generalizing s with
  | ret a => exact fun s₁ h₁ => h s₁ (hE _ _ h₁)
  | op o k ih => exact fun s₁ h₁ => ⟨(h s₁ (hE _ _ h₁)).1, fun n => ih _ ((h s₁ (hE _ _ h₁)).2 n)⟩

theorem Safe.and {P₁ P₂ : Op → S → Prop} {post₁ post₂ : α → S → Prop} {p : Prog Op Res α} {s : S}
    (h₁ : Safe M j q E P₁ post₁ p s) (h₂ : Safe M j q E P₂ post₂ p s) :
    Safe M j q E (fun o s => P₁ o s ∧ P₂ o s) (fun a s => post₁ a s ∧ post₂ a s) p s := by
  induction p generalizing s with
  | ret a => exact fun s₁ he => ⟨h₁ s₁ he, h₂ s₁ he⟩
  | op o k ih =>
    exact fun s₁ he => ⟨⟨(h₁ s₁ he).1, (h₂ s₁ he).1⟩, fun n => ih _ ((h₁ s₁ he).2 n) ((h₂ s₁ he).2 n)⟩

end

/-! ### Abstract states -/

/-- Operations over an abstract state `V`. -/
structure Abstract (Op : Type) (Res : Op → Type) (V : Type) where
  /-- What an operation must find. -/
  pre : V → Op → Prop
  /-- The results an operation may give. -/
  gives : V → (o : Op) → Res o → Prop
  /-- The state after an operation that has given a result. -/
  next : V → (o : Op) → Res o → V

section
variable {V : Type} (A : Abstract Op Res V)

/-- The program, begun in `v` and alone, issues its operations only where they find
what they must, and ends where `post` holds. -/
def Meets (post : α → V → Prop) : Prog Op Res α → V → Prop
  | .ret a, v => post a v
  | .op o k, v => A.pre v o ∧ ∀ r, A.gives v o r → Meets post (k r) (A.next v o r)

variable {A}

theorem Meets.mono {post post' : α → V → Prop} (h : ∀ a v, post a v → post' a v) {p : Prog Op Res α}
    {v : V} (hp : Meets A post p v) : Meets A post' p v := by
  induction p generalizing v with
  | ret a => exact h a v hp
  | op o k ih => exact ⟨hp.1, fun r hr => ih r (hp.2 r hr)⟩

/-- **Sequencing**. -/
theorem Meets.bind {post : α → V → Prop} {p : Prog Op Res β} {f : β → Prog Op Res α} {v : V}
    (h : Meets A (fun b v' => Meets A post (f b) v') p v) : Meets A post (p >>= f) v := by
  induction p generalizing v with
  | ret b => exact h
  | op o k ih => exact ⟨h.1, fun r hr => ih r (h.2 r hr)⟩

/-- One operation. -/
theorem Meets.issue {post : α → V → Prop} {o : Op} {f : Res o → Prog Op Res α} {v : V} (hpre : A.pre v o)
    (h : ∀ r, A.gives v o r → Meets A post (f r) (A.next v o r)) :
    Meets A post (Prog.issue o >>= f) v := ⟨hpre, h⟩

/-- **Abstraction**: `rel` relates states to abstract ones, no interference breaks it,
and an operation that finds `P` does to both sides the same. Then a program that is
safe with respect to `P` is so with respect to the abstract preconditions too. -/
theorem Meets.safe {M : Machine J Q N Op Res S} {j : J} {q : Q} {E : S → S → Prop} {P : Op → S → Prop}
    {post₁ : α → S → Prop} {post : α → V → Prop} (rel : S → V → Prop)
    (henv : ∀ s s' v, rel s v → E s s' → rel s' v)
    (hexec : ∀ o n s v, rel s v → P o s → A.pre v o →
      A.gives v o (M.exec j q n o s).1 ∧ rel (M.exec j q n o s).2 (A.next v o (M.exec j q n o s).1))
    {p : Prog Op Res α} {s : S} {v : V} (hs : Safe M j q E P post₁ p s) (hp : Meets A post p v)
    (hr : rel s v) :
    Safe M j q E (fun o s => P o s ∧ ∃ v, rel s v ∧ A.pre v o)
      (fun a s => post₁ a s ∧ ∃ v, rel s v ∧ post a v) p s := by
  induction p generalizing s v with
  | ret a => exact fun s₁ he => ⟨hs s₁ he, v, henv _ _ _ hr he, hp⟩
  | op o k ih =>
    intro s₁ he
    have hr₁ := henv _ _ _ hr he
    obtain ⟨hP, hs₁⟩ := hs s₁ he
    refine ⟨⟨hP, v, hr₁, hp.1⟩, fun n => ?_⟩
    obtain ⟨hg, hr₂⟩ := hexec o n s₁ v hr₁ hP hp.1
    exact ih _ (hs₁ n) (hp.2 _ hg) hr₂

end

/-! ### Regions -/

variable [DecidableEq J]

/-- A machine started in `s₀` whose requests each work on one region. -/
structure Discipline (M : Machine J Q N Op Res S) (s₀ : S) (reg : Q → R) where
  /-- What others may do to a region's part of the state while a thread works on it. -/
  env : J → R → S → S → Prop
  /-- What an operation of a request must find. -/
  pre : J → Q → Op → S → Prop
  /-- What holds of a region no request is in flight on. -/
  inv : R → S → Prop
  /-- Nothing happening is no interference. -/
  refl : ∀ i w s, env i w s s
  /-- Interference followed by interference is interference. -/
  trans : ∀ i w a b c, env i w a b → env i w b c → env i w a c
  /-- Two threads never work on one region. -/
  exclusive : ∀ i j q q', M.may i q → M.may j q' → reg q = reg q' → i = j
  /-- An operation does not break the invariant of another region. -/
  stable : ∀ j q n o s, M.may j q → pre j q o s → ∀ w, w ≠ reg q → inv w s → inv w (M.exec j q n o s).2
  /-- An operation is interference, at most, to the other threads' regions. -/
  frame : ∀ j q n o s, M.may j q → pre j q o s → ∀ i w, i ≠ j → w ≠ reg q →
    env i w s (M.exec j q n o s).2
  /-- The invariant holds at the start. -/
  start : ∀ w, inv w s₀
  /-- A request begun on a free region, in its invariant, is safe and ends in it. -/
  sound : ∀ c j q, Reachable M s₀ c → M.may j q →
    (∀ i q' p, c.thread i = some (q', p) → reg q' ≠ reg q) → inv (reg q) c.state →
    Safe M j q (env j (reg q)) (pre j q) (fun _ => inv (reg q)) (M.body q) c.state

namespace Discipline

variable {M : Machine J Q N Op Res S} {s₀ : S} {reg : Q → R} (D : Discipline M s₀ reg)
  {c : Config J Q Op Res S}

/-- What a reachable configuration satisfies: an idle region its invariant, and
a thread in flight the safety of what is left of its program. -/
def Inv (c : Config J Q Op Res S) : Prop :=
  (∀ w, (∀ j q p, c.thread j = some (q, p) → reg q ≠ w) → D.inv w c.state) ∧
  ∀ j q p, c.thread j = some (q, p) → M.may j q ∧
    Safe M j q (D.env j (reg q)) (D.pre j q) (fun _ => D.inv (reg q)) p c.state

theorem inv_init : D.Inv (Config.init s₀) :=
  ⟨fun w _ => D.start w, fun _ _ _ h => by cases h⟩

/-- A thread in flight holds its region for itself. -/
theorem alone {i j : J} {q q' : Q} {p p' : Prog Op Res Unit} (h : D.Inv c)
    (hi : c.thread i = some (q, p)) (hj : c.thread j = some (q', p')) (hne : i ≠ j) : reg q ≠ reg q' :=
  fun he => hne (D.exclusive _ _ _ _ (h.2 _ _ _ hi).1 (h.2 _ _ _ hj).1 he)

theorem inv_start {j : J} {q : Q} (hr : Reachable M s₀ c) (h : D.Inv c) (idle : c.thread j = none)
    (may : M.may j q) : D.Inv (c.set c.state j (some (q, M.body q))) := by
  have free : ∀ i q' p, c.thread i = some (q', p) → reg q' ≠ reg q := by
    intro i q' p hi he
    have := D.exclusive _ _ _ _ (h.2 _ _ _ hi).1 may he
    rw [this, idle] at hi
    cases hi
  refine ⟨fun w hw => h.1 w fun i q' p hi => ?_, fun i q' p hi => ?_⟩
  · have hij : i ≠ j := fun e => by rw [e, idle] at hi; cases hi
    exact hw i q' p (by rw [Config.set_thread_ne _ _ hij]; exact hi)
  · by_cases hij : i = j
    · subst hij
      simp only [Config.set_thread_self, Option.some.injEq, Prod.mk.injEq] at hi
      obtain ⟨rfl, rfl⟩ := hi
      exact ⟨may, D.sound c _ _ hr may free (h.1 _ free)⟩
    · rw [Config.set_thread_ne _ _ hij] at hi
      exact h.2 i q' p hi

theorem inv_run {j : J} {q : Q} {o : Op} {k : Res o → Prog Op Res Unit} (n : N) (h : D.Inv c)
    (next : c.thread j = some (q, .op o k)) :
    D.Inv (c.set (M.exec j q n o c.state).2 j (some (q, k (M.exec j q n o c.state).1))) := by
  obtain ⟨may, safe⟩ := h.2 _ _ _ next
  obtain ⟨hpre, safe'⟩ := safe c.state (D.refl _ _ _)
  refine ⟨fun w hw => ?_, fun i q' p hi => ?_⟩
  · have hwq : w ≠ reg q := fun e => hw j q _ (Config.set_thread_self ..) e.symm
    refine D.stable j q n o c.state may hpre w hwq (h.1 w fun i q' p hi => ?_)
    by_cases hij : i = j
    · rw [hij, next] at hi
      simp only [Option.some.injEq, Prod.mk.injEq] at hi
      exact hi.1 ▸ Ne.symm hwq
    · exact hw i q' p (by rw [Config.set_thread_ne _ _ hij]; exact hi)
  · by_cases hij : i = j
    · subst hij
      simp only [Config.set_thread_self, Option.some.injEq, Prod.mk.injEq] at hi
      obtain ⟨rfl, rfl⟩ := hi
      exact ⟨may, safe' n⟩
    · rw [Config.set_thread_ne _ _ hij] at hi
      exact ⟨(h.2 _ _ _ hi).1,
        (h.2 _ _ _ hi).2.env (D.trans _ _)
          (D.frame j q n o c.state may hpre i _ hij (D.alone h hi next hij))⟩

theorem inv_finish {j : J} {q : Q} (h : D.Inv c) (ended : c.thread j = some (q, .ret ())) :
    D.Inv (c.set c.state j none) := by
  refine ⟨fun w hw => ?_, fun i q' p hi => ?_⟩
  · by_cases hwq : w = reg q
    · exact hwq ▸ (h.2 _ _ _ ended).2 c.state (D.refl _ _ _)
    · refine h.1 w fun i q' p hi => ?_
      by_cases hij : i = j
      · rw [hij, ended] at hi
        simp only [Option.some.injEq, Prod.mk.injEq] at hi
        exact hi.1 ▸ Ne.symm hwq
      · exact hw i q' p (by rw [Config.set_thread_ne _ _ hij]; exact hi)
  · have hij : i ≠ j := fun e => by rw [e, Config.set_thread_self] at hi; cases hi
    rw [Config.set_thread_ne _ _ hij] at hi
    exact h.2 i q' p hi

/-- **The discipline is kept** by every reachable configuration. -/
theorem inv_reachable (h : Reachable M s₀ c) : D.Inv c := by
  refine h.induct D.inv_init fun c c' hr ih hs => ?_
  cases hs with
  | start idle may => exact D.inv_start hr ih idle may
  | run n next => exact D.inv_run n ih next
  | finish ended => exact D.inv_finish ih ended

/-- **An idle region satisfies its invariant.** -/
theorem idle (h : Reachable M s₀ c) {w : R}
    (free : ∀ j q p, c.thread j = some (q, p) → reg q ≠ w) : D.inv w c.state :=
  (D.inv_reachable h).1 w free

/-- **Every operation finds what it must.** -/
theorem pre_run (h : Reachable M s₀ c) {j : J} {q : Q} {o : Op} {k : Res o → Prog Op Res Unit}
    (next : c.thread j = some (q, .op o k)) : D.pre j q o c.state :=
  (((D.inv_reachable h).2 _ _ _ next).2 c.state (D.refl _ _ _)).1

end Discipline

end SidleBaselines.Concurrency
