import Mathlib

/-!
# Programs of atomic operations

A thread's program is a tree: it ends, or it issues one atomic operation and
goes on with the operation's result. A machine says what an operation does to
the shared state; threads start programs on request and interleave one
operation at a time.

## What is proved

* `Reachable.run` — a thread left alone runs its program to the end: the state
  `Prog.run` computes is reachable.
* `Reachable.induct` — what holds at the start and is kept by a start, an
  operation and a finish holds of every reachable configuration.
-/

namespace SidleBaselines.Concurrency

variable {Op : Type} {Res : Op → Type} {α β γ : Type}

/-! ### Programs -/

/-- A program over the operations `Op`, an operation `o` giving a result in
`Res o`, that ends with an `α`. -/
inductive Prog (Op : Type) (Res : Op → Type) (α : Type) : Type where
  /-- The program has ended with `a`. -/
  | ret (a : α)
  /-- Issue `o` and go on with its result. -/
  | op (o : Op) (k : Res o → Prog Op Res α)

namespace Prog

/-- Run `p`, then `f` on what it ends with. -/
def bind : Prog Op Res α → (α → Prog Op Res β) → Prog Op Res β
  | ret a, f => f a
  | op o k, f => op o fun b => (k b).bind f

instance : Monad (Prog Op Res) where
  pure := ret
  bind := bind

@[simp] theorem ret_bind (a : α) (f : α → Prog Op Res β) : (ret a : Prog Op Res α) >>= f = f a := rfl

@[simp] theorem op_bind (o : Op) (k : Res o → Prog Op Res α) (f : α → Prog Op Res β) :
    op o k >>= f = op o fun b => k b >>= f := rfl

@[simp] theorem pure_eq_ret (a : α) : (pure a : Prog Op Res α) = ret a := rfl

@[simp] theorem bind_assoc (p : Prog Op Res α) (f : α → Prog Op Res β) (g : β → Prog Op Res γ) :
    p >>= f >>= g = p >>= fun a => f a >>= g := by
  induction p with
  | ret a => rfl
  | op o k ih => simp only [op_bind, ih]

/-- One operation and its result. -/
def issue (o : Op) : Prog Op Res (Res o) := op o ret

@[simp] theorem issue_bind (o : Op) (f : Res o → Prog Op Res β) : issue o >>= f = op o f := rfl

/-- Run a program alone, `f` saying what an operation returns and does. -/
def run {S : Type} (f : (o : Op) → S → Res o × S) : Prog Op Res α → S → α × S
  | ret a, s => (a, s)
  | op o k, s => (k (f o s).1).run f (f o s).2

section
variable {S : Type} {f : (o : Op) → S → Res o × S}

@[simp] theorem run_ret (a : α) (s : S) : (ret a : Prog Op Res α).run f s = (a, s) := rfl

@[simp] theorem run_op (o : Op) (k : Res o → Prog Op Res α) (s : S) :
    (op o k).run f s = (k (f o s).1).run f (f o s).2 := rfl

theorem run_bind (p : Prog Op Res α) (g : α → Prog Op Res β) (s : S) :
    (p >>= g).run f s = (g (p.run f s).1).run f (p.run f s).2 := by
  induction p generalizing s with
  | ret a => rfl
  | op o k ih => simp only [op_bind, run_op, ih]

end

/-- A program run alone from one state comes to what is left of it, in another. -/
inductive Leads {S : Type} (f : (o : Op) → S → Res o × S) : Prog Op Res α × S → Prog Op Res α × S → Prop
  /-- Nothing is done. -/
  | refl (x : Prog Op Res α × S) : Leads f x x
  /-- An operation is done, and then some. -/
  | op (o : Op) (k : Res o → Prog Op Res α) {s : S} {x : Prog Op Res α × S}
      (h : Leads f (k (f o s).1, (f o s).2) x) : Leads f (.op o k, s) x

theorem Leads.trans {S : Type} {f : (o : Op) → S → Res o × S} {x y z : Prog Op Res α × S} (h : Leads f x y)
    (h' : Leads f y z) : Leads f x z := by
  induction h with
  | refl => exact h'
  | op o k _ ih => exact .op o k (ih h')

theorem Leads.run_eq {S : Type} {f : (o : Op) → S → Res o × S} {x y : Prog Op Res α × S} (h : Leads f x y) :
    x.1.run f x.2 = y.1.run f y.2 := by
  induction h with
  | refl => rfl
  | op o k h ih => exact ih

/-- The program ends within `m` operations, whatever they return. -/
inductive Within : ℕ → Prog Op Res α → Prop
  /-- It has ended. -/
  | ret (m : ℕ) (a : α) : Within m (.ret a)
  /-- One operation, and what is left. -/
  | op {m : ℕ} (o : Op) {k : Res o → Prog Op Res α} (h : ∀ r, Within m (k r)) : Within (m + 1) (.op o k)

/-- What one operation makes greater by one at most, the program makes greater by its operations. -/
theorem Within.run_le {S : Type} {f : (o : Op) → S → Res o × S} {μ : S → ℕ}
    (step : ∀ o s, μ (f o s).2 ≤ μ s + 1) {m : ℕ} {p : Prog Op Res α} (h : Within m p) (s : S) :
    μ (p.run f s).2 ≤ μ s + m := by
  induction h generalizing s with
  | ret m a => exact Nat.le_add_right _ _
  | op o h ih =>
    have hrest := ih (f o s).1 (f o s).2
    have hone := step o s
    rw [run_op]
    omega

end Prog

/-! ### Threads -/

/-- A machine: threads `J` answer requests `Q` by running programs over a shared
state `S`. What an operation does may depend on the thread and the request it
works for, and on a choice `N` the machine makes. -/
structure Machine (J Q N Op : Type) (Res : Op → Type) (S : Type) where
  /-- What an operation returns and does. -/
  exec : J → Q → N → (o : Op) → S → Res o × S
  /-- The program that answers a request. -/
  body : Q → Prog Op Res Unit
  /-- The requests a thread may take. -/
  may : J → Q → Prop

/-- The shared state, and what each thread is in the middle of: nothing, or a
request and what is left of its program. -/
@[ext]
structure Config (J Q Op : Type) (Res : Op → Type) (S : Type) where
  /-- The shared state. -/
  state : S
  /-- The requests in flight. -/
  thread : J → Option (Q × Prog Op Res Unit)

variable {J Q N S : Type} [DecidableEq J]

/-- No thread has begun. -/
def Config.init (s : S) : Config J Q Op Res S := ⟨s, fun _ => none⟩

/-- Give thread `j` the program `p` to go on with, in state `s`. -/
def Config.set (c : Config J Q Op Res S) (s : S) (j : J) (p : Option (Q × Prog Op Res Unit)) :
    Config J Q Op Res S :=
  ⟨s, Function.update c.thread j p⟩

@[simp] theorem Config.set_thread_self (c : Config J Q Op Res S) (s : S) (j : J)
    (p : Option (Q × Prog Op Res Unit)) : (c.set s j p).thread j = p := by simp [set]

theorem Config.set_thread_ne (c : Config J Q Op Res S) (s : S) {i j : J} (h : i ≠ j)
    (p : Option (Q × Prog Op Res Unit)) : (c.set s j p).thread i = c.thread i := by
  simp [set, Function.update_of_ne h]

variable (M : Machine J Q N Op Res S)

/-- One step of the machine. -/
inductive Step : Config J Q Op Res S → Config J Q Op Res S → Prop
  /-- An idle thread takes a request. -/
  | start {c : Config J Q Op Res S} {j : J} {q : Q} (idle : c.thread j = none) (may : M.may j q) :
      Step c (c.set c.state j (some (q, M.body q)))
  /-- A thread has its next operation answered. -/
  | run {c : Config J Q Op Res S} {j : J} {q : Q} {o : Op} {k : Res o → Prog Op Res Unit} (n : N)
      (next : c.thread j = some (q, .op o k)) :
      Step c (c.set (M.exec j q n o c.state).2 j (some (q, k (M.exec j q n o c.state).1)))
  /-- A thread whose program has ended is idle again. -/
  | finish {c : Config J Q Op Res S} {j : J} {q : Q} (ended : c.thread j = some (q, .ret ())) :
      Step c (c.set c.state j none)

/-- Any number of steps. -/
def Steps : Config J Q Op Res S → Config J Q Op Res S → Prop := Relation.ReflTransGen (Step M)

/-- The configurations a machine started in `s₀` gets to. -/
def Reachable (s₀ : S) (c : Config J Q Op Res S) : Prop := Steps M (Config.init s₀) c

/-- The configuration after thread `j`, left alone, has answered `q`. -/
def Config.answer (c : Config J Q Op Res S) (j : J) (q : Q) (n : N) : Config J Q Op Res S :=
  c.set ((M.body q).run (M.exec j q n) c.state).2 j none

variable {M} {s₀ : S} {c c' : Config J Q Op Res S}

theorem Reachable.init : Reachable M s₀ (Config.init s₀) := .refl

theorem Reachable.step (h : Reachable M s₀ c) (hs : Step M c c') : Reachable M s₀ c' := h.tail hs

/-- **Invariants**: what holds at the start and is kept by every step from a
reachable configuration holds of every reachable one. -/
theorem Reachable.induct {P : Config J Q Op Res S → Prop} (init : P (Config.init s₀))
    (step : ∀ c c', Reachable M s₀ c → P c → Step M c c' → P c') (h : Reachable M s₀ c) : P c := by
  induction h with
  | refl => exact init
  | tail hc hs ih => exact step _ _ hc ih hs

/-- A thread works only for requests it may take. -/
theorem Reachable.may {j : J} {q : Q} {p : Prog Op Res Unit} (h : Reachable M s₀ c)
    (hp : c.thread j = some (q, p)) : M.may j q := by
  refine h.induct (P := fun c => ∀ j q p, c.thread j = some (q, p) → M.may j q)
    (fun _ _ _ h => by cases h) (fun c c' _ ih hs i q' p' hi => ?_) j q p hp
  cases hs with
  | @start j q idle may =>
    by_cases hij : i = j
    · subst hij
      simp only [Config.set_thread_self, Option.some.injEq, Prod.mk.injEq] at hi
      exact hi.1 ▸ may
    · exact ih i q' p' (by rw [← Config.set_thread_ne _ _ hij]; exact hi)
  | @run j q o k n next =>
    by_cases hij : i = j
    · subst hij
      simp only [Config.set_thread_self, Option.some.injEq, Prod.mk.injEq] at hi
      exact hi.1 ▸ ih _ _ _ next
    · exact ih i q' p' (by rw [← Config.set_thread_ne _ _ hij]; exact hi)
  | @finish j q ended =>
    have hij : i ≠ j := fun e => by rw [e, Config.set_thread_self] at hi; cases hi
    exact ih i q' p' (by rw [← Config.set_thread_ne _ _ hij]; exact hi)

/-- A thread left alone gets where its program leads. -/
theorem Reachable.leads {j : J} {q : Q} (n : N) {p p' : Prog Op Res Unit} {s s' : S}
    (hl : Prog.Leads (M.exec j q n) (p, s) (p', s')) (h : Reachable M s₀ c) (hs : c.state = s)
    (hp : c.thread j = some (q, p)) : Reachable M s₀ (c.set s' j (some (q, p'))) := by
  generalize ha : (p, s) = a at hl
  generalize hb : (p', s') = b at hl
  induction hl generalizing c p s with
  | refl =>
    cases ha
    cases hb
    have : c.set s' j (some (q, p')) = c := by
      ext i
      · exact hs.symm
      · by_cases hij : i = j
        · rw [hij, Config.set_thread_self, hp]
        · rw [Config.set_thread_ne _ _ hij]
    rwa [this]
  | op o k hl ih =>
    cases ha
    subst hs
    have := ih (h.step (.run n hp)) rfl (Config.set_thread_self ..) rfl hb
    simpa [Config.set] using this

/-- A thread left alone runs its program to the end. -/
theorem Reachable.run {j : J} {q : Q} (n : N) {p : Prog Op Res Unit} (h : Reachable M s₀ c)
    (hp : c.thread j = some (q, p)) :
    Reachable M s₀ (c.set (p.run (M.exec j q n) c.state).2 j none) := by
  induction p generalizing c with
  | ret a => exact h.step (.finish hp)
  | op o k ih =>
    have := ih (M.exec j q n o c.state).1 (h.step (.run n hp)) (by simp)
    simpa [Config.set] using this

/-- An idle thread may answer a request, left alone. -/
theorem Reachable.answer {j : J} {q : Q} (n : N) (h : Reachable M s₀ c) (idle : c.thread j = none)
    (may : M.may j q) : Reachable M s₀ (c.answer M j q n) := by
  have := (h.step (.start idle may)).run n (Config.set_thread_self c c.state j (some (q, M.body q)))
  simpa [Config.answer, Config.set] using this

end SidleBaselines.Concurrency
