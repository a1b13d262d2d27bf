import Mathlib

/-!
# Threads at control points

Where the code loops on what others write, a thread is at a control point, and one atomic step
takes it to the next. A `Control` says what a thread does in one step at each point; the threads
of a configuration take their steps in any order.

## What is proved

* `Control.Reachable.induct` — what holds at the start and is kept by every step of a thread
  holds of every reachable configuration.
* `Control.Steps.alone` — a thread left alone gets where its own steps take it.
-/

namespace SidleBaselines.Concurrency

/-- Threads `J` at control points `L` over a shared state `S`: where a step takes a thread and
what it leaves in the state. `N` is what the code leaves open (the call that comes next, whether
a weak exchange fails); `none`: there is no such step. -/
structure Control (J N L S : Type) where
  /-- One atomic step. -/
  step : J → N → L → S → Option (L × S)

namespace Control

variable {J N L S : Type}

/-- The shared state and every thread's control point. -/
@[ext]
structure Config (J L S : Type) where
  /-- The shared state. -/
  state : S
  /-- Where each thread is. -/
  point : J → L

/-- Every thread at `l`. -/
def Config.init (s : S) (l : L) : Config J L S := ⟨s, fun _ => l⟩

variable [DecidableEq J]

/-- Thread `j` goes to `l`, leaving `s`. -/
def Config.go (c : Config J L S) (j : J) (l : L) (s : S) : Config J L S :=
  ⟨s, Function.update c.point j l⟩

@[simp] theorem Config.go_state (c : Config J L S) (j : J) (l : L) (s : S) : (c.go j l s).state = s := rfl

@[simp] theorem Config.go_point_self (c : Config J L S) (j : J) (l : L) (s : S) :
    (c.go j l s).point j = l := by simp [go]

theorem Config.go_point_ne (c : Config J L S) {i j : J} (h : i ≠ j) (l : L) (s : S) :
    (c.go j l s).point i = c.point i := by
  simp [go, Function.update_of_ne h]

theorem Config.go_point (c : Config J L S) (i j : J) (l : L) (s : S) :
    (c.go j l s).point i = if i = j then l else c.point i := by
  simp [go, Function.update_apply]

@[simp] theorem Config.go_go (c : Config J L S) (j : J) (l l' : L) (s s' : S) :
    (c.go j l s).go j l' s' = c.go j l' s' := by simp [go]

/-- What is read off every thread's point changes with the thread that steps only. -/
theorem Config.map_go {A : Type} (c : Config J L S) (f : L → A) (j : J) (l : L) (s : S) :
    (fun i => f ((c.go j l s).point i)) = Function.update (fun i => f (c.point i)) j (f l) := by
  funext i
  by_cases h : i = j <;> simp [go_point, h]

variable (C : Control J N L S)

/-- One step of one thread. -/
inductive Step : Config J L S → Config J L S → Prop
  /-- Thread `j` steps. -/
  | act {c : Config J L S} {j : J} (n : N) {l : L} {s : S}
      (step : C.step j n (c.point j) c.state = some (l, s)) : Step c (c.go j l s)

/-- Any number of steps. -/
def Steps : Config J L S → Config J L S → Prop := Relation.ReflTransGen (Step C)

/-- The configurations that runs from `c₀` get to. -/
def Reachable (c₀ c : Config J L S) : Prop := Steps C c₀ c

variable {C} {c₀ c c' : Config J L S}

theorem Reachable.step (h : Reachable C c₀ c) (hs : Step C c c') : Reachable C c₀ c' := h.tail hs

/-- **Invariants**: what holds at the start and is kept by every step of a thread from a
reachable configuration. -/
theorem Reachable.induct {P : Config J L S → Prop} (init : P c₀)
    (step : ∀ c j n l s, Reachable C c₀ c → P c → C.step j n (c.point j) c.state = some (l, s) →
      P (c.go j l s)) (h : Reachable C c₀ c) : P c := by
  induction h with
  | refl => exact init
  | tail hc hs ih =>
    cases hs with
    | act n hn => exact step _ _ n _ _ hc ih hn

/-- The steps of thread `j` alone. -/
inductive Alone (C : Control J N L S) (j : J) : L × S → L × S → Prop
  /-- None. -/
  | refl (x : L × S) : Alone C j x x
  /-- A step, and then some. -/
  | step (n : N) {l l' : L} {s s' : S} {y : L × S} (h : C.step j n l s = some (l', s'))
      (rest : Alone C j (l', s') y) : Alone C j (l, s) y

/-- A thread left alone gets where its own steps take it. -/
theorem Steps.alone {j : J} {l : L} {s : S} (h : Alone C j (c.point j, c.state) (l, s)) :
    Steps C c (c.go j l s) := by
  generalize hx : (c.point j, c.state) = x at h
  generalize hy : (l, s) = y at h
  induction h generalizing c with
  | refl x =>
    obtain ⟨rfl, rfl⟩ := Prod.mk.inj (hx.trans hy.symm)
    have : c.go j (c.point j) c.state = c := by
      ext i
      · rfl
      · by_cases h : i = j <;> simp [Config.go_point, h]
    rw [this]
    exact .refl
  | step n hn rest ih =>
    obtain ⟨rfl, rfl⟩ := Prod.mk.inj hx
    have := ih (c := c.go j _ _) (by rw [Config.go_point_self, Config.go_state]) hy
    rw [Config.go_go] at this
    exact Relation.ReflTransGen.head (.act n hn) this

end Control

end SidleBaselines.Concurrency
