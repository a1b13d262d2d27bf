import SidleBaselines.Pactree.Split
import SidleBaselines.Pactree.Merge
import SidleBaselines.Pactree.NodeScan

/-!
# The data layer of PACTree

The data layer is a doubly linked list of nodes, each for the keys from its `min` up to its `max`.
An operation is given a node to begin at, walks back and forth to the node for its key, takes
that node's lock and works on it: an insert into a full node splits it, a remove that leaves little
merges it with a neighbour.

The operations are modelled as one thread does them on its own, the list not having been recovered
(`genId` is 0). `none` is a run that dereferences null or never comes to an end.
-/

namespace SidleBaselines.Pactree

/-! ### The lock of a node -/

namespace VersionedLock

/-- `read_lock`, `genId` being 0: the version returned, 0 for none, and the word. A version past 32
bits is taken for one of another generation. -/
def read_lock (version : ℕ) : ℕ × ℕ :=
  if version / 2 ^ 32 ≠ 0 then (2, 2)
  else if version % 2 = 1 then (0, version)
  else (version, version)

/-- `write_lock`. -/
def write_lock (version : ℕ) : ℕ × ℕ :=
  if version / 2 ^ 32 ≠ 0 then (3, 3)
  else if version % 2 = 0 then (version, version + 1)
  else (0, version)

/-- `write_unlock`. -/
def write_unlock (version : ℕ) : ℕ := version + 1

end VersionedLock

variable {K V : Type}

/-- Take the lock to write, if it is free. -/
def ListNode.writeLock (n : ListNode K V) : Option (ListNode K V) :=
  match VersionedLock.write_lock n.verLock with
  | (0, _) => none
  | (_, word) => some { n with verLock := word }

/-- `writeUnlock`. -/
def ListNode.writeUnlock (n : ListNode K V) : ListNode K V :=
  { n with verLock := VersionedLock.write_unlock n.verLock }

/-- Take the lock to read, if no one writes: the version read. -/
def ListNode.readLock (n : ListNode K V) : Option (ℕ × ListNode K V) :=
  match VersionedLock.read_lock n.verLock with
  | (0, _) => none
  | (version, word) => some (version, { n with verLock := word })

/-- The node once it has the entries of `deleteNode`, the keys up to its `max` and what is after it. -/
def ListNode.absorb (n deleteNode : ListNode K V) : ListNode K V :=
  { n.merge deleteNode with max := deleteNode.max, nextPtr := deleteNode.nextPtr }

/-- The memory with the nodes, where the next one will be made, where the first one is, and the
log entries enqueued for the search layer: a key and the node made for the keys from it on. -/
structure LinkedList (K V : Type) where
  heap : ℕ → ListNode K V
  top : ℕ
  headPtr : ℕ
  oplog : List (K × ℕ)

namespace LinkedList

/-- Write node `p`. -/
def set (s : LinkedList K V) (p : ℕ) (n : ListNode K V) : LinkedList K V :=
  { s with heap := Function.update s.heap p n }

/-- `setPrev` of the node `p` points to. -/
def setPrev (s : LinkedList K V) (p : Option ℕ) (prev : Option ℕ) : Option (LinkedList K V) := do
  let p ← p
  return s.set p { s.heap p with prevPtr := prev }

variable [LinearOrder K] (fp : K → UInt8)

/-- `ListNode::insert` on node `p`, with the allocation and the log entry of `split`. -/
def nodeInsert (s : LinkedList K V) (p : ℕ) (key : K) (value : V) : Option (Bool × LinkedList K V) :=
  let n := s.heap p
  let keyHash := fp key
  match n.getFreeIndex key keyHash with
  | .present => some (false, s)
  | .slot index => some (true, s.set p (n.insertAtIndex (key, value) index keyHash))
  | .full => do
    let newNodePtr := s.top
    let newNode := n.splitNew (s.heap newNodePtr) newNodePtr key value keyHash
    let s := { s with top := s.top + 1 }
    let s := (s.set newNodePtr newNode).set p (n.splitOld newNodePtr key value keyHash)
    let s ← s.setPrev newNode.nextPtr (some newNodePtr)
    return (true, { s with oplog := s.oplog ++ [(n.median, newNodePtr)] })

/-- `ListNode::update` on node `p`. -/
def nodeUpdate (s : LinkedList K V) (p : ℕ) (key : K) (value : V) : Bool × LinkedList K V :=
  match (s.heap p).getKeyIndex key (fp key) with
  | none => (false, s)
  | some index => (true, s.set p ((s.heap p).updateAtIndex value index))

omit [LinearOrder K] in
/-- `mergeWithNext` of node `p`. -/
def mergeWithNext (s : LinkedList K V) (p : ℕ) : Option (LinkedList K V) := do
  let q ← (s.heap p).nextPtr
  match (s.heap q).writeLock with
  | none => return s
  | some deleteNode =>
    let n := (s.heap p).absorb deleteNode
    let s := (s.set q { deleteNode with deleted := true }).set p n
    s.setPrev deleteNode.nextPtr (some n.curPtr)

omit [LinearOrder K] in
/-- `mergeWithPrev` of node `p`, which has a node before it. -/
def mergeWithPrev (s : LinkedList K V) (p : ℕ) : Option (LinkedList K V) := do
  let deleteNode := s.heap p
  let q ← deleteNode.prevPtr
  match (s.heap q).writeLock with
  | none => return s
  | some mergeNode =>
    let s ← (s.set q (mergeNode.absorb deleteNode)).setPrev deleteNode.nextPtr (some q)
    return s.set q (s.heap q).writeUnlock

/-- `ListNode::remove` on node `p`. -/
def nodeRemove (s : LinkedList K V) (p : ℕ) (key : K) : Option (Bool × LinkedList K V) :=
  let n := s.heap p
  match n.getKeyIndex key (fp key) with
  | none => some (false, s)
  | some index => do
    let numEntries := n.getNumEntries
    let s := s.set p (n.removeFromIndex index)
    let next ← n.nextPtr
    if numEntries + (s.heap next).getNumEntries < MAX_ENTRIES / 2 then
      let s ← s.mergeWithNext p
      return (true, s)
    match n.prevPtr with
    | some prev =>
      if numEntries + (s.heap prev).getNumEntries < MAX_ENTRIES / 2 then
        let s ← s.mergeWithPrev p
        return (true, s)
      return (true, s)
    | none => return (true, s)

/-- The walk from `cur` to the node for `key`, `fuel` steps at most. -/
def walk (s : LinkedList K V) (key : K) : ℕ → ℕ → Option ℕ
  | 0, _ => none
  | fuel + 1, cur =>
    if key < (s.heap cur).min then (s.heap cur).prevPtr.bind (walk s key fuel)
    else if !(s.heap cur).checkRange key then (s.heap cur).nextPtr.bind (walk s key fuel)
    else some cur

/-- The node for `key`: there are fewer than `top` to walk over. -/
def find (s : LinkedList K V) (key : K) (head : ℕ) : Option ℕ := s.walk key s.top head

/-- What `insert` and `update` share: the walk, the lock, the checks after it, the work `body` on the
node, and the unlock. A lock that is held or a check that fails begins all over, which, no other
thread being there to change anything, never ends. -/
def writeAt {R : Type} (s : LinkedList K V) (key : K) (head : ℕ)
    (body : LinkedList K V → ℕ → Option (R × LinkedList K V)) : Option (R × LinkedList K V) := do
  let cur ← s.find key head
  let n ← (s.heap cur).writeLock
  if n.deleted || !n.checkRange key then none
  else
    let (ret, s) ← body (s.set cur n) cur
    return (ret, s.set cur (s.heap cur).writeUnlock)

/-- `insert`. -/
def insert (s : LinkedList K V) (key : K) (value : V) (head : ℕ) : Option (Bool × LinkedList K V) :=
  s.writeAt key head fun s cur => s.nodeInsert fp cur key value

/-- `update`. -/
def update (s : LinkedList K V) (key : K) (value : V) (head : ℕ) : Option (Bool × LinkedList K V) :=
  s.writeAt key head fun s cur => some (s.nodeUpdate fp cur key value)

/-- The loop of `remove`. A lock that is held or a check that fails begins all over, from the node before
`head` if there is one. -/
def removeLoop (key : K) : ℕ → LinkedList K V → ℕ → Option (Bool × LinkedList K V)
  | 0, _, _ => none
  | fuel + 1, s, head => do
    let cur ← s.find key head
    let restart (s : LinkedList K V) := removeLoop key fuel s ((s.heap head).prevPtr.getD head)
    match (s.heap cur).writeLock with
    | none => restart s
    | some n =>
      if n.deleted || !n.checkRange key then restart (s.set cur n.writeUnlock)
      else
        let (ret, s) ← (s.set cur n).nodeRemove fp cur key
        return (ret, s.set cur (s.heap cur).writeUnlock)

/-- `remove`: there are fewer than `top` nodes before `head`, and from the first it begins in the same place
for ever. -/
def remove (s : LinkedList K V) (key : K) (head : ℕ) : Option (Bool × LinkedList K V) :=
  removeLoop fp key (s.top + 1) s head

/-- `lookup`: the value, if the key is found. -/
def lookup (s : LinkedList K V) (key : K) (head : ℕ) : Option (Option V × LinkedList K V) := do
  let cur ← s.find key head
  let (_, n) ← (s.heap cur).readLock
  if n.deleted || !n.checkRange key then none
  else return ((n.getKeyIndex key (fp key)).map fun index => (n.keyArray index).2, s.set cur n)

/-- `probe`. -/
def probe (s : LinkedList K V) (key : K) (head : ℕ) : Option (Bool × LinkedList K V) := do
  let cur ← s.find key head
  let (_, n) ← (s.heap cur).readLock
  if n.deleted || !n.checkRange key then none
  else return ((n.getKeyIndex key (fp key)).isSome, s.set cur n)

/-- The loop of `scan`. -/
def scanLoop (startKey : K) (range : ℕ) :
    ℕ → LinkedList K V → Option ℕ → List V → Bool → Option (List V × LinkedList K V)
  | 0, _, _, _, _ => none
  | fuel + 1, s, cur, rangeVector, ended =>
    if rangeVector.length < range ∧ ended = false then do
      let cur ← cur
      let (readVersion, n) ← (s.heap cur).readLock
      if n.deleted then none
      else
        let (ended, rangeVector, n) := n.scan startKey range rangeVector readVersion
        scanLoop startKey range fuel (s.set cur n) n.nextPtr rangeVector ended
    else some (rangeVector, s)

/-- `scan`: the nodes from `cur` on are no more than `top`. -/
def scan (s : LinkedList K V) (startKey : K) (range : ℕ) (head : ℕ) : Option (List V × LinkedList K V) := do
  let cur ← s.find startKey head
  scanLoop startKey range (s.top + 1) s (some cur) [] false

/-- The first node `initialize` makes, on memory that holds `n`: it has the entry of key 0. -/
def first [BoundedOrder K] [Zero V] (n : ListNode K V) : ListNode K V :=
  { n.new.insertAtIndex (⊥, 0) 0 (fp ⊥) with nextPtr := some 1, prevPtr := none, curPtr := 0, min := ⊥, max := ⊤ }

/-- The last node, which is for no keys and looks full. -/
def last [BoundedOrder K] [Zero V] (n : ListNode K V) : ListNode K V :=
  { n.new.insertAtIndex (⊤, 0) 0 (fp ⊤) with
    nextPtr := none
    prevPtr := some 0
    curPtr := 1
    min := ⊤
    bitMap := fun i => i < MAX_ENTRIES || (n.new.insertAtIndex (⊤, 0) 0 (fp ⊤)).bitMap i }

/-- `initialize`, on memory that holds `mem`. -/
def initialized [BoundedOrder K] [Zero V] (mem : ℕ → ListNode K V) : LinkedList K V where
  heap := Function.update (Function.update mem 0 (first fp (mem 0))) 1 (last fp (mem 1))
  top := 2
  headPtr := 0
  oplog := []

end LinkedList

end SidleBaselines.Pactree
