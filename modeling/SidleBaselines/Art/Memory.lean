import SidleBaselines.Art.Node
import SidleBaselines.Data.Prefixes
import SidleBaselines.Kv.Leaves

/-!
# ART in memory

The nodes of a tree lie in memory and point to each other. One thread works on them: a lock that is
taken stays taken, and where the code goes back to `begin` it finds what it found before, unless it
has itself changed it. The code is taken as it is built with its assertions, `NDEBUG` not being
defined: some of its work stands inside them, the locks of new nodes and the children that
`art_node_replace_leaf_child` and `art_node_expand_and_insert` add, and is lost in a build without.

## What is proved

* `addChild_room`, `addChild_full` — what a child added does to a node with room for it, and to one
  that has to grow.
* `replaceLeafChild_eq`, `expandAndInsert_eq` — the nodes that are put in the place of a leaf and in
  that of a node whose prefix ends early.
-/

namespace SidleBaselines.Art

open Data

/-! ### What the code does -/

/-- Why the code does not come to an end. -/
inductive Stop where
  /-- An assertion fails. -/
  | assert
  /-- It reads or writes outside its objects. -/
  | outside
  /-- It waits for ever. -/
  | endless
deriving DecidableEq

/-- An `art_node **`. -/
inductive Slot where
  /-- `&art->root`. -/
  | root
  /-- A place in the array of children of the node at `a`. -/
  | child (a i : ℕ)

/-- An `adaptive_radix_tree` and the memory it is in; from `next` on it is free. -/
structure AdaptiveRadixTree where
  root : Option Ptr
  heap : ℕ → Node
  next : ℕ

/-- The loop that compares a leaf's key with another from `i` on. -/
def differ (k1 k2 : List UInt8) (l1 l2 : ℕ) : ℕ → ℕ → ℕ
  | 0, i => i
  | rest + 1, i => if i < l1 ∧ i < l2 ∧ k1.getD i 0 = k2.getD i 0 then differ k1 k2 l1 l2 rest (i + 1) else i

namespace Node

/-- `art_node_set_prefix`. -/
def setPrefix (n : Node) (key : List UInt8) (off prefixLen : ℕ) : Node :=
  { n with
    pfx := fun i => if i < prefixLen then key.getD (off + i) 0 else n.pfx i
    version := setPrefixLen n.version prefixLen }

/-- The loop of `art_node_prefix_compare`, with `rest` bytes of the prefix to go. -/
def compareLoop (n : Node) (key : List UInt8) (len off : ℕ) : ℕ → ℕ → ℕ
  | 0, i => i
  | rest + 1, i =>
    if off + i < len then
      if n.pfx i ≠ key.getD (off + i) 0 then i else compareLoop n key len off rest (i + 1)
    else i

/-- `art_node_prefix_compare`. -/
def prefixCompare (n : Node) (version : BitVec 64) (key : List UInt8) (len off : ℕ) : ℕ :=
  n.compareLoop key len off (getPrefixLen version) 0

/-- `art_node_truncate_prefix`: the byte it returns, and the node. -/
def truncatePrefix (n : Node) (off : ℕ) : UInt8 × Node :=
  let version := setExpand n.version
  let prefixLen := getPrefixLen version
  let version' := setPrefixLen version (prefixLen - off - 1)
  (n.pfx off, { n with
    pfx := (List.range (prefixLen - off - 1)).foldl
      (fun pfx i => Function.update pfx i (pfx (i + off + 1))) n.pfx
    version := setOffset version' (off + getOffset version' + 1) })

/-- `art_node_set_offset`. -/
def setOffset (n : Node) (off : ℕ) : Node := { n with version := Art.setOffset n.version off }

/-- What `art_node_unlock` stores. -/
def unlocked (n : Node) : Node :=
  { n with version :=
      unsetLock (if isExpanding n.version then unsetExpand (incrVexpand n.version) else n.version) }

/-- The children whose parent `art_node_grow` sets. -/
def moved (n : Node) : List (Option Ptr) :=
  if getType n.version = node4 then (List.range 4).map n.child
  else if getType n.version = node16 then (List.range 16).map n.child
  else (List.range 256).map fun i =>
    if n.index (UInt8.ofNat i) ≠ 0 then n.child ((n.index (UInt8.ofNat i)).toNat - 1) else none

end Node

/-- `parent` is set in each child that is a node. -/
def adopt (heap : ℕ → Node) (new_ : ℕ) (children : List (Option Ptr)) : ℕ → Node :=
  children.foldl (fun heap child => match child with
    | some (.node b) => Function.update heap b { heap b with parent := some new_ }
    | some (.leaf _) | none => heap) heap

namespace AdaptiveRadixTree

/-- The node at `a` written. -/
def set (s : AdaptiveRadixTree) (a : ℕ) (n : Node) : AdaptiveRadixTree :=
    { s with heap := Function.update s.heap a n }

/-- `*ptr`. -/
def load (s : AdaptiveRadixTree) : Slot → Option Ptr
  | .root => s.root
  | .child a i => (s.heap a).child i

/-- `*ptr = p`. -/
def store (s : AdaptiveRadixTree) : Slot → Ptr → AdaptiveRadixTree
  | .root, p => { s with root := some p }
  | .child a i, p => s.set a ((s.heap a).store i p)

/-- A node allocated, as one of the `new_art_node`s makes it. -/
def alloc (s : AdaptiveRadixTree) (make : Node → Node) : ℕ × AdaptiveRadixTree :=
  (s.next, { s with heap := Function.update s.heap s.next (make (s.heap s.next)), next := s.next + 1 })

/-- `art_node_lock`: whether it failed. -/
def lock (s : AdaptiveRadixTree) (a : ℕ) : Except Stop (Bool × AdaptiveRadixTree) :=
  let version := (s.heap a).version
  if isLocked version then .error .endless
  else if isOld version then .ok (true, s)
  else .ok (false, s.set a { s.heap a with version := setLock version })

/-- `assert(art_node_lock(an) == 0)`. -/
def assertLock (s : AdaptiveRadixTree) (a : ℕ) : Except Stop AdaptiveRadixTree :=
  match s.lock a with
  | .ok (false, s) => .ok s
  | .ok (true, _) => .error .assert
  | .error e => .error e

/-- `art_node_unlock`. -/
def unlock (s : AdaptiveRadixTree) (a : ℕ) : AdaptiveRadixTree := s.set a (s.heap a).unlocked

/-- `art_node_get_locked_parent`. -/
def getLockedParent (s : AdaptiveRadixTree) (a : ℕ) : Except Stop (Option ℕ × AdaptiveRadixTree) :=
  match (s.heap a).parent with
  | none => .ok (none, s)
  | some parent =>
    match s.lock parent with
    | .ok (false, s) => .ok (some parent, s)
    | .ok (true, _) => .error .endless
    | .error e => .error e

/-- `art_node_grow`. -/
def grow (s : AdaptiveRadixTree) (a : ℕ) : Except Stop (ℕ × AdaptiveRadixTree) :=
  match (s.heap a).grown (s.heap s.next) with
  | none => .error .assert
  | some node => do
    let (new_, s') := s.alloc fun _ => node
    let s' := { s' with heap := adopt s'.heap new_ (s.heap a).moved }
    let s' ← s'.assertLock new_
    let s' := s'.set new_ ((s'.heap new_).setOffset (getOffset (s.heap a).version))
    .ok (new_, s'.set a { s'.heap a with new_ := some new_, version := setOld (s.heap a).version })

/-- `art_node_add_child`, with or without a place for `new_`: the place of a child that is there
already, and the node grown. -/
def addChild (s : AdaptiveRadixTree) (a : ℕ) (byte : UInt8) (child : Ptr) (hasNew : Bool) :
    Except Stop (Option ℕ × Option ℕ × AdaptiveRadixTree) :=
  match (s.heap a).findChild (s.heap a).version byte with
  | some next => .ok (some next, none, s)
  | none =>
    if (s.heap a).isFull then
      if hasNew then do
        let (new_, s) ← s.grow a
        let s := s.set new_ ((s.heap new_).append (s.heap new_).version byte child)
        .ok (none, some new_, s.unlock new_)
      else .error .outside
    else .ok (none, none, s.set a ((s.heap a).append (s.heap a).version byte child))

/-- `assert(art_node_add_child(an, byte, child, 0) == 0)`. -/
def assertAddChild (s : AdaptiveRadixTree) (a : ℕ) (byte : UInt8) (child : Ptr) :
    Except Stop AdaptiveRadixTree :=
  match s.addChild a byte child false with
  | .ok (none, _, s) => .ok s
  | .ok (some _, _, _) => .error .assert
  | .error e => .error e

/-- `art_node_replace_leaf_child`, with its assertions. -/
def replaceLeafChild (s : AdaptiveRadixTree) (l : Leaf) (key : List UInt8) (len off : ℕ) :
    Except Stop (Option ℕ × AdaptiveRadixTree) :=
  let i := differ l.key key l.getLeafLen len len off
  if i = l.getLeafLen ∧ i = len then .ok (none, s)
  else do
    let (new_, s) := s.alloc Node.newNode4
    let s := s.set new_ ((s.heap new_).setOffset off)
    let s ← s.assertLock new_
    if i - off ≤ 8 then
      let s := s.set new_ ((s.heap new_).setPrefix l.key off (i - off))
      let s ← s.assertAddChild new_ (if i = l.getLeafLen then 0 else l.key.getD i 0) (.leaf l)
      let s ← s.assertAddChild new_ (if i = len then 0 else key.getD i 0) (.leaf (allocLeaf key len))
      .ok (some new_, s.unlock new_)
    else .error .assert

/-- `art_node_expand_and_insert`, with its assertions. -/
def expandAndInsert (s : AdaptiveRadixTree) (a : ℕ) (key : List UInt8) (len off common : ℕ) :
    Except Stop (ℕ × AdaptiveRadixTree) := do
  let (new_, s) := s.alloc Node.newNode4
  let s := s.set new_ ((s.heap new_).setOffset off)
  let s ← s.assertLock new_
  let s := s.set new_ ((s.heap new_).setPrefix key off common)
  let byte := if off + common < len then key.getD (off + common) 0 else 0
  let s ← s.assertAddChild new_ byte (.leaf (allocLeaf key len))
  let (byte, an) := (s.heap a).truncatePrefix common
  let s := s.set a an
  let s ← s.assertAddChild new_ byte (.node a)
  .ok (new_, s.unlock new_)

/-- `art_node_replace_child`. -/
def replaceChild (s : AdaptiveRadixTree) (parent : ℕ) (byte : UInt8) (new_ : ℕ) :
    Except Stop AdaptiveRadixTree :=
  match (s.heap parent).findChild (s.heap parent).version byte with
  | none => .error .outside
  | some i =>
    let s := s.store (.child parent i) (.node new_)
    .ok (s.set new_ { s.heap new_ with parent := some parent })

/-- What `_adaptive_radix_tree_put` does with a node that takes the place of another: the parent,
if there is one, is locked. -/
def place (s : AdaptiveRadixTree) (parent : Option ℕ) (ptr : Slot) (byte : UInt8) (new_ : ℕ) :
    Except Stop AdaptiveRadixTree :=
  match parent with
  | some parent => do
    let s ← s.replaceChild parent byte new_
    .ok (s.unlock parent)
  | none => .ok (s.store ptr (.node new_))

end AdaptiveRadixTree

/-! ### Keys and prefixes -/

variable {k key : List UInt8} {off i rest len : ℕ} {n : Node} {b : UInt8}

/-- A leaf says how long its key is, if that is not negative. -/
theorem getLeafLen_allocLeaf (hlen : key.length < 128) : (allocLeaf key key.length).getLeafLen = key.length :=
  (Kv.Leaves.char_eq_iff (hlen.trans (by omega))).mpr hlen

theorem differ_eq (hoff : off ≤ common k key) (hrest : key.length ≤ rest + off) :
    differ k key k.length key.length rest off = common k key := by
  induction rest generalizing off with
  | zero => exact le_antisymm hoff (common_le_right.trans (hrest.trans (Nat.zero_add off).le))
  | succ rest ih =>
    rw [differ]
    split_ifs with h
    · exact ih ((lt_common_iff hoff 0).mpr h) (by omega)
    · exact le_antisymm hoff (Nat.not_lt.mp (mt (lt_common_iff hoff 0).mp h))

namespace Node

/-- The prefix. -/
def prefixBytes (n : Node) : List UInt8 := (List.range (getPrefixLen n.version)).map n.pfx

@[simp] theorem length_prefixBytes : n.prefixBytes.length = getPrefixLen n.version := by simp [prefixBytes]

theorem getD_prefixBytes (hi : i < getPrefixLen n.version) : n.prefixBytes.getD i 0 = n.pfx i := by
  simp [prefixBytes, List.getD_eq_getElem?_getD, hi]

theorem prefixCompare_eq (key : List UInt8) (off : ℕ) :
    n.prefixCompare n.version key key.length off = common n.prefixBytes (key.drop off) := by
  have hloop : ∀ rest i, i + rest = getPrefixLen n.version → i ≤ common n.prefixBytes (key.drop off) →
      n.compareLoop key key.length off rest i = common n.prefixBytes (key.drop off) := by
    intro rest
    induction rest with
    | zero =>
      intro i hi hle
      exact le_antisymm hle (common_le_left.trans (length_prefixBytes.trans hi.symm).le)
    | succ rest ih =>
      intro i hi hle
      have hiff := lt_common_iff hle 0
      rw [length_prefixBytes, List.length_drop, getD_prefixBytes (by omega)] at hiff
      have hgetD : (key.drop off).getD i 0 = key.getD (off + i) 0 := by
        simp [List.getD_eq_getElem?_getD]
      rw [hgetD] at hiff
      rw [compareLoop]
      split_ifs with hlen hne
      · refine le_antisymm hle (Nat.not_lt.mp fun hlt => hne (hiff.mp hlt).2.2)
      · exact ih (i + 1) (by omega) (hiff.mpr ⟨by omega, by omega, not_not.mp hne⟩)
      · exact le_antisymm hle (Nat.not_lt.mp fun hlt => hlen (by have := (hiff.mp hlt).2.1; omega))
  exact hloop _ 0 (Nat.zero_add _) (Nat.zero_le _)

/-- The loop that moves the rest of a prefix to its front. -/
theorem truncate_fold (pfx : ℕ → UInt8) (off k : ℕ) (i : ℕ) :
    (List.range k).foldl (fun pfx i => Function.update pfx i (pfx (i + off + 1))) pfx i =
      if i < k then pfx (i + off + 1) else pfx i := by
  induction k generalizing i with
  | zero => rfl
  | succ k ih =>
    rw [List.range_succ, List.foldl_append]
    by_cases hik : i = k
    · subst hik
      rw [if_pos (Nat.lt_succ_self _)]
      refine (Function.update_self ..).trans ((ih _).trans (if_neg (by omega)))
    · refine (Function.update_of_ne hik ..).trans ((ih i).trans ?_)
      by_cases hlt : i < k
      · rw [if_pos hlt, if_pos (by omega)]
      · rw [if_neg hlt, if_neg (by omega)]

theorem prefixBytes_setPrefix (n : Node) {off prefixLen : ℕ} (hlen : off + prefixLen ≤ key.length)
    (hle : prefixLen < 256) :
    (n.setPrefix key off prefixLen).prefixBytes = (key.drop off).take prefixLen := by
  have hversion : getPrefixLen (n.setPrefix key off prefixLen).version = prefixLen :=
    congrArg Header.prefixLen (header_setPrefixLen hle)
  refine List.ext_getElem? fun i => ?_
  rw [prefixBytes, hversion]
  by_cases hi : i < prefixLen
  · have hin : off + i < key.length := by omega
    simp [setPrefix, hi, List.getD_eq_getElem?_getD, hin]
  · simp [hi]

theorem truncatePrefix_byte (hoff : off < getPrefixLen n.version) :
    n.prefixBytes = n.prefixBytes.take off ++ (n.truncatePrefix off).1 :: n.prefixBytes.drop (off + 1) := by
  have hlen : off < n.prefixBytes.length := by rwa [length_prefixBytes]
  have hbyte : (n.truncatePrefix off).1 = n.prefixBytes[off] := by
    simp [truncatePrefix, prefixBytes]
  rw [hbyte, List.getElem_cons_drop, List.take_append_drop]

/-! ### New nodes -/

/-- No thread is at work on the node, and it is in the tree. -/
structure Quiet (n : Node) : Prop where
  old : isOld n.version = false
  locked : isLocked n.version = false
  expanding : isExpanding n.version = false

/-- The node with its lock taken. -/
def withLock (n : Node) : Node := { n with version := setLock n.version }

theorem withLock_same (n : Node) : SameChildren n.withLock n :=
  .of_header (by rw [header_setLock]) (by rw [header_setLock])

theorem unlocked_same (n : Node) : SameChildren n.unlocked n := by
  refine .of_header ?_ ?_ <;> rw [header_unsetLock] <;> split_ifs <;> simp

theorem prefixBytes_congr {m : Node} (hlen : getPrefixLen m.version = getPrefixLen n.version)
    (hpfx : m.pfx = n.pfx) :
    m.prefixBytes = n.prefixBytes := by
  rw [prefixBytes, prefixBytes, hlen, hpfx]

theorem withLock_prefixBytes (n : Node) : n.withLock.prefixBytes = n.prefixBytes :=
  prefixBytes_congr (congrArg Header.prefixLen header_setLock) rfl

theorem setOffset_same (n : Node) (h : off < 256) : SameChildren (n.setOffset off) n :=
  .of_header (by rw [header_setOffset h]) (by rw [header_setOffset h])

/-- A lock taken and given back leaves no trace. -/
theorem Quiet.unlocked_withLock (h : n.Quiet) : n.withLock.unlocked = n := by
  have hexp : isExpanding n.withLock.version = false :=
    (congrArg Header.expanding (header_setLock (v := n.version))).trans h.expanding
  rw [unlocked, if_neg (by rw [hexp]; exact Bool.false_ne_true)]
  exact congrArg (fun version => { n with version := version }) (unsetLock_setLock h.locked)

/-- What a node with two children is that has been put in the place of something else. -/
structure Pair (n : Node) (off : ℕ) (pfx : List UInt8) (b₁ b₂ : UInt8) (c₁ c₂ : Ptr) : Prop where
  wf : n.Wf
  quiet : n.Quiet
  offset : getOffset n.version = off
  pfx : n.prefixBytes = pfx
  get : ∀ b, n.get b = if b = b₂ then some c₂ else if b = b₁ then some c₁ else none

/-- Who its parent is does not matter. -/
theorem Pair.with_parent {pfx : List UInt8} {b₁ b₂ : UInt8} {c₁ c₂ : Ptr} (h : n.Pair off pfx b₁ b₂ c₁ c₂)
    (parent : Option ℕ) :
    { n with parent := parent }.Pair off pfx b₁ b₂ c₁ c₂ :=
  have hsame : SameChildren { n with parent := parent } n := ⟨rfl, rfl, rfl, rfl, rfl⟩
  ⟨hsame.wf h.wf, ⟨h.quiet.old, h.quiet.locked, h.quiet.expanding⟩, h.offset, h.pfx,
    fun b => (hsame.get b).trans (h.get b)⟩

/-- The node before it gets its children. -/
def blank (mem : Node) (key : List UInt8) (off kept prefixLen : ℕ) : Node :=
  (mem.newNode4.setOffset off).withLock.setPrefix key kept prefixLen

theorem header_blank {mem : Node} {kept prefixLen : ℕ} (hoff : off < 256) (hlen : prefixLen < 256) :
    Art.header (blank mem key off kept prefixLen).version =
    ⟨off, 0, prefixLen, node4, false, true, false, 0⟩ := by
  have hoffset : Art.header (mem.newNode4.setOffset off).version = ⟨off, 0, 0, node4, false, false, false, 0⟩ :=
    (header_setOffset (v := setType 0 node4) hoff).trans rfl
  have hlock : Art.header (mem.newNode4.setOffset off).withLock.version =
    ⟨off, 0, 0, node4, false, true, false, 0⟩ :=
    header_setLock.trans (by rw [hoffset])
  exact (header_setPrefixLen hlen).trans (by rw [hlock])

/-- A `node4` with room for a child that it does not have. -/
theorem append_node4 {c : Ptr} {count : ℕ} (h : n.Wf) (ht : getType n.version = node4)
    (hc : getCount n.version = count)
    (hcount : count < 4) (hnew : n.get b = none) :
    n.findChild n.version b = none ∧ n.isFull = false ∧ (n.append n.version b c).Wf ∧
      Art.header (n.append n.version b c).version = { Art.header n.version with count := count + 1 } ∧
      (n.append n.version b c).pfx = n.pfx ∧ (n.append n.version b c).parent = n.parent ∧
      ∀ b', (n.append n.version b c).get b' = if b' = b then some c else n.get b' := by
  have hfind := (get_eq_none_iff h).mp hnew
  have hfull : n.isFull = false := by
    rw [isFull, if_pos ht, hc, beq_eq_false_iff_ne]
    omega
  refine ⟨hfind, hfull, h.append hfull hfind c, ?_, ?_, ?_, get_append h hfull hfind c⟩
  · rw [append_small (.inl ht)]
    refine (header_incrCount (v := n.version) ?_).trans ?_
    · exact (congrArg (· + 1 < 256) hc).mpr (by omega)
    · exact congrArg (fun c => { Art.header n.version with count := c + 1 }) hc
  · rw [append_small (.inl ht)]
  · rw [append_small (.inl ht)]

theorem blank_wf (mem : Node) (key : List UInt8) (kept : ℕ) {prefixLen : ℕ} (hoff : off < 256)
    (hlen : prefixLen < 256) :
    (blank mem key off kept prefixLen).Wf ∧ ∀ b, (blank mem key off kept prefixLen).get b = none := by
  have hheader : Art.header (blank mem key off kept prefixLen).version = _ := header_blank hoff hlen
  have ht : getType (blank mem key off kept prefixLen).version = node4 := congrArg Header.type hheader
  have hc : getCount (blank mem key off kept prefixLen).version = 0 := congrArg Header.count hheader
  have hwf : (blank mem key off kept prefixLen).Wf := by
    refine ⟨fun _ => ?_, fun _ i hi => ?_, fun _ i hi => ?_, fun e => absurd (ht.symm.trans e) node4_ne.2.1⟩
    · exact hc.le.trans (Nat.zero_le _)
    · exact absurd (hc ▸ hi) (Nat.not_lt_zero i)
    · exact absurd (hc ▸ hi) (Nat.not_lt_zero i)
  refine ⟨hwf, fun b => (get_eq_none_iff hwf).mpr ?_⟩
  cases hi : (blank mem key off kept prefixLen).findChild (blank mem key off kept prefixLen).version b with
  | none => rfl
  | some i => exact absurd (hc ▸ ((findChild_small hwf (.inl ht)).mp hi).1) (Nat.not_lt_zero i)

theorem header_unlocked (n : Node) :
    Art.header n.unlocked.version = { Art.header n.version with
      locked := false
      expanding := false
      vexpand := if isExpanding n.version then ((Art.header n.version).vexpand + 1) % 256
        else (Art.header n.version).vexpand } := by
  have hexp : (Art.header n.version).expanding = isExpanding n.version := rfl
  rw [unlocked]
  cases h : isExpanding n.version with
  | true =>
    rw [if_pos rfl, if_pos rfl]
    exact header_unsetLock.trans (by rw [header_unsetExpand, header_incrVexpand])
  | false =>
    rw [if_neg Bool.false_ne_true, if_neg Bool.false_ne_true]
    exact header_unsetLock.trans (by rw [← hexp] at h; rw [← h])

/-- The node with its first child. -/
def single (mem : Node) (key : List UInt8) (off kept prefixLen : ℕ) (b₁ : UInt8) (c₁ : Ptr) : Node :=
  (blank mem key off kept prefixLen).append (blank mem key off kept prefixLen).version b₁ c₁

/-- The node with both. -/
def paired (mem : Node) (key : List UInt8) (off kept prefixLen : ℕ) (b₁ b₂ : UInt8) (c₁ c₂ : Ptr) : Node :=
  ((single mem key off kept prefixLen b₁ c₁).append
    (single mem key off kept prefixLen b₁ c₁).version b₂ c₂).unlocked

/-- **A pair put together**: both children find their place, and the node comes out unlocked. -/
theorem pair (mem : Node) (key : List UInt8) (off kept prefixLen : ℕ) {b₁ b₂ : UInt8} (c₁ c₂ : Ptr)
    (hoff : off < 256)
    (hlen : prefixLen < 256) (hkept : kept + prefixLen ≤ key.length) (hb : b₂ ≠ b₁) :
    let n₀ := blank mem key off kept prefixLen
    let n₁ := single mem key off kept prefixLen b₁ c₁
    (n₀.findChild n₀.version b₁ = none ∧ n₀.isFull = false) ∧
    (n₁.findChild n₁.version b₂ = none ∧ n₁.isFull = false) ∧
      Pair (paired mem key off kept prefixLen b₁ b₂ c₁ c₂) off ((key.drop kept).take prefixLen) b₁ b₂ c₁ c₂ ∧
        (paired mem key off kept prefixLen b₁ b₂ c₁ c₂).parent = none := by
  intro n₀ n₁
  let n₂ := n₁.append n₁.version b₂ c₂
  have hheader₀ : Art.header n₀.version = ⟨off, 0, prefixLen, node4, false, true, false, 0⟩ :=
    header_blank hoff hlen
  obtain ⟨hwf, hnone⟩ := blank_wf mem key kept hoff hlen
  obtain ⟨hfind₀, hfull₀, hwf₁, hheader₁, hpfx₁, hparent₁, hget₁⟩ :
      n₀.findChild n₀.version b₁ = none ∧ n₀.isFull = false ∧ n₁.Wf ∧
        Art.header n₁.version = { Art.header n₀.version with count := 1 } ∧ n₁.pfx = n₀.pfx ∧
        n₁.parent = n₀.parent ∧
        ∀ b', n₁.get b' = if b' = b₁ then some c₁ else n₀.get b' :=
    append_node4 hwf (congrArg Header.type hheader₀) (congrArg Header.count hheader₀) (by omega) (hnone b₁)
  rw [hheader₀] at hheader₁
  obtain ⟨hfind₁, hfull₁, hwf₂, hheader₂, hpfx₂, hparent₂, hget₂⟩ :
      n₁.findChild n₁.version b₂ = none ∧ n₁.isFull = false ∧ n₂.Wf ∧
        Art.header n₂.version = { Art.header n₁.version with count := 2 } ∧ n₂.pfx = n₁.pfx ∧
        n₂.parent = n₁.parent ∧
        ∀ b', n₂.get b' = if b' = b₂ then some c₂ else n₁.get b' :=
    append_node4 hwf₁ (congrArg Header.type hheader₁) (congrArg Header.count hheader₁) (by omega)
      ((hget₁ b₂).trans (by rw [if_neg hb, hnone]))
  rw [hheader₁] at hheader₂
  have hsame : SameChildren n₂.unlocked n₂ := unlocked_same n₂
  have hheader : Art.header n₂.unlocked.version = ⟨off, 2, prefixLen, node4, false, false, false, 0⟩ := by
    have hexp : isExpanding n₂.version = false := congrArg Header.expanding hheader₂
    rw [header_unlocked, hexp, hheader₂]
    rfl
  refine ⟨⟨hfind₀, hfull₀⟩, ⟨hfind₁, hfull₁⟩, ⟨hsame.wf hwf₂,
    ⟨congrArg Header.old hheader, congrArg Header.locked hheader, congrArg Header.expanding hheader⟩,
    congrArg Header.offset hheader, ?_, fun b => ?_⟩, hparent₂.trans hparent₁⟩
  · have hlength : getPrefixLen n₂.unlocked.version = getPrefixLen n₀.version :=
      (congrArg Header.prefixLen hheader).trans (congrArg Header.prefixLen hheader₀).symm
    have hpfx : n₂.unlocked.pfx = n₀.pfx := hpfx₂.trans hpfx₁
    have hbytes : n₂.unlocked.prefixBytes = n₀.prefixBytes := by
      rw [prefixBytes, prefixBytes, hlength, hpfx]
    exact hbytes.trans (prefixBytes_setPrefix _ hkept hlen)
  · exact (hsame.get b).trans (by rw [hget₂, hget₁, hnone])

/-! ### Cutting a prefix -/

/-- What a node is that has lost the beginning of its prefix. -/
structure Cut (n m : Node) (off p : ℕ) : Prop where
  same : SameChildren m n
  quiet : m.Quiet
  offset : getOffset m.version = off + p + 1
  pfx : m.prefixBytes = n.prefixBytes.drop (p + 1)
  parent : m.parent = n.parent

theorem header_truncatePrefix {p : ℕ} (hoff : getOffset n.version = off) (hlt : off + p + 1 < 256) :
    Art.header (n.truncatePrefix p).2.version = { Art.header n.version with
      offset := off + p + 1, prefixLen := getPrefixLen n.version - p - 1, expanding := true } := by
  have hlen := getPrefixLen_lt n.version
  have hexpand := header_setExpand (v := n.version)
  have hprefixLen : getPrefixLen (setExpand n.version) = getPrefixLen n.version :=
    congrArg Header.prefixLen hexpand
  have hset := header_setPrefixLen (v := setExpand n.version) (x := getPrefixLen n.version - p - 1) (by omega)
  rw [hexpand] at hset
  have hoffset : getOffset (setPrefixLen (setExpand n.version) (getPrefixLen n.version - p - 1)) = off :=
    (congrArg Header.offset hset).trans hoff
  have hresult := header_setOffset
    (v := setPrefixLen (setExpand n.version) (getPrefixLen n.version - p - 1)) hlt
  rw [hset] at hresult
  rw [truncatePrefix]
  dsimp only
  rw [hprefixLen, hoffset, show p + off + 1 = off + p + 1 by omega]
  exact hresult

theorem cut {p : ℕ} (h : n.Quiet) (hoff : getOffset n.version = off) (hlt : off + p + 1 < 256)
    (hp : p < getPrefixLen n.version) : Cut n (n.withLock.truncatePrefix p).2.unlocked off p := by
  have hlock : Art.header n.withLock.version = { Art.header n.version with locked := true } := header_setLock
  have hheader := header_truncatePrefix (n := n.withLock) (p := p)
    ((congrArg Header.offset hlock).trans hoff) hlt
  have hlen : getPrefixLen n.withLock.version = getPrefixLen n.version := congrArg Header.prefixLen hlock
  have hunlocked := header_unlocked (n.withLock.truncatePrefix p).2
  rw [hheader, hlock, hlen] at hunlocked
  refine ⟨⟨congrArg Header.type hunlocked, congrArg Header.count hunlocked, rfl, rfl, rfl⟩,
    ⟨(congrArg Header.old hunlocked).trans h.old, congrArg Header.locked hunlocked,
      congrArg Header.expanding hunlocked⟩,
    congrArg Header.offset hunlocked, ?_, rfl⟩
  have hpfx : ∀ i, (n.withLock.truncatePrefix p).2.unlocked.pfx i =
      if i < getPrefixLen n.version - p - 1 then n.pfx (i + p + 1) else n.pfx i := by
    intro i
    have hprefixLen : getPrefixLen (setExpand n.withLock.version) = getPrefixLen n.version :=
      (congrArg Header.prefixLen header_setExpand).trans hlen
    rw [← truncate_fold, ← hprefixLen]
    rfl
  have hlength : getPrefixLen (n.withLock.truncatePrefix p).2.unlocked.version =
    getPrefixLen n.version - p - 1 :=
    congrArg Header.prefixLen hunlocked
  refine List.ext_getElem? fun i => ?_
  rw [prefixBytes, prefixBytes, hlength, List.getElem?_map, List.getElem?_drop, List.getElem?_map]
  by_cases hi : i < getPrefixLen n.version - p - 1
  · rw [List.getElem?_range hi, List.getElem?_range (by omega), Option.map_some, Option.map_some, hpfx,
      if_pos hi]
    congr 2
    omega
  · rw [List.getElem?_eq_none (by rw [List.length_range]; omega),
      List.getElem?_eq_none (by rw [List.length_range]; omega)]
    rfl

/-! ### Growing -/

/-- The nodes whose parent is set are the children. -/
theorem mem_moved (h : n.Wf) (hfull : n.isFull = true) {c : Ptr} :
    some c ∈ n.moved ↔ ∃ b, n.get b = some c := by
  have h256 : getType n.version ≠ node256 := by
    intro e
    rw [isFull, if_neg (e ▸ node256_ne.1), if_neg (e ▸ node256_ne.2.1), if_neg (e ▸ node256_ne.2.2)] at hfull
    exact absurd hfull Bool.false_ne_true
  rw [isFull_eq h256, beq_iff_eq] at hfull
  have hsmall : ∀ ht : getType n.version = node4 ∨ getType n.version = node16,
      some c ∈ (List.range (getCount n.version)).map n.child ↔ ∃ b, n.get b = some c := by
    intro ht
    rw [List.mem_map]
    constructor
    · rintro ⟨i, hi, hc⟩
      exact ⟨n.key i, (get_eq_some ((findChild_small h ht).mpr ⟨List.mem_range.mp hi, rfl⟩)).trans hc⟩
    · rintro ⟨b, hb⟩
      obtain ⟨i, hi, hc⟩ := Option.bind_eq_some_iff.mp hb
      exact ⟨i, List.mem_range.mpr ((findChild_small h ht).mp hi).1, hc⟩
  rcases getType_cases n.version with ht | ht | ht | ht
  · rw [moved, if_pos ht, ← hsmall (.inl ht), hfull, ht]
    rfl
  · rw [moved, if_neg (ht ▸ node16_ne.1), if_pos ht, ← hsmall (.inr ht), hfull, ht]
    rfl
  · rw [moved, if_neg (ht ▸ node48_ne.1), if_neg (ht ▸ node48_ne.2.1), List.mem_map]
    have hget : ∀ b, n.get b = if n.index b ≠ 0 then n.child ((n.index b).toNat - 1) else none := by
      intro b
      rw [get, findChild, if_neg (ht ▸ node48_ne.1), if_neg (ht ▸ node48_ne.2.1), if_pos ht]
      by_cases hb : n.index b ≠ 0
      · rw [if_pos hb, if_pos hb, Option.bind_some]
      · rw [if_neg hb, if_neg hb, Option.bind_none]
    constructor
    · rintro ⟨i, -, hc⟩
      exact ⟨UInt8.ofNat i, (hget _).trans hc⟩
    · rintro ⟨b, hb⟩
      exact ⟨b.toNat, List.mem_range.mpr b.toNat_lt, by rw [UInt8.ofNat_toNat, ← hget, hb]⟩
  · exact absurd ht h256

/-- What a node is that has taken the place of a full one, with one child more. -/
structure Filled (n m : Node) (byte : UInt8) (c : Ptr) : Prop where
  wf : m.Wf
  quiet : m.Quiet
  offset : getOffset m.version = getOffset n.version
  pfx : m.prefixBytes = n.prefixBytes
  get : ∀ b, m.get b = if b = byte then some c else n.get b

theorem Filled.with_parent {m : Node} {byte : UInt8} {c : Ptr} (h : Filled n m byte c) (parent : Option ℕ) :
    Filled n { m with parent := parent } byte c :=
  have hsame : SameChildren { m with parent := parent } m := ⟨rfl, rfl, rfl, rfl, rfl⟩
  ⟨hsame.wf h.wf, ⟨h.quiet.old, h.quiet.locked, h.quiet.expanding⟩, h.offset, h.pfx,
    fun b => (hsame.get b).trans (h.get b)⟩

/-- What the lock of the old node was does not matter. -/
theorem Filled.of_withLock {m : Node} {byte : UInt8} {c : Ptr} (h : Filled n.withLock m byte c) :
    Filled n m byte c :=
  ⟨h.wf, h.quiet, h.offset.trans (congrArg Header.offset header_setLock), h.pfx.trans (withLock_prefixBytes n),
    fun b => (h.get b).trans (by rw [(withLock_same n).get])⟩

/-- A child put into a node with room for it, under its lock. -/
theorem filled_room {byte : UInt8} {c : Ptr} (h : n.Wf) (hq : n.Quiet) (hroom : n.isFull = false)
    (hnew : n.get byte = none) :
    n.withLock.findChild n.withLock.version byte = none ∧ n.withLock.isFull = false ∧
      Filled n (n.withLock.append n.withLock.version byte c).unlocked byte c ∧
      (n.withLock.append n.withLock.version byte c).unlocked.parent = n.parent := by
  have hsame := withLock_same n
  have hwf := hsame.wf h
  have hfind : n.withLock.findChild n.withLock.version byte = none :=
    (hsame.findChild byte).trans ((get_eq_none_iff h).mp hnew)
  have hfull : n.withLock.isFull = false := hsame.isFull.trans hroom
  have hlock : Art.header n.withLock.version = { Art.header n.version with locked := true } := header_setLock
  obtain ⟨⟨count, hheader⟩, hpfx, hparent⟩ := append_rest hwf hfull byte c
  have hunlocked := header_unlocked (n.withLock.append n.withLock.version byte c)
  rw [hheader, hlock] at hunlocked
  have hdone : SameChildren (n.withLock.append n.withLock.version byte c).unlocked
    (n.withLock.append n.withLock.version byte c) :=
    unlocked_same _
  refine ⟨hfind, hfull, ⟨hdone.wf (hwf.append hfull hfind c),
    ⟨(congrArg Header.old hunlocked).trans hq.old, congrArg Header.locked hunlocked,
      congrArg Header.expanding hunlocked⟩,
    congrArg Header.offset hunlocked, ?_, fun b => ?_⟩, hparent⟩
  · exact prefixBytes_congr (congrArg Header.prefixLen hunlocked) hpfx
  · exact (hdone.get b).trans ((get_append hwf hfull hfind c b).trans (by rw [hsame.get]))

theorem Grown.filled {m : Node} {byte : UInt8} {c : Ptr} (h : Grown n m) (hnew : n.get byte = none)
    (hoff : getOffset n.version = off) (hlt : off < 256) :
    (m.withLock.setOffset off).findChild (m.withLock.setOffset off).version byte = none ∧
      (m.withLock.setOffset off).isFull = false ∧
      Filled n ((m.withLock.setOffset off).append (m.withLock.setOffset off).version byte c).unlocked byte c ∧
      ((m.withLock.setOffset off).append (m.withLock.setOffset off).version byte c).parent = none := by
  let m₁ := m.withLock.setOffset off
  have hsame₁ : SameChildren m₁ m.withLock := setOffset_same m.withLock hlt
  have hsame : SameChildren m.withLock m := withLock_same m
  have hget : ∀ b, m₁.get b = n.get b := fun b => (hsame₁.get b).trans ((hsame.get b).trans (h.get b))
  have hwf : m₁.Wf := hsame₁.wf (hsame.wf h.wf)
  have hfind : m₁.findChild m₁.version byte = none := (get_eq_none_iff hwf).mp ((hget byte).trans hnew)
  have hfull : m₁.isFull = false := hsame₁.isFull.trans (hsame.isFull.trans h.room)
  have hheader₁ : Art.header m₁.version =
      ⟨off, getCount m.version, getPrefixLen n.version, getType m.version, false, true, false, 0⟩ :=
    (header_setOffset (v := setLock m.version) hlt).trans (by rw [header_setLock, h.header])
  obtain ⟨⟨count, hheader⟩, hpfx, hparent⟩ := append_rest hwf hfull byte c
  have hunlocked := header_unlocked (m₁.append m₁.version byte c)
  have hexp : isExpanding (m₁.append m₁.version byte c).version = false :=
    (congrArg Header.expanding hheader).trans (congrArg Header.expanding hheader₁)
  rw [hexp, hheader, hheader₁] at hunlocked
  have hdone : SameChildren (m₁.append m₁.version byte c).unlocked (m₁.append m₁.version byte c) :=
    unlocked_same _
  refine ⟨hfind, hfull, ⟨hdone.wf (hwf.append hfull hfind c),
    ⟨congrArg Header.old hunlocked, congrArg Header.locked hunlocked,
    congrArg Header.expanding hunlocked⟩, (congrArg Header.offset hunlocked).trans hoff.symm, ?_, fun b => ?_⟩,
    hparent.trans h.parent⟩
  · exact prefixBytes_congr (congrArg Header.prefixLen hunlocked) (hpfx.trans h.pfx)
  · exact (hdone.get b).trans ((get_append hwf hfull hfind c b).trans (by rw [hget]))

end Node

theorem adopt_eq (heap : ℕ → Node) (new_ : ℕ) (children : List (Option Ptr)) (b : ℕ) :
    adopt heap new_ children b =
      if some (.node b) ∈ children then { heap b with parent := some new_ } else heap b := by
  induction children generalizing heap with
  | nil => rfl
  | cons c children ih =>
    rw [adopt, List.foldl_cons]
    refine (ih _).trans ?_
    match c with
    | none => simp
    | some (.leaf l) => simp
    | some (.node d) =>
      by_cases hbd : b = d
      · subst hbd
        simp
      · simp [hbd]

namespace AdaptiveRadixTree

/-! ### Steps -/

variable {s : AdaptiveRadixTree} {a u new_ : ℕ} {m : Node} {c : Ptr} {ptr : Slot}

@[simp] theorem set_heap_self : (s.set a n).heap a = n := Function.update_self ..

theorem set_heap_ne (h : u ≠ a) : (s.set a n).heap u = s.heap u := Function.update_of_ne h ..

@[simp] theorem set_next : (s.set a n).next = s.next := rfl

@[simp] theorem set_set : (s.set a n).set a m = s.set a m := by
  simp only [set, Function.update_idem]

/-- What is there already is stored. -/
theorem store_load (h : s.load ptr = some c) : s.store ptr c = s := by
  cases ptr with
  | root =>
    rw [store, ← h]
    rfl
  | child a i =>
    have hchild : (s.heap a).store i c = s.heap a := by
      rw [Node.store, ← h]
      exact congrArg (fun child => { s.heap a with child := child }) (Function.update_eq_self i _)
    rw [store, hchild, set, Function.update_eq_self]

theorem lock_eq (h : (s.heap a).Quiet) : s.lock a = .ok (false, s.set a (s.heap a).withLock) := by
  rw [lock, if_neg (by rw [h.locked]; exact Bool.false_ne_true),
    if_neg (by rw [h.old]; exact Bool.false_ne_true)]
  rfl

theorem assertLock_eq (h : (s.heap a).Quiet) : s.assertLock a = .ok (s.set a (s.heap a).withLock) := by
  rw [assertLock, lock_eq h]

theorem addChild_room (h : (s.heap a).findChild (s.heap a).version b = none) (hfull : (s.heap a).isFull = false)
    (hasNew : Bool) :
    s.addChild a b c hasNew = .ok (none, none, s.set a ((s.heap a).append (s.heap a).version b c)) := by
  rw [addChild, h]
  dsimp only
  rw [if_neg (by rw [hfull]; exact Bool.false_ne_true)]

theorem assertAddChild_eq (h : (s.heap a).findChild (s.heap a).version b = none)
    (hfull : (s.heap a).isFull = false) :
    s.assertAddChild a b c = .ok (s.set a ((s.heap a).append (s.heap a).version b c)) := by
  rw [assertAddChild, addChild_room h hfull]

/-- The memory without its next free place. -/
def fresh (s : AdaptiveRadixTree) : AdaptiveRadixTree := { s with next := s.next + 1 }

theorem alloc_eq (s : AdaptiveRadixTree) (make : Node → Node) :
    s.alloc make = (s.next, s.fresh.set s.next (make (s.heap s.next))) := rfl

theorem quiet_new (mem : Node) (hoff : off < 256) : (mem.newNode4.setOffset off).Quiet := by
  have h : header (mem.newNode4.setOffset off).version = ⟨off, 0, 0, node4, false, false, false, 0⟩ :=
    (header_setOffset (v := setType 0 node4) hoff).trans rfl
  exact ⟨congrArg Header.old h, congrArg Header.locked h, congrArg Header.expanding h⟩

/-- Where two keys of one length stop agreeing, they have different bytes. -/
theorem getD_common_ne (hlen : k.length = key.length) (hne : k ≠ key) :
    common k key < key.length ∧ key.getD (common k key) 0 ≠ k.getD (common k key) 0 := by
  have hlt : common k key < key.length :=
    lt_of_le_of_ne common_le_right fun e => hne ((common_eq_length_iff hlen).mp e)
  refine ⟨hlt, fun e => ?_⟩
  exact absurd ((lt_common_iff le_rfl 0).mpr ⟨hlen ▸ hlt, hlt, e.symm⟩) (lt_irrefl _)

theorem replaceLeafChild_self (hlen : key.length < 128) (hoff : off ≤ key.length) :
    s.replaceLeafChild (allocLeaf key key.length) key key.length off = .ok (none, s) := by
  have hkey : (allocLeaf key key.length).key = key := List.take_length
  have hdiffer : differ key key key.length key.length key.length off = key.length :=
    (differ_eq (by rwa [common_self]) (by omega)).trans (common_self key)
  rw [replaceLeafChild, getLeafLen_allocLeaf hlen, hkey, hdiffer, if_pos ⟨rfl, rfl⟩]

/-- **A leaf replaced**: by a node with the two keys, if they agree on no more than eight bytes from `off` on. -/
theorem replaceLeafChild_eq (hk : k.length = key.length) (hlen : key.length < 128) (hoff : off ≤ common k key)
    (hne : k ≠ key) :
    s.replaceLeafChild (allocLeaf k key.length) key key.length off =
      if common k key - off ≤ 8 then
        .ok (some s.next, s.fresh.set s.next
          (Node.paired (s.heap s.next) k off off (common k key - off) (k.getD (common k key) 0)
            (key.getD (common k key) 0)
            (.leaf (allocLeaf k key.length)) (.leaf (allocLeaf key key.length))))
      else .error .assert := by
  obtain ⟨hlt, hbyte⟩ := getD_common_ne hk hne
  have hkey : (allocLeaf k key.length).key = k := hk ▸ List.take_length
  have hleaf : (allocLeaf k key.length).getLeafLen = key.length := hk ▸ getLeafLen_allocLeaf (hk ▸ hlen)
  have hdiffer : differ k key key.length key.length key.length off = common k key := by
    have hwhole : differ k key k.length key.length key.length off = common k key := differ_eq hoff (by omega)
    rwa [hk] at hwhole
  rw [replaceLeafChild, hkey, hleaf, hdiffer, if_neg (fun h => hlt.ne h.1), alloc_eq]
  dsimp only
  rw [set_heap_self, set_set, assertLock_eq (by rw [set_heap_self]; exact quiet_new _ (by omega)),
    set_heap_self, set_set]
  simp only [bind, Except.bind]
  by_cases h8 : common k key - off ≤ 8
  · obtain ⟨⟨hfind₀, hfull₀⟩, ⟨hfind₁, hfull₁⟩, -, -⟩ :=
      Node.pair (s.heap s.next) k off off (common k key - off)
      (.leaf (allocLeaf k key.length)) (.leaf (allocLeaf key key.length))
      (by omega) (by omega) (by omega) hbyte
    rw [if_pos h8, if_pos h8, if_neg hlt.ne, if_neg hlt.ne, set_heap_self, set_set,
      assertAddChild_eq (by rw [set_heap_self]; exact hfind₀) (by rw [set_heap_self]; exact hfull₀),
        set_heap_self, set_set]
    dsimp only
    rw [assertAddChild_eq (by rw [set_heap_self]; exact hfind₁) (by rw [set_heap_self]; exact hfull₁),
      set_heap_self, set_set]
    dsimp only [unlock]
    rw [set_heap_self, set_set]
    rfl
  · rw [if_neg h8, if_neg h8]

theorem set_comm (h : a ≠ u) : (s.set a n).set u m = (s.set u m).set a n := by
  simp only [set, Function.update_comm h]

@[simp] theorem fresh_heap : s.fresh.heap = s.heap := rfl

/-- **A prefix cut**: a node with its beginning takes the place of the one that keeps its end. -/
theorem expandAndInsert_eq {p : ℕ} (ha : a ≠ s.next) (hlen : key.length < 128) (hin : off + p < key.length)
    (hbyte : ((s.heap a).truncatePrefix p).1 ≠ key.getD (off + p) 0) :
    s.expandAndInsert a key key.length off p = .ok (s.next,
      (s.fresh.set a ((s.heap a).truncatePrefix p).2).set s.next
      (Node.paired (s.heap s.next) key off off p (key.getD (off + p) 0) ((s.heap a).truncatePrefix p).1
        (.leaf (allocLeaf key key.length)) (.node a))) := by
  obtain ⟨⟨hfind₀, hfull₀⟩, ⟨hfind₁, hfull₁⟩, -, -⟩ := Node.pair (s.heap s.next) key off off p
    (.leaf (allocLeaf key key.length)) (.node a) (by omega) (by omega) (by omega) hbyte
  rw [expandAndInsert, alloc_eq]
  dsimp only
  rw [set_heap_self, set_set, assertLock_eq (by rw [set_heap_self]; exact quiet_new _ (by omega)),
    set_heap_self, set_set]
  simp only [bind, Except.bind]
  rw [if_pos hin, set_heap_self, set_set,
    assertAddChild_eq (by rw [set_heap_self]; exact hfind₀) (by rw [set_heap_self]; exact hfull₀),
      set_heap_self, set_set]
  dsimp only
  rw [set_heap_ne ha, fresh_heap, set_comm ha.symm,
    assertAddChild_eq (by rw [set_heap_self]; exact hfind₁) (by rw [set_heap_self]; exact hfull₁),
      set_heap_self, set_set]
  dsimp only [unlock]
  rw [set_heap_self, set_set]
  rfl

/-! ### A node put in a place -/

theorem getLockedParent_none (h : (s.heap a).parent = none) : s.getLockedParent a = .ok (none, s) := by
  rw [getLockedParent, h]

theorem getLockedParent_some (h : (s.heap a).parent = some u) (hu : (s.heap u).Quiet) :
    s.getLockedParent a = .ok (some u, s.set u (s.heap u).withLock) := by
  rw [getLockedParent, h]
  dsimp only
  rw [lock_eq hu]

/-- A lock around a store leaves the store. -/
theorem unlock_store {i : ℕ} (hu : (s.heap u).Quiet) (c : Ptr) :
    ((s.set u (s.heap u).withLock).store (.child u i) c).unlock u = s.store (.child u i) c := by
  have hstore : ((s.heap u).withLock.store i c).unlocked = (s.heap u).store i c :=
    Node.Quiet.unlocked_withLock (n := (s.heap u).store i c) ⟨hu.old, hu.locked, hu.expanding⟩
  rw [store, set_heap_self, set_set, unlock, set_heap_self, set_set, hstore]
  rfl

/-- A parent locked gets the new node as its child, and is unlocked. -/
theorem place_some {i : ℕ} (hu : (s.heap u).Quiet) (hi : (s.heap u).findChild (s.heap u).version b = some i)
    (hne : u ≠ new_) :
    (s.set u (s.heap u).withLock).place (some u) ptr b new_ =
      .ok ((s.store (.child u i) (.node new_)).set new_ { s.heap new_ with parent := some u }) := by
  rw [place, replaceChild, set_heap_self, (Node.withLock_same _).findChild, hi]
  have hheap : ((s.set u (s.heap u).withLock).store (.child u i) (.node new_)).heap new_ = s.heap new_ := by
    rw [store, set_heap_ne hne.symm, set_heap_ne hne.symm]
  simp only [bind, Except.bind]
  rw [hheap, ← unlock_store (i := i) hu, unlock, unlock, set_heap_ne hne, set_comm hne.symm]

theorem grow_eq (h : (s.heap a).Wf) (hfull : (s.heap a).isFull = true) (ha : a ≠ s.next)
    (hnext : ∀ b, (s.heap a).get b ≠ some (.node s.next)) (hself : ∀ b, (s.heap a).get b ≠ some (.node a)) :
    ∃ m s', s.grow a = .ok (s.next, s') ∧ Node.Grown (s.heap a) m ∧ s'.root = s.root ∧ s'.next = s.next + 1 ∧
      s'.heap s.next = m.withLock.setOffset (getOffset (s.heap a).version) ∧
      s'.heap a = { s.heap a with new_ := some s.next, version := setOld (s.heap a).version } ∧
      ∀ d, d ≠ s.next → d ≠ a → s'.heap d =
        if ∃ b, (s.heap a).get b = some (.node d) then { s.heap d with parent := some s.next }
        else s.heap d := by
  obtain ⟨m, hm, hgrown⟩ := Node.grown_of_full h hfull (s.heap s.next)
  have hmoved : ∀ d, some (Ptr.node d) ∈ (s.heap a).moved ↔ ∃ b, (s.heap a).get b = some (.node d) :=
    fun d => Node.mem_moved h hfull
  let t : AdaptiveRadixTree :=
    { s.fresh.set s.next m with heap := adopt (s.fresh.set s.next m).heap s.next (s.heap a).moved }
  have hnew : t.heap s.next = m := by
    refine (adopt_eq ..).trans ((if_neg fun hmem => ?_).trans set_heap_self)
    obtain ⟨b, hb⟩ := (hmoved _).mp hmem
    exact hnext b hb
  have hold : t.heap a = s.heap a := by
    refine (adopt_eq ..).trans ((if_neg fun hmem => ?_).trans (set_heap_ne ha))
    obtain ⟨b, hb⟩ := (hmoved _).mp hmem
    exact hself b hb
  have hquiet : (t.heap s.next).Quiet := by
    rw [hnew]
    exact ⟨congrArg Header.old hgrown.header, congrArg Header.locked hgrown.header,
      congrArg Header.expanding hgrown.header⟩
  refine ⟨m, (t.set s.next (m.withLock.setOffset (getOffset (s.heap a).version))).set a
    { s.heap a with new_ := some s.next, version := setOld (s.heap a).version }, ?_, hgrown, rfl, rfl, ?_,
      set_heap_self,
    fun d hd hda => ?_⟩
  · rw [grow, hm]
    dsimp only
    rw [alloc_eq]
    dsimp only
    rw [show ({ s.fresh.set s.next m with heap := _ } : AdaptiveRadixTree) = t from rfl, assertLock_eq hquiet]
    simp only [bind, Except.bind, set_heap_self, set_set, set_heap_ne ha, hnew, hold]
  · rw [set_heap_ne ha.symm, set_heap_self]
  · rw [set_heap_ne hda, set_heap_ne hd]
    refine (adopt_eq ..).trans ?_
    rw [set_heap_ne hd]
    exact if_congr (hmoved d) rfl rfl

theorem getOffset_lt (v : BitVec 64) : getOffset v < 256 := by
  rw [getOffset_eq]
  exact getField_lt 54 8 v

/-- **A child added to a full node**: another node takes its place, with its children and this one. -/
theorem addChild_full (h : (s.heap a).Wf) (hfull : (s.heap a).isFull = true) (hnew : (s.heap a).get b = none)
    (ha : a ≠ s.next) (hnext : ∀ b, (s.heap a).get b ≠ some (.node s.next))
    (hself : ∀ b, (s.heap a).get b ≠ some (.node a)) :
    ∃ m s', s.addChild a b c true = .ok (none, some s.next, s') ∧
      Node.Filled (s.heap a) m b c ∧ m.parent = none ∧
      s'.root = s.root ∧ s'.next = s.next + 1 ∧ s'.heap s.next = m ∧
      s'.heap a = { s.heap a with new_ := some s.next, version := setOld (s.heap a).version } ∧
      ∀ d, d ≠ s.next → d ≠ a → s'.heap d =
        if ∃ b, (s.heap a).get b = some (.node d) then { s.heap d with parent := some s.next }
        else s.heap d := by
  obtain ⟨m, s', hgrow, hgrown, hroot, hnext', hm, hold, hother⟩ := grow_eq h hfull ha hnext hself
  obtain ⟨hfind, hroom, hfilled, hparent⟩ := hgrown.filled (c := c) hnew rfl (getOffset_lt _)
  refine ⟨_, s'.set s.next _, ?_, hfilled, hparent, hroot, hnext', set_heap_self, ?_, fun d hd hda => ?_⟩
  · rw [addChild, (Node.get_eq_none_iff h).mp hnew]
    dsimp only
    rw [if_pos hfull, if_pos rfl, hgrow]
    simp only [bind, Except.bind, unlock, set_heap_self, set_set, hm]
  · rw [set_heap_ne ha, hold]
  · rw [set_heap_ne hd, hother d hd hda]

/-- The place is where the node `up`, on which no thread is at work, has its child under the byte. -/
def SlotAt (s : AdaptiveRadixTree) (up : Option ℕ) (ptr : Slot) (b : UInt8) : Prop :=
  match up with
  | none => ptr = .root
  | some u => ∃ i, ptr = .child u i ∧ (s.heap u).findChild (s.heap u).version b = some i ∧ (s.heap u).Quiet

theorem set_heap_same (h : s.heap a = n) : s.set a n = s := by
  rw [set, ← h, Function.update_eq_self]

theorem store_heap_ne {d : ℕ} (h : ∀ i, ptr ≠ .child d i) : (s.store ptr c).heap d = s.heap d := by
  cases ptr with
  | root => rfl
  | child u i => exact set_heap_ne fun e => h i (e ▸ rfl)

/-- The place is in no other node. -/
theorem SlotAt.ne {up : Option ℕ} {d : ℕ} (h : s.SlotAt up ptr b) (hup : ∀ u, up = some u → u ≠ d)
    (i : ℕ) : ptr ≠ .child d i := by
  intro e
  cases up with
  | none => exact absurd (h.symm.trans e) (by simp)
  | some u =>
    obtain ⟨j, hj, -⟩ := h
    rw [hj] at e
    injection e with e
    exact hup u rfl e

theorem SlotAt.congr {up : Option ℕ} {t : AdaptiveRadixTree} (h : s.SlotAt up ptr b)
    (hheap : ∀ u, up = some u → t.heap u = s.heap u) : t.SlotAt up ptr b := by
  cases up with
  | none => exact h
  | some u =>
    obtain ⟨i, hptr, hi, hu⟩ := h
    rw [← hheap u rfl] at hi hu
    exact ⟨i, hptr, hi, hu⟩

/-- Where two memories agree, they do after a store. -/
theorem store_heap_congr {t : AdaptiveRadixTree} {d : ℕ} (h : t.heap d = s.heap d) (ptr : Slot) (c : Ptr) :
    (t.store ptr c).heap d = (s.store ptr c).heap d := by
  cases ptr with
  | root => exact h
  | child u i =>
    by_cases hdu : d = u
    · subst hdu
      rw [store, store, set_heap_self, set_heap_self, h]
    · rw [store, store, set_heap_ne hdu, set_heap_ne hdu, h]

theorem store_root_congr {t : AdaptiveRadixTree} (h : t.root = s.root) (ptr : Slot) (c : Ptr) :
    (t.store ptr c).root = (s.store ptr c).root := by
  cases ptr with
  | root => rfl
  | child u i => exact h

@[simp] theorem store_next (ptr : Slot) (c : Ptr) : (s.store ptr c).next = s.next := by
  cases ptr <;> rfl

/-- **A node linked**: whether the node it replaces knows its parent or not, it gets into the same place. -/
theorem link_eq {up : Option ℕ} (hslot : s.SlotAt up ptr b)
    (hparent : (s.heap a).parent = none ∨ (s.heap a).parent = up)
    (hup : ∀ u, up = some u → u ≠ a ∧ u ≠ new_) (hnew : (s.heap new_).parent = none) (hne : a ≠ new_)
    (n : Node) :
    ∃ parent t, s.getLockedParent a = .ok (parent, t) ∧ t.heap a = s.heap a ∧
      (t.set a n).place parent ptr b new_ =
        .ok (((s.set a n).store ptr (.node new_)).set new_
          { s.heap new_ with parent := (s.heap a).parent }) := by
  cases hx : (s.heap a).parent with
  | none =>
    refine ⟨none, s, getLockedParent_none hx, rfl, ?_⟩
    have hheap : ((s.set a n).store ptr (.node new_)).heap new_ = s.heap new_ :=
      (store_heap_ne (hslot.ne fun u hu => (hup u hu).2)).trans (set_heap_ne hne.symm)
    rw [set_heap_same (hheap.trans ?_)]
    · rfl
    · rw [← hnew]
  | some u =>
    rw [hx] at hparent
    obtain rfl : some u = up := hparent.resolve_left (Option.some_ne_none u)
    obtain ⟨i, rfl, hi, hu⟩ := hslot
    obtain ⟨hua, hun⟩ := hup u rfl
    have hheap : (s.set a n).heap u = s.heap u := set_heap_ne hua
    refine ⟨some u, _, getLockedParent_some hx hu, set_heap_ne hua.symm, ?_⟩
    rw [set_comm hua, ← hheap, place_some (i := i) (hheap ▸ hu) (hheap ▸ hi) hun, set_heap_ne hne.symm]

end AdaptiveRadixTree

end SidleBaselines.Art
