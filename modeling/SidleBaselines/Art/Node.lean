import SidleBaselines.Art.Version

/-!
# The nodes of ART

A node has up to 4, 16, 48 or 256 children, each under a byte. The two smaller types list the bytes
in the order they came in (`key`), one scanned, the other searched with one comparison of sixteen
bytes; `node48` has an index of all bytes into its children; `node256` is its own index. A full node
is copied to one of the next type.

## What is proved

* `get_append` — a child added is found under its byte, and the others under theirs.
* `get_store` — so they are when one is replaced.
* `grown_of_full` — a node grown has the children of the old one.
-/

namespace SidleBaselines.Art

/-! ### What the code does -/

/-- What `alloc_leaf` lays out: the length, as a `char`, and the bytes. -/
structure Leaf where
  len : UInt8
  key : List UInt8
deriving DecidableEq

/-- `get_leaf_len`: a `char` converted to a `size_t`. -/
def Leaf.getLeafLen (l : Leaf) : ℕ := (l.len.toInt8.toInt % 2 ^ 64).toNat

/-- `alloc_leaf(key, len)`. -/
def allocLeaf (key : List UInt8) (len : ℕ) : Leaf := ⟨UInt8.ofNat len, key.take len⟩

/-- An `art_node *`: its last bit says which of the two it is. -/
inductive Ptr where
  | leaf (l : Leaf)
  | node (a : ℕ)
deriving DecidableEq

/-- An `art_node`, with the arrays of all four types. -/
structure Node where
  version : BitVec 64
  /-- `prefix`. -/
  pfx : ℕ → UInt8
  new_ : Option ℕ
  parent : Option ℕ
  /-- Of `art_node4` and `art_node16`. -/
  key : ℕ → UInt8
  /-- Of `art_node48`. -/
  index : UInt8 → UInt8
  child : ℕ → Option Ptr

namespace Node

/-- `_new_art_node`, which leaves the rest of the memory it gets as it is. -/
def new (mem : Node) : Node := { mem with version := 0, new_ := none, parent := none }

/-- `new_art_node4`. -/
def newNode4 (mem : Node) : Node := { mem.new with version := setType 0 node4 }

/-- `new_art_node16`. -/
def newNode16 (mem : Node) : Node := { mem.new with version := setType 0 node16 }

/-- `new_art_node48`. -/
def newNode48 (mem : Node) : Node := { mem.new with version := setType 0 node48, index := fun _ => 0 }

/-- `new_art_node256`, all of it set to zero. -/
def newNode256 (mem : Node) : Node :=
  { mem.new with version := setType 0 node256, pfx := fun _ => 0, child := fun _ => none }

/-- `_mm_movemask_epi8` of the sixteen comparisons with a byte. -/
def movemask (n : Node) (byte : UInt8) : BitVec 32 :=
  (BitVec.ofBoolListLE ((List.range 16).map fun i => n.key i == byte)).setWidth 32

/-- `art_node_find_child`: where in `child` it is. -/
def findChild (n : Node) (version : BitVec 64) (byte : UInt8) : Option ℕ :=
  if getType version = node4 then
    (List.range (getCount version)).find? fun i => n.key i == byte
  else if getType version = node16 then
    let mask := (1#32 <<< getCount version) - 1
    let bitfield := n.movemask byte &&& mask
    if bitfield ≠ 0 then some bitfield.ctz.toNat else none
  else if getType version = node48 then
    if n.index byte ≠ 0 then some ((n.index byte).toNat - 1) else none
  else if n.child byte.toNat ≠ none then some byte.toNat else none

/-- `art_node_is_full`. -/
def isFull (n : Node) : Bool :=
  if getType n.version = node4 then getCount n.version == 4
  else if getType n.version = node16 then getCount n.version == 16
  else if getType n.version = node48 then getCount n.version == 48
  else false

/-- The new node in `art_node_grow`, but for its lock and offset: `node256` cannot grow. -/
def grown (n mem : Node) : Option Node :=
  if getType n.version = node4 then
    let new_ := mem.newNode16
    some { new_ with
      pfx := n.pfx
      key := fun i => if i < 4 then n.key i else new_.key i
      child := fun i => if i < 4 then n.child i else new_.child i
      version := setCount (setPrefixLen new_.version (getPrefixLen n.version)) 4 }
  else if getType n.version = node16 then
    let new_ := mem.newNode48
    some { new_ with
      pfx := n.pfx
      child := fun i => if i < 16 then n.child i else new_.child i
      index := (List.range 16).foldl (fun index i => Function.update index (n.key i) (UInt8.ofNat (i + 1)))
        new_.index
      version := setCount (setPrefixLen new_.version (getPrefixLen n.version)) 16 }
  else if getType n.version = node48 then
    let new_ := mem.newNode256
    some { new_ with
      pfx := n.pfx
      child := fun i =>
        if i < 256 ∧ n.index (UInt8.ofNat i) ≠ 0 then n.child ((n.index (UInt8.ofNat i)).toNat - 1)
        else new_.child i
      version := setPrefixLen new_.version (getPrefixLen n.version) }
  else none

/-- The `switch` of `art_node_add_child`, of a node with room for a child. -/
def append (n : Node) (version : BitVec 64) (byte : UInt8) (child : Ptr) : Node :=
  if getType version = node4 then
    let count := getCount version
    { n with
      child := Function.update n.child count (some child)
      key := Function.update n.key count byte
      version := incrCount version }
  else if getType version = node16 then
    let count := getCount version
    { n with
      child := Function.update n.child count (some child)
      key := Function.update n.key count byte
      version := incrCount version }
  else if getType version = node48 then
    let version := incrCount version
    { n with
      child := Function.update n.child (getCount version - 1) (some child)
      index := Function.update n.index byte (UInt8.ofNat (getCount version))
      version := version }
  else { n with child := Function.update n.child byte.toNat (some child) }

/-! ### Well-formed nodes -/

/-- The child under a byte. -/
def get (n : Node) (byte : UInt8) : Option Ptr := (n.findChild n.version byte).bind n.child

/-- The children a node of a type other than `node256` has room for. -/
def capacity (type : BitVec 64) : ℕ := if type = node4 then 4 else if type = node16 then 16 else 48

/-- What each type of node keeps. -/
structure Wf (n : Node) : Prop where
  count_le : getType n.version ≠ node256 → getCount n.version ≤ capacity (getType n.version)
  children : getType n.version ≠ node256 → ∀ i < getCount n.version, n.child i ≠ none
  /-- No byte is listed twice. -/
  distinct : getType n.version = node4 ∨ getType n.version = node16 →
    ∀ i < getCount n.version, ∀ j < getCount n.version, n.key i = n.key j → i = j
  /-- No child has two bytes. -/
  index : getType n.version = node48 →
    (∀ b, (n.index b).toNat ≤ getCount n.version) ∧ ∀ b b', n.index b = n.index b' → n.index b ≠ 0 → b = b'

theorem node256_ne : (node256 : BitVec 64) ≠ node4 ∧ (node256 : BitVec 64) ≠ node16 ∧
    (node256 : BitVec 64) ≠ node48 := by
  decide

theorem node48_ne : (node48 : BitVec 64) ≠ node4 ∧ (node48 : BitVec 64) ≠ node16 ∧
    (node48 : BitVec 64) ≠ node256 := by
  decide

theorem node16_ne : (node16 : BitVec 64) ≠ node4 ∧ (node16 : BitVec 64) ≠ node48 ∧
    (node16 : BitVec 64) ≠ node256 := by
  decide

theorem node4_ne : (node4 : BitVec 64) ≠ node16 ∧ (node4 : BitVec 64) ≠ node48 ∧
    (node4 : BitVec 64) ≠ node256 := by
  decide

/-- The four types are all there are. -/
theorem getType_cases (v : BitVec 64) :
    getType v = node4 ∨ getType v = node16 ∨ getType v = node48 ∨ getType v = node256 := by
  have hbits : ∀ i, (getType v).getLsbD i = (v.getLsbD i && (decide (i = 20) || decide (i = 21))) := by
    intro i
    rw [getType, BitVec.getLsbD_and, getLsbD_node256]
  have hzero : ∀ (c : Bool) (x : BitVec 64) (i : ℕ), (if c then x else 0).getLsbD i = (c && x.getLsbD i) := by
    intro c x i
    cases c <;> simp
  have h : getType v = (if v.getLsbD 20 then 1#64 <<< 20 else 0) |||
    (if v.getLsbD 21 then 1#64 <<< 21 else 0) := by
    refine BitVec.eq_of_getLsbD_eq fun i hi => ?_
    rw [hbits, BitVec.getLsbD_or, hzero, hzero, getLsbD_flag (by omega), getLsbD_flag (by omega)]
    rcases Decidable.em (i = 20) with rfl | h20
    · rw [decide_eq_true rfl, Bool.true_or, decide_eq_false (by omega), Bool.and_false, Bool.or_false]
    · rw [decide_eq_false h20, Bool.false_or, Bool.and_false, Bool.false_or]
      rcases Decidable.em (i = 21) with rfl | h21
      · rfl
      · rw [decide_eq_false h21, Bool.and_false, Bool.and_false]
  cases h20 : v.getLsbD 20 <;> cases h21 : v.getLsbD 21 <;> rw [h20, h21] at h
  · exact .inl h
  · exact .inr (.inr (.inl h))
  · exact .inr (.inl h)
  · exact .inr (.inr (.inr h))

/-- The two smaller types. -/
theorem small_of_ne {v : BitVec 64} (h256 : getType v ≠ node256) (h48 : getType v ≠ node48) :
    getType v = node4 ∨ getType v = node16 := by
  rcases getType_cases v with h | h | h | h
  · exact .inl h
  · exact .inr h
  · exact absurd h h48
  · exact absurd h h256

variable {n mem : Node} {b byte : UInt8} {i : ℕ} {c : Ptr}

/-! ### Finding a child -/

theorem getLsbD_movemask (n : Node) (byte : UInt8) (i : ℕ) :
    (n.movemask byte).getLsbD i = (decide (i < 16) && n.key i == byte) := by
  rw [movemask, BitVec.getLsbD_setWidth, BitVec.getLsbD_ofBoolListLE]
  by_cases hi : i < 16
  · simp [hi, List.getD_eq_getElem?_getD, show i < 32 by omega]
  · simp [hi, List.getD_eq_getElem?_getD]

theorem getLsbD_mask {count : ℕ} (h : count ≤ 16) (i : ℕ) :
    ((1#32 <<< count) - 1).getLsbD i = decide (i < count) := by
  have hmask : (1#32 <<< count) - 1 = (BitVec.allOnes count).setWidth 32 := by
    refine BitVec.eq_of_toNat_eq ?_
    have hle : 2 ^ count ≤ 2 ^ 16 := Nat.pow_le_pow_right (by omega) h
    have hpos := Nat.two_pow_pos count
    have hone : (1 : BitVec 32).toNat = 1 := rfl
    have hshift : (1#32 <<< count).toNat = 2 ^ count := by
      rw [BitVec.toNat_shiftLeft, BitVec.toNat_ofNat, Nat.shiftLeft_eq, Nat.mod_mul_mod, Nat.one_mul]
      exact Nat.mod_eq_of_lt (by omega)
    rw [BitVec.toNat_sub, hshift, hone, BitVec.toNat_setWidth, BitVec.toNat_allOnes]
    omega
  rw [hmask, BitVec.getLsbD_setWidth, BitVec.getLsbD_allOnes]
  by_cases hi : i < count
  · rw [decide_eq_true hi, decide_eq_true (by omega : i < 32), Bool.and_true]
  · rw [decide_eq_false hi, Bool.and_false]

theorem getLsbD_bitfield (h : getCount n.version ≤ 16) (b : UInt8) (i : ℕ) :
    (n.movemask b &&& ((1#32 <<< getCount n.version) - 1)).getLsbD i = true ↔ i < getCount n.version ∧
    n.key i = b := by
  rw [BitVec.getLsbD_and, getLsbD_movemask, getLsbD_mask h, Bool.and_eq_true, Bool.and_eq_true,
    decide_eq_true_iff,
    decide_eq_true_iff, beq_iff_eq]
  constructor
  · rintro ⟨⟨-, hkey⟩, hi⟩
    exact ⟨hi, hkey⟩
  · rintro ⟨hi, hkey⟩
    exact ⟨⟨by omega, hkey⟩, hi⟩

/-- The two smaller types find a child by the place of its byte. -/
theorem findChild_small (h : n.Wf) (ht : getType n.version = node4 ∨ getType n.version = node16) :
    n.findChild n.version b = some i ↔ i < getCount n.version ∧ n.key i = b := by
  rcases ht with h4 | h16
  · rw [findChild, if_pos h4, List.find?_range_eq_some]
    simp only [beq_iff_eq, List.mem_range, Bool.not_eq_true', beq_eq_false_iff_ne]
    refine ⟨fun ⟨hkey, hi, _⟩ => ⟨hi, hkey⟩, fun ⟨hi, hkey⟩ => ⟨hkey, hi, fun j hj hkj => ?_⟩⟩
    exact hj.ne (h.distinct (.inl h4) j (hj.trans hi) i hi (hkj.trans hkey.symm))
  · have hle : getCount n.version ≤ 16 := by
      have := h.count_le (h16 ▸ node16_ne.2.2)
      rwa [h16, capacity, if_neg node16_ne.1, if_pos rfl] at this
    have hbit := getLsbD_bitfield hle b
    rw [findChild, if_neg (h16 ▸ node16_ne.1), if_pos h16]
    dsimp only
    split_ifs with hzero
    · have hfirst := (hbit _).mp (BitVec.getLsbD_true_ctz_of_ne_zero hzero)
      rw [Option.some.injEq]
      refine ⟨fun hi => hi ▸ hfirst, fun ⟨hi, hkey⟩ => ?_⟩
      exact h.distinct (.inr h16) _ hfirst.1 i hi (hfirst.2.trans hkey.symm)
    · refine ⟨fun hi => absurd hi (by simp), fun hi => absurd ((hbit i).mpr hi) ?_⟩
      rw [not_not.mp hzero]
      simp

theorem findChild_node48 (ht : getType n.version = node48) :
    n.findChild n.version b = some i ↔ (n.index b).toNat = i + 1 := by
  rw [findChild, if_neg (ht ▸ node48_ne.1), if_neg (ht ▸ node48_ne.2.1), if_pos ht]
  have hzero : n.index b = 0 ↔ (n.index b).toNat = 0 := UInt8.toNat_inj.symm
  split_ifs with hindex
  · rw [Option.some.injEq]
    have := mt hzero.mpr hindex
    omega
  · have := hzero.mp (not_not.mp hindex)
    simp only [false_iff]
    omega

theorem findChild_node256 (ht : getType n.version = node256) :
    n.findChild n.version b = some i ↔ n.child b.toNat ≠ none ∧ b.toNat = i := by
  rw [findChild, if_neg (ht ▸ node256_ne.1), if_neg (ht ▸ node256_ne.2.1), if_neg (ht ▸ node256_ne.2.2)]
  split_ifs with hchild
  · simp [hchild]
  · simp [hchild]

/-- A child found is there. -/
theorem child_of_findChild (h : n.Wf) (hi : n.findChild n.version b = some i) : n.child i ≠ none := by
  rcases getType_cases n.version with ht | ht | ht | ht
  · exact h.children (ht ▸ node4_ne.2.2) i ((findChild_small h (.inl ht)).mp hi).1
  · exact h.children (ht ▸ node16_ne.2.2) i ((findChild_small h (.inr ht)).mp hi).1
  · have hle := (h.index ht).1 b
    rw [(findChild_node48 ht).mp hi] at hle
    exact h.children (ht ▸ node48_ne.2.2) i hle
  · obtain ⟨hchild, rfl⟩ := (findChild_node256 ht).mp hi
    exact hchild

/-- No two bytes have the same child. -/
theorem findChild_inj (h : n.Wf) {b b' : UInt8} (hi : n.findChild n.version b = some i)
    (hi' : n.findChild n.version b' = some i) : b = b' := by
  rcases getType_cases n.version with ht | ht | ht | ht
  · exact ((findChild_small h (.inl ht)).mp hi).2.symm.trans ((findChild_small h (.inl ht)).mp hi').2
  · exact ((findChild_small h (.inr ht)).mp hi).2.symm.trans ((findChild_small h (.inr ht)).mp hi').2
  · have hb := (findChild_node48 ht).mp hi
    have hb' := (findChild_node48 ht).mp hi'
    refine (h.index ht).2 b b' (UInt8.toNat_inj.mp (hb.trans hb'.symm)) fun hzero => ?_
    rw [hzero] at hb
    simp at hb
  · exact UInt8.toNat_inj.mp (((findChild_node256 ht).mp hi).2.trans ((findChild_node256 ht).mp hi').2.symm)

theorem get_eq_some (hi : n.findChild n.version b = some i) : n.get b = n.child i := by
  rw [get, hi, Option.bind_some]

theorem get_eq_none_iff (h : n.Wf) : n.get b = none ↔ n.findChild n.version b = none := by
  cases hi : n.findChild n.version b with
  | none => simp [get, hi]
  | some i => simp [get, hi, child_of_findChild h hi]

/-- The nodes have the same children, in the same places. -/
structure SameChildren (m n : Node) : Prop where
  type : getType m.version = getType n.version
  count : getCount m.version = getCount n.version
  key : m.key = n.key
  index : m.index = n.index
  child : m.child = n.child

theorem SameChildren.wf {m : Node} (h : SameChildren m n) (hn : n.Wf) : m.Wf where
  count_le := by
    rw [h.type, h.count]
    exact hn.count_le
  children := by
    rw [h.type, h.count, h.child]
    exact hn.children
  distinct := by
    rw [h.type, h.count, h.key]
    exact hn.distinct
  index := by
    rw [h.type, h.count, h.index]
    exact hn.index

theorem SameChildren.findChild {m : Node} (h : SameChildren m n) (b : UInt8) :
    m.findChild m.version b = n.findChild n.version b := by
  rw [Node.findChild, Node.findChild, movemask, movemask, h.type, h.count, h.key, h.index, h.child]

theorem SameChildren.get {m : Node} (h : SameChildren m n) (b : UInt8) : m.get b = n.get b := by
  rw [Node.get, Node.get, h.findChild, h.child]

theorem SameChildren.isFull {m : Node} (h : SameChildren m n) : m.isFull = n.isFull := by
  rw [Node.isFull, Node.isFull, h.type, h.count]

/-- A header that says nothing else about the children. -/
theorem SameChildren.of_header {v : BitVec 64} (ht : (Art.header v).type = (Art.header n.version).type)
    (hc : (Art.header v).count = (Art.header n.version).count) : SameChildren { n with version := v } n :=
  ⟨ht, hc, rfl, rfl, rfl⟩

/-! ### A child replaced -/

/-- `*child = new_`, where `child` points to the place `i`. -/
def store (n : Node) (i : ℕ) (c : Ptr) : Node := { n with child := Function.update n.child i (some c) }

theorem Wf.store (h : n.Wf) (i : ℕ) (c : Ptr) : (n.store i c).Wf where
  count_le := h.count_le
  children ht j hj := by
    rw [Node.store]
    by_cases hji : j = i
    · simp [hji]
    · simpa [hji] using h.children ht j hj
  distinct := h.distinct
  index := h.index

theorem findChild_store (h : n.Wf) (hi : n.findChild n.version byte = some i) (c : Ptr) :
    (n.store i c).findChild (n.store i c).version b = n.findChild n.version b := by
  refine Option.ext fun j => ?_
  rcases getType_cases n.version with ht | ht | ht | ht
  · exact (findChild_small (h.store i c) (.inl ht)).trans (findChild_small h (.inl ht)).symm
  · exact (findChild_small (h.store i c) (.inr ht)).trans (findChild_small h (.inr ht)).symm
  · exact (findChild_node48 (n := n.store i c) ht).trans (findChild_node48 ht).symm
  · refine (findChild_node256 (n := n.store i c) ht).trans
      (Iff.trans (and_congr_left' ?_) (findChild_node256 ht).symm)
    by_cases hbi : b.toNat = i
    · simp [Node.store, hbi, child_of_findChild h hi]
    · simp [Node.store, hbi]

theorem get_store (h : n.Wf) (hi : n.findChild n.version byte = some i) (c : Ptr) (b : UInt8) :
    (n.store i c).get b = if b = byte then some c else n.get b := by
  have hfind := findChild_store (b := b) h hi c
  split_ifs with hb
  · subst hb
    rw [get_eq_some (hfind.trans hi)]
    exact Function.update_self i (some c) n.child
  · cases hj : n.findChild n.version b with
    | none => rw [get, get, hfind, hj, Option.bind_none, Option.bind_none]
    | some j =>
      have hji : j ≠ i := fun e => hb (findChild_inj h (e ▸ hj) hi)
      rw [get_eq_some (hfind.trans hj), get_eq_some hj]
      exact Function.update_of_ne hji (some c) n.child

/-! ### A child added -/

theorem getCount_incrCount {v : BitVec 64} (h : getCount v + 1 < 256) :
    getCount (incrCount v) = getCount v + 1 :=
  congrArg Header.count (header_incrCount h)

theorem getType_incrCount {v : BitVec 64} (h : getCount v + 1 < 256) : getType (incrCount v) = getType v :=
  congrArg Header.type (header_incrCount h)

theorem append_small (ht : getType n.version = node4 ∨ getType n.version = node16) (byte : UInt8) (c : Ptr) :
    n.append n.version byte c = { n with
      child := Function.update n.child (getCount n.version) (some c)
      key := Function.update n.key (getCount n.version) byte
      version := incrCount n.version } := by
  rcases ht with ht | ht
  · rw [append, if_pos ht]
  · rw [append, if_neg (ht ▸ node16_ne.1), if_pos ht]

theorem append_node48 (ht : getType n.version = node48) (h : getCount n.version + 1 < 256) (byte : UInt8)
    (c : Ptr) :
    n.append n.version byte c = { n with
      child := Function.update n.child (getCount n.version) (some c)
      index := Function.update n.index byte (UInt8.ofNat (getCount n.version + 1))
      version := incrCount n.version } := by
  rw [append, if_neg (ht ▸ node48_ne.1), if_neg (ht ▸ node48_ne.2.1), if_pos ht]
  dsimp only
  rw [getCount_incrCount h, Nat.add_sub_cancel]

theorem append_node256 (ht : getType n.version = node256) (byte : UInt8) (c : Ptr) :
    n.append n.version byte c = { n with child := Function.update n.child byte.toNat (some c) } := by
  rw [append, if_neg (ht ▸ node256_ne.1), if_neg (ht ▸ node256_ne.2.1), if_neg (ht ▸ node256_ne.2.2)]

theorem capacity_le (t : BitVec 64) : capacity t ≤ 48 := by
  rw [capacity]
  split_ifs <;> omega

theorem isFull_eq (ht : getType n.version ≠ node256) :
    n.isFull = (getCount n.version == capacity (getType n.version)) := by
  rw [isFull, capacity]
  rcases getType_cases n.version with h4 | h16 | h48 | h256
  · rw [if_pos h4, if_pos h4]
  · rw [if_neg (h16 ▸ node16_ne.1), if_pos h16, if_neg (h16 ▸ node16_ne.1), if_pos h16]
  · rw [if_neg (h48 ▸ node48_ne.1), if_neg (h48 ▸ node48_ne.2.1), if_pos h48, if_neg (h48 ▸ node48_ne.1),
      if_neg (h48 ▸ node48_ne.2.1)]
  · exact absurd h256 ht

/-- Room for one more. -/
theorem Wf.count_lt (h : n.Wf) (hfull : n.isFull = false) (ht : getType n.version ≠ node256) :
    getCount n.version < capacity (getType n.version) := by
  rw [isFull_eq ht, beq_eq_false_iff_ne] at hfull
  exact lt_of_le_of_ne (h.count_le ht) hfull

theorem toNat_ofNat_of_lt {k : ℕ} (h : k < 256) : (UInt8.ofNat k).toNat = k := UInt8.toNat_ofNat_of_lt' h

/-- The entries of an array and one more have what all of those have and it has. -/
theorem update_count {A : Type} {f : ℕ → A} {a : A} {p : A → Prop} {count : ℕ} (hf : ∀ i < count, p (f i))
    (ha : p a) :
    ∀ i < count + 1, p (Function.update f count a i) := by
  intro i hi
  by_cases hic : i = count
  · rwa [hic, Function.update_self]
  · rw [Function.update_of_ne hic]
    exact hf i (by omega)

theorem Wf.append (h : n.Wf) (hfull : n.isFull = false) (hnew : n.findChild n.version byte = none) (c : Ptr) :
    (n.append n.version byte c).Wf := by
  by_cases h256 : getType n.version = node256
  · rw [append_node256 h256]
    exact ⟨fun e => absurd h256 e, fun e => absurd h256 e, h.distinct, h.index⟩
  have hlt := h.count_lt hfull h256
  have hle := capacity_le (getType n.version)
  have hcount := getCount_incrCount (v := n.version) (by omega)
  have htype := getType_incrCount (v := n.version) (by omega)
  have hchildren := update_count (p := fun x => x ≠ none) (h.children h256) (Option.some_ne_none c)
  by_cases h48 : getType n.version = node48
  · rw [append_node48 h48 (by omega)]
    refine ⟨fun _ => ?_, fun _ => ?_, fun e => ?_, fun _ => ?_⟩
    · rwa [hcount, htype]
    · rwa [hcount]
    · rw [htype, h48] at e
      exact absurd e (by decide)
    · rw [hcount]
      have hnat := toNat_ofNat_of_lt (k := getCount n.version + 1) (by omega)
      have hold : ∀ b, n.index b ≠ UInt8.ofNat (getCount n.version + 1) := fun b e => by
        have := (h.index h48).1 b
        rw [e, hnat] at this
        omega
      refine ⟨fun b => ?_, fun b b' hbb hzero => ?_⟩
      · dsimp only
        by_cases hb : b = byte
        · rw [hb, Function.update_self, hnat]
        · rw [Function.update_of_ne hb]
          exact ((h.index h48).1 b).trans (Nat.le_succ _)
      · dsimp only at hbb hzero
        by_cases hb : b = byte <;> by_cases hb' : b' = byte
        · exact hb.trans hb'.symm
        · rw [hb, Function.update_self, Function.update_of_ne hb'] at hbb
          exact absurd hbb.symm (hold b')
        · rw [hb', Function.update_self, Function.update_of_ne hb] at hbb
          exact absurd hbb (hold b)
        · rw [Function.update_of_ne hb, Function.update_of_ne hb'] at hbb
          rw [Function.update_of_ne hb] at hzero
          exact (h.index h48).2 b b' hbb hzero
  · have hsmall : getType n.version = node4 ∨ getType n.version = node16 := small_of_ne h256 h48
    rw [append_small hsmall]
    refine ⟨fun _ => ?_, fun _ => ?_, fun _ => ?_, fun e => absurd (htype ▸ e) h48⟩
    · rwa [hcount, htype]
    · rwa [hcount]
    · rw [hcount]
      have hold : ∀ i < getCount n.version, n.key i ≠ byte := fun i hi hkey => by
        simpa [hnew] using (findChild_small h hsmall).mpr ⟨hi, hkey⟩
      intro i hi j hj hij
      dsimp only at hij
      by_cases hic : i = getCount n.version <;> by_cases hjc : j = getCount n.version
      · exact hic.trans hjc.symm
      · rw [hic, Function.update_self, Function.update_of_ne hjc] at hij
        exact absurd hij.symm (hold j (by omega))
      · rw [hjc, Function.update_self, Function.update_of_ne hic] at hij
        exact absurd hij (hold i (by omega))
      · rw [Function.update_of_ne hic, Function.update_of_ne hjc] at hij
        exact h.distinct hsmall i (by omega) j (by omega) hij

/-- Where the new child is, and that the others are where they were. -/
theorem findChild_append (h : n.Wf) (hfull : n.isFull = false) (hnew : n.findChild n.version byte = none)
    (c : Ptr) :
    ∃ k, (n.append n.version byte c).child = Function.update n.child k (some c) ∧
      (n.append n.version byte c).findChild (n.append n.version byte c).version byte = some k ∧
      ∀ b, b ≠ byte →
        (n.append n.version byte c).findChild (n.append n.version byte c).version b = n.findChild n.version b ∧
        n.findChild n.version b ≠ some k := by
  have hwf := h.append hfull hnew c
  by_cases h256 : getType n.version = node256
  · have hm := append_node256 h256 byte c
    generalize n.append n.version byte c = m at hm hwf
    have hversion : m.version = n.version := hm ▸ rfl
    have hchild : m.child = Function.update n.child byte.toNat (some c) := hm ▸ rfl
    have h256' : getType m.version = node256 := hversion ▸ h256
    refine ⟨byte.toNat, hchild, (findChild_node256 h256').mpr ⟨by simp [hchild], rfl⟩,
      fun b hb => ⟨?_, fun e => ?_⟩⟩
    · have hne : b.toNat ≠ byte.toNat := fun e => hb (UInt8.toNat_inj.mp e)
      refine Option.ext fun j => (findChild_node256 h256').trans (Iff.trans ?_ (findChild_node256 h256).symm)
      rw [hchild, Function.update_of_ne hne]
    · exact hb (UInt8.toNat_inj.mp ((findChild_node256 h256).mp e).2)
  have hlt := h.count_lt hfull h256
  have hle := capacity_le (getType n.version)
  have hcount := getCount_incrCount (v := n.version) (by omega)
  have htype := getType_incrCount (v := n.version) (by omega)
  refine ⟨getCount n.version, ?_⟩
  by_cases h48 : getType n.version = node48
  · have hm := append_node48 h48 (by omega) byte c
    generalize n.append n.version byte c = m at hm hwf
    have hversion : m.version = incrCount n.version := hm ▸ rfl
    have hchild : m.child = Function.update n.child (getCount n.version) (some c) := hm ▸ rfl
    have hindex : m.index = Function.update n.index byte (UInt8.ofNat (getCount n.version + 1)) := hm ▸ rfl
    have h48' : getType m.version = node48 := by rw [hversion, htype, h48]
    refine ⟨hchild, (findChild_node48 h48').mpr ?_, fun b hb => ⟨?_, fun e => ?_⟩⟩
    · rw [hindex, Function.update_self, toNat_ofNat_of_lt (by omega)]
    · refine Option.ext fun j => (findChild_node48 h48').trans (Iff.trans ?_ (findChild_node48 h48).symm)
      rw [hindex, Function.update_of_ne hb]
    · have := (h.index h48).1 b
      rw [(findChild_node48 h48).mp e] at this
      omega
  · have hsmall := small_of_ne h256 h48
    have hm := append_small hsmall byte c
    generalize n.append n.version byte c = m at hm hwf
    have hversion : m.version = incrCount n.version := hm ▸ rfl
    have hchild : m.child = Function.update n.child (getCount n.version) (some c) := hm ▸ rfl
    have hkey : m.key = Function.update n.key (getCount n.version) byte := hm ▸ rfl
    have hsmall' : getType m.version = node4 ∨ getType m.version = node16 := by rwa [hversion, htype]
    have hcount' : getCount m.version = getCount n.version + 1 := by rw [hversion, hcount]
    refine ⟨hchild, (findChild_small hwf hsmall').mpr ⟨by omega, ?_⟩, fun b hb => ⟨?_, fun e => ?_⟩⟩
    · rw [hkey, Function.update_self]
    · refine Option.ext fun j => (findChild_small hwf hsmall').trans
        (Iff.trans ?_ (findChild_small h hsmall).symm)
      rw [hcount', hkey]
      by_cases hj : j = getCount n.version
      · simp [hj, Ne.symm hb]
      · rw [Function.update_of_ne hj]
        exact and_congr_left' (by omega)
    · exact absurd ((findChild_small h hsmall).mp e).1 (lt_irrefl _)

theorem get_append (h : n.Wf) (hfull : n.isFull = false) (hnew : n.findChild n.version byte = none)
    (c : Ptr) (b : UInt8) :
    (n.append n.version byte c).get b = if b = byte then some c else n.get b := by
  obtain ⟨k, hchild, hself, hother⟩ := findChild_append h hfull hnew c
  split_ifs with hb
  · subst hb
    rw [get_eq_some hself, hchild, Function.update_self]
  · obtain ⟨hfind, hk⟩ := hother b hb
    rw [get, get, hfind, hchild]
    cases hj : n.findChild n.version b with
    | none => rfl
    | some j =>
      have hjk : j ≠ k := fun e => hk (e ▸ hj)
      rw [Option.bind_some, Option.bind_some, Function.update_of_ne hjk]

/-- What a child added leaves as it is. -/
theorem append_rest (h : n.Wf) (hfull : n.isFull = false) (byte : UInt8) (c : Ptr) :
    (∃ count, header (n.append n.version byte c).version = { header n.version with count := count }) ∧
      (n.append n.version byte c).pfx = n.pfx ∧ (n.append n.version byte c).parent = n.parent := by
  by_cases h256 : getType n.version = node256
  · rw [append_node256 h256]
    exact ⟨⟨_, rfl⟩, rfl, rfl⟩
  have hlt := h.count_lt hfull h256
  have hle := capacity_le (getType n.version)
  have hcount : (header n.version).count + 1 < 256 := Nat.lt_of_le_of_lt (Nat.succ_le_of_lt hlt) (by omega)
  by_cases h48 : getType n.version = node48
  · rw [append_node48 h48 hcount]
    exact ⟨⟨_, header_incrCount hcount⟩, rfl, rfl⟩
  · rw [append_small (small_of_ne h256 h48)]
    exact ⟨⟨_, header_incrCount hcount⟩, rfl, rfl⟩

/-! ### A node grown -/

/-- The loop that fills `index`, over bytes listed once. -/
theorem index_fold {key : ℕ → UInt8} (index : UInt8 → UInt8) {k : ℕ} (hk : k < 256)
    (hdistinct : ∀ i < k, ∀ j < k, key i = key j → i = j) (hzero : ∀ b, index b = 0) :
    (∀ i < k, (List.range k).foldl
      (fun index i => Function.update index (key i) (UInt8.ofNat (i + 1))) index (key i) =
      UInt8.ofNat (i + 1)) ∧
    ∀ b, (∀ i < k, key i ≠ b) →
      (List.range k).foldl (fun index i => Function.update index (key i) (UInt8.ofNat (i + 1)))
        index b = 0 := by
  induction k with
  | zero => exact ⟨fun i hi => absurd hi (Nat.not_lt_zero i), fun b _ => hzero b⟩
  | succ k ih =>
    obtain ⟨hlisted, hother⟩ := ih (by omega) fun i hi j hj => hdistinct i (by omega) j (by omega)
    rw [List.range_succ, List.foldl_append]
    refine ⟨fun i hi => ?_, fun b hb => ?_⟩
    · rcases Nat.lt_succ_iff_lt_or_eq.mp hi with hik | rfl
      · have hne : key i ≠ key k := fun e => hik.ne (hdistinct i hi k (Nat.lt_succ_self k) e)
        exact (Function.update_of_ne hne ..).trans (hlisted i hik)
      · exact Function.update_self ..
    · exact (Function.update_of_ne (hb k (Nat.lt_succ_self k)).symm ..).trans
        (hother b fun i hi => hb i (by omega))

/-- What a node grown is. -/
structure Grown (n m : Node) : Prop where
  wf : m.Wf
  room : m.isFull = false
  get : ∀ b, m.get b = n.get b
  pfx : m.pfx = n.pfx
  new_ : m.new_ = none
  parent : m.parent = none
  /-- But for the type and the count, it has the header of a new node with that prefix. -/
  header : Art.header m.version =
    ⟨0, getCount m.version, getPrefixLen n.version, getType m.version, false, false, false, 0⟩

theorem getPrefixLen_lt (v : BitVec 64) : getPrefixLen v < 256 := header_prefixLen_lt v

theorem header_grown {v : BitVec 64} (v' : BitVec 64) {count : ℕ} (hc : count < 256)
    (hv : Art.header v' = ⟨0, 0, 0, getType v', false, false, false, 0⟩) :
    Art.header (setCount (setPrefixLen v' (getPrefixLen v)) count) =
      ⟨0, count, getPrefixLen v, getType v', false, false, false, 0⟩ := by
  rw [header_setCount hc, header_setPrefixLen (getPrefixLen_lt v), hv]

theorem grown_node4 (h : n.Wf) (ht : getType n.version = node4) (hc : getCount n.version = 4) :
    ∃ m, n.grown mem = some m ∧ Grown n m := by
  refine ⟨_, by rw [grown, if_pos ht], ?_⟩
  generalize hm : ({ mem.newNode16 with pfx := n.pfx, key := _, child := _, version := _ } : Node) = m
  have hheader : Art.header m.version = ⟨0, 4, getPrefixLen n.version, node16, false, false, false, 0⟩ :=
    hm ▸ header_grown (setType 0 node16) (by omega) rfl
  have hkey : ∀ i < 4, m.key i = n.key i := fun i hi => by rw [← hm]; exact if_pos hi
  have hchild : ∀ i < 4, m.child i = n.child i := fun i hi => by rw [← hm]; exact if_pos hi
  have htype : getType m.version = node16 := congrArg Header.type hheader
  have hcount : getCount m.version = 4 := congrArg Header.count hheader
  have hwf : m.Wf := by
    refine ⟨fun _ => ?_, fun _ i hi => ?_, fun _ i hi j hj hij => ?_,
      fun e => absurd (htype.symm.trans e) node16_ne.2.1⟩
    · rw [hcount, htype]
      decide
    · rw [hchild i (by omega)]
      exact h.children (ht ▸ node4_ne.2.2) i (by omega)
    · rw [hkey i (by omega), hkey j (by omega)] at hij
      exact h.distinct (.inl ht) i (by omega) j (by omega) hij
  have hfind : ∀ b, m.findChild m.version b = n.findChild n.version b := fun b => Option.ext fun i => by
    rw [findChild_small hwf (.inr htype), findChild_small h (.inl ht), hcount, hc]
    exact and_congr_right fun hi => by rw [hkey i hi]
  refine ⟨hwf, ?_, fun b => ?_, hm ▸ rfl, hm ▸ rfl, hm ▸ rfl, ?_⟩
  · rw [isFull, if_neg (htype ▸ node16_ne.1), if_pos htype, hcount]
    rfl
  · rw [get, get, hfind]
    cases hi : n.findChild n.version b with
    | none => rfl
    | some i => exact hchild i (hc ▸ ((findChild_small h (.inl ht)).mp hi).1)
  · rw [hheader, htype, hcount]

theorem grown_node16 (h : n.Wf) (ht : getType n.version = node16) (hc : getCount n.version = 16) :
    ∃ m, n.grown mem = some m ∧ Grown n m := by
  refine ⟨_, by rw [grown, if_neg (ht ▸ node16_ne.1), if_pos ht], ?_⟩
  generalize hm : ({ mem.newNode48 with pfx := n.pfx, child := _, index := _, version := _ } : Node) = m
  have hheader : Art.header m.version = ⟨0, 16, getPrefixLen n.version, node48, false, false, false, 0⟩ :=
    hm ▸ header_grown (setType 0 node48) (by omega) rfl
  have hchild : ∀ i < 16, m.child i = n.child i := fun i hi => by rw [← hm]; exact if_pos hi
  have htype : getType m.version = node48 := congrArg Header.type hheader
  have hcount : getCount m.version = 16 := congrArg Header.count hheader
  obtain ⟨hlisted, hother⟩ := index_fold (fun _ => 0) (k := 16) (by omega)
    (fun i hi j hj => h.distinct (.inr ht) i (by omega) j (by omega)) fun _ => rfl
  have hindex : ∀ b i, (m.index b).toNat = i + 1 ↔ i < 16 ∧ n.key i = b := by
    intro b i
    rw [← hm]
    dsimp only [newNode48]
    by_cases hb : ∃ j < 16, n.key j = b
    · obtain ⟨j, hj, rfl⟩ := hb
      rw [hlisted j hj, toNat_ofNat_of_lt (by omega)]
      refine ⟨fun e => ?_, fun ⟨hi, hij⟩ => by rw [h.distinct (.inr ht) j (by omega) i (by omega) hij.symm]⟩
      obtain rfl : j = i := by omega
      exact ⟨hj, rfl⟩
    · rw [hother b fun j hj e => hb ⟨j, hj, e⟩]
      exact ⟨fun e => absurd e (by simp), fun hi => absurd ⟨i, hi⟩ hb⟩
  have hbyte : ∀ b, m.index b ≠ 0 → ∃ i < 16, (m.index b).toNat = i + 1 := by
    intro b hb
    have hpos : (m.index b).toNat ≠ 0 := fun e => hb (UInt8.toNat_inj.mp e)
    obtain ⟨i, hi⟩ := Nat.exists_eq_succ_of_ne_zero hpos
    exact ⟨i, ((hindex b i).mp hi).1, hi⟩
  have hfind : ∀ b, m.findChild m.version b = n.findChild n.version b := fun b => Option.ext fun i => by
    rw [findChild_node48 htype, findChild_small h (.inr ht), hc, hindex]
  refine ⟨⟨fun _ => ?_, fun _ i hi => ?_, fun e => ?_, fun _ => ⟨fun b => ?_, fun b b' hbb hb => ?_⟩⟩, ?_,
    fun b => ?_,
    hm ▸ rfl, hm ▸ rfl, hm ▸ rfl, ?_⟩
  · rw [hcount, htype]
    decide
  · rw [hchild i (by omega)]
    exact h.children (ht ▸ node16_ne.2.2) i (by omega)
  · rw [htype] at e
    exact absurd e (by decide)
  · by_cases hb : m.index b = 0
    · rw [hb]
      exact Nat.zero_le _
    · obtain ⟨i, hi, hbi⟩ := hbyte b hb
      omega
  · obtain ⟨i, hi, hbi⟩ := hbyte b hb
    exact ((hindex b i).mp hbi).2.symm.trans ((hindex b' i).mp (hbb ▸ hbi)).2
  · rw [isFull, if_neg (htype ▸ node48_ne.1), if_neg (htype ▸ node48_ne.2.1), if_pos htype, hcount]
    rfl
  · rw [get, get, hfind]
    cases hi : n.findChild n.version b with
    | none => rfl
    | some i => exact hchild i (hc ▸ ((findChild_small h (.inr ht)).mp hi).1)
  · rw [hheader, htype, hcount]

theorem grown_node48 (ht : getType n.version = node48) : ∃ m, n.grown mem = some m ∧ Grown n m := by
  refine ⟨_, by rw [grown, if_neg (ht ▸ node48_ne.1), if_neg (ht ▸ node48_ne.2.1), if_pos ht], ?_⟩
  generalize hm : ({ mem.newNode256 with pfx := n.pfx, child := _, version := _ } : Node) = m
  have hheader : Art.header m.version = ⟨0, 0, getPrefixLen n.version, node256, false, false, false, 0⟩ := by
    rw [← hm]
    exact (header_setPrefixLen (v := setType 0 node256) (getPrefixLen_lt n.version)).trans rfl
  have htype : getType m.version = node256 := congrArg Header.type hheader
  have hchild : ∀ b : UInt8, m.child b.toNat =
    if n.index b ≠ 0 then n.child ((n.index b).toNat - 1) else none := by
    intro b
    rw [← hm]
    dsimp only [newNode256]
    rw [UInt8.ofNat_toNat]
    by_cases hb : n.index b ≠ 0
    · rw [if_pos ⟨b.toNat_lt, hb⟩, if_pos hb]
    · rw [if_neg fun e => hb e.2, if_neg hb]
  have hget : ∀ b, m.get b = m.child b.toNat := by
    intro b
    rw [get, findChild, if_neg (htype ▸ node256_ne.1), if_neg (htype ▸ node256_ne.2.1),
      if_neg (htype ▸ node256_ne.2.2)]
    split_ifs with hnone
    · rfl
    · exact (not_not.mp hnone).symm
  refine ⟨⟨fun e => absurd htype e, fun e => absurd htype e, fun e => ?_, fun e => ?_⟩, ?_, fun b => ?_,
    hm ▸ rfl, hm ▸ rfl, hm ▸ rfl, ?_⟩
  · rw [htype] at e
    exact absurd e (by decide)
  · rw [htype] at e
    exact absurd e (by decide)
  · rw [isFull, if_neg (htype ▸ node256_ne.1), if_neg (htype ▸ node256_ne.2.1), if_neg (htype ▸ node256_ne.2.2)]
  · rw [hget, hchild]
    cases hi : n.findChild n.version b with
    | none =>
      have hzero : n.index b = 0 := by
        by_contra hb
        have hpos : (n.index b).toNat ≠ 0 := fun e => hb (UInt8.toNat_inj.mp e)
        obtain ⟨i, e⟩ := Nat.exists_eq_succ_of_ne_zero hpos
        exact absurd (hi.symm.trans ((findChild_node48 ht).mpr e)) (by simp)
      rw [if_neg (not_not.mpr hzero), get, hi, Option.bind_none]
    | some i =>
      have hbi := (findChild_node48 ht).mp hi
      have hb : n.index b ≠ 0 := by
        intro hzero
        rw [hzero] at hbi
        simp at hbi
      rw [if_pos hb, get_eq_some hi, hbi, Nat.add_sub_cancel]
  · rw [hheader, htype]
    exact congrArg (Header.mk 0 · _ _ _ _ _ _) (congrArg Header.count hheader).symm

/-- **A node grown has the children of the old one**, and room for more. -/
theorem grown_of_full (h : n.Wf) (hfull : n.isFull = true) (mem : Node) :
    ∃ m, n.grown mem = some m ∧ Grown n m := by
  have h256 : getType n.version ≠ node256 := by
    intro e
    rw [isFull, if_neg (e ▸ node256_ne.1), if_neg (e ▸ node256_ne.2.1), if_neg (e ▸ node256_ne.2.2)] at hfull
    exact absurd hfull Bool.false_ne_true
  rw [isFull_eq h256, beq_iff_eq] at hfull
  rcases getType_cases n.version with ht | ht | ht | ht
  · exact grown_node4 h ht (by rw [hfull, ht]; decide)
  · exact grown_node16 h ht (by rw [hfull, ht]; decide)
  · exact grown_node48 ht
  · exact absurd ht h256

end Node

end SidleBaselines.Art
