import SidleBaselines.Art.Memory

/-!
# ART: insertion and lookup

Both go down from the root, comparing a node's prefix with the key and taking the child under the next
byte, until they come to a leaf or to a node that the key leaves. What is below a pointer is a tree
(`Rep`): the keys under a node begin with the bytes read on the way to it, no node has less than two
children, and no node is in it twice.

## What is proved

* `Rep.congr`, `Rep.reparent` — a tree is what its own nodes make it.
* `Rep.along` — its keys go along the way to it.
* `getFrom_eq` — a lookup finds exactly the keys of the tree.
-/

namespace SidleBaselines.Art

open Data

namespace AdaptiveRadixTree

/-! ### What the code does -/

/-- `adaptive_radix_tree_replace_leaf`: 0 on success, 1 on existed, -1 on retry. -/
def replaceLeaf (s : AdaptiveRadixTree) (parent : Option ℕ) (ptr : Slot) (an : Leaf) (key : List UInt8)
    (len off : ℕ) :
    Except Stop (ℤ × AdaptiveRadixTree) := do
  let (new_, s) ← s.replaceLeafChild an key len off
  match new_ with
  | none => .ok (1, s)
  | some new_ =>
    match parent with
    | some parent =>
      let (failed, s) ← s.lock parent
      if failed then .ok (-1, s)
      else if s.load ptr ≠ some (.leaf an) then .ok (-1, s.unlock parent)
      else .ok (0, (s.store ptr (.node new_)).unlock parent)
    | none => if s.load ptr = some (.leaf an) then .ok (0, s.store ptr (.node new_)) else .ok (-1, s)

/-- `_adaptive_radix_tree_put`, from `begin` on: it may get there, by calling itself or going back,
as often as the first argument says. -/
def putFrom : ℕ → AdaptiveRadixTree → (parent : Option ℕ) → (ptr : Slot) → (key : List UInt8) → (len off : ℕ) →
    (first : Bool) → Except Stop (ℤ × AdaptiveRadixTree)
  | 0, _, _, _, _, _, _, _ => .error .endless
  | fuel + 1, s, parent, ptr, key, len, off, first =>
    if !first && parent.any fun parent => isOld (s.heap parent).version then .ok (-1, s)
    else
      match s.load ptr with
      | none => .error .outside
      | some (.leaf an) => s.replaceLeaf parent ptr an key len off
      | some (.node an) =>
        let v := (s.heap an).version
        if isExpanding v then .error .endless
        else if getOffset v ≠ off ∨ isOld v then putFrom fuel s parent ptr key len off false
        else
          let p := (s.heap an).prefixCompare v key len off
          if p ≠ getPrefixLen v then do
            let (failed, s) ← s.lock an
            if failed then putFrom fuel s parent ptr key len off false
            else if compareExpand v (s.heap an).version then
              putFrom fuel (s.unlock an) parent ptr key len off false
            else
              let (new_, s) ← s.expandAndInsert an key len off p
              let (parent, s) ← s.getLockedParent an
              let s := s.set an { s.heap an with parent := some new_ }
              let s ← s.place parent ptr (key.getD (off - 1) 0) new_
              .ok (0, s.unlock an)
          else
            match key[off + p]? with
            | none => .error .outside
            | some byte =>
              match (s.heap an).findChild v byte with
              | some next => putFrom fuel s (some an) (.child an next) key len (off + p + 1) true
              | none => do
                let (failed, s) ← s.lock an
                if failed then putFrom fuel s parent ptr key len off false
                else
                  let (next, new_, s) ← s.addChild an byte (.leaf (allocLeaf key len)) true
                  let s ← match new_ with
                    | none => .ok s
                    | some new_ => do
                      let (parent, s) ← s.getLockedParent an
                      s.place parent ptr (key.getD (off - 1) 0) new_
                  let s := s.unlock an
                  match next with
                  | some next => putFrom fuel s (some an) (.child an next) key len (off + p + 1) true
                  | none => .ok (0, s)

/-- The loop of `adaptive_radix_tree_put`. -/
def putLoop : ℕ → AdaptiveRadixTree → List UInt8 → ℕ → Except Stop (ℤ × AdaptiveRadixTree)
  | 0, _, _, _ => .error .endless
  | fuel + 1, s, key, len => do
    let (ret, s) ← s.putFrom (len + 2) none .root key len 0 true
    if ret = -1 then putLoop fuel s key len else .ok (ret, s)

/-- `adaptive_radix_tree_put`. -/
def put (s : AdaptiveRadixTree) (key : List UInt8) (len : ℕ) : Except Stop (ℤ × AdaptiveRadixTree) :=
  match s.root with
  | none => .ok (0, { s with root := some (.leaf (allocLeaf key len)) })
  | some _ => s.putLoop 2 key len

/-- What `_adaptive_radix_tree_get` returns: 0, 1 or the key of a leaf. -/
inductive Found where
  | absent
  | retry
  | leaf (l : Leaf)
deriving DecidableEq

/-- `_adaptive_radix_tree_get`, from `begin` on. -/
def getFrom (s : AdaptiveRadixTree) : ℕ → (parent : Option ℕ) → (ptr : Slot) → (key : List UInt8) →
    (len off : ℕ) →
    (first : Bool) → Except Stop Found
  | 0, _, _, _, _, _, _ => .error .endless
  | fuel + 1, parent, ptr, key, len, off, first =>
    if !first && parent.any fun parent => isOld (s.heap parent).version then .ok .retry
    else
      match s.load ptr with
      | none => .error .outside
      | some (.leaf an) =>
        let i := differ an.key key an.getLeafLen len len off
        if i = an.getLeafLen ∧ i = len then .ok (.leaf an) else .ok .absent
      | some (.node an) =>
        let v := (s.heap an).version
        if isExpanding v then .error .endless
        else if getOffset v ≠ off ∨ isOld v then getFrom s fuel parent ptr key len off false
        else if (s.heap an).prefixCompare v key len off ≠ getPrefixLen v then .ok .absent
        else
          let off := off + getPrefixLen v
          let advance := if off ≠ len then 1 else 0
          let byte := if off ≠ len then key.getD off 0 else 0
          match (s.heap an).findChild v byte with
          | some next => getFrom s fuel (some an) (.child an next) key len (off + advance) true
          | none => .ok .absent

/-- The loop of `adaptive_radix_tree_get`. -/
def getLoop (s : AdaptiveRadixTree) : ℕ → List UInt8 → ℕ → Except Stop (Option (List UInt8))
  | 0, _, _ => .error .endless
  | fuel + 1, key, len => do
    match ← s.getFrom (len + 2) none .root key len 0 true with
    | .absent => .ok none
    | .retry => getLoop s fuel key len
    | .leaf l => .ok (some l.key)

/-- `adaptive_radix_tree_get`: the key it returns a pointer to. -/
def get (s : AdaptiveRadixTree) (key : List UInt8) (len : ℕ) : Except Stop (Option (List UInt8)) :=
  match s.root with
  | none => .ok none
  | some _ => s.getLoop 2 key len

end AdaptiveRadixTree

/-! ### Trees -/

/-- What a node in a tree is like, under the node `up`, with `path` read of every key that comes to it. -/
structure Inner (n : Node) (up : Option ℕ) (path : List UInt8) : Prop where
  wf : n.Wf
  quiet : n.Quiet
  offset : getOffset n.version = path.length
  /-- Its parent is right or not set. -/
  parent : n.parent = none ∨ n.parent = up
  /-- It is there because keys differ. -/
  two : ∃ b b', b ≠ b' ∧ n.get b ≠ none ∧ n.get b' ≠ none

/-- The tree below a pointer, where `path` has been read of a key: its keys, of length `L`, and its nodes. -/
inductive Rep (L : ℕ) (h : ℕ → Node) :
    (up : Option ℕ) → Ptr → (path : List UInt8) → (keys : Set (List UInt8)) → (nodes : Set ℕ) → Prop
  | leaf {up path k K F} (length : k.length = L) (begins : path <+: k) (keys : K = {k}) (nodes : F = ∅) :
    Rep L h up (.leaf (allocLeaf k L)) path K F
  | node {up a path K F} (Ks : UInt8 → Set (List UInt8)) (Fs : UInt8 → Set ℕ) (inner : Inner (h a) up path)
    (sub : ∀ b c, (h a).get b = some c → Rep L h (some a) c (path ++ (h a).prefixBytes ++ [b]) (Ks b) (Fs b))
    (empty : ∀ b, (h a).get b = none → Ks b = ∅ ∧ Fs b = ∅) (apart : ∀ b b', b ≠ b' → Disjoint (Fs b) (Fs b'))
    (own : ∀ b, a ∉ Fs b) (keys : K = ⋃ b, Ks b) (nodes : F = insert a (⋃ b, Fs b)) :
    Rep L h up (.node a) path K F

section

variable {L : ℕ} {h h' : ℕ → Node} {up up' : Option ℕ} {p : Ptr} {path key k : List UInt8}
    {K : Set (List UInt8)} {F : Set ℕ}

/-- Its keys all begin with the path. -/
theorem Rep.along (hr : Rep L h up p path K F) (hk : k ∈ K) : path <+: k ∧ k.length = L := by
  induction hr with
  | leaf length begins keys nodes =>
    obtain rfl : k = _ := by simpa [keys] using hk
    exact ⟨begins, length⟩
  | node Ks Fs inner sub empty apart own keys nodes ih =>
    rw [keys, Set.mem_iUnion] at hk
    obtain ⟨b, hb⟩ := hk
    cases hc : (h _).get b with
    | none => rw [(empty b hc).1] at hb; exact hb.elim
    | some c =>
      obtain ⟨hpath, hlen⟩ := ih b c hc hb
      exact ⟨((List.prefix_append _ _).trans (List.prefix_append _ _)).trans hpath, hlen⟩

/-- It has a key. -/
theorem Rep.nonempty (hr : Rep L h up p path K F) : K.Nonempty := by
  induction hr with
  | leaf length begins keys nodes => exact keys ▸ Set.singleton_nonempty _
  | node Ks Fs inner sub empty apart own keys nodes ih =>
    obtain ⟨b, -, -, hb, -⟩ := inner.two
    obtain ⟨c, hc⟩ := Option.ne_none_iff_exists'.mp hb
    obtain ⟨k, hk⟩ := ih b c hc
    exact ⟨k, keys ▸ Set.mem_iUnion.mpr ⟨b, hk⟩⟩

/-- A node is among its own. -/
theorem Rep.node_mem {d : ℕ} (hr : Rep L h up (.node d) path K F) : d ∈ F := by
  cases hr with
  | node Ks Fs inner sub empty apart own keys nodes => exact nodes ▸ Set.mem_insert _ _

/-- Only its own nodes matter to it. -/
theorem Rep.congr (hr : Rep L h up p path K F) (hF : ∀ a ∈ F, h' a = h a) : Rep L h' up p path K F := by
  induction hr with
  | leaf length begins keys nodes => exact .leaf length begins keys nodes
  | @node up a path K F Ks Fs inner sub empty apart own keys nodes ih =>
    have ha : h' a = h a := hF a (nodes ▸ Set.mem_insert _ _)
    refine .node Ks Fs (ha ▸ inner) (fun b c hc => ?_) (fun b hb => empty b (ha ▸ hb)) apart own keys nodes
    rw [ha] at hc ⊢
    exact ih b c hc fun d hd => hF d (nodes ▸ Set.mem_insert_of_mem _ (Set.mem_iUnion.mpr ⟨b, hd⟩))

/-- A tree may hang under another node. -/
theorem Rep.reparent (hr : Rep L h up p path K F)
    (hF : ∀ a ∈ F, ∃ parent, h' a = { h a with parent := parent } ∧
      if p = .node a then parent = none ∨ parent = up' else parent = (h a).parent) :
        Rep L h' up' p path K F := by
  cases hr with
  | leaf length begins keys nodes => exact .leaf length begins keys nodes
  | @node _ a _ _ _ Ks Fs inner sub empty apart own keys nodes =>
    obtain ⟨parent, ha, hparent⟩ := hF a (nodes ▸ Set.mem_insert _ _)
    rw [if_pos rfl] at hparent
    have hsame : Node.SameChildren (h' a) (h a) := by rw [ha]; exact ⟨rfl, rfl, rfl, rfl, rfl⟩
    have hpfx : (h' a).prefixBytes = (h a).prefixBytes := by rw [ha]; rfl
    refine .node Ks Fs ⟨hsame.wf inner.wf, ?_, ?_, ?_, ?_⟩ (fun b c hc => ?_)
      (fun b hb => empty b (hsame.get b ▸ hb)) apart own
      keys nodes
    · rw [ha]
      exact ⟨inner.quiet.old, inner.quiet.locked, inner.quiet.expanding⟩
    · rw [ha]
      exact inner.offset
    · rw [ha]
      exact hparent
    · obtain ⟨b, b', hbb, hb, hb'⟩ := inner.two
      exact ⟨b, b', hbb, by rwa [hsame.get], by rwa [hsame.get]⟩
    · rw [hsame.get] at hc
      rw [hpfx]
      refine (sub b c hc).congr fun d hd => ?_
      obtain ⟨parent, hd', hparent⟩ := hF d (nodes ▸ Set.mem_insert_of_mem _ (Set.mem_iUnion.mpr ⟨b, hd⟩))
      have hne : Ptr.node a ≠ .node d := fun e => own b (by injection e with e; exact e ▸ hd)
      rw [if_neg hne] at hparent
      rw [hd', hparent]

/-- The keys under a byte go on with it. -/
theorem keys_under {Ks : UInt8 → Set (List UInt8)} {Fs : UInt8 → Set ℕ} {n : Node} {q : List UInt8}
    (sub : ∀ b c, n.get b = some c → Rep L h up c (q ++ [b]) (Ks b) (Fs b))
    (empty : ∀ b, n.get b = none → Ks b = ∅ ∧ Fs b = ∅)
    {b : UInt8} (hk : k ∈ Ks b) : q ++ [b] <+: k ∧ k.length = L := by
  cases hc : n.get b with
  | none => rw [(empty b hc).1] at hk; exact hk.elim
  | some c => exact (sub b c hc).along hk

/-- A key is among those under its byte, or not there. -/
theorem mem_under_iff {Ks : UInt8 → Set (List UInt8)} {q : List UInt8} (keys : K = ⋃ b, Ks b)
    (hunder : ∀ b k, k ∈ Ks b → q ++ [b] <+: k) {b : UInt8} (hb : q ++ [b] <+: key) : key ∈ K ↔ key ∈ Ks b := by
  rw [keys, Set.mem_iUnion]
  refine ⟨fun ⟨b', hb'⟩ => ?_, fun hk => ⟨b, hk⟩⟩
  have hbyte := (prefix_snoc_iff.mp (hunder b' key hb')).2.symm.trans (prefix_snoc_iff.mp hb).2
  exact Option.some.inj hbyte ▸ hb'

/-- The byte that follows a path is one byte of the key. -/
theorem exists_byte {q : List UInt8} (hq : q <+: key) (hlt : q.length < key.length) :
    ∃ b, q ++ [b] <+: key ∧ key[q.length]? = some b ∧ key.getD q.length 0 = b := by
  have hbyte := List.getElem?_eq_getElem hlt
  exact ⟨_, prefix_snoc_iff.mpr ⟨hq, hbyte⟩, hbyte, by rw [List.getD_eq_getElem?_getD, hbyte, Option.getD_some]⟩

/-! ### Lookup -/

/-- **Lookup**: from any pointer in a tree, a key is found if and only if it is one of the tree's. -/
theorem AdaptiveRadixTree.getFrom_eq {s : AdaptiveRadixTree} (parent : Option ℕ)
    (hr : Rep key.length s.heap up p path K F)
    (hlen : key.length < 128) (hpath : path <+: key) {ptr : Slot} {fuel : ℕ} (hptr : s.load ptr = some p)
    (hfuel : key.length < fuel + path.length) :
    (key ∈ K →
      s.getFrom fuel parent ptr key key.length path.length true = .ok (.leaf (allocLeaf key key.length))) ∧
      (key ∉ K → s.getFrom fuel parent ptr key key.length path.length true = .ok .absent) := by
  induction hr generalizing ptr parent fuel with
  | @leaf up path k K F length begins keys nodes =>
    have hle := hpath.length_le
    obtain ⟨fuel, rfl⟩ := Nat.exists_eq_add_one_of_ne_zero (by omega : fuel ≠ 0)
    have hkey : (allocLeaf k key.length).key = k := length ▸ List.take_length
    have hleaf : (allocLeaf k key.length).getLeafLen = key.length :=
      length ▸ getLeafLen_allocLeaf (length ▸ hlen)
    have hdiffer : differ k key key.length key.length key.length path.length = common k key := by
      have hwhole : differ k key k.length key.length key.length path.length = common k key :=
        differ_eq (le_common begins hpath) (by omega)
      rwa [length] at hwhole
    rw [getFrom, hptr]
    simp only [Bool.not_true, Bool.false_and, Bool.false_eq_true, if_false, hkey, hleaf, hdiffer, and_self,
      common_eq_length_iff length, keys, Set.mem_singleton_iff]
    exact ⟨fun e => by rw [if_pos e.symm, e], fun e => if_neg (Ne.symm e)⟩
  | @node up a path K F Ks Fs inner sub empty apart own keys nodes ih =>
    have hunder : ∀ b k, k ∈ Ks b → path ++ (s.heap a).prefixBytes ++ [b] <+: k :=
      fun b k hk => (keys_under sub empty hk).1
    obtain ⟨k, hk⟩ := (Rep.node Ks Fs inner sub empty apart own keys nodes).nonempty
    have hin : path.length + getPrefixLen (s.heap a).version < key.length := by
      rw [keys, Set.mem_iUnion] at hk
      obtain ⟨b, hb⟩ := hk
      obtain ⟨hpre, hk⟩ := keys_under sub empty hb
      have := hpre.length_le
      simp only [List.length_append, Node.length_prefixBytes, List.length_singleton] at this
      omega
    obtain ⟨fuel, rfl⟩ := Nat.exists_eq_add_one_of_ne_zero (by omega : fuel ≠ 0)
    rw [getFrom, hptr]
    simp only [Bool.not_true, Bool.false_and, Bool.false_eq_true, if_false, inner.quiet.expanding, inner.offset,
      inner.quiet.old, ne_eq, not_true_eq_false, false_or, Node.prefixCompare_eq]
    by_cases hpfx : common (s.heap a).prefixBytes (key.drop path.length) = getPrefixLen (s.heap a).version
    · have hq : path ++ (s.heap a).prefixBytes <+: key :=
        (append_prefix_iff hpath).mpr (by rw [hpfx, Node.length_prefixBytes])
      have hqlen : (path ++ (s.heap a).prefixBytes).length = path.length + getPrefixLen (s.heap a).version := by
        rw [List.length_append, Node.length_prefixBytes]
      obtain ⟨b, hb, -, hbyte⟩ := exists_byte hq (by omega)
      have hmem := mem_under_iff keys hunder hb
      rw [hqlen] at hbyte
      rw [if_neg (not_not.mpr hpfx)]
      simp only [if_pos hin.ne, hbyte, hmem]
      cases hi : (s.heap a).findChild (s.heap a).version b with
      | none =>
        have hnone := empty b ((Node.get_eq_none_iff inner.wf).mpr hi)
        rw [hnone.1]
        exact ⟨fun e => e.elim, fun _ => rfl⟩
      | some i =>
        obtain ⟨c, hc⟩ := Option.ne_none_iff_exists'.mp (Node.child_of_findChild inner.wf hi)
        have hget : (s.heap a).get b = some c := (Node.get_eq_some hi).trans hc
        have hlength : (path ++ (s.heap a).prefixBytes ++ [b]).length =
          path.length + getPrefixLen (s.heap a).version + 1 := by
          rw [List.length_append, hqlen, List.length_singleton]
        rw [← hlength]
        have hload : s.load (.child a i) = some c := hc
        exact ih b c hget (some a) hb hload (by omega)
    · rw [if_pos hpfx]
      refine ⟨fun hk => absurd ?_ hpfx, fun _ => rfl⟩
      rw [keys, Set.mem_iUnion] at hk
      obtain ⟨b, hb⟩ := hk
      have hq := (append_prefix_iff hpath).mp ((List.prefix_append _ _).trans (hunder b key hb))
      rwa [Node.length_prefixBytes] at hq

end

end SidleBaselines.Art
