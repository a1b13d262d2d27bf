import SidleBaselines.Art.Tree

/-!
# ART: what an insertion does

An insertion goes down the tree as far as its key goes along, and there one of four things happens: a leaf
is replaced by a node with it and the new leaf; a node that the key leaves in its prefix gets a node
above it; a node with room gets a child; a full one is copied first.

## What is proved

* `Overlong` — the one thing that stops an insertion.
* `putFrom_eq` — below any pointer of a tree, an insertion of a key that is there does nothing, one that
  `Overlong` describes fails an assertion, and every other leaves a tree with that key as well.
-/

namespace SidleBaselines.Art

open Data

/-! ### Where an insertion stops -/

/-- From `off` on, one of the keys agrees with `key` in more than eight bytes after the last byte that any
other key has in common with it. -/
def Overlong (off : ℕ) (K : Set (List UInt8)) (key : List UInt8) : Prop :=
  ∃ k ∈ K, k ≠ key ∧ off + 8 < common k key ∧ ∀ k' ∈ K, k' ≠ k → common k' key + 9 < common k key

section

variable {off c : ℕ} {K : Set (List UInt8)} {k key q : List UInt8} {Ks : UInt8 → Set (List UInt8)} {b : UInt8}

theorem overlong_singleton : Overlong off {k} key ↔ k ≠ key ∧ off + 8 < common k key := by
  constructor
  · rintro ⟨k', hk', hne, hlt, -⟩
    obtain rfl : k' = k := hk'
    exact ⟨hne, hlt⟩
  · rintro ⟨hne, hlt⟩
    exact ⟨k, rfl, hne, hlt, fun k' hk' hne => absurd hk' hne⟩

/-- Not where the key leaves two others at once. -/
theorem not_overlong_of_level (off : ℕ) {k₁ k₂ : List UInt8} (h₁ : k₁ ∈ K) (h₂ : k₂ ∈ K) (hne : k₁ ≠ k₂)
    (hlevel : ∀ k ∈ K, common k key = c) : ¬ Overlong off K key := by
  rintro ⟨k, hk, -, -, hother⟩
  obtain ⟨k', hk', hne'⟩ : ∃ k' ∈ K, k' ≠ k := by
    by_cases h : k₁ = k
    · exact ⟨k₂, h₂, fun e => hne (h.trans e.symm)⟩
    · exact ⟨k₁, h₁, h⟩
  have := hother k' hk' hne'
  rw [hlevel k hk, hlevel k' hk'] at this
  omega

/-- Below a node, the keys of the other children do not matter. -/
theorem overlong_under_iff (keys : K = ⋃ b, Ks b) (hunder : ∀ b k, k ∈ Ks b → q ++ [b] <+: k)
    (hb : q ++ [b] <+: key)
    (hsome : (Ks b).Nonempty) (hother : ∃ b', b' ≠ b ∧ (Ks b').Nonempty) (hoff : off ≤ q.length) :
    Overlong off K key ↔ Overlong (q.length + 1) (Ks b) key := by
  have hlevel : ∀ b' k, b' ≠ b → k ∈ Ks b' → common k key = q.length := fun b' k hne hk =>
    common_diverge hne (hunder b' k hk) hb
  have hdeep : ∀ k ∈ Ks b, q.length + 1 ≤ common k key := fun k hk => by
    simpa using le_common (hunder b k hk) hb
  constructor
  · rintro ⟨k, hk, hne, hlt, hmost⟩
    rw [keys, Set.mem_iUnion] at hk
    obtain ⟨b', hk⟩ := hk
    obtain rfl | hbb := eq_or_ne b' b
    · obtain ⟨b'', hb'', k', hk'⟩ := hother
      have hkk : k' ≠ k := fun e => by
        have h' := hlevel b'' k' hb'' hk'
        have := hdeep k hk
        rw [e] at h'
        omega
      have := hmost k' (keys ▸ Set.mem_iUnion.mpr ⟨b'', hk'⟩) hkk
      rw [hlevel b'' k' hb'' hk'] at this
      exact ⟨k, hk, hne, by omega, fun k' hk' => hmost k' (keys ▸ Set.mem_iUnion.mpr ⟨_, hk'⟩)⟩
    · obtain ⟨k', hk'⟩ := hsome
      have hkk : k' ≠ k := fun e => by
        have h' := hdeep k' hk'
        have := hlevel b' k hbb hk
        rw [e] at h'
        omega
      have := hmost k' (keys ▸ Set.mem_iUnion.mpr ⟨b, hk'⟩) hkk
      rw [hlevel b' k hbb hk] at this
      have := hdeep k' hk'
      omega
  · rintro ⟨k, hk, hne, hlt, hmost⟩
    refine ⟨k, keys ▸ Set.mem_iUnion.mpr ⟨b, hk⟩, hne, by omega, fun k' hk' hkk => ?_⟩
    rw [keys, Set.mem_iUnion] at hk'
    obtain ⟨b', hk'⟩ := hk'
    obtain rfl | hbb := eq_or_ne b' b
    · exact hmost k' hk' hkk
    · rw [hlevel b' k' hbb hk']
      omega

end

/-! ### Trees put together -/

section

variable {L : ℕ} {h : ℕ → Node} {up : Option ℕ} {a : ℕ} {path pfx : List UInt8} {c₁ c₂ : Ptr} {b₁ b₂ : UInt8}
  {K₁ K₂ : Set (List UInt8)} {F₁ F₂ : Set ℕ}

/-- Two sets, one under each of two bytes. -/
theorem iUnion_two {A : Type} (hb : b₂ ≠ b₁) (S₁ S₂ : Set A) :
    (⋃ b, if b = b₂ then S₂ else if b = b₁ then S₁ else ∅) = S₁ ∪ S₂ := by
  ext x
  rw [Set.mem_iUnion, Set.mem_union]
  constructor
  · rintro ⟨b, hx⟩
    split_ifs at hx
    · exact .inr hx
    · exact .inl hx
    · exact hx.elim
  · rintro (hx | hx)
    · exact ⟨b₁, by rwa [if_neg hb.symm, if_pos rfl]⟩
    · exact ⟨b₂, by rwa [if_pos rfl]⟩

/-- Two trees under a node. -/
theorem Rep.pair (hp : Node.Pair (h a) path.length pfx b₁ b₂ c₁ c₂) (hb : b₂ ≠ b₁)
    (hparent : (h a).parent = none ∨ (h a).parent = up) (h₁ : Rep L h (some a) c₁ (path ++ pfx ++ [b₁]) K₁ F₁)
    (h₂ : Rep L h (some a) c₂ (path ++ pfx ++ [b₂]) K₂ F₂) (hapart : Disjoint F₁ F₂) (ha₁ : a ∉ F₁)
    (ha₂ : a ∉ F₂) :
    Rep L h up (.node a) path (K₁ ∪ K₂) (insert a (F₁ ∪ F₂)) := by
  have hget₁ : (h a).get b₁ = some c₁ := by rw [hp.get, if_neg hb.symm, if_pos rfl]
  have hget₂ : (h a).get b₂ = some c₂ := by rw [hp.get, if_pos rfl]
  refine .node (fun b => if b = b₂ then K₂ else if b = b₁ then K₁ else ∅)
    (fun b => if b = b₂ then F₂ else if b = b₁ then F₁ else ∅)
    ⟨hp.wf, hp.quiet, hp.offset, hparent, b₁, b₂, hb.symm, ?_, ?_⟩ (fun b c hc => ?_) (fun b hnone => ?_)
      (fun b b' hbb => ?_)
    (fun b => ?_) ?_ ?_
  · rw [hget₁]
    exact Option.some_ne_none _
  · rw [hget₂]
    exact Option.some_ne_none _
  · rw [hp.pfx]
    rw [hp.get] at hc
    split_ifs at hc ⊢ with hb₂ hb₁
    · obtain rfl := Option.some.inj hc
      exact hb₂ ▸ h₂
    · obtain rfl := Option.some.inj hc
      exact hb₁ ▸ h₁
  · rw [hp.get] at hnone
    split_ifs at hnone ⊢
    exact ⟨rfl, rfl⟩
  · split_ifs with h1 h2 h3 h4 h5 h6
    · exact absurd (h1.trans h2.symm) hbb
    · exact hapart.symm
    · exact Set.disjoint_empty _
    · exact hapart
    · exact absurd (h4.trans h6.symm) hbb
    · exact Set.disjoint_empty _
    · exact Set.empty_disjoint _
    · exact Set.empty_disjoint _
    · exact Set.empty_disjoint _
  · split_ifs
    · exact ha₂
    · exact ha₁
    · exact Set.notMem_empty a
  · rw [iUnion_two hb]
  · rw [iUnion_two hb]

/-- One more set under a byte that had none. -/
theorem iUnion_update {A : Type} {Ss : UInt8 → Set A} {b : UInt8} {S : Set A} (x : Set A) (hS : S = Ss b ∪ x) :
    (⋃ b', Function.update Ss b S b') = (⋃ b', Ss b') ∪ x := by
  ext y
  rw [Set.mem_iUnion, Set.mem_union, Set.mem_iUnion]
  constructor
  · rintro ⟨b', hy⟩
    by_cases hb : b' = b
    · rw [hb, Function.update_self, hS] at hy
      exact hy.imp (fun h => ⟨b, h⟩) id
    · rw [Function.update_of_ne hb] at hy
      exact .inl ⟨b', hy⟩
  · rintro (⟨b', hy⟩ | hy)
    · by_cases hb : b' = b
      · exact ⟨b, by rw [Function.update_self, hS]; exact .inl (hb ▸ hy)⟩
      · exact ⟨b', by rwa [Function.update_of_ne hb]⟩
    · exact ⟨b, by rw [Function.update_self, hS]; exact .inr hy⟩

/-- A node that gets a child, or another one, still has two. -/
theorem two_children {n m : Node} {b : UInt8} {c : Ptr}
    (hget : ∀ b', m.get b' = if b' = b then some c else n.get b')
    (h : ∃ b₁ b₂, b₁ ≠ b₂ ∧ n.get b₁ ≠ none ∧ n.get b₂ ≠ none) :
    ∃ b₁ b₂, b₁ ≠ b₂ ∧ m.get b₁ ≠ none ∧ m.get b₂ ≠ none := by
  obtain ⟨b₁, b₂, hbb, h₁, h₂⟩ := h
  have hkeep : ∀ b', n.get b' ≠ none → m.get b' ≠ none := by
    intro b' hb'
    rw [hget]
    split_ifs
    · exact Option.some_ne_none _
    · exact hb'
  exact ⟨b₁, b₂, hbb, hkeep b₁ h₁, hkeep b₂ h₂⟩

theorem Inner.store {n : Node} {b : UInt8} {i : ℕ} (inner : Inner n up path) (hi : n.findChild n.version b = some i)
    (c : Ptr) : Inner (n.store i c) up path where
  wf := inner.wf.store i c
  quiet := ⟨inner.quiet.old, inner.quiet.locked, inner.quiet.expanding⟩
  offset := inner.offset
  parent := inner.parent
  two := two_children (Node.get_store inner.wf hi c) inner.two

/-- Sets apart stay so when one of them changes within what the others leave. -/
theorem apart_update {A : Type} {Ss : UInt8 → Set A} {b : UInt8} {S : Set A}
    (apart : ∀ b₁ b₂, b₁ ≠ b₂ → Disjoint (Ss b₁) (Ss b₂)) (hS : ∀ b', b' ≠ b → Disjoint S (Ss b')) (b₁ b₂ : UInt8)
    (hbb : b₁ ≠ b₂) : Disjoint (Function.update Ss b S b₁) (Function.update Ss b S b₂) := by
  by_cases hb₁ : b₁ = b <;> by_cases hb₂ : b₂ = b
  · exact absurd (hb₁.trans hb₂.symm) hbb
  · rw [hb₁, Function.update_self, Function.update_of_ne hb₂]
    exact hS b₂ hb₂
  · rw [hb₂, Function.update_self, Function.update_of_ne hb₁]
    exact (hS b₁ hb₁).symm
  · rw [Function.update_of_ne hb₁, Function.update_of_ne hb₂]
    exact apart b₁ b₂ hbb

/-- A node with one leaf more, the trees under it being those of `n`. -/
theorem Rep.filled {n : Node} {key : List UInt8} {b : UInt8} {Ks : UInt8 → Set (List UInt8)}
    {Fs : UInt8 → Set ℕ} {up' : Option ℕ}
    (inner : Inner n up' path) (hf : Node.Filled n (h a) b (.leaf (allocLeaf key L)))
    (hparent : (h a).parent = none ∨ (h a).parent = up) (hlen : key.length = L)
    (hb : path ++ n.prefixBytes ++ [b] <+: key)
    (hnew : n.get b = none)
    (sub : ∀ b c, n.get b = some c → Rep L h (some a) c (path ++ n.prefixBytes ++ [b]) (Ks b) (Fs b))
    (empty : ∀ b, n.get b = none → Ks b = ∅ ∧ Fs b = ∅) (apart : ∀ b b', b ≠ b' → Disjoint (Fs b) (Fs b'))
    (own : ∀ b, a ∉ Fs b) :
    Rep L h up (.node a) path (insert key (⋃ b, Ks b)) (insert a (⋃ b, Fs b)) := by
  obtain ⟨hK, hF⟩ := empty b hnew
  refine .node (Function.update Ks b {key}) Fs ⟨hf.wf, hf.quiet, hf.offset.trans inner.offset, hparent, ?_⟩
    (fun b' c hc => ?_) (fun b' hnone => ?_) apart own ?_ rfl
  · exact two_children hf.get inner.two
  · rw [hf.pfx]
    rw [hf.get] at hc
    by_cases hbb : b' = b
    · rw [if_pos hbb] at hc
      obtain rfl := Option.some.inj hc
      rw [hbb, Function.update_self]
      exact .leaf hlen hb rfl hF
    · rw [if_neg hbb] at hc
      rw [Function.update_of_ne hbb]
      exact sub b' c hc
  · rw [hf.get] at hnone
    split_ifs at hnone with hbb
    rw [Function.update_of_ne hbb]
    exact empty b' hnone
  · rw [iUnion_update {key} (by rw [hK, Set.empty_union]), Set.union_singleton]

end

/-! ### Insertion -/

namespace AdaptiveRadixTree

variable {s s' : AdaptiveRadixTree} {up : Option ℕ} {p c : Ptr} {path key : List UInt8}
    {K : Set (List UInt8)} {F F' : Set ℕ}
  {ptr : Slot}

/-- A key has been inserted into the tree in a place: `c` is there now, the tree below it has the key as well,
and outside that tree and the free memory nothing else has changed. -/
structure Put (key : List UInt8) (up : Option ℕ) (path : List UInt8) (K : Set (List UInt8)) (F : Set ℕ)
    (s : AdaptiveRadixTree) (ptr : Slot) (s' : AdaptiveRadixTree) (c : Ptr) (F' : Set ℕ) : Prop where
  heap : ∀ a, a ∉ F → a < s.next → s'.heap a = (s.store ptr c).heap a
  root : s'.root = (s.store ptr c).root
  next : s.next ≤ s'.next
  nodes : ∀ a ∈ F', a ∈ F ∨ s.next ≤ a ∧ a < s'.next
  rep : Rep key.length s'.heap up c path (insert key K) F'

/-- **An insertion below a child** is one below the node. -/
theorem Put.under {a i : ℕ} {b : UInt8} {Ks : UInt8 → Set (List UInt8)} {Fs : UInt8 → Set ℕ}
    (inner : Inner (s.heap a) up path)
    (sub : ∀ b c, (s.heap a).get b = some c →
      Rep key.length s.heap (some a) c (path ++ (s.heap a).prefixBytes ++ [b]) (Ks b) (Fs b))
    (empty : ∀ b, (s.heap a).get b = none → Ks b = ∅ ∧ Fs b = ∅)
    (apart : ∀ b b', b ≠ b' → Disjoint (Fs b) (Fs b'))
    (own : ∀ b, a ∉ Fs b) (keys : K = ⋃ b, Ks b) (nodes : F = insert a (⋃ b, Fs b))
    (hptr : s.load ptr = some (.node a))
    (hbound : ∀ d ∈ F, d < s.next) (hi : (s.heap a).findChild (s.heap a).version b = some i)
    (h : Put key (some a) (path ++ (s.heap a).prefixBytes ++ [b]) (Ks b) (Fs b) s (.child a i) s' c F') :
    Put key up path K F s ptr s' (.node a) (insert a (⋃ b', Function.update Fs b F' b')) := by
  have hFs : ∀ b' d, d ∈ Fs b' → d ∈ F :=
    fun b' d hd => nodes ▸ Set.mem_insert_of_mem _ (Set.mem_iUnion.mpr ⟨b', hd⟩)
  have ha : a < s.next := hbound a (nodes ▸ Set.mem_insert _ _)
  have hnode : s'.heap a = (s.heap a).store i c := (h.heap a (own b) ha).trans set_heap_self
  have hother : ∀ d, d ≠ a → d ∉ Fs b → d < s.next → s'.heap d = s.heap d := fun d hda hd hlt =>
    (h.heap d hd hlt).trans (set_heap_ne hda)
  have hF' : ∀ b', b' ≠ b → Disjoint F' (Fs b') := by
    refine fun b' hbb => Set.disjoint_left.mpr fun d hd hd' => ?_
    rcases h.nodes d hd with hold | ⟨hnew, -⟩
    · exact Set.disjoint_left.mp (apart b' b hbb) hd' hold
    · exact absurd (hbound d (hFs b' d hd')) (Nat.not_lt.mpr hnew)
  have hpfx : (s'.heap a).prefixBytes = (s.heap a).prefixBytes := by rw [hnode]; rfl
  refine ⟨fun d hd hlt => ?_, ?_, h.next, fun d hd => ?_, ?_⟩
  · rw [store_load hptr]
    exact hother d (fun e => hd (e ▸ nodes ▸ Set.mem_insert _ _)) (fun hd' => hd (hFs b d hd')) hlt
  · rw [store_load hptr]
    exact h.root
  · rcases Set.mem_insert_iff.mp hd with rfl | hd
    · exact .inl (nodes ▸ Set.mem_insert _ _)
    · obtain ⟨b', hd⟩ := Set.mem_iUnion.mp hd
      by_cases hbb : b' = b
      · rw [hbb, Function.update_self] at hd
        exact (h.nodes d hd).imp_left (hFs b d)
      · rw [Function.update_of_ne hbb] at hd
        exact .inl (hFs b' d hd)
  · have hget : ∀ b', (s'.heap a).get b' = if b' = b then some c else (s.heap a).get b' := by
      intro b'
      rw [hnode]
      exact Node.get_store inner.wf hi c b'
    refine .node (Function.update Ks b (insert key (Ks b))) (Function.update Fs b F') (hnode ▸ inner.store hi c)
      (fun b' c' hc => ?_) (fun b' hnone => ?_) (apart_update apart hF') (fun b' => ?_) ?_ rfl
    · rw [hget] at hc
      rw [hpfx]
      by_cases hbb : b' = b
      · rw [if_pos hbb] at hc
        obtain rfl := Option.some.inj hc
        rw [hbb, Function.update_self, Function.update_self]
        exact h.rep
      · rw [if_neg hbb] at hc
        rw [Function.update_of_ne hbb, Function.update_of_ne hbb]
        refine (sub b' c' hc).congr fun d hd => hother d (fun e => own b' (e ▸ hd)) (fun hd' => ?_)
          (hbound d (hFs b' d hd))
        exact Set.disjoint_left.mp (apart b' b hbb) hd hd'
    · rw [hget] at hnone
      split_ifs at hnone with hbb
      rw [Function.update_of_ne hbb, Function.update_of_ne hbb]
      exact empty b' hnone
    · by_cases hbb : b' = b
      · rw [hbb, Function.update_self]
        intro hd
        rcases h.nodes a hd with hold | ⟨hnew, -⟩
        · exact own b hold
        · exact absurd ha (Nat.not_lt.mpr hnew)
      · rw [Function.update_of_ne hbb]
        exact own b'
    · rw [iUnion_update {key} (Set.union_singleton).symm, Set.union_singleton, keys]

/-- What `load` finds in a place does not depend on the lock of the node it is in. -/
theorem load_withLock {u i : ℕ} : (s.set u (s.heap u).withLock).load (.child u i) = s.load (.child u i) := by
  rw [load, set_heap_self]
  rfl

/-- A leaf is replaced by the node made for it, and nothing else changes. -/
theorem replaceLeaf_eq {l : Leaf} {len off : ℕ} {b : UInt8} {n : Node} (hslot : s.SlotAt up ptr b)
    (hup : ∀ u, up = some u → u < s.next) (hptr : s.load ptr = some (.leaf l))
    (hnew : s.replaceLeafChild l key len off = .ok (some s.next, s.fresh.set s.next n)) :
    s.replaceLeaf up ptr l key len off = .ok (0, (s.fresh.set s.next n).store ptr (.node s.next)) := by
  rw [replaceLeaf, hnew]
  simp only [bind, Except.bind]
  cases up with
  | none =>
    obtain rfl : ptr = .root := hslot
    exact if_pos hptr
  | some u =>
    obtain ⟨i, rfl, hi, hu⟩ := hslot
    have hheap : (s.fresh.set s.next n).heap u = s.heap u := set_heap_ne (hup u rfl).ne
    have hload : (s.fresh.set s.next n).load (.child u i) = some (.leaf l) := by
      rw [load, hheap]
      exact hptr
    dsimp only
    rw [lock_eq (hheap ▸ hu)]
    dsimp only
    rw [if_neg Bool.false_ne_true, load_withLock, if_neg (not_not.mpr hload), unlock_store (hheap ▸ hu)]

/-- **An insertion that comes to a leaf.** -/
theorem replaceLeaf_put {k : List UInt8} (hk : k.length = key.length) (hlen : key.length < 128)
    (hbegins : path <+: k)
    (hpath : path <+: key) (hptr : s.load ptr = some (.leaf (allocLeaf k key.length)))
    (hslot : s.SlotAt up ptr (key.getD (path.length - 1) 0)) (hup : ∀ u, up = some u → u < s.next) :
    (key ∈ ({k} : Set (List UInt8)) →
      s.replaceLeaf up ptr (allocLeaf k key.length) key key.length path.length = .ok (1, s)) ∧
    (key ∉ ({k} : Set (List UInt8)) → Overlong path.length {k} key →
      s.replaceLeaf up ptr (allocLeaf k key.length) key key.length path.length = .error .assert) ∧
    (key ∉ ({k} : Set (List UInt8)) → ¬ Overlong path.length {k} key →
      ∃ s' c F', s.replaceLeaf up ptr (allocLeaf k key.length) key key.length path.length = .ok (0, s') ∧
        Put key up path {k} ∅ s ptr s' c F') := by
  have hoff := le_common hbegins hpath
  refine ⟨fun hmem => ?_, fun hmem hover => ?_, fun hmem hover => ?_⟩
  · obtain rfl : key = k := hmem
    rw [replaceLeaf, replaceLeafChild_self hlen hpath.length_le]
    rfl
  · have hne : k ≠ key := fun e => hmem e.symm
    have h8 := (overlong_singleton.mp hover).2
    rw [replaceLeaf, replaceLeafChild_eq hk hlen hoff hne, if_neg (by omega)]
    rfl
  · have hne : k ≠ key := fun e => hmem e.symm
    have h8 : common k key - path.length ≤ 8 := by
      by_contra h
      exact hover (overlong_singleton.mpr ⟨hne, by omega⟩)
    obtain ⟨hlt, hbyte⟩ := getD_common_ne hk hne
    have hnew := replaceLeafChild_eq (s := s) hk hlen hoff hne
    rw [if_pos h8] at hnew
    obtain ⟨-, -, hpair, hparent⟩ :=
      Node.pair (s.heap s.next) k path.length path.length (common k key - path.length)
      (.leaf (allocLeaf k key.length)) (.leaf (allocLeaf key key.length)) (by omega) (by omega) (by omega) hbyte
    have hne_next : ∀ i, ptr ≠ .child s.next i := hslot.ne fun u hu => (hup u hu).ne
    refine ⟨_, .node s.next, insert s.next (∅ ∪ ∅), replaceLeaf_eq hslot hup hptr hnew, fun a _ ha => ?_,
      ?_, ?_, ?_, ?_⟩
    · exact store_heap_congr (s := s) (set_heap_ne (s := s.fresh) ha.ne) ptr _
    · exact store_root_congr (s := s) (t := s.fresh.set s.next _) rfl ptr _
    · rw [store_next]
      exact Nat.le_succ _
    · rintro a (rfl | ha)
      · rw [store_next]
        exact .inr ⟨le_rfl, Nat.lt_succ_self _⟩
      · exact absurd ha (by simp)
    · have hheap := (store_heap_ne (c := .node s.next) hne_next).trans
        (set_heap_self (s := s.fresh) (a := s.next) (n := Node.paired (s.heap s.next) k path.length path.length
          (common k key - path.length) (k.getD (common k key) 0) (key.getD (common k key) 0)
          (.leaf (allocLeaf k key.length)) (.leaf (allocLeaf key key.length))))
      have hq : path ++ (k.drop path.length).take (common k key - path.length) = k.take (common k key) := by
        rw [append_take_drop hbegins, Nat.add_sub_cancel' hoff]
      have hqlen : (k.take (common k key)).length = common k key := by
        rw [List.length_take, Nat.min_eq_left common_le_left]
      have hsnoc : ∀ x : List UInt8, x.length = key.length → k.take (common k key) <+: x →
          path ++ (k.drop path.length).take (common k key - path.length) ++ [x.getD (common k key) 0] <+:
            x := by
        intro x hx hpre
        obtain ⟨b, hb, -, hbyte⟩ := exists_byte hpre (by omega)
        rw [hqlen] at hbyte
        rw [hq, hbyte]
        exact hb
      rw [Set.insert_eq, Set.union_comm {key}]
      refine Rep.pair (by rw [hheap]; exact hpair) hbyte (by rw [hheap]; exact .inl hparent)
        (.leaf hk (hsnoc k hk (List.take_prefix _ _)) rfl rfl)
        (.leaf rfl (hsnoc key rfl (take_common k key ▸ List.take_prefix _ _)) rfl rfl) (Set.disjoint_empty _)
        (Set.notMem_empty _) (Set.notMem_empty _)

/-- The place of a node is in no node below. -/
structure Placed (s : AdaptiveRadixTree) (up : Option ℕ) (ptr : Slot) (b : UInt8) (F : Set ℕ) : Prop where
  slot : s.SlotAt up ptr b
  outside : ∀ u, up = some u → u ∉ F
  allocated : ∀ u, up = some u → u < s.next

/-- What an insertion does to a node whose prefix its key leaves. -/
theorem expand_eq {a pl : ℕ} (fuel : ℕ) (inner : Inner (s.heap a) up path) (hlen : key.length < 128)
    (hpl : common (s.heap a).prefixBytes (key.drop path.length) = pl)
    (hlt : pl < getPrefixLen (s.heap a).version)
    (hin : path.length + pl < key.length) (hptr : s.load ptr = some (.node a)) (ha : a < s.next)
    (hplaced : s.Placed up ptr (key.getD (path.length - 1) 0) {a})
    (hbyte : ((s.heap a).withLock.truncatePrefix pl).1 ≠ key.getD (path.length + pl) 0) :
    ∃ s', s.putFrom (fuel + 1) up ptr key key.length path.length true = .ok (0, s') ∧
      s'.heap s.next = { Node.paired (s.heap s.next) key path.length path.length pl
        (key.getD (path.length + pl) 0)
        ((s.heap a).withLock.truncatePrefix pl).1 (.leaf (allocLeaf key key.length)) (.node a) with
          parent := (s.heap a).parent } ∧
      s'.heap a = { ((s.heap a).withLock.truncatePrefix pl).2.unlocked with parent := some s.next } ∧
      (∀ d, d ≠ s.next → d ≠ a → s'.heap d = (s.store ptr (.node s.next)).heap d) ∧
      s'.root = (s.store ptr (.node s.next)).root ∧ s'.next = s.next + 1 := by
  have hnext : s.next ≠ a := ha.ne'
  let T := ((s.heap a).withLock.truncatePrefix pl).2
  let N := Node.paired (s.heap s.next) key path.length path.length pl (key.getD (path.length + pl) 0)
    ((s.heap a).withLock.truncatePrefix pl).1 (.leaf (allocLeaf key key.length)) (.node a)
  let s₁ := s.set a (s.heap a).withLock
  let s₂ := (s₁.fresh.set a T).set s.next N
  have hs₁ : s₁.heap a = (s.heap a).withLock := set_heap_self
  have hexpand : s₁.expandAndInsert a key key.length path.length pl = .ok (s.next, s₂) := by
    have h := expandAndInsert_eq (s := s₁) (a := a) (p := pl) ha.ne hlen hin (by rw [hs₁]; exact hbyte)
    have hs₁n : s₁.next = s.next := rfl
    have hs₁' : s₁.heap s.next = s.heap s.next := set_heap_ne hnext
    rwa [hs₁, hs₁n, hs₁'] at h
  have hsame : compareExpand (s.heap a).version (s₁.heap a).version = false := by
    have hexpanding : isExpanding (setLock (s.heap a).version) = isExpanding (s.heap a).version :=
      congrArg Header.expanding header_setLock
    have hvexpand : getVexpand (setLock (s.heap a).version) = getVexpand (s.heap a).version :=
      congrArg Header.vexpand header_setLock
    rw [hs₁, Node.withLock, compareExpand, hexpanding, hvexpand, bne_self_eq_false, bne_self_eq_false,
      Bool.or_false]
  have hs₂ : s₂.heap a = T := (set_heap_ne hnext.symm).trans set_heap_self
  have hs₂n : s₂.heap s.next = N := set_heap_self
  have hs₂' : ∀ d, d ≠ s.next → d ≠ a → s₂.heap d = s.heap d := fun d hd hda =>
    (set_heap_ne hd).trans ((set_heap_ne hda).trans (set_heap_ne hda))
  have hua : ∀ u, up = some u → u ≠ a ∧ u ≠ s.next := fun u hu =>
    ⟨fun e => hplaced.outside u hu e, (hplaced.allocated u hu).ne⟩
  obtain ⟨-, -, -, hparent⟩ := Node.pair (s.heap s.next) key path.length path.length pl
    (.leaf (allocLeaf key key.length)) (.node a) (by omega) (by omega) (by omega) hbyte
  obtain ⟨parent, t, hlocked, ht, hplace⟩ := link_eq (s := s₂) (a := a)
    (hplaced.slot.congr fun u hu => hs₂' u (hua u hu).2 (hua u hu).1) (hs₂ ▸ inner.parent) hua
    (hs₂n ▸ hparent) hnext.symm { T with parent := some s.next }
  rw [putFrom, hptr]
  simp only [Bool.not_true, Bool.false_and, Bool.false_eq_true, if_false, inner.quiet.expanding, inner.offset,
    inner.quiet.old, ne_eq, not_true_eq_false, false_or, Node.prefixCompare_eq, hpl, hlt.ne,
      not_false_eq_true, if_true,
    lock_eq inner.quiet, bind, Except.bind]
  rw [if_neg (by rw [hsame]; exact Bool.false_ne_true), hexpand]
  dsimp only
  rw [hlocked]
  dsimp only
  rw [ht, hs₂, hplace]
  refine ⟨_, rfl, ?_, ?_, fun d hd hda => ?_, ?_, ?_⟩
  · rw [unlock, set_heap_ne hnext, set_heap_self, hs₂n, hs₂]
    rfl
  · have hslot : ∀ i, ptr ≠ .child a i := hplaced.slot.ne fun u hu => (hua u hu).1
    rw [unlock, set_heap_self, set_heap_ne hnext.symm, store_heap_ne hslot, set_heap_self]
    rfl
  · rw [unlock, set_heap_ne hda, set_heap_ne hd]
    exact store_heap_congr (s := s) ((set_heap_ne hda).trans (hs₂' d hd hda)) ptr _
  · exact store_root_congr (s := s) (t := s₂.set a _) rfl ptr _
  · rw [unlock, set_next, set_next, store_next]
    rfl

/-- **An insertion that leaves a prefix.** -/
theorem expand_put {a pl fuel : ℕ} {Ks : UInt8 → Set (List UInt8)} {Fs : UInt8 → Set ℕ}
    (inner : Inner (s.heap a) up path)
    (sub : ∀ b c, (s.heap a).get b = some c →
      Rep key.length s.heap (some a) c (path ++ (s.heap a).prefixBytes ++ [b]) (Ks b) (Fs b))
    (empty : ∀ b, (s.heap a).get b = none → Ks b = ∅ ∧ Fs b = ∅)
    (apart : ∀ b b', b ≠ b' → Disjoint (Fs b) (Fs b'))
    (own : ∀ b, a ∉ Fs b) (keys : K = ⋃ b, Ks b) (nodes : F = insert a (⋃ b, Fs b)) (hlen : key.length < 128)
    (hpath : path <+: key) (hpl : common (s.heap a).prefixBytes (key.drop path.length) = pl)
    (hlt : pl < getPrefixLen (s.heap a).version) (hin : path.length + pl < key.length)
    (hptr : s.load ptr = some (.node a))
    (hplaced : s.Placed up ptr (key.getD (path.length - 1) 0) F) (hbound : ∀ d ∈ F, d < s.next) :
    ∃ s' c F', s.putFrom (fuel + 1) up ptr key key.length path.length true = .ok (0, s') ∧
      Put key up path K F s ptr s' c F' := by
  have haF : a ∈ F := nodes ▸ Set.mem_insert _ _
  have ha := hbound a haF
  have hFs : ∀ b d, d ∈ Fs b → d ∈ F :=
    fun b d hd => nodes ▸ Set.mem_insert_of_mem _ (Set.mem_iUnion.mpr ⟨b, hd⟩)
  have hpl' : pl < (s.heap a).withLock.prefixBytes.length := by
    rwa [Node.withLock_prefixBytes, Node.length_prefixBytes]
  have hsplit := Node.truncatePrefix_byte (n := (s.heap a).withLock) (by rwa [Node.length_prefixBytes] at hpl')
  rw [Node.withLock_prefixBytes] at hsplit
  have htake : (s.heap a).prefixBytes.take pl = (key.drop path.length).take pl := by
    have := take_common (s.heap a).prefixBytes (key.drop path.length)
    rwa [hpl] at this
  have hq : path ++ (key.drop path.length).take pl = key.take (path.length + pl) := append_take_drop hpath pl
  have hqlen : (key.take (path.length + pl)).length = path.length + pl := by
    rw [List.length_take, Nat.min_eq_left hin.le]
  obtain ⟨b, hb, -, hbyteD⟩ := exists_byte (List.take_prefix (path.length + pl) key) (by omega)
  rw [hqlen] at hbyteD
  have hbyte : ((s.heap a).withLock.truncatePrefix pl).1 ≠ key.getD (path.length + pl) 0 := by
    intro e
    have hagree := lt_common_iff (x := (s.heap a).prefixBytes) (y := key.drop path.length) hpl.ge 0
    rw [hpl] at hagree
    refine absurd (hagree.mpr ⟨by rwa [Node.length_prefixBytes], by rw [List.length_drop]; omega, ?_⟩)
      (lt_irrefl _)
    have hleft : (s.heap a).prefixBytes.getD pl 0 = ((s.heap a).withLock.truncatePrefix pl).1 := by
      rw [hsplit, List.getD_eq_getElem?_getD, List.getElem?_append_right (by rw [List.length_take]; omega),
        List.length_take,
        Node.length_prefixBytes, Nat.min_eq_left hlt.le, Nat.sub_self, List.getElem?_cons_zero,
          Option.getD_some]
    rw [hleft, e, List.getD_eq_getElem?_getD, List.getD_eq_getElem?_getD, List.getElem?_drop]
  obtain ⟨-, -, hpair, -⟩ := Node.pair (s.heap s.next) key path.length path.length pl
    (.leaf (allocLeaf key key.length)) (.node a) (by omega) (by omega) (by omega) hbyte
  obtain ⟨s', hput, hnew, hcut, hother, hroot, hnext⟩ := expand_eq fuel inner hlen hpl hlt hin hptr ha
    ⟨hplaced.slot, fun u hu e => hplaced.outside u hu (e ▸ haF), hplaced.allocated⟩ hbyte
  have hcuts := Node.cut inner.quiet inner.offset (by omega : path.length + pl + 1 < 256) hlt
  refine ⟨s', .node s.next, insert s.next (∅ ∪ F), hput, fun d hd hlt => ?_, hroot,
    by omega, fun d hd => ?_, ?_⟩
  · exact hother d hlt.ne fun e => hd (e ▸ haF)
  · rcases Set.mem_insert_iff.mp hd with rfl | hd
    · exact .inr ⟨le_rfl, by omega⟩
    · rw [Set.empty_union] at hd
      exact .inl hd
  · have hslot : ∀ d ∈ F, ∀ i, ptr ≠ .child d i := fun d hd =>
      hplaced.slot.ne fun u hu e => hplaced.outside u hu (e ▸ hd)
    have hsame : Node.SameChildren (s'.heap a) (s.heap a) := by
      rw [hcut]
      exact ⟨hcuts.same.type, hcuts.same.count, hcuts.same.key, hcuts.same.index, hcuts.same.child⟩
    have hpfx : (s'.heap a).prefixBytes = (s.heap a).prefixBytes.drop (pl + 1) := by
      rw [hcut]
      exact hcuts.pfx
    have hfull : path ++ (key.drop path.length).take pl ++ [((s.heap a).withLock.truncatePrefix pl).1] ++
        (s.heap a).prefixBytes.drop (pl + 1) = path ++ (s.heap a).prefixBytes := by
      conv_rhs => rw [hsplit, htake]
      simp only [List.append_assoc, List.singleton_append]
    rw [Set.insert_eq]
    refine Rep.pair (by rw [hnew]; exact hpair.with_parent _) hbyte (by rw [hnew]; exact inner.parent)
      (.leaf rfl (by rw [hq, hbyteD]; exact hb) rfl rfl) ?_ (Set.empty_disjoint _)
        (Set.notMem_empty _) fun h => ?_
    · refine .node Ks Fs ⟨hsame.wf inner.wf, ?_, ?_, ?_, ?_⟩ (fun b c hc => ?_)
        (fun b hb => empty b (hsame.get b ▸ hb)) apart
        own keys nodes
      · rw [hcut]
        exact ⟨hcuts.quiet.old, hcuts.quiet.locked, hcuts.quiet.expanding⟩
      · rw [hcut, hq, List.length_append, hqlen, List.length_singleton]
        exact hcuts.offset
      · rw [hcut]
        exact .inr rfl
      · obtain ⟨b₁, b₂, hbb, h₁, h₂⟩ := inner.two
        exact ⟨b₁, b₂, hbb, by rwa [hsame.get], by rwa [hsame.get]⟩
      · rw [hsame.get] at hc
        rw [hpfx, hfull]
        refine (sub b c hc).congr fun d hd => ?_
        have hdF := hFs b d hd
        rw [hother d (hbound d hdF).ne fun e => own b (e ▸ hd), store_heap_ne (hslot d hdF)]
    · exact absurd (hbound _ h) (lt_irrefl _)

/-- **An insertion that adds a child**, in a node with room for it. -/
theorem room_put {a fuel : ℕ} {b : UInt8} {Ks : UInt8 → Set (List UInt8)} {Fs : UInt8 → Set ℕ}
    (inner : Inner (s.heap a) up path)
    (sub : ∀ b c, (s.heap a).get b = some c →
      Rep key.length s.heap (some a) c (path ++ (s.heap a).prefixBytes ++ [b]) (Ks b) (Fs b))
    (empty : ∀ b, (s.heap a).get b = none → Ks b = ∅ ∧ Fs b = ∅)
    (apart : ∀ b b', b ≠ b' → Disjoint (Fs b) (Fs b'))
    (own : ∀ b, a ∉ Fs b) (keys : K = ⋃ b, Ks b) (nodes : F = insert a (⋃ b, Fs b))
    (hpl : common (s.heap a).prefixBytes (key.drop path.length) = getPrefixLen (s.heap a).version)
    (hb : path ++ (s.heap a).prefixBytes ++ [b] <+: key) (hnew : (s.heap a).get b = none)
    (hroom : (s.heap a).isFull = false)
    (hptr : s.load ptr = some (.node a)) :
    ∃ s' c F', s.putFrom (fuel + 1) up ptr key key.length path.length true = .ok (0, s') ∧
      Put key up path K F s ptr s' c F' := by
  obtain ⟨hfind, hfull, hfilled, hparent⟩ :=
    Node.filled_room (c := .leaf (allocLeaf key key.length)) inner.wf inner.quiet hroom hnew
  have hbyte : key[path.length + getPrefixLen (s.heap a).version]? = some b := by
    have := (prefix_snoc_iff.mp hb).2
    rwa [List.length_append, Node.length_prefixBytes] at this
  have hnone := (Node.get_eq_none_iff inner.wf).mp hnew
  have hadd := addChild_room (s := s.set a (s.heap a).withLock) (a := a) (b := b) (c :=
    .leaf (allocLeaf key key.length))
    (by rw [set_heap_self]; exact hfind) (by rw [set_heap_self]; exact hfull) true
  rw [set_heap_self, set_set] at hadd
  let N := ((s.heap a).withLock.append (s.heap a).withLock.version b
    (.leaf (allocLeaf key key.length))).unlocked
  have hne : ∀ d, d ∉ F → d ≠ a := fun d hd e => hd (e ▸ nodes ▸ Set.mem_insert _ _)
  refine ⟨s.set a N, .node a, insert a (⋃ b, Fs b), ?_, fun d hd _ => ?_, ?_, le_rfl,
    fun d hd => .inl (nodes ▸ hd), ?_⟩
  · rw [putFrom, hptr]
    simp only [Bool.not_true, Bool.false_and, Bool.false_eq_true, if_false, inner.quiet.expanding, inner.offset,
      inner.quiet.old, ne_eq, not_true_eq_false, false_or, Node.prefixCompare_eq, hpl, hbyte, hnone,
        lock_eq inner.quiet,
      bind, Except.bind, hadd]
    rw [unlock, set_heap_self, set_set]
  · rw [store_load hptr]
    exact set_heap_ne (hne d hd)
  · rw [store_load hptr]
    rfl
  · rw [keys]
    refine Rep.filled (n := s.heap a) inner (by rw [set_heap_self]; exact hfilled)
      (by rw [set_heap_self]; exact hparent ▸ inner.parent) rfl hb hnew (fun b' c hc => ?_) empty apart own
    exact (sub b' c hc).congr fun d hd => set_heap_ne fun e => own b' (e ▸ hd)

/-- What an insertion does to a full node that has to get a child. -/
theorem grow_put_eq {a : ℕ} (fuel : ℕ) {b : UInt8} (inner : Inner (s.heap a) up path)
    (hpl : common (s.heap a).prefixBytes (key.drop path.length) = getPrefixLen (s.heap a).version)
    (hb : path ++ (s.heap a).prefixBytes ++ [b] <+: key) (hnew : (s.heap a).get b = none)
    (hfull : (s.heap a).isFull = true)
    (hptr : s.load ptr = some (.node a)) (ha : a < s.next)
    (hbelow : ∀ b d, (s.heap a).get b = some (.node d) → d ∈ F ∧ d ≠ a)
    (haF : a ∈ F) (hplaced : s.Placed up ptr (key.getD (path.length - 1) 0) F) (hbound : ∀ d ∈ F, d < s.next) :
    ∃ s' m, s.putFrom (fuel + 1) up ptr key key.length path.length true = .ok (0, s') ∧
      Node.Filled (s.heap a) m b (.leaf (allocLeaf key key.length)) ∧
      s'.heap s.next = { m with parent := (s.heap a).parent } ∧
      (∀ d, d ∉ F → d < s.next → s'.heap d = (s.store ptr (.node s.next)).heap d) ∧
      (∀ d ∈ F, d ≠ a → s'.heap d =
        if ∃ b, (s.heap a).get b = some (.node d) then { s.heap d with parent := some s.next } else s.heap d) ∧
      s'.root = (s.store ptr (.node s.next)).root ∧ s'.next = s.next + 1 := by
  let s₁ := s.set a (s.heap a).withLock
  have hs₁ : s₁.heap a = (s.heap a).withLock := set_heap_self
  have hsame := Node.withLock_same (s.heap a)
  obtain ⟨m, s₂, hadd, hfilled, hparent, hroot, hnext, hm, hold, hother⟩ :=
    addChild_full (s := s₁) (a := a) (b := b)
    (c := .leaf (allocLeaf key key.length)) (hs₁ ▸ hsame.wf inner.wf) (hs₁ ▸ hsame.isFull.trans hfull)
    (hs₁ ▸ (hsame.get b).trans hnew) ha.ne
    (fun b' e => (hbound _ (hbelow b' s.next (by rwa [hs₁, hsame.get] at e)).1).ne rfl)
    (fun b' e => (hbelow b' a (by rwa [hs₁, hsame.get] at e)).2 rfl)
  rw [hs₁] at hfilled hold hother
  have hs₂ : ∀ d, d ≠ s.next → d ≠ a → s₂.heap d =
      if ∃ b, (s.heap a).get b = some (.node d) then { s.heap d with parent := some s.next } else s.heap d := by
    intro d hd hda
    have hs₁d : s₁.heap d = s.heap d := set_heap_ne hda
    have hs₁n : s₁.next = s.next := rfl
    simpa only [hsame.get, hs₁d, hs₁n] using hother d hd hda
  have hkept : ∀ d, d ∉ F → d ≠ s.next → s₂.heap d = s.heap d := fun d hd hdn =>
    (hs₂ d hdn fun e => hd (e ▸ haF)).trans (if_neg fun ⟨b', e⟩ => hd (hbelow b' d e).1)
  have hua : ∀ u, up = some u → u ≠ a ∧ u ≠ s.next := fun u hu =>
    ⟨fun e => hplaced.outside u hu (e ▸ haF), (hplaced.allocated u hu).ne⟩
  have hs₂parent : (s₂.heap a).parent = (s.heap a).parent := by rw [hold]; rfl
  obtain ⟨parent, t, hlocked, ht, hplace⟩ := link_eq (s := s₂) (a := a)
    (hplaced.slot.congr fun u hu => hkept u (hplaced.outside u hu) (hua u hu).2) (hs₂parent ▸ inner.parent) hua
    (hm ▸ hparent) ha.ne (s₂.heap a)
  have hbyte : key[path.length + getPrefixLen (s.heap a).version]? = some b := by
    have := (prefix_snoc_iff.mp hb).2
    rwa [List.length_append, Node.length_prefixBytes] at this
  have hnone := (Node.get_eq_none_iff inner.wf).mp hnew
  have hset : t.set a (s₂.heap a) = t := set_heap_same ht
  rw [hset, set_heap_same rfl] at hplace
  have hslot : ∀ d ∈ F, ∀ i, ptr ≠ .child d i :=
    fun d hd => hplaced.slot.ne fun u hu e => hplaced.outside u hu (e ▸ hd)
  rw [putFrom, hptr]
  simp only [Bool.not_true, Bool.false_and, Bool.false_eq_true, if_false, inner.quiet.expanding, inner.offset,
    inner.quiet.old, ne_eq, not_true_eq_false, false_or, Node.prefixCompare_eq, hpl, hbyte, hnone,
      lock_eq inner.quiet,
    bind, Except.bind]
  rw [hadd]
  dsimp only
  rw [show s₁.next = s.next from rfl, hlocked]
  dsimp only
  rw [hplace]
  refine ⟨_, m, rfl, hfilled.of_withLock, ?_, fun d hd hlt => ?_, fun d hd hda => ?_, ?_, ?_⟩
  · rw [unlock, set_heap_ne ha.ne', set_heap_self, hs₂parent]
    exact congrArg (fun n : Node => { n with parent := (s.heap a).parent }) hm
  · have hda : d ≠ a := fun e => hd (e ▸ haF)
    rw [unlock, set_heap_ne hda, set_heap_ne hlt.ne]
    exact store_heap_congr (hkept d hd hlt.ne) ptr _
  · rw [unlock, set_heap_ne hda, set_heap_ne (hbound d hd).ne, store_heap_ne (hslot d hd)]
    exact hs₂ d (hbound d hd).ne hda
  · exact store_root_congr (s := s) hroot ptr _
  · rw [unlock, set_next, set_next, store_next, hnext]
    rfl

/-- **An insertion that adds a child** to a full node. -/
theorem grow_put {a fuel : ℕ} {b : UInt8} {Ks : UInt8 → Set (List UInt8)} {Fs : UInt8 → Set ℕ}
    (inner : Inner (s.heap a) up path)
    (sub : ∀ b c, (s.heap a).get b = some c →
      Rep key.length s.heap (some a) c (path ++ (s.heap a).prefixBytes ++ [b]) (Ks b) (Fs b))
    (empty : ∀ b, (s.heap a).get b = none → Ks b = ∅ ∧ Fs b = ∅)
    (apart : ∀ b b', b ≠ b' → Disjoint (Fs b) (Fs b'))
    (own : ∀ b, a ∉ Fs b) (keys : K = ⋃ b, Ks b) (nodes : F = insert a (⋃ b, Fs b))
    (hpl : common (s.heap a).prefixBytes (key.drop path.length) = getPrefixLen (s.heap a).version)
    (hb : path ++ (s.heap a).prefixBytes ++ [b] <+: key) (hnew : (s.heap a).get b = none)
    (hfull : (s.heap a).isFull = true)
    (hptr : s.load ptr = some (.node a)) (hplaced : s.Placed up ptr (key.getD (path.length - 1) 0) F)
    (hbound : ∀ d ∈ F, d < s.next) :
    ∃ s' c F', s.putFrom (fuel + 1) up ptr key key.length path.length true = .ok (0, s') ∧
      Put key up path K F s ptr s' c F' := by
  have haF : a ∈ F := nodes ▸ Set.mem_insert _ _
  have hFs : ∀ b d, d ∈ Fs b → d ∈ F :=
    fun b d hd => nodes ▸ Set.mem_insert_of_mem _ (Set.mem_iUnion.mpr ⟨b, hd⟩)
  have hchild : ∀ b d, (s.heap a).get b = some (.node d) → d ∈ Fs b := fun b d hd => (sub b _ hd).node_mem
  obtain ⟨s', m, hput, hfilled, hm, hout, hin, hroot, hnext⟩ :=
    grow_put_eq fuel (F := F) inner hpl hb hnew hfull hptr
    (hbound a haF) (fun b d hd => ⟨hFs b d (hchild b d hd), fun e => own b (e ▸ hchild b d hd)⟩) haF hplaced
      hbound
  refine ⟨s', .node s.next, insert s.next (⋃ b, Fs b), hput, hout, hroot, by omega, fun d hd => ?_, ?_⟩
  · rcases Set.mem_insert_iff.mp hd with rfl | hd
    · exact .inr ⟨le_rfl, by omega⟩
    · exact .inl (nodes ▸ Set.mem_insert_of_mem _ hd)
  · rw [keys]
    refine Rep.filled (n := s.heap a) inner (by rw [hm]; exact hfilled.with_parent _)
      (by rw [hm]; exact inner.parent) rfl hb hnew (fun b' c hc => ?_) empty apart
      fun b' hd => absurd (hbound _ (hFs b' _ hd)) (lt_irrefl _)
    refine (sub b' c hc).reparent fun d hd => ?_
    have hda : d ≠ a := fun e => own b' (e ▸ hd)
    rw [hin d (hFs b' d hd) hda]
    by_cases hmoved : ∃ b, (s.heap a).get b = some (.node d)
    · obtain ⟨b'', hb''⟩ := hmoved
      have hbb : b'' = b' := by
        by_contra hne
        exact Set.disjoint_left.mp (apart b'' b' hne) (hchild b'' d hb'') hd
      have hcd : c = .node d := Option.some.inj (hc.symm.trans (hbb ▸ hb''))
      exact ⟨some s.next, if_pos ⟨b'', hb''⟩, by rw [if_pos hcd]; exact .inr rfl⟩
    · refine ⟨(s.heap d).parent, if_neg hmoved, ?_⟩
      rw [if_neg fun hcd => hmoved ⟨b', hc.trans (by rw [hcd])⟩]

/-- Two keys below a node part there. -/
theorem two_under {a : ℕ} {Ks : UInt8 → Set (List UInt8)} {Fs : UInt8 → Set ℕ} (inner : Inner (s.heap a) up path)
    (sub : ∀ b c, (s.heap a).get b = some c →
      Rep key.length s.heap (some a) c (path ++ (s.heap a).prefixBytes ++ [b]) (Ks b) (Fs b))
    (empty : ∀ b, (s.heap a).get b = none → Ks b = ∅ ∧ Fs b = ∅) :
    ∃ b₁ b₂, b₁ ≠ b₂ ∧ ∃ k₁ ∈ Ks b₁, ∃ k₂ ∈ Ks b₂, k₁ ≠ k₂ := by
  have hsome : ∀ b, (s.heap a).get b ≠ none → (Ks b).Nonempty := fun b hb => by
    obtain ⟨c, hc⟩ := Option.ne_none_iff_exists'.mp hb
    exact (sub b c hc).nonempty
  obtain ⟨b₁, b₂, hbb, h₁, h₂⟩ := inner.two
  obtain ⟨k₁, hk₁⟩ := hsome b₁ h₁
  obtain ⟨k₂, hk₂⟩ := hsome b₂ h₂
  refine ⟨b₁, b₂, hbb, k₁, hk₁, k₂, hk₂, fun e => hbb ?_⟩
  have hbyte₁ := (prefix_snoc_iff.mp (keys_under sub empty hk₁).1).2
  have hbyte₂ := (prefix_snoc_iff.mp (keys_under sub empty hk₂).1).2
  rw [← e] at hbyte₂
  exact Option.some.inj (hbyte₁.symm.trans hbyte₂)

/-- A node's prefix ends before the keys do. -/
theorem prefix_under {a : ℕ} {Ks : UInt8 → Set (List UInt8)} {Fs : UInt8 → Set ℕ} (inner : Inner (s.heap a) up path)
    (sub : ∀ b c, (s.heap a).get b = some c →
      Rep key.length s.heap (some a) c (path ++ (s.heap a).prefixBytes ++ [b]) (Ks b) (Fs b))
    (empty : ∀ b, (s.heap a).get b = none → Ks b = ∅ ∧ Fs b = ∅) :
    path.length + getPrefixLen (s.heap a).version < key.length := by
  obtain ⟨b, -, -, k, hk, -⟩ := two_under inner sub empty
  obtain ⟨hpre, hlength⟩ := keys_under sub empty hk
  have := hpre.length_le
  rw [List.length_append, List.length_append, Node.length_prefixBytes, List.length_singleton] at this
  omega

/-- Where a key leaves all the keys below a node at one place, it goes in. -/
theorem not_overlong_under {a c : ℕ} {Ks : UInt8 → Set (List UInt8)} {Fs : UInt8 → Set ℕ}
    (inner : Inner (s.heap a) up path)
    (sub : ∀ b c, (s.heap a).get b = some c →
      Rep key.length s.heap (some a) c (path ++ (s.heap a).prefixBytes ++ [b]) (Ks b) (Fs b))
    (empty : ∀ b, (s.heap a).get b = none → Ks b = ∅ ∧ Fs b = ∅) (keys : K = ⋃ b, Ks b)
    (hlevel : ∀ k ∈ K, common k key = c) : ¬ Overlong path.length K key := by
  obtain ⟨b₁, b₂, -, k₁, hk₁, k₂, hk₂, hne⟩ := two_under inner sub empty
  have hmem : ∀ b k, k ∈ Ks b → k ∈ K := fun b k hk => keys ▸ Set.mem_iUnion.mpr ⟨b, hk⟩
  exact not_overlong_of_level path.length (hmem b₁ k₁ hk₁) (hmem b₂ k₂ hk₂) hne hlevel

/-- **The key's next byte has no child.** -/
theorem missing_put {a fuel : ℕ} {b : UInt8} {Ks : UInt8 → Set (List UInt8)} {Fs : UInt8 → Set ℕ}
    (inner : Inner (s.heap a) up path)
    (sub : ∀ b c, (s.heap a).get b = some c →
      Rep key.length s.heap (some a) c (path ++ (s.heap a).prefixBytes ++ [b]) (Ks b) (Fs b))
    (empty : ∀ b, (s.heap a).get b = none → Ks b = ∅ ∧ Fs b = ∅)
    (apart : ∀ b b', b ≠ b' → Disjoint (Fs b) (Fs b'))
    (own : ∀ b, a ∉ Fs b) (keys : K = ⋃ b, Ks b) (nodes : F = insert a (⋃ b, Fs b))
    (hpl : common (s.heap a).prefixBytes (key.drop path.length) = getPrefixLen (s.heap a).version)
    (hb : path ++ (s.heap a).prefixBytes ++ [b] <+: key) (hnew : (s.heap a).get b = none)
    (hptr : s.load ptr = some (.node a)) (hplaced : s.Placed up ptr (key.getD (path.length - 1) 0) F)
    (hbound : ∀ d ∈ F, d < s.next) :
    key ∉ K ∧ ¬ Overlong path.length K key ∧
      ∃ s' c F', s.putFrom (fuel + 1) up ptr key key.length path.length true = .ok (0, s') ∧
        Put key up path K F s ptr s' c F' := by
  have hunder : ∀ b k, k ∈ Ks b → path ++ (s.heap a).prefixBytes ++ [b] <+: k :=
    fun b k hk => (keys_under sub empty hk).1
  have hlevel : ∀ k ∈ K, common k key = (path ++ (s.heap a).prefixBytes).length := by
    intro k hk
    rw [keys, Set.mem_iUnion] at hk
    obtain ⟨b', hk⟩ := hk
    have hb' : b' ≠ b := fun e => by
      rw [e, (empty b hnew).1] at hk
      exact hk
    exact common_diverge hb' (hunder b' k hk) hb
  refine ⟨fun hk => ?_, not_overlong_under inner sub empty keys hlevel, ?_⟩
  · rw [mem_under_iff keys hunder hb, (empty b hnew).1] at hk
    exact hk
  · cases hfull : (s.heap a).isFull with
    | false => exact room_put inner sub empty apart own keys nodes hpl hb hnew hfull hptr
    | true => exact grow_put inner sub empty apart own keys nodes hpl hb hnew hfull hptr hplaced hbound

/-- **The key leaves inside the node's prefix.** -/
theorem diverge_put {a fuel : ℕ} {Ks : UInt8 → Set (List UInt8)} {Fs : UInt8 → Set ℕ}
    (inner : Inner (s.heap a) up path)
    (sub : ∀ b c, (s.heap a).get b = some c →
      Rep key.length s.heap (some a) c (path ++ (s.heap a).prefixBytes ++ [b]) (Ks b) (Fs b))
    (empty : ∀ b, (s.heap a).get b = none → Ks b = ∅ ∧ Fs b = ∅)
    (apart : ∀ b b', b ≠ b' → Disjoint (Fs b) (Fs b'))
    (own : ∀ b, a ∉ Fs b) (keys : K = ⋃ b, Ks b) (nodes : F = insert a (⋃ b, Fs b)) (hlen : key.length < 128)
    (hpath : path <+: key)
    (hpl : common (s.heap a).prefixBytes (key.drop path.length) ≠ getPrefixLen (s.heap a).version)
    (hptr : s.load ptr = some (.node a)) (hplaced : s.Placed up ptr (key.getD (path.length - 1) 0) F)
    (hbound : ∀ d ∈ F, d < s.next) :
    key ∉ K ∧ ¬ Overlong path.length K key ∧
      ∃ s' c F', s.putFrom (fuel + 1) up ptr key key.length path.length true = .ok (0, s') ∧
        Put key up path K F s ptr s' c F' := by
  have hin := prefix_under inner sub empty
  have hlt : common (s.heap a).prefixBytes (key.drop path.length) < getPrefixLen (s.heap a).version :=
    lt_of_le_of_ne (common_le_left.trans Node.length_prefixBytes.le) hpl
  have hdrop : common (s.heap a).prefixBytes (key.drop path.length) < (key.drop path.length).length := by
    rw [List.length_drop]
    omega
  obtain ⟨r, x, y, xs, ys, hxy, hx, hy, hr⟩ := exists_diverge (by rwa [Node.length_prefixBytes]) hdrop
  have hkey : path ++ r ++ [y] <+: key := ⟨ys, by
    have hjoin : path ++ key.drop path.length = key := List.prefix_iff_eq_append.mp hpath
    conv_rhs => rw [← hjoin, hy]
    simp⟩
  have hlevel : ∀ k ∈ K, common k key =
    path.length + common (s.heap a).prefixBytes (key.drop path.length) := by
    intro k hk
    rw [keys, Set.mem_iUnion] at hk
    obtain ⟨b, hk⟩ := hk
    have hpre : path ++ r ++ [x] <+: k := by
      refine List.IsPrefix.trans ?_ (keys_under sub empty hk).1
      rw [hx]
      exact ⟨xs ++ [b], by simp⟩
    rw [common_diverge hxy hpre hkey, List.length_append, hr]
  refine ⟨fun hk => ?_, not_overlong_under inner sub empty keys hlevel, ?_⟩
  · have := (hlevel key hk).symm.trans (common_self key)
    omega
  · exact expand_put inner sub empty apart own keys nodes hlen hpath rfl hlt (by omega) hptr hplaced hbound

/-- The child's slot is where the tree below it hangs. -/
theorem Placed.under {a i : ℕ} {b : UInt8} {Fs : UInt8 → Set ℕ} (inner : Inner (s.heap a) up path)
    (own : ∀ b, a ∉ Fs b) (ha : a < s.next) (hi : (s.heap a).findChild (s.heap a).version b = some i) :
    s.Placed (some a) (.child a i) b (Fs b) :=
  ⟨⟨i, rfl, hi, inner.quiet⟩, fun _ hu => Option.some.inj hu ▸ own b, fun _ hu => Option.some.inj hu ▸ ha⟩

/-- **The key's next byte has a child**, and the insertion goes on from its slot. -/
theorem descend_eq {a i fuel : ℕ} {b : UInt8} (inner : Inner (s.heap a) up path)
    (hpl : common (s.heap a).prefixBytes (key.drop path.length) = getPrefixLen (s.heap a).version)
    (hb : path ++ (s.heap a).prefixBytes ++ [b] <+: key)
    (hi : (s.heap a).findChild (s.heap a).version b = some i) (hptr : s.load ptr = some (.node a)) :
    s.putFrom (fuel + 1) up ptr key key.length path.length true =
      s.putFrom fuel (some a) (.child a i) key key.length (path ++ (s.heap a).prefixBytes ++ [b]).length true := by
  have hbyte : key[path.length + getPrefixLen (s.heap a).version]? = some b := by
    have := (prefix_snoc_iff.mp hb).2
    rwa [List.length_append, Node.length_prefixBytes] at this
  have hlength : (path ++ (s.heap a).prefixBytes ++ [b]).length =
      path.length + getPrefixLen (s.heap a).version + 1 := by
    rw [List.length_append, List.length_append, Node.length_prefixBytes, List.length_singleton]
  rw [putFrom, hptr]
  simp only [Bool.not_true, Bool.false_and, Bool.false_eq_true, if_false, inner.quiet.expanding, inner.offset,
    inner.quiet.old, ne_eq, not_true_eq_false, false_or, Node.prefixCompare_eq, hpl, hbyte, hi, hlength]

/-- Below a child that is there, a key stops the process if it does below the node. -/
theorem overlong_child {a : ℕ} {b : UInt8} {c : Ptr} {Ks : UInt8 → Set (List UInt8)} {Fs : UInt8 → Set ℕ}
    (inner : Inner (s.heap a) up path)
    (sub : ∀ b c, (s.heap a).get b = some c →
      Rep key.length s.heap (some a) c (path ++ (s.heap a).prefixBytes ++ [b]) (Ks b) (Fs b))
    (empty : ∀ b, (s.heap a).get b = none → Ks b = ∅ ∧ Fs b = ∅) (keys : K = ⋃ b, Ks b)
    (hb : path ++ (s.heap a).prefixBytes ++ [b] <+: key) (hc : (s.heap a).get b = some c) :
    Overlong path.length K key ↔ Overlong (path ++ (s.heap a).prefixBytes ++ [b]).length (Ks b) key := by
  have hunder : ∀ b k, k ∈ Ks b → path ++ (s.heap a).prefixBytes ++ [b] <+: k :=
    fun b k hk => (keys_under sub empty hk).1
  obtain ⟨b₁, b₂, hbb, k₁, hk₁, k₂, hk₂, -⟩ := two_under inner sub empty
  have hother : ∃ b', b' ≠ b ∧ (Ks b').Nonempty := by
    by_cases h : b₁ = b
    · exact ⟨b₂, fun e => hbb (h.trans e.symm), k₂, hk₂⟩
    · exact ⟨b₁, h, k₁, hk₁⟩
  have hoff : path.length ≤ (path ++ (s.heap a).prefixBytes).length := by
    rw [List.length_append]
    omega
  rw [List.length_append, List.length_singleton]
  exact overlong_under_iff keys hunder hb (sub b c hc).nonempty hother hoff

/-- **Insertion**: below any pointer of a tree, a key that is there is left alone, one that `Overlong`
describes stops the process, and any other is there afterwards, beside the ones there were. -/
theorem putFrom_eq {fuel : ℕ} (hr : Rep key.length s.heap up p path K F) (hlen : key.length < 128)
    (hpath : path <+: key)
    (hptr : s.load ptr = some p) (hplaced : s.Placed up ptr (key.getD (path.length - 1) 0) F)
    (hbound : ∀ d ∈ F, d < s.next)
    (hfuel : key.length < fuel + path.length) :
    (key ∈ K → s.putFrom fuel up ptr key key.length path.length true = .ok (1, s)) ∧
    (key ∉ K → Overlong path.length K key →
      s.putFrom fuel up ptr key key.length path.length true = .error .assert) ∧
    (key ∉ K → ¬ Overlong path.length K key →
      ∃ s' c F', s.putFrom fuel up ptr key key.length path.length true = .ok (0, s') ∧
        Put key up path K F s ptr s' c F') := by
  induction hr generalizing ptr fuel with
  | @leaf up path k K F length begins keys nodes =>
    have hle := hpath.length_le
    obtain ⟨fuel, rfl⟩ := Nat.exists_eq_add_one_of_ne_zero (by omega : fuel ≠ 0)
    have hstep : s.putFrom (fuel + 1) up ptr key key.length path.length true =
        s.replaceLeaf up ptr (allocLeaf k key.length) key key.length path.length := by
      rw [putFrom, hptr]
      rfl
    subst keys nodes
    rw [hstep]
    exact replaceLeaf_put length hlen begins hpath hptr hplaced.slot hplaced.allocated
  | @node up a path K F Ks Fs inner sub empty apart own keys nodes ih =>
    have hin := prefix_under inner sub empty
    have haF : a ∈ F := nodes ▸ Set.mem_insert _ _
    obtain ⟨fuel, rfl⟩ := Nat.exists_eq_add_one_of_ne_zero (by omega : fuel ≠ 0)
    by_cases hpl : common (s.heap a).prefixBytes (key.drop path.length) = getPrefixLen (s.heap a).version
    · have hq : path ++ (s.heap a).prefixBytes <+: key :=
        (append_prefix_iff hpath).mpr (by rw [hpl, Node.length_prefixBytes])
      obtain ⟨b, hb, -, hbyteD⟩ := exists_byte hq (by rwa [List.length_append, Node.length_prefixBytes])
      cases hget : (s.heap a).get b with
      | none =>
        obtain ⟨hnew, hover, hput⟩ :=
          missing_put inner sub empty apart own keys nodes hpl hb hget hptr hplaced hbound
        exact ⟨fun hk => absurd hk hnew, fun _ h => absurd h hover, fun _ _ => hput⟩
      | some c =>
        obtain ⟨i, hi, hc⟩ := Option.bind_eq_some_iff.mp hget
        have hplaced' : s.Placed (some a) (.child a i)
            (key.getD ((path ++ (s.heap a).prefixBytes ++ [b]).length - 1) 0) (Fs b) := by
          rw [List.length_append, List.length_singleton, Nat.add_sub_cancel, hbyteD]
          exact .under inner own (hbound a haF) hi
        obtain ⟨hthere, hstop, hput⟩ := ih b c hget hb (show s.load (.child a i) = some c from hc) hplaced'
          (fun d hd => hbound d (nodes ▸ Set.mem_insert_of_mem _ (Set.mem_iUnion.mpr ⟨b, hd⟩)))
          (by rw [List.length_append, List.length_singleton, List.length_append]; omega : key.length < fuel + _)
        rw [descend_eq inner hpl hb hi hptr, overlong_child inner sub empty keys hb hget,
          mem_under_iff keys (fun b k hk => (keys_under sub empty hk).1) hb]
        refine ⟨hthere, hstop, fun hnew hfits => ?_⟩
        obtain ⟨s', c', F', hrun, h⟩ := hput hnew hfits
        exact ⟨s', .node a, _, hrun, h.under inner sub empty apart own keys nodes hptr hbound hi⟩
    · obtain ⟨hnew, hover, hput⟩ :=
        diverge_put inner sub empty apart own keys nodes hlen hpath hpl hptr hplaced hbound
      exact ⟨fun hk => absurd hk hnew, fun _ h => absurd h hover, fun _ _ => hput⟩

end AdaptiveRadixTree

end SidleBaselines.Art
