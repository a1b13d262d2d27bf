import SidleBaselines.Pactree.LinkedList

/-!
# The chain of nodes

What the data layer's pointers make of the memory: nodes one after another, linked both ways, the
first for the least keys and each for the keys from where the one before it ends, up to the last
node, which has no keys.

## What is proved

* `chain_append` — a chain is taken apart anywhere.
* `walk_eq` — from any node of the chain the walk comes to the node for the key.
-/

namespace SidleBaselines.Pactree

variable {K V : Type} [LinearOrder K]

/-- A node in order that no one has locked, its version no more than `B`. -/
structure Body (fp : K → UInt8) (B : ℕ) (n : ListNode K V) : Prop where
  /-- It is not deleted. -/
  live : n.deleted = false
  /-- No one writes. -/
  even : n.verLock % 2 = 0
  /-- A version is not 0. -/
  pos : 2 ≤ n.verLock
  /-- The version. -/
  le : n.verLock ≤ B
  /-- Keys and fingerprints. -/
  ok : n.Ok fp
  /-- The keys are in the node's range. -/
  range : ∀ k v, n.Holds k v → n.min ≤ k ∧ k < n.max
  /-- The permuter was made for a version the node has had. -/
  scanned : n.lastScanVersion ≤ n.verLock
  /-- It is good for the present one. -/
  cached : n.Cached

/-- The node at `p` stands between `prev` and `next`, for the keys from `lo` on. -/
structure Linked (fp : K → UInt8) (B : ℕ) (prev : Option ℕ) (lo : K) (p next : ℕ) (n : ListNode K V) : Prop where
  /-- The node. -/
  body : Body fp B n
  /-- Its own address. -/
  cur : n.curPtr = p
  /-- The one before it. -/
  prev : n.prevPtr = prev
  /-- The one after it. -/
  next : n.nextPtr = some next
  /-- Its keys. -/
  min : n.min = lo
  /-- There are some. -/
  lt : lo < n.max

/-- The last node, after `prev`. -/
structure Tail [OrderTop K] (prev : Option ℕ) (n : ListNode K V) : Prop where
  /-- It is not deleted. -/
  live : n.deleted = false
  /-- No one has ever locked it. -/
  version : n.verLock = 2
  /-- It looks full. -/
  full : n.Full
  /-- It is for no keys. -/
  min : n.min = ⊤
  /-- The node before it. -/
  prev : n.prevPtr = prev
  /-- None is after it. -/
  next : n.nextPtr = none

variable (fp : K → UInt8) (B : ℕ) (heap : ℕ → ListNode K V)

/-- The nodes `l` follow `prev`, for the keys from `lo` up to `hi`; then come `last` and `next`. -/
def Seg : Option ℕ → K → List ℕ → ℕ → Option ℕ → K → Prop
  | prev, lo, [], _, last, hi => prev = last ∧ lo = hi
  | prev, lo, p :: l, next, last, hi =>
    Linked fp B prev lo p (l.headD next) (heap p) ∧ Seg (some p) (heap p).max l next last hi

/-- The nodes `l` follow `prev`, for the keys from `lo` on, and then the last node, `tail`. -/
def Chain [OrderTop K] : Option ℕ → K → List ℕ → ℕ → Prop
  | prev, lo, [], tail => Tail prev (heap tail) ∧ lo = ⊤
  | prev, lo, p :: l, tail =>
    Linked fp B prev lo p (l.headD tail) (heap p) ∧ Chain (some p) (heap p).max l tail

variable {fp B heap} {heap' : ℕ → ListNode K V} {prev last : Option ℕ} {lo hi k : K} {l l₁ l₂ : List ℕ}
  {p next tail fuel : ℕ} {n : ListNode K V}

theorem Seg.congr (h : Seg fp B heap prev lo l next last hi) (heq : ∀ p ∈ l, heap' p = heap p) :
    Seg fp B heap' prev lo l next last hi := by
  induction l generalizing prev lo with
  | nil => exact h
  | cons p l ih =>
    obtain ⟨hp, hs⟩ := h
    have he := heq p List.mem_cons_self
    refine ⟨by rwa [he], ?_⟩
    rw [he]
    exact ih hs fun q hq => heq q (.tail _ hq)

theorem Body.mono {B' : ℕ} (h : Body fp B n) (hB : B ≤ B') : Body fp B' n :=
  { h with le := h.le.trans hB }

theorem Linked.mono {B' : ℕ} (h : Linked fp B prev lo p next n) (hB : B ≤ B') : Linked fp B' prev lo p next n :=
  { h with body := h.body.mono hB }

theorem Seg.mono {B' : ℕ} (h : Seg fp B heap prev lo l next last hi) (hB : B ≤ B') :
    Seg fp B' heap prev lo l next last hi := by
  induction l generalizing prev lo with
  | nil => exact h
  | cons p l ih => exact ⟨h.1.mono hB, ih h.2⟩

/-- A segment is taken apart. -/
theorem seg_append : Seg fp B heap prev lo (l₁ ++ l₂) next last hi ↔
    ∃ mid midk, Seg fp B heap prev lo l₁ (l₂.headD next) mid midk ∧ Seg fp B heap mid midk l₂ next last hi := by
  induction l₁ generalizing prev lo with
  | nil => simp [Seg]
  | cons p l₁ ih =>
    have hnext : (l₁ ++ l₂).headD next = l₁.headD (l₂.headD next) := by cases l₁ <;> rfl
    simp only [List.cons_append, Seg, ih, hnext]
    constructor
    · rintro ⟨h, mid, midk, hs, hc⟩
      exact ⟨mid, midk, ⟨h, hs⟩, hc⟩
    · rintro ⟨mid, midk, ⟨h, hs⟩, hc⟩
      exact ⟨h, mid, midk, hs, hc⟩

theorem Body.checkRange (n : ListNode K V) : n.checkRange k = true ↔ n.min ≤ k ∧ k < n.max := by
  simp [ListNode.checkRange]

/-- The walk has come to the node for the key. -/
theorem walk_of_range {s : LinkedList K V} (h : (s.heap p).checkRange k = true) (hfuel : fuel ≠ 0) :
    s.walk k fuel p = some p := by
  obtain ⟨fuel, rfl⟩ := Nat.exists_eq_succ_of_ne_zero hfuel
  have hlt := (Body.checkRange _).mp h
  rw [LinkedList.walk, if_neg (not_lt.mpr hlt.1), h]
  rfl

/-- From a node after the key, the walk goes back to the node for the key. -/
theorem walk_left {s : LinkedList K V} (h : Seg fp B s.heap prev lo (l ++ [p]) next last hi) (hlo : lo ≤ k)
    (hk : k < hi) (hfuel : (l ++ [p]).length ≤ fuel) :
    ∃ q ∈ l ++ [p], (s.heap q).checkRange k = true ∧ s.walk k fuel p = some q := by
  induction l using List.reverseRecOn generalizing p next last hi fuel with
  | nil =>
    obtain ⟨hp, -, hmax⟩ := h
    have hrange := (Body.checkRange (s.heap p)).mpr ⟨hp.min.trans_le hlo, hmax ▸ hk⟩
    exact ⟨p, List.mem_cons_self, hrange, walk_of_range hrange (by simp at hfuel; omega)⟩
  | append_singleton l q ih =>
    obtain ⟨mid, midk, hq, hp, hlast, hmax⟩ := seg_append.mp h
    obtain ⟨-, -, -, hqq, hmid, hmidk⟩ := seg_append.mp hq
    by_cases hmin : k < (s.heap p).min
    · obtain ⟨fuel, rfl⟩ := Nat.exists_eq_succ_of_ne_zero (n := fuel) (by simp at hfuel; omega)
      have hfuel : (l ++ [q]).length ≤ fuel := by simpa using hfuel
      obtain ⟨r, hr, hrange, hw⟩ := ih hq (hp.min ▸ hmin) hfuel
      refine ⟨r, List.mem_append_left _ hr, hrange, ?_⟩
      rw [LinkedList.walk, if_pos hmin, hp.prev, ← hmid]
      exact hw
    · have hrange := (Body.checkRange (s.heap p)).mpr ⟨not_lt.mp hmin, hmax ▸ hk⟩
      exact ⟨p, List.mem_append_right _ List.mem_cons_self, hrange,
        walk_of_range hrange (by simp at hfuel; omega)⟩

variable [OrderTop K]

/-- A chain is taken apart. -/
theorem chain_append : Chain fp B heap prev lo (l₁ ++ l₂) tail ↔
    ∃ last hi, Seg fp B heap prev lo l₁ (l₂.headD tail) last hi ∧ Chain fp B heap last hi l₂ tail := by
  induction l₁ generalizing prev lo with
  | nil => simp [Seg]
  | cons p l₁ ih =>
    have hnext : (l₁ ++ l₂).headD tail = l₁.headD (l₂.headD tail) := by cases l₁ <;> rfl
    simp only [List.cons_append, Chain, Seg, ih, hnext]
    constructor
    · rintro ⟨h, last, hi, hs, hc⟩
      exact ⟨last, hi, ⟨h, hs⟩, hc⟩
    · rintro ⟨last, hi, ⟨h, hs⟩, hc⟩
      exact ⟨h, last, hi, hs, hc⟩

theorem Chain.congr (h : Chain fp B heap prev lo l tail) (heq : ∀ p ∈ l, heap' p = heap p)
    (htail : heap' tail = heap tail) : Chain fp B heap' prev lo l tail := by
  induction l generalizing prev lo with
  | nil => exact ⟨by rw [htail]; exact h.1, h.2⟩
  | cons p l ih =>
    obtain ⟨hp, hs⟩ := h
    have he := heq p List.mem_cons_self
    refine ⟨by rwa [he], ?_⟩
    rw [he]
    exact ih hs fun q hq => heq q (.tail _ hq)

theorem Chain.mono {B' : ℕ} (h : Chain fp B heap prev lo l tail) (hB : B ≤ B') :
    Chain fp B' heap prev lo l tail := by
  induction l generalizing prev lo with
  | nil => exact h
  | cons p l ih => exact ⟨h.1.mono hB, ih h.2⟩

/-- Another node goes before the nodes of a chain. -/
theorem Chain.setPrev (h : Chain fp B heap prev lo l tail) (hnodup : (l ++ [tail]).Nodup) (prev' : Option ℕ) :
    Chain fp B (Function.update heap (l.headD tail) { heap (l.headD tail) with prevPtr := prev' }) prev' lo l
      tail := by
  cases l with
  | nil =>
    obtain ⟨ht, hlo⟩ := h
    refine ⟨?_, hlo⟩
    simp only [List.headD_nil, Function.update_self]
    exact ⟨ht.live, ht.version, ht.full, ht.min, rfl, ht.next⟩
  | cons p l =>
    obtain ⟨hp, hc⟩ := h
    rw [List.cons_append, List.nodup_cons] at hnodup
    refine ⟨?_, ?_⟩
    · simp only [List.headD_cons, Function.update_self]
      have hb := hp.body
      exact ⟨⟨hb.live, hb.even, hb.pos, hb.le, hb.ok.of_bitMap rfl rfl fun _ h => h, hb.range, hb.scanned,
        hb.cached⟩, hp.cur, rfl, hp.next, hp.min, hp.lt⟩
    · simp only [List.headD_cons, Function.update_self]
      have hne : ∀ q ∈ l ++ [tail], q ≠ p := fun q hq e => hnodup.1 (e ▸ hq)
      exact hc.congr (fun q hq => Function.update_of_ne (hne q (List.mem_append_left _ hq)) _ _)
        (Function.update_of_ne (hne tail (List.mem_append_right _ List.mem_cons_self)) _ _)

/-! ### The walk -/

/-- From a node before the key, the walk goes on to the node for the key. -/
theorem walk_right {s : LinkedList K V} (h : Chain fp B s.heap prev lo (p :: l) tail) (hlo : lo ≤ k) (hk : k < ⊤)
    (hfuel : (p :: l).length ≤ fuel) :
    ∃ q ∈ p :: l, (s.heap q).checkRange k = true ∧ s.walk k fuel p = some q := by
  induction l generalizing p prev lo fuel with
  | nil =>
    obtain ⟨hp, ht, htop⟩ := h
    have hrange := (Body.checkRange (s.heap p)).mpr ⟨hp.min.trans_le hlo, htop ▸ hk⟩
    exact ⟨p, List.mem_cons_self, hrange, walk_of_range hrange (by simp at hfuel; omega)⟩
  | cons q l ih =>
    obtain ⟨hp, hc⟩ := h
    by_cases hmax : k < (s.heap p).max
    · have hrange := (Body.checkRange (s.heap p)).mpr ⟨hp.min.trans_le hlo, hmax⟩
      exact ⟨p, List.mem_cons_self, hrange, walk_of_range hrange (by simp at hfuel; omega)⟩
    · obtain ⟨fuel, rfl⟩ := Nat.exists_eq_succ_of_ne_zero (n := fuel) (by simp at hfuel; omega)
      have hfuel : (q :: l).length ≤ fuel := by simpa using hfuel
      obtain ⟨r, hr, hrange, hw⟩ := ih hc (not_lt.mp hmax) hfuel
      refine ⟨r, .tail _ hr, hrange, ?_⟩
      have hout : (s.heap p).checkRange k = false := by
        rw [← Bool.not_eq_true, Body.checkRange]
        exact fun h => hmax h.2
      rw [LinkedList.walk, if_neg (not_lt.mpr (hp.min.trans_le hlo)), hout, hp.next]
      exact hw

/-- From any node of the chain the walk comes to the node for the key. -/
theorem walk_eq {s : LinkedList K V} (h : Chain fp B s.heap prev lo l tail) (hlo : lo ≤ k) (hk : k < ⊤)
    (hfuel : l.length ≤ fuel) (hp : p ∈ l) :
    ∃ q ∈ l, (s.heap q).checkRange k = true ∧ s.walk k fuel p = some q := by
  obtain ⟨l₁, l₂, rfl⟩ := List.append_of_mem hp
  obtain ⟨last, hi, hs, hc⟩ := chain_append.mp h
  rw [List.length_append] at hfuel
  by_cases hmin : k < (s.heap p).min
  · -- the segment up to `p`, with `p` at its end
    have hseg : Seg fp B s.heap prev lo (l₁ ++ [p]) (l₂.headD tail) (some p) (s.heap p).max :=
      seg_append.mpr ⟨last, hi, hs, hc.1, rfl, rfl⟩
    have hmax : (s.heap p).min < (s.heap p).max := hc.1.min.trans_lt hc.1.lt
    have hfuel : (l₁ ++ [p]).length ≤ fuel := by simp at hfuel ⊢; omega
    obtain ⟨q, hq, hrange, hw⟩ := walk_left hseg hlo (hmin.trans hmax) hfuel
    refine ⟨q, ?_, hrange, hw⟩
    rcases List.mem_append.mp hq with hq | hq
    · exact List.mem_append_left _ hq
    · exact List.mem_append_right _ (List.mem_singleton.mp hq ▸ List.mem_cons_self)
  · have hfuel : (p :: l₂).length ≤ fuel := by omega
    obtain ⟨q, hq, hrange, hw⟩ := walk_right hc (hc.1.min ▸ not_lt.mp hmin) hk hfuel
    exact ⟨q, List.mem_append_right _ hq, hrange, hw⟩

/-! ### The ranges -/

theorem Chain.mem (h : Chain fp B heap prev lo l tail) (hp : p ∈ l) :
    Body fp B (heap p) ∧ (heap p).curPtr = p ∧ lo ≤ (heap p).min ∧ (heap p).min < (heap p).max := by
  induction l generalizing prev lo with
  | nil => cases hp
  | cons q l ih =>
    obtain ⟨hq, hc⟩ := h
    rcases List.mem_cons.mp hp with rfl | hp
    · exact ⟨hq.body, hq.cur, hq.min.ge, hq.min.trans_lt hq.lt⟩
    · obtain ⟨hb, hcur, hle, hlt⟩ := ih hc hp
      exact ⟨hb, hcur, (hq.lt.le).trans hle, hlt⟩

/-- No key is in the ranges of two nodes. -/
theorem Chain.unique (h : Chain fp B heap prev lo l tail) {q : ℕ} (hp : p ∈ l) (hq : q ∈ l)
    (hpk : (heap p).min ≤ k ∧ k < (heap p).max) (hqk : (heap q).min ≤ k ∧ k < (heap q).max) : p = q := by
  induction l generalizing prev lo with
  | nil => cases hp
  | cons r l ih =>
    have after : ∀ q ∈ l, (heap r).max ≤ (heap q).min := fun q hq => (h.2.mem hq).2.2.1
    rcases List.mem_cons.mp hp with hpr | hpl <;> rcases List.mem_cons.mp hq with hqr | hql
    · rw [hpr, hqr]
    · exact absurd (hpk.2.trans_le ((hpr ▸ after q hql).trans hqk.1)) (lt_irrefl _)
    · exact absurd (hqk.2.trans_le ((hqr ▸ after p hpl).trans hpk.1)) (lt_irrefl _)
    · exact ih h.2 hpl hql

end SidleBaselines.Pactree
