import SidleBaselines.Pactree.Chain
import SidleBaselines.Data.Table

/-!
# The list as a map

A chain of nodes stands for the map of the entries its nodes hold. An insert or an update does to
the map what it does to the list, whatever node of the list it begins at.

## What is proved

* `Rep.find` — the walk from any node of the list comes to the node for the key.
* `Rep.modify`, `Rep.split` — what a node changed where it stands, and a node that has come to be
  two, do to the map.
* `Rep.update`, `Rep.insert` — the two operations on the map.
-/

namespace SidleBaselines.Pactree

open Data ListNode

variable {K V : Type} [LinearOrder K] [BoundedOrder K] {fp : K → UInt8} {B : ℕ}

/-- The list stands for the map `t`: its nodes are `l`, and `tail` after them. -/
structure Rep (fp : K → UInt8) (B : ℕ) (s : LinkedList K V) (l : List ℕ) (tail : ℕ) (t : Table K V) : Prop where
  /-- The pointers. -/
  chain : Chain fp B s.heap none ⊥ l tail
  /-- The first node. -/
  head : l.headD tail = s.headPtr
  /-- No node is twice in it. -/
  nodup : (l ++ [tail]).Nodup
  /-- The nodes have been made. -/
  below : ∀ p ∈ l ++ [tail], p < s.top
  /-- The map. -/
  table : ∀ k v, t.get k = some v ↔ ∃ p ∈ l, (s.heap p).Holds k v

variable {s : LinkedList K V} {l l₁ l₂ : List ℕ} {tail p q : ℕ} {t : Table K V} {k key : K} {v value : V}
  {n : ListNode K V}

theorem Rep.length_lt (h : Rep fp B s l tail t) : l.length < s.top := by
  have hsub : (l ++ [tail]).toFinset ⊆ Finset.range s.top := fun p hp =>
    Finset.mem_range.mpr (h.below p (List.mem_toFinset.mp hp))
  have := Finset.card_le_card hsub
  rw [List.toFinset_card_of_nodup h.nodup, Finset.card_range, List.length_append] at this
  exact this

theorem Rep.mono {B' : ℕ} (h : Rep fp B s l tail t) (hB : B ≤ B') : Rep fp B' s l tail t :=
  { h with chain := h.chain.mono hB }

/-- **The walk** from any node comes to the node for the key. -/
theorem Rep.find (h : Rep fp B s l tail t) (hk : key < ⊤) (hp : p ∈ l) :
    ∃ q ∈ l, (s.heap q).checkRange key = true ∧ s.find key p = some q :=
  walk_eq h.chain bot_le hk h.length_lt.le hp

/-- The map has under a key what the node for the key holds. -/
theorem Rep.get_iff (h : Rep fp B s l tail t) (hp : p ∈ l) (hk : (s.heap p).checkRange key = true) :
    t.get key = some v ↔ (s.heap p).Holds key v := by
  rw [h.table]
  constructor
  · rintro ⟨q, hq, hv⟩
    have hr := (h.chain.mem hq).1.range key v hv
    rwa [h.chain.unique hp hq ((Body.checkRange _).mp hk) hr]
  · exact fun hv => ⟨p, hp, hv⟩

theorem Rep.get_eq_none (h : Rep fp B s l tail t) (hp : p ∈ l) (hk : (s.heap p).checkRange key = true) :
    t.get key = none ↔ ∀ v, ¬ (s.heap p).Holds key v := by
  rw [Option.eq_none_iff_forall_ne_some]
  exact forall_congr' fun v => not_congr (h.get_iff hp hk)

/-! ### Changing one node -/

/-- The new node has the pointers and the range of the old one. -/
structure SameLinks (n n' : ListNode K V) : Prop where
  cur : n'.curPtr = n.curPtr
  prev : n'.prevPtr = n.prevPtr
  next : n'.nextPtr = n.nextPtr
  min : n'.min = n.min
  max : n'.max = n.max

/-- A node of a chain is changed where it stands. -/
theorem Chain.modify {B' : ℕ} {heap : ℕ → ListNode K V} {prev : Option ℕ} {lo : K}
    (h : Chain fp B heap prev lo l tail) (hB : B ≤ B') (hnodup : (l ++ [tail]).Nodup) (hp : p ∈ l)
    (hs : SameLinks (heap p) n) (hn : Body fp B' n) : Chain fp B' (Function.update heap p n) prev lo l tail := by
  induction l generalizing prev lo with
  | nil => cases hp
  | cons q l ih =>
    obtain ⟨hq, hc⟩ := h
    rw [List.cons_append, List.nodup_cons] at hnodup
    rcases List.mem_cons.mp hp with rfl | hp
    · refine ⟨?_, ?_⟩
      · rw [Function.update_self]
        exact ⟨hn, hs.cur.trans hq.cur, hs.prev.trans hq.prev, hs.next.trans hq.next, hs.min.trans hq.min,
          hs.max ▸ hq.lt⟩
      · rw [Function.update_self, hs.max]
        have hne : ∀ x ∈ l ++ [tail], x ≠ p := fun x hx e => hnodup.1 (e ▸ hx)
        exact (hc.congr (fun x hx => Function.update_of_ne (hne x (List.mem_append_left _ hx)) _ _)
          (Function.update_of_ne (hne tail (List.mem_append_right _ List.mem_cons_self)) _ _)).mono hB
    · have hne : q ≠ p := fun e => hnodup.1 (e ▸ List.mem_append_left _ hp)
      refine ⟨?_, ?_⟩
      · rw [Function.update_of_ne hne]
        exact hq.mono hB
      · rw [Function.update_of_ne hne]
        exact ih hc hnodup.2 hp

omit [LinearOrder K] [BoundedOrder K] in
/-- What the nodes hold after one of them has changed. -/
theorem exists_holds_update {heap : ℕ → ListNode K V} (hp : p ∈ l) :
    (∃ q ∈ l, (Function.update heap p n q).Holds k v) ↔ (∃ q ∈ l, q ≠ p ∧ (heap q).Holds k v) ∨ n.Holds k v := by
  constructor
  · rintro ⟨q, hq, hv⟩
    by_cases hqp : q = p
    · subst hqp
      rw [Function.update_self] at hv
      exact .inr hv
    · rw [Function.update_of_ne hqp] at hv
      exact .inl ⟨q, hq, hqp, hv⟩
  · rintro (⟨q, hq, hqp, hv⟩ | hv)
    · exact ⟨q, hq, by rwa [Function.update_of_ne hqp]⟩
    · exact ⟨p, hp, by rwa [Function.update_self]⟩

/-- **One node changed**: outside its range the map stays, within it the map is what the node holds. -/
theorem Rep.modify {B' : ℕ} {t' : Table K V} (h : Rep fp B s l tail t) (hB : B ≤ B') (hp : p ∈ l)
    (hs : SameLinks (s.heap p) n) (hn : Body fp B' n)
    (hin : ∀ k v, (s.heap p).checkRange k = true → (t'.get k = some v ↔ n.Holds k v))
    (hout : ∀ k, (s.heap p).checkRange k = false → t'.get k = t.get k) : Rep fp B' (s.set p n) l tail t' where
  chain := h.chain.modify hB h.nodup hp hs hn
  head := h.head
  nodup := h.nodup
  below := h.below
  table k v := by
    rw [show (s.set p n).heap = Function.update s.heap p n from rfl, exists_holds_update hp]
    cases hk : (s.heap p).checkRange k with
    | true =>
      rw [hin k v hk, or_iff_right]
      rintro ⟨q, hq, hqp, hv⟩
      exact hqp (h.chain.unique hq hp ((h.chain.mem hq).1.range k v hv) ((Body.checkRange _).mp hk))
    | false =>
      rw [hout k hk, h.table, or_iff_left]
      · constructor
        · rintro ⟨q, hq, hv⟩
          refine ⟨q, hq, ?_, hv⟩
          rintro rfl
          rw [← Bool.not_eq_true, Body.checkRange] at hk
          exact hk ((h.chain.mem hq).1.range k v hv)
        · rintro ⟨q, hq, -, hv⟩
          exact ⟨q, hq, hv⟩
      · intro hv
        rw [← Bool.not_eq_true, Body.checkRange, ← hs.min, ← hs.max] at hk
        exact hk (hn.range k v hv)

/-! ### Writing to a node -/

/-- The node as its writer has it. -/
def ListNode.begun (n : ListNode K V) : ListNode K V := { n with verLock := n.verLock + 1 }

omit [BoundedOrder K] in
/-- The lock of a node in order is free, as long as its version has not run out of its 32 bits. -/
theorem Body.writeLock (h : Body fp B n) (hB : B < 2 ^ 32) : n.writeLock = some n.begun := by
  have hpos := h.pos
  have hle := h.le
  have hlock : VersionedLock.write_lock n.verLock = (n.verLock, n.verLock + 1) := by
    rw [VersionedLock.write_lock, if_neg (by omega), if_pos h.even]
  rw [ListNode.writeLock, hlock]
  split
  · next heq => simp only [Prod.mk.injEq] at heq; omega
  · next heq => rw [← (Prod.mk.inj heq).2, ListNode.begun]

omit [LinearOrder K] [BoundedOrder K] in
theorem readLock_eq (hpos : 2 ≤ n.verLock) (heven : n.verLock % 2 = 0) (hlt : n.verLock < 2 ^ 32) :
    n.readLock = some (n.verLock, n) := by
  have hlock : VersionedLock.read_lock n.verLock = (n.verLock, n.verLock) := by
    rw [VersionedLock.read_lock, if_neg (by omega), if_neg (by omega)]
  rw [ListNode.readLock, hlock]
  split
  · next heq => simp only [Prod.mk.injEq] at heq; omega
  · next heq =>
    obtain ⟨rfl, rfl⟩ := Prod.mk.inj heq
    rfl

omit [BoundedOrder K] in
theorem Body.readLock (h : Body fp B n) (hB : B < 2 ^ 32) : n.readLock = some (n.verLock, n) :=
  readLock_eq h.pos h.even (h.le.trans_lt hB)

omit [BoundedOrder K] in
/-- A node in order after a write. -/
theorem Body.written {n' : ListNode K V} (h : Body fp B n) (hok : n'.Ok fp)
    (hrange : ∀ k v, n'.Holds k v → n'.min ≤ k ∧ k < n'.max) (hlive : n'.deleted = n.deleted)
    (hver : n'.verLock = n.verLock + 2) (hscan : n'.lastScanVersion = n.lastScanVersion) :
    Body fp (B + 2) n' where
  live := hlive.trans h.live
  even := by have := h.even; omega
  pos := by omega
  le := by have := h.le; omega
  ok := hok
  range := hrange
  scanned := by have := h.scanned; omega
  cached := .inl (by have := h.scanned; omega)

omit [LinearOrder K] [BoundedOrder K] in
@[simp] theorem set_set (n' : ListNode K V) : (s.set p n).set p n' = s.set p n' := by
  simp [LinkedList.set]

omit [LinearOrder K] [BoundedOrder K] in
@[simp] theorem set_heap_self : (s.set p n).heap p = n := by simp [LinkedList.set]

omit [LinearOrder K] [BoundedOrder K] in
theorem set_heap_ne (h : q ≠ p) : (s.set p n).heap q = s.heap q := by
  simp [LinkedList.set, Function.update_of_ne h]

/-- **What `insert` and `update` share**: the walk comes to the node for the key, the lock is
free, and the checks after it hold. -/
theorem Rep.writeAt {R : Type} (h : Rep fp B s l tail t) (hB : B < 2 ^ 32) (hk : key < ⊤) (hp : p ∈ l)
    (body : LinkedList K V → ℕ → Option (R × LinkedList K V)) :
    ∃ q ∈ l, (s.heap q).checkRange key = true ∧ s.writeAt key p body =
      (body (s.set q (s.heap q).begun) q).map fun r =>
        (r.1, r.2.set q (r.2.heap q).writeUnlock) := by
  obtain ⟨q, hq, hrange, hfind⟩ := h.find hk hp
  have hb := (h.chain.mem hq).1
  refine ⟨q, hq, hrange, ?_⟩
  have hcheck : ((s.heap q).begun.deleted || !(s.heap q).begun.checkRange key) = false := by
    rw [Bool.or_eq_false_iff, Bool.not_eq_false']
    exact ⟨hb.live, hrange⟩
  simp only [LinkedList.writeAt, hfind, hb.writeLock hB, Option.bind_eq_bind, Option.bind_some, hcheck,
    Bool.false_eq_true, if_false]
  rw [Option.map_eq_bind]
  rfl

/-- **`remove`** comes to its node, too, and does not begin all over. -/
theorem Rep.removeAt (h : Rep fp B s l tail t) (hB : B < 2 ^ 32) (hk : key < ⊤) (hp : p ∈ l) :
    ∃ q ∈ l, (s.heap q).checkRange key = true ∧ s.remove fp key p =
      ((s.set q (s.heap q).begun).nodeRemove fp q key).map fun r =>
        (r.1, r.2.set q (r.2.heap q).writeUnlock) := by
  obtain ⟨q, hq, hrange, hfind⟩ := h.find hk hp
  have hb := (h.chain.mem hq).1
  refine ⟨q, hq, hrange, ?_⟩
  have hcheck : ((s.heap q).begun.deleted || !(s.heap q).begun.checkRange key) = false := by
    rw [Bool.or_eq_false_iff, Bool.not_eq_false']
    exact ⟨hb.live, hrange⟩
  simp only [LinkedList.remove, LinkedList.removeLoop, hfind, hb.writeLock hB, Option.bind_eq_bind,
    Option.bind_some, hcheck, Bool.false_eq_true, if_false]
  rw [Option.map_eq_bind]
  rfl

/-! ### The operations that keep the nodes -/

/-- The list begins where it did, and nothing has been logged. -/
structure Quiet (s s' : LinkedList K V) : Prop where
  head : s'.headPtr = s.headPtr
  log : s'.oplog = s.oplog

/-- The map after the node for `key` has come to hold `key` as `t'` does and the rest as before. -/
theorem Rep.written {t' : Table K V} (h : Rep fp B s l tail t) (hq : q ∈ l)
    (hk : (s.heap q).checkRange key = true)
    (hs : SameLinks (s.heap q) n) (hlive : n.deleted = (s.heap q).deleted)
    (hver : n.verLock = (s.heap q).verLock + 2) (hscan : n.lastScanVersion = (s.heap q).lastScanVersion)
    (hok : n.Ok fp) (hkey : ∀ v, n.Holds key v ↔ t'.get key = some v)
    (hrest : ∀ k, k ≠ key → t'.get k = t.get k ∧ ∀ v, n.Holds k v ↔ (s.heap q).Holds k v) :
    Rep fp (B + 2) (s.set q n) l tail t' := by
  have hb := (h.chain.mem hq).1
  have hkr := (Body.checkRange _).mp hk
  refine h.modify (Nat.le_add_right ..) hq hs (hb.written hok ?_ hlive hver hscan) ?_ ?_
  · intro k v hv
    rw [hs.min, hs.max]
    by_cases hkk : k = key
    · exact hkk ▸ hkr
    · exact hb.range k v (((hrest k hkk).2 v).mp hv)
  · intro k v hkr
    by_cases hkk : k = key
    · rw [hkk, hkey]
    · rw [(hrest k hkk).1, (hrest k hkk).2, h.get_iff hq hkr]
  · intro k hkr
    by_cases hkk : k = key
    · rw [hkk, hk] at hkr
      cases hkr
    · exact (hrest k hkk).1

/-- **`update`** gives a key that is there another value. -/
theorem Rep.update (h : Rep fp B s l tail t) (hB : B < 2 ^ 32) (hk : key < ⊤) (hp : p ∈ l) (value : V) :
    ∃ s', s.update fp key value p = some ((t.get key).isSome, s') ∧
      Rep fp (B + 2) s' l tail (if (t.get key).isSome then t.insert key value else t) ∧ Quiet s s' := by
  obtain ⟨q, hq, hrange, he⟩ := h.writeAt hB hk hp fun s cur => some (s.nodeUpdate fp cur key value)
  have hb := (h.chain.mem hq).1
  have hidx : (s.heap q).begun.getKeyIndex key (fp key) = (s.heap q).getKeyIndex key (fp key) := rfl
  rw [LinkedList.update, he]
  cases hi : (s.heap q).getKeyIndex key (fp key) with
  | none =>
    have hnone := (h.get_eq_none hq hrange).mpr (hb.ok.getKeyIndex_eq_none.mp hi)
    have hbody : (s.set q (s.heap q).begun).nodeUpdate fp q key value = (false, s.set q (s.heap q).begun) := by
      rw [LinkedList.nodeUpdate, set_heap_self, hidx, hi]
    refine ⟨s.set q (s.heap q).begun.writeUnlock, ?_, ?_, rfl, rfl⟩
    · rw [hbody, Option.map_some, set_heap_self, set_set, hnone]
      rfl
    · rw [hnone, if_neg (by simp)]
      exact h.written hq hrange ⟨rfl, rfl, rfl, rfl, rfl⟩ rfl rfl rfl (hb.ok.of_bitMap rfl rfl fun _ h => h)
        (fun v => (h.get_iff hq hrange).symm) fun k _ => ⟨rfl, fun v => Iff.rfl⟩
  | some i =>
    obtain ⟨hlt, hbit, hkey⟩ := hb.ok.of_getKeyIndex hi
    have hsome : t.get key = some ((s.heap q).keyArray i).2 :=
      (h.get_iff hq hrange).mpr ((hb.ok.holds_getKeyIndex hi).mpr rfl)
    have hbody : (s.set q (s.heap q).begun).nodeUpdate fp q key value
        = (true, s.set q ((s.heap q).begun.updateAtIndex value i)) := by
      simp only [LinkedList.nodeUpdate, set_heap_self, hidx, hi, set_set]
    have hheld : ∀ k v, ((s.heap q).begun.updateAtIndex value i).writeUnlock.Holds k v ↔
        (k = key ∧ v = value) ∨ (k ≠ key ∧ (s.heap q).Holds k v) := fun k v =>
      hb.ok.holds_updateAtIndex hlt hbit hkey
    refine ⟨s.set q ((s.heap q).begun.updateAtIndex value i).writeUnlock, ?_, ?_, rfl, rfl⟩
    · rw [hbody, Option.map_some, set_heap_self, set_set, hsome]
      rfl
    · rw [hsome, if_pos (by simp)]
      refine h.written hq hrange ⟨rfl, rfl, rfl, rfl, rfl⟩ rfl rfl rfl ?_ (fun v => ?_) fun k hkk =>
        ⟨Table.get_insert_ne (Ne.symm hkk), fun v => ?_⟩
      · have hok := hb.ok.updateAtIndex (v := value) (i := i)
        exact hok.of_bitMap rfl rfl fun _ h => h
      · rw [hheld, Table.get_insert_self]
        simp [eq_comm]
      · rw [hheld]
        simp [hkk]

/-! ### Splits -/

section
variable {newPtr next : ℕ} {prev : Option ℕ} {lo : K} {g : ListNode K V}

omit [BoundedOrder K] in
/-- The old node of a split goes on up to the median. -/
theorem Linked.splitOld (h : Linked fp B prev lo q next n) (hfull : n.Full) (hrange : n.checkRange key = true)
    (hnew : ∀ u, ¬ n.Holds key u) (newPtr : ℕ) (value : V) :
    Linked fp (B + 2) prev lo q newPtr (n.begun.splitOld newPtr key value (fp key)).writeUnlock ∧
      (n.begun.splitOld newPtr key value (fp key)).writeUnlock.max = n.median := by
  have hb := h.body
  have hhalf : Half n.begun fp key value (· < n.median) (n.begun.splitOld newPtr key value (fp key)) :=
    splitOld_half (n := n.begun) (hb.ok.of_bitMap rfl rfl fun _ h => h) hnew newPtr value
  have fields : (n.begun.splitOld newPtr key value (fp key)).deleted = n.deleted ∧
      (n.begun.splitOld newPtr key value (fp key)).verLock = n.verLock + 1 ∧
      (n.begun.splitOld newPtr key value (fp key)).lastScanVersion = n.lastScanVersion ∧
      (n.begun.splitOld newPtr key value (fp key)).curPtr = n.curPtr ∧
      (n.begun.splitOld newPtr key value (fp key)).prevPtr = n.prevPtr ∧
      (n.begun.splitOld newPtr key value (fp key)).nextPtr = some newPtr ∧
      (n.begun.splitOld newPtr key value (fp key)).min = n.min ∧
      (n.begun.splitOld newPtr key value (fp key)).max = n.median := by
    simp only [ListNode.splitOld]
    split <;> exact ⟨rfl, rfl, rfl, rfl, rfl, rfl, rfl, rfl⟩
  generalize n.begun.splitOld newPtr key value (fp key) = old at hhalf fields
  obtain ⟨hlive, hver, hscan, hcur, hprev, hnext, hmin, hmax⟩ := fields
  obtain ⟨i, hi, hlt⟩ := below_median hb.ok hfull
  have hle : n.min ≤ (n.keyArray i).1 := (hb.range _ (n.keyArray i).2 ⟨i, hi, hfull i hi, rfl⟩).1
  refine ⟨⟨hb.written (hhalf.ok.of_bitMap rfl rfl fun _ h => h) ?_ hlive ?_ hscan, hcur.trans h.cur,
    hprev.trans h.prev, hnext, hmin.trans h.min, ?_⟩, hmax⟩
  · intro k v hv
    obtain ⟨hk, hv | ⟨rfl, -⟩⟩ := (hhalf.holds k v).mp hv
    · exact ⟨hmin.trans_le (hb.range k v hv).1, hk.trans_eq hmax.symm⟩
    · exact ⟨hmin.trans_le ((Body.checkRange _).mp hrange).1, hk.trans_eq hmax.symm⟩
  · exact congrArg (· + 1) hver
  · exact (h.min ▸ hle.trans_lt hlt).trans_eq hmax.symm

omit [BoundedOrder K] in
/-- The new node of a split goes on from the median. -/
theorem Linked.splitNew (h : Linked fp B prev lo q next n) (hfull : n.Full) (hrange : n.checkRange key = true)
    (hnew : ∀ u, ¬ n.Holds key u) (newPtr : ℕ) (g : ListNode K V) (value : V) :
    Linked fp (B + 2) (some q) n.median newPtr next (n.begun.splitNew g newPtr key value (fp key)) ∧
      (n.begun.splitNew g newPtr key value (fp key)).max = n.max := by
  have hb := h.body
  obtain ⟨hhalf, hver, hscan⟩ : Half n.begun fp key value (n.median ≤ ·)
      (n.begun.splitNew g newPtr key value (fp key)) ∧ _ ∧ _ :=
    splitNew_half (n := n.begun) (hb.ok.of_bitMap rfl rfl fun _ h => h) hfull hnew g newPtr value
  have fields : (n.begun.splitNew g newPtr key value (fp key)).deleted = false ∧
      (n.begun.splitNew g newPtr key value (fp key)).curPtr = newPtr ∧
      (n.begun.splitNew g newPtr key value (fp key)).prevPtr = some n.curPtr ∧
      (n.begun.splitNew g newPtr key value (fp key)).nextPtr = n.nextPtr ∧
      (n.begun.splitNew g newPtr key value (fp key)).min = n.median ∧
      (n.begun.splitNew g newPtr key value (fp key)).max = n.max := ⟨rfl, rfl, rfl, rfl, rfl, rfl⟩
  generalize n.begun.splitNew g newPtr key value (fp key) = new at hhalf hver hscan fields
  obtain ⟨hlive, hcur, hprev, hnext, hmin, hmax⟩ := fields
  obtain ⟨i, hi, hki⟩ := n.median_held
  have hlt : (n.keyArray i).1 < n.max := (hb.range _ (n.keyArray i).2 ⟨i, hi, hfull i hi, rfl⟩).2
  refine ⟨⟨⟨hlive, by omega, by omega, ?_, hhalf.ok, ?_, by omega, .inl (by omega)⟩, hcur,
    hprev.trans (congrArg some h.cur), hnext.trans h.next, hmin, ?_⟩, hmax⟩
  · have := hb.pos
    have := hb.le
    omega
  · intro k v hv
    obtain ⟨hk, hv | ⟨rfl, -⟩⟩ := (hhalf.holds k v).mp hv
    · exact ⟨hmin.trans_le hk, (hb.range k v hv).2.trans_eq hmax.symm⟩
    · exact ⟨hmin.trans_le hk, ((Body.checkRange _).mp hrange).2.trans_eq hmax.symm⟩
  · exact (hki ▸ hlt).trans_eq hmax.symm

omit [BoundedOrder K] in
/-- The two nodes of a split hold what the one did, and the new entry. -/
theorem split_holds (h : Body fp B n) (hfull : n.Full) (hnew : ∀ u, ¬ n.Holds key u) (newPtr : ℕ)
    (g : ListNode K V) (value : V) (k : K) (v : V) :
    (n.begun.splitOld newPtr key value (fp key)).writeUnlock.Holds k v ∨
      (n.begun.splitNew g newPtr key value (fp key)).Holds k v ↔ n.Holds k v ∨ k = key ∧ v = value := by
  have hok : n.begun.Ok fp := h.ok.of_bitMap rfl rfl fun _ h => h
  have hl := (splitOld_half hok hnew newPtr value).holds k v
  have hr := (splitNew_half hok hfull hnew g newPtr value).1.holds k v
  refine (or_congr hl hr).trans ?_
  rw [← or_and_right]
  exact and_iff_right (lt_or_ge _ _)

omit [LinearOrder K] [BoundedOrder K] in
theorem exists_mem_append {P : ℕ → Prop} : (∃ p ∈ l₁ ++ l₂, P p) ↔ (∃ p ∈ l₁, P p) ∨ ∃ p ∈ l₂, P p := by
  simp only [List.mem_append, or_and_right, exists_or]

/-- What was before, after or in a node that has come to be two. -/
theorem or_split {A Q C O N : Prop} (h : Q → O ∨ N) : O ∨ N ∨ (A ∨ Q ∨ C) ∧ ¬ Q ↔ A ∨ O ∨ N ∨ C := by
  tauto

omit [LinearOrder K] [BoundedOrder K] in
/-- A pointer back says nothing of what a node holds. -/
theorem holds_setPrev {n' : ListNode K V} (h : n' = { n with prevPtr := prev }) : n'.Holds k v ↔ n.Holds k v := by
  rw [h]
  rfl

/-- **A split**: the old node, the new one after it, and the pointer back of the next. -/
theorem Rep.split {s' : LinkedList K V} {B' : ℕ} {old new : ListNode K V}
    (h : Rep fp B s (l₁ ++ q :: l₂) tail t) (hB : B ≤ B')
    (htop : s'.top = s.top + 1) (hhead : s'.headPtr = s.headPtr) (hq : s'.heap q = old)
    (hp : s'.heap s.top = new)
    (hn : s'.heap (l₂.headD tail) = { s.heap (l₂.headD tail) with prevPtr := some s.top })
    (hrest : ∀ x, x ≠ q → x ≠ s.top → x ≠ l₂.headD tail → s'.heap x = s.heap x)
    (hold : ∀ prev lo, Linked fp B prev lo q (l₂.headD tail) (s.heap q) → Linked fp B' prev lo q s.top old)
    (hnew : Linked fp B' (some q) old.max s.top (l₂.headD tail) new) (hmax : new.max = (s.heap q).max)
    {t' : Table K V} (ht : ∀ k v, t'.get k = some v ↔ old.Holds k v ∨ new.Holds k v ∨
      t.get k = some v ∧ ¬ (s.heap q).Holds k v)
    (hkeep : ∀ k v, (s.heap q).Holds k v → old.Holds k v ∨ new.Holds k v) :
    Rep fp B' s' (l₁ ++ q :: s.top :: l₂) tail t' := by
  obtain ⟨last, hi, hseg, hlq, hchain⟩ := chain_append.mp h.chain
  have hnodup := h.nodup
  have hmem : l₂.headD tail ∈ l₂ ++ [tail] := by cases l₂ <;> simp
  have hbelow : ∀ x ∈ l₁ ++ q :: l₂ ++ [tail], x ≠ s.top := fun x hx => (h.below x hx).ne
  rw [List.append_assoc, List.cons_append] at hnodup
  obtain ⟨hnod₁, hnod₂, hdisj⟩ := List.nodup_append.mp hnodup
  obtain ⟨hqnot, hnod₃⟩ := List.nodup_cons.mp hnod₂
  have hsame₁ : ∀ x ∈ l₁, s'.heap x = s.heap x := fun x hx =>
    hrest x (hdisj x hx q List.mem_cons_self) (hbelow x (by simp [hx]))
      (hdisj x hx _ (.tail _ hmem))
  have hsame₂ : ∀ x ∈ l₂ ++ [tail], s'.heap x = Function.update s.heap (l₂.headD tail)
      { s.heap (l₂.headD tail) with prevPtr := some s.top } x := by
    intro x hx
    by_cases hxn : x = l₂.headD tail
    · rw [hxn, hn, Function.update_self]
    · rw [Function.update_of_ne hxn]
      refine hrest x (fun e => hqnot (e ▸ hx)) (hbelow x ?_) hxn
      rcases List.mem_append.mp hx with hx | hx <;> simp [hx]
  constructor
  · refine chain_append.mpr ⟨last, hi, (hseg.congr hsame₁).mono hB, ?_⟩
    refine ⟨?_, ?_, ?_⟩
    · rw [hq]
      exact hold last hi hlq
    · rw [hq, hp]
      exact hnew
    · rw [hp, hmax]
      have := (hchain.mono hB).setPrev hnod₃ (some s.top)
      exact this.congr (fun x hx => hsame₂ x (List.mem_append_left _ hx))
        (hsame₂ tail (List.mem_append_right _ List.mem_cons_self))
  · rw [hhead, ← h.head]
    cases l₁ <;> rfl
  · have hfresh : s.top ∉ l₁ ++ q :: (l₂ ++ [tail]) := fun hx =>
      hbelow s.top (by simpa using hx) rfl
    have hperm : (l₁ ++ q :: s.top :: l₂ ++ [tail]).Perm (s.top :: (l₁ ++ q :: (l₂ ++ [tail]))) := by
      rw [List.append_assoc, List.cons_append, List.cons_append]
      exact ((List.Perm.swap _ _ _).append_left l₁).trans List.perm_middle
    exact hperm.nodup_iff.mpr (List.nodup_cons.mpr ⟨hfresh, hnodup⟩)
  · intro x hx
    rw [htop]
    by_cases hxt : x = s.top
    · omega
    · refine (h.below x ?_).trans (Nat.lt_succ_self _)
      simp only [List.mem_append, List.mem_cons] at hx ⊢
      tauto
  · intro k v
    have hpart₁ : (∃ p ∈ l₁, (s'.heap p).Holds k v) ↔ ∃ p ∈ l₁, (s.heap p).Holds k v :=
      exists_congr fun x => and_congr_right fun hx => by rw [hsame₁ x hx]
    have hpart₂ : (∃ p ∈ l₂, (s'.heap p).Holds k v) ↔ ∃ p ∈ l₂, (s.heap p).Holds k v := by
      refine exists_congr fun x => and_congr_right fun hx => ?_
      rw [hsame₂ x (List.mem_append_left _ hx)]
      by_cases hxn : x = l₂.headD tail
      · rw [hxn, Function.update_self]
        exact holds_setPrev rfl
      · rw [Function.update_of_ne hxn]
    have hall : t.get k = some v ↔
        (∃ p ∈ l₁, (s.heap p).Holds k v) ∨ (s.heap q).Holds k v ∨ ∃ p ∈ l₂, (s.heap p).Holds k v := by
      rw [h.table, exists_mem_append, List.exists_mem_cons_iff]
    rw [ht, hall, exists_mem_append, List.exists_mem_cons_iff, List.exists_mem_cons_iff, hq, hp, hpart₁, hpart₂]
    exact or_split (hkeep k v)

end

/-- The list an insert leaves: none of its nodes is gone, and the log has the new ones. -/
structure Grown (s s' : LinkedList K V) (l l' : List ℕ) : Prop where
  /-- The nodes are still there. -/
  nodes : ∀ p ∈ l, p ∈ l'
  /-- The new ones have been logged. -/
  logged : ∀ e ∈ s'.oplog, e ∈ s.oplog ∨ e.2 ∈ l'
  head : s'.headPtr = s.headPtr

omit [LinearOrder K] [BoundedOrder K] in
theorem Quiet.grown {s' : LinkedList K V} (h : Quiet s s') : Grown s s' l l :=
  ⟨fun _ h => h, fun _ he => .inl (h.log ▸ he), h.head⟩

/-- The list after node `q` has been split. -/
def LinkedList.splitAt (s : LinkedList K V) (q next : ℕ) (median : K) (old new : ListNode K V) :
    LinkedList K V where
  heap := Function.update (Function.update (Function.update s.heap next
    { s.heap next with prevPtr := some s.top }) s.top new) q old
  top := s.top + 1
  headPtr := s.headPtr
  oplog := s.oplog ++ [(median, s.top)]

omit [BoundedOrder K] in
/-- What an insert into a full node comes to. -/
theorem nodeInsert_full {next : ℕ} (hindex : n.begun.getFreeIndex key (fp key) = .full)
    (hnext : n.nextPtr = some next)
    (hq : s.top ≠ q) (hnq : next ≠ q) (hnt : next ≠ s.top) :
    ((s.set q n.begun).nodeInsert fp q key value).map (fun r => (r.1, r.2.set q (r.2.heap q).writeUnlock)) =
      some (true, s.splitAt q next n.median (n.begun.splitOld s.top key value (fp key)).writeUnlock
        (n.begun.splitNew (s.heap s.top) s.top key value (fp key))) := by
  have hg : (s.set q n.begun).heap s.top = s.heap s.top := set_heap_ne hq
  have hnew : (n.begun.splitNew (s.heap s.top) s.top key value (fp key)).nextPtr = some next := hnext
  simp only [LinkedList.nodeInsert, set_heap_self, hindex]
  rw [show (s.set q n.begun).top = s.top from rfl, hg, hnew]
  simp only [LinkedList.setPrev, Option.bind_eq_bind, Option.bind_some, Option.pure_def, Option.map_some,
    Option.some.injEq, Prod.mk.injEq, true_and]
  generalize n.begun.splitOld s.top key value (fp key) = old
  generalize n.begun.splitNew (s.heap s.top) s.top key value (fp key) = new
  simp only [LinkedList.splitAt, LinkedList.set, LinkedList.mk.injEq]
  refine ⟨?_, trivial, trivial, rfl⟩
  funext x
  by_cases hx : x = q
  · subst hx
    simp [Function.update_of_ne (Ne.symm hnq)]
  · by_cases hxt : x = s.top
    · subst hxt
      simp [Function.update_of_ne hx, Function.update_of_ne (Ne.symm hnt)]
    · by_cases hxn : x = next
      · subst hxn
        simp [Function.update_of_ne hx, Function.update_of_ne hxt]
      · simp [Function.update_of_ne hx, Function.update_of_ne hxt, Function.update_of_ne hxn]

omit [LinearOrder K] [BoundedOrder K] in
/-- The next node is another one. -/
theorem headD_ne (h : (l₁ ++ q :: l₂ ++ [tail]).Nodup) : l₂.headD tail ≠ q := by
  have hmem : l₂.headD tail ∈ l₂ ++ [tail] := by cases l₂ <;> simp
  rw [List.append_assoc, List.cons_append] at h
  exact fun e => (List.nodup_cons.mp (List.nodup_append.mp h).2.1).1 (e ▸ hmem)

/-- An insert into a full node. -/
theorem Rep.insert_full (h : Rep fp B s l tail t) (hq : q ∈ l) (hrange : (s.heap q).checkRange key = true)
    (hfull : (s.heap q).Full) (hnone : t.get key = none) (value : V) :
    ∃ s' l', ((s.set q (s.heap q).begun).nodeInsert fp q key value).map (fun r =>
        (r.1, r.2.set q (r.2.heap q).writeUnlock)) = some (true, s') ∧
      Rep fp (B + 2) s' l' tail (t.insert key value) ∧ Grown s s' l l' := by
  obtain ⟨l₁, l₂, rfl⟩ := List.append_of_mem hq
  obtain ⟨last, hi, -, hlq, -⟩ := chain_append.mp h.chain
  have hnew := (h.get_eq_none hq hrange).mp hnone
  have hindex : (s.heap q).begun.getFreeIndex key (fp key) = .full := by
    have hkey : (s.heap q).begun.getKeyIndex key (fp key) = none := hlq.body.ok.getKeyIndex_eq_none.mpr hnew
    have hfree : ((List.range MAX_ENTRIES).find? fun i => !(s.heap q).begun.bitMap i) = none := by
      rw [List.find?_eq_none]
      intro i hi
      have := hfull i (List.mem_range.mp hi)
      simpa [begun] using this
    rw [getFreeIndex_eq, hkey, hfree]
    rfl
  have hne : s.top ≠ q := (h.below q (by simp)).ne'
  have hnx : l₂.headD tail ∈ l₂ ++ [tail] := by cases l₂ <;> simp
  have hnxq : l₂.headD tail ≠ q := headD_ne h.nodup
  have hnxt : l₂.headD tail ≠ s.top := by
    refine (h.below _ ?_).ne
    rw [List.append_assoc, List.cons_append]
    exact List.mem_append_right _ (.tail _ hnx)
  refine ⟨_, l₁ ++ q :: s.top :: l₂, nodeInsert_full hindex hlq.next hne hnxq hnxt, ?_, ?_⟩
  · obtain ⟨-, hmax⟩ := hlq.splitOld hfull hrange hnew s.top value
    obtain ⟨hright, hmax'⟩ := hlq.splitNew hfull hrange hnew s.top (s.heap s.top) value
    have hboth := split_holds hlq.body hfull hnew s.top (s.heap s.top) value
    refine h.split (Nat.le_add_right B 2) (by rfl) (by rfl) (Function.update_self ..) ?_ ?_ ?_
      (fun prev lo hp => (hp.splitOld hfull hrange hnew s.top value).1) (hmax ▸ hright) hmax' (fun k v => ?_)
      fun k v hv => (hboth k v).mpr (.inl hv)
    · exact (Function.update_of_ne hne _ _).trans (Function.update_self ..)
    · exact (Function.update_of_ne hnxq _ _).trans
        ((Function.update_of_ne hnxt _ _).trans (Function.update_self ..))
    · intro x hx hxt hxn
      exact (Function.update_of_ne hx _ _).trans ((Function.update_of_ne hxt _ _).trans
        (Function.update_of_ne hxn _ _))
    · rw [← or_assoc, hboth, Table.get_insert]
      by_cases hk : key = k
      · subst hk
        have hno : ∀ v, ¬ t.get key = some v := fun v hv => by rw [hnone] at hv; cases hv
        simp [hno, hnew, eq_comm]
      · rw [if_neg hk]
        by_cases hv : (s.heap q).Holds k v
        · have := (h.table k v).mpr ⟨q, hq, hv⟩
          simp [hv, this]
        · simp [hv, Ne.symm hk]
  · refine ⟨fun p hp => ?_, fun e he => ?_, rfl⟩
    · simp only [List.mem_append, List.mem_cons] at hp ⊢
      tauto
    · rcases List.mem_append.mp he with he | he
      · exact .inl he
      · rw [List.mem_singleton.mp he]
        exact .inr (by simp)

omit [BoundedOrder K] in
theorem getFreeIndex_of_some {i : ℕ} (h : n.getKeyIndex key (fp key) = some i) :
    n.getFreeIndex key (fp key) = .present := by
  rw [getFreeIndex_eq, h]
  rfl

/-- **`insert`** adds a key that is not there. -/
theorem Rep.insert (h : Rep fp B s l tail t) (hB : B < 2 ^ 32) (hk : key < ⊤) (hp : p ∈ l) (value : V) :
    ∃ s' l', s.insert fp key value p = some ((t.get key).isNone, s') ∧
      Rep fp (B + 2) s' l' tail (t.emplace key value) ∧ Grown s s' l l' := by
  obtain ⟨q, hq, hrange, he⟩ := h.writeAt hB hk hp fun s cur => s.nodeInsert fp cur key value
  have hb := (h.chain.mem hq).1
  rw [LinkedList.insert, he]
  cases hi : (s.heap q).getKeyIndex key (fp key) with
  | some i =>
    have hsome : t.get key = some ((s.heap q).keyArray i).2 :=
      (h.get_iff hq hrange).mpr ((hb.ok.holds_getKeyIndex hi).mpr rfl)
    have hindex : (s.heap q).begun.getFreeIndex key (fp key) = .present := getFreeIndex_of_some hi
    have hbody : (s.set q (s.heap q).begun).nodeInsert fp q key value
        = some (false, s.set q (s.heap q).begun) := by
      simp only [LinkedList.nodeInsert, set_heap_self, hindex]
    refine ⟨s.set q (s.heap q).begun.writeUnlock, l, ?_, ?_, Quiet.grown ⟨rfl, rfl⟩⟩
    · rw [hbody, Option.map_some, set_heap_self, set_set, hsome]
      rfl
    · rw [Table.emplace_eq_self hsome]
      exact h.written hq hrange ⟨rfl, rfl, rfl, rfl, rfl⟩ rfl rfl rfl (hb.ok.of_bitMap rfl rfl fun _ h => h)
        (fun v => (h.get_iff hq hrange).symm) fun k _ => ⟨rfl, fun v => Iff.rfl⟩
  | none =>
    have hnew := hb.ok.getKeyIndex_eq_none.mp hi
    have hnone := (h.get_eq_none hq hrange).mpr hnew
    rw [hnone, Table.emplace_eq_insert hnone]
    cases hfree : (List.range MAX_ENTRIES).find? fun i => !(s.heap q).bitMap i with
    | none =>
      refine h.insert_full hq hrange (fun i hi => ?_) hnone value
      simpa using List.find?_eq_none.mp hfree i (List.mem_range.mpr hi)
    | some i =>
      have hlt : i < MAX_ENTRIES := List.mem_range.mp (List.mem_of_find?_eq_some hfree)
      have hbit : (s.heap q).bitMap i = false := by simpa using List.find?_some hfree
      have hindex : (s.heap q).begun.getFreeIndex key (fp key) = .slot i := by
        rw [getFreeIndex_eq]
        change (if ((s.heap q).getKeyIndex key (fp key)).isSome then FreeIndex.present
          else .of ((List.range MAX_ENTRIES).find? fun i => !(s.heap q).bitMap i)) = .slot i
        rw [hi, hfree]
        rfl
      have hbody : (s.set q (s.heap q).begun).nodeInsert fp q key value
          = some (true, s.set q ((s.heap q).begun.insertAtIndex (key, value) i (fp key))) := by
        simp only [LinkedList.nodeInsert, set_heap_self, hindex, set_set]
      have hheld : ∀ k v, ((s.heap q).begun.insertAtIndex (key, value) i (fp key)).writeUnlock.Holds k v ↔
          (s.heap q).Holds k v ∨ (k = key ∧ v = value) := fun k v =>
        @holds_insertAtIndex K V (s.heap q).begun key k value v (fp key) i hlt hbit
      refine ⟨s.set q ((s.heap q).begun.insertAtIndex (key, value) i (fp key)).writeUnlock, l, ?_, ?_,
        Quiet.grown ⟨rfl, rfl⟩⟩
      · rw [hbody, Option.map_some, set_heap_self, set_set]
        rfl
      · refine h.written hq hrange ⟨rfl, rfl, rfl, rfl, rfl⟩ rfl rfl rfl ?_ (fun v => ?_) fun k hkk =>
          ⟨Table.get_insert_ne (Ne.symm hkk), fun v => ?_⟩
        · have hok : ((s.heap q).begun.insertAtIndex (key, value) i (fp key)).Ok fp :=
            Ok.insertAtIndex (hb.ok.of_bitMap rfl rfl fun _ h => h) hnew
          exact hok.of_bitMap rfl rfl fun _ h => h
        · rw [hheld, Table.get_insert_self]
          simp [hnew, eq_comm]
        · rw [hheld]
          simp [hkk]

end SidleBaselines.Pactree
