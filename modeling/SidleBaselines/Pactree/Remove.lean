import SidleBaselines.Pactree.DataLayer

/-!
# Removing from the list

A remove empties the slot of the key. A node and its neighbour that are left with next to nothing
between them become one: the node takes the next one's entries, or the one before it takes its own.

## What is proved

* `Rep.join` — what two nodes that have become one do to the map.
* `Rep.remove` — a remove is one on the map, whichever way the nodes are merged.
-/

namespace SidleBaselines.Pactree

open Data ListNode

variable {K V : Type} [LinearOrder K] [BoundedOrder K] {fp : K → UInt8} {B : ℕ}
  {s : LinkedList K V} {l l₁ l₂ : List ℕ} {tail p q : ℕ} {t : Table K V} {k key : K} {v value : V}
  {n m n' m' : ListNode K V} {prev : Option ℕ} {lo : K} {a b i next : ℕ}

/-- **A merge**: node `b` goes, and `a` before it has what the two held, but for `key`. -/
theorem Rep.join {s' : LinkedList K V} {B' : ℕ} {new : ListNode K V}
    (h : Rep fp B s (l₁ ++ a :: b :: l₂) tail t) (hB : B ≤ B') (htop : s'.top = s.top)
    (hhead : s'.headPtr = s.headPtr) (ha : s'.heap a = new)
    (hn : s'.heap (l₂.headD tail) = { s.heap (l₂.headD tail) with prevPtr := some a })
    (hrest : ∀ x, x ≠ a → x ≠ b → x ≠ l₂.headD tail → s'.heap x = s.heap x)
    (hnew : ∀ prev lo, Linked fp B prev lo a b (s.heap a) → Linked fp B' prev lo a (l₂.headD tail) new)
    (hmax : new.max = (s.heap b).max)
    (hheld : ∀ k v, new.Holds k v ↔ k ≠ key ∧ ((s.heap a).Holds k v ∨ (s.heap b).Holds k v))
    (hkey : ∀ x ∈ l₁ ++ l₂, ∀ v, ¬ (s.heap x).Holds key v) :
    Rep fp B' s' (l₁ ++ a :: l₂) tail (t.remove key) := by
  obtain ⟨last, hi, hseg, hla, hlb, hchain⟩ := chain_append.mp h.chain
  have hnodup := h.nodup
  have hmem : l₂.headD tail ∈ l₂ ++ [tail] := by cases l₂ <;> simp
  rw [List.append_assoc, List.cons_append, List.cons_append] at hnodup
  obtain ⟨hnod₁, hnod₂, hdisj⟩ := List.nodup_append.mp hnodup
  obtain ⟨hanot, hnod₃⟩ := List.nodup_cons.mp hnod₂
  obtain ⟨hbnot, hnod₄⟩ := List.nodup_cons.mp hnod₃
  have hsame₁ : ∀ x ∈ l₁, s'.heap x = s.heap x := fun x hx =>
    hrest x (hdisj x hx a List.mem_cons_self) (hdisj x hx b (.tail _ List.mem_cons_self))
      (hdisj x hx _ (.tail _ (.tail _ hmem)))
  have hsame₂ : ∀ x ∈ l₂ ++ [tail], s'.heap x = Function.update s.heap (l₂.headD tail)
      { s.heap (l₂.headD tail) with prevPtr := some a } x := by
    intro x hx
    by_cases hxn : x = l₂.headD tail
    · rw [hxn, hn, Function.update_self]
    · rw [Function.update_of_ne hxn]
      exact hrest x (fun e => hanot (e ▸ .tail _ hx)) (fun e => hbnot (e ▸ hx)) hxn
  constructor
  · refine chain_append.mpr ⟨last, hi, (hseg.congr hsame₁).mono hB, ?_, ?_⟩
    · rw [ha]
      exact hnew last hi hla
    · rw [ha, hmax]
      have := (hchain.mono hB).setPrev hnod₄ (some a)
      exact this.congr (fun x hx => hsame₂ x (List.mem_append_left _ hx))
        (hsame₂ tail (List.mem_append_right _ List.mem_cons_self))
  · rw [hhead, ← h.head]
    cases l₁ <;> rfl
  · rw [List.append_assoc, List.cons_append]
    refine hnodup.sublist ?_
    exact ((List.sublist_cons_self b _).cons_cons a).append_left l₁
  · intro x hx
    rw [htop]
    refine h.below x ?_
    simp only [List.mem_append, List.mem_cons] at hx ⊢
    tauto
  · intro k v
    have hpart₁ : (∃ p ∈ l₁, (s'.heap p).Holds k v) ↔ ∃ p ∈ l₁, (s.heap p).Holds k v :=
      exists_congr fun x => and_congr_right fun hx => by rw [hsame₁ x hx]
    have hpart₂ : (∃ p ∈ l₂, (s'.heap p).Holds k v) ↔ ∃ p ∈ l₂, (s.heap p).Holds k v := by
      refine exists_congr fun x => and_congr_right fun hx => ?_
      rw [hsame₂ x (List.mem_append_left _ hx)]
      by_cases hxn : x = l₂.headD tail
      · rw [hxn, Function.update_self]
        exact holds_setPrev rfl
      · rw [Function.update_of_ne hxn]
    have hall : t.get k = some v ↔ (∃ p ∈ l₁, (s.heap p).Holds k v) ∨ (s.heap a).Holds k v ∨
        (s.heap b).Holds k v ∨ ∃ p ∈ l₂, (s.heap p).Holds k v := by
      rw [h.table, exists_mem_append, List.exists_mem_cons_iff, List.exists_mem_cons_iff]
    rw [exists_mem_append, List.exists_mem_cons_iff, ha, hpart₁, hpart₂, hheld, Table.get_remove]
    by_cases hkk : key = k
    · subst hkk
      have h₁ : ¬ ∃ p ∈ l₁, (s.heap p).Holds key v := fun ⟨x, hx, hv⟩ =>
        hkey x (List.mem_append_left _ hx) v hv
      have h₂ : ¬ ∃ p ∈ l₂, (s.heap p).Holds key v := fun ⟨x, hx, hv⟩ =>
        hkey x (List.mem_append_right _ hx) v hv
      simp [h₁, h₂]
    · rw [if_neg hkk, hall]
      simp only [ne_eq, Ne.symm hkk, not_false_eq_true, true_and, or_assoc]

/-! ### The node that takes the entries -/

/-- The node after its writer has taken `key` out of it, if it was there. -/
structure Without (fp : K → UInt8) (key : K) (n n' : ListNode K V) : Prop extends SameLinks n n' where
  ok : n'.Ok fp
  /-- The entries. -/
  holds : ∀ k v, n'.Holds k v ↔ k ≠ key ∧ n.Holds k v
  live : n'.deleted = n.deleted
  /-- The writer has it. -/
  version : n'.verLock = n.verLock + 1
  scanned : n'.lastScanVersion = n.lastScanVersion

omit [BoundedOrder K] in
theorem without_removed (h : Body fp B n) (hi : n.getKeyIndex key (fp key) = some i) :
    Without fp key n (n.begun.removeFromIndex i) := by
  obtain ⟨hlt, hb, hk⟩ := h.ok.of_getKeyIndex hi
  have hok : n.begun.Ok fp := h.ok.of_bitMap rfl rfl fun _ h => h
  exact ⟨⟨rfl, rfl, rfl, rfl, rfl⟩, hok.removeFromIndex,
    fun k v => hok.holds_removeFromIndex hlt hb hk, rfl, rfl, rfl⟩

omit [BoundedOrder K] in
theorem without_begun (h : Body fp B n) (hkey : ∀ v, ¬ n.Holds key v) : Without fp key n n.begun where
  cur := rfl
  prev := rfl
  next := rfl
  min := rfl
  max := rfl
  ok := h.ok.of_bitMap rfl rfl fun _ h => h
  holds _ v := ⟨fun hv => ⟨fun e => hkey v (e ▸ hv), hv⟩, fun hv => hv.2⟩
  live := rfl
  version := rfl
  scanned := rfl

omit [BoundedOrder K] in
/-- The node stands for the keys of both. -/
theorem Linked.absorb (ha : Linked fp B prev lo a b n) (hb : Linked fp B (some a) n.max b next m)
    (hn : Without fp key n n') (hm : Without fp key m m')
    (hroom : n'.getNumEntries + m'.getNumEntries ≤ MAX_ENTRIES) :
    Linked fp (B + 2) prev lo a next (n'.absorb m').writeUnlock ∧ (n'.absorb m').curPtr = a ∧
      (n'.absorb m').writeUnlock.max = m.max ∧
      ∀ k v, (n'.absorb m').writeUnlock.Holds k v ↔ k ≠ key ∧ (n.Holds k v ∨ m.Holds k v) := by
  obtain ⟨hok, hholds, hrest⟩ := merge_spec hn.ok hm.ok hroom fun _ _ _ hu hv => by
    have hu := (hb.body.range _ _ ((hm.holds _ _).mp hu).2).1
    have hv := (ha.body.range _ _ ((hn.holds _ _).mp hv).2).2
    exact absurd (hv.trans_le (hb.min.ge.trans hu)) (lt_irrefl _)
  have hheld : ∀ k v, (n'.absorb m').writeUnlock.Holds k v ↔ k ≠ key ∧ (n.Holds k v ∨ m.Holds k v) := by
    intro k v
    rw [show (n'.absorb m').writeUnlock.Holds k v ↔ (n'.merge m').Holds k v from Iff.rfl, hholds, hn.holds,
      hm.holds, and_or_left]
  have hmax : (n'.absorb m').writeUnlock.max = m.max := hm.max
  have hmin : (n'.absorb m').writeUnlock.min = n.min := (congrArg ListNode.min hrest).trans hn.min
  have hcur : (n'.absorb m').curPtr = a := (congrArg ListNode.curPtr hrest).trans (hn.cur.trans ha.cur)
  have hmid : lo ≤ m.min := hb.min ▸ ha.lt.le
  refine ⟨⟨ha.body.written (hok.of_bitMap rfl rfl fun _ h => h) ?_ ?_ ?_ ?_, hcur, ?_, hm.next.trans hb.next,
    hmin.trans ha.min, ?_⟩, hcur, hmax, hheld⟩
  · intro k v hv
    rw [hmin, hmax]
    obtain ⟨-, hv | hv⟩ := (hheld k v).mp hv
    · have := ha.body.range k v hv
      exact ⟨this.1, this.2.trans (hb.min ▸ hb.lt)⟩
    · have := hb.body.range k v hv
      exact ⟨ha.min ▸ hmid.trans this.1, this.2⟩
  · exact (congrArg ListNode.deleted hrest).trans hn.live
  · exact congrArg (· + 1) ((congrArg ListNode.verLock hrest).trans hn.version)
  · exact (congrArg ListNode.lastScanVersion hrest).trans hn.scanned
  · exact (congrArg ListNode.prevPtr hrest).trans (hn.prev.trans ha.prev)
  · exact (hmid.trans_lt (hb.min ▸ hb.lt)).trans_eq hmax.symm

/-! ### The list after a merge -/

/-- The list after node `a` has taken the place of `b`, which is left as `old`. -/
def LinkedList.joinAt (s : LinkedList K V) (a b next : ℕ) (new old : ListNode K V) : LinkedList K V where
  heap := Function.update (Function.update (Function.update s.heap b old) a new) next
    { s.heap next with prevPtr := some a }
  top := s.top
  headPtr := s.headPtr
  oplog := s.oplog

omit [LinearOrder K] [BoundedOrder K] in
/-- What `mergeWithNext` comes to, with the unlock after it. -/
theorem mergeWithNext_eq (hnext : n.nextPtr = some b) (hab : a ≠ b) (hlock : (s.heap b).writeLock = some m)
    (hm : m.nextPtr = some next) (hna : next ≠ a) (hnb : next ≠ b) (hcur : (n.absorb m).curPtr = a) :
    ((s.set a n).mergeWithNext a).map (fun s' => s'.set a (s'.heap a).writeUnlock) =
      some (s.joinAt a b next (n.absorb m).writeUnlock { m with deleted := true }) := by
  have hb : (s.set a n).heap b = s.heap b := set_heap_ne (Ne.symm hab)
  simp only [LinkedList.mergeWithNext, set_heap_self, hnext, Option.bind_eq_bind, Option.bind_some, hb, hlock,
    hm, LinkedList.setPrev, Option.pure_def, Option.map_some, hcur, Option.some.injEq]
  generalize n.absorb m = new
  simp only [LinkedList.joinAt, LinkedList.set, LinkedList.mk.injEq, and_self, and_true]
  funext x
  by_cases hxn : x = next
  · subst hxn
    simp [Function.update_of_ne hna, Function.update_of_ne hnb]
  · by_cases hxa : x = a
    · subst hxa
      simp [Function.update_of_ne (Ne.symm hna)]
    · by_cases hxb : x = b
      · subst hxb
        simp [Function.update_of_ne hxa, Function.update_of_ne hxn]
      · simp [Function.update_of_ne hxa, Function.update_of_ne hxn, Function.update_of_ne hxb]

omit [LinearOrder K] [BoundedOrder K] in
/-- What `mergeWithPrev` comes to, with the unlock after it. -/
theorem mergeWithPrev_eq (hprev : m.prevPtr = some a) (hab : a ≠ b) (hlock : (s.heap a).writeLock = some n)
    (hm : m.nextPtr = some next) (hna : next ≠ a) (hnb : next ≠ b) :
    ((s.set b m).mergeWithPrev b).map (fun s' => s'.set b (s'.heap b).writeUnlock) =
      some (s.joinAt a b next (n.absorb m).writeUnlock m.writeUnlock) := by
  have ha : (s.set b m).heap a = s.heap a := set_heap_ne hab
  simp only [LinkedList.mergeWithPrev, set_heap_self, hprev, Option.bind_eq_bind, Option.bind_some, ha, hlock,
    hm, LinkedList.setPrev, Option.pure_def, Option.map_some, Option.some.injEq]
  generalize n.absorb m = new
  simp only [LinkedList.joinAt, LinkedList.set, LinkedList.mk.injEq, and_self, and_true]
  funext x
  by_cases hxn : x = next
  · subst hxn
    simp [Function.update_of_ne hna, Function.update_of_ne hnb]
  · by_cases hxa : x = a
    · subst hxa
      simp [Function.update_of_ne hab, Function.update_of_ne hxn]
    · by_cases hxb : x = b
      · subst hxb
        simp [Function.update_of_ne hxa, Function.update_of_ne hxn]
      · simp [Function.update_of_ne hxa, Function.update_of_ne hxn, Function.update_of_ne hxb]

/-! ### The remove -/

omit [BoundedOrder K] in
/-- What `remove` does on a node that has the key. -/
theorem nodeRemove_eq (hi : n.getKeyIndex key (fp key) = some i) (hnext : n.nextPtr = some next) :
    (s.set q n).nodeRemove fp q key =
      if n.getNumEntries + ((s.set q (n.removeFromIndex i)).heap next).getNumEntries < MAX_ENTRIES / 2 then
        ((s.set q (n.removeFromIndex i)).mergeWithNext q).map (Prod.mk true)
      else match n.prevPtr with
        | none => some (true, s.set q (n.removeFromIndex i))
        | some prev =>
          if n.getNumEntries + ((s.set q (n.removeFromIndex i)).heap prev).getNumEntries < MAX_ENTRIES / 2 then
            ((s.set q (n.removeFromIndex i)).mergeWithPrev q).map (Prod.mk true)
          else some (true, s.set q (n.removeFromIndex i)) := by
  simp only [LinkedList.nodeRemove, set_heap_self, hi, hnext, set_set, Option.bind_eq_bind, Option.bind_some,
    Option.pure_def, Option.map_eq_bind]
  cases n.prevPtr <;> rfl

/-- Two nodes of the list of which one takes the entries of the other, but for `key`. -/
theorem Rep.absorb {old : ListNode K V} (h : Rep fp B s (l₁ ++ a :: b :: l₂) tail t)
    (hn : Without fp key (s.heap a) n) (hm : Without fp key (s.heap b) m)
    (hroom : n.getNumEntries + m.getNumEntries ≤ MAX_ENTRIES)
    (hkey : ∀ x ∈ l₁ ++ l₂, ∀ v, ¬ (s.heap x).Holds key v) :
    Rep fp (B + 2) (s.joinAt a b (l₂.headD tail) (n.absorb m).writeUnlock old) (l₁ ++ a :: l₂) tail
      (t.remove key) := by
  obtain ⟨last, hi, hseg, hla, hlb, hchain⟩ := chain_append.mp h.chain
  obtain ⟨-, -, hmax, hheld⟩ := hla.absorb hlb hn hm hroom
  have hmem : l₂.headD tail ∈ l₂ ++ [tail] := by cases l₂ <;> simp
  have hnodup := h.nodup
  rw [List.append_assoc, List.cons_append, List.cons_append] at hnodup
  obtain ⟨hanot, hnod₃⟩ := List.nodup_cons.mp (List.nodup_append.mp hnodup).2.1
  have hna : l₂.headD tail ≠ a := fun e => hanot (e ▸ .tail _ hmem)
  have hab : a ≠ b := fun e => hanot (e ▸ List.mem_cons_self)
  refine h.join (Nat.le_add_right B 2) (by rfl) (by rfl) ?_ (Function.update_self ..) ?_
    (fun prev lo hp => ?_) hmax hheld hkey
  · exact (Function.update_of_ne hna.symm _ _).trans (Function.update_self ..)
  · intro x hxa hxb hxn
    exact (Function.update_of_ne hxn _ _).trans ((Function.update_of_ne hxa _ _).trans
      (Function.update_of_ne hxb _ _))
  · exact (hp.absorb hlb hn hm hroom).1

omit [BoundedOrder K] in
/-- The nodes of a list are told apart. -/
theorem nodup_pair (h : (l₁ ++ a :: b :: l₂ ++ [tail]).Nodup) :
    a ≠ b ∧ l₂.headD tail ≠ a ∧ l₂.headD tail ≠ b ∧ ∀ x ∈ l₁ ++ l₂, x ≠ a ∧ x ≠ b := by
  have hmem : l₂.headD tail ∈ l₂ ++ [tail] := by cases l₂ <;> simp
  rw [List.append_assoc, List.cons_append, List.cons_append] at h
  obtain ⟨-, hnod, hdisj⟩ := List.nodup_append.mp h
  obtain ⟨hanot, hnod⟩ := List.nodup_cons.mp hnod
  obtain ⟨hbnot, -⟩ := List.nodup_cons.mp hnod
  refine ⟨fun e => hanot (e ▸ List.mem_cons_self), fun e => hanot (e ▸ .tail _ hmem), fun e => hbnot (e ▸ hmem),
    fun x hx => ?_⟩
  rcases List.mem_append.mp hx with hx | hx
  · exact ⟨hdisj x hx a List.mem_cons_self, hdisj x hx b (.tail _ List.mem_cons_self)⟩
  · have hx := List.mem_append_left [tail] hx
    exact ⟨fun e => hanot (e ▸ .tail _ hx), fun e => hbnot (e ▸ hx)⟩

/-- `mergeWithNext`, where the node has lost the key and few are left. -/
theorem Rep.mergeWithNext (h : Rep fp B s (l₁ ++ q :: l₂) tail t) (hB : B < 2 ^ 32)
    (hw : Without fp key (s.heap q) n)
    (hroom : n.getNumEntries + ((s.set q n).heap (l₂.headD tail)).getNumEntries < MAX_ENTRIES)
    (hkey : ∀ x ∈ l₁ ++ q :: l₂, x ≠ q → ∀ v, ¬ (s.heap x).Holds key v) :
    ∃ s' l', ((s.set q n).mergeWithNext q).map (fun s' => s'.set q (s'.heap q).writeUnlock) = some s' ∧
      Rep fp (B + 2) s' l' tail (t.remove key) ∧ Quiet s s' := by
  obtain ⟨last, lo, -, hlq, hchain⟩ := chain_append.mp h.chain
  cases l₂ with
  | nil =>
    -- the last node looks full
    have hne : tail ≠ q := fun e => by
      have := (List.nodup_append.mp h.nodup).2.2 q (by simp) tail (by simp)
      exact this e.symm
    have hfull : (s.heap tail).getNumEntries = MAX_ENTRIES :=
      (List.countP_eq_length.mpr fun i hi => hchain.1.full i (List.mem_range.mp hi)).trans List.length_range
    rw [List.headD_nil, set_heap_ne hne, hfull] at hroom
    omega
  | cons r l₂ =>
    obtain ⟨hlr, -⟩ := hchain
    obtain ⟨hqr, hnq, hnr, hne⟩ := nodup_pair h.nodup
    have hwr : Without fp key (s.heap r) (s.heap r).begun := without_begun hlr.body (hkey r (by simp) hqr.symm)
    rw [List.headD_cons, set_heap_ne hqr.symm] at hroom
    have hroom' : n.getNumEntries + (s.heap r).begun.getNumEntries ≤ MAX_ENTRIES := hroom.le
    refine ⟨_, l₁ ++ q :: l₂,
      mergeWithNext_eq (hw.next.trans hlq.next) hqr (hlr.body.writeLock hB) hlr.next hnq hnr
      (hlq.absorb hlr hw hwr hroom').2.1, h.absorb hw hwr hroom' fun x hx => hkey x ?_ (hne x hx).1, rfl, rfl⟩
    simp only [List.mem_append, List.mem_cons] at hx ⊢
    tauto

/-- `mergeWithPrev`, where the node has lost the key and few are left. -/
theorem Rep.mergeWithPrev (h : Rep fp B s (l₁ ++ q :: l₂) tail t) (hB : B < 2 ^ 32)
    (hw : Without fp key (s.heap q) n) (hprev : (s.heap q).prevPtr = some a)
    (hroom : n.getNumEntries + ((s.set q n).heap a).getNumEntries < MAX_ENTRIES)
    (hkey : ∀ x ∈ l₁ ++ q :: l₂, x ≠ q → ∀ v, ¬ (s.heap x).Holds key v) :
    ∃ s' l', ((s.set q n).mergeWithPrev q).map (fun s' => s'.set q (s'.heap q).writeUnlock) = some s' ∧
      Rep fp (B + 2) s' l' tail (t.remove key) ∧ Quiet s s' ∧ s'.top = s.top ∧ q ∉ l' ++ [tail] ∧
      s'.heap q = n.writeUnlock := by
  obtain ⟨last, lo, hseg, hlq, -⟩ := chain_append.mp h.chain
  rcases List.eq_nil_or_concat l₁ with rfl | ⟨l₀, m, rfl⟩
  · have := hseg.1.trans (hlq.prev.symm.trans hprev)
    cases this
  · rw [List.concat_eq_append] at h hseg hkey
    obtain ⟨mid, midk, -, hla, hlast, -⟩ := seg_append.mp hseg
    obtain rfl : m = a := Option.some.inj (hlast.trans (hlq.prev.symm.trans hprev))
    rw [List.append_assoc, List.singleton_append] at h hkey
    obtain ⟨hmq, hnm, hnq, hne⟩ := nodup_pair h.nodup
    have hwm : Without fp key (s.heap m) (s.heap m).begun := without_begun hla.body (hkey m (by simp) hmq)
    rw [set_heap_ne hmq, Nat.add_comm] at hroom
    have hroom' : (s.heap m).begun.getNumEntries + n.getNumEntries ≤ MAX_ENTRIES := hroom.le
    refine ⟨_, l₀ ++ m :: l₂, mergeWithPrev_eq (hw.prev.trans hprev) hmq (hla.body.writeLock hB)
      (hw.next.trans hlq.next) hnm hnq, h.absorb hwm hw hroom' fun x hx => hkey x ?_ (hne x hx).2, ⟨rfl, rfl⟩,
        rfl, ?_, ?_⟩
    · simp only [List.mem_append, List.mem_cons] at hx ⊢
      tauto
    · have hnodup := h.nodup
      rw [List.append_assoc, List.cons_append, List.cons_append] at hnodup
      obtain ⟨-, hnod, hdisj⟩ := List.nodup_append.mp hnodup
      rw [List.append_assoc, List.cons_append, List.mem_append, List.mem_cons]
      rintro (hq | rfl | hq)
      · exact hdisj q hq q (.tail _ List.mem_cons_self) rfl
      · exact hmq rfl
      · exact (List.nodup_cons.mp (List.nodup_cons.mp hnod).2).1 hq
    · exact (Function.update_of_ne hnq.symm _ _).trans ((Function.update_of_ne hmq.symm _ _).trans
        (Function.update_self ..))

/-- **`remove`** takes a key out of the map, if it is there. -/
theorem Rep.remove (h : Rep fp B s l tail t) (hB : B < 2 ^ 32) (hk : key < ⊤) (hp : p ∈ l) :
    ∃ s' l', s.remove fp key p = some ((t.get key).isSome, s') ∧ Rep fp (B + 2) s' l' tail (t.remove key) ∧
      Quiet s s' := by
  obtain ⟨q, hq, hrange, he⟩ := h.removeAt hB hk hp
  have hb := (h.chain.mem hq).1
  rw [he]
  cases hi : (s.heap q).getKeyIndex key (fp key) with
  | none =>
    have hnone := (h.get_eq_none hq hrange).mpr (hb.ok.getKeyIndex_eq_none.mp hi)
    have hindex : (s.heap q).begun.getKeyIndex key (fp key) = none := hi
    have hbody : (s.set q (s.heap q).begun).nodeRemove fp q key = some (false, s.set q (s.heap q).begun) := by
      simp only [LinkedList.nodeRemove, set_heap_self, hindex]
    refine ⟨s.set q (s.heap q).begun.writeUnlock, l, ?_, ?_, rfl, rfl⟩
    · rw [hbody, Option.map_some, set_heap_self, set_set, hnone]
      rfl
    · rw [Table.remove_eq_self hnone]
      exact h.written hq hrange ⟨rfl, rfl, rfl, rfl, rfl⟩ rfl rfl rfl (hb.ok.of_bitMap rfl rfl fun _ h => h)
        (fun v => (h.get_iff hq hrange).symm) fun k _ => ⟨rfl, fun v => Iff.rfl⟩
  | some i =>
    obtain ⟨hlt, hbit, hkey⟩ := hb.ok.of_getKeyIndex hi
    have hsome : t.get key = some ((s.heap q).keyArray i).2 :=
      (h.get_iff hq hrange).mpr ((hb.ok.holds_getKeyIndex hi).mpr rfl)
    have hw : Without fp key (s.heap q) ((s.heap q).begun.removeFromIndex i) := without_removed hb hi
    have hcount : ((s.heap q).begun.removeFromIndex i).getNumEntries + 1 = (s.heap q).getNumEntries :=
      getNumEntries_removeFromIndex (n := (s.heap q).begun) hlt hbit
    obtain ⟨l₁, l₂, rfl⟩ := List.append_of_mem hq
    obtain ⟨last, lo, -, hlq, -⟩ := chain_append.mp h.chain
    -- no other node holds the key
    have hother : ∀ x ∈ l₁ ++ q :: l₂, x ≠ q → ∀ v, ¬ (s.heap x).Holds key v := fun x hx hxq v hv =>
      hxq (h.chain.unique hx hq ((h.chain.mem hx).1.range key v hv) ((Body.checkRange _).mp hrange))
    have hplain : ∃ s' l', (some (true, s.set q ((s.heap q).begun.removeFromIndex i))).map
        (fun r : Bool × LinkedList K V => (r.1, r.2.set q (r.2.heap q).writeUnlock)) = some (true, s') ∧
        Rep fp (B + 2) s' l' tail (t.remove key) ∧ Quiet s s' := by
      refine ⟨s.set q ((s.heap q).begun.removeFromIndex i).writeUnlock, l₁ ++ q :: l₂, ?_, ?_, rfl, rfl⟩
      · rw [Option.map_some, set_heap_self, set_set]
      · refine h.written hq hrange ⟨rfl, rfl, rfl, rfl, rfl⟩ rfl rfl rfl (hw.ok.of_bitMap rfl rfl fun _ h => h)
          (fun v => ?_) fun k hkk => ⟨Table.get_remove_ne (Ne.symm hkk), fun v => ?_⟩
        · rw [Table.get_remove_self]
          exact iff_of_false (fun hv => ((hw.holds key v).mp hv).1 rfl) (by simp)
        · exact (hw.holds k v).trans (and_iff_right hkk)
    -- a merge answers and unlocks as the plain removal does
    have hmerged : ∀ r : Option (LinkedList K V),
        (∃ s' l', r.map (fun s' => s'.set q (s'.heap q).writeUnlock) = some s' ∧
          Rep fp (B + 2) s' l' tail (t.remove key) ∧ Quiet s s') →
        ∃ s' l', (r.map (Prod.mk true)).map
            (fun r : Bool × LinkedList K V => (r.1, r.2.set q (r.2.heap q).writeUnlock)) = some (true, s') ∧
          Rep fp (B + 2) s' l' tail (t.remove key) ∧ Quiet s s' := by
      rintro r ⟨s', l', hr, hrep, hlog⟩
      obtain ⟨s₁, rfl, rfl⟩ := Option.map_eq_some_iff.mp hr
      exact ⟨_, l', rfl, hrep, hlog⟩
    have hindex : (s.heap q).begun.getKeyIndex key (fp key) = some i := hi
    have hnum : (s.heap q).begun.getNumEntries = (s.heap q).getNumEntries := rfl
    rw [nodeRemove_eq hindex (show (s.heap q).begun.nextPtr = some (l₂.headD tail) from hlq.next), hsome, hnum]
    split_ifs with hnext
    · exact hmerged _ (h.mergeWithNext hB hw (by omega) hother)
    · cases hprev : (s.heap q).begun.prevPtr with
      | none => exact hplain
      | some m =>
        dsimp only
        split_ifs with hm
        · obtain ⟨s', l', hs', hrep, hquiet, -⟩ := h.mergeWithPrev hB hw hprev (by omega) hother
          exact hmerged _ ⟨s', l', hs', hrep, hquiet⟩
        · exact hplain

end SidleBaselines.Pactree
