import SidleBaselines.Masstree.Kpermuter

/-!
# The slots of a leaf

What a permuter says: the slots in use in the order of their keys, and the slots that are free, the
next to be used last. No slot is in two places, and none is lost: that is part of the type.

## What is proved

* `Slots.live_insert`, `Slots.next_notMem` — an insertion takes a slot that is not in use and puts it
  in its place;
* `Reads.exec` — the word and the slots take the same step;
* `kpermuter_refines` — and the same run.
-/

namespace SidleBaselines.Masstree

variable {W n i j : ℕ}

/-- The slots in use, in order, and those that are free, the next to be used last. -/
structure Slots (W : ℕ) where
  live : List ℕ
  free : List ℕ
  perm : (live ++ free).Perm (List.range W)

namespace Slots

variable (s : Slots W)

/-- The slots at the positions of the permuter. -/
def order : List ℕ := s.live ++ s.free

theorem perm_order : s.order.Perm (List.range W) := s.perm

theorem length_order : s.order.length = W := by
  simpa using s.perm_order.length_eq

theorem length_add : s.live.length + s.free.length = W := by
  simpa using s.perm.length_eq

theorem nodup_order : s.order.Nodup :=
  s.perm_order.nodup_iff.mpr List.nodup_range

/-- The slots in the order `l`, the first `n` of them in use. -/
def cut (l : List ℕ) (n : ℕ) (h : l.Perm (List.range W)) : Slots W where
  live := l.take n
  free := l.drop n
  perm := by rwa [List.take_append_drop]

theorem order_cut {l : List ℕ} (h : l.Perm (List.range W)) : (cut l n h).order = l :=
  List.take_append_drop n l

/-- The first `n` slots in use, and the others used in their order. -/
def sorted (W n : ℕ) (h : n ≤ W) : Slots W where
  live := List.range n
  free := ((List.range W).drop n).reverse
  perm := by
    have htake : List.range n = (List.range W).take n := by rw [List.take_range, Nat.min_eq_left h]
    rw [htake]
    exact ((List.reverse_perm _).append_left _).trans (by rw [List.take_append_drop])

variable {s}

/-- The next slot to be used. -/
def next (s : Slots W) (h : s.free ≠ []) : ℕ := s.free.getLast h

theorem perm_insert (h : s.free ≠ []) (hi : i < W) :
    ((s.live ++ s.free.dropLast).insertIdx i (s.next h)).Perm (List.range W) := by
  have hlen : i ≤ (s.live ++ s.free.dropLast).length := by
    have := s.length_add
    rw [List.length_append, List.length_dropLast]
    omega
  have hback : s.live ++ s.free.dropLast ++ [s.next h] = s.live ++ s.free := by
    rw [List.append_assoc, next, List.dropLast_concat_getLast h]
  exact (List.perm_insertIdx _ _ hlen).trans ((List.perm_append_singleton _ _).symm.trans (hback ▸ s.perm))

/-- The next slot is put at position `i`. -/
def insert (s : Slots W) (i : ℕ) (h : s.free ≠ []) (hi : i < W) : Slots W :=
  cut _ (s.live.length + 1) (perm_insert h hi)

theorem perm_erase (hi : i < s.live.length) : (s.live[i] :: (s.live.eraseIdx i ++ s.free)).Perm (List.range W) :=
  ((List.getElem_cons_eraseIdx_perm hi).append_right s.free).trans s.perm

/-- The slot at position `i` is the first that is free. -/
def remove (s : Slots W) (i : ℕ) (hi : i < s.live.length) : Slots W where
  live := s.live.eraseIdx i
  free := s.live[i] :: s.free
  perm := List.perm_middle.trans (perm_erase hi)

theorem order_remove (hi : i < s.live.length) :
    (s.remove i hi).order = s.live.eraseIdx i ++ s.live[i] :: s.free := rfl

/-- The slot at position `i` is the next to be used. -/
def removeToBack (s : Slots W) (i : ℕ) (hi : i < s.live.length) : Slots W where
  live := s.live.eraseIdx i
  free := s.free ++ [s.live[i]]
  perm := by
    rw [← List.append_assoc]
    exact (List.perm_append_singleton _ _).trans (perm_erase hi)

theorem order_removeToBack (hi : i < s.live.length) :
    (s.removeToBack i hi).order = s.order.eraseIdx i ++ [s.live[i]] := by
  rw [order, removeToBack, order, List.eraseIdx_append_of_lt_length hi, List.append_assoc]

theorem free_removeToBack (hi : i < s.live.length) : (s.removeToBack i hi).free ≠ [] :=
  List.append_ne_nil_of_right_ne_nil s.free (List.cons_ne_nil s.live[i] [])

theorem next_removeToBack (hi : i < s.live.length) :
    (s.removeToBack i hi).next (free_removeToBack hi) = s.live[i] :=
  List.getLast_concat

/-- The first `n` positions are in use. -/
def setSize (s : Slots W) (n : ℕ) : Slots W := cut s.order n s.perm_order

/-- Two positions are exchanged. -/
def exchange (s : Slots W) (i j : ℕ) (hi : i < s.order.length) (hj : j < s.order.length) : Slots W :=
  cut ((s.order.set i s.order[j]).set j s.order[i]) s.live.length ((List.set_set_perm hi hj).trans s.perm_order)

/-! ### Insertions -/

/-- The slot an insertion takes is not in use. -/
theorem next_notMem (h : s.free ≠ []) : s.next h ∉ s.live := fun hmem =>
  List.disjoint_of_nodup_append s.nodup_order hmem (List.getLast_mem h)

theorem insertIdx_append {α : Type} {l r : List α} {x : α} (h : i ≤ l.length) :
    (l ++ r).insertIdx i x = l.insertIdx i x ++ r := by
  induction l generalizing i with
  | nil =>
    obtain rfl : i = 0 := Nat.le_zero.mp h
    rfl
  | cons a l ih =>
    cases i with
    | zero => rfl
    | succ i =>
      rw [List.cons_append, List.insertIdx_succ_cons, ih (Nat.le_of_succ_le_succ h), List.insertIdx_succ_cons,
        List.cons_append]

/-- It is put in its place, and the others keep theirs. -/
theorem live_insert (h : s.free ≠ []) (hi : i < W) (hle : i ≤ s.live.length) :
    (s.insert i h hi).live = s.live.insertIdx i (s.next h) := by
  have hlen := List.length_insertIdx_of_le_length hle (s.next h)
  show List.take _ (List.insertIdx _ _ _) = _
  rw [insertIdx_append hle, List.take_left' hlen]

/-! ### Exchanges -/

/-- Slots that are free are exchanged: those in use stay. -/
theorem live_exchange (hi : i < s.order.length) (hj : j < s.order.length)
    (hli : s.live.length ≤ i) (hlj : s.live.length ≤ j) : (s.exchange i j hi hj).live = s.live := by
  show List.take _ (List.set _ _ _) = _
  rw [List.take_set_of_le hlj, List.take_set_of_le hli, order, List.take_left]

end Slots

/-! ### Runs -/

/-- The operations of a permuter. -/
inductive Op where
  | insertFromBack (i : ℕ)
  | remove (i : ℕ)
  | removeToBack (i : ℕ)
  | setSize (n : ℕ)
  | exchange (i j : ℕ)

/-- What an operation gives, and the word after it. -/
def Op.onWord (W : ℕ) (x : BitVec 64) : Op → Option ℕ × BitVec 64
  | .insertFromBack i => let r := Kpermuter.insertFromBack W x i; (some r.1, r.2)
  | .remove i => (none, Kpermuter.remove x i)
  | .removeToBack i => (none, Kpermuter.removeToBack W x i)
  | .setSize n => (none, Kpermuter.setSize x n)
  | .exchange i j => (none, Kpermuter.exchange x i j)

/-- What an operation gives, and the slots after it, where its precondition holds. -/
def Op.onSlots (s : Slots W) : Op → Option (Option ℕ × Slots W)
  | .insertFromBack i =>
    if h : s.free ≠ [] ∧ i < W then some (some (s.next h.1), s.insert i h.1 h.2) else none
  | .remove i => if h : i < s.live.length then some (none, s.remove i h) else none
  | .removeToBack i => if h : i < s.live.length then some (none, s.removeToBack i h) else none
  | .setSize n => if n ≤ W then some (none, s.setSize n) else none
  | .exchange i j =>
    if h : i < s.order.length ∧ j < s.order.length then some (none, s.exchange i j h.1 h.2) else none

def runWord (W : ℕ) : List Op → BitVec 64 → List (Option ℕ) × BitVec 64
  | [], x => ([], x)
  | o :: ops, x =>
    let r := o.onWord W x
    let rest := runWord W ops r.2
    (r.1 :: rest.1, rest.2)

def runSlots : List Op → Slots W → Option (List (Option ℕ) × Slots W)
  | [], s => some ([], s)
  | o :: ops, s => do
    let r ← o.onSlots s
    let rest ← runSlots ops r.2
    return (r.1 :: rest.1, rest.2)

/-- The word says what the slots are. -/
structure Reads (x : BitVec 64) (s : Slots W) : Prop where
  size : Kpermuter.size x = s.live.length
  get : ∀ j, j < W → s.order[j]? = some (Kpermuter.get x j)

open Kpermuter

variable {x : BitVec 64} {s : Slots W}

namespace Reads

theorem makeSorted (hn : n ≤ W) (hW : W ≤ 15) : Reads (makeSorted W n) (.sorted W n hn) where
  size := by rw [size_makeSorted hn hW, Slots.sorted, List.length_range]
  get j hj := by
    rw [get_makeSorted hn hW hj, Slots.order, Slots.sorted]
    split_ifs with h
    · rw [List.getElem?_append_left (by rwa [List.length_range]), List.getElem?_range h]
    · have hlen : ((List.range W).drop n).length = W - n := by rw [List.length_drop, List.length_range]
      rw [List.getElem?_append_right (by rw [List.length_range]; omega), List.length_range,
        List.getElem?_reverse (by omega), List.getElem?_drop, hlen, List.getElem?_range (by omega)]
      congr 1
      omega

theorem back (h : Reads x s) (hfree : s.free ≠ []) : Kpermuter.back W x = s.next hfree := by
  have hlen := s.length_add
  have hpos := List.length_pos_iff.mpr hfree
  have hget := h.get (W - 1) (by omega)
  rw [Slots.order, List.getElem?_append_right (by omega), show W - 1 - s.live.length = s.free.length - 1 by omega,
    ← List.getLast?_eq_getElem?, List.getLast?_eq_some_getLast hfree] at hget
  exact (Option.some.inj hget).symm

theorem size_lt (h : Reads x s) (hW : W ≤ 15) (hfree : s.free ≠ []) : Kpermuter.size x < 15 := by
  have hlen := s.length_add
  have hpos := List.length_pos_iff.mpr hfree
  have hsize := h.size
  omega

theorem insertFromBack (h : Reads x s) (hW : W ≤ 15) (hfree : s.free ≠ []) (hi : i < W) :
    Reads (Kpermuter.insertFromBack W x i).2 (s.insert i hfree hi) := by
  have hsize := h.size_lt hW hfree
  have hlen := s.length_add
  have hpos := List.length_pos_iff.mpr hfree
  have horder : (s.live ++ s.free.dropLast).length = W - 1 := by
    rw [List.length_append, List.length_dropLast]
    omega
  -- the positions but the last are those of the slots before
  have hget {j : ℕ} (hj : j < W - 1) : (s.live ++ s.free.dropLast)[j]? = some (Kpermuter.get x j) := by
    rw [← h.get j (by omega), Slots.order, List.getElem?_append, List.getElem?_append]
    split_ifs with hl
    · rfl
    · rw [List.getElem?_dropLast, if_pos (by omega)]
  refine ⟨?_, fun j hj => ?_⟩
  · rw [size_insertFromBack hsize, h.size, Slots.insert, Slots.cut, List.length_take,
      List.length_insertIdx_of_le_length (by omega)]
    omega
  · rw [get_insertFromBack hsize (by omega), Slots.insert, Slots.order_cut, List.getElem?_insertIdx]
    split_ifs with hbefore hat hle
    · exact hget (by omega)
    · rw [h.back hfree]
    · omega
    · exact hget (by omega)

theorem getElem_live (h : Reads x s) (hi : i < s.live.length) : s.live[i] = Kpermuter.get x i := by
  have hlen := s.length_add
  have hget := h.get i (by omega)
  rw [Slots.order, List.getElem?_append_left hi, List.getElem?_eq_getElem hi] at hget
  exact Option.some.inj hget

theorem remove (h : Reads x s) (hW : W ≤ 15) (hi : i < s.live.length) :
    Reads (Kpermuter.remove x i) (s.remove i hi) := by
  have hlen := s.length_add
  have hsize := h.size
  have hlive : (s.live.eraseIdx i).length = s.live.length - 1 := List.length_eraseIdx_of_lt hi
  refine ⟨?_, fun j hj => ?_⟩
  · rw [size_remove (by omega), h.size, Slots.remove, hlive]
  · have hget := h.get
    simp only [Slots.order] at hget
    rw [get_remove (by omega) (by omega), h.size, Slots.order_remove]
    split_ifs with hbefore hmid hat
    · rw [List.getElem?_append_left (by omega), List.getElem?_eraseIdx_of_lt hbefore, ← hget j hj,
        List.getElem?_append_left (by omega)]
    · rw [List.getElem?_append_left (by omega), List.getElem?_eraseIdx_of_ge (by omega),
        ← hget (j + 1) (by omega), List.getElem?_append_left (by omega)]
    · rw [List.getElem?_append_right (by omega), hlive, show j - (s.live.length - 1) = 0 by omega,
        List.getElem?_cons_zero, h.getElem_live hi]
    · rw [List.getElem?_append_right (by omega), hlive,
        show j - (s.live.length - 1) = j - s.live.length + 1 by omega, List.getElem?_cons_succ,
        ← hget j hj, List.getElem?_append_right (by omega)]

theorem removeToBack (h : Reads x s) (hW : W ≤ 15) (hi : i < s.live.length) :
    Reads (Kpermuter.removeToBack W x i) (s.removeToBack i hi) := by
  have hlen := s.length_add
  have hsize := h.size
  have hlive : (s.live.eraseIdx i).length = s.live.length - 1 := List.length_eraseIdx_of_lt hi
  refine ⟨?_, fun j hj => ?_⟩
  · rw [size_removeToBack (by omega) hW (by omega), h.size, Slots.removeToBack, hlive]
  · have horder : (s.order.eraseIdx i).length = W - 1 := by
      rw [List.length_eraseIdx_of_lt (by rw [s.length_order]; omega), s.length_order]
    rw [get_removeToBack (by omega) hW (by omega) hj, Slots.order_removeToBack]
    split_ifs with hbefore hmid
    · rw [List.getElem?_append_left (by omega), List.getElem?_eraseIdx_of_lt hbefore, h.get j hj]
    · rw [List.getElem?_append_left (by omega), List.getElem?_eraseIdx_of_ge (by omega), h.get (j + 1) hmid]
    · rw [List.getElem?_append_right (by omega), horder, show j - (W - 1) = 0 by omega,
        List.getElem?_cons_zero, h.getElem_live hi]

theorem setSize (h : Reads x s) (hW : W ≤ 15) (hn : n ≤ W) : Reads (Kpermuter.setSize x n) (s.setSize n) where
  size := by
    have hlen := s.length_order
    rw [size_setSize (by omega), Slots.setSize, Slots.cut, List.length_take]
    omega
  get j hj := by rw [get_setSize (by omega) (by omega), Slots.setSize, Slots.order_cut, h.get j hj]

theorem exchange (h : Reads x s) (hW : W ≤ 15) (hi : i < s.order.length) (hj : j < s.order.length) :
    Reads (Kpermuter.exchange x i j) (s.exchange i j hi hj) where
  size := by
    have hlen := s.length_add
    have hlen' := s.length_order
    rw [size_exchange, h.size, Slots.exchange, Slots.cut, List.length_take, List.length_set, List.length_set]
    omega
  get k hk := by
    have hlen := s.length_order
    have hgi := h.get i (by omega)
    have hgj := h.get j (by omega)
    rw [List.getElem?_eq_getElem hi] at hgi
    rw [List.getElem?_eq_getElem hj] at hgj
    rw [get_exchange x (by omega), Slots.exchange, Slots.order_cut, List.getElem?_set, List.getElem?_set,
      List.length_set]
    by_cases hkj : j = k
    · subst hkj
      rw [if_pos rfl, if_pos hj, hgi]
      by_cases hij : j = i
      · rw [if_pos hij, hij]
      · rw [if_neg hij, if_pos rfl]
    · rw [if_neg hkj]
      by_cases hki : i = k
      · rw [if_pos hki, if_pos hi, hgj, if_pos hki.symm]
      · rw [if_neg hki, if_neg (Ne.symm hki), if_neg (Ne.symm hkj), h.get k hk]

/-- No slot is at two positions. -/
theorem get_inj (h : Reads x s) (hi : i < W) (hj : j < W) (hget : Kpermuter.get x i = Kpermuter.get x j) :
    i = j :=
  (List.getElem?_inj (by rwa [s.length_order]) s.nodup_order).mp (by rw [h.get i hi, h.get j hj, hget])

end Reads

/-- The word and the slots take the same step. -/
theorem Reads.exec (h : Reads x s) (hW : W ≤ 15) {o : Op} {a : Option ℕ} {s' : Slots W}
    (hs : o.onSlots s = some (a, s')) : (o.onWord W x).1 = a ∧ Reads (o.onWord W x).2 s' := by
  cases o with
  | insertFromBack i =>
    obtain ⟨hpre, ha⟩ := Option.dite_none_right_eq_some.mp hs
    cases ha
    exact ⟨congrArg some (h.back hpre.1), h.insertFromBack hW hpre.1 hpre.2⟩
  | remove i =>
    obtain ⟨hpre, ha⟩ := Option.dite_none_right_eq_some.mp hs
    cases ha
    exact ⟨rfl, h.remove hW hpre⟩
  | removeToBack i =>
    obtain ⟨hpre, ha⟩ := Option.dite_none_right_eq_some.mp hs
    cases ha
    exact ⟨rfl, h.removeToBack hW hpre⟩
  | setSize n =>
    obtain ⟨hpre, ha⟩ := Option.ite_none_right_eq_some.mp hs
    cases ha
    exact ⟨rfl, h.setSize hW hpre⟩
  | exchange i j =>
    obtain ⟨hpre, ha⟩ := Option.dite_none_right_eq_some.mp hs
    cases ha
    exact ⟨rfl, h.exchange hW hpre.1 hpre.2⟩

/-- The word and the slots take the same run. -/
theorem Reads.run (h : Reads x s) (hW : W ≤ 15) {ops : List Op} {as : List (Option ℕ)} {s' : Slots W}
    (hs : runSlots ops s = some (as, s')) : (runWord W ops x).1 = as ∧ Reads (runWord W ops x).2 s' := by
  induction ops generalizing x s as with
  | nil =>
    cases hs
    exact ⟨rfl, h⟩
  | cons o ops ih =>
    obtain ⟨r, hstep, hs⟩ := Option.bind_eq_some_iff.mp hs
    obtain ⟨rest, hrest, hs⟩ := Option.bind_eq_some_iff.mp hs
    cases hs
    obtain ⟨ha, h'⟩ := h.exec hW hstep
    obtain ⟨has, h''⟩ := ih h' hrest
    exact ⟨congrArg₂ List.cons ha has, h''⟩

/-- **The permuter is an order of slots**: in a run from a sorted permuter in which each operation is used as
its precondition says, the word gives the slots that are next to be used, and says which are in use. -/
theorem kpermuter_refines (W : Width) (hn : n ≤ W.slots) {ops : List Op} {as : List (Option ℕ)}
    {s' : Slots W.slots} (hs : runSlots ops (.sorted W.slots n hn) = some (as, s')) :
    (runWord W.slots ops (makeSorted W.slots n)).1 = as ∧
      Reads (runWord W.slots ops (makeSorted W.slots n)).2 s' :=
  (Reads.makeSorted hn W.le).run W.le hs

/-- The first of two keys goes to the back, its slot is used again, and the other key goes. -/
def threeOps : List Op := [.removeToBack 0, .insertFromBack 1, .remove 0]

theorem kpermuter_refines_threeOps : (runWord 15 threeOps (makeSorted 15 2)).1 = [none, some 0, none] ∧
    Kpermuter.size (runWord 15 threeOps (makeSorted 15 2)).2 = 1 :=
  have h := kpermuter_refines (n := 2) ⟨15, by decide, by decide⟩ (by decide)
    (show runSlots threeOps _ = some ([none, some 0, none], _) from rfl)
  ⟨h.1, h.2.size⟩

end SidleBaselines.Masstree
