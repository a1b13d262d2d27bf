import SidleBaselines.Masstree.Slots

/-!
# The entries of a leaf

What `find_insert`, `finish_insert` and `finish_remove` do to a leaf of a Masstree. A leaf has `W` slots
and a permuter; its entries are what the slots in use hold, in the order of the permuter. Slot 0 also
holds the bound of the leaf, the least `ikey` it may have, so that a leaf behind another does not use
that slot for another `ikey`.

What is *not* formalized: the search of a leaf (what it finds is an argument), the new layer that takes
the place of an entry whose first eight bytes are those of the new key, the removal of a leaf that has
no entry left, versions and locks, and the links between leaves. A run ends where a leaf gets a new
layer, is split or is removed.

## What is proved

* `Stands.step`, `Leaf.ikeyBound_step` — a new entry is written where no reader sees it, and the bound
  is kept;
* `leaf_refines` — the entries of a leaf are a list, after every step;
* `leaf_splits_iff` — a leaf is split only for a new key, and where it has no other slot.
-/

namespace SidleBaselines.Masstree

variable {κ ε : Type} {W i : ℕ}

/-! ### The leaf -/

/-- A leaf: its permuter, whether there are leaves before and after it, and what its slots hold, the `ikey`
and the rest of an entry. -/
structure Leaf (κ ε : Type) where
  permutation : BitVec 64
  prev : Bool
  next : Bool
  ikey0 : ℕ → κ
  rest : ℕ → ε

/-- What the search for a key has found: the key, or the slot of an entry that has its first eight bytes. -/
structure Found where
  state : Bool
  p : Option ℕ

/-- What `find_insert` does: nothing, where the key is there; a new layer in the place of the entry in slot `p`;
an assignment to a free slot; or a split. -/
inductive Outcome (κ ε : Type) where
  | present
  | newLayer (p : ℕ)
  | assigned (n : Leaf κ ε)
  | split

namespace Leaf

def size (n : Leaf κ ε) : ℕ := Kpermuter.size n.permutation

/-- The bound is in slot 0. -/
def ikeyBound (n : Leaf κ ε) : κ := n.ikey0 0

def assign (n : Leaf κ ε) (p : ℕ) (ikey : κ) (rest : ε) : Leaf κ ε :=
  { n with ikey0 := Function.update n.ikey0 p ikey, rest := Function.update n.rest p rest }

/-- The first part of `make_split`: where slot 0 is next but another slot is free, that one is used. The
leaf is split where this gives nothing. -/
def makeSplit (W : ℕ) (n : Leaf κ ε) (ikey : κ) (rest : ε) : Option (Leaf κ ε) :=
  if n.size < W then
    let perm := Kpermuter.exchange n.permutation n.size (W - 1)
    if Kpermuter.back W perm ≠ 0 then
      some (assign { n with permutation := perm } (Kpermuter.back W perm) ikey rest)
    else none
  else none

/-- The last part of `find_insert`, for a new key that needs no new layer. -/
def assignNext [DecidableEq κ] (W : ℕ) (n : Leaf κ ε) (ikey : κ) (rest : ε) : Option (Leaf κ ε) :=
  if n.size < W ∧
      (Kpermuter.back W n.permutation ≠ 0 ∨ n.prev = false ∨ n.ikeyBound = ikey) then
    some (n.assign (Kpermuter.back W n.permutation) ikey rest)
  else n.makeSplit W ikey rest

/-- `find_insert`, the search done. -/
def findInsert [DecidableEq κ] (W : ℕ) (n : Leaf κ ε) (found : Found) (ikey : κ) (rest : ε) : Outcome κ ε :=
  if found.state then .present
  else
    match found.p with
    | some p => .newLayer p
    | none =>
      match n.assignNext W ikey rest with
      | some m => .assigned m
      | none => .split

/-- The new entry is made visible, at position `i`. -/
def finishInsert (W : ℕ) (n : Leaf κ ε) (i : ℕ) : Leaf κ ε :=
  { n with permutation := (Kpermuter.insertFromBack W n.permutation i).2 }

/-- The entry at position `i` is taken out. Where none is left, `remove_leaf` removes the leaf, if it is behind
another. -/
def finishRemove (n : Leaf κ ε) (i : ℕ) : Option (Leaf κ ε) :=
  let m : Leaf κ ε := { n with permutation := Kpermuter.remove n.permutation i }
  if m.size = 0 ∧ m.prev = true then none else some m

/-- What a slot holds. -/
def entry (n : Leaf κ ε) (p : ℕ) : κ × ε := (n.ikey0 p, n.rest p)

/-- What a reader sees. -/
def entries (n : Leaf κ ε) : List (κ × ε) :=
  (List.range n.size).map fun i => n.entry (Kpermuter.get n.permutation i)

variable {n : Leaf κ ε} {s : Slots W} {ikey : κ} {rest : ε}

theorem entry_assign (n : Leaf κ ε) (p : ℕ) (ikey : κ) (rest : ε) :
    (n.assign p ikey rest).entry p = (ikey, rest) := by
  simp [entry, assign]

theorem entry_assign_of_ne {p q : ℕ} (h : q ≠ p) : (n.assign p ikey rest).entry q = n.entry q := by
  simp [entry, assign, h]

theorem length_entries (n : Leaf κ ε) : n.entries.length = n.size := by
  rw [entries, List.length_map, List.length_range]

theorem getElem?_entries (n : Leaf κ ε) (hi : i < n.size) :
    n.entries[i]? = some (n.entry (Kpermuter.get n.permutation i)) := by
  rw [entries, List.getElem?_map, List.getElem?_range hi, Option.map_some]

/-- A reader sees the slots in use. -/
theorem entries_eq (h : Reads n.permutation s) : n.entries = s.live.map n.entry := by
  refine List.ext_getElem ?_ fun i hi hi' => ?_
  · rw [length_entries, List.length_map, size, h.size]
  · rw [List.length_map] at hi'
    simp only [entries, List.getElem_map, List.getElem_range, h.getElem_live hi']

end Leaf

/-! ### The list of entries -/

/-- What a leaf is to its readers and its writer: the entries, in order, and the one that is to be put
among them. -/
structure Spec (κ ε : Type) where
  entries : List (κ × ε)
  pending : Option (κ × ε)

/-- A leaf stands for its entries, and for the entry in the slot that is next. -/
def Stands (W : ℕ) (n : Leaf κ ε) (a : Spec κ ε) : Prop :=
  ∃ s : Slots W, Reads n.permutation s ∧ s.live.map n.entry = a.entries ∧
    ∀ e ∈ a.pending, ∃ h : s.free ≠ [], n.entry (s.next h) = e

/-- The steps of a writer that has the lock of the leaf. -/
inductive Step (κ ε : Type) where
  | findInsert (found : Found) (ikey : κ) (rest : ε)
  | finishInsert (i : ℕ)
  | finishRemove (i : ℕ)

/-- A step of a leaf, where it gets no new layer, is not split and not removed. -/
def Step.onLeaf [DecidableEq κ] (W : ℕ) (n : Leaf κ ε) : Step κ ε → Option (Leaf κ ε)
  | .findInsert found ikey rest =>
    match n.findInsert W found ikey rest with
    | .present => some n
    | .assigned m => some m
    | .newLayer _ | .split => none
  | .finishInsert i => some (n.finishInsert W i)
  | .finishRemove i => n.finishRemove i

/-- The step of the list, at a position it has: an insertion of a new key is finished before the next step
begins. -/
def Step.onEntries : Spec κ ε → Step κ ε → Option (Spec κ ε)
  | ⟨l, none⟩, .findInsert found ikey rest => some ⟨l, if found.state then none else some (ikey, rest)⟩
  | ⟨l, some e⟩, .finishInsert i => if i ≤ l.length then some ⟨l.insertIdx i e, none⟩ else none
  | ⟨l, none⟩, .finishRemove i => if i < l.length then some ⟨l.eraseIdx i, none⟩ else none
  | _, _ => none

variable {n n' : Leaf κ ε} {s : Slots W} {ikey : κ} {rest : ε} {l : List (κ × ε)} {e : κ × ε}

/-- What a step of `find_insert` does that does not end the run. -/
theorem Leaf.onLeaf_findInsert [DecidableEq κ] {found : Found}
    (h : (Step.findInsert found ikey rest).onLeaf W n = some n') :
    found.state = true ∧ n' = n ∨ found.state = false ∧ found.p = none ∧ n.assignNext W ikey rest = some n' := by
  obtain ⟨state, p⟩ := found
  cases state with
  | true =>
    cases h
    exact .inl ⟨rfl, rfl⟩
  | false =>
    cases p with
    | some p => cases h
    | none =>
      cases hm : n.assignNext W ikey rest with
      | none => simp [Step.onLeaf, findInsert, hm] at h
      | some m =>
        simp only [Step.onLeaf, findInsert, hm, Bool.false_eq_true, if_false, Option.some.injEq] at h
        exact .inr ⟨rfl, rfl, congrArg some h⟩

theorem Reads.size_lt_iff (h : Reads n.permutation s) : n.size < W ↔ s.free ≠ [] := by
  have hlen := s.length_add
  rw [Leaf.size, h.size, ← List.length_pos_iff]
  omega

namespace Stands

theorem entries {o : Option (κ × ε)} (h : Stands W n ⟨l, o⟩) : n.entries = l := by
  obtain ⟨s, hs, hl, -⟩ := h
  rw [Leaf.entries_eq hs, hl]

theorem size {o : Option (κ × ε)} (h : Stands W n ⟨l, o⟩) : n.size = l.length := by
  rw [← h.entries, Leaf.length_entries]

/-- An entry is written to the slot that is next, where no reader sees it. -/
theorem assign (h : Reads n.permutation s) (hfree : s.free ≠ []) :
    Stands W (n.assign (s.next hfree) ikey rest) ⟨s.live.map n.entry, some (ikey, rest)⟩ := by
  refine ⟨s, h, ?_, ?_⟩
  · exact List.map_congr_left fun _ hp => Leaf.entry_assign_of_ne fun hq => Slots.next_notMem hfree (hq ▸ hp)
  · rintro e ⟨⟩
    exact ⟨hfree, Leaf.entry_assign n _ ikey rest⟩

theorem makeSplit (hW : W ≤ 15) (h : Reads n.permutation s) (hn : n.makeSplit W ikey rest = some n') :
    Stands W n' ⟨s.live.map n.entry, some (ikey, rest)⟩ := by
  obtain ⟨hsize, hn⟩ := Option.ite_none_right_eq_some.mp hn
  obtain ⟨-, hn⟩ := Option.ite_none_right_eq_some.mp hn
  cases hn
  have hlen := s.length_order
  have hlive : s.live.length = n.size := h.size.symm
  have hi : n.size < s.order.length := by omega
  have hj : W - 1 < s.order.length := by omega
  have hex := h.exchange hW hi hj
  have hsame := s.live_exchange hi hj (by omega) (by omega)
  have hfree : (s.exchange n.size (W - 1) hi hj).free ≠ [] := by
    have hadd := (s.exchange n.size (W - 1) hi hj).length_add
    rw [hsame] at hadd
    exact List.length_pos_iff.mp (by omega)
  have hstands : Stands W (Leaf.assign { n with permutation := _ } (Slots.next _ hfree) ikey rest) _ :=
    assign hex hfree
  rwa [← hex.back hfree, hsame] at hstands

theorem assignNext [DecidableEq κ] (hW : W ≤ 15) (h : Stands W n ⟨l, none⟩)
    (hn : n.assignNext W ikey rest = some n') : Stands W n' ⟨l, some (ikey, rest)⟩ := by
  obtain ⟨s, hs, rfl, -⟩ := h
  rw [Leaf.assignNext] at hn
  split_ifs at hn with hnext
  · cases hn
    have hfree := hs.size_lt_iff.mp hnext.1
    rw [hs.back hfree]
    exact assign hs hfree
  · exact makeSplit hW hs hn

/-- The entry is put among the others. -/
theorem finishInsert (hW : W ≤ 15) (h : Stands W n ⟨l, some e⟩) (hi : i ≤ l.length) :
    Stands W (n.finishInsert W i) ⟨l.insertIdx i e, none⟩ := by
  obtain ⟨s, hs, rfl, hpending⟩ := h
  obtain ⟨hfree, rfl⟩ := hpending e rfl
  rw [List.length_map] at hi
  have hlen := s.length_add
  have hpos := List.length_pos_iff.mpr hfree
  have hiW : i < W := by omega
  refine ⟨s.insert i hfree hiW, hs.insertFromBack hW hfree hiW, ?_, by simp⟩
  rw [Slots.live_insert hfree hiW hi, List.map_insertIdx]
  rfl

theorem finishRemove (hW : W ≤ 15) (h : Stands W n ⟨l, none⟩) (hi : i < l.length)
    (hn : n.finishRemove i = some n') : Stands W n' ⟨l.eraseIdx i, none⟩ := by
  obtain ⟨-, hn⟩ := Option.ite_none_left_eq_some.mp hn
  cases hn
  obtain ⟨s, hs, rfl, -⟩ := h
  rw [List.length_map] at hi
  refine ⟨s.remove i hi, hs.remove hW hi, ?_, by simp⟩
  exact (List.eraseIdx_map n.entry s.live i).symm

/-- The leaf and the list take the same step. -/
theorem step [DecidableEq κ] (hW : W ≤ 15) {a a' : Spec κ ε} {o : Step κ ε} (h : Stands W n a)
    (hn : o.onLeaf W n = some n') (ha : o.onEntries a = some a') : Stands W n' a' := by
  obtain ⟨l, pending⟩ := a
  cases o with
  | findInsert found ikey rest =>
    cases pending with
    | some e => cases ha
    | none =>
      cases ha
      rcases Leaf.onLeaf_findInsert hn with ⟨hstate, rfl⟩ | ⟨hstate, -, hn⟩
      · rwa [if_pos hstate]
      · rw [if_neg (Bool.eq_false_iff.mp hstate)]
        exact h.assignNext hW hn
  | finishInsert i =>
    cases hn
    cases pending with
    | none => cases ha
    | some e =>
      obtain ⟨hi, ha⟩ := Option.ite_none_right_eq_some.mp ha
      cases ha
      exact h.finishInsert hW hi
  | finishRemove i =>
    cases pending with
    | none =>
      obtain ⟨hi, ha⟩ := Option.ite_none_right_eq_some.mp ha
      cases ha
      exact h.finishRemove hW hi hn
    | some e => cases ha

end Stands

/-! ### The bound -/

namespace Leaf

theorem ikeyBound_assign {p : ℕ} (h : p ≠ 0 ∨ n.ikeyBound = ikey) :
    (n.assign p ikey rest).ikeyBound = n.ikeyBound := by
  by_cases hp : p = 0
  · subst hp
    rw [h.resolve_left (fun hp => hp rfl)]
    exact Function.update_self 0 ikey n.ikey0
  · exact Function.update_of_ne (Ne.symm hp) ikey n.ikey0

theorem ikeyBound_makeSplit (h : n.makeSplit W ikey rest = some n') :
    n'.prev = n.prev ∧ n'.ikeyBound = n.ikeyBound := by
  obtain ⟨-, h⟩ := Option.ite_none_right_eq_some.mp h
  obtain ⟨hp, h⟩ := Option.ite_none_right_eq_some.mp h
  cases h
  exact ⟨rfl, ikeyBound_assign (.inl hp)⟩

theorem ikeyBound_assignNext [DecidableEq κ] (h : n.assignNext W ikey rest = some n') :
    n'.prev = n.prev ∧ (n.prev = true → n'.ikeyBound = n.ikeyBound) := by
  rw [assignNext] at h
  split_ifs at h with hnext
  · cases h
    refine ⟨rfl, fun hprev => ikeyBound_assign ?_⟩
    rcases hnext.2 with hp | hprev' | hbound
    · exact .inl hp
    · rw [hprev] at hprev'
      cases hprev'
    · exact .inr hbound
  · have := ikeyBound_makeSplit h
    exact ⟨this.1, fun _ => this.2⟩

/-- A step of a leaf behind another keeps the bound. -/
theorem ikeyBound_step [DecidableEq κ] {o : Step κ ε} (h : o.onLeaf W n = some n') :
    n'.prev = n.prev ∧ (n.prev = true → n'.ikeyBound = n.ikeyBound) := by
  cases o with
  | findInsert found ikey rest =>
    rcases onLeaf_findInsert h with ⟨-, rfl⟩ | ⟨-, -, h⟩
    · exact ⟨rfl, fun _ => rfl⟩
    · exact ikeyBound_assignNext h
  | finishInsert i =>
    cases h
    exact ⟨rfl, fun _ => rfl⟩
  | finishRemove i =>
    obtain ⟨-, h⟩ := Option.ite_none_left_eq_some.mp h
    cases h
    exact ⟨rfl, fun _ => rfl⟩

end Leaf

/-! ### Runs -/

theorem Stands.run [DecidableEq κ] (hW : W ≤ 15) {a a' : Spec κ ε} {steps : List (Step κ ε)}
    (h : Stands W n a) (hn : steps.foldlM (Step.onLeaf W) n = some n')
    (ha : steps.foldlM Step.onEntries a = some a') :
    Stands W n' a' ∧ (n.prev = true → n'.ikeyBound = n.ikeyBound) := by
  induction steps generalizing n a with
  | nil =>
    cases hn
    cases ha
    exact ⟨h, fun _ => rfl⟩
  | cons o steps ih =>
    obtain ⟨m, hstep, hn⟩ := Option.bind_eq_some_iff.mp hn
    obtain ⟨b, hspec, ha⟩ := Option.bind_eq_some_iff.mp ha
    obtain ⟨hprev, hbound⟩ := Leaf.ikeyBound_step hstep
    obtain ⟨h', hkeep⟩ := ih (h.step hW hstep hspec) hn ha
    exact ⟨h', fun hp => (hkeep (hprev.trans hp)).trans (hbound hp)⟩

theorem Stands.of_reads (h : Reads n.permutation s) : Stands W n ⟨n.entries, none⟩ :=
  ⟨s, h, (Leaf.entries_eq h).symm, by simp⟩

/-- **A leaf is a list of entries**: from any order of the slots, after every step of a writer, a reader of a
leaf that gets no new layer, is not split and not removed sees the entries of the list, and a leaf behind
another keeps its bound. -/
theorem leaf_refines [DecidableEq κ] (W : Width) {s : Slots W.slots} (h : Reads n.permutation s)
    {steps : List (Step κ ε)} {a : Spec κ ε} (hn : steps.foldlM (Step.onLeaf W.slots) n = some n')
    (ha : steps.foldlM Step.onEntries ⟨n.entries, none⟩ = some a) :
    n'.entries = a.entries ∧ (n.prev = true → n'.ikeyBound = n.ikeyBound) := by
  obtain ⟨h', hbound⟩ := (Stands.of_reads h).run W.le hn ha
  exact ⟨h'.entries, hbound⟩

/-- A leaf behind another, with one entry in slot 0. -/
def oneEntry : Leaf ℕ Char where
  permutation := Kpermuter.makeSorted 15 1
  prev := true
  next := false
  ikey0 _ := 5
  rest _ := 'a'

/-- The width of the leaves of the benchmarks. -/
def fifteen : Width := ⟨15, by decide, by decide⟩

/-- An entry is put behind the first, the first is taken out, another is put before the one that is left, and
then found. -/
def sixSteps : List (Step ℕ Char) :=
  [.findInsert ⟨false, none⟩ 9 'b', .finishInsert 1, .finishRemove 0, .findInsert ⟨false, none⟩ 7 'c',
    .finishInsert 0, .findInsert ⟨true, none⟩ 7 'd']

theorem leaf_refines_sixSteps :
    ∃ n, sixSteps.foldlM (Step.onLeaf 15) oneEntry = some n ∧
      n.entries = [(7, 'c'), (9, 'b')] ∧ n.ikeyBound = 5 :=
  have hreads : Reads oneEntry.permutation (.sorted 15 1 (by decide)) := .makeSorted (by decide) (by decide)
  have h := leaf_refines (a := ⟨[(7, 'c'), (9, 'b')], none⟩) fifteen hreads
    (show sixSteps.foldlM _ _ = some _ from rfl) rfl
  ⟨_, rfl, h.1, h.2 rfl⟩

/-! ### Where leaves are split -/

namespace Leaf

/-- Where slot 0 is next, `make_split` finds another slot if there is one. -/
theorem makeSplit_eq_none_iff (h : Reads n.permutation s) (hW : W ≤ 15) (hsize : n.size < W)
    (hback : Kpermuter.back W n.permutation = 0) : n.makeSplit W ikey rest = none ↔ n.size + 1 = W := by
  have hnone : n.makeSplit W ikey rest = none ↔
      Kpermuter.get (Kpermuter.exchange n.permutation n.size (W - 1)) (W - 1) = 0 := by
    rw [makeSplit, if_pos hsize]
    dsimp only
    split_ifs with hother
    · exact iff_of_false nofun hother
    · exact iff_of_true rfl (not_not.mp hother)
  rw [hnone, Kpermuter.get_exchange _ (by omega)]
  constructor
  · intro hzero
    by_contra hne
    rw [if_neg (by omega), if_pos rfl] at hzero
    have := h.get_inj hsize (show W - 1 < W by omega) (hzero.trans hback.symm)
    omega
  · intro hlast
    rw [if_pos (by omega)]
    exact hback

theorem assignNext_eq_none_iff [DecidableEq κ] (h : Reads n.permutation s) (hW : W ≤ 15) :
    n.assignNext W ikey rest = none ↔ n.size = W ∨
      n.size + 1 = W ∧ Kpermuter.back W n.permutation = 0 ∧ n.prev = true ∧ n.ikeyBound ≠ ikey := by
  have hlen := s.length_add
  have hle : n.size ≤ W := by
    rw [size, h.size]
    omega
  rw [assignNext]
  by_cases hsize : n.size < W
  · by_cases hnext : Kpermuter.back W n.permutation ≠ 0 ∨ n.prev = false ∨ n.ikeyBound = ikey
    · have hother : ¬ (Kpermuter.back W n.permutation = 0 ∧ n.prev = true ∧ n.ikeyBound ≠ ikey) := by
        rintro ⟨hback, hprev, hbound⟩
        simp [hback, hprev, hbound] at hnext
      rw [if_pos ⟨hsize, hnext⟩]
      simp only [reduceCtorEq, hother, and_false, or_false, false_iff]
      omega
    · have hzero : Kpermuter.back W n.permutation = 0 ∧ n.prev = true ∧ n.ikeyBound ≠ ikey := by
        simpa using hnext
      rw [if_neg (fun hc => hnext hc.2), makeSplit_eq_none_iff h hW hsize hzero.1]
      simp only [hzero, and_true, ne_eq, not_false_eq_true]
      omega
  · rw [if_neg (fun hc => hsize hc.1), makeSplit, if_neg hsize]
    simp only [true_iff]
    exact .inl (by omega)

theorem findInsert_eq_split_iff [DecidableEq κ] {found : Found} : n.findInsert W found ikey rest = .split ↔
    found.state = false ∧ found.p = none ∧ n.assignNext W ikey rest = none := by
  obtain ⟨state, p⟩ := found
  rw [findInsert]
  cases state <;> cases p <;> cases n.assignNext W ikey rest <;> simp

end Leaf

/-- **A leaf is split only where it has no other slot**: after every step of a writer, an insertion splits the
leaf just if its key is new and needs no new layer, and the leaf is full, or only slot 0 is free and the leaf is
behind another and has another bound. -/
theorem leaf_splits_iff [DecidableEq κ] (W : Width) {s : Slots W.slots} (h : Reads n.permutation s)
    {steps : List (Step κ ε)} {a : Spec κ ε} (hn : steps.foldlM (Step.onLeaf W.slots) n = some n')
    (ha : steps.foldlM Step.onEntries ⟨n.entries, none⟩ = some a) (found : Found) (ikey : κ) (rest : ε) :
    n'.findInsert W.slots found ikey rest = .split ↔ found.state = false ∧ found.p = none ∧
      (n'.size = W.slots ∨ n'.size + 1 = W.slots ∧ Kpermuter.back W.slots n'.permutation = 0 ∧
        n'.prev = true ∧ n'.ikeyBound ≠ ikey) := by
  obtain ⟨⟨s, hs, -⟩, -⟩ := (Stands.of_reads h).run W.le hn ha
  rw [Leaf.findInsert_eq_split_iff, Leaf.assignNext_eq_none_iff hs W.le]

/-- A full leaf behind another. -/
def fullLeaf : Leaf ℕ Char where
  permutation := Kpermuter.makeSorted 15 15
  prev := true
  next := false
  ikey0 p := p
  rest _ := 'a'

/-- The entry in slot 0 taken out, no other slot is free, and an entry with another `ikey` splits the leaf. -/
theorem leaf_splits_iff_fullLeaf : ∃ n, [Step.finishRemove 0].foldlM (Step.onLeaf 15) fullLeaf = some n ∧
    n.findInsert 15 ⟨false, none⟩ 9 'b' = .split :=
  have hreads : Reads fullLeaf.permutation (.sorted 15 15 (by decide)) := .makeSorted (by decide) (by decide)
  ⟨_, rfl, (leaf_splits_iff fifteen hreads (show [Step.finishRemove 0].foldlM _ _ = some _ from rfl) rfl
    ⟨false, none⟩ 9 'b').mpr ⟨rfl, rfl, .inr ⟨by decide, by decide, rfl, by decide⟩⟩⟩

end SidleBaselines.Masstree
