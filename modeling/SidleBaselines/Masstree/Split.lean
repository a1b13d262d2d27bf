import SidleBaselines.Masstree.Leaf

/-!
# Splits of leaves

A leaf that has no slot for a new entry is split: the entries from a position `mid` on, among them the new
one if its place is there, go to a leaf behind it. `mid` is in the middle, or at an end where the keys
come in order, and then moved so that no two entries with the same `ikey` are parted.

What is *not* formalized: the links of the two leaves, their versions and locks, the internodes above
them, and how the suffixes of keys are stored.

## What is proved

* `Leaf.chooseMid_spec`, `Leaf.chooseMid_isSome` — `mid` parts different `ikey`s, and is found where there
  are any;
* `entries_split` — the two leaves, whichever side the new entry goes to;
* `leaf_split_exact` — they have the entries of the one, and the new entry in its place.
-/

namespace SidleBaselines.Masstree

variable {κ ε : Type} {W i p mid : ℕ}

/-! ### The split -/

/-- The word from the slot at position `i` on. -/
def Kpermuter.valueFrom (x : BitVec 64) (i : ℕ) : BitVec 64 := x >>> ((i + 1) <<< 2)

namespace Leaf

/-- The `ikey` at position `i`, a key inserted at position `p`. -/
def ikeyAfterInsert (n : Leaf κ ε) (p : ℕ) (ikey : κ) (i : ℕ) : κ :=
  if i < p then n.ikey0 (Kpermuter.get n.permutation i)
  else if i = p then ikey
  else n.ikey0 (Kpermuter.get n.permutation (i - 1))

/-- The loop of `split_into` that looks for another `ikey`, on both sides of `mid`. -/
def midLoop [DecidableEq κ] (width : ℕ) (f : ℕ → κ) (midIkey : κ) : ℕ → ℤ → ℕ → Option ℕ
  | 0, _, _ => none
  | turns + 1, midl, midr =>
    if midr ≤ width ∧ midIkey ≠ f midr then some midr
    else if 0 ≤ midl ∧ midIkey ≠ f midl.toNat then some (midl.toNat + 1)
    else midLoop width f midIkey turns (midl - 1) (midr + 1)

/-- The position from which on the entries go to the new leaf. -/
def chooseMid [DecidableEq κ] (W : ℕ) (n : Leaf κ ε) (p : ℕ) (ikey : κ) : Option ℕ :=
  let width := n.size
  let mid := if p = 0 ∧ n.prev = false then 1 else if p = width ∧ n.next = false then width else W / 2 + 1
  let midIkey := n.ikeyAfterInsert p ikey mid
  if midIkey = n.ikeyAfterInsert p ikey (mid - 1) then
    -- after `W + 1` turns both sides are outside of the leaf, and the loop does not end
    midLoop width (n.ikeyAfterInsert p ikey) midIkey (W + 1) (mid - 2) (mid + 1)
  else some mid

/-- One turn of the loop that moves entries to the new leaf: the leaf, and the slots that are still to be
moved. -/
def moveStep (n : Leaf κ ε) (p mid : ℕ) (ikey : κ) (rest : ε) (r : Leaf κ ε × BitVec 64) (x : ℕ) :
    Leaf κ ε × BitVec 64 :=
  if x = p then (r.1.assign (x - mid) ikey rest, r.2)
  else
    let slot := (r.2 &&& 15#64).toNat
    (r.1.assign (x - mid) (n.ikey0 slot) (n.rest slot), r.2 >>> 4)

/-- `split_into`: the new leaf `nr`. -/
def splitInto (W : ℕ) (n nr : Leaf κ ε) (p mid : ℕ) (ikey : κ) (rest : ε) : Leaf κ ε :=
  let width := n.size
  let r := (List.range' mid (width + 1 - mid)).foldl (n.moveStep p mid ikey rest)
    (nr, Kpermuter.valueFrom n.permutation (mid - if p < mid then 1 else 0))
  let permr := Kpermuter.makeSorted W (width + 1 - mid)
  { r.1 with permutation := if mid ≤ p then Kpermuter.removeToBack W permr (p - mid) else permr }

/-- The old leaf without what has gone to the new one. -/
def shrink (W : ℕ) (n nr : Leaf κ ε) : Leaf κ ε :=
  let perml := Kpermuter.setSize n.permutation (n.size - nr.size)
  { n with permutation :=
      if n.size ≠ W then Kpermuter.exchange perml (Kpermuter.size perml) (W - 1) else perml }

/-- What `make_split` does to a leaf that has no slot for the new entry, and to a new leaf, and then
`finish_insert` to the one of them that gets the entry. -/
def split [DecidableEq κ] (W : ℕ) (n nr : Leaf κ ε) (p : ℕ) (ikey : κ) (rest : ε) :
    Option (Leaf κ ε × Leaf κ ε) := do
  let mid ← n.chooseMid W p ikey
  let nr := n.splitInto W nr p mid ikey rest
  let nl := n.shrink W nr
  if p < mid then
    return ((nl.assign (Kpermuter.back W nl.permutation) ikey rest).finishInsert W p, nr)
  else
    return (nl, nr.finishInsert W (p - nl.size))

/-! ### The position -/

variable {n nr : Leaf κ ε} {s : Slots W} {ikey : κ} {rest : ε}

section

variable [DecidableEq κ] {width midr turns : ℕ} {f : ℕ → κ} {midIkey : κ} {midl : ℤ}

/-- Between the two sides every `ikey` is the one in the middle, so that the first other one is next to it. -/
theorem midLoop_spec (hsame : ∀ i : ℕ, midl < i → i < midr → i ≤ width → f i = midIkey)
    (hl : midl + 1 ≤ width) (hr : 0 < midr) (hlr : midl + 1 < midr)
    (h : midLoop width f midIkey turns midl midr = some mid) :
    0 < mid ∧ mid ≤ width ∧ f (mid - 1) ≠ f mid := by
  induction turns generalizing midl midr with
  | zero => cases h
  | succ turns ih =>
    rw [midLoop] at h
    split_ifs at h with hright hleft
    · cases h
      refine ⟨by omega, hright.1, fun heq => hright.2 ?_⟩
      rw [← heq, hsame (mid - 1) (by omega) (by omega) (by omega)]
    · cases h
      refine ⟨by omega, by omega, fun heq => hleft.2 ?_⟩
      rw [Nat.add_sub_cancel] at heq
      rw [heq, hsame (midl.toNat + 1) (by omega) (by omega) (by omega)]
    · refine ih (fun i hi hi' hw => ?_) (by omega) (by omega) (by omega) h
      by_cases hright' : i = midr
      · subst hright'
        by_contra hne
        exact hright ⟨hw, Ne.symm hne⟩
      by_cases hleft' : (i : ℤ) = midl
      · by_contra hne
        refine hleft ⟨by omega, ?_⟩
        rw [← hleft', Int.toNat_natCast]
        exact Ne.symm hne
      · exact hsame i (by omega) (by omega) hw

/-- Where an `ikey` is another one, one is found. -/
theorem midLoop_isSome {i : ℕ} (hi : i ≤ width) (hne : f i ≠ midIkey)
    (h : midr ≤ i ∧ i < midr + turns ∨ i ≤ midl ∧ midl < i + turns) :
    (midLoop width f midIkey turns midl midr).isSome := by
  induction turns generalizing midl midr with
  | zero => omega
  | succ turns ih =>
    rw [midLoop]
    split_ifs with hright hleft
    · rfl
    · rfl
    · refine ih ?_
      have hr : i ≠ midr := by
        rintro rfl
        exact hright ⟨hi, Ne.symm hne⟩
      have hl : (i : ℤ) ≠ midl := by
        rintro rfl
        exact hleft ⟨by omega, by rw [Int.toNat_natCast]; exact Ne.symm hne⟩
      omega

/-- The two sides of the split have different `ikey`s. -/
theorem chooseMid_spec (hW : 4 ≤ W) (hfull : W ≤ n.size + 1)
    (h : n.chooseMid W p ikey = some mid) :
    0 < mid ∧ mid ≤ n.size ∧ n.ikeyAfterInsert p ikey (mid - 1) ≠ n.ikeyAfterInsert p ikey mid := by
  rw [chooseMid] at h
  generalize hm : (if p = 0 ∧ n.prev = false then 1
    else if p = n.size ∧ n.next = false then n.size else W / 2 + 1) = m at h
  have hmid : 0 < m ∧ m ≤ n.size := by
    split_ifs at hm <;> omega
  split_ifs at h with heq
  · refine midLoop_spec (fun i hi hi' _ => ?_) (by omega) (by omega) (by omega) h
    obtain rfl | rfl : i = m ∨ i = m - 1 := by omega
    · rfl
    · exact heq.symm
  · cases h
    exact ⟨hmid.1, hmid.2, Ne.symm heq⟩

/-- There is such a place, if not all `ikey`s are the same. -/
theorem chooseMid_isSome (hW : 4 ≤ W) (hfull : W ≤ n.size + 1) (hle : n.size ≤ W) {j : ℕ}
    (hi : i ≤ n.size) (hj : j ≤ n.size) (hne : n.ikeyAfterInsert p ikey i ≠ n.ikeyAfterInsert p ikey j) :
    (n.chooseMid W p ikey).isSome := by
  rw [chooseMid]
  generalize hm : (if p = 0 ∧ n.prev = false then 1
    else if p = n.size ∧ n.next = false then n.size else W / 2 + 1) = m
  have hmid : 0 < m ∧ m ≤ n.size := by
    split_ifs at hm <;> omega
  split_ifs with heq
  · obtain ⟨k, hk, hkne⟩ : ∃ k ≤ n.size, n.ikeyAfterInsert p ikey k ≠ n.ikeyAfterInsert p ikey m := by
      by_cases him : n.ikeyAfterInsert p ikey i = n.ikeyAfterInsert p ikey m
      · exact ⟨j, hj, fun hjm => hne (him.trans hjm.symm)⟩
      · exact ⟨i, hi, him⟩
    refine midLoop_isSome hk hkne ?_
    have hkm : k ≠ m := fun h => hkne (h ▸ rfl)
    have hkm' : k ≠ m - 1 := by
      rintro rfl
      exact hkne heq.symm
    omega
  · rfl

end

/-! ### The new leaf -/

/-- The entry at position `i`, a new one inserted at position `p`. -/
def afterInsert (n : Leaf κ ε) (p : ℕ) (ikey : κ) (rest : ε) (i : ℕ) : κ × ε :=
  if i < p then n.entry (Kpermuter.get n.permutation i)
  else if i = p then (ikey, rest)
  else n.entry (Kpermuter.get n.permutation (i - 1))

theorem fst_afterInsert (n : Leaf κ ε) (p : ℕ) (ikey : κ) (rest : ε) (i : ℕ) :
    (n.afterInsert p ikey rest i).1 = n.ikeyAfterInsert p ikey i := by
  rw [afterInsert, ikeyAfterInsert]
  split_ifs <;> rfl

theorem insertIdx_entries (hp : p ≤ n.size) :
    n.entries.insertIdx p (ikey, rest) = (List.range (n.size + 1)).map (n.afterInsert p ikey rest) := by
  have hlen := n.length_entries
  refine List.ext_getElem? fun i => ?_
  rw [List.getElem?_insertIdx, List.getElem?_map]
  by_cases hi : i < n.size + 1
  · rw [List.getElem?_range hi, Option.map_some, afterInsert]
    split_ifs with hbefore hat hle
    · exact n.getElem?_entries (by omega)
    · rfl
    · omega
    · exact n.getElem?_entries (by omega)
  · have hnone : (List.range (n.size + 1))[i]? = none :=
      List.getElem?_eq_none (by rw [List.length_range]; omega)
    rw [hnone, Option.map_none, if_neg (by omega), if_neg (by omega), List.getElem?_eq_none (by omega)]

/-- The slots of the word from position `i` on. -/
theorem get_valueFrom (x : BitVec 64) (i : ℕ) :
    (Kpermuter.valueFrom x i &&& 15#64).toNat = Kpermuter.get x i := by
  rw [Kpermuter.valueFrom, Kpermuter.get, Kpermuter.shl_two, Kpermuter.shl_two, Nat.mul_succ]

theorem valueFrom_succ (x : BitVec 64) (i : ℕ) :
    Kpermuter.valueFrom x i >>> 4 = Kpermuter.valueFrom x (i + 1) := by
  rw [Kpermuter.valueFrom, Kpermuter.valueFrom, ← BitVec.shiftRight_add, Kpermuter.shl_two,
    Kpermuter.shl_two, ← Nat.mul_succ]

/-- The turns of the loop that moves entries: those moved are in place, and the next to be moved comes first. -/
theorem moveStep_fold (hmid : 0 < mid) (k : ℕ) :
    let r := (List.range' mid k).foldl (n.moveStep p mid ikey rest)
      (nr, Kpermuter.valueFrom n.permutation (mid - if p < mid then 1 else 0))
    (∀ i < k, r.1.entry i = n.afterInsert p ikey rest (mid + i)) ∧
      r.2 = Kpermuter.valueFrom n.permutation (mid + k - if p < mid + k then 1 else 0) := by
  induction k with
  | zero => exact ⟨fun i hi => absurd hi (Nat.not_lt_zero i), rfl⟩
  | succ k ih =>
    obtain ⟨hentry, hslots⟩ := ih
    rw [List.range'_1_concat, List.foldl_append]
    dsimp only [List.foldl_cons, List.foldl_nil]
    generalize (List.range' mid k).foldl (n.moveStep p mid ikey rest)
      (nr, Kpermuter.valueFrom n.permutation (mid - if p < mid then 1 else 0)) = r at hentry hslots ⊢
    have hplace {e : κ × ε} {r' : Leaf κ ε} (hr : r' = r.1.assign k e.1 e.2)
        (he : n.afterInsert p ikey rest (mid + k) = e) :
        ∀ i < k + 1, r'.entry i = n.afterInsert p ikey rest (mid + i) := by
      subst hr
      intro i hi
      by_cases hik : i = k
      · rw [hik, entry_assign, he]
      · rw [entry_assign_of_ne hik, hentry i (by omega)]
    rw [moveStep, Nat.add_sub_cancel_left]
    by_cases hat : mid + k = p
    · rw [if_pos hat]
      refine ⟨hplace (e := (ikey, rest)) rfl ?_, ?_⟩
      · rw [afterInsert, if_neg (by omega), if_pos hat]
      · rw [hslots, if_neg (by omega), if_pos (by omega)]
        rfl
    · rw [if_neg hat, hslots, get_valueFrom]
      dsimp only
      by_cases hbefore : mid + k < p
      · rw [if_neg (by omega), if_neg (by omega), valueFrom_succ]
        refine ⟨hplace (e := n.entry _) rfl ?_, rfl⟩
        rw [afterInsert, if_pos hbefore, Nat.sub_zero]
      · rw [if_pos (by omega), if_pos (by omega), valueFrom_succ]
        refine ⟨hplace (e := n.entry _) rfl ?_, by congr 1; omega⟩
        rw [afterInsert, if_neg hbefore, if_neg hat]

theorem entry_splitInto (W : ℕ) (nr : Leaf κ ε) (ikey : κ) (rest : ε) (hmid : 0 < mid)
    (hi : i < n.size + 1 - mid) :
    (n.splitInto W nr p mid ikey rest).entry i = n.afterInsert p ikey rest (mid + i) :=
  (moveStep_fold hmid (n.size + 1 - mid)).1 i hi

end Leaf

open Leaf

variable {n : Leaf κ ε} {s : Slots W} (nr : Leaf κ ε) (ikey : κ) (rest : ε)

/-- The positions from `mid` on. -/
theorem map_entry_splitInto (W : ℕ) (hmid : 0 < mid) (hp : p ≤ n.size) :
    (List.range (n.size + 1 - mid)).map (n.splitInto W nr p mid ikey rest).entry
      = (n.entries.insertIdx p (ikey, rest)).drop mid := by
  rw [insertIdx_entries hp]
  refine List.ext_getElem (by simp) fun i hi _ => ?_
  rw [List.length_map, List.length_range] at hi
  simp [entry_splitInto W nr ikey rest hmid hi]

/-- The new entry stays: the new leaf has all that goes to it. -/
theorem stands_splitInto_left (hW : W ≤ 15) (hle : n.size ≤ W) (hmid : 0 < mid) (hp : p < mid)
    (hpn : p ≤ n.size) : Stands W (n.splitInto W nr p mid ikey rest)
      ⟨(n.entries.insertIdx p (ikey, rest)).drop mid, none⟩ := by
  refine ⟨.sorted W (n.size + 1 - mid) (by omega), ?_, map_entry_splitInto nr ikey rest W hmid hpn, by simp⟩
  rw [splitInto]
  dsimp only
  rw [if_neg (by omega)]
  exact .makeSorted (by omega) hW

/-- The new entry goes: its slot is the next of the new leaf, which has the other entries that go to it. -/
theorem stands_splitInto_right (hW : W ≤ 15) (hle : n.size ≤ W) (hmid : 0 < mid) (hp : mid ≤ p)
    (hpn : p ≤ n.size) : Stands W (n.splitInto W nr p mid ikey rest)
      ⟨((n.entries.insertIdx p (ikey, rest)).drop mid).eraseIdx (p - mid), some (ikey, rest)⟩ := by
  have hk : n.size + 1 - mid ≤ W := by omega
  have hlive : p - mid < (Slots.sorted W (n.size + 1 - mid) hk).live.length := by
    rw [Slots.sorted, List.length_range]
    omega
  refine ⟨(Slots.sorted W (n.size + 1 - mid) hk).removeToBack (p - mid) hlive, ?_, ?_, ?_⟩
  · rw [splitInto]
    dsimp only
    rw [if_pos hp]
    exact (Reads.makeSorted hk hW).removeToBack hW hlive
  · rw [← map_entry_splitInto nr ikey rest W hmid hpn]
    exact (List.eraseIdx_map _ _ _).symm
  · rintro e ⟨⟩
    refine ⟨Slots.free_removeToBack hlive, ?_⟩
    rw [Slots.next_removeToBack hlive]
    simp only [Slots.sorted, List.getElem_range]
    rw [entry_splitInto W nr ikey rest hmid (by omega), afterInsert, if_neg (by omega), if_pos (by omega)]

/-- What is left of the old leaf. -/
theorem reads_shrink (hW : W ≤ 15) (h : Reads n.permutation s) :
    ∃ s' : Slots W, Reads (n.shrink W nr).permutation s' ∧ s'.live = s.live.take (n.size - nr.size) := by
  have hlen := s.length_add
  have hlive : s.live.length = n.size := h.size.symm
  have hset := h.setSize hW (show n.size - nr.size ≤ W by omega)
  have htake : (s.setSize (n.size - nr.size)).live = s.live.take (n.size - nr.size) := by
    show List.take _ (s.live ++ s.free) = _
    rw [List.take_append_of_le_length (by omega)]
  rw [shrink]
  dsimp only
  split_ifs with hsize
  · have horder := (s.setSize (n.size - nr.size)).length_order
    have hcount := hset.size
    rw [htake, List.length_take, Nat.min_eq_left (by omega)] at hcount
    have hlen' : (s.setSize (n.size - nr.size)).live.length = n.size - nr.size := by
      rw [htake, List.length_take]
      omega
    rw [hcount]
    refine ⟨_, hset.exchange hW (show n.size - nr.size < _ by omega) (show W - 1 < _ by omega), ?_⟩
    rw [Slots.live_exchange _ _ (by omega) (by omega), htake]
  · exact ⟨_, hset, htake⟩

/-! ### Both leaves -/

/-- Of the old leaf's entries, those before `mid` without the new one. -/
theorem stands_shrink (hW : W ≤ 15) (h : Reads n.permutation s) {m : ℕ} (hm : n.size - nr.size = m) :
    Stands W (n.shrink W nr) ⟨n.entries.take m, none⟩ := by
  obtain ⟨s', hs', hlive⟩ := reads_shrink nr hW h
  refine ⟨s', hs', ?_, by simp⟩
  rw [hlive, hm, List.map_take, entries_eq h]
  rfl

/-- The new entry is put into the old leaf. -/
theorem Stands.insert (hW : W ≤ 15) {l : List (κ × ε)} (h : Stands W n ⟨l, none⟩) (hn : n.size < W)
    (hp : p ≤ l.length) :
    Stands W ((n.assign (Kpermuter.back W n.permutation) ikey rest).finishInsert W p)
      ⟨l.insertIdx p (ikey, rest), none⟩ := by
  obtain ⟨s, hs, rfl, -⟩ := h
  have hfree := hs.size_lt_iff.mp hn
  rw [hs.back hfree]
  exact (Stands.assign hs hfree).finishInsert hW hp

theorem split_eq [DecidableEq κ] (hmid : n.chooseMid W p ikey = some mid) :
    n.split W nr p ikey rest =
      let m := n.splitInto W nr p mid ikey rest
      let nl := n.shrink W m
      if p < mid then some ((nl.assign (Kpermuter.back W nl.permutation) ikey rest).finishInsert W p, m)
      else some (nl, m.finishInsert W (p - nl.size)) := by
  rw [split, hmid]
  rfl

/-- The two leaves, split at `mid`. -/
theorem entries_split [DecidableEq κ] (hW : W ≤ 15) (h : Reads n.permutation s) (hp : p ≤ n.size)
    (hmid : n.chooseMid W p ikey = some mid) (hpos : 0 < mid) (hle : mid ≤ n.size) :
    ∃ nl nr', n.split W nr p ikey rest = some (nl, nr') ∧
      nl.entries = (n.entries.insertIdx p (ikey, rest)).take mid ∧
      nr'.entries = (n.entries.insertIdx p (ikey, rest)).drop mid ∧
      nr'.ikeyBound = n.ikeyAfterInsert p ikey mid := by
  have hadd := s.length_add
  have hlive : s.live.length = n.size := h.size.symm
  have hlen := n.length_entries
  have hins : (n.entries.insertIdx p (ikey, rest)).length = n.size + 1 := by
    rw [List.length_insertIdx_of_le_length (by omega), hlen]
  have hbound : (n.splitInto W nr p mid ikey rest).ikeyBound = n.ikeyAfterInsert p ikey mid := by
    have hfirst := entry_splitInto (p := p) W nr ikey rest hpos (show 0 < n.size + 1 - mid by omega)
    rw [← fst_afterInsert n p ikey rest]
    exact congrArg Prod.fst hfirst
  by_cases hside : p < mid
  · have hright := stands_splitInto_left nr ikey rest hW (by omega) hpos hside hp
    have hsize := hright.size
    rw [List.length_drop, hins] at hsize
    have hleft := stands_shrink (n.splitInto W nr p mid ikey rest) hW h (show _ = mid - 1 by omega)
    have hroom := hleft.size
    rw [List.length_take] at hroom
    have hpm : p ≤ (n.entries.take (mid - 1)).length := by
      rw [List.length_take]
      omega
    have hnew := hleft.insert ikey rest hW (by omega) hpm
    have hlast : ((n.entries.take (mid - 1)).insertIdx p (ikey, rest)).length = mid := by
      rw [List.length_insertIdx_of_le_length hpm, List.length_take]
      omega
    rw [split_eq nr ikey rest hmid]
    dsimp only
    rw [if_pos hside]
    refine ⟨_, _, rfl, ?_, hright.entries, hbound⟩
    rw [hnew.entries]
    conv_rhs => rw [← List.take_append_drop (mid - 1) n.entries]
    rw [Slots.insertIdx_append hpm, List.take_left' hlast]
  · have hright := stands_splitInto_right nr ikey rest hW (by omega) hpos (by omega) hp
    have hdrop : ((n.entries.insertIdx p (ikey, rest)).drop mid).length = n.size + 1 - mid := by
      rw [List.length_drop, hins]
    have hsize := hright.size
    rw [List.length_eraseIdx_of_lt (by omega), hdrop] at hsize
    have hleft := stands_shrink (n.splitInto W nr p mid ikey rest) hW h (show _ = mid by omega)
    have hroom := hleft.size
    rw [List.length_take] at hroom
    have hpm : p - mid ≤ (((n.entries.insertIdx p (ikey, rest)).drop mid).eraseIdx (p - mid)).length := by
      rw [List.length_eraseIdx_of_lt (by omega), hdrop]
      omega
    have hnew := hright.finishInsert hW hpm
    have hlt : p - mid < ((n.entries.insertIdx p (ikey, rest)).drop mid).length := by omega
    have hplace : ((n.entries.insertIdx p (ikey, rest)).drop mid)[p - mid] = (ikey, rest) := by
      simp only [List.getElem_drop, show mid + (p - mid) = p by omega, List.getElem_insertIdx_self]
    have hback := List.insertIdx_eraseIdx_getElem hlt
    rw [hplace] at hback
    rw [split_eq nr ikey rest hmid]
    dsimp only
    rw [if_neg hside, show p - (n.shrink W (n.splitInto W nr p mid ikey rest)).size = p - mid by omega]
    refine ⟨_, _, rfl, ?_, ?_, hbound⟩
    · rw [hleft.entries, List.take_insertIdx_eq_take_of_le _ _ _ _ (by omega)]
    · rw [hnew.entries, hback]

theorem getElem?_insertIdx_entries (hp : p ≤ n.size) (hi : i ≤ n.size) :
    (n.entries.insertIdx p (ikey, rest))[i]? = some (n.afterInsert p ikey rest i) := by
  rw [insertIdx_entries hp, List.getElem?_map, List.getElem?_range (by omega), Option.map_some]

/-- Two parts of a sorted list are apart, if the last of one and the first of the other are. -/
theorem fst_lt_of_sorted [LinearOrder κ] {l r : List (κ × ε)} {a y b : κ × ε}
    (hsorted : (l ++ r).Pairwise fun a b => a.1 ≤ b.1) (hy : r.head? = some y)
    (hne : ∀ x ∈ l.getLast?, x.1 ≠ y.1) (ha : a ∈ l) (hb : b ∈ r) : a.1 < b.1 := by
  obtain ⟨hl, hr, hlr⟩ := List.pairwise_append.mp hsorted
  obtain ⟨r, rfl⟩ := List.head?_eq_some_iff.mp hy
  have hnil : l ≠ [] := List.ne_nil_of_mem ha
  have hlast := List.dropLast_concat_getLast hnil
  have hax : a.1 ≤ (l.getLast hnil).1 := by
    rw [← hlast] at hl ha
    rcases List.mem_append.mp ha with ha | ha
    · exact (List.pairwise_append.mp hl).2.2 a ha _ (List.mem_singleton_self _)
    · rw [List.mem_singleton.mp ha]
  have hxy : (l.getLast hnil).1 < y.1 :=
    lt_of_le_of_ne (hlr _ (List.getLast_mem hnil) y List.mem_cons_self)
      (hne _ (List.getLast?_eq_some_getLast hnil))
  have hyb : y.1 ≤ b.1 := by
    rcases List.mem_cons.mp hb with rfl | hb
    · exact le_rfl
    · exact (List.pairwise_cons.mp hr).1 b hb
  exact hax.trans_lt (hxy.trans_le hyb)

/-- **A split loses nothing**: a leaf with no slot for a new entry, whose `ikey`s are in order with the new one
in its place and not all the same, is split into two leaves that have its entries and the new one in its place;
every `ikey` of the old leaf is below every `ikey` of the new one, whose bound is its first `ikey`. -/
theorem leaf_split_exact [LinearOrder κ] (W : Width) {s : Slots W.slots} (h : Reads n.permutation s)
    (hfull : W.slots ≤ n.size + 1) (hp : p ≤ n.size)
    (hsorted : (n.entries.insertIdx p (ikey, rest)).Pairwise fun a b => a.1 ≤ b.1)
    (hdiff : ∃ a ∈ n.entries.insertIdx p (ikey, rest), ∃ b ∈ n.entries.insertIdx p (ikey, rest),
      a.1 ≠ b.1) :
    ∃ nl nr', n.split W.slots nr p ikey rest = some (nl, nr') ∧
      nl.entries ++ nr'.entries = n.entries.insertIdx p (ikey, rest) ∧ nl.entries ≠ [] ∧
      nr'.entries.head?.map Prod.fst = some nr'.ikeyBound ∧
      ∀ a ∈ nl.entries, ∀ b ∈ nr'.entries, a.1 < b.1 := by
  have hwide := W.wide
  have hadd := s.length_add
  have hlive : s.live.length = n.size := h.size.symm
  obtain ⟨a, ha, b, hb, hab⟩ := hdiff
  rw [insertIdx_entries hp, List.mem_map] at ha hb
  obtain ⟨i, hi, rfl⟩ := ha
  obtain ⟨j, hj, rfl⟩ := hb
  rw [List.mem_range] at hi hj
  rw [fst_afterInsert, fst_afterInsert] at hab
  obtain ⟨mid, hmid⟩ := Option.isSome_iff_exists.mp
    (chooseMid_isSome (by omega) hfull (by omega) (by omega) (by omega) hab)
  obtain ⟨hpos, hle, hne⟩ := chooseMid_spec (by omega) hfull hmid
  obtain ⟨nl, nr', hsplit, hl, hr, hbound⟩ := entries_split nr ikey rest W.le h hp hmid hpos hle
  have hlen : nl.entries.length = mid := by
    rw [hl, List.length_take, insertIdx_entries hp, List.length_map, List.length_range]
    omega
  have happend : nl.entries ++ nr'.entries = n.entries.insertIdx p (ikey, rest) := by
    rw [hl, hr, List.take_append_drop]
  have hhead : nr'.entries.head? = some (n.afterInsert p ikey rest mid) := by
    rw [hr, List.head?_drop, getElem?_insertIdx_entries ikey rest hp hle]
  have hlast : ∀ x ∈ nl.entries.getLast?, x.1 ≠ (n.afterInsert p ikey rest mid).1 := by
    intro x hx
    rw [List.getLast?_eq_getElem?, hlen, hl, List.getElem?_take, if_pos (by omega),
      getElem?_insertIdx_entries ikey rest hp (by omega)] at hx
    cases hx
    rw [fst_afterInsert, fst_afterInsert]
    exact hne
  refine ⟨nl, nr', hsplit, happend, ?_, ?_, fun a ha b hb => ?_⟩
  · exact List.length_pos_iff.mp (by omega)
  · rw [hhead, hbound, Option.map_some, fst_afterInsert]
  · rw [← happend] at hsorted
    exact fst_lt_of_sorted hsorted hhead hlast ha hb

/-- The full leaf gets an entry in its middle. -/
theorem leaf_split_exact_fullLeaf : ∃ nl nr, fullLeaf.split 15 oneEntry 9 9 'b' = some (nl, nr) ∧
    nl.entries ++ nr.entries = fullLeaf.entries.insertIdx 9 (9, 'b') ∧
    ∀ a ∈ nl.entries, ∀ b ∈ nr.entries, a.1 < b.1 :=
  have hreads : Reads fullLeaf.permutation (.sorted 15 15 (by decide)) := .makeSorted (by decide) (by decide)
  have ⟨nl, nr, hsplit, hentries, _, _, hlt⟩ := leaf_split_exact oneEntry 9 'b' fifteen hreads (by decide)
    (by decide) (by decide) ⟨(0, 'a'), by decide, (9, 'b'), by decide, by decide⟩
  ⟨nl, nr, hsplit, hentries, hlt⟩

end SidleBaselines.Masstree
