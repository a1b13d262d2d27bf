import SidleBaselines.Pactree.ListNode

/-!
# Merging nodes

A node that has lost entries takes over those of a neighbour: each goes to the next slot that is
free.

## What is proved

* `merge_spec` — where the entries of both fit, the node holds what the two held.
-/

namespace SidleBaselines.Pactree

namespace ListNode

variable {K V : Type}

/-! ### What the code does -/

/-- The loop of `mergeWithNext` and `mergeWithPrev` over the slots `is` of `deleteNode`: the
slots of the node before `cur` are taken. -/
def mergeLoop (deleteNode : ListNode K V) : List ℕ → ListNode K V → ℕ → ListNode K V
  | [], n, _ => n
  | i :: is, n, cur =>
    if deleteNode.bitMap i then
      match (List.range' cur (MAX_ENTRIES - cur)).find? fun j => !n.bitMap j with
      | some j =>
        mergeLoop deleteNode is (n.insertAtIndex (deleteNode.keyArray i) j (deleteNode.fingerPrint i)) (j + 1)
      | none => mergeLoop deleteNode is n cur
    else mergeLoop deleteNode is n cur

/-- The node after it has taken the entries of `deleteNode`. -/
def merge (n deleteNode : ListNode K V) : ListNode K V :=
  mergeLoop deleteNode (List.range MAX_ENTRIES) n 0

/-! ### Counting slots -/

theorem countP_update {l : List ℕ} (hl : l.Nodup) {f : ℕ → Bool} {i : ℕ} (hi : i ∈ l) (hf : f i = false) :
    l.countP (Function.update f i true) = l.countP f + 1 := by
  have hout : ∀ l : List ℕ, i ∉ l → l.countP (Function.update f i true) = l.countP f := fun l hl =>
    List.countP_congr fun j hj => by
      have hne : j ≠ i := fun e => hl (e ▸ hj)
      rw [Function.update_of_ne hne]
  induction l with
  | nil => cases hi
  | cons j l ih =>
    obtain ⟨hj, hl⟩ := List.nodup_cons.mp hl
    rw [List.countP_cons, List.countP_cons]
    rcases List.mem_cons.mp hi with rfl | hi
    · rw [hout l hj]
      simp [hf]
    · have hne : j ≠ i := fun e => hj (e ▸ hi)
      rw [ih hl hi, Function.update_of_ne hne]
      omega

variable {n deleteNode : ListNode K V} {fp : K → UInt8} {i : ℕ} {keyHash : UInt8}

theorem getNumEntries_insertAtIndex (e : K × V) (hi : i < MAX_ENTRIES) (hb : n.bitMap i = false) :
    (n.insertAtIndex e i keyHash).getNumEntries = n.getNumEntries + 1 :=
  countP_update List.nodup_range (List.mem_range.mpr hi) hb

theorem getNumEntries_removeFromIndex (hi : i < MAX_ENTRIES) (hb : n.bitMap i = true) :
    (n.removeFromIndex i).getNumEntries + 1 = n.getNumEntries := by
  have := countP_update List.nodup_range (List.mem_range.mpr hi)
    (f := Function.update n.bitMap i false) (Function.update_self ..)
  rw [Function.update_idem, Function.update_eq_self_iff.mpr hb.symm] at this
  exact this.symm

/-- A node with room has a free slot. -/
theorem exists_free (h : n.getNumEntries < MAX_ENTRIES) : ∃ i, i < MAX_ENTRIES ∧ n.bitMap i = false := by
  by_contra hno
  refine h.ne ((List.countP_eq_length.mpr fun i hi => ?_).trans List.length_range)
  by_contra hb
  exact hno ⟨i, List.mem_range.mp hi, by simpa using hb⟩

/-! ### Merging -/

/-- What the node is after it has taken the entries of the slots `is` of `deleteNode`. -/
structure Merged (n deleteNode : ListNode K V) (fp : K → UInt8) (is : List ℕ) (n' : ListNode K V) : Prop where
  /-- Keys and fingerprints. -/
  ok : n'.Ok fp
  /-- The entries. -/
  holds : ∀ k v, n'.Holds k v ↔
    n.Holds k v ∨ ∃ i ∈ is, deleteNode.bitMap i = true ∧ deleteNode.keyArray i = (k, v)
  /-- All else is as before. -/
  rest : n' = { n with keyArray := n'.keyArray, fingerPrint := n'.fingerPrint, bitMap := n'.bitMap }

theorem mergeLoop_spec (hd : deleteNode.Ok fp) (is : List ℕ) (cur : ℕ) (hlt : ∀ i ∈ is, i < MAX_ENTRIES)
    (hnodup : is.Nodup)
    (h : n.Ok fp) (hcur : ∀ j, j < cur → n.bitMap j = true)
    (hroom : n.getNumEntries + is.countP deleteNode.bitMap ≤ MAX_ENTRIES)
    (hnew : ∀ i ∈ is, deleteNode.bitMap i = true → ∀ v, ¬ n.Holds (deleteNode.keyArray i).1 v) :
    Merged n deleteNode fp is (mergeLoop deleteNode is n cur) := by
  induction is generalizing n cur with
  | nil => exact ⟨h, by simp [mergeLoop], rfl⟩
  | cons i is ih =>
    obtain ⟨hi, hnodup⟩ := List.nodup_cons.mp hnodup
    have hlt' : ∀ j ∈ is, j < MAX_ENTRIES := fun j hj => hlt j (.tail _ hj)
    rw [List.countP_cons] at hroom
    rw [mergeLoop]
    cases hb : deleteNode.bitMap i with
    | false =>
      rw [hb] at hroom
      have := ih cur hlt' hnodup h hcur (by simpa using hroom) fun j hj => hnew j (.tail _ hj)
      refine ⟨this.ok, fun k v => ?_, this.rest⟩
      rw [if_neg Bool.false_ne_true, this.holds, List.exists_mem_cons_iff]
      simp [hb]
    | true =>
      simp only [hb, if_true] at hroom
      have hlti := hlt i List.mem_cons_self
      -- the slots before `cur` are taken, so the free one that there must be is found
      obtain ⟨a, ha, hba⟩ := exists_free (n := n) (by omega)
      have hge : cur ≤ a := by
        by_contra hlt
        rw [hcur a (by omega)] at hba
        cases hba
      have hmem : a ∈ List.range' cur (MAX_ENTRIES - cur) := by rw [List.mem_range'_1]; omega
      obtain ⟨j, hj⟩ := Option.isSome_iff_exists.mp
        ((List.find?_isSome (p := fun j => !n.bitMap j)).mpr ⟨a, hmem, by simp [hba]⟩)
      obtain ⟨hfree, hmem, hbefore⟩ := List.find?_range'_eq_some.mp hj
      rw [List.mem_range'_1] at hmem
      simp only [Bool.not_eq_true', Bool.not_not] at hfree hbefore
      have hjlt : j < MAX_ENTRIES := by omega
      rw [if_pos rfl, hj]
      have hheld : ∀ k v, (n.insertAtIndex (deleteNode.keyArray i) j (deleteNode.fingerPrint i)).Holds k v ↔
          n.Holds k v ∨ deleteNode.keyArray i = (k, v) := by
        intro k v
        rw [holds_insertAtIndex hjlt hfree, Prod.ext_iff, eq_comm, @eq_comm _ v]
      have hok : (n.insertAtIndex (deleteNode.keyArray i) j (deleteNode.fingerPrint i)).Ok fp := by
        rw [hd.hash i hlti hb]
        exact h.insertAtIndex (hnew i List.mem_cons_self hb)
      have hcur' : ∀ x, x < j + 1 →
          (n.insertAtIndex (deleteNode.keyArray i) j (deleteNode.fingerPrint i)).bitMap x = true := by
        intro x hx
        by_cases hxj : x = j
        · rw [hxj, (insertAtIndex_self _).2.2]
        · rw [(insertAtIndex_ne _ hxj).2.2]
          by_cases hxc : x < cur
          · exact hcur x hxc
          · exact hbefore x (by omega) (by omega)
      have hnew' : ∀ a ∈ is, deleteNode.bitMap a = true → ∀ v,
          ¬ (n.insertAtIndex (deleteNode.keyArray i) j (deleteNode.fingerPrint i)).Holds
            (deleteNode.keyArray a).1 v := by
        intro a ha hba v hv
        rcases (hheld _ _).mp hv with hv | hv
        · exact hnew a (.tail _ ha) hba v hv
        · exact hi (hd.distinct i a hlti (hlt' a ha) hb hba (by rw [hv]) ▸ ha)
      have := ih (j + 1) hlt' hnodup hok hcur' (by rw [getNumEntries_insertAtIndex _ hjlt hfree]; omega) hnew'
      refine ⟨this.ok, fun k v => ?_, this.rest⟩
      rw [this.holds, hheld, List.exists_mem_cons_iff, or_assoc]
      simp [hb]

/-- **Merging**: where the entries of both fit, the node holds what the two held. -/
theorem merge_spec (h : n.Ok fp) (hd : deleteNode.Ok fp)
    (hroom : n.getNumEntries + deleteNode.getNumEntries ≤ MAX_ENTRIES)
    (hnew : ∀ k u v, deleteNode.Holds k u → ¬ n.Holds k v) :
    (n.merge deleteNode).Ok fp ∧ (∀ k v, (n.merge deleteNode).Holds k v ↔ n.Holds k v ∨ deleteNode.Holds k v) ∧
      n.merge deleteNode = { n with keyArray := (n.merge deleteNode).keyArray,
                                    fingerPrint := (n.merge deleteNode).fingerPrint,
                                    bitMap := (n.merge deleteNode).bitMap } := by
  have := mergeLoop_spec hd (List.range MAX_ENTRIES) 0 (fun i hi => List.mem_range.mp hi) List.nodup_range h
    (fun j hj => absurd hj (by omega)) hroom fun i hi hb v =>
      hnew _ (deleteNode.keyArray i).2 v ⟨i, List.mem_range.mp hi, hb, rfl⟩
  refine ⟨this.ok, fun k v => ?_, this.rest⟩
  rw [merge, this.holds]
  simp only [List.mem_range, Holds]

end ListNode

end SidleBaselines.Pactree
