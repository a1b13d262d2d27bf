import SidleBaselines.Pactree.DataLayer

/-!
# Reading the list

Lookups leave the list as it is. A scan goes from node to node, makes the permuters of those that
have been written since their last scan, and stops at the last node or with as many values as it
was asked for.

## What is proved

* `Rep.lookup`, `Rep.probe` — lookups of the map.
* `Rep.entries_eq` — the entries of the nodes, one after another, are those of the map.
* `Rep.scan` — a scan of the map.
-/

namespace SidleBaselines.Pactree

open Data ListNode

variable {K V : Type} [LinearOrder K] [BoundedOrder K] {fp : K → UInt8} {B : ℕ}
  {s : LinkedList K V} {l l₁ l₂ : List ℕ} {tail p q fuel : ℕ} {t : Table K V} {k key startKey : K} {v : V}
  {n : ListNode K V}

omit [LinearOrder K] [BoundedOrder K] in
@[simp] theorem set_self (s : LinkedList K V) (p : ℕ) : s.set p (s.heap p) = s := by simp [LinkedList.set]

omit [BoundedOrder K] in
/-- A node in order passes the checks after its lock. -/
theorem Body.checked (h : Body fp B n) (hk : n.checkRange key = true) :
    (n.deleted || !n.checkRange key) = false := by
  rw [h.live, hk]
  rfl

/-- **`lookup`** finds what the map has. -/
theorem Rep.lookup (h : Rep fp B s l tail t) (hB : B < 2 ^ 32) (hk : key < ⊤) (hp : p ∈ l) :
    s.lookup fp key p = some (t.get key, s) := by
  obtain ⟨q, hq, hrange, hfind⟩ := h.find hk hp
  have hb := (h.chain.mem hq).1
  have hvalue : ((s.heap q).getKeyIndex key (fp key)).map (fun index => ((s.heap q).keyArray index).2)
      = t.get key := by
    cases hi : (s.heap q).getKeyIndex key (fp key) with
    | none => exact ((h.get_eq_none hq hrange).mpr (hb.ok.getKeyIndex_eq_none.mp hi)).symm
    | some i => exact ((h.get_iff hq hrange).mpr ((hb.ok.holds_getKeyIndex hi).mpr rfl)).symm
  simp only [LinkedList.lookup, hfind, Option.bind_eq_bind, Option.bind_some, hb.readLock hB, hb.checked hrange,
    Bool.false_eq_true, if_false, set_self, hvalue, Option.pure_def]

/-- **`probe`** tells whether the map has the key. -/
theorem Rep.probe (h : Rep fp B s l tail t) (hB : B < 2 ^ 32) (hk : key < ⊤) (hp : p ∈ l) :
    s.probe fp key p = some ((t.get key).isSome, s) := by
  obtain ⟨q, hq, hrange, hfind⟩ := h.find hk hp
  have hb := (h.chain.mem hq).1
  have hfound : ((s.heap q).getKeyIndex key (fp key)).isSome = (t.get key).isSome := by
    cases hi : (s.heap q).getKeyIndex key (fp key) with
    | none => rw [(h.get_eq_none hq hrange).mpr (hb.ok.getKeyIndex_eq_none.mp hi)]; rfl
    | some i => rw [(h.get_iff hq hrange).mpr ((hb.ok.holds_getKeyIndex hi).mpr rfl)]; rfl
  simp only [LinkedList.probe, hfind, Option.bind_eq_bind, Option.bind_some, hb.readLock hB, hb.checked hrange,
    Bool.false_eq_true, if_false, set_self, hfound, Option.pure_def]

/-! ### The entries, node by node -/

/-- The entries of the nodes `l`, one node after another. -/
def contents (heap : ℕ → ListNode K V) (l : List ℕ) : List (K × V) := l.flatMap fun p => (heap p).entries

theorem Chain.ordered {heap : ℕ → ListNode K V} {prev : Option ℕ} {lo : K} (h : Chain fp B heap prev lo l tail) :
    l.Pairwise fun p q => (heap p).max ≤ (heap q).min := by
  induction l generalizing prev lo with
  | nil => exact .nil
  | cons p l ih => exact .cons (fun q hq => (h.2.mem hq).2.2.1) (ih h.2)

theorem Chain.contents_sorted {heap : ℕ → ListNode K V} {prev : Option ℕ} {lo : K}
    (h : Chain fp B heap prev lo l tail) : (contents heap l).Pairwise fun a b => a.1 < b.1 := by
  refine List.pairwise_flatMap.mpr ⟨fun p hp => (h.mem hp).1.ok.entries_sorted, ?_⟩
  refine h.ordered.imp_of_mem fun {p q} hp hq hpq a ha b hb => ?_
  have ha := ((h.mem hp).1.range a.1 a.2 (mem_entries.mp ha)).2
  have hb := ((h.mem hq).1.range b.1 b.2 (mem_entries.mp hb)).1
  exact ha.trans_le (hpq.trans hb)

/-- **The list in order**: its nodes' entries, one node after another, are those of the map. -/
theorem Rep.entries_eq (h : Rep fp B s l tail t) : contents s.heap l = t.entries := by
  have hsorted := h.chain.contents_sorted
  refine Table.eq_entries ((List.perm_ext_iff_of_nodup ?_ Table.entries_nodup).mpr fun e => ?_) hsorted
  · exact hsorted.imp fun hlt e => by subst e; exact lt_irrefl _ hlt
  · rw [contents, List.mem_flatMap, Table.mem_entries, h.table]
    exact exists_congr fun p => and_congr_right fun _ => mem_entries

/-- The entries from a key on are in the node for the key and those after it. -/
theorem Rep.filter_eq (h : Rep fp B s (l₁ ++ q :: l₂) tail t) (hq : (s.heap q).checkRange startKey = true) :
    (t.entries.filter fun e => startKey ≤ e.1) = (contents s.heap (q :: l₂)).filter fun e => startKey ≤ e.1 := by
  rw [← h.entries_eq, contents, List.flatMap_append, List.filter_append, List.filter_eq_nil_iff.mpr,
    List.nil_append]
  · rfl
  · intro e he
    obtain ⟨p, hp, he⟩ := List.mem_flatMap.mp he
    have hlt := ((h.chain.mem (List.mem_append_left _ hp)).1.range _ _ (mem_entries.mp he)).2
    have hpq := (List.pairwise_append.mp h.chain.ordered).2.2 p hp q List.mem_cons_self
    have hle := ((Body.checkRange _).mp hq).1
    simpa using hlt.trans_le (hpq.trans hle)

/-! ### Scans -/

omit [BoundedOrder K] in
theorem Body.rescan (h : Body fp B n) : Body fp B n.rescan := by
  have hcache := h.cached.rescan
  have hok := h.ok.rescan
  have hscan : n.rescan.lastScanVersion ≤ n.verLock := by
    have := h.scanned
    rw [ListNode.rescan, generatePermuter]
    split_ifs <;> simp_all
  have hrange : ∀ k v, n.rescan.Holds k v → n.min ≤ k ∧ k < n.max :=
    fun k v hv => h.range k v (rescan_holds.mp hv)
  rw [rescan_eq] at hcache hok hrange ⊢
  exact ⟨h.live, h.even, h.pos, h.le, hok, hrange, hscan, .inr hcache⟩

theorem Rep.rescan (h : Rep fp B s l tail t) (hp : p ∈ l) : Rep fp B (s.set p (s.heap p).rescan) l tail t := by
  have hb := (h.chain.mem hp).1
  refine h.modify le_rfl hp ?_ hb.rescan (fun k v hk => ?_) fun _ _ => rfl
  · rw [rescan_eq]
    exact ⟨rfl, rfl, rfl, rfl, rfl⟩
  · rw [rescan_holds]
    exact h.get_iff hp hk

omit [BoundedOrder K] in
/-- A scan that has come to an end goes no further. -/
theorem scanLoop_end {range : ℕ} {cur : Option ℕ} {rangeVector : List V} {ended : Bool}
    (hended : ended = true → range ≤ rangeVector.length) (h : ¬ (rangeVector.length < range ∧ ended = false))
    (hfuel : fuel ≠ 0) (more : List V) :
    LinkedList.scanLoop startKey range fuel s cur rangeVector ended =
      some (rangeVector ++ more.take (range - rangeVector.length), s) := by
  obtain ⟨fuel, rfl⟩ := Nat.exists_eq_succ_of_ne_zero hfuel
  have hle : range ≤ rangeVector.length := by
    by_contra hlt
    refine h ⟨by omega, ?_⟩
    by_contra hne
    exact hlt (hended (by simpa using hne))
  rw [LinkedList.scanLoop, if_neg h, Nat.sub_eq_zero_of_le hle, List.take_zero, List.append_nil]

/-- The loop of a scan, from the nodes `l₂` on. -/
theorem scanLoop_eq (startKey : K) (range : ℕ) (rangeVector : List V) (ended : Bool)
    (h : Rep fp B s (l₁ ++ l₂) tail t)
    (hB : B < 2 ^ 32) (hended : ended = true → range ≤ rangeVector.length) (hfuel : l₂.length + 2 ≤ fuel) :
    ∃ s', LinkedList.scanLoop startKey range fuel s (some (l₂.headD tail)) rangeVector ended =
        some (rangeVector ++ (((contents s.heap l₂).filter fun e => startKey ≤ e.1).map Prod.snd).take
          (range - rangeVector.length), s') ∧
      Rep fp B s' (l₁ ++ l₂) tail t ∧ Quiet s s' := by
  induction l₂ generalizing l₁ s rangeVector ended fuel with
  | nil =>
    by_cases hmore : rangeVector.length < range ∧ ended = false
    · obtain ⟨last, lo, -, htail, -⟩ := chain_append.mp h.chain
      obtain ⟨fuel, rfl⟩ := Nat.exists_eq_succ_of_ne_zero (n := fuel) (by omega)
      obtain ⟨fuel, rfl⟩ := Nat.exists_eq_succ_of_ne_zero (n := fuel) (by simp at hfuel; omega)
      -- the last node ends the scan
      have hlock := readLock_eq (n := s.heap tail) htail.version.ge (by rw [htail.version])
        (by rw [htail.version]; norm_num)
      refine ⟨s, ?_, h, rfl, rfl⟩
      rw [LinkedList.scanLoop, if_pos hmore]
      simp only [List.headD_nil, Option.bind_eq_bind, Option.bind_some, hlock, htail.live, Bool.false_eq_true,
        if_false, ListNode.scan, htail.next, set_self]
      rw [LinkedList.scanLoop, if_neg (by simp)]
      simp [contents]
    · exact ⟨s, scanLoop_end hended hmore (by omega) _, h, rfl, rfl⟩
  | cons p l₂ ih =>
    by_cases hmore : rangeVector.length < range ∧ ended = false
    · obtain ⟨last, lo, -, hp, -⟩ := chain_append.mp h.chain
      obtain ⟨fuel, rfl⟩ := Nat.exists_eq_succ_of_ne_zero (n := fuel) (by omega)
      have hb := hp.body
      have hmem : p ∈ l₁ ++ p :: l₂ := by simp
      have hrep : Rep fp B (s.set p (s.heap p).rescan) ((l₁ ++ [p]) ++ l₂) tail t := by
        rw [List.append_assoc]
        exact h.rescan hmem
      have hsame : contents (s.set p (s.heap p).rescan).heap l₂ = contents s.heap l₂ := by
        refine List.flatMap_congr fun x hx => ?_
        by_cases hxp : x = p
        · rw [hxp, set_heap_self, rescan_entries]
        · rw [set_heap_ne hxp]
      have hnext : (s.heap p).rescan.nextPtr = some (l₂.headD tail) := by rw [rescan_eq]; exact hp.next
      have hscan := scan_spec hb.ok hb.cached (fun k v hv => (hb.range k v hv).1)
        hp.next startKey range rangeVector
      dsimp only at hscan
      rw [LinkedList.scanLoop, if_pos hmore]
      simp only [List.headD_cons, Option.bind_eq_bind, Option.bind_some, hb.readLock hB, hb.live,
        Bool.false_eq_true,
        if_false, hscan, hnext]
      generalize hmine : (s.heap p).entries.filter (fun e => startKey ≤ e.1) = mine
      have hend :
          ((rangeVector ++ (mine.take (range - rangeVector.length)).map Prod.snd).length == range) = true →
          range ≤ (rangeVector ++ (mine.take (range - rangeVector.length)).map Prod.snd).length := fun h =>
        (beq_iff_eq.mp h).ge
      have hfuel : l₂.length + 2 ≤ fuel := by simp at hfuel; omega
      obtain ⟨s', hloop, hrep', hlog⟩ := ih _ _ hrep hend hfuel
      refine ⟨s', hloop.trans ?_, by rwa [List.append_assoc] at hrep', hlog.head, hlog.log⟩
      rw [hsame, contents, contents, List.flatMap_cons, List.filter_append, hmine, List.map_append,
        List.take_append,
        List.map_take, List.append_assoc, List.length_map]
      have hleft : range - (rangeVector ++ (mine.map Prod.snd).take (range - rangeVector.length)).length
          = range - rangeVector.length - mine.length := by
        simp only [List.length_append, List.length_take, List.length_map]
        omega
      rw [hleft]
    · exact ⟨s, scanLoop_end hended hmore (by omega) _, h, rfl, rfl⟩

/-- **`scan`** gives the values of the map from a key on, in key order, as many as are wanted. -/
theorem Rep.scan (h : Rep fp B s l tail t) (hB : B < 2 ^ 32) (hk : startKey < ⊤) (hp : p ∈ l) (range : ℕ) :
    ∃ s', s.scan startKey range p = some ((t.scan startKey range).map Prod.snd, s') ∧
      Rep fp B s' l tail t ∧ Quiet s s' := by
  obtain ⟨q, hq, hrange, hfind⟩ := h.find hk hp
  have hlt := h.length_lt
  obtain ⟨l₁, l₂, rfl⟩ := List.append_of_mem hq
  have hfuel : (q :: l₂).length + 2 ≤ s.top + 1 := by
    rw [List.length_append] at hlt
    omega
  obtain ⟨s', hloop, hrep, hlog⟩ := scanLoop_eq startKey range [] false h hB (fun h => by cases h) hfuel
  refine ⟨s', ?_, hrep, hlog⟩
  rw [LinkedList.scan, hfind, Option.bind_eq_bind, Option.bind_some]
  refine hloop.trans ?_
  rw [List.nil_append, List.length_nil, Nat.sub_zero, ← h.filter_eq hrange, ← List.map_take, Table.scan]

end SidleBaselines.Pactree
