import SidleBaselines.Art.Insert

/-!
# ART is a set of keys

From the empty tree on, insertions and lookups of keys of one length behave as on a set, up to the
one assertion that an insertion can fail: the first node above a leaf has room for a prefix of eight
bytes, and a leaf that agrees with the new key in more of them, beyond what the tree tells apart
already, does not get one. The assertions are compiled in, `NDEBUG` not being defined.

## What is proved

* `Stands.put`, `Stands.get` — one call.
* `art_refines` — a run gives the answers of a set of keys, and stops where an `Overlong` key is inserted.
* `art_stops_iff` — there are runs that stop if and only if the keys have ten bytes or more.
-/

namespace SidleBaselines.Art

open Data

/-! ### Calls -/

/-- `new_adaptive_radix_tree`, in memory as it is. -/
def AdaptiveRadixTree.new (mem : ℕ → Node) : AdaptiveRadixTree := ⟨none, mem, 0⟩

/-- What a client calls. -/
inductive Call where
  | put (key : List UInt8)
  | get (key : List UInt8)

/-- What it is answered. -/
inductive Answer where
  | ret (r : ℤ)
  | key (k : Option (List UInt8))
deriving DecidableEq

/-- The key it calls with. -/
def Call.key : Call → List UInt8
  | put key | get key => key

/-- A call of the tree. -/
def AdaptiveRadixTree.exec (s : AdaptiveRadixTree) : Call → Except Stop (Answer × AdaptiveRadixTree)
  | .put key => (s.put key key.length).map fun r => (.ret r.1, r.2)
  | .get key => (s.get key key.length).map fun k => (.key k, s)

open Classical in
/-- The same call of a set of keys. -/
noncomputable def Call.onSet (K : Set (List UInt8)) : Call → Except Stop (Answer × Set (List UInt8))
  | put key =>
    if key ∈ K then .ok (.ret 1, K)
    else if Overlong 0 K key then .error .assert
    else .ok (.ret 0, insert key K)
  | get key => .ok (.key (if key ∈ K then some key else none), K)

/-- A run, until a call stops the process: the answers and what stopped it. -/
def run {S : Type} (exec : S → Call → Except Stop (Answer × S)) : S → List Call → List Answer × Option Stop
  | _, [] => ([], none)
  | s, c :: calls =>
    match exec s c with
    | .error e => ([], some e)
    | .ok (a, s) => (a :: (run exec s calls).1, (run exec s calls).2)

/-! ### One call -/

/-- The tree has the keys `K`, of length `L`. -/
inductive Stands (L : ℕ) (s : AdaptiveRadixTree) : Set (List UInt8) → Prop
  | empty (root : s.root = none) : Stands L s ∅
  | tree {p K F} (root : s.root = some p) (rep : Rep L s.heap none p [] K F) (bound : ∀ a ∈ F, a < s.next) :
    Stands L s K

variable {s : AdaptiveRadixTree} {K : Set (List UInt8)} {key : List UInt8}

/-- **Lookup.** -/
theorem Stands.get (h : Stands key.length s K) (hlen : key.length < 128) :
    (key ∈ K → s.get key key.length = .ok (some key)) ∧ (key ∉ K → s.get key key.length = .ok none) := by
  cases h with
  | empty root =>
    refine ⟨fun hk => hk.elim, fun _ => ?_⟩
    rw [AdaptiveRadixTree.get, root]
  | @tree p _ F root rep bound =>
    have hfuel : key.length < key.length + 2 + ([] : List UInt8).length := by simp
    have hkey : (allocLeaf key key.length).key = key := List.take_length
    have hroot : s.load .root = some p := root
    obtain ⟨hthere, habsent⟩ := AdaptiveRadixTree.getFrom_eq none rep hlen List.nil_prefix hroot hfuel
    rw [List.length_nil] at hthere habsent
    rw [AdaptiveRadixTree.get, root]
    dsimp only
    rw [AdaptiveRadixTree.getLoop]
    refine ⟨fun hk => ?_, fun hk => ?_⟩
    · rw [hthere hk]
      exact congrArg (fun k => Except.ok (some k)) hkey
    · rw [habsent hk]
      rfl

/-- The first key is the root. -/
theorem Stands.put_first (root : s.root = none) :
    s.put key key.length = .ok (0, { s with root := some (.leaf (allocLeaf key key.length)) }) ∧
      Stands key.length { s with root := some (.leaf (allocLeaf key key.length)) } (insert key ∅) := by
  refine ⟨by rw [AdaptiveRadixTree.put, root], ?_⟩
  exact .tree rfl (.leaf rfl List.nil_prefix (insert_empty_eq key) rfl) fun a ha => ha.elim

/-- **Insertion.** -/
theorem Stands.put (h : Stands key.length s K) (hlen : key.length < 128) :
    (key ∈ K → s.put key key.length = .ok (1, s)) ∧
    (key ∉ K → Overlong 0 K key → s.put key key.length = .error .assert) ∧
    (key ∉ K → ¬ Overlong 0 K key →
      ∃ s', s.put key key.length = .ok (0, s') ∧ Stands key.length s' (insert key K)) := by
  cases h with
  | empty root =>
    refine ⟨fun hk => hk.elim, fun _ ⟨k, hk, _⟩ => hk.elim, fun _ _ => ⟨_, Stands.put_first root⟩⟩
  | @tree p _ F root rep bound =>
    have hfuel : key.length < key.length + 2 + ([] : List UInt8).length := by simp
    have hroot : s.load .root = some p := root
    obtain ⟨hthere, hstop, hput⟩ := AdaptiveRadixTree.putFrom_eq rep hlen List.nil_prefix hroot
      ⟨rfl, fun u hu => absurd hu (by simp), fun u hu => absurd hu (by simp)⟩ bound hfuel
    rw [List.length_nil] at hthere hstop hput
    rw [AdaptiveRadixTree.put, root]
    dsimp only
    rw [AdaptiveRadixTree.putLoop]
    refine ⟨fun hk => ?_, fun hk hover => ?_, fun hk hover => ?_⟩
    · rw [hthere hk]
      rfl
    · rw [hstop hk hover]
      rfl
    · obtain ⟨s', c, F', hrun, h⟩ := hput hk hover
      rw [hrun]
      refine ⟨s', rfl, .tree h.root h.rep fun a ha => ?_⟩
      rcases h.nodes a ha with hold | ⟨-, hlt⟩
      · exact (bound a hold).trans_le h.next
      · exact hlt

/-- **One call** gives the answer of the set, or stops where that does. -/
theorem Stands.exec {c : Call} (h : Stands c.key.length s K) (hlen : c.key.length < 128) :
    (∃ a s' K', s.exec c = .ok (a, s') ∧ Call.onSet K c = .ok (a, K') ∧ Stands c.key.length s' K') ∨
      ∃ e, s.exec c = .error e ∧ Call.onSet K c = .error e := by
  cases c with
  | put key =>
    change Stands key.length s K at h
    obtain ⟨hthere, hstop, hput⟩ := h.put hlen
    by_cases hk : key ∈ K
    · exact .inl ⟨.ret 1, s, K,
        by rw [AdaptiveRadixTree.exec, hthere hk]; rfl, by rw [Call.onSet, if_pos hk], h⟩
    · by_cases hover : Overlong 0 K key
      · exact .inr ⟨.assert, by rw [AdaptiveRadixTree.exec, hstop hk hover]; rfl,
          by rw [Call.onSet, if_neg hk, if_pos hover]⟩
      · obtain ⟨s', hrun, h'⟩ := hput hk hover
        refine .inl ⟨.ret 0, s', insert key K, by rw [AdaptiveRadixTree.exec, hrun]; rfl, ?_, h'⟩
        rw [Call.onSet, if_neg hk, if_neg hover]
  | get key =>
    change Stands key.length s K at h
    obtain ⟨hthere, habsent⟩ := h.get hlen
    by_cases hk : key ∈ K
    · exact .inl ⟨.key (some key), s, K,
        by rw [AdaptiveRadixTree.exec, hthere hk]; rfl, by rw [Call.onSet, if_pos hk], h⟩
    · exact .inl ⟨.key none, s, K,
        by rw [AdaptiveRadixTree.exec, habsent hk]; rfl, by rw [Call.onSet, if_neg hk], h⟩

/-! ### Runs -/

/-- From any tree a run does what it does on the tree's keys. -/
theorem Stands.run {L : ℕ} (h : Stands L s K) (hL : L < 128) {calls : List Call}
    (hcalls : ∀ c ∈ calls, c.key.length = L) :
    Art.run AdaptiveRadixTree.exec s calls = Art.run Call.onSet K calls := by
  induction calls generalizing s K with
  | nil => rfl
  | cons c calls ih =>
    obtain ⟨hc, hcalls⟩ := List.forall_mem_cons.mp hcalls
    subst hc
    rw [Art.run, Art.run]
    rcases h.exec hL with ⟨a, s', K', hs, hK, h'⟩ | ⟨e, hs, hK⟩
    · rw [hs, hK]
      dsimp only
      rw [ih h' hcalls]
    · rw [hs, hK]

/-- **ART is a set of keys**, with its assertions compiled in: over any memory, a run with keys of one length,
less than 128 bytes, gives the answers of a set and stops where a key is inserted that is `Overlong`. -/
theorem art_refines {L : ℕ} (hL : L < 128) (mem : ℕ → Node) (calls : List Call)
    (hcalls : ∀ c ∈ calls, c.key.length = L) :
    run AdaptiveRadixTree.exec (.new mem) calls = run Call.onSet ∅ calls :=
  (Stands.empty rfl).run hL hcalls

/-- Three keys of two bytes are inserted, the first of them twice, and two keys looked up. -/
def fourPuts : List Call := [.put [1, 2], .put [1, 3], .put [7, 3], .put [1, 2], .get [7, 3], .get [7, 4]]

theorem art_refines_fourPuts :
    run Call.onSet ∅ fourPuts = ([.ret 0, .ret 0, .ret 0, .ret 1, .key (some [7, 3]), .key none], none) :=
  (art_refines (L := 2) (by decide)
    (fun _ => ⟨0, fun _ => 0, none, none, fun _ => 0, fun _ => 0, fun _ => none⟩) fourPuts
    (by decide)).symm.trans (by decide +kernel)

/-! ### Where runs stop -/

/-- Only keys of ten bytes or more are `Overlong`. -/
theorem Overlong.length {L : ℕ} (h : Overlong 0 K key) (hK : ∀ k ∈ K, k.length = L)
    (hkey : key.length = L) : 10 ≤ L := by
  obtain ⟨k, hk, hne, hlt, -⟩ := h
  have := (AdaptiveRadixTree.getD_common_ne ((hK k hk).trans hkey.symm) hne).1
  omega

/-- A set of keys of less than ten bytes stops at no call. -/
theorem run_onSet {L : ℕ} (hL : L < 10) {calls : List Call} (hcalls : ∀ c ∈ calls, c.key.length = L)
    (hK : ∀ k ∈ K, k.length = L) : (run Call.onSet K calls).2 = none := by
  induction calls generalizing K with
  | nil => rfl
  | cons c calls ih =>
    obtain ⟨hc, hrest⟩ := List.forall_mem_cons.mp hcalls
    cases c with
    | put key =>
      by_cases hk : key ∈ K
      · rw [run, Call.onSet, if_pos hk]
        exact ih hrest hK
      · have hover : ¬ Overlong 0 K key := fun h => absurd (h.length hK hc) (by omega)
        rw [run, Call.onSet, if_neg hk, if_neg hover]
        refine ih hrest fun k hk => ?_
        rcases Set.mem_insert_iff.mp hk with rfl | hk
        · exact hc
        · exact hK k hk
    | get key =>
      rw [run, Call.onSet]
      exact ih hrest hK

/-- **Which keys can stop the process**, with its assertions compiled in: those of ten bytes or more. -/
theorem art_stops_iff {L : ℕ} (hL : L < 128) (mem : ℕ → Node) :
    (∃ calls, (∀ c ∈ calls, c.key.length = L) ∧ (run AdaptiveRadixTree.exec (.new mem) calls).2 ≠ none) ↔
      10 ≤ L := by
  constructor
  · rintro ⟨calls, hcalls, hstop⟩
    by_contra hlt
    rw [Stands.run (.empty rfl) hL hcalls] at hstop
    exact hstop (run_onSet (by omega) hcalls fun k hk => hk.elim)
  · intro h10
    let p := List.replicate (L - 1) (0 : UInt8)
    have hp : p.length = L - 1 := List.length_replicate
    have hlength : ∀ c ∈ [Call.put (p ++ [0]), .put (p ++ [1])], c.key.length = L := by
      intro c hc
      rcases List.mem_pair.mp hc with rfl | rfl
      all_goals
        rw [Call.key, List.length_append, hp, List.length_singleton]
        omega
    have hcommon : common (p ++ [0]) (p ++ [1]) = L - 1 := by
      rw [common_append, hp]
      rfl
    have hne : p ++ [0] ≠ p ++ [1] := fun e => absurd (List.append_cancel_left e) (by decide)
    have hover : Overlong 0 (insert (p ++ [0]) ∅) (p ++ [1]) := by
      rw [insert_empty_eq]
      exact overlong_singleton.mpr ⟨hne, by omega⟩
    refine ⟨_, hlength, ?_⟩
    rw [Stands.run (.empty rfl) hL hlength, run, Call.onSet, if_neg (Set.notMem_empty _),
      if_neg fun ⟨k, hk, _⟩ => hk.elim]
    dsimp only
    rw [run, Call.onSet, if_neg (by rw [insert_empty_eq]; exact hne.symm), if_pos hover]
    exact Option.some_ne_none _

/-- Keys of ten bytes can. -/
theorem art_stops_iff_ten :
    ∃ calls, (∀ c ∈ calls, c.key.length = 10) ∧ (run AdaptiveRadixTree.exec
      (.new fun _ => ⟨0, fun _ => 0, none, none, fun _ => 0, fun _ => 0, fun _ => none⟩) calls).2 ≠ none :=
  (art_stops_iff (L := 10) (by decide) _).mpr le_rfl

end SidleBaselines.Art
