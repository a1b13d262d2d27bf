import SidleBaselines.Kv.KeyBuffer
import SidleBaselines.Kv.Wrappers

/-!
# Scans

`scan(k, n, result)` of the two wrappers over ordered indexes. Wormhole is walked by an
iterator, with a counter in the wrapper. Masstree is asked by a JSON array
`[0, 0, k, n]`, in which the answer comes back from position 2 on, key, value, key,
value: the wrapper goes through it in steps of two, and the counting is done in
Masstree's scanner, which keeps in an `int` how many entries are left to deliver. It
decrements first and stops at zero, so of an `n` of 64 bits only the low 32 count. The keys
it delivers are copied into the key buffer of the query, which has to have room for them.

## What is proved

* `visitValues_eq`, `collect_eq` — the two loops of the Masstree path.
* `scans_correct` — both scans return the first `n` of these entries exactly if the
  scanner's `int` does not cut the scan short, and the query has room for their keys.
-/

namespace SidleBaselines.Kv

open SidleBaselines.Data

/-! ### Masstree -/

section masstree

/-- An element of a JSON array. -/
inductive Json where
  /-- A number. -/
  | num (x : UInt64)
  /-- A byte string. -/
  | str (s : List UInt8)

/-- `as_s()`. -/
def Json.asS : Json → List UInt8
  | .str s => s
  | .num _ => []

/-- `as_i()`. -/
def Json.asI : Json → Int64
  | .num x => x.toInt64
  | .str _ => 0

/-- `query_json_scanner::visit_value` for one entry after the other, until it returns false: `nleft` is
`nleft_`, `q` the query, `req` the array. -/
def visitValues : List (List UInt8 × List UInt8) → Int32 → Query → List Json → Option (List Json × Query)
  | [], _, q, req => some (req, q)
  | (key, value) :: entries, nleft, q, req => do
    let q ← q.makeRoom (Int32.ofNat key.length) 22
    let q := { q with scankeypos := q.scankeypos + Int32.ofNat key.length }
    let req := req ++ [.str key, .str value]
    let nleft := nleft - 1
    if nleft ≠ 0 then visitValues entries nleft q req else some (req, q)

variable (ndebug : Bool) (I : OrderedIndex (List UInt8) (List UInt8))

/-- `query::run_scan`: nothing if the assertion fails (with `NDEBUG` it is not compiled), or the scan
never ends. -/
def runScan (s : I.State) (req : List Json) (q : Query) : Option (List Json × Query) :=
  let count := (req.getD 3 (.num 0)).asI
  if ndebug || decide (count > 0) then
    let firstkey := (req.getD 2 (.num 0)).asS
    visitValues (I.iterate s firstkey) count.toInt32 { q with scankeypos := 0 } (req.take 2)
  else none

/-- The queries that earlier scans leave, of any index and any keys; `scankeypos_` is not set before. -/
inductive Query.Reached : Query → Prop
  /-- Before any scan. -/
  | new (scankeypos : Int32) : Reached ⟨0, scankeypos⟩
  /-- After a scan. -/
  | scan {ndebug : Bool} {I : OrderedIndex (List UInt8) (List UInt8)} {s : I.State} {req req' : List Json}
      {q q' : Query} (h : Reached q) (hs : runScan ndebug I s req q = some (req', q')) : Reached q'

/-- A pair of adjacent strings of the array, as a key and a value. -/
def decode {n : ℕ} (key value : List UInt8) : Key × Value n :=
  (KeyClass.toNormalKey (Packed.ofBytes key : Key), Packed.ofBytes value)

/-- The loop over the array, from position `i` on. -/
def collect {n : ℕ} (req : List Json) (i : ℕ) (result : List (Key × Value n)) : List (Key × Value n) :=
  if i < req.length then
    collect req (i + 2) (result ++ [decode (req.getD i (.num 0)).asS (req.getD (i + 1) (.num 0)).asS])
  else result
termination_by req.length - i

/-- `MasstreeKV::scan`: the number returned and `result` afterwards, and the query. -/
def masstreeScan {n : ℕ} (s : I.State) (kStart : Key) (limit : UInt64) (result : List (Key × Value n))
    (q : Query) : Option ((ℕ × List (Key × Value n)) × Query) :=
  let req := [.num 0, .num 0, .str (keyBytes kStart), .num limit]
  (runScan ndebug I s req q).map fun (req, q) =>
    let result := collect req 2 result
    ((result.length, result), q)

end masstree

/-! ### Wormhole -/

section wormhole

variable {n : ℕ}

/-- The loop over the iterator: `kv` is the record `res->kv`. -/
def iterNext (limit : ℕ) : List (List UInt8 × List UInt8) → ℕ → List (Key × Value n) → List (Key × Value n)
  | [], _, result => result
  | (_, kv) :: entries, cnt, result =>
    if cnt < limit then iterNext limit entries (cnt + 1) (result ++ [decode (kv.take keySize) (kv.drop keySize)])
    else result

/-- `WormholeKV::scan`: the number returned and `result` afterwards. -/
def wormholeScan (I : OrderedIndex (List UInt8) (List UInt8)) (s : I.State) (kStart : Key) (limit : UInt64)
    (_result : List (Key × Value n)) : ℕ × List (Key × Value n) :=
  let result := iterNext limit.toNat (I.iterate s (Packed.toBytes kStart.toWhKey)) 0 []
  (result.length, result)

end wormhole

/-! ### The content of a store -/

section

variable {n : ℕ}

/-- A wrapper after some insertions. -/
def KvStore.load (S : KvStore n) (inserts : List (Key × Value n)) : S.State :=
  inserts.foldl (fun s e => (S.insert e.1 e.2 s).2) S.empty

/-- The finite map after some insertions. -/
def contentOf (inserts : List (Key × Value n)) : Content n :=
  inserts.foldl (fun m e => Function.update m e.1 (some e.2)) nothing

/-- The entries of a finite map from a key on, in ascending numeric order. -/
structure EntriesFrom (m : Content n) (start : Key) (entries : List (Key × Value n)) : Prop where
  /-- In ascending order, each key once. -/
  ascending : entries.Pairwise fun e f => e.1.key.toNat < f.1.key.toNat
  /-- Those stored with a key numerically at or above `start`. -/
  mem_iff : ∀ k v, (k, v) ∈ entries ↔ m k = some v ∧ start.key.toNat ≤ k.key.toNat

/-- There is one such list. -/
theorem EntriesFrom.unique {m : Content n} {start : Key} {l r : List (Key × Value n)}
    (hl : EntriesFrom m start l) (hr : EntriesFrom m start r) : l = r := by
  have : Std.Irrefl fun e f : Key × Value n => e.1.key.toNat < f.1.key.toNat := ⟨fun _ => lt_irrefl _⟩
  have : Std.Antisymm fun e f : Key × Value n => e.1.key.toNat < f.1.key.toNat :=
    ⟨fun _ _ h h' => absurd h' (lt_asymm h)⟩
  exact hl.ascending.eq_of_mem_iff hr.ascending fun e => (hl.mem_iff e.1 e.2).trans (hr.mem_iff e.1 e.2).symm

/-- `f` holds, under encoded keys, the encoded values of `m` and nothing else. -/
def Holds (enc : Key → List UInt8) (φ : Key → Value n → List UInt8) (f : List UInt8 → Option (List UInt8))
    (m : Content n) : Prop :=
  ∀ a b, f a = some b ↔ ∃ k v, m k = some v ∧ a = enc k ∧ b = φ k v

theorem Holds.put {enc : Key → List UInt8} {φ : Key → Value n → List UInt8}
    {f f' : List UInt8 → Option (List UInt8)}
    {m : Content n} (h : Holds enc φ f m) (henc : ∀ {a b}, enc a = enc b → a = b) (k : Key) (v : Value n)
    (hself : f' (enc k) = some (φ k v)) (hne : ∀ {a}, a ≠ enc k → f' a = f a) :
    Holds enc φ f' (Function.update m k (some v)) := by
  intro a b
  rcases eq_or_ne a (enc k) with rfl | ha
  · rw [hself, Option.some.injEq]
    constructor
    · rintro rfl
      exact ⟨k, v, Function.update_self _ _ _, rfl, rfl⟩
    · rintro ⟨k', v', hm, hk, rfl⟩
      obtain rfl := henc hk
      rw [Function.update_self, Option.some.injEq] at hm
      rw [hm]
  · rw [hne ha, h a b]
    have hother (k' : Key) (hk : a = enc k') : Function.update m k (some v) k' = m k' :=
      Function.update_of_ne (fun he => ha (hk.trans (congrArg enc he))) _ _
    constructor
    · rintro ⟨k', v', hm, hk, hb⟩
      exact ⟨k', v', (hother k' hk).trans hm, hk, hb⟩
    · rintro ⟨k', v', hm, hk, hb⟩
      exact ⟨k', v', (hother k' hk).symm.trans hm, hk, hb⟩

/-- **What an index iterates over**: the entries of the finite map it holds, in numeric order. -/
theorem iterate_eq (I : OrderedIndex (List UInt8) (List UInt8)) {φ : Key → Value n → List UInt8} {s : I.State}
    {m : Content n} (h : Holds keyBytes φ (I.find s) m) (hφ : ∀ k {v w}, φ k v = φ k w → v = w)
    (start : Key) :
    ∃ entries, EntriesFrom m start entries ∧
      I.iterate s (keyBytes start) = entries.map fun e => (keyBytes e.1, φ e.1 e.2) := by
  have hrange : I.iterate s (keyBytes start) ∈
      Set.range (List.map fun e : Key × Value n => (keyBytes e.1, φ e.1 e.2)) := by
    rw [Set.range_list_map]
    intro e he
    obtain ⟨k, v, -, hk, hv⟩ := (h e.1 e.2).mp ((I.mem_iterate s (keyBytes start) e.1 e.2).mp he).1
    exact ⟨(k, v), Prod.ext hk.symm hv.symm⟩
  obtain ⟨entries, hentries⟩ := hrange
  refine ⟨entries, ⟨?_, fun k v => ?_⟩, hentries.symm⟩
  · have hasc := I.iterate_ascending s (keyBytes start)
    rw [← hentries, List.pairwise_map] at hasc
    exact hasc.imp fun hlt => keyBytes_lt_iff.mp hlt
  · have hle : keyBytes start ≤ keyBytes k ↔ start.key.toNat ≤ k.key.toNat := by
      rw [← not_lt, keyBytes_lt_iff, not_lt]
    have hmem : (k, v) ∈ entries ↔ (keyBytes k, φ k v) ∈ I.iterate s (keyBytes start) := by
      rw [← hentries, List.mem_map]
      constructor
      · exact fun he => ⟨(k, v), he, rfl⟩
      · rintro ⟨⟨k', v'⟩, he, heq⟩
        obtain ⟨hk, hv⟩ := Prod.mk.injEq .. ▸ heq
        obtain rfl := keyBytes_inj.mp hk
        obtain rfl := hφ k' hv
        exact he
    rw [hmem, I.mem_iterate, hle, h]
    refine and_congr_left fun _ => ⟨?_, fun hm => ⟨k, v, hm, rfl, rfl⟩⟩
    rintro ⟨k', v', hm, hk, hv⟩
    obtain rfl := keyBytes_inj.mp hk
    rwa [hφ k hv]

/-! ### The loops -/

/-- How many entries the scanner delivers at most. -/
def quota (nleft : Int32) : ℕ := (nleft.toBitVec - 1).toNat + 1

theorem quota_last {nleft : Int32} (h : nleft - 1 = 0) : quota nleft = 1 := by
  have hbits : nleft.toBitVec - 1 = 0 := congrArg Int32.toBitVec h
  rw [quota, hbits]
  rfl

theorem quota_next {nleft : Int32} (h : nleft - 1 ≠ 0) : quota nleft = quota (nleft - 1) + 1 := by
  have hbits : nleft.toBitVec - 1 ≠ 0 := fun hz => h (Int32.toBitVec_inj.mp hz)
  have hone : (1 : Int32).toBitVec = 1#32 := rfl
  rw [quota, quota, Int32.toBitVec_sub, hone]
  bv_omega

/-- Two elements of the array for every entry. -/
def flatten (entries : List (List UInt8 × List UInt8)) : List Json :=
  entries.flatMap fun e => [.str e.1, .str e.2]

/-- **Masstree's answer**: as many entries as the quota allows, if there is room for them. -/
theorem visitValues_eq (entries : List (List UInt8 × List UInt8)) (hkeys : ∀ e ∈ entries, e.1.length = 8)
    (nleft : Int32) {q : Query} {j i : ℕ} (h : q.At j i) (req : List Json) :
    (visitValues entries nleft q req).map Prod.fst =
      if min (quota nleft) entries.length ≤ Query.room j i then
        some (req ++ flatten (entries.take (quota nleft)))
      else none := by
  induction entries generalizing nleft q j i req with
  | nil => simp [visitValues, flatten]
  | cons e entries ih =>
    have hkey : Int32.ofNat e.1.length = 8 := by
      rw [hkeys e List.mem_cons_self]
      rfl
    have hquota : 0 < quota nleft := Nat.succ_pos _
    rw [visitValues, hkey, List.length_cons]
    rcases Nat.eq_zero_or_pos (Query.room j i) with hroom | hroom
    · rw [h.makeRoom_none hroom, if_neg (by omega)]
      rfl
    · obtain ⟨q', j', i', hq', h', hi', hsame⟩ := h.makeRoom_some hroom
      have hnext : Query.room j' (i' + 1) = Query.room j i - 1 := hsame ▸ (Nat.sub_sub _ _ _).symm
      rw [hq', Option.bind_eq_bind, Option.bind_some]
      by_cases hn : nleft - 1 = 0
      · rw [if_neg (not_not.mpr hn), quota_last hn, if_pos (by omega)]
        rfl
      · have hiff : min (quota (nleft - 1) + 1) (entries.length + 1) ≤ Query.room j i ↔
            min (quota (nleft - 1)) entries.length ≤ Query.room j' (i' + 1) := by omega
        rw [if_pos hn, ih (fun e' he' => hkeys e' (List.mem_cons_of_mem _ he')) _ (h'.put hi'), quota_next hn,
          if_congr hiff rfl rfl, List.take_succ_cons, flatten, flatten, List.flatMap_cons, List.append_assoc]

/-- A scan leaves the buffer on some level. -/
theorem visitValues_grown {entries : List (List UInt8 × List UInt8)} {nleft : Int32} {q q' : Query}
    {req req' : List Json} (h : q.Grown) (hv : visitValues entries nleft q req = some (req', q')) :
    q'.Grown := by
  induction entries generalizing nleft q req with
  | nil =>
    obtain ⟨-, rfl⟩ := Prod.mk.inj (Option.some.inj hv)
    exact h
  | cons e entries ih =>
    obtain ⟨q₁, hroom, hrest⟩ := Option.bind_eq_some_iff.mp hv
    have h₁ : q₁.Grown := h.makeRoom hroom
    dsimp only at hrest
    split at hrest
    · exact ih (q := { q₁ with scankeypos := q₁.scankeypos + Int32.ofNat e.1.length }) h₁ hrest
    · obtain ⟨-, rfl⟩ := Prod.mk.inj (Option.some.inj hrest)
      exact h₁

theorem Query.Reached.grown {q : Query} (h : q.Reached) : q.Grown := by
  induction h with
  | new => exact ⟨0, Nat.zero_le _, rfl⟩
  | @scan ndebug I s req req' q q' _ hs ih =>
    rw [runScan] at hs
    split at hs
    · exact visitValues_grown (q := { q with scankeypos := 0 }) ih hs
    · cases hs

/-- **The wrapper's loop** goes through the pairs behind the first two elements. -/
theorem collect_eq (entries : List (List UInt8 × List UInt8)) (pre : List Json)
    (result : List (Key × Value n)) :
    collect (pre ++ flatten entries) pre.length result = result ++ entries.map fun e => decode e.1 e.2 := by
  induction entries generalizing pre result with
  | nil => rw [collect, flatten, List.flatMap_nil, List.append_nil, if_neg (lt_irrefl _), List.map_nil,
    List.append_nil]
  | cons e entries ih =>
    have hcons : pre ++ flatten (e :: entries) = (pre ++ [.str e.1, .str e.2]) ++ flatten entries := by
      rw [flatten, List.flatMap_cons, List.append_assoc]
      rfl
    have hlen : (pre ++ [Json.str e.1, .str e.2]).length = pre.length + 2 := List.length_append
    have hkey : (pre ++ flatten (e :: entries)).getD pre.length (.num 0) = .str e.1 := by
      rw [List.getD_append_right _ _ _ _ le_rfl, Nat.sub_self]
      rfl
    have hvalue : (pre ++ flatten (e :: entries)).getD (pre.length + 1) (.num 0) = .str e.2 := by
      rw [List.getD_append_right _ _ _ _ (Nat.le_add_right _ 1), Nat.add_sub_cancel_left]
      rfl
    rw [collect, if_pos (by rw [hcons, List.length_append, hlen]; omega), hkey, hvalue, hcons, ← hlen, ih,
      List.map_cons, List.append_assoc]
    rfl

/-- **The iterator's loop** stops at the counter or at the end. -/
theorem iterNext_eq (limit : ℕ) (entries : List (List UInt8 × List UInt8)) (cnt : ℕ)
    (result : List (Key × Value n)) :
    iterNext limit entries cnt result =
      result ++ (entries.take (limit - cnt)).map fun e => decode (e.2.take keySize) (e.2.drop keySize) := by
  induction entries generalizing cnt result with
  | nil => rw [iterNext, List.take_nil, List.map_nil, List.append_nil]
  | cons e entries ih =>
    rw [iterNext]
    by_cases h : cnt < limit
    · have hsub : limit - cnt = limit - (cnt + 1) + 1 := by omega
      rw [if_pos h, ih, hsub, List.take_succ_cons, List.map_cons, List.append_assoc]
      rfl
    · rw [if_neg h, Nat.sub_eq_zero_of_le (not_lt.mp h), List.take_zero, List.map_nil, List.append_nil]

/-! ### The scans -/

variable {inserts : List (Key × Value n)} {start : Key} {entries : List (Key × Value n)}

theorem KvStore.holds_load (S : KvStore n) {enc : Key → List UInt8} {φ : Key → Value n → List UInt8}
    (find : S.State → List UInt8 → Option (List UInt8)) (hempty : ∀ a, find S.empty a = none)
    (hinsert : ∀ {s m} k v, Holds enc φ (find s) m →
      Holds enc φ (find (S.insert k v s).2) (Function.update m k (some v)))
    (inserts : List (Key × Value n)) : Holds enc φ (find (S.load inserts)) (contentOf inserts) := by
  have hrun : ∀ (l : List (Key × Value n)) (s : S.State) (m : Content n), Holds enc φ (find s) m →
      Holds enc φ (find (l.foldl (fun s e => (S.insert e.1 e.2 s).2) s))
        (l.foldl (fun m e => Function.update m e.1 (some e.2)) m) := by
    intro l
    induction l with
    | nil => exact fun _ _ h => h
    | cons e l ih => exact fun s m h => ih _ _ (hinsert e.1 e.2 h)
  refine hrun inserts _ _ fun a b => iff_of_false ?_ ?_
  · rw [hempty]
    exact Option.some_ne_none b ∘ Eq.symm
  · rintro ⟨k, v, hm, -⟩
    cases hm

/-- What the scanner keeps of `n`. -/
theorem quota_limit {limit : UInt64} (h : 1 ≤ limit.toNat) :
    quota limit.toInt64.toInt32 = (limit.toNat - 1) % 2 ^ 32 + 1 := by
  have hbits : limit.toInt64.toInt32.toBitVec.toNat = limit.toNat % 2 ^ 32 := by
    rw [Int64.toBitVec_toInt32, BitVec.signExtend_eq_setWidth_of_le _ (by decide), BitVec.toNat_setWidth]
    rfl
  have hone : BitVec.toNat (1 : BitVec 32) = 1 := rfl
  rw [quota, BitVec.toNat_sub, hbits, hone]
  omega

/-- The assertion of `run_scan`. -/
theorem asI_pos_iff {limit : UInt64} (h : 1 ≤ limit.toNat) :
    (Json.num limit).asI > 0 ↔ limit.toNat < 2 ^ 63 := by
  have hlt := limit.toNat_lt
  have hint : limit.toInt64.toInt =
      if 2 * limit.toNat < 2 ^ 64 then (limit.toNat : ℤ) else (limit.toNat : ℤ) - ((2 ^ 64 : ℕ) : ℤ) :=
    BitVec.toInt_eq_toNat_cond limit.toBitVec
  rw [Json.asI, gt_iff_lt, Int64.lt_iff_toInt_lt, hint, Int64.toInt_zero]
  split <;> omega

/-- Encoded keys and values are decoded. -/
theorem decode_eq (k : Key) (v : Value n) : decode (keyBytes k) (Packed.toBytes v) = (k, v) := by
  rw [decode, keyBytes, Packed.ofBytes_toBytes, Packed.ofBytes_toBytes]
  exact congrArg (·, v) (Packed.reverse_reverse k)

/-- The request of a scan. -/
theorem runScan_eq (ndebug : Bool) (I : OrderedIndex (List UInt8) (List UInt8)) (s : I.State)
    (first : List UInt8) (hkeys : ∀ e ∈ I.iterate s first, e.1.length = 8) {limit : UInt64}
    (h : 1 ≤ limit.toNat) {q : Query} (hq : q.Grown) :
    (runScan ndebug I s [.num 0, .num 0, .str first, .num limit] q).map Prod.fst =
      if (ndebug = true ∨ limit.toNat < 2 ^ 63) ∧
          min ((limit.toNat - 1) % 2 ^ 32 + 1) (I.iterate s first).length ≤ q.keyRoom then
        some ([.num 0, .num 0] ++ flatten ((I.iterate s first).take ((limit.toNat - 1) % 2 ^ 32 + 1)))
      else none := by
  obtain ⟨j, hfront, hroom⟩ := hq.front
  have hvisit := visitValues_eq (I.iterate s first) hkeys limit.toInt64.toInt32 hfront [.num 0, .num 0]
  rw [quota_limit h, hroom] at hvisit
  have hassert : (ndebug || decide ((Json.num limit).asI > 0)) = true ↔ ndebug = true ∨ limit.toNat < 2 ^ 63 := by
    rw [Bool.or_eq_true, decide_eq_true_iff, asI_pos_iff h]
  have hscan : runScan ndebug I s [.num 0, .num 0, .str first, .num limit] q =
      if ndebug = true ∨ limit.toNat < 2 ^ 63 then
        visitValues (I.iterate s first) limit.toInt64.toInt32 { q with scankeypos := 0 } [.num 0, .num 0]
      else none := if_congr hassert rfl rfl
  rw [hscan]
  by_cases hc : ndebug = true ∨ limit.toNat < 2 ^ 63
  · rw [if_pos hc, hvisit, if_congr (and_iff_right hc).symm rfl rfl]
  · rw [if_neg hc, if_neg fun h => hc h.1]
    rfl

/-- **`MasstreeKV::scan`** returns as many of the entries as the scanner's quota allows, if there is room
for them. -/
theorem masstreeScan_eq (ndebug : Bool) (I : OrderedIndex (List UInt8) (List UInt8)) {limit : UInt64}
    (hlimit : 1 ≤ limit.toNat) {q : Query} (hq : q.Grown) (h : EntriesFrom (contentOf inserts) start entries) :
    (masstreeScan ndebug I ((masstreeKV I.toMapIndex).load inserts) start limit [] q).map Prod.fst =
      if (ndebug = true ∨ limit.toNat < 2 ^ 63) ∧
          min ((limit.toNat - 1) % 2 ^ 32 + 1) entries.length ≤ q.keyRoom then
        some (min ((limit.toNat - 1) % 2 ^ 32 + 1) entries.length, entries.take ((limit.toNat - 1) % 2 ^ 32 + 1))
      else none := by
  have hholds := (masstreeKV I.toMapIndex).holds_load I.find I.find_empty
    (fun k v hs => hs.put keyBytes_inj.mp k v (I.find_put_self _ _ _) (I.find_put_ne _ _ _)) inserts
  obtain ⟨entries', h', hiter⟩ := iterate_eq I hholds (fun _ _ _ => Packed.toBytes_inj.mp) start
  obtain rfl := h'.unique h
  have hkeys : ∀ e ∈ I.iterate ((masstreeKV I.toMapIndex).load inserts) (keyBytes start), e.1.length = 8 := by
    rw [hiter]
    intro e he
    obtain ⟨e', -, rfl⟩ := List.mem_map.mp he
    exact length_keyBytes e'.1
  have hlen : (I.iterate ((masstreeKV I.toMapIndex).load inserts) (keyBytes start)).length = entries'.length := by
    rw [hiter, List.length_map]
  have hcollect (m : ℕ) : collect ([.num 0, .num 0] ++ flatten ((entries'.map fun e =>
      (keyBytes e.1, Packed.toBytes e.2)).take m)) 2 [] = entries'.take m := by
    refine (collect_eq _ [.num 0, .num 0] []).trans ?_
    rw [List.nil_append, ← List.map_take, List.map_map]
    exact List.map_id'' (fun e => decode_eq e.1 e.2) _
  have hscan : (masstreeScan ndebug I ((masstreeKV I.toMapIndex).load inserts) start limit
        ([] : List (Key × Value n)) q).map Prod.fst =
      ((runScan ndebug I ((masstreeKV I.toMapIndex).load inserts)
        [.num 0, .num 0, .str (keyBytes start), .num limit] q).map Prod.fst).map
          fun req => ((collect (n := n) req 2 []).length, collect req 2 []) := by
    rw [masstreeScan, Option.map_map, Option.map_map]
    rfl
  rw [hscan, runScan_eq ndebug I _ _ hkeys hlimit hq, hlen, hiter]
  split
  · rw [Option.map_some, hcollect, List.length_take]
  · rfl

/-- **`WormholeKV::scan`** returns the first `n` entries. -/
theorem wormholeScan_eq (I : OrderedIndex (List UInt8) (List UInt8)) (limit : UInt64)
    (h : EntriesFrom (contentOf inserts) start entries) :
    wormholeScan I ((wormholeKV I.toMapIndex).load inserts) start limit [] =
      (min limit.toNat entries.length, entries.take limit.toNat) := by
  have hlen (k : Key) : (keyBytes k).length = keySize := length_keyBytes k
  have htake (k : Key) (v : Value n) : (keyBytes k ++ Packed.toBytes v).take keySize = keyBytes k :=
    List.take_left' (hlen k)
  have hdrop (k : Key) (v : Value n) : (keyBytes k ++ Packed.toBytes v).drop keySize = Packed.toBytes v :=
    List.drop_left' (hlen k)
  have hholds := (wormholeKV (n := n) I.toMapIndex).holds_load (φ := fun k v => keyBytes k ++ Packed.toBytes v)
    I.find I.find_empty (fun k v hs => hs.put keyBytes_inj.mp k v
      ((congrArg (I.find _) (htake k v).symm).trans (I.find_put_self _ _ _))
      fun hne => I.find_put_ne _ _ _ (hne.trans_eq (htake k v).symm)) inserts
  obtain ⟨entries', h', hiter⟩ := iterate_eq I hholds
    (fun k _ _ heq => Packed.toBytes_inj.mp (List.append_cancel_left heq)) start
  obtain rfl := h'.unique h
  have hloop : iterNext limit.toNat (I.iterate ((wormholeKV I.toMapIndex).load inserts) (keyBytes start)) 0 [] =
      entries'.take limit.toNat := by
    rw [iterNext_eq, List.nil_append, Nat.sub_zero, hiter, ← List.map_take, List.map_map]
    refine List.map_id'' (fun e => ?_) _
    rw [Function.comp_apply, htake, hdrop]
    exact decode_eq e.1 e.2
  refine (congrArg (fun result => (result.length, result)) hloop).trans ?_
  rw [List.length_take]

/-- **Both scans return the first `n` entries** in ascending numeric order from the start key on, exactly if
Masstree's `int` does not cut the scan short: `n` is at most `2 ^ 32`, or there are not more entries than its
low 32 bits ask for (and `n` is below `2 ^ 63` where the assertion is compiled); and the query, which earlier
scans have used, has room for the keys delivered. -/
theorem scans_correct (ndebug : Bool) (masstree wormhole : OrderedIndex (List UInt8) (List UInt8))
    (inserts : List (Key × Value n)) (start : Key) {limit : UInt64} (hlimit : 1 ≤ limit.toNat) {q : Query}
    (hq : q.Reached) :
    ∃ entries, EntriesFrom (contentOf inserts) start entries ∧
      (((masstreeScan ndebug masstree ((masstreeKV masstree.toMapIndex).load inserts) start limit [] q).map Prod.fst =
          some (min limit.toNat entries.length, entries.take limit.toNat) ∧
        wormholeScan wormhole ((wormholeKV wormhole.toMapIndex).load inserts) start limit [] =
          (min limit.toNat entries.length, entries.take limit.toNat)) ↔
      (ndebug = true ∨ limit.toNat < 2 ^ 63) ∧
        (limit.toNat ≤ 2 ^ 32 ∨ entries.length ≤ (limit.toNat - 1) % 2 ^ 32 + 1) ∧
          min limit.toNat entries.length ≤ q.keyRoom) := by
  have hholds := (masstreeKV masstree.toMapIndex).holds_load masstree.find masstree.find_empty
    (fun k v hs => hs.put keyBytes_inj.mp k v (masstree.find_put_self _ _ _) (masstree.find_put_ne _ _ _)) inserts
  obtain ⟨entries, h, -⟩ := iterate_eq masstree hholds (fun _ _ _ => Packed.toBytes_inj.mp) start
  refine ⟨entries, h, ?_⟩
  rw [masstreeScan_eq ndebug masstree hlimit hq.grown h, and_iff_left (wormholeScan_eq wormhole limit h)]
  -- where the low 32 bits do not cut the scan short, they deliver what `n` asks for
  have hsame (hcut : limit.toNat ≤ 2 ^ 32 ∨ entries.length ≤ (limit.toNat - 1) % 2 ^ 32 + 1) :
      min ((limit.toNat - 1) % 2 ^ 32 + 1) entries.length = min limit.toNat entries.length := by omega
  constructor
  · intro heq
    split at heq
    · next hc =>
      rw [Option.some.injEq, Prod.mk.injEq] at heq
      exact ⟨hc.1, by omega, heq.1 ▸ hc.2⟩
    · cases heq
  · rintro ⟨hassert, hcut, hroom⟩
    rw [hsame hcut, if_pos ⟨hassert, hroom⟩, List.take_eq_take_iff.mpr (hsame hcut)]

end

/-! ### A scan cut short -/

/-- Two keys. -/
def twoKeys : List (Key × Value 0) := [(⟨1⟩, ⟨fun _ => 0, 10⟩), (⟨2⟩, ⟨fun _ => 0, 20⟩)]

theorem twoKeys_entries : EntriesFrom (contentOf twoKeys) ⟨0⟩ twoKeys := by
  have hcontent (k : Key) : contentOf twoKeys k =
      if k = ⟨2⟩ then some ⟨fun _ => 0, 20⟩ else if k = ⟨1⟩ then some ⟨fun _ => 0, 10⟩ else none := by
    simp only [contentOf, twoKeys, List.foldl_cons, List.foldl_nil, Function.update_apply]
  refine ⟨by decide, fun k v => ?_⟩
  have hzero : (⟨0⟩ : Key).key.toNat ≤ k.key.toNat := Nat.zero_le _
  rw [hcontent, and_iff_left hzero, twoKeys, List.mem_cons, List.mem_singleton, Prod.mk.injEq, Prod.mk.injEq]
  split
  · rename_i hk
    subst hk
    simp [eq_comm]
  · split
    · rename_i hk
      subst hk
      simp [eq_comm]
    · simp_all

theorem scans_correct_one : ∃ entries, EntriesFrom (contentOf twoKeys) ⟨0⟩ entries ∧
    (((masstreeScan true (.ofTable _ _) ((masstreeKV (OrderedIndex.ofTable _ _).toMapIndex).load twoKeys) ⟨0⟩ 1 []
        ⟨0, 0⟩).map Prod.fst =
        some (min (1 : UInt64).toNat entries.length, entries.take (1 : UInt64).toNat) ∧
      wormholeScan (.ofTable _ _) ((wormholeKV (OrderedIndex.ofTable _ _).toMapIndex).load twoKeys) ⟨0⟩ 1 [] =
        (min (1 : UInt64).toNat entries.length, entries.take (1 : UInt64).toNat)) ↔
    (true = true ∨ (1 : UInt64).toNat < 2 ^ 63) ∧
      ((1 : UInt64).toNat ≤ 2 ^ 32 ∨ entries.length ≤ ((1 : UInt64).toNat - 1) % 2 ^ 32 + 1) ∧
        min (1 : UInt64).toNat entries.length ≤ (⟨0, 0⟩ : Query).keyRoom) :=
  scans_correct true (.ofTable _ _) (.ofTable _ _) twoKeys ⟨0⟩ (by decide) (.new 0)

/-- Asked for `2 ^ 32 + 1` entries from 0 on, Masstree returns one of the two, Wormhole both. -/
theorem scans_differ :
    (masstreeScan false (.ofTable _ _) ((masstreeKV (OrderedIndex.ofTable _ _).toMapIndex).load twoKeys) ⟨0⟩
        4294967297 [] ⟨0, 0⟩).map Prod.fst = some (1, twoKeys.take 1) ∧
    wormholeScan (.ofTable _ _) ((wormholeKV (OrderedIndex.ofTable _ _).toMapIndex).load twoKeys) ⟨0⟩ 4294967297 [] =
      (2, twoKeys) := by
  constructor
  · rw [masstreeScan_eq false _ (by decide) (Query.Reached.new 0).grown twoKeys_entries]
    rfl
  · rw [wormholeScan_eq _ _ twoKeys_entries]
    rfl

end SidleBaselines.Kv
