import SidleBaselines.Data.Index
import SidleBaselines.Kv.Codec

/-!
# The index wrappers

The micro benchmarks reach every index through a wrapper with the same members:
`insert`, `get` and `remove` over `Key<weight_t>` and `Value`. Masstree and Wormhole
store byte strings, SMART and PACTree words, and ART a set of keys. The indexes are
taken to be correct (`Data.MapIndex`, `Data.SetIndex`); what a program sees is then
decided by the wrappers, and they do not all behave as a finite map does:

* `ARTKV` stores the key alone and returns the memory it stands in as the value, and
  its `remove` does nothing;
* `Smart::remove` does nothing;
* `PACTreeKV::get` always reports success.

## What is proved

* `KvStore.results_eq_iff` — a relation kept by every operation reduces what a run
  returns to what its lookups return.
* `masstreeKV_results`, `wormholeKV_results` — these two are finite maps.
* `artKV_results`, `smart_results`, `pactreeKV_results` — when exactly the others are.
* `wrappers_agree` — all five return what a finite map does if and only if every
  lookup is of a present key whose value is what ART makes of the key.
-/

namespace SidleBaselines.Kv

open SidleBaselines.Data

/-! ### Values -/

/-- `Value`, with `VAL_LEN` words of padding. -/
@[ext] structure Value (n : ℕ) where
  /-- `std::array<int64_t, VAL_LEN> padding`. -/
  padding : Fin n → Int64
  /-- `int64_t val`. -/
  val : Int64

/-- The fields in the order of their addresses. -/
def Value.members (n : ℕ) : Value n ≃ (Fin n → Int64) × Int64 :=
  ⟨fun v => (v.padding, v.val), fun m => ⟨m.1, m.2⟩, fun _ => rfl, fun _ => rfl⟩

instance (n : ℕ) : Packed (Value n) := .ofEquiv (Value.members n)

/-- `operator==` looks at `val` only. -/
def Value.eq {n : ℕ} (l r : Value n) : Bool := decide (l.val = r.val)

/-! ### What a wrapper is -/

/-- What memory that nobody has written holds during a call of `get`. -/
structure Memory where
  /-- The bytes behind a key that ART stores. -/
  behind : ℕ → UInt8
  /-- A local variable without an initial value. -/
  word : UInt64

/-- A wrapper: its members over the states of its index. -/
structure KvStore (n : ℕ) where
  /-- The states of the index. -/
  State : Type
  /-- The index a new wrapper has. -/
  empty : State
  /-- `insert(k, v)`. -/
  insert : Key → Value n → State → Bool × State
  /-- `get(k, v)`: whether it found the key, and `v` afterwards. -/
  get : Memory → Key → Value n → State → Bool × Value n
  /-- `remove(k)`. -/
  remove : Key → State → Bool × State

/-- A call of a program to its wrapper. -/
inductive Op (n : ℕ) where
  /-- `insert(k, v)`. -/
  | insert (k : Key) (v : Value n)
  /-- `get(k, v)`, with `v` as it is before. -/
  | get (k : Key) (v : Value n) (mem : Memory)
  /-- `remove(k)`. -/
  | remove (k : Key)

/-- What a `get` that returned `(found, v)` tells its caller, values compared as `Value` compares them. -/
def outcome {n : ℕ} (r : Bool × Value n) : Option Int64 := if r.1 then some r.2.val else none

/-- The results of the calls of `get` in a run, in order. -/
def KvStore.results {n : ℕ} (S : KvStore n) : List (Op n) → S.State → List (Option Int64)
  | [], _ => []
  | .insert k v :: ops, s => S.results ops (S.insert k v s).2
  | .get k v mem :: ops, s => outcome (S.get mem k v s) :: S.results ops s
  | .remove k :: ops, s => S.results ops (S.remove k s).2

/-! ### The finite map -/

/-- The contents of a finite map. -/
abbrev Content (n : ℕ) := Key → Option (Value n)

/-- What a finite map returns to the calls of `get` of a run. -/
def mapResults {n : ℕ} : List (Op n) → Content n → List (Option Int64)
  | [], _ => []
  | .insert k v :: ops, m => mapResults ops (Function.update m k (some v))
  | .get k _ _ :: ops, m => (m k).map Value.val :: mapResults ops m
  | .remove k :: ops, m => mapResults ops (Function.update m k none)

/-- `P` holds at every `get` of a run, of the contents `m` of a finite map and those `kept` that it
would have if nothing were ever removed. -/
def AtGets {n : ℕ} (P : Content n → Content n → Key → Memory → Prop) :
    List (Op n) → Content n → Content n → Prop
  | [], _, _ => True
  | .insert k v :: ops, m, kept => AtGets P ops (Function.update m k (some v)) (Function.update kept k (some v))
  | .get k _ mem :: ops, m, kept => P m kept k mem ∧ AtGets P ops m kept
  | .remove k :: ops, m, kept => AtGets P ops (Function.update m k none) kept

/-! ### The wrappers -/

section wrappers

variable {n : ℕ}

/-- `key_size`. -/
def keySize : ℕ := Packed.size Key

/-- `Key::to_wh_key`. -/
def Key.toWhKey (k : Key) : Key := KeyClass.toStrKey k

/-- `MasstreeKV`. -/
@[reducible] def masstreeKV (I : MapIndex (List UInt8) (List UInt8)) : KvStore n where
  State := I.State
  empty := I.empty
  insert k v s := (true, I.put s (keyBytes k) (Packed.toBytes v))
  get _ k v s :=
    match I.find s (keyBytes k) with
    | some val => (true, Packed.ofBytes val)
    | none => (false, v)
  remove k s := (true, I.del s (keyBytes k))

/-- `WormholeKV`: a record holds the key and behind it, from `key_size` on, the value. -/
@[reducible] def wormholeKV (I : MapIndex (List UInt8) (List UInt8)) : KvStore n where
  State := I.State
  empty := I.empty
  insert k v s :=
    let kv := Packed.toBytes k.toWhKey ++ Packed.toBytes v
    (true, I.put s (kv.take keySize) kv)
  get _ k v s :=
    match I.find s (Packed.toBytes k.toWhKey) with
    | some kv => (true, Packed.ofBytes (kv.drop keySize))
    | none => (false, v)
  remove k s := (true, I.del s (Packed.toBytes k.toWhKey))

/-- The `Value` that stands in memory where ART stores a key. -/
def artValue (mem : Memory) (key : List UInt8) : Value n :=
  Packed.ofBytes ((key ++ (List.range (Packed.size (Value n))).map mem.behind).take (Packed.size (Value n)))

/-- `ARTKV`. -/
@[reducible] def artKV (I : SetIndex (List UInt8)) : KvStore n where
  State := I.State
  empty := I.empty
  insert k _ s := (true, I.put s (keyBytes k))
  get mem k v s :=
    match I.get s (keyBytes k) with
    | some key => (true, artValue mem key)
    | none => (false, v)
  remove _ s := (false, s)

/-- `SMART::int2key`: eight bytes, most significant first. -/
def int2key (key : UInt64) : List UInt8 :=
  (List.range' 1 8).map fun i => UInt8.ofNat ((key.toNat >>> ((8 - i) * 8)) &&& (1 <<< 8 - 1))

/-- `Smart`. -/
@[reducible] def smart (I : MapIndex (List UInt8) UInt64) : KvStore n where
  State := I.State
  empty := I.empty
  insert k v s := (true, I.put s (int2key k.key) v.val.toUInt64)
  get mem k v s :=
    match I.find s (int2key k.key) with
    | some value => (true, { v with val := value.toInt64 })
    | none => (false, { v with val := mem.word.toInt64 })
  remove _ s := (false, s)

/-- `PACTreeKV`: `pactree::lookup` of an absent key returns a variable it has not set. -/
@[reducible] def pactreeKV (I : MapIndex UInt64 UInt64) : KvStore n where
  State := I.State
  empty := I.empty
  insert k v s := (true, I.put s k.key v.val.toUInt64)
  get mem k v s := (true, { v with val := ((I.find s k.key).getD mem.word).toInt64 })
  remove k s := (true, I.del s k.key)

end wrappers

/-! ### Runs -/

section

variable {n : ℕ}

/-- Nothing removed: what the finite map holds is among what was kept. -/
def Within (m kept : Content n) : Prop := ∀ k v, m k = some v → kept k = some v

theorem Within.insert {m kept : Content n} (h : Within m kept) (k : Key) (v : Value n) :
    Within (Function.update m k (some v)) (Function.update kept k (some v)) := by
  intro k' v' hv
  rcases eq_or_ne k' k with rfl | hk
  · rwa [Function.update_self] at hv ⊢
  · rw [Function.update_of_ne hk] at hv ⊢
    exact h k' v' hv

theorem Within.remove {m kept : Content n} (h : Within m kept) (k : Key) :
    Within (Function.update m k none) kept := by
  intro k' v' hv
  rcases eq_or_ne k' k with rfl | hk
  · rw [Function.update_self] at hv
    cases hv
  · rw [Function.update_of_ne hk] at hv
    exact h k' v' hv

/-- **Runs by simulation**: if a relation between wrapper and map is kept by `insert` and `remove`, and
under it a `get` returns what the map holds exactly if `P`, then all of a run does exactly if `P` holds at
every `get`. -/
theorem KvStore.results_eq_iff (S : KvStore n) (P : Content n → Content n → Key → Memory → Prop)
    (R : S.State → Content n → Content n → Prop)
    (hinsert : ∀ {s m kept} k v, R s m kept →
      R (S.insert k v s).2 (Function.update m k (some v)) (Function.update kept k (some v)))
    (hremove : ∀ {s m kept} k, R s m kept → R (S.remove k s).2 (Function.update m k none) kept)
    (hget : ∀ {s m kept} mem k v, R s m kept → (outcome (S.get mem k v s) = (m k).map Value.val ↔ P m kept k mem))
    {ops : List (Op n)} {s : S.State} {m kept : Content n} (h : R s m kept) :
    S.results ops s = mapResults ops m ↔ AtGets P ops m kept := by
  induction ops generalizing s m kept with
  | nil => exact iff_of_true rfl trivial
  | cons op ops ih =>
    cases op with
    | insert k v => exact ih (hinsert k v h)
    | get k v mem =>
      rw [KvStore.results, mapResults, List.cons.injEq, hget mem k v h, ih h]
      rfl
    | remove k => exact ih (hremove k h)

theorem AtGets.of_forall {P : Content n → Content n → Key → Memory → Prop}
    (h : ∀ m kept k mem, P m kept k mem) {ops : List (Op n)} {m kept : Content n} : AtGets P ops m kept := by
  induction ops generalizing m kept with
  | nil => trivial
  | cons op ops ih =>
    cases op with
    | insert k v => exact ih
    | get k v mem => exact ⟨h m kept k mem, ih⟩
    | remove k => exact ih

theorem AtGets.and {P Q : Content n → Content n → Key → Memory → Prop} {ops : List (Op n)}
    {m kept : Content n} :
    AtGets P ops m kept ∧ AtGets Q ops m kept ↔
      AtGets (fun m kept k mem => P m kept k mem ∧ Q m kept k mem) ops m kept := by
  induction ops generalizing m kept with
  | nil => exact iff_of_true ⟨trivial, trivial⟩ trivial
  | cons op ops ih =>
    cases op with
    | insert k v => exact ih
    | get k v mem =>
      unfold AtGets
      rw [← ih]
      exact and_and_and_comm
    | remove k => exact ih

theorem AtGets.congr {P Q : Content n → Content n → Key → Memory → Prop}
    (hPQ : ∀ {m kept}, Within m kept → ∀ k mem, P m kept k mem ↔ Q m kept k mem) {ops : List (Op n)}
    {m kept : Content n} (h : Within m kept) : AtGets P ops m kept ↔ AtGets Q ops m kept := by
  induction ops generalizing m kept with
  | nil => exact Iff.rfl
  | cons op ops ih =>
    cases op with
    | insert k v => exact ih (h.insert k v)
    | get k v mem => exact and_congr (hPQ h k mem) (ih h)
    | remove k => exact ih (h.remove k)

/-- `f` finds under every key, encoded, what `φ` makes of the value the map holds. -/
def Stores {A B : Type} (enc : Key → A) (φ : Key → Value n → B) (f : A → Option B) (m : Content n) : Prop :=
  ∀ k, f (enc k) = (m k).map (φ k)

/-- One key written over. -/
theorem Stores.update {A B : Type} {enc : Key → A} {φ : Key → Value n → B} {f f' : A → Option B}
    {m : Content n}
    (h : Stores enc φ f m) (henc : ∀ {a b}, enc a = enc b → a = b) (k : Key) (v : Option (Value n))
    (hself : f' (enc k) = v.map (φ k)) (hne : ∀ {a}, a ≠ enc k → f' a = f a) :
    Stores enc φ f' (Function.update m k v) := by
  intro k'
  rcases eq_or_ne k' k with rfl | hk
  · rw [Function.update_self, hself]
  · rw [Function.update_of_ne hk, hne fun he => hk (henc he), h k']

/-! ### Masstree and Wormhole -/

/-- The empty map. -/
abbrev nothing : Content n := fun _ => none

/-- **`MasstreeKV` is a finite map.** -/
theorem masstreeKV_results (I : MapIndex (List UInt8) (List UInt8)) (ops : List (Op n)) :
    (masstreeKV I).results ops (masstreeKV I).empty = mapResults ops nothing := by
  refine (KvStore.results_eq_iff (masstreeKV I) (fun _ _ _ _ => True)
    (fun s m _ => Stores keyBytes (fun _ v => Packed.toBytes v) (I.find s) m) ?_ ?_ ?_ ?_).mpr
    (AtGets.of_forall fun _ _ _ _ => trivial : AtGets _ ops nothing nothing)
  · exact fun k v h => h.update keyBytes_inj.mp k (some v) (I.find_put_self _ _ _) (I.find_put_ne _ _ _)
  · exact fun k h => h.update keyBytes_inj.mp k none (I.find_del_self _ _) (I.find_del_ne _ _)
  · intro s m _ mem k v h
    simp only [outcome, h k]
    cases m k with
    | none => exact iff_of_true rfl trivial
    | some w => exact iff_of_true (congrArg (fun u : Value n => some u.val) (Packed.ofBytes_toBytes w)) trivial
  · exact fun k => I.find_empty _

/-- **`WormholeKV` is a finite map.** -/
theorem wormholeKV_results (I : MapIndex (List UInt8) (List UInt8)) (ops : List (Op n)) :
    (wormholeKV I).results ops (wormholeKV I).empty = mapResults ops nothing := by
  have hlen (k : Key) : (keyBytes k).length = keySize := length_keyBytes k
  refine (KvStore.results_eq_iff (wormholeKV I) (fun _ _ _ _ => True)
    (fun s m _ => Stores keyBytes (fun k v => keyBytes k ++ Packed.toBytes v) (I.find s) m) ?_ ?_ ?_ ?_).mpr
    (AtGets.of_forall fun _ _ _ _ => trivial : AtGets _ ops nothing nothing)
  · intro s m _ k v h
    have htake : (keyBytes k ++ Packed.toBytes v).take keySize = keyBytes k := List.take_left' (hlen k)
    refine h.update keyBytes_inj.mp k (some v) ?_ fun hne => ?_
    · exact (congrArg (I.find _) htake.symm).trans (I.find_put_self _ _ _)
    · exact I.find_put_ne _ _ _ (hne.trans_eq htake.symm)
  · exact fun k h => h.update keyBytes_inj.mp k none (I.find_del_self _ _) (I.find_del_ne _ _)
  · intro s m _ mem k v h
    have hk : I.find s (Packed.toBytes k.toWhKey) = (m k).map fun v => keyBytes k ++ Packed.toBytes v := h k
    simp only [outcome, hk]
    cases m k with
    | none => exact iff_of_true rfl trivial
    | some w =>
      have hval : Packed.ofBytes ((keyBytes k ++ Packed.toBytes w).drop keySize) = w := by
        rw [List.drop_left' (hlen k), Packed.ofBytes_toBytes]
      exact iff_of_true (congrArg (fun u : Value n => some u.val) hval) trivial
  · exact fun k => I.find_empty _

/-! ### ART -/

/-- **`ARTKV` is a finite map exactly where** no key is looked up that was inserted and then removed, and a
value looked up is what stands in memory at the key. -/
theorem artKV_results (I : SetIndex (List UInt8)) (ops : List (Op n)) :
    (artKV I).results ops (artKV I).empty = mapResults ops nothing ↔
      AtGets (fun m kept k mem => (kept k).map (fun _ => (artValue mem (keyBytes k) : Value n).val) = (m k).map Value.val)
        ops nothing nothing := by
  refine KvStore.results_eq_iff (artKV I) _
    (fun s _ kept => Stores keyBytes (fun k _ => keyBytes k) (I.get s) kept) ?_ ?_ ?_ ?_
  · exact fun k v h => h.update keyBytes_inj.mp k (some v) (I.get_put_self _ _) (I.get_put_ne _ _)
  · exact fun k h => h
  · intro s m kept mem k v h
    simp only [outcome, h k]
    cases kept k with
    | none => exact Iff.rfl
    | some w => exact Iff.rfl
  · exact fun k => I.get_empty _

/-! ### SMART -/

/-- The bytes of `int2key` are those of the number, most significant first. -/
theorem int2key_eq (x : UInt64) : int2key x = (leBytes 8 x.toNat).reverse := by
  have hbyte (y : ℕ) : UInt8.ofNat (y &&& (1 <<< 8 - 1)) = UInt8.ofNat y := by
    apply UInt8.toNat_inj.mp
    rw [UInt8.toNat_ofNat', UInt8.toNat_ofNat', Nat.one_shiftLeft, Nat.and_two_pow_sub_one_eq_mod,
      Nat.mod_mod]
  simp only [int2key, hbyte, List.range', List.map_cons, List.map_nil, leBytes, List.reverse_cons,
    List.reverse_nil, List.nil_append, List.cons_append, Nat.shiftRight_eq_div_pow, Nat.div_div_eq_div_mul,
    Nat.reduceAdd, Nat.reduceSub, Nat.reduceMul, Nat.reducePow, Nat.div_one]

theorem int2key_inj {a b : Key} (h : int2key a.key = int2key b.key) : a = b := by
  rw [int2key_eq, int2key_eq, List.reverse_inj] at h
  have hnat := congrArg leNat h
  rw [leNat_leBytes a.key.toNat_lt, leNat_leBytes b.key.toNat_lt] at hnat
  exact Key.ext (UInt64.toNat_inj.mp hnat)

/-- **`Smart` is a finite map exactly where** no key is looked up that was inserted and then removed. -/
theorem smart_results (I : MapIndex (List UInt8) UInt64) (ops : List (Op n)) :
    (smart I).results ops (smart I).empty = mapResults ops nothing ↔
      AtGets (fun m kept k _ => (kept k).map Value.val = (m k).map Value.val) ops nothing nothing := by
  refine KvStore.results_eq_iff (smart I) _
    (fun s _ kept => Stores (fun k => int2key k.key) (fun _ v => v.val.toUInt64) (I.find s) kept) ?_ ?_ ?_ ?_
  · exact fun k v h => h.update int2key_inj k (some v) (I.find_put_self _ _ _) (I.find_put_ne _ _ _)
  · exact fun k h => h
  · intro s m kept mem k v h
    have hk : I.find s (int2key k.key) = (kept k).map fun v => v.val.toUInt64 := h k
    simp only [outcome, hk]
    cases kept k with
    | none => exact Iff.rfl
    | some w => exact Iff.rfl
  · exact fun k => I.find_empty _

/-! ### PACTree -/

/-- **`PACTreeKV` is a finite map exactly where** every key looked up is present. -/
theorem pactreeKV_results (I : MapIndex UInt64 UInt64) (ops : List (Op n)) :
    (pactreeKV I).results ops (pactreeKV I).empty = mapResults ops nothing ↔
      AtGets (fun m _ k _ => (m k).isSome) ops nothing nothing := by
  refine KvStore.results_eq_iff (pactreeKV I) _
    (fun s m _ => Stores Key.key (fun _ v => v.val.toUInt64) (I.find s) m) ?_ ?_ ?_ ?_
  · exact fun k v h => h.update Key.ext k (some v) (I.find_put_self _ _ _) (I.find_put_ne _ _ _)
  · exact fun k h => h.update Key.ext k none (I.find_del_self _ _) (I.find_del_ne _ _)
  · intro s m _ mem k v h
    simp only [outcome, h k]
    cases m k with
    | none => exact iff_of_false (Option.some_ne_none _) Bool.false_ne_true
    | some w => exact iff_of_true rfl rfl
  · exact fun k => I.find_empty _

/-! ### All wrappers -/

/-- **The wrappers are interchangeable exactly** as long as every key looked up is present, with the value
that stands in memory where ART stores the key. -/
theorem wrappers_agree (masstree wormhole : MapIndex (List UInt8) (List UInt8)) (art : SetIndex (List UInt8))
    (smartTree : MapIndex (List UInt8) UInt64) (pactree : MapIndex UInt64 UInt64) (ops : List (Op n)) :
    ((masstreeKV masstree).results ops (masstreeKV masstree).empty = mapResults ops nothing ∧
      (wormholeKV wormhole).results ops (wormholeKV wormhole).empty = mapResults ops nothing ∧
      (artKV art).results ops (artKV art).empty = mapResults ops nothing ∧
      (smart smartTree).results ops (smart smartTree).empty = mapResults ops nothing ∧
      (pactreeKV pactree).results ops (pactreeKV pactree).empty = mapResults ops nothing) ↔
    AtGets (fun m _ k mem => ∃ v, m k = some v ∧ v.val = (artValue mem (keyBytes k) : Value n).val)
      ops nothing nothing := by
  rw [artKV_results, smart_results, pactreeKV_results, AtGets.and, AtGets.and,
    and_iff_right (masstreeKV_results masstree ops), and_iff_right (wormholeKV_results wormhole ops)]
  refine AtGets.congr (fun {m kept} hwithin k mem => ?_) fun _ _ h => h
  constructor
  · rintro ⟨hart, -, hpac⟩
    obtain ⟨v, hv⟩ := Option.isSome_iff_exists.mp hpac
    rw [hv, hwithin k v hv] at hart
    exact ⟨v, hv, (Option.some.inj hart).symm⟩
  · rintro ⟨v, hv, hval⟩
    rw [hv, hwithin k v hv]
    exact ⟨congrArg some hval.symm, rfl, rfl⟩

/-- Without padding ART makes the reversed bytes of the key the value. -/
theorem artValue_eq (mem : Memory) (k : Key) :
    Packed.toBytes (artValue mem (keyBytes k) : Value 0).val = keyBytes k := by
  have hread : (keyBytes k ++ (List.range 8).map mem.behind).take 8 = keyBytes k :=
    List.take_left' (length_keyBytes k)
  have hbytes : Packed.toBytes (artValue mem (keyBytes k) : Value 0) = keyBytes k :=
    (congrArg (fun l => Packed.toBytes (Packed.ofBytes l : Value 0)) hread).trans
      (Packed.toBytes_ofBytes _ (length_keyBytes k))
  exact hbytes

/-! ### A disagreement -/

/-- Key 1 is inserted, looked up, removed and looked up again. -/
def insertRemove : List (Op 0) :=
  let v : Value 0 := ⟨fun _ => 0, 5⟩
  let mem : Memory := ⟨fun _ => 0, 0⟩
  [.insert ⟨1⟩ v, .get ⟨1⟩ v mem, .remove ⟨1⟩, .get ⟨1⟩ v mem]

/-- A finite map finds 5 and then nothing. ART finds the bytes of the key, read backwards, both times; SMART
finds 5 both times, and PACTree reports a success the second time. -/
theorem wrappers_disagree :
    mapResults insertRemove nothing = [some 5, none] ∧
    (artKV (SetIndex.ofFun _)).results insertRemove (artKV (n := 0) (SetIndex.ofFun _)).empty =
      [some 72057594037927936, some 72057594037927936] ∧
    (smart (MapIndex.ofFun _ _)).results insertRemove (smart (n := 0) (MapIndex.ofFun _ _)).empty = [some 5, some 5] ∧
    (pactreeKV (MapIndex.ofFun _ _)).results insertRemove (pactreeKV (n := 0) (MapIndex.ofFun _ _)).empty =
      [some 5, some 0] := by
  decide

end

end SidleBaselines.Kv
