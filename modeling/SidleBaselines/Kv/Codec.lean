import SidleBaselines.Data.Bytes
import Mathlib.Data.Set.Operations

/-!
# The keys as bytes

The key classes of the two benchmarks (`Key<weight_t>` of the micro benchmarks
and ten keys of TPC-C) as they stand in memory on a little-endian machine. An
index keeps byte strings in `memcmp` order, so a wrapper hands it the reversed
bytes of the key (`to_str_key`) and reverses them again on the way out
(`to_normal_key`). All these structures are packed; the fields stand least
significant first, below them the bytes `dummy` that fill some keys up to eight.

The comparison operators read a key as a `uint64_t`, except for the twelve bytes
of `H_key`, which compares its fields, converted to `double`, one by one.

## What is proved

* `wordKey_codec` — a key compared as a word has an ordered codec if the word is ordered
  as the fields are.
* `HKey.smaller_iff` — the chain of comparisons of doubles is the order of the fields.
* `key_codecs` — for every key class the encodings, the operators and the fields
  order the keys in the same way.
-/

namespace SidleBaselines.Kv

open SidleBaselines.Data

/-! ### Key classes -/

/-- What a key class offers to the wrappers and to the tables. -/
class KeyClass (K : Type) extends Packed K where
  /-- `to_str_key`. -/
  toStrKey : K → K
  /-- `to_normal_key`. -/
  toNormalKey : K → K
  /-- `operator<`. -/
  lt : K → K → Bool
  /-- `operator>`. -/
  gt : K → K → Bool
  /-- `operator==`. -/
  eq : K → K → Bool

/-- The members most key classes share: the bytes are reversed, and a key is compared as the
`uint64_t` it is read as. -/
@[reducible] def wordKey (K : Type) [Packed K] : KeyClass K where
  toStrKey := Packed.reverse
  toNormalKey := Packed.reverse
  lt l r := decide (Packed.toNat l < Packed.toNat r)
  gt l r := decide (Packed.toNat l > Packed.toNat r)
  eq l r := decide (Packed.toNat l = Packed.toNat r)

/-- The bytes a wrapper hands to the index for a key. -/
def keyBytes {K : Type} [KeyClass K] (k : K) : List UInt8 := Packed.toBytes (KeyClass.toStrKey k)

/-! ### The layouts -/

/-- `Key<weight_t>` of the micro benchmarks. -/
@[ext] structure Key where
  /-- `uint64_t key`. -/
  key : UInt64
  deriving DecidableEq

/-- `W_key`. -/
structure WKey where
  /-- `uint64_t w_id`. -/
  wId : UInt64

/-- `D_key`. -/
structure DKey where
  /-- `uint8_t dummy[5]`. -/
  dummy : Fin 5 → UInt8
  /-- `uint8_t d_id`. -/
  dId : UInt8
  /-- `uint16_t d_w_id`. -/
  dWId : UInt16

/-- `OrderCidIndexKey`. -/
structure OrderCidIndexKey where
  /-- `uint32_t oc_o_id`. -/
  ocOId : UInt32
  /-- `uint16_t oc_c_id`. -/
  ocCId : UInt16
  /-- `uint8_t oc_d_id`. -/
  ocDId : UInt8
  /-- `uint8_t oc_w_id`. -/
  ocWId : UInt8

/-- `C_key`. -/
structure CKey where
  /-- `uint8_t dummy[3]`. -/
  dummy : Fin 3 → UInt8
  /-- `uint16_t c_id`. -/
  cId : UInt16
  /-- `uint8_t c_d_id`. -/
  cDId : UInt8
  /-- `uint16_t c_w_id`. -/
  cWId : UInt16

/-- `H_key`. -/
structure HKey where
  /-- `uint16_t h_c_id`. -/
  hCId : UInt16
  /-- `uint8_t h_c_d_id`. -/
  hCDId : UInt8
  /-- `uint16_t h_c_w_id`. -/
  hCWId : UInt16
  /-- `uint32_t h_date`. -/
  hDate : UInt32
  /-- `uint8_t h_d_id`. -/
  hDId : UInt8
  /-- `uint16_t h_w_id`. -/
  hWId : UInt16

/-- `NO_key`. -/
structure NOKey where
  /-- `uint8_t dummy[1]`. -/
  dummy : Fin 1 → UInt8
  /-- `uint32_t no_o_id`. -/
  noOId : UInt32
  /-- `uint8_t no_d_id`. -/
  noDId : UInt8
  /-- `uint16_t no_w_id`. -/
  noWId : UInt16

/-- `O_key`. -/
structure OKey where
  /-- `uint8_t dummy[1]`. -/
  dummy : Fin 1 → UInt8
  /-- `uint32_t o_id`. -/
  oId : UInt32
  /-- `uint8_t o_d_id`. -/
  oDId : UInt8
  /-- `uint16_t o_w_id`. -/
  oWId : UInt16

/-- `OL_key`. -/
structure OLKey where
  /-- `uint8_t ol_number`. -/
  olNumber : UInt8
  /-- `uint32_t ol_o_id`. -/
  olOId : UInt32
  /-- `uint8_t ol_d_id`. -/
  olDId : UInt8
  /-- `uint16_t ol_w_id`. -/
  olWId : UInt16

/-- `I_key`. -/
structure IKey where
  /-- `uint64_t i_id`. -/
  iId : UInt64

/-- `S_key`. -/
structure SKey where
  /-- `uint8_t dummy[2]`. -/
  dummy : Fin 2 → UInt8
  /-- `uint32_t s_i_id`. -/
  sIId : UInt32
  /-- `uint16_t s_w_id`. -/
  sWId : UInt16

/-- The fields in the order of their addresses. -/
def Key.members : Key ≃ UInt64 := ⟨fun k => k.key, fun m => ⟨m⟩, fun _ => rfl, fun _ => rfl⟩

/-- The fields in the order of their addresses. -/
def WKey.members : WKey ≃ UInt64 := ⟨fun k => k.wId, fun m => ⟨m⟩, fun _ => rfl, fun _ => rfl⟩

/-- The fields in the order of their addresses. -/
def DKey.members : DKey ≃ (Fin 5 → UInt8) × UInt8 × UInt16 :=
  ⟨fun k => (k.dummy, k.dId, k.dWId), fun m => ⟨m.1, m.2.1, m.2.2⟩, fun _ => rfl, fun _ => rfl⟩

/-- The fields in the order of their addresses. -/
def OrderCidIndexKey.members : OrderCidIndexKey ≃ UInt32 × UInt16 × UInt8 × UInt8 :=
  ⟨fun k => (k.ocOId, k.ocCId, k.ocDId, k.ocWId), fun m => ⟨m.1, m.2.1, m.2.2.1, m.2.2.2⟩,
    fun _ => rfl, fun _ => rfl⟩

/-- The fields in the order of their addresses. -/
def CKey.members : CKey ≃ (Fin 3 → UInt8) × UInt16 × UInt8 × UInt16 :=
  ⟨fun k => (k.dummy, k.cId, k.cDId, k.cWId), fun m => ⟨m.1, m.2.1, m.2.2.1, m.2.2.2⟩,
    fun _ => rfl, fun _ => rfl⟩

/-- The fields in the order of their addresses. -/
def HKey.members : HKey ≃ UInt16 × UInt8 × UInt16 × UInt32 × UInt8 × UInt16 :=
  ⟨fun k => (k.hCId, k.hCDId, k.hCWId, k.hDate, k.hDId, k.hWId),
    fun m => ⟨m.1, m.2.1, m.2.2.1, m.2.2.2.1, m.2.2.2.2.1, m.2.2.2.2.2⟩, fun _ => rfl, fun _ => rfl⟩

/-- The fields in the order of their addresses. -/
def NOKey.members : NOKey ≃ (Fin 1 → UInt8) × UInt32 × UInt8 × UInt16 :=
  ⟨fun k => (k.dummy, k.noOId, k.noDId, k.noWId), fun m => ⟨m.1, m.2.1, m.2.2.1, m.2.2.2⟩,
    fun _ => rfl, fun _ => rfl⟩

/-- The fields in the order of their addresses. -/
def OKey.members : OKey ≃ (Fin 1 → UInt8) × UInt32 × UInt8 × UInt16 :=
  ⟨fun k => (k.dummy, k.oId, k.oDId, k.oWId), fun m => ⟨m.1, m.2.1, m.2.2.1, m.2.2.2⟩,
    fun _ => rfl, fun _ => rfl⟩

/-- The fields in the order of their addresses. -/
def OLKey.members : OLKey ≃ UInt8 × UInt32 × UInt8 × UInt16 :=
  ⟨fun k => (k.olNumber, k.olOId, k.olDId, k.olWId), fun m => ⟨m.1, m.2.1, m.2.2.1, m.2.2.2⟩,
    fun _ => rfl, fun _ => rfl⟩

/-- The fields in the order of their addresses. -/
def IKey.members : IKey ≃ UInt64 := ⟨fun k => k.iId, fun m => ⟨m⟩, fun _ => rfl, fun _ => rfl⟩

/-- The fields in the order of their addresses. -/
def SKey.members : SKey ≃ (Fin 2 → UInt8) × UInt32 × UInt16 :=
  ⟨fun k => (k.dummy, k.sIId, k.sWId), fun m => ⟨m.1, m.2.1, m.2.2⟩, fun _ => rfl, fun _ => rfl⟩

instance : Packed Key := .ofEquiv Key.members

instance : Packed WKey := .ofEquiv WKey.members

instance : Packed DKey := .ofEquiv DKey.members

instance : Packed OrderCidIndexKey := .ofEquiv OrderCidIndexKey.members

instance : Packed CKey := .ofEquiv CKey.members

instance : Packed HKey := .ofEquiv HKey.members

instance : Packed NOKey := .ofEquiv NOKey.members

instance : Packed OKey := .ofEquiv OKey.members

instance : Packed OLKey := .ofEquiv OLKey.members

instance : Packed IKey := .ofEquiv IKey.members

instance : Packed SKey := .ofEquiv SKey.members

/-! ### Constructors -/

/-- `W_key(i)`. -/
def WKey.make (i : UInt64) : WKey := { wId := i }

/-- `D_key(dw, di)`. -/
def DKey.make (dw : UInt16) (di : UInt8) : DKey := { dummy := fun _ => 0, dId := di, dWId := dw }

/-- `OrderCidIndexKey(oc_w_id, oc_d_id, oc_c_id, oc_o_id)`. -/
def OrderCidIndexKey.make (ocWId ocDId : UInt8) (ocCId : UInt16) (ocOId : UInt32) : OrderCidIndexKey :=
  { ocOId, ocCId, ocDId, ocWId }

/-- `C_key(ci, di, wi)`. -/
def CKey.make (ci : UInt16) (di : UInt8) (wi : UInt16) : CKey :=
  { dummy := fun _ => 0, cId := ci, cDId := di, cWId := wi }

/-- `H_key(wi, di, cwi, cdi, ci, ts)`. -/
def HKey.make (wi : UInt16) (di : UInt8) (cwi : UInt16) (cdi : UInt8) (ci : UInt16) (ts : UInt32) : HKey :=
  { hCId := ci, hCDId := cdi, hCWId := cwi, hDate := ts, hDId := di, hWId := wi }

/-- `NO_key(wi, di, oi)`. -/
def NOKey.make (wi : UInt16) (di : UInt8) (oi : UInt32) : NOKey :=
  { dummy := fun _ => 0, noOId := oi, noDId := di, noWId := wi }

/-- `O_key(wi, di, oi)`. -/
def OKey.make (wi : UInt16) (di : UInt8) (oi : UInt32) : OKey :=
  { dummy := fun _ => 0, oId := oi, oDId := di, oWId := wi }

/-- `OL_key(ol_w_id, ol_d_id, ol_o_id, ol_number)`. -/
def OLKey.make (olWId : UInt16) (olDId : UInt8) (olOId : UInt32) (olNumber : UInt8) : OLKey :=
  { olNumber, olOId, olDId, olWId }

/-- `I_key(i)`. -/
def IKey.make (i : UInt64) : IKey := { iId := i }

/-- `S_key(wi, ii)`. -/
def SKey.make (wi : UInt16) (ii : UInt32) : SKey := { dummy := fun _ => 0, sIId := ii, sWId := wi }

/-! ### Operators -/

/-- `Key` compares its one field. -/
instance : KeyClass Key where
  toStrKey := Packed.reverse
  toNormalKey := Packed.reverse
  lt l r := decide (l.key < r.key)
  gt l r := decide (l.key > r.key)
  eq l r := decide (l.key = r.key)

instance : KeyClass WKey := wordKey WKey

instance : KeyClass DKey := wordKey DKey

instance : KeyClass OrderCidIndexKey := wordKey OrderCidIndexKey

instance : KeyClass CKey := wordKey CKey

instance : KeyClass NOKey := wordKey NOKey

instance : KeyClass OKey := wordKey OKey

instance : KeyClass OLKey := wordKey OLKey

instance : KeyClass IKey := wordKey IKey

instance : KeyClass SKey := wordKey SKey

/-- An unsigned integer converted to `double`: rounded to 53 significant bits, ties to even. -/
def toDouble (x : ℕ) : ℕ :=
  if x < 2 ^ 53 then x
  else
    let ulp := 2 ^ (x.log2 - 52)
    let q := x / ulp
    let r := x % ulp
    if 2 * r < ulp then q * ulp else if ulp < 2 * r then (q + 1) * ulp else (q + q % 2) * ulp

/-- `H_key::to_model_key`. -/
def HKey.toModelKey (k : HKey) : List ℕ :=
  [toDouble k.hWId.toNat, toDouble k.hDId.toNat, toDouble k.hDate.toNat, toDouble k.hCWId.toNat,
    toDouble k.hCDId.toNat, toDouble k.hCId.toNat]

/-- The loop of `H_key::smaller`. -/
def smallerFrom : List ℕ → List ℕ → Bool
  | a :: k1, b :: k2 => if a > b then false else if a < b then true else smallerFrom k1 k2
  | _, _ => false

/-- `H_key::smaller`. -/
def HKey.smaller (l r : HKey) : Bool := smallerFrom l.toModelKey r.toModelKey

instance : KeyClass HKey where
  toStrKey := Packed.reverse
  toNormalKey := Packed.reverse
  lt l r := l.smaller r
  gt l r := r.smaller l
  eq l r := !l.smaller r && !r.smaller l

/-! ### Fields -/

/-- The fields of a key, most significant first. -/
def Key.fields (k : Key) : List ℕ := [k.key.toNat]

/-- The warehouse. -/
def WKey.fields (k : WKey) : List ℕ := [k.wId.toNat]

/-- Warehouse, district. -/
def DKey.fields (k : DKey) : List ℕ := [k.dWId.toNat, k.dId.toNat]

/-- Warehouse, district, customer, order. -/
def OrderCidIndexKey.fields (k : OrderCidIndexKey) : List ℕ :=
  [k.ocWId.toNat, k.ocDId.toNat, k.ocCId.toNat, k.ocOId.toNat]

/-- Warehouse, district, customer. -/
def CKey.fields (k : CKey) : List ℕ := [k.cWId.toNat, k.cDId.toNat, k.cId.toNat]

/-- Warehouse and district of the payment, its date, and the customer. -/
def HKey.fields (k : HKey) : List ℕ :=
  [k.hWId.toNat, k.hDId.toNat, k.hDate.toNat, k.hCWId.toNat, k.hCDId.toNat, k.hCId.toNat]

/-- Warehouse, district, order. -/
def NOKey.fields (k : NOKey) : List ℕ := [k.noWId.toNat, k.noDId.toNat, k.noOId.toNat]

/-- Warehouse, district, order. -/
def OKey.fields (k : OKey) : List ℕ := [k.oWId.toNat, k.oDId.toNat, k.oId.toNat]

/-- Warehouse, district, order, line. -/
def OLKey.fields (k : OLKey) : List ℕ := [k.olWId.toNat, k.olDId.toNat, k.olOId.toNat, k.olNumber.toNat]

/-- The item. -/
def IKey.fields (k : IKey) : List ℕ := [k.iId.toNat]

/-- Warehouse, item. -/
def SKey.fields (k : SKey) : List ℕ := [k.sWId.toNat, k.sIId.toNat]

/-! ### Codecs -/

/-- The key class encodes its keys faithfully and in order: decoding undoes encoding, and `memcmp` of
the encodings, the comparison operators and the lexicographic order of the fields agree on all keys
of the set. -/
structure OrderedCodec {K : Type} [KeyClass K] (keys : Set K) (fields : K → List ℕ) : Prop where
  /-- `to_normal_key(to_str_key(k)) = k`. -/
  roundTrip : ∀ k ∈ keys, KeyClass.toNormalKey (KeyClass.toStrKey k) = k
  /-- `operator<`. -/
  lt_iff : ∀ a ∈ keys, ∀ b ∈ keys, KeyClass.lt a b = true ↔ memcmp (keyBytes a) (keyBytes b) = .lt
  /-- `operator>`. -/
  gt_iff : ∀ a ∈ keys, ∀ b ∈ keys, KeyClass.gt a b = true ↔ memcmp (keyBytes a) (keyBytes b) = .gt
  /-- `operator==`. -/
  eq_iff : ∀ a ∈ keys, ∀ b ∈ keys, KeyClass.eq a b = true ↔ memcmp (keyBytes a) (keyBytes b) = .eq
  /-- The order of the fields. -/
  fields_eq : ∀ a ∈ keys, ∀ b ∈ keys, memcmp (keyBytes a) (keyBytes b) = compare (fields a) (fields b)

/-- **The codec of a key compared as a word is ordered**, if the word is ordered as the fields are. -/
theorem wordKey_codec {K : Type} [Packed K] {keys : Set K} {fields : K → List ℕ}
    (h : ∀ a ∈ keys, ∀ b ∈ keys, compare (Packed.toNat a) (Packed.toNat b) = compare (fields a) (fields b)) :
    @OrderedCodec K (wordKey K) keys fields := by
  let _ := wordKey K
  have hmem (a b : K) : memcmp (keyBytes a) (keyBytes b) = compare (Packed.toNat a) (Packed.toNat b) :=
    Packed.memcmp_reverse a b
  refine ⟨fun k _ => Packed.reverse_reverse k, fun a _ b _ => ?_, fun a _ b _ => ?_, fun a _ b _ => ?_,
    fun a ha b hb => (hmem a b).trans (h a ha b hb)⟩
  · rw [hmem, Nat.compare_eq_lt]
    exact decide_eq_true_iff
  · rw [hmem, Nat.compare_eq_gt]
    exact decide_eq_true_iff
  · rw [hmem, Nat.compare_eq_eq]
    exact decide_eq_true_iff

/-- Fields of two keys are compared one after the other. -/
@[simp] theorem compare_fields (x y : ℕ) (l r : List ℕ) :
    compare (x :: l) (y :: r) = (compare x y).then (compare l r) :=
  List.compare_cons_cons

@[simp] theorem compare_nil : compare ([] : List ℕ) [] = .eq := rfl

@[simp] theorem compare_refl (x : ℕ) : compare x x = .eq := Nat.compare_eq_eq.mpr rfl

theorem wKey_codec : OrderedCodec {k | ∃ i, k = WKey.make i} WKey.fields := by
  apply wordKey_codec
  rintro a ⟨i, rfl⟩ b ⟨i', rfl⟩
  change compare (Packed.toNat (WKey.make i).members) (Packed.toNat (WKey.make i').members) = _
  simp [WKey.members, WKey.make, WKey.fields]

theorem dKey_codec : OrderedCodec {k | ∃ dw di, k = DKey.make dw di} DKey.fields := by
  apply wordKey_codec
  rintro a ⟨dw, di, rfl⟩ b ⟨dw', di', rfl⟩
  change compare (Packed.toNat (DKey.make dw di).members) (Packed.toNat (DKey.make dw' di').members) = _
  simp [DKey.members, DKey.make, DKey.fields, Packed.compare_prod]

theorem orderCidIndexKey_codec :
    OrderedCodec {k | ∃ w d c o, k = OrderCidIndexKey.make w d c o} OrderCidIndexKey.fields := by
  apply wordKey_codec
  rintro a ⟨w, d, c, o, rfl⟩ b ⟨w', d', c', o', rfl⟩
  change compare (Packed.toNat (OrderCidIndexKey.make w d c o).members)
    (Packed.toNat (OrderCidIndexKey.make w' d' c' o').members) = _
  simp [OrderCidIndexKey.members, OrderCidIndexKey.make, OrderCidIndexKey.fields, Packed.compare_prod,
    Ordering.then_assoc]

theorem cKey_codec : OrderedCodec {k | ∃ ci di wi, k = CKey.make ci di wi} CKey.fields := by
  apply wordKey_codec
  rintro a ⟨ci, di, wi, rfl⟩ b ⟨ci', di', wi', rfl⟩
  change compare (Packed.toNat (CKey.make ci di wi).members) (Packed.toNat (CKey.make ci' di' wi').members) = _
  simp [CKey.members, CKey.make, CKey.fields, Packed.compare_prod, Ordering.then_assoc]

theorem noKey_codec : OrderedCodec {k | ∃ wi di oi, k = NOKey.make wi di oi} NOKey.fields := by
  apply wordKey_codec
  rintro a ⟨wi, di, oi, rfl⟩ b ⟨wi', di', oi', rfl⟩
  change compare (Packed.toNat (NOKey.make wi di oi).members) (Packed.toNat (NOKey.make wi' di' oi').members) = _
  simp [NOKey.members, NOKey.make, NOKey.fields, Packed.compare_prod, Ordering.then_assoc]

theorem oKey_codec : OrderedCodec {k | ∃ wi di oi, k = OKey.make wi di oi} OKey.fields := by
  apply wordKey_codec
  rintro a ⟨wi, di, oi, rfl⟩ b ⟨wi', di', oi', rfl⟩
  change compare (Packed.toNat (OKey.make wi di oi).members) (Packed.toNat (OKey.make wi' di' oi').members) = _
  simp [OKey.members, OKey.make, OKey.fields, Packed.compare_prod, Ordering.then_assoc]

theorem olKey_codec : OrderedCodec {k | ∃ w d o n, k = OLKey.make w d o n} OLKey.fields := by
  apply wordKey_codec
  rintro a ⟨w, d, o, n, rfl⟩ b ⟨w', d', o', n', rfl⟩
  change compare (Packed.toNat (OLKey.make w d o n).members) (Packed.toNat (OLKey.make w' d' o' n').members) = _
  simp [OLKey.members, OLKey.make, OLKey.fields, Packed.compare_prod, Ordering.then_assoc]

theorem iKey_codec : OrderedCodec {k | ∃ i, k = IKey.make i} IKey.fields := by
  apply wordKey_codec
  rintro a ⟨i, rfl⟩ b ⟨i', rfl⟩
  change compare (Packed.toNat (IKey.make i).members) (Packed.toNat (IKey.make i').members) = _
  simp [IKey.members, IKey.make, IKey.fields]

theorem sKey_codec : OrderedCodec {k | ∃ wi ii, k = SKey.make wi ii} SKey.fields := by
  apply wordKey_codec
  rintro a ⟨wi, ii, rfl⟩ b ⟨wi', ii', rfl⟩
  change compare (Packed.toNat (SKey.make wi ii).members) (Packed.toNat (SKey.make wi' ii').members) = _
  simp [SKey.members, SKey.make, SKey.fields, Packed.compare_prod]

/-! ### `Key<weight_t>` -/

theorem Key.toNat_eq (k : Key) : Packed.toNat k = k.key.toNat := Packed.toNat_uint64 k.key

/-- Comparing the one field is comparing the word. -/
theorem key_codec : OrderedCodec {k | ∃ x, k = Key.mk x} Key.fields := by
  have hmem (a b : Key) : memcmp (keyBytes a) (keyBytes b) = compare a.key.toNat b.key.toNat := by
    rw [← Key.toNat_eq, ← Key.toNat_eq]
    exact Packed.memcmp_reverse a b
  refine ⟨fun k _ => Packed.reverse_reverse k, fun a _ b _ => ?_, fun a _ b _ => ?_, fun a _ b _ => ?_,
    fun a _ b _ => ?_⟩
  · rw [hmem, Nat.compare_eq_lt]
    exact decide_eq_true_iff
  · rw [hmem, Nat.compare_eq_gt]
    exact decide_eq_true_iff
  · rw [hmem, Nat.compare_eq_eq, UInt64.toNat_inj]
    exact decide_eq_true_iff
  · rw [hmem, Key.fields, Key.fields, compare_fields, compare_nil, Ordering.then_eq]

theorem keyBytes_eq (k : Key) : keyBytes k = (Packed.toBytes k).reverse := Packed.toBytes_reverse k

@[simp] theorem length_keyBytes (k : Key) : (keyBytes k).length = 8 :=
  Packed.length_toBytes (KeyClass.toStrKey k)

/-- Different keys are different bytes. -/
theorem keyBytes_inj {a b : Key} : keyBytes a = keyBytes b ↔ a = b := by
  rw [keyBytes_eq, keyBytes_eq, List.reverse_inj, Packed.toBytes_inj]

/-- The bytes handed to an index are ordered as the numbers. -/
theorem keyBytes_lt_iff {a b : Key} : keyBytes a < keyBytes b ↔ a.key.toNat < b.key.toNat := by
  have hmem := Packed.memcmp_reverse a b
  rw [Key.toNat_eq, Key.toNat_eq] at hmem
  rw [← memcmp_lt_iff, ← Nat.compare_eq_lt, ← hmem]
  rfl

/-! ### `H_key` -/

/-- Integers below `2^53` are doubles. -/
theorem toDouble_of_lt {x : ℕ} (h : x < 2 ^ 53) : toDouble x = x := if_pos h

/-- Every field of the key is converted exactly. -/
theorem HKey.toModelKey_eq (k : HKey) : k.toModelKey = k.fields := by
  have h16 (x : UInt16) : toDouble x.toNat = x.toNat := toDouble_of_lt (x.toNat_lt.trans (by decide))
  have h8 (x : UInt8) : toDouble x.toNat = x.toNat := toDouble_of_lt (x.toNat_lt.trans (by decide))
  have h32 (x : UInt32) : toDouble x.toNat = x.toNat := toDouble_of_lt (x.toNat_lt.trans (by decide))
  rw [HKey.toModelKey, HKey.fields, h16, h16, h16, h8, h8, h32]

/-- The loop finds the first pair that differs. -/
theorem smallerFrom_iff {l r : List ℕ} (h : l.length = r.length) :
    smallerFrom l r = true ↔ compare l r = .lt := by
  induction l generalizing r with
  | nil =>
    obtain rfl := List.length_eq_zero_iff.mp h.symm
    exact iff_of_false (by decide) (by decide)
  | cons a l ih =>
    cases r with
    | nil => cases h
    | cons b r =>
      rw [smallerFrom, compare_fields]
      rcases lt_trichotomy a b with hab | rfl | hab
      · rw [if_neg hab.not_gt, if_pos hab, Nat.compare_eq_lt.mpr hab]
        exact iff_of_true rfl rfl
      · rw [if_neg (lt_irrefl a), if_neg (lt_irrefl a), compare_refl, Ordering.eq_then, ih (Nat.succ.inj h)]
      · rw [if_pos hab, Nat.compare_eq_gt.mpr hab]
        exact iff_of_false Bool.false_ne_true (by rw [Ordering.gt_then]; decide)

/-- **`H_key` is ordered by its fields.** -/
theorem HKey.smaller_iff (l r : HKey) : l.smaller r = true ↔ compare l.fields r.fields = .lt := by
  rw [HKey.smaller, HKey.toModelKey_eq, HKey.toModelKey_eq]
  exact smallerFrom_iff rfl

theorem hKey_codec : OrderedCodec
    {k | ∃ wi di cwi cdi ci ts, k = HKey.make wi di cwi cdi ci ts} HKey.fields := by
  have hmem (a b : HKey) : memcmp (keyBytes a) (keyBytes b) = compare a.fields b.fields := by
    refine (Packed.memcmp_reverse a b).trans ?_
    change compare (Packed.toNat a.members) (Packed.toNat b.members) = _
    simp [HKey.members, HKey.fields, Packed.compare_prod, Ordering.then_assoc]
  have hswap (a b : HKey) : b.smaller a = true ↔ compare a.fields b.fields = .gt := by
    rw [HKey.smaller_iff, Std.OrientedCmp.gt_iff_lt]
  refine ⟨fun k _ => Packed.reverse_reverse k, fun a _ b _ => ?_, fun a _ b _ => ?_, fun a _ b _ => ?_,
    fun a _ b _ => hmem a b⟩
  · rw [hmem]
    exact HKey.smaller_iff a b
  · rw [hmem]
    exact hswap a b
  · change (!a.smaller b && !b.smaller a) = true ↔ _
    rw [hmem, Bool.and_eq_true, Bool.not_eq_true', Bool.not_eq_true', ← Bool.not_eq_true, ← Bool.not_eq_true,
      HKey.smaller_iff, hswap]
    cases compare a.fields b.fields <;> decide

/-- **Key encodings are order-preserving codecs.** -/
theorem key_codecs :
    OrderedCodec {k | ∃ x, k = Key.mk x} Key.fields ∧ OrderedCodec {k | ∃ i, k = WKey.make i} WKey.fields ∧
    OrderedCodec {k | ∃ dw di, k = DKey.make dw di} DKey.fields ∧
    OrderedCodec {k | ∃ ci di wi, k = CKey.make ci di wi} CKey.fields ∧
    OrderedCodec {k | ∃ wi di oi, k = NOKey.make wi di oi} NOKey.fields ∧
    OrderedCodec {k | ∃ wi di oi, k = OKey.make wi di oi} OKey.fields ∧
    OrderedCodec {k | ∃ w d o n, k = OLKey.make w d o n} OLKey.fields ∧
    OrderedCodec {k | ∃ i, k = IKey.make i} IKey.fields ∧
    OrderedCodec {k | ∃ wi ii, k = SKey.make wi ii} SKey.fields ∧
    OrderedCodec {k | ∃ w d c o, k = OrderCidIndexKey.make w d c o} OrderCidIndexKey.fields ∧
    OrderedCodec {k | ∃ wi di cwi cdi ci ts, k = HKey.make wi di cwi cdi ci ts} HKey.fields :=
  ⟨key_codec, wKey_codec, dKey_codec, cKey_codec, noKey_codec, oKey_codec, olKey_codec, iKey_codec, sKey_codec,
    orderCidIndexKey_codec, hKey_codec⟩

end SidleBaselines.Kv
