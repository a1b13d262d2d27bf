import SidleBaselines.Kv.StrBagKey

/-!
# The leaves of ART

A leaf of ART (`alloc_leaf` in `src/third_party/art/art_node.c`) is a byte that
holds the length of the key and the key behind it. A pointer to a leaf is the even
address of the length with its last bit set; the macros `get_leaf_key` and
`get_leaf_len` clear that bit again. The length is read as a `char`, which is signed.

The bytes are those that `ARTKV::insert` passes for a key, all `sizeof(K)` of them,
for each type that `micro_common.h` can select as `index_key_t`.

## What is proved

* `bytesAt_memcpy` — bytes that were copied are read back;
* `make_leaf_clear` — the macros find the length of an even address;
* `allocLeaf_len` — the length as it is read back;
* `artLeaf_iff` — a leaf decodes to the length and the bytes of its key if and only if
  the length is less than 128.
-/

namespace SidleBaselines.Kv.Leaves

open SidleBaselines.Data

/-! ### Memory -/

/-- The bytes at all addresses. -/
abbrev Mem := UInt64 → UInt8

/-- `memcpy` to `dst`. -/
def memcpy (mem : Mem) (dst : UInt64) : List UInt8 → Mem
  | [] => mem
  | b :: bytes => memcpy (Function.update mem dst b) (dst + 1) bytes

/-- The `n` bytes from an address on. -/
def bytesAt (mem : Mem) (a : UInt64) : ℕ → List UInt8
  | 0 => []
  | n + 1 => mem a :: bytesAt mem (a + 1) n

theorem add_one_add_ofNat (a : UInt64) (i : ℕ) : a + 1 + UInt64.ofNat i = a + UInt64.ofNat (i + 1) := by
  rw [UInt64.add_assoc, Nat.add_comm i 1, UInt64.ofNat_add]
  rfl

theorem memcpy_outside {bytes : List UInt8} {mem : Mem} {dst a : UInt64}
    (h : ∀ i < bytes.length, a ≠ dst + UInt64.ofNat i) : memcpy mem dst bytes a = mem a := by
  induction bytes generalizing mem dst with
  | nil => rfl
  | cons b bytes ih =>
    have hhead : a ≠ dst := by
      have := h 0 (Nat.zero_lt_succ _)
      simpa using this
    rw [memcpy, ih, Function.update_of_ne hhead]
    intro i hi
    have hnext := h (i + 1) (Nat.succ_lt_succ hi)
    rwa [← add_one_add_ofNat] at hnext

/-- No address comes twice in less than `2 ^ 64` bytes. -/
theorem ne_add_ofNat (a : UInt64) {i : ℕ} (hpos : 0 < i) (hi : i < 2 ^ 64) : a ≠ a + UInt64.ofNat i := by
  intro heq
  have hzero : UInt64.ofNat i = 0 := UInt64.left_eq_add.mp heq
  have htoNat := congrArg UInt64.toNat hzero
  rw [UInt64.toNat_ofNat_of_lt' hi] at htoNat
  exact absurd htoNat (Nat.ne_of_gt hpos)

theorem bytesAt_memcpy (mem : Mem) (dst : UInt64) (bytes : List UInt8) (h : bytes.length ≤ 2 ^ 64) :
    bytesAt (memcpy mem dst bytes) dst bytes.length = bytes := by
  induction bytes generalizing mem dst with
  | nil => rfl
  | cons b bytes ih =>
    rw [List.length_cons] at h
    rw [List.length_cons, bytesAt, memcpy, ih _ _ (by omega), memcpy_outside, Function.update_self]
    intro i hi
    rw [add_one_add_ofNat]
    exact ne_add_ofNat dst (Nat.succ_pos i) (by omega)

/-! ### Leaves -/

/-- `make_leaf(ptr)`. -/
def makeLeaf (ptr : UInt64) : UInt64 :=
  (ptr - 1) ||| 1

/-- `get_leaf_key(ptr)`. -/
def getLeafKey (ptr : UInt64) : UInt64 :=
  (ptr &&& ~~~1) + 1

/-- `get_leaf_len(ptr)`: a `char` converted to a `size_t`. -/
def getLeafLen (mem : Mem) (ptr : UInt64) : ℕ :=
  ((mem (ptr &&& ~~~1)).toInt8.toInt % 2 ^ 64).toNat

/-- `alloc_leaf(key, len)`, when `malloc` returns `rawLeaf`. -/
def allocLeaf (mem : Mem) (rawLeaf : UInt64) (key : List UInt8) (len : ℕ) : Mem × UInt64 :=
  (memcpy (Function.update mem rawLeaf (UInt8.ofNat len)) (rawLeaf + 1) (key.take len), makeLeaf (rawLeaf + 1))

/-- The address the macros find is the one that was allocated. -/
theorem make_leaf_clear {rawLeaf : UInt64} (h : rawLeaf &&& 1 = 0) :
    makeLeaf (rawLeaf + 1) &&& ~~~1 = rawLeaf := by
  have hleft : ∀ a b c : UInt64, a &&& (b ||| c) = (a &&& b) ||| (a &&& c) :=
    fun _ _ _ => UInt64.toBitVec_inj.mp BitVec.and_or_distrib_left
  have hright : ∀ a b c : UInt64, (a ||| b) &&& c = (a &&& c) ||| (b &&& c) :=
    fun _ _ _ => UInt64.toBitVec_inj.mp BitVec.and_or_distrib_right
  have hclear : rawLeaf &&& ~~~1 = rawLeaf := by
    calc rawLeaf &&& ~~~1
        = (rawLeaf &&& ~~~1) ||| (rawLeaf &&& 1) := by rw [h, UInt64.or_zero]
      _ = rawLeaf &&& (~~~1 ||| 1) := (hleft _ _ _).symm
      _ = rawLeaf &&& -1 := rfl
      _ = rawLeaf := UInt64.and_neg_one
  calc makeLeaf (rawLeaf + 1) &&& ~~~1
      = (rawLeaf ||| 1) &&& ~~~1 := by rw [makeLeaf, UInt64.add_sub_cancel]
    _ = (rawLeaf &&& ~~~1) ||| (1 &&& ~~~1) := hright _ _ _
    _ = rawLeaf ||| 0 := by rw [hclear]; rfl
    _ = rawLeaf := UInt64.or_zero

/-- A length is read back from a `char` if that is not negative. -/
theorem char_eq_iff {n : ℕ} (hn : n < 2 ^ 63) :
    ((UInt8.ofNat n).toInt8.toInt % 2 ^ 64).toNat = n ↔ n < 128 := by
  have hbmod : (UInt8.ofNat n).toInt8.toInt = (n : Int).bmod 256 := BitVec.toInt_ofNat n
  rw [hbmod, Int.bmod]
  omega

/-- The byte before the key is not overwritten. -/
theorem allocLeaf_len {rawLeaf : UInt64} (h : rawLeaf &&& 1 = 0) (mem : Mem) {key : List UInt8}
    (hlen : key.length < 2 ^ 63) :
    getLeafLen (allocLeaf mem rawLeaf key key.length).1 (allocLeaf mem rawLeaf key key.length).2 = key.length ↔
      key.length < 128 := by
  have hbyte : (allocLeaf mem rawLeaf key key.length).1 rawLeaf = UInt8.ofNat key.length := by
    refine (memcpy_outside ?_).trans (Function.update_self ..)
    intro i hi
    rw [List.take_length] at hi
    rw [add_one_add_ofNat]
    exact ne_add_ofNat rawLeaf (Nat.succ_pos i) (by omega)
  rw [getLeafLen, allocLeaf, make_leaf_clear h]
  rw [allocLeaf] at hbyte
  rw [hbyte, char_eq_iff hlen]

theorem allocLeaf_key {rawLeaf : UInt64} (h : rawLeaf &&& 1 = 0) (mem : Mem) {key : List UInt8}
    (hlen : key.length < 2 ^ 63) :
    bytesAt (allocLeaf mem rawLeaf key key.length).1 (getLeafKey (allocLeaf mem rawLeaf key key.length).2)
      key.length = key := by
  rw [getLeafKey, allocLeaf, make_leaf_clear h, List.take_length]
  exact bytesAt_memcpy _ _ _ (by omega)

/-! ### The key types -/

/-- The macros that select the length of a string key. -/
inductive StrMacro where
  | str8
  | str16
  | str20
  | str24
  | str32
  | str40
  | str64
  | str128
  | str140
  | str256
  | str512

/-- The length. -/
def StrMacro.len : StrMacro → ℕ
  | .str8 => 8
  | .str16 => 16
  | .str20 => 20
  | .str24 => 24
  | .str32 => 32
  | .str40 => 40
  | .str64 => 64
  | .str128 => 128
  | .str140 => 140
  | .str256 => 256
  | .str512 => 512

/-- What `index_key_t` can be: `Key`, or with `STR_KEY` a `StrBagKey`. -/
inductive IndexKey where
  | key
  | strKey (m : StrMacro)

/-- The keys. -/
def IndexKey.Content : IndexKey → Type
  | .key => Key
  | .strKey m => StrBagKey m.len

/-- `sizeof(K)`. -/
def IndexKey.keySize : IndexKey → ℕ
  | .key => Packed.size Key
  | .strKey m => Packed.size (StrBagKey m.len)

/-- The bytes of `str_k` in `ARTKV::insert`; a `StrBagKey` is copied over what its memory held. -/
def IndexKey.strK : (t : IndexKey) → (mem k : t.Content) → List UInt8
  | .key, _, k => keyBytes (K := Key) k
  | .strKey _, mem, k => Packed.toBytes (StrBagKey.toStrKey mem k)

theorem IndexKey.length_strK (t : IndexKey) (mem k : t.Content) : (t.strK mem k).length = t.keySize := by
  cases t with
  | key => exact Packed.length_toBytes _
  | strKey m => exact Packed.length_toBytes _

theorem size_array (n : ℕ) : Packed.size (Fin n → UInt8) = n := by
  induction n with
  | zero => rfl
  | succ n ih =>
    have hsucc : Packed.size (Fin (n + 1) → UInt8) = 1 + Packed.size (Fin n → UInt8) := rfl
    rw [hsucc, ih, Nat.add_comm]

/-- The member `key` is counted. -/
theorem size_strBagKey (len : ℕ) : Packed.size (StrBagKey len) = len + 8 := by
  have hsize : Packed.size (StrBagKey len) = Packed.size (Fin len → UInt8) + 8 := rfl
  rw [hsize, size_array]

theorem IndexKey.keySize_lt (t : IndexKey) : t.keySize < 2 ^ 63 := by
  cases t with
  | key =>
    have hsize : IndexKey.keySize .key = 8 := rfl
    rw [hsize]
    norm_num
  | strKey m =>
    rw [IndexKey.keySize, size_strBagKey]
    cases m <;> norm_num [StrMacro.len]

/-- The key types whose size is a `char` that is not negative. -/
theorem IndexKey.keySize_lt_iff (t : IndexKey) : t.keySize < 128 ↔ ∀ m, t = .strKey m → m.len ≤ 64 := by
  cases t with
  | key =>
    have hsize : IndexKey.keySize .key = 8 := rfl
    simp [hsize]
  | strKey m =>
    rw [IndexKey.keySize, size_strBagKey]
    cases m <;> simp [StrMacro.len]

/-- `ARTKV::insert` makes a leaf of all the bytes of `str_k`. -/
def artLeaf (t : IndexKey) (mem : Mem) (rawLeaf : UInt64) (strK k : t.Content) : Mem × UInt64 :=
  allocLeaf mem rawLeaf (t.strK strK k) t.keySize

section

variable (t : IndexKey) (strK k : t.Content) (mem : Mem) {rawLeaf : UInt64}

theorem artLeaf_len_iff (h : rawLeaf &&& 1 = 0) :
    getLeafLen (artLeaf t mem rawLeaf strK k).1 (artLeaf t mem rawLeaf strK k).2 = t.keySize ↔
      ∀ m, t = .strKey m → m.len ≤ 64 := by
  have hlength := t.length_strK strK k
  have hlt := t.keySize_lt
  rw [← t.keySize_lt_iff, artLeaf]
  rw [← hlength] at hlt ⊢
  exact allocLeaf_len h mem hlt

/-- The bytes are always there. -/
theorem artLeaf_bytes (h : rawLeaf &&& 1 = 0) :
    bytesAt (artLeaf t mem rawLeaf strK k).1 (getLeafKey (artLeaf t mem rawLeaf strK k).2) t.keySize =
      t.strK strK k := by
  have hlength := t.length_strK strK k
  have hlt := t.keySize_lt
  rw [artLeaf]
  rw [← hlength] at hlt ⊢
  exact allocLeaf_key h mem hlt

/-- A leaf decodes to the length and the bytes of its key if and only if the key is a
`Key` or a `StrBagKey` of at most 64 bytes of text. -/
theorem artLeaf_iff (h : rawLeaf &&& 1 = 0) :
    (getLeafLen (artLeaf t mem rawLeaf strK k).1 (artLeaf t mem rawLeaf strK k).2 = t.keySize ∧
      bytesAt (artLeaf t mem rawLeaf strK k).1 (getLeafKey (artLeaf t mem rawLeaf strK k).2) t.keySize =
        t.strK strK k) ↔
      ∀ m, t = .strKey m → m.len ≤ 64 := by
  rw [artLeaf_len_iff t strK k mem h, and_iff_left (artLeaf_bytes t strK k mem h)]

end

/-- A leaf of a `Key` at address 16. -/
theorem artLeaf_key :
    getLeafLen (artLeaf .key (fun _ => 0) 16 (⟨0⟩ : Key) (⟨5⟩ : Key)).1
      (artLeaf .key (fun _ => 0) 16 (⟨0⟩ : Key) (⟨5⟩ : Key)).2 = IndexKey.keySize .key := by
  have haligned : (16 : UInt64) &&& 1 = 0 := rfl
  exact ((artLeaf_iff .key (⟨0⟩ : Key) (⟨5⟩ : Key) (fun _ => 0) haligned).mpr fun _ h => nomatch h).1

/-- The 136 bytes of a `StrBagKey<128>` come back with a length near `2 ^ 64`. -/
theorem artLeaf_str128 :
    ¬ ∀ (t : IndexKey) (strK k : t.Content) (mem : Mem) (rawLeaf : UInt64), rawLeaf &&& 1 = 0 →
      getLeafLen (artLeaf t mem rawLeaf strK k).1 (artLeaf t mem rawLeaf strK k).2 = t.keySize ∧
      bytesAt (artLeaf t mem rawLeaf strK k).1 (getLeafKey (artLeaf t mem rawLeaf strK k).2) t.keySize =
        t.strK strK k := by
  intro h
  have haligned : (16 : UInt64) &&& 1 = 0 := rfl
  have hzero : StrBagKey 128 := ⟨fun _ => 0, 0⟩
  have hlen := (h (.strKey .str128) hzero hzero (fun _ => 0) 16 haligned).1
  have hshort := (artLeaf_len_iff (.strKey .str128) hzero hzero _ haligned).mp hlen
  exact absurd (hshort .str128 rfl) (by decide)

end SidleBaselines.Kv.Leaves
