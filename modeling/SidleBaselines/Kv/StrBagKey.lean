import SidleBaselines.Kv.Wrappers

/-!
# String keys

`StrBagKey<len>` is `len` bytes of text followed by a member `key` of eight bytes.
Every constructor, the assignment and the comparison operators deal with the text
alone, so `key` is whatever the memory held in which an object was made. But
`sizeof` counts it: the wrappers hand both members to the index.

An operation that makes or overwrites an object takes the memory it writes into
(`mem`), whose bytes are arbitrary.

## What is proved

* `Made.buf_eq` — whatever the way an object was made from a string, its text is
  that string.
* `handed_eq_iff` — the bytes two equal keys reach an index as are the same exactly
  if the memory the wrapper copies them into happened to hold the same `key`.
* `strBagKey_found` — and so exactly then a value is found again.
-/

namespace SidleBaselines.Kv

open SidleBaselines.Data

/-! ### The class -/

/-- `StrBagKey<len>`. -/
@[ext] structure StrBagKey (len : ℕ) where
  /-- `uint8_t buf[len]`. -/
  buf : Fin len → UInt8
  /-- `uint64_t key`. -/
  key : UInt64

section

variable {len : ℕ}

/-- The members in the order of their addresses. -/
def StrBagKey.members (len : ℕ) : StrBagKey len ≃ (Fin len → UInt8) × UInt64 :=
  ⟨fun k => (k.buf, k.key), fun m => ⟨m.1, m.2⟩, fun _ => rfl, fun _ => rfl⟩

instance : Packed (StrBagKey len) := .ofEquiv (StrBagKey.members len)

namespace StrBagKey

/-- `StrBagKey(s)`, where `s.size() <= len`: the text is filled up with zeros. -/
def ofString (mem : StrBagKey len) (s : List UInt8) : StrBagKey len := { mem with buf := fun i => s.getD i 0 }

/-- `StrBagKey(other)`. -/
def copy (mem other : StrBagKey len) : StrBagKey len := { mem with buf := other.buf }

/-- `operator=`. -/
def assign (this other : StrBagKey len) : StrBagKey len := { this with buf := other.buf }

/-- `to_str_key` returns a copy. -/
def toStrKey (mem k : StrBagKey len) : StrBagKey len := copy mem k

/-- `to_wh_key` returns a copy. -/
def toWhKey (mem k : StrBagKey len) : StrBagKey len := copy mem k

/-- `operator==` is `memcmp` over `buf`. -/
def eq (l r : StrBagKey len) : Bool := memcmp (Packed.toBytes l.buf) (Packed.toBytes r.buf) == .eq

end StrBagKey

/-- An object made from the string `s` by a chain of constructions and assignments. -/
inductive Made (s : List UInt8) : StrBagKey len → Prop where
  /-- From the string itself. -/
  | string (mem : StrBagKey len) : s.length ≤ len → Made s (mem.ofString s)
  /-- By copy construction. -/
  | copy (mem : StrBagKey len) {k : StrBagKey len} : Made s k → Made s (mem.copy k)
  /-- By assignment to any object. -/
  | assign (this : StrBagKey len) {k : StrBagKey len} : Made s k → Made s (this.assign k)
  /-- By `to_str_key`. -/
  | toStrKey (mem : StrBagKey len) {k : StrBagKey len} : Made s k → Made s (StrBagKey.toStrKey mem k)

/-! ### The wrappers -/

/-- The two wrappers that store bytes. -/
inductive Wrapper where
  /-- `MasstreeKV`. -/
  | masstree
  /-- `WormholeKV`. -/
  | wormhole

/-- What a wrapper's stack frame holds before it copies a key: the memory of the temporary it makes and, for
Wormhole, the buffer it assigns the temporary to. -/
structure Frame (len : ℕ) where
  /-- `str_k`. -/
  strK : StrBagKey len
  /-- `kv_mem`, where the key goes. -/
  kvMem : StrBagKey len

/-- The `key_size` bytes a wrapper hands to its index. -/
def Wrapper.handed (f : Frame len) (k : StrBagKey len) : Wrapper → List UInt8
  | .masstree => Packed.toBytes (StrBagKey.toStrKey f.strK k)
  | .wormhole => Packed.toBytes (f.kvMem.assign (StrBagKey.toWhKey f.strK k))

/-- The bytes of `key` among them. -/
def Wrapper.leftover (f : Frame len) : Wrapper → UInt64
  | .masstree => f.strK.key
  | .wormhole => f.kvMem.key

variable {n : ℕ} (w : Wrapper) (I : MapIndex (List UInt8) (List UInt8))

/-- `insert(k, v)`. -/
def insertStr (f : Frame len) (k : StrBagKey len) (v : Value n) (s : I.State) : I.State :=
  I.put s (w.handed f k) (Packed.toBytes v)

/-- `get(k, v)`: the value found. -/
def getStr (f : Frame len) (k : StrBagKey len) (s : I.State) : Option (Value n) :=
  (I.find s (w.handed f k)).map Packed.ofBytes

/-- Several insertions. -/
def insertStrs (l : List (Frame len × StrBagKey len × Value n)) (s : I.State) : I.State :=
  l.foldl (fun s e => insertStr w I e.1 e.2.1 e.2.2 s) s

/-! ### Equal keys -/

/-- The text of an object is the string it was made from. -/
theorem Made.buf_eq {s : List UInt8} {k : StrBagKey len} (h : Made s k) :
    k.buf = fun i : Fin len => s.getD i 0 := by
  induction h with
  | string mem _ => rfl
  | copy mem _ ih => exact ih
  | assign this _ ih => exact ih
  | toStrKey mem _ ih => exact ih

theorem StrBagKey.eq_iff {l r : StrBagKey len} : l.eq r = true ↔ l.buf = r.buf := by
  rw [StrBagKey.eq, beq_iff_eq, memcmp_eq_iff (by rw [Packed.length_toBytes, Packed.length_toBytes]),
    Packed.toBytes_inj]

/-- Either wrapper hands over the text of the key and the leftover of its frame. -/
theorem Wrapper.handed_eq (f : Frame len) (k : StrBagKey len) :
    w.handed f k = Packed.toBytes (⟨k.buf, w.leftover f⟩ : StrBagKey len) := by
  cases w <;> rfl

/-- **What reaches the index** is the same for two keys exactly if text and leftover are. -/
theorem Wrapper.handed_eq_iff (f f' : Frame len) (k k' : StrBagKey len) :
    w.handed f k = w.handed f' k' ↔ k.buf = k'.buf ∧ w.leftover f = w.leftover f' := by
  rw [w.handed_eq, w.handed_eq, Packed.toBytes_inj, StrBagKey.mk.injEq]

/-- Insertions of other keys leave a key alone. -/
theorem find_insertStrs {l : List (Frame len × StrBagKey len × Value n)} {f : Frame len} {k : StrBagKey len}
    (h : ∀ e ∈ l, e.2.1.eq k = false) (s : I.State) :
    I.find (insertStrs w I l s) (w.handed f k) = I.find s (w.handed f k) := by
  induction l generalizing s with
  | nil => rfl
  | cons e l ih =>
    obtain ⟨he, hl⟩ := List.forall_mem_cons.mp h
    have hne : w.handed f k ≠ w.handed e.1 e.2.1 := by
      rw [Ne, w.handed_eq_iff]
      rintro ⟨hbuf, -⟩
      rw [StrBagKey.eq_iff.mpr hbuf.symm] at he
      cases he
    exact (ih hl _).trans (I.find_put_ne _ _ _ hne)

/-- **Equal string keys are the same index key exactly if** the memory each was copied into happened to hold the
same `key`. Otherwise an insertion under one of them is not seen under the other. -/
theorem strBagKey_found {s : List UInt8} {a b : StrBagKey len} (ha : Made s a) (hb : Made s b)
    (f f' : Frame len) (v : Value n) (st : I.State) {later : List (Frame len × StrBagKey len × Value n)}
    (hlater : ∀ e ∈ later, e.2.1.eq a = false) :
    a.eq b = true ∧ (w.handed f a = w.handed f' b ↔ w.leftover f = w.leftover f') ∧
      getStr w I f' b (insertStrs w I later (insertStr w I f a v st)) =
        if w.leftover f = w.leftover f' then some v else getStr w I f' b st := by
  have hbuf : a.buf = b.buf := ha.buf_eq.trans hb.buf_eq.symm
  have hiff : w.handed f a = w.handed f' b ↔ w.leftover f = w.leftover f' := by
    rw [w.handed_eq_iff, and_iff_right hbuf]
  have hother : ∀ e ∈ later, e.2.1.eq b = false := by
    intro e he
    have h := hlater e he
    rwa [StrBagKey.eq, hbuf] at h
  refine ⟨StrBagKey.eq_iff.mpr hbuf, hiff, ?_⟩
  rw [getStr, find_insertStrs w I hother, insertStr]
  split
  · rename_i h
    rw [← hiff.mpr h, I.find_put_self, Option.map_some, Packed.ofBytes_toBytes]
  · rename_i h
    rw [I.find_put_ne _ _ _ fun he => h (hiff.mp he.symm), getStr]

end

/-! ### A key not found -/

/-- An object of one letter in memory that holds `x`. -/
def blank (x : UInt64) : StrBagKey 1 := ⟨fun _ => 0, x⟩

/-- A frame of memory that holds `x`. -/
def frame (x : UInt64) : Frame 1 := ⟨blank x, blank x⟩

/-- A value. -/
def five : Value 0 := ⟨fun _ => 0, 5⟩

theorem strBagKey_found_a :
    ((blank 0).ofString [97]).eq ((blank 7).ofString [97]) = true ∧
      (Wrapper.masstree.handed (frame 0) ((blank 0).ofString [97]) =
          Wrapper.masstree.handed (frame 0) ((blank 7).ofString [97]) ↔
        Wrapper.masstree.leftover (frame 0) = Wrapper.masstree.leftover (frame 0)) ∧
      getStr .masstree (.ofFun _ _) (frame 0) ((blank 7).ofString [97])
          (insertStrs (n := 0) .masstree (.ofFun _ _) ([] : List (Frame 1 × _))
            (insertStr .masstree (.ofFun _ _) (frame 0) ((blank 0).ofString [97]) five fun _ => none)) =
        if Wrapper.masstree.leftover (frame 0) = Wrapper.masstree.leftover (frame 0) then some five
        else getStr .masstree (.ofFun _ _) (frame 0) ((blank 7).ofString [97]) fun _ => none :=
  strBagKey_found .masstree (.ofFun _ _) (.string (blank 0) (by decide)) (.string (blank 7) (by decide)) (frame 0) (frame 0)
    five (fun _ => none) (fun _ he => absurd he List.not_mem_nil)

/-- The same key is looked up while the stack holds something else: both wrappers miss it. -/
theorem strBagKey_missed :
    Made [97] ((blank 0).ofString [97]) ∧
    ((blank 0).ofString [97]).eq ((blank 0).ofString [97]) = true ∧
    (∀ w : Wrapper, w.handed (frame 0) ((blank 0).ofString [97]) ≠ w.handed (frame 1) ((blank 0).ofString [97])) ∧
    ∀ w : Wrapper, getStr (n := 0) w (.ofFun _ _) (frame 1) ((blank 0).ofString [97])
      (insertStr w (.ofFun _ _) (frame 0) ((blank 0).ofString [97]) five fun _ => none) = none := by
  refine ⟨.string (blank 0) (by decide), by decide, fun w => ?_, fun w => ?_⟩
  · cases w <;> decide
  · cases w <;> rfl

end SidleBaselines.Kv
