import Mathlib.Data.Fin.Tuple.Basic
import Mathlib.Data.List.Lex
import Mathlib.Order.Compare
import Mathlib.Tactic.Ring

/-!
# Byte strings

The bytes of integers and of packed structures on a little-endian machine, and
the order a byte-string index keeps. The bytes of a number stand least
significant first (`leBytes`), so `memcmp`, which looks at the first byte first,
does not compare numbers; it does once both strings are reversed.

A type is *packed* (`Packed`) when its values are exactly the byte strings of one
length: integers are, arrays of bytes are, and so is a structure of packed fields
without padding between them.

## What is proved

* `leNat_leBytes`, `leBytes_leNat` — the bytes of a number and back.
* `memcmp_append` — `memcmp` of concatenations goes part by part.
* `memcmp_lt_iff` — `memcmp` is the lexicographic order.
* `memcmp_pad` — `memcmp` of strings padded with blanks is the order of the strings.
* `memcmp_reverse` — `memcmp` of reversed bytes is the order of the numbers.
* `Packed.reverse_reverse` — a value with its bytes reversed twice is itself.
* `Packed.compare_prod` — a structure read as a number is ordered by its last
  field first.
-/

namespace SidleBaselines.Data

/-! ### The bytes of a number -/

/-- The number a byte string stands for, least significant byte first. -/
def leNat : List UInt8 → ℕ
  | [] => 0
  | b :: l => b.toNat + 256 * leNat l

/-- The `n` low bytes of a number, least significant first. -/
def leBytes : ℕ → ℕ → List UInt8
  | 0, _ => []
  | n + 1, x => UInt8.ofNat x :: leBytes n (x / 256)

@[simp] theorem length_leBytes (n x : ℕ) : (leBytes n x).length = n := by
  induction n generalizing x with
  | zero => rfl
  | succ n ih => rw [leBytes, List.length_cons, ih]

theorem leNat_lt (l : List UInt8) : leNat l < 256 ^ l.length := by
  induction l with
  | nil => exact Nat.one_pos
  | cons b l ih =>
    have hb := b.toNat_lt
    rw [leNat, List.length_cons, pow_succ]
    omega

theorem leNat_append (l r : List UInt8) : leNat (l ++ r) = leNat l + 256 ^ l.length * leNat r := by
  induction l with
  | nil => rw [List.nil_append, leNat, List.length_nil, pow_zero, Nat.one_mul, Nat.zero_add]
  | cons b l ih =>
    rw [List.cons_append, leNat, leNat, ih, List.length_cons, pow_succ]
    ring

theorem leNat_leBytes {n x : ℕ} (h : x < 256 ^ n) : leNat (leBytes n x) = x := by
  induction n generalizing x with
  | zero => rw [pow_zero] at h; rw [leBytes, leNat]; omega
  | succ n ih =>
    have hx : x / 256 < 256 ^ n := by rw [pow_succ] at h; omega
    rw [leBytes, leNat, ih hx, UInt8.toNat_ofNat']
    omega

theorem leBytes_leNat (l : List UInt8) : leBytes l.length (leNat l) = l := by
  induction l with
  | nil => rfl
  | cons b l ih =>
    have hb := b.toNat_lt
    have hhead : UInt8.ofNat (b.toNat + 256 * leNat l) = b := by
      apply UInt8.toNat_inj.mp
      rw [UInt8.toNat_ofNat']
      omega
    have htail : (b.toNat + 256 * leNat l) / 256 = leNat l := by omega
    rw [leNat, List.length_cons, leBytes, hhead, htail, ih]

/-! ### Comparing bytes -/

/-- The sign of `memcmp` over two byte strings of one length: the first byte that differs decides. -/
def memcmp (a b : List UInt8) : Ordering := compare a b

/-- Bytes compare as numbers. -/
theorem compare_toNat (a b : UInt8) : compare a b = compare a.toNat b.toNat := by
  rcases lt_trichotomy a.toNat b.toNat with h | h | h
  · rw [Nat.compare_eq_lt.mpr h]
    exact if_pos h
  · rw [Nat.compare_eq_eq.mpr h, UInt8.toNat_inj.mp h]
    exact Std.ReflCmp.compare_self
  · rw [Nat.compare_eq_gt.mpr h]
    exact (if_neg h.not_gt).trans (if_neg fun hab => h.ne' (congrArg UInt8.toNat hab))

@[simp] theorem memcmp_cons (a b : UInt8) (l r : List UInt8) :
    memcmp (a :: l) (b :: r) = (compare a b).then (memcmp l r) :=
  List.compare_cons_cons

@[simp] theorem memcmp_nil : memcmp [] [] = .eq := rfl

theorem memcmp_append {l l' : List UInt8} (h : l.length = l'.length) (r r' : List UInt8) :
    memcmp (l ++ r) (l' ++ r') = (memcmp l l').then (memcmp r r') := by
  induction l generalizing l' with
  | nil =>
    obtain rfl := List.length_eq_zero_iff.mp h.symm
    rfl
  | cons a l ih =>
    cases l' with
    | nil => cases h
    | cons b l' =>
      rw [List.cons_append, List.cons_append, memcmp_cons, memcmp_cons, ih (Nat.succ.inj h),
        Ordering.then_assoc]

theorem memcmp_eq_iff {l r : List UInt8} (h : l.length = r.length) : memcmp l r = .eq ↔ l = r := by
  induction l generalizing r with
  | nil =>
    obtain rfl := List.length_eq_zero_iff.mp h.symm
    exact iff_of_true rfl rfl
  | cons a l ih =>
    cases r with
    | nil => cases h
    | cons b r =>
      rw [memcmp_cons, Ordering.then_eq_eq, ih (Nat.succ.inj h), List.cons.injEq,
        Std.LawfulEqOrd.compare_eq_iff_eq]

instance linearOrderUInt8 : LinearOrder UInt8 where
  le_refl _ := UInt8.le_refl _
  le_trans _ _ _ := UInt8.le_trans
  le_antisymm _ _ := UInt8.le_antisymm
  le_total := UInt8.le_total
  lt_iff_le_not_ge _ _ := ⟨fun h => ⟨UInt8.le_of_lt h, UInt8.not_le.mpr h⟩, fun h => UInt8.not_le.mp h.2⟩
  toDecidableLE := inferInstance
  toDecidableEq := inferInstance
  toDecidableLT := inferInstance
  toOrd := inferInstance

/-- `memcmp` is the lexicographic order of the byte strings. -/
theorem memcmp_lt_iff {l r : List UInt8} : memcmp l r = .lt ↔ l < r := by
  induction l generalizing r with
  | nil =>
    cases r with
    | nil => exact iff_of_false (by decide) (List.not_lt_nil [])
    | cons b r => exact iff_of_true rfl (List.nil_lt_cons b r)
  | cons a l ih =>
    cases r with
    | nil => exact iff_of_false (by rw [memcmp, List.compare_cons_nil]; decide) (List.not_lt_nil _)
    | cons b r =>
      rw [memcmp_cons, Ordering.then_eq_lt, ih, List.cons_lt_cons_iff, Std.LawfulEqOrd.compare_eq_iff_eq,
        compare_toNat, Nat.compare_eq_lt, UInt8.lt_iff_toNat_lt]

theorem memcmp_swap (l r : List UInt8) : (memcmp l r).swap = memcmp r l := Std.OrientedOrd.eq_swap.symm

/-- What stands between two strings that begin alike begins so too. -/
theorem memcmp_between {p q : List UInt8} (h : p.length = q.length) {a b c : List UInt8}
    (hlo : memcmp (p ++ a) (q ++ c) ≠ .gt) (hhi : memcmp (q ++ c) (p ++ b) ≠ .gt) : p = q := by
  rw [memcmp_append h] at hlo
  rw [memcmp_append h.symm, ← memcmp_swap p q] at hhi
  refine (memcmp_eq_iff h).mp ?_
  cases hpq : memcmp p q with
  | lt =>
    rw [hpq] at hhi
    exact absurd rfl hhi
  | eq => rfl
  | gt =>
    rw [hpq] at hlo
    exact absurd rfl hlo

/-! ### Padded strings -/

/-- The string in `n` bytes: cut off, or filled up with `fill`. -/
def pad (n : ℕ) (fill : UInt8) (l : List UInt8) : List UInt8 := l.take n ++ List.replicate (n - l.length) fill

@[simp] theorem length_pad (n : ℕ) (fill : UInt8) (l : List UInt8) : (pad n fill l).length = n := by
  rw [pad, List.length_append, List.length_take, List.length_replicate]
  omega

@[simp] theorem pad_nil (n : ℕ) (fill : UInt8) : pad (n + 1) fill [] = fill :: pad n fill [] := by
  simp [pad, List.replicate_succ]

@[simp] theorem pad_cons (n : ℕ) (fill a : UInt8) (l : List UInt8) :
    pad (n + 1) fill (a :: l) = a :: pad n fill l := by
  rw [pad, pad, List.take_succ_cons, List.length_cons, Nat.add_sub_add_right, List.cons_append]

theorem pad_self (fill : UInt8) (l : List UInt8) : pad l.length fill l = l := by
  rw [pad, List.take_length, Nat.sub_self, List.replicate_zero, List.append_nil]

theorem compare_lt {a b : UInt8} (h : a < b) : compare a b = .lt := by
  rw [compare_toNat]
  exact Nat.compare_eq_lt.mpr (UInt8.lt_iff_toNat_lt.mp h)

/-- **Padded strings** compare as the strings do, if what fills them is less than what they hold. -/
theorem memcmp_pad {n : ℕ} {fill : UInt8} {l r : List UInt8} (hl : ∀ b ∈ l, fill < b) (hr : ∀ b ∈ r, fill < b)
    (hln : l.length ≤ n) (hrn : r.length ≤ n) : memcmp (pad n fill l) (pad n fill r) = compare l r := by
  induction l generalizing n r with
  | nil =>
    cases r with
    | nil => exact (memcmp_eq_iff rfl).mpr rfl
    | cons b r =>
      obtain ⟨m, rfl⟩ := Nat.exists_eq_add_one_of_ne_zero (Nat.ne_zero_of_lt hrn)
      rw [pad_nil, pad_cons, memcmp_cons, compare_lt (hr b List.mem_cons_self), List.compare_nil_cons,
        Ordering.lt_then]
  | cons a l ih =>
    obtain ⟨m, rfl⟩ := Nat.exists_eq_add_one_of_ne_zero (Nat.ne_zero_of_lt hln)
    cases r with
    | nil =>
      have hgt : compare a fill = .gt := by
        rw [Std.OrientedOrd.eq_swap, compare_lt (hl a List.mem_cons_self)]
        rfl
      rw [pad_nil, pad_cons, memcmp_cons, hgt, List.compare_cons_nil, Ordering.gt_then]
    | cons b r =>
      rw [pad_cons, pad_cons, memcmp_cons, List.compare_cons_cons,
        ih (fun x hx => hl x (List.mem_cons_of_mem _ hx))
        (fun x hx => hr x (List.mem_cons_of_mem _ hx)) (Nat.le_of_succ_le_succ hln) (Nat.le_of_succ_le_succ hrn)]

/-! ### Numbers -/

/-- A number above decides before a digit below. -/
theorem compare_digit {n x y : ℕ} (hx : x < n) (hy : y < n) (u v : ℕ) :
    compare (x + n * u) (y + n * v) = (compare u v).then (compare x y) := by
  rcases lt_trichotomy u v with h | rfl | h
  · have hn : n * (u + 1) ≤ n * v := Nat.mul_le_mul_left n h
    have hlt : x + n * u < y + n * v := by rw [Nat.mul_add, Nat.mul_one] at hn; omega
    rw [Nat.compare_eq_lt.mpr h, Nat.compare_eq_lt.mpr hlt, Ordering.lt_then]
  · rw [Nat.compare_eq_eq.mpr (rfl : u = u), Ordering.eq_then]
    rcases lt_trichotomy x y with h | rfl | h
    · rw [Nat.compare_eq_lt.mpr h, Nat.compare_eq_lt.mpr (by omega)]
    · rw [Nat.compare_eq_eq.mpr rfl, Nat.compare_eq_eq.mpr rfl]
    · rw [Nat.compare_eq_gt.mpr h, Nat.compare_eq_gt.mpr (by omega)]
  · have hn : n * (v + 1) ≤ n * u := Nat.mul_le_mul_left n h
    have hlt : y + n * v < x + n * u := by rw [Nat.mul_add, Nat.mul_one] at hn; omega
    rw [Nat.compare_eq_gt.mpr h, Nat.compare_eq_gt.mpr hlt, Ordering.gt_then]

/-- **Reversed bytes compare as the numbers they stand for.** -/
theorem memcmp_reverse {l r : List UInt8} (h : l.length = r.length) :
    memcmp l.reverse r.reverse = compare (leNat l) (leNat r) := by
  induction l generalizing r with
  | nil =>
    obtain rfl := List.length_eq_zero_iff.mp h.symm
    rfl
  | cons a l ih =>
    cases r with
    | nil => cases h
    | cons b r =>
      have hlen : l.reverse.length = r.reverse.length := by
        rw [List.length_reverse, List.length_reverse, Nat.succ.inj h]
      rw [List.reverse_cons, List.reverse_cons, memcmp_append hlen, ih (Nat.succ.inj h), memcmp_cons,
        memcmp_nil, Ordering.then_eq, leNat, leNat, compare_digit a.toNat_lt b.toNat_lt, compare_toNat]

/-! ### Packed types -/

/-- A type whose values are exactly the byte strings of one length, as they stand in memory. -/
class Packed (K : Type*) where
  /-- `sizeof`. -/
  size : ℕ
  /-- The bytes of a value in memory. -/
  toBytes : K → List UInt8
  /-- The value that stands at given bytes. -/
  ofBytes : List UInt8 → K
  /-- Every value takes `size` bytes. -/
  length_toBytes : ∀ k, (toBytes k).length = size
  /-- A value is read back. -/
  ofBytes_toBytes : ∀ k, ofBytes (toBytes k) = k
  /-- All the bytes belong to the value. -/
  toBytes_ofBytes : ∀ l, l.length = size → toBytes (ofBytes l) = l

namespace Packed

attribute [simp] length_toBytes ofBytes_toBytes

section

variable {K L : Type*}

/-- An integer of `n` bytes. -/
@[reducible] def ofNat (n : ℕ) (num : K → ℕ) (mk : ℕ → K) (hlt : ∀ x, num x < 256 ^ n)
    (hmk : ∀ x, mk (num x) = x) (hnum : ∀ x < 256 ^ n, num (mk x) = x) : Packed K where
  size := n
  toBytes x := leBytes n (num x)
  ofBytes l := mk (leNat l)
  length_toBytes _ := length_leBytes _ _
  ofBytes_toBytes x := by rw [leNat_leBytes (hlt x), hmk]
  toBytes_ofBytes l hl := by
    subst hl
    rw [hnum _ (leNat_lt l), leBytes_leNat]

/-- A type with the memory of another. -/
@[reducible] def ofEquiv [Packed L] (e : K ≃ L) : Packed K where
  size := size L
  toBytes k := toBytes (e k)
  ofBytes l := e.symm (ofBytes l)
  length_toBytes _ := length_toBytes _
  ofBytes_toBytes k := by rw [ofBytes_toBytes, e.symm_apply_apply]
  toBytes_ofBytes l hl := by rw [e.apply_symm_apply, toBytes_ofBytes l hl]

instance : Packed UInt8 := ofNat 1 UInt8.toNat UInt8.ofNat UInt8.toNat_lt (fun _ => UInt8.ofNat_toNat)
  fun _ h => UInt8.toNat_ofNat_of_lt' h

instance : Packed UInt16 := ofNat 2 UInt16.toNat UInt16.ofNat UInt16.toNat_lt (fun _ => UInt16.ofNat_toNat)
  fun _ h => UInt16.toNat_ofNat_of_lt' h

instance : Packed UInt32 := ofNat 4 UInt32.toNat UInt32.ofNat UInt32.toNat_lt (fun _ => UInt32.ofNat_toNat)
  fun _ h => UInt32.toNat_ofNat_of_lt' h

instance : Packed UInt64 := ofNat 8 UInt64.toNat UInt64.ofNat UInt64.toNat_lt (fun _ => UInt64.ofNat_toNat)
  fun _ h => UInt64.toNat_ofNat_of_lt' h

/-- A field followed by the rest of a structure. -/
instance [Packed K] [Packed L] : Packed (K × L) where
  size := size K + size L
  toBytes p := toBytes p.1 ++ toBytes p.2
  ofBytes l := (ofBytes (l.take (size K)), ofBytes (l.drop (size K)))
  length_toBytes p := by rw [List.length_append, length_toBytes, length_toBytes]
  ofBytes_toBytes p := by
    rw [List.take_left' (length_toBytes p.1), List.drop_left' (length_toBytes p.1), ofBytes_toBytes,
      ofBytes_toBytes]
  toBytes_ofBytes l hl := by
    rw [toBytes_ofBytes _ (by rw [List.length_take]; omega),
      toBytes_ofBytes _ (by rw [List.length_drop]; omega), List.take_append_drop]

/-- No field at all. -/
instance : Packed Unit where
  size := 0
  toBytes _ := []
  ofBytes _ := ()
  length_toBytes _ := rfl
  ofBytes_toBytes _ := rfl
  toBytes_ofBytes _ hl := (List.length_eq_zero_iff.mp hl).symm

/-- An array: its first element, followed by the rest. -/
instance array [Packed K] : (n : ℕ) → Packed (Fin n → K)
  | 0 => ofEquiv (Equiv.ofUnique (Fin 0 → K) Unit)
  | n + 1 =>
    let _ := array n
    ofEquiv (Fin.consEquiv fun _ : Fin (n + 1) => K).symm

/-- `int64_t`. -/
instance : Packed Int64 :=
  ofEquiv ⟨Int64.toUInt64, UInt64.toInt64, fun _ => rfl, fun _ => rfl⟩

/-! ### Reading a value as a number, and reversing it -/

/-- A value reinterpreted as an unsigned integer, `*(uint64_t *)&k` for one of eight bytes. -/
def toNat [Packed K] (k : K) : ℕ := leNat (toBytes k)

/-- The value with its bytes in the opposite order. -/
def reverse [Packed K] (k : K) : K := ofBytes (toBytes k).reverse

variable [Packed K] [Packed L]

theorem toBytes_reverse (k : K) : toBytes (reverse k) = (toBytes k).reverse :=
  toBytes_ofBytes _ (by rw [List.length_reverse, length_toBytes])

/-- **Reversing twice gives the value back.** -/
@[simp] theorem reverse_reverse (k : K) : reverse (reverse k) = k := by
  rw [reverse, toBytes_reverse, List.reverse_reverse, ofBytes_toBytes]

theorem toBytes_inj {a b : K} : toBytes a = toBytes b ↔ a = b := by
  constructor
  · intro h
    rw [← ofBytes_toBytes a, h, ofBytes_toBytes]
  · rintro rfl
    rfl

/-- The reversed bytes of two values compare as the numbers they are read as. -/
theorem memcmp_reverse (a b : K) :
    memcmp (toBytes (reverse a)) (toBytes (reverse b)) = compare (toNat a) (toNat b) := by
  rw [toBytes_reverse, toBytes_reverse]
  exact Data.memcmp_reverse (by rw [length_toBytes, length_toBytes])

theorem toNat_lt (k : K) : toNat k < 256 ^ size K := by
  have h := leNat_lt (toBytes k)
  rwa [length_toBytes] at h

@[simp] theorem toNat_uint8 (x : UInt8) : toNat x = x.toNat := leNat_leBytes x.toNat_lt

@[simp] theorem toNat_uint16 (x : UInt16) : toNat x = x.toNat := leNat_leBytes x.toNat_lt

@[simp] theorem toNat_uint32 (x : UInt32) : toNat x = x.toNat := leNat_leBytes x.toNat_lt

@[simp] theorem toNat_uint64 (x : UInt64) : toNat x = x.toNat := leNat_leBytes x.toNat_lt

theorem toNat_prod (p : K × L) : toNat p = toNat p.1 + 256 ^ size K * toNat p.2 := by
  have h := leNat_append (toBytes p.1) (toBytes p.2)
  rwa [length_toBytes] at h

/-- **The rest of a structure decides before its first field.** -/
theorem compare_prod (p q : K × L) :
    compare (toNat p) (toNat q) =
      (compare (toNat p.2) (toNat q.2)).then (compare (toNat p.1) (toNat q.1)) := by
  rw [toNat_prod, toNat_prod, compare_digit (toNat_lt p.1) (toNat_lt q.1)]

end

end Packed

end SidleBaselines.Data
