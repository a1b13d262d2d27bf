import SidleBaselines.Data.Bytes
import SidleBaselines.Tpcc.World

/-!
# Customers by name

The customer-name index is kept in the order of its keys' bytes: the warehouse, the district,
the last name and the first, each name in sixteen bytes. A name stored is filled up with
blanks. The lookup by last name fills it up with zeros.

## What is proved

* `nameKey_compare` — for warehouses below 256, and names of letters and digits, the order of
  the bytes is the order of warehouse, district, last name and first name.
* `lastName_lookup` — no customer of a loaded district is ever found by last name.
-/

namespace SidleBaselines.Tpcc

open SidleBaselines.Data

/-! ### Strings of a fixed size -/

/-- The bytes of a string. -/
def bytes (s : List Char) : List UInt8 := s.map fun c => UInt8.ofNat c.toNat

/-- `varibale_str<N>`. -/
@[ext] structure VaribaleStr (N : ℕ) where
  /-- `uint8_t buf[N]`. -/
  buf : List UInt8
  /-- It has `N` bytes. -/
  size : buf.length = N
  deriving DecidableEq

namespace VaribaleStr

variable {N : ℕ}

/-- `assign(s, n)`, `n` being the length of `s`: what is missing is filled up with blanks. -/
def assignN (s : List UInt8) : VaribaleStr N := ⟨pad N 0x20 s, length_pad _ _ _⟩

/-- `assign(s)`: the string ends at its first zero. -/
def assign (s : List UInt8) : VaribaleStr N := assignN (s.takeWhile fun b => b ≠ 0)

instance : Packed (VaribaleStr N) where
  size := N
  toBytes s := s.buf
  ofBytes := assignN
  length_toBytes s := s.size
  ofBytes_toBytes s := VaribaleStr.ext (by
    have hpad := pad_self 0x20 s.buf
    rwa [s.size] at hpad)
  toBytes_ofBytes l hl := by
    subst hl
    exact pad_self 0x20 l

/-- A string that has no zero in it has none when it is assigned. -/
theorem zero_notMem_assign (s : List UInt8) : 0 ∉ (assign s : VaribaleStr N).buf := by
  intro h
  rcases List.mem_append.mp h with h | h
  · have hne := List.mem_takeWhile_imp (List.mem_of_mem_take h)
    simp at hne
  · exact absurd (List.eq_of_mem_replicate h) (by decide)

end VaribaleStr

/-! ### Keys -/

/-- `CustomerNameIndexKey`. -/
@[ext] structure CustomerNameIndexKey where
  /-- `uint16_t ci_w_id`. -/
  ciWId : UInt16
  /-- `uint8_t ci_d_id`. -/
  ciDId : UInt8
  /-- `varibale_str<16> ci_last`. -/
  ciLast : VaribaleStr 16
  /-- `varibale_str<16> ci_first`. -/
  ciFirst : VaribaleStr 16

/-- `CustomerNameIndexVal`. -/
structure CustomerNameIndexVal where
  /-- `uint32_t ci_c_id`. -/
  ciCId : ℕ

namespace CustomerNameIndexKey

/-- The members in the order of their addresses. -/
def members : CustomerNameIndexKey ≃ UInt16 × UInt8 × VaribaleStr 16 × VaribaleStr 16 :=
  ⟨fun k => (k.ciWId, k.ciDId, k.ciLast, k.ciFirst), fun m => ⟨m.1, m.2.1, m.2.2.1, m.2.2.2⟩, fun _ => rfl,
    fun _ => rfl⟩

instance : Packed CustomerNameIndexKey := .ofEquiv members

/-- `operator<` and the others are `memcmp` over the structure. -/
instance : LinearOrder CustomerNameIndexKey :=
  LinearOrder.lift' Packed.toBytes fun _ _ h => Packed.toBytes_inj.mp h

/-- `memcmp(&l, &r, sizeof(CustomerNameIndexKey))`. -/
def cmp (l r : CustomerNameIndexKey) : Ordering := memcmp (Packed.toBytes l) (Packed.toBytes r)

theorem cmp_ne_gt {k k' : CustomerNameIndexKey} (h : k ≤ k') : k.cmp k' ≠ .gt := by
  intro hgt
  have hlt : k'.cmp k = .lt := by
    rw [cmp, ← memcmp_swap]
    exact congrArg Ordering.swap hgt
  exact (show ¬ k' < k from not_lt.mpr h) (memcmp_lt_iff.mp hlt)

/-- The bytes of a key, up to the first name. -/
def front (k : CustomerNameIndexKey) : List UInt8 :=
  Packed.toBytes k.ciWId ++ Packed.toBytes k.ciDId ++ k.ciLast.buf

theorem toBytes_eq (k : CustomerNameIndexKey) : Packed.toBytes k = k.front ++ k.ciFirst.buf := by
  rw [front, List.append_assoc, List.append_assoc]
  rfl

theorem length_front (k : CustomerNameIndexKey) : k.front.length = 19 := by
  rw [front, List.length_append, List.length_append, Packed.length_toBytes, Packed.length_toBytes,
    k.ciLast.size]
  rfl

/-- The members decide one after another. -/
theorem cmp_eq (l r : CustomerNameIndexKey) : l.cmp r =
    (((memcmp (Packed.toBytes l.ciWId) (Packed.toBytes r.ciWId)).then
      (memcmp (Packed.toBytes l.ciDId) (Packed.toBytes r.ciDId))).then
        (memcmp l.ciLast.buf r.ciLast.buf)).then (memcmp l.ciFirst.buf r.ciFirst.buf) := by
  rw [cmp, toBytes_eq, toBytes_eq, memcmp_append (by rw [length_front, length_front]), front, front,
    memcmp_append (by simp), memcmp_append (by simp)]

/-- Keys between two that agree up to the first name have that last name. -/
theorem ciLast_between {k₀ k k₁ : CustomerNameIndexKey} (hfront : k₀.front = k₁.front) (h₀ : k₀ ≤ k)
    (h₁ : k ≤ k₁) :
    k₀.ciLast = k.ciLast := by
  have hlo := cmp_ne_gt h₀
  have hhi := cmp_ne_gt h₁
  rw [cmp, toBytes_eq, toBytes_eq k] at hlo
  rw [cmp, toBytes_eq, toBytes_eq k₁, ← hfront] at hhi
  have hfronts := memcmp_between (by rw [length_front, length_front]) hlo hhi
  refine VaribaleStr.ext (List.append_inj hfronts ?_).2
  rw [List.length_append, List.length_append, Packed.length_toBytes, Packed.length_toBytes,
    Packed.length_toBytes, Packed.length_toBytes]

end CustomerNameIndexKey

/-! ### The order of names -/

/-- At most sixteen letters and digits. -/
structure IsName (s : List UInt8) : Prop where
  length : s.length ≤ 16
  alnum : ∀ b ∈ s, isalnum (Char.ofNat b.toNat) = true

/-- A blank is less than any letter or digit. -/
theorem IsName.blank_lt {s : List UInt8} (h : IsName s) {b : UInt8} (hb : b ∈ s) : 0x20 < b := by
  have hcontrol : ∀ n < 33, isalnum (Char.ofNat n) = false := by decide
  rw [UInt8.lt_iff_toNat_lt]
  by_contra hle
  have hnot := hcontrol b.toNat (Nat.lt_succ_of_le (Nat.not_lt.mp hle))
  rw [h.alnum b hb] at hnot
  cases hnot

theorem IsName.assign {s : List UInt8} (h : IsName s) :
    (VaribaleStr.assign s : VaribaleStr 16).buf = pad 16 0x20 s := by
  have hzero : (s.takeWhile fun b => b ≠ 0) = s :=
    List.takeWhile_eq_self_iff.mpr fun b hb => by
      have hlt := h.blank_lt hb
      simp only [decide_eq_true_eq]
      rintro rfl
      exact absurd hlt (by decide)
  unfold VaribaleStr.assign VaribaleStr.assignN
  rw [hzero]

theorem memcmp_assign {s s' : List UInt8} (h : IsName s) (h' : IsName s') :
    memcmp (VaribaleStr.assign s : VaribaleStr 16).buf (VaribaleStr.assign s' : VaribaleStr 16).buf =
      compare s s' := by
  rw [h.assign, h'.assign]
  exact memcmp_pad (fun b hb => h.blank_lt hb) (fun b hb => h'.blank_lt hb) h.length h'.length

/-- The low byte of a warehouse below 256 comes first, and decides. -/
theorem memcmp_warehouse {w w' : UInt16} (h : w.toNat < 256) (h' : w'.toNat < 256) :
    memcmp (Packed.toBytes w) (Packed.toBytes w') = compare w.toNat w'.toNat := by
  have hbytes : ∀ {n : ℕ}, n < 256 → leBytes 2 n = [UInt8.ofNat n, 0] := by
    intro n hn
    rw [leBytes, leBytes, leBytes, Nat.div_eq_of_lt hn]
    rfl
  change memcmp (leBytes 2 w.toNat) (leBytes 2 w'.toNat) = _
  have hhigh : compare (0 : UInt8) 0 = .eq := rfl
  rw [hbytes h, hbytes h', memcmp_cons, memcmp_cons, memcmp_nil, compare_toNat, UInt8.toNat_ofNat_of_lt' h,
    UInt8.toNat_ofNat_of_lt' h', hhigh, Ordering.then_eq, Ordering.then_eq]

theorem memcmp_district (d d' : UInt8) :
    memcmp (Packed.toBytes d) (Packed.toBytes d') = compare d.toNat d'.toNat := by
  have hbytes : ∀ d : UInt8, Packed.toBytes d = [d] := by
    intro d
    change leBytes 1 d.toNat = [d]
    rw [leBytes, leBytes, UInt8.ofNat_toNat]
  rw [hbytes, hbytes, memcmp_cons, memcmp_nil, Ordering.then_eq, compare_toNat]

/-- The key of a warehouse, a district and two names. -/
def CustomerNameIndexKey.make (w : UInt16) (d : UInt8) (lastName firstName : List UInt8) :
    CustomerNameIndexKey where
  ciWId := w
  ciDId := d
  ciLast := .assign lastName
  ciFirst := .assign firstName

/-- **The index's order** is that of warehouse, district, last name and first name. -/
theorem nameKey_compare {w w' : UInt16} (d d' : UInt8) {last first last' first' : List UInt8}
    (hw : w.toNat < 256)
    (hw' : w'.toNat < 256) (hlast : IsName last) (hfirst : IsName first) (hlast' : IsName last')
    (hfirst' : IsName first') :
    (CustomerNameIndexKey.make w d last first).cmp (.make w' d' last' first') =
      (((compare w.toNat w'.toNat).then (compare d.toNat d'.toNat)).then (compare last last')).then
        (compare first first') ∧
      ((CustomerNameIndexKey.make w d last first).cmp (.make w' d' last' first') = .eq ↔
        w = w' ∧ d = d' ∧ last = last' ∧ first = first') := by
  have hcmp : (CustomerNameIndexKey.make w d last first).cmp (.make w' d' last' first') =
      (((compare w.toNat w'.toNat).then (compare d.toNat d'.toNat)).then (compare last last')).then
        (compare first first') := by
    rw [CustomerNameIndexKey.cmp_eq]
    simp only [CustomerNameIndexKey.make]
    rw [memcmp_warehouse hw hw', memcmp_district, memcmp_assign hlast hlast', memcmp_assign hfirst hfirst']
  refine ⟨hcmp, ?_⟩
  rw [hcmp, Ordering.then_eq_eq, Ordering.then_eq_eq, Ordering.then_eq_eq, Nat.compare_eq_eq,
    Nat.compare_eq_eq, Std.LawfulEqOrd.compare_eq_iff_eq, Std.LawfulEqOrd.compare_eq_iff_eq,
    UInt16.toNat_inj, UInt8.toNat_inj, and_assoc, and_assoc]

/-- `"BAR"` before `"BARPRES"`. -/
theorem nameKey_compare_prefix : (CustomerNameIndexKey.make 1 1 (bytes "BAR".toList) (bytes "Zoe".toList)).cmp
    (.make 1 1 (bytes "BARPRES".toList) (bytes "Amy".toList)) = .lt := by
  have hname : ∀ s ∈ ["BAR", "Zoe", "BARPRES", "Amy"], IsName (bytes s.toList) := by
    intro s hs
    fin_cases hs <;> exact ⟨by simp [bytes], by simp [bytes, isalnum]⟩
  rw [(nameKey_compare 1 1 (by decide) (by decide) (hname "BAR" (by decide)) (hname "Zoe" (by decide))
    (hname "BARPRES" (by decide)) (hname "Amy" (by decide))).1]
  decide

/-! ### Loading -/

variable (args : Args)

/-- What `load_customer` makes of one customer: the row, and the entry of
`temp_customer_index_map`. -/
def loadCustomerEntry (wI dI cI : ℕ) :
    Draw ((CKey × CVal) × CustomerNameIndexKey × CustomerNameIndexVal) := do
  let cDiscount ← randomNumber 1 5000
  let credit ← randomNumber 1 100
  let lastName ← loadLastName cI
  let firstName ← randomStrOf 8 16
  drawAddress
  let _ ← randomNStr 4
  let _ ← randomNStr 16
  let cData ← randomStrOf 300 500
  return ((CKey.make cI dI wI,
      { cDiscount := cDiscount / 10000, cBalance := -10, cYtdPayment := 10, cPaymentCnt := 1,
        cDeliveryCnt := 0, cCredit := varibaleStr 2 (if credit ≤ 10 then "BC" else "GC").toList,
        cData := varibaleStr 500 cData }),
    .make (UInt16.ofNat wI) (UInt8.ofNat dI) (bytes lastName) (bytes firstName), { ciCId := cI })

instance : LawfulMonad Draw :=
  LawfulMonad.mk' Draw (fun _ => rfl) (fun _ _ => rfl) (fun _ _ _ => rfl)

/-- The row is the one `load_customer` makes. -/
theorem loadCustomerEntry_row (wI dI cI : ℕ) :
    (do let e ← loadCustomerEntry wI dI cI; return e.1) = loadCustomerRow wI dI cI := by
  simp only [loadCustomerEntry, loadCustomerRow, bind_assoc, pure_bind]

/-- `load_customer`, with the index it leaves in `temp_customer_index_map`. -/
def loadCustomers : Draw (List ((CKey × CVal) × CustomerNameIndexKey × CustomerNameIndexVal) × Unit) :=
  forRange args.warehouseNum () fun wI s =>
    forRange args.numDistrictPerWarehouse s fun dI s =>
      forRange numCustomerPerDistrict s fun cI s => do
        let entry ← loadCustomerEntry wI dI cI
        return ([entry], s)

/-- `load_customer_index`: a copy of what `load_customer` has left. -/
def loadCustomerIndex (r : FastRandom) : Table CustomerNameIndexKey CustomerNameIndexVal :=
  let tempCustomerIndexMap := Table.load ((loadCustomers args r).1.1.map Prod.snd)
  Table.load tempCustomerIndexMap.entries

/-! ### Looking up -/

/-- `GetNonUniformCustomerLastNameRun(buf, r)`: the name it writes. -/
def getNonUniformCustomerLastNameRun : Draw (List Char) := do
  let num ← nonUniformRandom 255 223 0 999
  return getCustomerLastName num.toNat

/-- `lastname_buf`, cleared and with the name in it. -/
def lastnameBuf (name : List Char) : List UInt8 := bytes name ++ List.replicate (16 - (bytes name).length) 0

/-- `k_c_idx_0` and `k_c_idx_1`, but for what `ci_first` is assigned. -/
def nameProbe (w : UInt16) (d : UInt8) (name : List Char) (first : List UInt8) : CustomerNameIndexKey where
  ciWId := w
  ciDId := d
  ciLast := .assignN (lastnameBuf name)
  ciFirst := .assign first

/-- `range_scan` between the two probes. -/
def findByLastName (index : Table CustomerNameIndexKey CustomerNameIndexVal) (w : UInt16) (d : UInt8)
    (name : List Char) : List (CustomerNameIndexKey × CustomerNameIndexVal) :=
  index.range (nameProbe w d name (List.replicate 16 0)) (nameProbe w d name (List.replicate 16 255))

/-- The entries of district `d` of `w` under a last name. -/
def withLastName (index : Table CustomerNameIndexKey CustomerNameIndexVal) (w : UInt16) (d : UInt8)
    (name : List Char) : List (CustomerNameIndexKey × CustomerNameIndexVal) :=
  index.entries.filter fun e => e.1.ciWId = w ∧ e.1.ciDId = d ∧ e.1.ciLast = .assign (bytes name)

/-! ### No name is found -/

theorem length_token (i : ℕ) : (nameTokens.getD i "").toList.length ≤ 5 := by
  by_cases hi : i < 10
  · interval_cases i <;> decide
  · rw [List.getD_eq_default _ _ (Nat.not_lt.mp hi)]
    decide

/-- A last name leaves room for a zero. -/
theorem length_lastName (num : ℕ) : (bytes (getCustomerLastName num)).length ≤ 15 := by
  have h₁ := length_token (num / 100)
  have h₂ := length_token (num / 10 % 10)
  have h₃ := length_token (num % 10)
  rw [bytes, List.length_map, getCustomerLastName, String.toList_append, String.toList_append,
    List.length_append, List.length_append]
  omega

/-- What is looked for has a zero in it. -/
theorem zero_mem_probe (w : UInt16) (d : UInt8) (num : ℕ) (first : List UInt8) :
    0 ∈ (nameProbe w d (getCustomerLastName num) first).ciLast.buf := by
  have hlength := length_lastName num
  have hsize : (lastnameBuf (getCustomerLastName num)).length = 16 := by
    rw [lastnameBuf, List.length_append, List.length_replicate]
    omega
  change 0 ∈ pad 16 0x20 (lastnameBuf (getCustomerLastName num))
  rw [← hsize, pad_self]
  exact List.mem_append_right _ (List.mem_replicate.mpr ⟨by omega, rfl⟩)

/-- **Nothing is found** in an index of assigned names. -/
theorem findByLastName_eq_nil {index : Table CustomerNameIndexKey CustomerNameIndexVal}
    (h : ∀ k v, index.get k = some v → ∃ s, k.ciLast = .assign s) (w : UInt16) (d : UInt8) (num : ℕ) :
    findByLastName index w d (getCustomerLastName num) = [] := by
  refine List.eq_nil_iff_forall_not_mem.mpr fun e he => ?_
  obtain ⟨hget, hlo, hhi⟩ := Table.mem_range.mp he
  obtain ⟨s, hs⟩ := h _ _ hget
  have hfront : (nameProbe w d (getCustomerLastName num) (List.replicate 16 0)).front =
      (nameProbe w d (getCustomerLastName num) (List.replicate 16 255)).front := rfl
  have hlast := CustomerNameIndexKey.ciLast_between hfront hlo hhi
  have hzero := zero_mem_probe w d num (List.replicate 16 0)
  rw [hlast, hs] at hzero
  exact VaribaleStr.zero_notMem_assign s hzero

/-! ### Loaded names -/

/-- The entry of customer `i.2.2` of district `i.2.1` of warehouse `i.1`. -/
structure NameEmitted (i : ℕ × ℕ × ℕ) (e : CustomerNameIndexKey × CustomerNameIndexVal) : Prop where
  warehouse : e.1.ciWId = UInt16.ofNat i.1
  district : e.1.ciDId = UInt8.ofNat i.2.1
  assigned : ∃ s, e.1.ciLast = .assign s
  last : i.2.2 ≤ 1000 → e.1.ciLast = .assign (bytes (getCustomerLastName (i.2.2 - 1)))

variable {args}

theorem gives_loadLastName (c : ℕ) :
    Gives (loadLastName c) fun s => c ≤ 1000 → s = getCustomerLastName (c - 1) := by
  unfold loadLastName
  split_ifs with h
  · exact .pure fun _ => rfl
  · exact fun r hc => absurd hc h

theorem gives_loadCustomerEntry (w d c : ℕ) :
    Gives (loadCustomerEntry w d c) fun e => NameEmitted (w, d, c) e.2 := by
  refine .skip fun cDiscount => .skip fun credit => (gives_loadLastName c).bind fun lastName hlast => ?_
  refine .skip fun firstName => .skip fun _ => .skip fun _ => .skip fun _ => .skip fun cData => .pure ?_
  exact {
    warehouse := rfl
    district := rfl
    assigned := ⟨_, rfl⟩
    last := fun hc => by rw [← hlast hc]; rfl }

theorem names_emitted (r : FastRandom) : List.Forall₂ NameEmitted (customerIdx args)
    ((loadCustomers args r).1.1.map Prod.snd) := by
  have h : Gives (loadCustomers args) fun x =>
      List.Forall₂ (fun i e => NameEmitted i e.2) (customerIdx args) x.1 :=
    gives_loop _ _ fun w _ _ _ => gives_loop _ _ fun d _ _ _ => gives_rows (fun c => (w, d, c)) _
      fun c _ _ => gives_loadCustomerEntry w d c
  exact List.forall₂_map_right_iff.mpr (h r)

theorem loadCustomerIndex_eq (r : FastRandom) :
    loadCustomerIndex args r = Table.load ((loadCustomers args r).1.1.map Prod.snd) := Table.load_entries _

/-- An entry of the index is some customer's. -/
theorem exists_emitted {r : FastRandom} {k : CustomerNameIndexKey} {v : CustomerNameIndexVal}
    (h : (loadCustomerIndex args r).get k = some v) :
    ∃ w d c, args.IsDistrict w d ∧ NameEmitted (w, d, c) (k, v) := by
  rw [loadCustomerIndex_eq] at h
  obtain ⟨⟨w, d, c⟩, hi, hem⟩ := Table.forall₂_exists_left (names_emitted r) (Table.mem_of_get_load h)
  exact ⟨w, d, c, (mem_customerIdx.mp hi).1, hem⟩

/-- A loaded district has a customer of every name. -/
theorem exists_named {w d num : ℕ} (h : args.IsDistrict w d) (hnum : num ≤ 999) (r : FastRandom) :
    ∃ k v, (loadCustomerIndex args r).get k = some v ∧ k.ciWId = UInt16.ofNat w ∧ k.ciDId = UInt8.ofNat d ∧
      k.ciLast = .assign (bytes (getCustomerLastName num)) := by
  have hi : (w, d, num + 1) ∈ customerIdx args := by
    refine mem_customerIdx.mpr ⟨h, by omega, ?_⟩
    simp only [numCustomerPerDistrict]
    omega
  obtain ⟨⟨k, v⟩, he, hem⟩ := Table.forall₂_exists_right (names_emitted r) hi
  obtain ⟨u, hu⟩ := Table.exists_get_load he
  rw [← loadCustomerIndex_eq] at hu
  exact ⟨k, u, hu, hem.warehouse, hem.district, hem.last (by dsimp only; omega)⟩

theorem mem_withLastName {index : Table CustomerNameIndexKey CustomerNameIndexVal} {w : UInt16} {d : UInt8}
    {name : List Char} {e : CustomerNameIndexKey × CustomerNameIndexVal} :
    e ∈ withLastName index w d name ↔
      index.get e.1 = some e.2 ∧ e.1.ciWId = w ∧ e.1.ciDId = d ∧ e.1.ciLast = .assign (bytes name) := by
  rw [withLastName, List.mem_filter, Table.mem_entries, decide_eq_true_eq]

theorem exists_num (r : FastRandom) :
    ∃ num ≤ 999, (getNonUniformCustomerLastNameRun r).1 = getCustomerLastName num := by
  have h : Gives getNonUniformCustomerLastNameRun fun s => ∃ num ≤ 999, s = getCustomerLastName num := by
    refine (gives_nonUniformRandom 255 223 0 999 (by decide)).bind fun num hnum => .pure ⟨num.toNat, ?_, rfl⟩
    have hle := hnum.2
    push_cast at hle
    omega
  exact h r

/-- Of a loaded district there are entries under every name. -/
theorem withLastName_ne_nil {w : UInt16} {d : UInt8} (h : args.IsDistrict w.toNat d.toNat)
    (r r' : FastRandom) :
    withLastName (loadCustomerIndex args r) w d (getNonUniformCustomerLastNameRun r').1 ≠ [] := by
  obtain ⟨num, hnum, hname⟩ := exists_num r'
  obtain ⟨k, v, hget, hw, hd, hlast⟩ := exists_named h hnum r
  refine List.ne_nil_of_mem (mem_withLastName (e := (k, v)) |>.mpr ⟨hget, ?_, ?_, ?_⟩)
  · rw [hw, UInt16.ofNat_toNat]
  · rw [hd, UInt8.ofNat_toNat]
  · rw [hname, hlast]

/-- Nothing is found under any. -/
theorem findByLastName_nil (w : UInt16) (d : UInt8) (r r' : FastRandom) :
    findByLastName (loadCustomerIndex args r) w d (getNonUniformCustomerLastNameRun r').1 = [] := by
  obtain ⟨num, -, hname⟩ := exists_num r'
  rw [hname]
  refine findByLastName_eq_nil (fun k v hk => ?_) w d num
  obtain ⟨_, _, _, -, hem⟩ := exists_emitted hk
  exact hem.assigned

/-- **Customers by last name**: what is found is right only where there is nothing to be found. -/
theorem lastName_lookup (args : Args) (r r' : FastRandom) (w : UInt16) (d : UInt8) :
    findByLastName (loadCustomerIndex args r) w d (getNonUniformCustomerLastNameRun r').1 =
        withLastName (loadCustomerIndex args r) w d (getNonUniformCustomerLastNameRun r').1 ↔
      ¬ args.IsDistrict w.toNat d.toNat := by
  rw [findByLastName_nil]
  constructor
  · intro hempty h
    exact withLastName_ne_nil h r r' hempty.symm
  · intro h
    refine (List.eq_nil_iff_forall_not_mem.mpr fun e he => h ?_).symm
    obtain ⟨hget, hw, hd, -⟩ := mem_withLastName.mp he
    obtain ⟨w', d', c, hloaded, hem⟩ := exists_emitted hget
    obtain ⟨hlt, hlt'⟩ := IsDistrict.lt hloaded
    rw [← hw, ← hd, hem.warehouse, hem.district]
    dsimp only
    rw [UInt16.toNat_ofNat_of_lt' hlt, UInt8.toNat_ofNat_of_lt' hlt']
    exact hloaded

/-- The first district of two warehouses, and the name drawn from seed 0. -/
theorem lastName_missed : (twoWarehouses.IsDistrict (1 : UInt16).toNat (1 : UInt8).toNat) ∧
    findByLastName (loadCustomerIndex twoWarehouses (FastRandom.new 923587856425)) 1 1
        (getNonUniformCustomerLastNameRun (FastRandom.new 0)).1 ≠
      withLastName (loadCustomerIndex twoWarehouses (FastRandom.new 923587856425)) 1 1
        (getNonUniformCustomerLastNameRun (FastRandom.new 0)).1 := by
  refine ⟨isDistrict_one, ?_⟩
  rw [findByLastName_nil]
  exact (withLastName_ne_nil isDistrict_one _ _).symm

end SidleBaselines.Tpcc
