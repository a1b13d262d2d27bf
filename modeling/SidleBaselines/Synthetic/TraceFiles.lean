import SidleBaselines.Data.Text

/-!
# Reading the operations of a trace

The two functions `generate_workload` of `src/benchmark/synthetic/micro_common.h`
read a file of operations, one a line: `<type>,<key>,<rest>`, or `<type> <key>` and
`2 <key> <length>` for the traces of RocksDB. The second one adds its operations
with a variable `key` that no statement assigns; what it holds is an argument here.
An exception that `substr` or `stoull` throws makes the result `none`.

## What is proved

* `parseLine_print` — what the first parser makes of a printed line;
* `generateWorkload_iff` — it recovers a trace of gets and puts, and no other;
* `rocksdbLine_print`, `rocksdbLine_skip` — what the second makes of a line;
* `generateRocksdb_print` — of a printed trace it recovers the types and lengths;
* `traces_recovered_iff` — a trace is recovered by the first parser if and only if
  it consists of gets and puts, and by the second, whatever `key` holds, only if it
  has no operations.
-/

namespace SidleBaselines.Synthetic.TraceFiles

open Text

/-- `Op_Type`. -/
inductive OpType where
  | read
  | insert
  | remove
  | readModifyWrite
  | scan
  deriving DecidableEq, Repr

/-- The type as it stands in a trace. -/
def OpType.digit : OpType → Char
  | .read => '0'
  | .insert => '1'
  | .remove => '2'
  | .readModifyWrite => '3'
  | .scan => '4'

/-! ### Types and keys -/

/-- The body of the loop over an `operation_t` trace. -/
def parseLine (line : List Char) : Option (OpType × ℕ) := do
  let type := line.headD '\x00'
  let secComma := find ',' 2 line
  let key ← stoull (← substr 2 ((secComma + 2 ^ 64 - 2) % 2 ^ 64) line)
  return (if type = '1' then .insert else .read, key)

/-- `generate_workload` for `operation_t`. -/
def generateWorkload (file : List Char) : Option (List (OpType × ℕ)) :=
  (getlines file).mapM parseLine

/-- An operation and the rest of its line. -/
structure Record where
  type : OpType
  key : ℕ
  rest : List Char

/-- The operation. -/
def Record.op (r : Record) : OpType × ℕ :=
  (r.type, r.key)

/-- `<type>,<key>,<rest>`. -/
def Record.print (r : Record) : List Char :=
  [r.type.digit, ','] ++ Text.print r.key ++ ',' :: r.rest

/-- The key has 64 bits and the line does not end before its end. -/
structure Record.Valid (r : Record) : Prop where
  key : r.key < 2 ^ 64
  rest : '\n' ∉ r.rest

theorem length_print_le {n : ℕ} (hn : n < 2 ^ 64) : (Text.print n).length ≤ 20 := by
  rw [Text.print, Nat.length_toDigits_le_iff (by omega) (by omega)]
  omega

/-- The type a line is given. -/
theorem parseLine_print {r : Record} (hr : r.Valid) :
    parseLine r.print = some (if r.type = .insert then .insert else .read, r.key) := by
  have hcomma : ',' ∉ Text.print r.key := not_mem_print rfl
  have hlength := length_print_le hr.key
  have hfind : find ',' 2 r.print = 2 + (Text.print r.key).length :=
    find_append ',' [r.type.digit, ','] _ hcomma _
  have hcount : (find ',' 2 r.print + 2 ^ 64 - 2) % 2 ^ 64 = (Text.print r.key).length := by
    rw [hfind]
    omega
  have hsubstr : substr 2 ((find ',' 2 r.print + 2 ^ 64 - 2) % 2 ^ 64) r.print = some (Text.print r.key) :=
    substr_append [r.type.digit, ','] _ _ hcount
  have hkey : stoull (Text.print r.key) = some r.key := by
    have := stoull_print hr.key [] (by simp)
    rwa [List.append_nil] at this
  have hhead : r.print.headD '\x00' = r.type.digit := rfl
  rw [parseLine, hsubstr]
  simp only [Option.bind_eq_bind, Option.bind_some, hkey, hhead]
  cases r.type <;> rfl

/-- The lines of a printed trace. -/
theorem Record.Valid.not_newline {r : Record} (hr : r.Valid) : '\n' ∉ r.print := by
  have hkey : '\n' ∉ Text.print r.key := not_mem_print rfl
  have htype : '\n' ≠ r.type.digit := by
    cases r.type <;> decide
  simp [Record.print, hkey, htype, hr.rest]

/-- A loop that makes something of every line. -/
theorem mapM_getlines {α β : Type} (f : List Char → Option β) (print : α → List Char) (g : α → β) (xs : List α)
    (hline : ∀ x ∈ xs, '\n' ∉ print x) (hf : ∀ x ∈ xs, f (print x) = some (g x)) :
    (getlines (unlines (xs.map print))).mapM f = some (xs.map g) := by
  rw [getlines_unlines _ (by simpa using hline)]
  induction xs with
  | nil => rfl
  | cons x xs ih =>
    rw [List.map_cons, List.mapM_cons, hf x List.mem_cons_self,
      ih (fun y hy => hline y (List.mem_cons_of_mem _ hy)) fun y hy => hf y (List.mem_cons_of_mem _ hy)]
    rfl

/-- The first parser reads every trace, and recovers it if it has only gets and puts. -/
theorem generateWorkload_iff (rs : List Record) (h : ∀ r ∈ rs, r.Valid) :
    generateWorkload (unlines (rs.map Record.print)) = some (rs.map Record.op) ↔
      ∀ r ∈ rs, r.type = .read ∨ r.type = .insert := by
  rw [generateWorkload, mapM_getlines _ _ _ rs (fun r hr => (h r hr).not_newline)
    fun r hr => parseLine_print (h r hr), Option.some.injEq, List.map_inj_left]
  refine forall₂_congr fun r _ => ?_
  rw [Record.op]
  cases r.type <;> simp

/-! ### Types, keys and lengths -/

/-- What a line of a RocksDB trace adds, with `key` what the variable holds. -/
def rocksdbLine (key : ℕ) (line : List Char) : Option (List (OpType × ℕ × ℕ)) :=
  match line.headD '\x00' with
  | '0' => some [(.read, key, 0)]
  | '1' => some [(.insert, key, 0)]
  | '2' =>
    let spacePos := find ' ' 2 line
    if spacePos = npos then some []
    else do
      let length ← stoull (← substr (spacePos + 1) npos line)
      return [(.scan, key, length)]
  | _ => some []

/-- `generate_workload` for `operation_rocksdb_t`. -/
def generateRocksdb (key : ℕ) (file : List Char) : Option (List (OpType × ℕ × ℕ)) := do
  let ops ← (getlines file).mapM (rocksdbLine key)
  return ops.flatten

/-- A line of the trace: an operation, or something else. -/
inductive Entry where
  | get (key : ℕ)
  | put (key : ℕ)
  | scan (key length : ℕ)
  | other (line : List Char)

/-- `<type> <key>`, or `2 <key> <length>`. -/
def Entry.print : Entry → List Char
  | .get key => ['0', ' '] ++ Text.print key
  | .put key => ['1', ' '] ++ Text.print key
  | .scan key length => ['2', ' '] ++ Text.print key ++ ' ' :: Text.print length
  | .other line => line

/-- The operation, if it is one. -/
def Entry.ops : Entry → List (OpType × ℕ × ℕ)
  | .get key => [(.read, key, 0)]
  | .put key => [(.insert, key, 0)]
  | .scan key length => [(.scan, key, length)]
  | .other _ => []

/-- Numbers have 64 bits; other lines do not begin like an operation. -/
def Entry.Valid : Entry → Prop
  | .get key => key < 2 ^ 64
  | .put key => key < 2 ^ 64
  | .scan key length => key < 2 ^ 64 ∧ length < 2 ^ 64
  | .other line => '\n' ∉ line ∧ ∀ c ∈ line.head?, c ≠ '0' ∧ c ≠ '1' ∧ c ≠ '2'

/-- Lines that begin otherwise are skipped. -/
theorem rocksdbLine_skip (key : ℕ) {line : List Char} (h : ∀ c ∈ line.head?, c ≠ '0' ∧ c ≠ '1' ∧ c ≠ '2') :
    rocksdbLine key line = some [] := by
  cases line with
  | nil => rfl
  | cons c cs =>
    obtain ⟨h0, h1, h2⟩ := h c rfl
    rw [rocksdbLine, List.headD_cons]
    split
    · exact absurd rfl h0
    · exact absurd rfl h1
    · exact absurd rfl h2
    · rfl

theorem rocksdbLine_scan (key₀ : ℕ) {key length : ℕ} (hkey : key < 2 ^ 64) (hlength : length < 2 ^ 64) :
    rocksdbLine key₀ (Entry.scan key length).print = some [(.scan, key₀, length)] := by
  have hspace : ' ' ∉ Text.print key := not_mem_print rfl
  have hshort := length_print_le hkey
  have hshort' := length_print_le hlength
  have hfind : find ' ' 2 (Entry.scan key length).print = 2 + (Text.print key).length :=
    find_append ' ' ['2', ' '] _ hspace _
  have hne : ¬ 2 + (Text.print key).length = npos := by
    rw [npos]
    omega
  have hsubstr : substr (2 + (Text.print key).length + 1) npos (Entry.scan key length).print =
      some (Text.print length) := by
    have hprint : (Entry.scan key length).print =
        (['2', ' '] ++ Text.print key ++ [' ']) ++ Text.print length := by
      simp [Entry.print]
    have hpos : 2 + (Text.print key).length + 1 = (['2', ' '] ++ Text.print key ++ [' ']).length := by
      simp
      omega
    rw [hprint, hpos]
    refine substr_npos _ _ ?_
    rw [npos]
    omega
  have hread : stoull (Text.print length) = some length := by
    have := stoull_print hlength [] (by simp)
    rwa [List.append_nil] at this
  have hhead : (Entry.scan key length).print.headD '\x00' = '2' := rfl
  rw [rocksdbLine, hhead]
  simp only [hfind, hne, if_false, hsubstr, Option.bind_eq_bind, Option.bind_some, hread]
  rfl

/-- An operation with another key. -/
def withKey (key : ℕ) (op : OpType × ℕ × ℕ) : OpType × ℕ × ℕ :=
  (op.1, key, op.2.2)

/-- The type and the length of a printed line are recovered. -/
theorem rocksdbLine_print (key : ℕ) {e : Entry} (he : e.Valid) :
    rocksdbLine key e.print = some (e.ops.map (withKey key)) := by
  cases e with
  | get k => rfl
  | put k => rfl
  | scan k length => exact rocksdbLine_scan key he.1 he.2
  | other line => exact rocksdbLine_skip key he.2

theorem Entry.Valid.not_newline {e : Entry} (he : e.Valid) : '\n' ∉ e.print := by
  have hprint : ∀ n, '\n' ∉ Text.print n := fun n => not_mem_print rfl
  cases e with
  | get k => simp [Entry.print, hprint]
  | put k => simp [Entry.print, hprint]
  | scan k length => simp [Entry.print, hprint]
  | other line => exact he.1

/-- The operations of the trace. -/
def rocksdbOps (es : List Entry) : List (OpType × ℕ × ℕ) :=
  es.flatMap Entry.ops

/-- The second parser recovers the types and the lengths. -/
theorem generateRocksdb_print (key : ℕ) (es : List Entry) (h : ∀ e ∈ es, e.Valid) :
    generateRocksdb key (unlines (es.map Entry.print)) = some ((rocksdbOps es).map (withKey key)) := by
  rw [generateRocksdb, mapM_getlines _ _ _ es (fun e he => (h e he).not_newline)
    fun e he => rocksdbLine_print key (h e he)]
  simp only [Option.bind_eq_bind, Option.bind_some]
  rw [rocksdbOps, List.flatMap, List.map_flatten, List.map_map]
  rfl

/-- It recovers the trace when every key is what the variable holds. -/
theorem generateRocksdb_iff (key : ℕ) (es : List Entry) (h : ∀ e ∈ es, e.Valid) :
    generateRocksdb key (unlines (es.map Entry.print)) = some (rocksdbOps es) ↔
      ∀ op ∈ rocksdbOps es, op.2.1 = key := by
  have hid : rocksdbOps es = (rocksdbOps es).map id := (List.map_id _).symm
  rw [generateRocksdb_print key es h, Option.some.injEq]
  nth_rewrite 2 [hid]
  rw [List.map_inj_left]
  refine forall₂_congr fun op _ => ?_
  obtain ⟨type, k, length⟩ := op
  simp [withKey, eq_comm]

/-- The traces that the parsers recover. The first reads a trace of any types, and
recovers those of gets and puts. The second recovers a trace whose keys are all what its
variable `key` holds; so whatever that is, only one without operations. -/
theorem traces_recovered_iff (rs : List Record) (hrs : ∀ r ∈ rs, r.Valid) (es : List Entry)
    (hes : ∀ e ∈ es, e.Valid) :
    (generateWorkload (unlines (rs.map Record.print)) = some (rs.map Record.op) ↔
      ∀ r ∈ rs, r.type = .read ∨ r.type = .insert) ∧
    (∀ key, generateRocksdb key (unlines (es.map Entry.print)) = some (rocksdbOps es) ↔
      ∀ op ∈ rocksdbOps es, op.2.1 = key) ∧
    ((∀ key < 2 ^ 64, generateRocksdb key (unlines (es.map Entry.print)) = some (rocksdbOps es)) ↔
      rocksdbOps es = []) := by
  refine ⟨generateWorkload_iff rs hrs, fun key => generateRocksdb_iff key es hes, ?_⟩
  simp only [generateRocksdb_iff _ es hes]
  constructor
  · intro hall
    refine List.eq_nil_iff_forall_not_mem.mpr fun op hop => ?_
    have hzero := hall 0 (Nat.two_pow_pos 64) op hop
    have hone := hall 1 (Nat.one_lt_two_pow (by omega)) op hop
    omega
  · intro hnil key _
    rw [hnil]
    exact fun op hop => absurd hop List.not_mem_nil

/-- A put of key 5, and something else in its line. -/
def putFive : Record :=
  ⟨.insert, 5, ['x', ',', 'y']⟩

/-- A line that is skipped, and a scan of key 7. -/
def scanSeven : List Entry :=
  [.other ['#'], .scan 7 20]

theorem scanSeven_valid : ∀ e ∈ scanSeven, e.Valid := by
  simp [scanSeven, Entry.Valid]

/-- The put is recovered; the scan is recovered only where the variable holds 7. -/
theorem traces_recovered_seven :
    generateWorkload (unlines [putFive.print]) = some [(.insert, 5)] ∧
    generateRocksdb 7 (unlines (scanSeven.map Entry.print)) = some [(.scan, 7, 20)] := by
  have hput : ∀ r ∈ [putFive], r.Valid := by
    simp only [List.mem_singleton, forall_eq]
    exact ⟨by simp [putFive], by simp [putFive]⟩
  have h := traces_recovered_iff [putFive] hput scanSeven scanSeven_valid
  exact ⟨h.1.mpr (by simp [putFive]), (h.2.1 7).mpr (by simp [rocksdbOps, scanSeven, Entry.ops])⟩

/-- Where it holds 0, the scan that is read is one of key 0. -/
theorem scan_key_lost :
    ¬ ∀ (rs : List Record) (es : List Entry), (∀ r ∈ rs, r.Valid) → (∀ r ∈ rs, r.type = .read ∨ r.type = .insert) →
      (∀ e ∈ es, e.Valid) →
      generateWorkload (unlines (rs.map Record.print)) = some (rs.map Record.op) ∧
      ∀ key < 2 ^ 64, generateRocksdb key (unlines (es.map Entry.print)) = some (rocksdbOps es) := by
  intro h
  have hzero := (h [] scanSeven (by simp) (by simp) scanSeven_valid).2 0 (Nat.two_pow_pos 64)
  rw [generateRocksdb_iff 0 scanSeven scanSeven_valid] at hzero
  exact absurd (hzero (.scan, 7, 20) (by simp [rocksdbOps, scanSeven, Entry.ops])) (by simp)

end SidleBaselines.Synthetic.TraceFiles
