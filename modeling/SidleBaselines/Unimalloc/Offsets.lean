import SidleBaselines.Concurrency.Phases
import SidleBaselines.Unimalloc.Blocks

/-!
# Mapping the device

`mmap_on_cxl` maps the device from `cxl_offset` on and then moves `cxl_offset` past the
mapping, with an atomic read before and an atomic addition after.

## What is proved

* `mappings_apart` — the mappings share no part of the device, with each other or with the
  kind's area, in a run in which no two callers are ever both between the reading of
  `cxl_offset` and the addition to it, and the addition does not wrap.
* `mappings_shared` — in another run two mappings are of the same part.
-/

namespace SidleBaselines.Unimalloc

open SidleBaselines.Concurrency SidleBaselines.Memory

namespace Offsets

/-! ### `mmap_on_cxl` -/

/-- The steps of `mmap_on_cxl`. -/
inductive Op where
  /-- Read `cxl_offset`. -/
  | load
  /-- `mmap` the device. -/
  | mmapDevice (length offset : ℕ)
  /-- `atomic_fetch_add(&cxl_offset, length)`. -/
  | fetchAdd (length : ℕ)
  /-- `mmap` what the caller asked for instead. -/
  | mmapLocal (length : ℕ)
  deriving DecidableEq

/-- What a step returns: the offset, or whether the mapping has succeeded. -/
@[reducible] def Op.Res : Op → Type
  | load => ℕ
  | mmapDevice _ _ => Bool
  | fetchAdd _ => ℕ
  | mmapLocal _ => Bool

/-- `mmap_on_cxl`, which returns whether the mapping is on the device. -/
def mmapOnCxl (length : ℕ) : Prog Op Op.Res Bool := do
  let offset ← Prog.issue Op.load
  let ok ← Prog.issue (Op.mmapDevice length offset)
  let _ ← Prog.issue (Op.fetchAdd length)
  if ok then return true
  let _ ← Prog.issue (Op.mmapLocal length)
  return false

/-! ### Callers -/

/-- `cxl_offset`, and the mappings of the device so far, the last one first. -/
structure Device where
  cxlOffset : ℕ
  mappings : List Region

/-- What a step does, `ok` saying whether a mapping succeeds. -/
def Op.exec (ok : Bool) : (o : Op) → Device → o.Res × Device
  | load, s => (s.cxlOffset, s)
  | mmapDevice length offset, s =>
    (ok, if ok then { s with mappings := ⟨offset, length⟩ :: s.mappings } else s)
  | fetchAdd length, s => (s.cxlOffset, { s with cxlOffset := (s.cxlOffset + length) % 2 ^ 64 })
  | mmapLocal _, s => (ok, s)

/-- Callers of `mmap_on_cxl`, each with a length that is not zero. -/
def machine (J : Type) : Machine J ℕ Bool Op Op.Res Device where
  exec _ _ ok := Op.exec ok
  body length := mmapOnCxl length >>= fun _ => pure ()
  may _ length := 0 < length ∧ length ≤ sizeMax

/-- The device as `cxl_init` leaves it. -/
def Device.init {J : Type} (s : Process J) : Device := ⟨s.cxlOffset, []⟩

/-- The callers. -/
abbrev Callers (J : Type) := Config J ℕ Op Op.Res Device

/-! ### Phases of a caller -/

/-- Where a caller is. -/
inductive Phase where
  /-- It has nothing to do with `cxl_offset`. -/
  | free
  /-- It has read `offset`. -/
  | loaded (offset : ℕ)
  /-- It has mapped `length` bytes, or failed to. -/
  | mapped (length : ℕ)
  deriving DecidableEq

/-- What a caller with this length does. -/
def phases (length : ℕ) : Abstract Op Op.Res Phase where
  pre
    | .free, .load => True
    | .free, .mmapLocal _ => True
    | .loaded offset, .mmapDevice n o => n = length ∧ o = offset
    | .mapped n, .fetchAdd n' => n' = n
    | _, _ => False
  gives _ _ _ := True
  next
    | .free, .load, r => .loaded r
    | .loaded _, .mmapDevice n _, _ => .mapped n
    | .mapped _, .fetchAdd _, _ => .free
    | φ, _, _ => φ

theorem meets_body (length : ℕ) : Meets (phases length) (fun _ φ => φ = .free)
    ((mmapOnCxl length >>= fun _ => pure ()) : Prog Op Op.Res Unit) .free := by
  refine ⟨⟨⟩, fun offset _ => ⟨⟨rfl, rfl⟩, fun ok _ => ⟨rfl, fun _ _ => ?_⟩⟩⟩
  cases ok
  · exact ⟨⟨⟩, fun _ _ => rfl⟩
  · exact rfl

/-! ### Runs without a race -/

variable {J : Type} [DecidableEq J]

/-- The step is made between the reading of `cxl_offset` and the addition to it. -/
def Op.between : Op → Bool
  | load => false
  | mmapDevice _ _ => true
  | fetchAdd _ => true
  | mmapLocal _ => false

/-- The caller is there. -/
def Between (c : Callers J) (j : J) : Prop :=
  ∃ (q : ℕ) (o : Op) (k : o.Res → Prog Op Op.Res Unit), c.thread j = some (q, .op o k) ∧ o.between = true

/-- No two callers are there, and no addition to `cxl_offset` wraps. -/
structure Orderly (c : Callers J) : Prop where
  alone : ∀ i j, Between c i → Between c j → i = j
  room : ∀ j q n (k : (Op.fetchAdd n).Res → Prog Op Op.Res Unit), c.thread j = some (q, .op (.fetchAdd n) k) →
    c.state.cxlOffset + n < 2 ^ 64

/-- The mappings lie before `cxl_offset`, or before where a caller in this phase will move it. -/
def Phase.Settled (s : Device) : Phase → Prop
  | free => ∀ m ∈ s.mappings, m.base + m.size ≤ s.cxlOffset
  | loaded offset => offset = s.cxlOffset ∧ ∀ m ∈ s.mappings, m.base + m.size ≤ s.cxlOffset
  | mapped length => ∀ m ∈ s.mappings, m.base + m.size ≤ s.cxlOffset + length

/-- The mappings are apart, and where the phases say. -/
structure Ok (area : ℕ) (c : Callers J) (φ : J → Phase) : Prop where
  tracked : Tracked phases .free c φ
  offset : area ≤ c.state.cxlOffset
  above : ∀ m ∈ c.state.mappings, area ≤ m.base
  apart : c.state.mappings.Pairwise Region.Apart
  busy : ∀ j, φ j ≠ .free → (φ j).Settled c.state
  idle : (∀ j, φ j = .free) → Phase.free.Settled c.state

section
variable {c : Callers J} {φ : J → Phase} {area : ℕ} {j : J}

omit [DecidableEq J] in
theorem between_of_phase (h : Tracked phases .free c φ) (hφ : φ j ≠ .free) : Between c j := by
  obtain ⟨q, o, k, hc, hpre⟩ := h.next_op hφ
  refine ⟨q, o, k, hc, ?_⟩
  cases hp : φ j with
  | free => exact absurd hp hφ
  | loaded o' =>
    rw [hp] at hpre
    cases o <;> first | rfl | exact hpre.elim
  | mapped n =>
    rw [hp] at hpre
    cases o <;> first | rfl | exact hpre.elim

omit [DecidableEq J] in
/-- The others are in `free`. -/
theorem others_free (h : Tracked phases .free c φ) (hc : Orderly c) (hφ : φ j ≠ .free) {i : J} (hij : i ≠ j) :
    φ i = .free := by
  by_contra hi
  exact hij (hc.alone i j (between_of_phase h hi) (between_of_phase h hφ))

/-- A caller takes a step, the others being in `free`. -/
theorem Ok.step {c' : Callers J} {ψ : Phase} (others : ∀ i, i ≠ j → φ i = .free)
    (tracked : Tracked phases .free c' (Function.update φ j ψ)) (offset : area ≤ c'.state.cxlOffset)
    (above : ∀ m ∈ c'.state.mappings, area ≤ m.base) (apart : c'.state.mappings.Pairwise Region.Apart)
    (settled : ψ.Settled c'.state) : Ok area c' (Function.update φ j ψ) where
  tracked := tracked
  offset := offset
  above := above
  apart := apart
  busy i hi := by
    by_cases hij : i = j
    · rwa [hij, Function.update_self]
    · rw [Function.update_of_ne hij] at hi
      exact absurd (others i hij) hi
  idle hall := by
    have := hall j
    rw [Function.update_self] at this
    rwa [this] at settled

/-- A caller reads `cxl_offset`. -/
theorem Ok.load {q : ℕ} {k : ℕ → Prog Op Op.Res Unit} (h : Ok area c φ)
    (next : c.thread j = some (q, .op .load k))
    (hc' : Orderly (c.set c.state j (some (q, k c.state.cxlOffset)))) :
    Ok area (c.set c.state j (some (q, k c.state.cxlOffset)))
      (Function.update φ j (.loaded c.state.cxlOffset)) := by
  have hfree : φ j = .free := by
    have hpre := h.tracked.pre next
    cases hφ : φ j <;> rw [hφ] at hpre <;> first | rfl | exact hpre.elim
  have htracked := h.tracked.run next (r := c.state.cxlOffset) ⟨⟩ c.state
  rw [hfree] at htracked
  have hothers (i : J) (hij : i ≠ j) : φ i = .free := by
    have hself : Function.update φ j (.loaded c.state.cxlOffset) j ≠ .free := by
      rw [Function.update_self]
      exact fun h => nomatch h
    have := others_free htracked hc' hself hij
    rwa [Function.update_of_ne hij] at this
  have hall (i : J) : φ i = .free := by
    by_cases hij : i = j
    · exact hij ▸ hfree
    · exact hothers i hij
  exact .step hothers htracked h.offset h.above h.apart ⟨rfl, h.idle hall⟩

/-- It maps the device, or fails to. -/
theorem Ok.mmapDevice {q n o : ℕ} {k : Bool → Prog Op Op.Res Unit} (h : Ok area c φ) (hc : Orderly c)
    (next : c.thread j = some (q, .op (.mmapDevice n o) k)) (ok : Bool) :
    Ok area (c.set (Op.exec ok (.mmapDevice n o) c.state).2 j (some (q, k ok)))
      (Function.update φ j (.mapped n)) := by
  have hloaded : φ j = .loaded o := by
    have hpre := h.tracked.pre next
    cases hφ : φ j <;> rw [hφ] at hpre <;> first | exact hpre.elim | rw [hpre.2]
  have hne : φ j ≠ .free := by
    rw [hloaded]
    exact fun h => nomatch h
  obtain ⟨rfl, hends⟩ : Phase.Settled c.state (.loaded o) := hloaded ▸ h.busy j hne
  have htracked := h.tracked.run next (r := ok) ⟨⟩ (Op.exec ok (.mmapDevice n c.state.cxlOffset) c.state).2
  rw [hloaded] at htracked
  have hothers (i : J) (hij : i ≠ j) : φ i = .free := others_free h.tracked hc hne hij
  cases ok
  · exact .step hothers htracked h.offset h.above h.apart fun m hm => Nat.le_add_right_of_le (hends m hm)
  · refine .step hothers htracked h.offset ?_ ?_ ?_
    · exact List.forall_mem_cons.mpr ⟨h.offset, h.above⟩
    · exact List.pairwise_cons.mpr ⟨fun m hm => .inr (hends m hm), h.apart⟩
    · exact List.forall_mem_cons.mpr ⟨le_rfl, fun m hm => Nat.le_add_right_of_le (hends m hm)⟩

/-- It moves `cxl_offset`. -/
theorem Ok.fetchAdd {q n : ℕ} {k : ℕ → Prog Op Op.Res Unit} (h : Ok area c φ) (hc : Orderly c)
    (next : c.thread j = some (q, .op (.fetchAdd n) k)) (ok : Bool) :
    Ok area (c.set (Op.exec ok (.fetchAdd n) c.state).2 j (some (q, k c.state.cxlOffset)))
      (Function.update φ j .free) := by
  have hmapped : φ j = .mapped n := by
    have hpre := h.tracked.pre next
    cases hφ : φ j <;> rw [hφ] at hpre <;> first | exact hpre.elim | rw [hpre]
  have hne : φ j ≠ .free := by
    rw [hmapped]
    exact fun h => nomatch h
  have hends : Phase.Settled c.state (.mapped n) := hmapped ▸ h.busy j hne
  have htracked := h.tracked.run next (r := c.state.cxlOffset) ⟨⟩ (Op.exec ok (.fetchAdd n) c.state).2
  rw [hmapped] at htracked
  have hoffset : (Op.exec ok (.fetchAdd n) c.state).2.cxlOffset = c.state.cxlOffset + n :=
    Nat.mod_eq_of_lt (hc.room j q n k next)
  refine .step (fun i hij => others_free h.tracked hc hne hij) htracked ?_ h.above h.apart fun m hm => ?_
  · exact (Nat.le_add_right_of_le h.offset).trans hoffset.ge
  · exact (hends m hm).trans hoffset.ge

/-- It maps something else. -/
theorem Ok.mmapLocal {q n : ℕ} {k : Bool → Prog Op Op.Res Unit} (h : Ok area c φ)
    (next : c.thread j = some (q, .op (.mmapLocal n) k)) (ok : Bool) :
    Ok area (c.set c.state j (some (q, k ok))) φ := by
  have hfree : φ j = .free := by
    have hpre := h.tracked.pre next
    cases hφ : φ j <;> rw [hφ] at hpre <;> first | rfl | exact hpre.elim
  have htracked := h.tracked.run next (r := ok) ⟨⟩ c.state
  rw [hfree, Function.update_eq_self_iff.mpr hfree.symm] at htracked
  exact ⟨htracked, h.offset, h.above, h.apart, h.busy, h.idle⟩

end

omit [DecidableEq J] in
theorem orderly_init (s : Device) : Orderly (Config.init s : Callers J) where
  alone i j hi := by
    obtain ⟨q, o, k, h, -⟩ := hi
    cases h
  room j q n k h := by cases h

/-- In an orderly run all is well. -/
theorem ok_of_guarded {area : ℕ} {c : Callers J} (h : Guarded (machine J) Orderly ⟨area, []⟩ c) :
    ∃ φ, Ok area c φ := by
  refine h.induct (P := fun c => ∃ φ, Ok area c φ) ?_ (orderly_init _) ?_
  · exact ⟨_, .init _, le_rfl, fun _ hm => absurd hm List.not_mem_nil, .nil, fun _ hφ => absurd rfl hφ,
      fun _ _ hm => absurd hm List.not_mem_nil⟩
  · intro c c' hc ⟨φ, hok⟩ hs hc'
    cases hs with
    | start idle may =>
      exact ⟨φ, hok.tracked.start idle (meets_body _), hok.offset, hok.above, hok.apart, hok.busy, hok.idle⟩
    | finish ended => exact ⟨φ, hok.tracked.finish ended, hok.offset, hok.above, hok.apart, hok.busy, hok.idle⟩
    | @run j q o k ok next =>
      cases o with
      | load => exact ⟨_, hok.load next hc'⟩
      | mmapDevice n o => exact ⟨_, hok.mmapDevice hc next ok⟩
      | fetchAdd n => exact ⟨_, hok.fetchAdd hc next ok⟩
      | mmapLocal n => exact ⟨_, hok.mmapLocal next ok⟩

/-- **Mappings are apart**: after `cxl_init`, in a run in which no two callers are ever both
between the reading of `cxl_offset` and the addition to it, and the addition does not wrap,
the mappings of the device share no byte with each other or with the kind's area. -/
theorem mappings_apart {s : Process J} (hs : s.created = false) (wantedSize : ℕ) (percentage : ℤ) (mapped : ℕ)
    {c : Callers J}
    (h : Guarded (machine J) Orderly (Device.init (s.cxlInit wantedSize percentage mapped)) c) :
    (∀ m ∈ c.state.mappings, (s.cxlInit wantedSize percentage mapped).cxlCurrentSize ≤ m.base) ∧
      c.state.mappings.Pairwise Region.Apart := by
  have hsame : (s.cxlInit wantedSize percentage mapped).cxlOffset =
      (s.cxlInit wantedSize percentage mapped).cxlCurrentSize := by
    rw [Process.cxlInit, hs, if_neg (by decide)]
  rw [Device.init, hsame] at h
  obtain ⟨φ, hok⟩ := ok_of_guarded h
  exact ⟨hok.above, hok.apart⟩

/-! ### A race -/

/-- A process of two threads after `cxl_init`. -/
def initialised : Process (Fin 2) := Process.start.cxlInit 0 30 4096

/-- A step of the only thread that is busy, after which its addition does not wrap. -/
theorem guarded_alone {s s' : Device} {c : Callers J} {j : J} {t : Option (ℕ × Prog Op Op.Res Unit)}
    (h : Guarded (machine J) Orderly s c) (others : ∀ i, i ≠ j → c.thread i = none)
    (room : ∀ q n (k : (Op.fetchAdd n).Res → Prog Op Op.Res Unit), t = some (q, .op (.fetchAdd n) k) →
      s'.cxlOffset + n < 2 ^ 64) (hs : Step (machine J) c (c.set s' j t)) :
    Guarded (machine J) Orderly s (c.set s' j t) ∧ ∀ i, i ≠ j → (c.set s' j t).thread i = none := by
  have idle (i : J) (hi : i ≠ j) : (c.set s' j t).thread i = none :=
    (Config.set_thread_ne _ _ hi _).trans (others i hi)
  have only (i : J) (hi : Between (c.set s' j t) i) : i = j := by
    obtain ⟨q, o, k, hk, -⟩ := hi
    exact by_contra fun hne => nomatch (idle i hne).symm.trans hk
  refine ⟨h.tail ⟨hs, fun i i' hi hi' => (only i hi).trans (only i' hi').symm, fun i q n k hk => ?_⟩, idle⟩
  obtain rfl : i = j := only i ⟨q, _, k, hk, rfl⟩
  exact room q n k ((Config.set_thread_self ..).symm.trans hk)

/-- A call made while the others are idle maps the device from `cxl_offset` on. -/
theorem guarded_call {s : Device} {c : Callers J} (h : Guarded (machine J) Orderly s c)
    (idle : ∀ i, c.thread i = none) (j : J) {n : ℕ} (hn : 0 < n ∧ n ≤ sizeMax)
    (hroom : c.state.cxlOffset + n < 2 ^ 64) :
    ∃ c', Guarded (machine J) Orderly s c' ∧ (∀ i, c'.thread i = none) ∧
      c'.state = ⟨c.state.cxlOffset + n, ⟨c.state.cxlOffset, n⟩ :: c.state.mappings⟩ := by
  have ⟨h₁, o₁⟩ := guarded_alone h (fun i _ => idle i) (fun _ _ _ hk => by cases hk) (.start (j := j) (idle j) hn)
  have ⟨h₂, o₂⟩ := guarded_alone h₁ o₁ (fun _ _ _ hk => by cases hk) (.run true (Config.set_thread_self ..))
  have ⟨h₃, o₃⟩ := guarded_alone h₂ o₂ (fun _ _ _ hk => by cases hk; exact hroom)
    (.run true (Config.set_thread_self ..))
  have ⟨h₄, o₄⟩ := guarded_alone h₃ o₃ (fun _ _ _ hk => by cases hk) (.run true (Config.set_thread_self ..))
  have ⟨h₅, o₅⟩ := guarded_alone h₄ o₄ (fun _ _ _ hk => by cases hk) (.finish (Config.set_thread_self ..))
  refine ⟨_, h₅, fun i => ?_, ?_⟩
  · by_cases hi : i = j
    · exact hi ▸ Config.set_thread_self ..
    · exact o₅ i hi
  · exact congrArg (Device.mk · _) (Nat.mod_eq_of_lt hroom)

theorem mappings_apart_two : ∃ c : Callers (Fin 2),
    c.state.mappings = [⟨initialised.cxlOffset + 4096, 8192⟩, ⟨initialised.cxlOffset, 4096⟩] ∧
      (∀ m ∈ c.state.mappings, initialised.cxlCurrentSize ≤ m.base) ∧
      c.state.mappings.Pairwise Region.Apart := by
  obtain ⟨c, h, idle, hc⟩ := guarded_call (s := Device.init initialised) (.refl : Guarded (machine (Fin 2)) _ _ _)
    (fun _ => rfl) 0 (n := 4096) (by decide) (by decide)
  obtain ⟨c', h', -, hc'⟩ := guarded_call h idle 1 (n := 8192) (by decide) (by rw [hc]; decide)
  rw [hc] at hc'
  exact ⟨c', by rw [hc']; rfl, mappings_apart (s := Process.start) rfl 0 30 4096 h'⟩

/-- Two callers read `cxl_offset` before either adds to it, and both map the device from there
on. -/
theorem raced {i j : J} (hij : i ≠ j) {n : ℕ} (hn : 0 < n ∧ n ≤ sizeMax) (s : Device) :
    ∃ c : Callers J, Reachable (machine J) s c ∧
      c.state.mappings = ⟨s.cxlOffset, n⟩ :: ⟨s.cxlOffset, n⟩ :: s.mappings := by
  have h₀ : Reachable (machine J) s (Config.init s) := .init
  have h₁ := h₀.step (.start (j := i) rfl hn)
  have h₂ := h₁.step (.start (j := j) (Config.set_thread_ne _ _ hij.symm _) hn)
  have h₃ := h₂.step (.run true ((Config.set_thread_ne _ _ hij _).trans (Config.set_thread_self ..)))
  have h₄ := h₃.step (.run true ((Config.set_thread_ne _ _ hij.symm _).trans (Config.set_thread_self ..)))
  have h₅ := h₄.step (.run true ((Config.set_thread_ne _ _ hij _).trans (Config.set_thread_self ..)))
  have h₆ := h₅.step (.run true ((Config.set_thread_ne _ _ hij.symm _).trans (Config.set_thread_self ..)))
  exact ⟨_, h₆, rfl⟩

/-- **A shared mapping**: two of these two threads' mappings are the same part of the device. -/
theorem mappings_shared : ∃ c : Callers (Fin 2), Reachable (machine (Fin 2)) (Device.init initialised) c ∧
    ¬ c.state.mappings.Pairwise Region.Apart := by
  obtain ⟨c, hc, hmappings⟩ := raced (i := (0 : Fin 2)) (j := 1) (by decide) (n := 4096) (by decide)
    (Device.init initialised)
  refine ⟨c, hc, fun hapart => ?_⟩
  rw [hmappings] at hapart
  have := (List.pairwise_cons.mp hapart).1 _ List.mem_cons_self
  simp only [Region.Apart] at this
  omega

end Offsets

end SidleBaselines.Unimalloc
