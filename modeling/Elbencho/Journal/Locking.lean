import Elbencho.Journal.Cells
import Elbencho.Library.SharedLock
import Mathlib.Data.Fintype.Basic
import Mathlib.Order.Fin.Basic

/-!
# The journal's range locks

Readers and writers of a journal exclude each other with an array of
`NUM_STRIPES` reader/writer mutexes that all journals of a process share.  The
blocks of a journal are grouped into regions of `2 ^ lockRegionShift` blocks, a
region is mapped to a stripe by a salted hash, and an I/O locks the stripes of
its first and of its last block.

* `initRunOptions` sizes the regions for the largest I/O of a run; `none` is the
  case in which its loop would shift a 64-bit one by 64.
* `blockIndexToStripe`, `rangeStripes` are the stripes of a block and of a range.
* `RangeLocks` is the machine of all holders that acquire and release ranges, one
  step per operation on a mutex.

The two locked stripes cover a range when a region is at least as long as the
range (`covers_of_le`), and covering is all that mutual exclusion needs
(`RangeLocks.exclusion`).  The region is long enough unless the 64-bit
computation of its size overflows; `rangeLocks_sound_iff` says exactly when the
locks do their job.
-/

namespace Elbencho

open SharedLock Transition

/-! ## Run options -/

/-- The options of a journal that belong to the current run. -/
structure RunOptions where
  journalSyncEnabled : Bool
  lockRegionShift : ℕ
  stripeSalt : BitVec 64
  deriving DecidableEq

/-- The loop of `initRunOptions` that rounds up to a power of two.  It tests the
shifts from `shift` on; a shift of 64 is not defined for a 64-bit one. -/
def regionShiftLoop ( maxBlocksPerIO : ℕ) : ℕ → ℕ → Option ℕ
  | 0, _ => none
  | tests + 1, shift =>
    if 2 ^ shift < maxBlocksPerIO then regionShiftLoop maxBlocksPerIO tests (shift + 1)
    else some shift

/-- `initRunOptions`. -/
def initRunOptions (j : Journal) (maxIOSize : ℕ) (journalSyncEnabled : Bool) :
    Option RunOptions := do
  let maxBlocksPerIO := j.numBlocksOf maxIOSize
  let lockRegionShift ← regionShiftLoop maxBlocksPerIO 64 0
  return { journalSyncEnabled, lockRegionShift, stripeSalt := j.journalSeed }

/-- A shift that the loop returns is large enough, and it was necessary. -/
theorem regionShiftLoop_eq_some {n : ℕ} : ∀ {tests shift r : ℕ},
    regionShiftLoop n tests shift = some r →
      n ≤ 2 ^ r ∧ r < shift + tests ∧ ∀ k, shift ≤ k → k < r → 2 ^ k < n
  | 0, _, _, h => absurd h (by simp [regionShiftLoop])
  | tests + 1, shift, r, h => by
    rw [regionShiftLoop] at h
    by_cases hlt : 2 ^ shift < n
    · rw [if_pos hlt] at h
      obtain ⟨hle, hr, hmin⟩ := regionShiftLoop_eq_some h
      refine ⟨hle, by omega, fun k hk hkr => ?_⟩
      rcases Nat.eq_or_lt_of_le hk with rfl | hk'
      · exact hlt
      · exact hmin k hk' hkr
    · rw [if_neg hlt] at h
      obtain rfl : shift = r := Option.some.inj h
      exact ⟨by omega, by omega, fun k hk hkr => absurd hkr (by omega)⟩

/-- The loop finds a shift when one of those it tests is large enough. -/
theorem regionShiftLoop_isSome {n : ℕ} : ∀ {tests shift : ℕ}, 0 < tests →
    n ≤ 2 ^ (shift + tests - 1) → (regionShiftLoop n tests shift).isSome
  | 0, _, h, _ => absurd h (by omega)
  | tests + 1, shift, _, hle => by
    rw [regionShiftLoop]
    by_cases hlt : 2 ^ shift < n
    · rw [if_pos hlt]
      rcases Nat.eq_zero_or_pos tests with rfl | htests
      · exact absurd hle (by simpa using hlt)
      · have hidx : shift + 1 + tests - 1 = shift + (tests + 1) - 1 := by omega
        exact regionShiftLoop_isSome htests (by rwa [hidx])
    · rw [if_neg hlt]
      rfl

theorem initRunOptions_eq_some_iff {j : Journal} {maxIOSize : ℕ} {sync : Bool}
    {o : RunOptions} :
    initRunOptions j maxIOSize sync = some o ↔
      o.journalSyncEnabled = sync ∧ o.stripeSalt = j.journalSeed ∧
      regionShiftLoop (j.numBlocksOf maxIOSize) 64 0 = some o.lockRegionShift := by
  rw [initRunOptions]
  constructor
  · intro h
    obtain ⟨shift, hshift, ho⟩ := Option.bind_eq_some_iff.mp h
    obtain rfl := Option.some.inj ho
    exact ⟨rfl, rfl, hshift⟩
  · rintro ⟨rfl, hsalt, hshift⟩
    refine Option.bind_eq_some_iff.mpr ⟨o.lockRegionShift, hshift, ?_⟩
    rw [← hsalt]
    rfl

/-! ## Stripes -/

/-- The index of a stripe lock; there are `NUM_STRIPES` of them. -/
abbrev Stripe := Fin 65536

/-- `blockIndexToStripe`. -/
def blockIndexToStripe (o : RunOptions) (journalBlockIndex : ℕ) : Stripe :=
  let regionIdx := (BitVec.ofNat 64 journalBlockIndex >>> o.lockRegionShift) ^^^ o.stripeSalt
  ⟨((regionIdx * 0x9E3779B97F4A7C15#64) >>> 48).toNat, by
    rw [BitVec.toNat_ushiftRight, Nat.shiftRight_eq_div_pow]
    have hlt := (regionIdx * 0x9E3779B97F4A7C15#64).isLt
    omega⟩

/-- The stripes that `acquireRange` locks, in the order in which it locks them. -/
def rangeStripes (o : RunOptions) (firstBlockIdx numBlocks : ℕ) : List Stripe :=
  let firstStripe := blockIndexToStripe o firstBlockIdx
  let lastStripe := blockIndexToStripe o
    (Word64.sub (Word64.add firstBlockIdx numBlocks) 1)
  if firstStripe ≠ lastStripe then
    [min firstStripe lastStripe, max firstStripe lastStripe]
  else [min firstStripe lastStripe]

theorem rangeStripes_ne_nil (o : RunOptions) (first num : ℕ) : rangeStripes o first num ≠ [] := by
  rw [rangeStripes]
  split_ifs <;> exact List.cons_ne_nil _ _

/-- The stripes of a range are locked in ascending order. -/
theorem rangeStripes_pairwise (o : RunOptions) (first num : ℕ) :
    (rangeStripes o first num).Pairwise (· < ·) := by
  rw [rangeStripes]
  split_ifs with hne
  · exact List.pairwise_pair.mpr (min_lt_max.mpr hne)
  · exact List.pairwise_singleton _ _

/-- A stripe is locked for a range exactly when it is the one of the first or of
the last block. -/
theorem mem_rangeStripes {o : RunOptions} {first num : ℕ} {s : Stripe} :
    s ∈ rangeStripes o first num ↔ s = blockIndexToStripe o first ∨
      s = blockIndexToStripe o (Word64.sub (Word64.add first num) 1) := by
  rw [rangeStripes]
  split_ifs with hne
  · rw [List.mem_cons, List.mem_singleton]
    rcases le_total (blockIndexToStripe o first)
      (blockIndexToStripe o (Word64.sub (Word64.add first num) 1)) with hle | hle
    · rw [min_eq_left hle, max_eq_right hle]
    · rw [min_eq_right hle, max_eq_left hle, or_comm]
  · rw [List.mem_singleton, not_not.mp hne, min_self, or_self]

/-- The locked stripes include the stripe of every block of the range. -/
def Covers (o : RunOptions) (first num : ℕ) : Prop :=
  ∀ b, first ≤ b → b < first + num → blockIndexToStripe o b ∈ rangeStripes o first num

/-- Blocks of one region have one stripe. -/
theorem blockIndexToStripe_eq_of_div_eq {o : RunOptions} {b b' : ℕ} (hb : b < Word64.size)
    (hb' : b' < Word64.size) (h : b / 2 ^ o.lockRegionShift = b' / 2 ^ o.lockRegionShift) :
    blockIndexToStripe o b = blockIndexToStripe o b' := by
  have hregion : BitVec.ofNat 64 b >>> o.lockRegionShift =
      BitVec.ofNat 64 b' >>> o.lockRegionShift := by
    apply BitVec.eq_of_toNat_eq
    rw [BitVec.toNat_ushiftRight, BitVec.toNat_ushiftRight, BitVec.toNat_ofNat,
      BitVec.toNat_ofNat, Nat.mod_eq_of_lt (show b < 2 ^ 64 from hb),
      Nat.mod_eq_of_lt (show b' < 2 ^ 64 from hb'), Nat.shiftRight_eq_div_pow,
      Nat.shiftRight_eq_div_pow, h]
  rw [blockIndexToStripe, blockIndexToStripe]
  simp only [hregion]

/-- The index of the last block of a nonempty range. -/
theorem lastBlock_eq {first num : ℕ} (hnum : 0 < num) (hfit : first + num ≤ Word64.size) :
    Word64.sub (Word64.add first num) 1 = first + num - 1 := by
  rcases Nat.eq_or_lt_of_le hfit with heq | hlt
  · rw [Word64.add, heq, Nat.mod_self]
    rfl
  · rw [Word64.add_eq hlt, Word64.sub_eq (by omega) hlt]

/-- **A range that is not longer than a region is covered**: it touches at most
two neighbouring regions, the one of its first and the one of its last block. -/
theorem covers_of_le {o : RunOptions} {first num : ℕ} (hnum : num ≤ 2 ^ o.lockRegionShift)
    (hfit : first + num ≤ Word64.size) : Covers o first num := by
  intro b hfirst hlast
  have hb : b < Word64.size := by omega
  have hpos : 0 < 2 ^ o.lockRegionShift := Nat.two_pow_pos _
  have hlo : first / 2 ^ o.lockRegionShift ≤ b / 2 ^ o.lockRegionShift :=
    Nat.div_le_div_right hfirst
  have hhi : b / 2 ^ o.lockRegionShift ≤ (first + num - 1) / 2 ^ o.lockRegionShift :=
    Nat.div_le_div_right (by omega)
  have hnext : (first + num - 1) / 2 ^ o.lockRegionShift ≤ first / 2 ^ o.lockRegionShift + 1 := by
    rw [← Nat.add_div_right _ hpos]
    exact Nat.div_le_div_right (by omega)
  rw [mem_rangeStripes, lastBlock_eq (by omega) hfit]
  rcases Nat.eq_or_lt_of_le hlo with heq | hlt
  · exact Or.inl (blockIndexToStripe_eq_of_div_eq hb (by omega) heq.symm)
  · exact Or.inr (blockIndexToStripe_eq_of_div_eq hb (by omega) (by omega))

/-- A range of at most two blocks is covered by any region size. -/
theorem covers_of_le_two {o : RunOptions} {first num : ℕ} (hnum : num ≤ 2)
    (hfit : first + num ≤ Word64.size) : Covers o first num := by
  intro b hfirst hlast
  rw [mem_rangeStripes, lastBlock_eq (by omega) hfit]
  rcases Nat.eq_or_lt_of_le hfirst with rfl | hlt
  · exact Or.inl rfl
  · exact Or.inr (congrArg _ (by omega))

/-! ## Holders of ranges -/

/-- A block range of one of the journals. -/
structure BlockRange (J : Type*) where
  journal : J
  firstBlockIdx : ℕ
  numBlocks : ℕ

/-- The block belongs to the range. -/
def BlockRange.Contains {J : Type*} (r : BlockRange J) (b : ℕ) : Prop :=
  r.firstBlockIdx ≤ b ∧ b < r.firstBlockIdx + r.numBlocks

/-- The shared stripe array with the guards of all holders, the range of each
holder's last `acquireRange`, and whether that call failed. -/
structure RangeLocks (J η : Type*) where
  table : LockTable η Stripe
  range : η → Option (BlockRange J)
  refused : η → Bool

/-- The steps of `acquireRange` and `JournalRangeGuard::release`: a call, the next
lock of a running call, the failed try of the next lock, the start of a release,
the next unlock. -/
inductive RangeOp (J η : Type*) where
  | acquireRange (h : η) (r : BlockRange J) (isExclusive mayBlock : Bool)
  | lock (h : η)
  | refuse (h : η)
  | release (h : η)
  | unlock (h : η)

namespace RangeLocks

variable {J η : Type*}

/-- Nothing locked and nothing asked for. -/
def empty : RangeLocks J η where
  table := LockTable.empty
  range := fun _ => none
  refused := fun _ => false

variable [DecidableEq η]

/-- One step of the range locks, for the run options of each journal. -/
def step (opts : J → RunOptions) (s : RangeLocks J η) : RangeOp J η → Option (RangeLocks J η)
  | .acquireRange h r e b =>
    (s.table.step (.acquire h
      (rangeStripes (opts r.journal) r.firstBlockIdx r.numBlocks) e b)).map fun t =>
      { table := t
        range := Function.update s.range h (some r)
        refused := Function.update s.refused h false }
  | .lock h => (s.table.step (.lock h)).map fun t => { s with table := t }
  | .refuse h => (s.table.step (.giveUp h)).map fun t =>
      { s with table := t, refused := Function.update s.refused h true }
  | .release h => (s.table.step (.release h)).map fun t => { s with table := t }
  | .unlock h => (s.table.step (.unlock h)).map fun t => { s with table := t }

/-- The holder's `acquireRange` has returned true and its guard was not released
yet: it holds its range in the given mode. -/
def Holds (s : RangeLocks J η) (h : η) (r : BlockRange J) (isExclusive : Bool) : Prop :=
  s.range h = some r ∧ ∃ locks, s.table.guard h = .held locks isExclusive

/-- The holder's last `acquireRange` has returned false. -/
def Refused (s : RangeLocks J η) (h : η) : Prop :=
  s.refused h = true ∧ s.table.guard h = .free

/-- The list of locks a guard was taken for, while it is acquired or held. -/
def plan : Guard Stripe → Option (List Stripe)
  | .acquiring got todo _ _ => some (got ++ todo)
  | .held locks _ => some locks
  | _ => none

/-- The mutexes and guards agree, and each guard was taken for the stripes of its
holder's range, which is an admitted one. -/
structure Inv (opts : J → RunOptions) (allowed : BlockRange J → Prop) (s : RangeLocks J η) :
    Prop where
  coherent : Coherent s.table
  planned : ∀ h locks, plan (s.table.guard h) = some locks →
    ∃ r, s.range h = some r ∧ allowed r ∧
      locks = rangeStripes (opts r.journal) r.firstBlockIdx r.numBlocks

variable {opts : J → RunOptions} {allowed : BlockRange J → Prop}

omit [DecidableEq η] in
theorem inv_empty : Inv opts allowed (empty : RangeLocks J η) where
  coherent := coherent_empty
  planned := fun h locks hp => absurd hp (by simp [empty, LockTable.empty, plan])

@[simp] theorem plan_afterLock (got todo : List Stripe) (e b : Bool) :
    plan (Guard.afterLock got todo e b) = some (got ++ todo) := by
  cases todo with
  | nil => rw [List.append_nil]; rfl
  | cons s todo => rfl

@[simp] theorem plan_afterRelease (rest : List Stripe) (e : Bool) :
    plan (Guard.afterRelease rest e) = none := by
  cases rest <;> rfl

/-- A step of the table that is not a new call keeps the plan of every guard that
still has one. -/
theorem plan_of_step {t t' : LockTable η Stripe} {op : LockOp η Stripe}
    (h : t.step op = some t') (hop : ∀ i locks e b, op ≠ .acquire i locks e b) {i : η}
    {locks : List Stripe} (hp : plan (t'.guard i) = some locks) :
    plan (t.guard i) = some locks := by
  rcases eq_or_ne i op.holder with rfl | hi
  · cases op with
    | acquire j locks e b => exact absurd rfl (hop j locks e b)
    | lock j =>
      obtain ⟨got, s, todo, e, b, hguard, -, rfl⟩ := LockTable.step_lock h
      have hplan : plan (Guard.afterLock (got ++ [s]) todo e b) = some locks := by
        simpa only [LockOp.holder, Function.update_self] using hp
      rw [plan_afterLock, List.append_assoc] at hplan
      rw [LockOp.holder, hguard]
      exact hplan
    | giveUp j =>
      obtain ⟨_, _, _, -, rfl⟩ := LockTable.step_giveUp h
      simp [LockOp.holder] at hp
    | release j =>
      obtain ⟨_, _, -, rfl⟩ := LockTable.step_release h
      simp [LockOp.holder] at hp
    | unlock j =>
      obtain ⟨_, _, _, -, rfl⟩ := LockTable.step_unlock h
      simp [LockOp.holder] at hp
  · rwa [LockTable.step_guard_of_ne h hi] at hp

/-- A step that is not a new call keeps the invariant. -/
theorem Inv.of_table_step {s : RangeLocks J η} (hs : Inv opts allowed s) {op : LockOp η Stripe}
    {t : LockTable η Stripe} (h : s.table.step op = some t) (hdist : op.Distinct)
    (hop : ∀ i locks e b, op ≠ .acquire i locks e b) (refused : η → Bool) :
    Inv opts allowed { s with table := t, refused := refused } where
  coherent := step_coherent hs.coherent hdist h
  planned := fun i locks hp => hs.planned i locks (plan_of_step h hop hp)

/-- The ranges a step asks for are allowed ones. -/
def Allowed (allowed : BlockRange J → Prop) : RangeOp J η → Prop
  | .acquireRange _ r _ _ => allowed r
  | _ => True

/-- **Every step keeps the invariant.** -/
theorem Inv.step {s s' : RangeLocks J η} {op : RangeOp J η} (hs : Inv opts allowed s)
    (ha : Allowed allowed op) (h : step opts s op = some s') : Inv opts allowed s' := by
  cases op with
  | acquireRange i r e b =>
    obtain ⟨t, ht, rfl⟩ := Option.map_eq_some_iff.mp h
    have hdistinct : (LockOp.acquire i (rangeStripes (opts r.journal) r.firstBlockIdx
        r.numBlocks) e b).Distinct := (rangeStripes_pairwise _ _ _).imp fun hlt => hlt.ne
    refine ⟨step_coherent hs.coherent hdistinct ht, ?_⟩
    intro k locks hp
    rcases eq_or_ne k i with rfl | hne
    · obtain ⟨-, rfl⟩ := LockTable.step_acquire ht
      have hplan : plan (Guard.afterLock [] (rangeStripes (opts r.journal) r.firstBlockIdx
          r.numBlocks) e b) = some locks := by
        simpa only [Function.update_self] using hp
      rw [plan_afterLock, List.nil_append] at hplan
      exact ⟨r, Function.update_self _ _ _, ha, (Option.some.inj hplan).symm⟩
    · rw [LockTable.step_guard_of_ne ht hne] at hp
      obtain ⟨r', hr', ha', hl⟩ := hs.planned k locks hp
      exact ⟨r', (Function.update_of_ne hne _ _).trans hr', ha', hl⟩
  | lock i =>
    obtain ⟨t, ht, rfl⟩ := Option.map_eq_some_iff.mp h
    exact hs.of_table_step ht trivial (by simp) s.refused
  | refuse i =>
    obtain ⟨t, ht, rfl⟩ := Option.map_eq_some_iff.mp h
    exact hs.of_table_step ht trivial (by simp) _
  | release i =>
    obtain ⟨t, ht, rfl⟩ := Option.map_eq_some_iff.mp h
    exact hs.of_table_step ht trivial (by simp) s.refused
  | unlock i =>
    obtain ⟨t, ht, rfl⟩ := Option.map_eq_some_iff.mp h
    exact hs.of_table_step ht trivial (by simp) s.refused

/-! What a step does to the guard and the range of its own holder, and that it
leaves those of the others alone. -/

/-- The holder of a step. -/
def holderOf : RangeOp J η → η
  | .acquireRange h _ _ _ => h
  | .lock h => h
  | .refuse h => h
  | .release h => h
  | .unlock h => h

variable {s l : RangeLocks J η} {h : η}

theorem step_acquireRange {r : BlockRange J} {e b : Bool}
    (hstep : s.step opts (.acquireRange h r e b) = some l) :
    s.table.guard h = .free ∧ l.range h = some r ∧ l.table.guard h =
      .afterLock [] (rangeStripes (opts r.journal) r.firstBlockIdx r.numBlocks) e b := by
  obtain ⟨t, ht, rfl⟩ := Option.map_eq_some_iff.mp hstep
  obtain ⟨hfree, rfl⟩ := LockTable.step_acquire ht
  exact ⟨hfree, Function.update_self _ _ _, Function.update_self _ _ _⟩

theorem step_lock {got todo : List Stripe} {x : Stripe} {e b : Bool}
    (hstep : s.step opts (.lock h) = some l)
    (hguard : s.table.guard h = .acquiring got (x :: todo) e b) :
    l.range = s.range ∧ l.table.guard h = .afterLock (got ++ [x]) todo e b := by
  obtain ⟨t, ht, rfl⟩ := Option.map_eq_some_iff.mp hstep
  obtain ⟨_, _, _, _, _, hguard', -, rfl⟩ := LockTable.step_lock ht
  rw [hguard] at hguard'
  injection hguard' with h₁ h₂ h₃ h₄
  injection h₂ with h₂ h₂'
  subst h₁ h₂ h₂' h₃ h₄
  exact ⟨rfl, Function.update_self _ _ _⟩

theorem step_refuse {got todo : List Stripe} {e b : Bool}
    (hstep : s.step opts (.refuse h) = some l)
    (hguard : s.table.guard h = .acquiring got todo e b) :
    b = false ∧ l.range = s.range ∧ l.table.guard h = .afterRelease got e := by
  obtain ⟨t, ht, rfl⟩ := Option.map_eq_some_iff.mp hstep
  obtain ⟨_, _, _, hguard', rfl⟩ := LockTable.step_giveUp ht
  rw [hguard] at hguard'
  injection hguard' with h₁ h₂ h₃ h₄
  subst h₁ h₂ h₃ h₄
  exact ⟨rfl, rfl, Function.update_self _ _ _⟩

theorem step_release {locks : List Stripe} {e : Bool}
    (hstep : s.step opts (.release h) = some l) (hguard : s.table.guard h = .held locks e) :
    l.range = s.range ∧ l.table.guard h = .afterRelease locks e := by
  obtain ⟨t, ht, rfl⟩ := Option.map_eq_some_iff.mp hstep
  obtain ⟨_, _, hguard', rfl⟩ := LockTable.step_release ht
  rw [hguard] at hguard'
  injection hguard' with h₁ h₂
  subst h₁ h₂
  exact ⟨rfl, Function.update_self _ _ _⟩

theorem step_unlock {x : Stripe} {rest : List Stripe} {e : Bool}
    (hstep : s.step opts (.unlock h) = some l)
    (hguard : s.table.guard h = .releasing (x :: rest) e) :
    l.range = s.range ∧ l.table.guard h = .afterRelease rest e := by
  obtain ⟨t, ht, rfl⟩ := Option.map_eq_some_iff.mp hstep
  obtain ⟨_, _, _, hguard', rfl⟩ := LockTable.step_unlock ht
  rw [hguard] at hguard'
  injection hguard' with h₁ h₂
  injection h₁ with h₁ h₁'
  subst h₁ h₁' h₂
  exact ⟨rfl, Function.update_self _ _ _⟩

theorem step_of_ne {op : RangeOp J η} (hstep : s.step opts op = some l) {i : η}
    (hi : i ≠ holderOf op) :
    l.table.guard i = s.table.guard i ∧ l.range i = s.range i := by
  cases op with
  | acquireRange j r e b =>
    obtain ⟨t, ht, rfl⟩ := Option.map_eq_some_iff.mp hstep
    exact ⟨LockTable.step_guard_of_ne ht hi, Function.update_of_ne hi _ _⟩
  | lock j =>
    obtain ⟨t, ht, rfl⟩ := Option.map_eq_some_iff.mp hstep
    exact ⟨LockTable.step_guard_of_ne ht hi, rfl⟩
  | refuse j =>
    obtain ⟨t, ht, rfl⟩ := Option.map_eq_some_iff.mp hstep
    exact ⟨LockTable.step_guard_of_ne ht hi, rfl⟩
  | release j =>
    obtain ⟨t, ht, rfl⟩ := Option.map_eq_some_iff.mp hstep
    exact ⟨LockTable.step_guard_of_ne ht hi, rfl⟩
  | unlock j =>
    obtain ⟨t, ht, rfl⟩ := Option.map_eq_some_iff.mp hstep
    exact ⟨LockTable.step_guard_of_ne ht hi, rfl⟩

omit [DecidableEq η] in
/-- **Mutual exclusion on blocks.**  When every allowed range of a journal is
covered by its stripes, a block in the ranges of two holders is held exclusively
by neither. -/
theorem Inv.exclusion {s : RangeLocks J η} (hs : Inv opts allowed s) {k : J}
    (hcov : ∀ r, allowed r → r.journal = k → Covers (opts k) r.firstBlockIdx r.numBlocks)
    {h h' : η} (hne : h ≠ h') {r r' : BlockRange J} {e e' : Bool} (hh : s.Holds h r e)
    (hh' : s.Holds h' r' e') (hk : r.journal = k) (hk' : r'.journal = k) {b : ℕ}
    (hb : r.Contains b) (hb' : r'.Contains b) : e = false := by
  have howned : ∀ {i : η} {q : BlockRange J} {m : Bool}, s.Holds i q m → q.journal = k →
      q.Contains b → blockIndexToStripe (opts k) b ∈ (s.table.guard i).owned ∧
        (s.table.guard i).mode = m := by
    rintro i q m ⟨hrange, locks, hguard⟩ rfl hq
    obtain ⟨q', hq', hallowed, hlocks⟩ := hs.planned i locks (by rw [hguard]; rfl)
    obtain rfl : q = q' := Option.some.inj (hrange.symm.trans hq')
    rw [hguard, Guard.owned_held, hlocks]
    exact ⟨hcov q hallowed rfl b hq.1 hq.2, rfl⟩
  obtain ⟨hs₁, hmode⟩ := howned hh hk hb
  rw [← hmode]
  exact hs.coherent.exclusion hs₁ (howned hh' hk' hb').1 hne

end RangeLocks

/-! ## When the locks do their job -/

/-- The number of journal blocks of the largest I/O, without overflow. -/
def maxBlocks (j : Journal) (maxIOSize : ℕ) : ℕ :=
  (maxIOSize + j.journalBlockSize - 1) / j.journalBlockSize

/-- The ranges of I/Os of one of the journals: no longer than its largest I/O, with
64-bit block indices. -/
def RangeFits {J : Type*} (k : J) (n : ℕ) (r : BlockRange J) : Prop :=
  r.journal = k → r.numBlocks ≤ n ∧ r.firstBlockIdx + r.numBlocks ≤ Word64.size

/-- What the range locks of a journal promise for a run with the given largest
I/O.  The stripes of a range include the stripe of every block of it; and whatever
the holders, the other journals that share the stripes and the interleaving are,
two overlapping ranges of the journal are never held at the same time unless both
are shared, and a failed `acquireRange` leaves no stripe held. -/
def RangeLocksSound (j : Journal) (maxIOSize : ℕ) (sync : Bool) : Prop :=
  ∃ o, initRunOptions j maxIOSize sync = some o ∧
    (∀ first num, num ≤ maxBlocks j maxIOSize → first + num ≤ Word64.size →
      Covers o first num) ∧
    ∀ (J η : Type) [DecidableEq η] (opts : J → RunOptions) (k : J), opts k = o →
      ∀ s : RangeLocks J η,
        Reach (RangeLocks.step opts)
          (fun _ op => RangeLocks.Allowed (RangeFits k (maxBlocks j maxIOSize)) op)
          RangeLocks.empty s →
        (∀ h h' r r' e e' b, h ≠ h' → s.Holds h r e → s.Holds h' r' e' → r.journal = k →
          r'.journal = k → r.Contains b → r'.Contains b → e = false ∧ e' = false) ∧
        (∀ h, s.Refused h → ∀ stripe e, ¬ (s.table.mutex stripe).OwnedBy h e)

/-- Coverage is all that the promise needs. -/
theorem rangeLocksSound_of_covers {j : Journal} {maxIOSize : ℕ} {sync : Bool} {o : RunOptions}
    (ho : initRunOptions j maxIOSize sync = some o)
    (hcov : ∀ first num, num ≤ maxBlocks j maxIOSize → first + num ≤ Word64.size →
      Covers o first num) :
    RangeLocksSound j maxIOSize sync := by
  refine ⟨o, ho, hcov, ?_⟩
  intro J η _ opts k hk s hreach
  have hinv : RangeLocks.Inv opts (RangeFits k (maxBlocks j maxIOSize)) s :=
    hreach.invariant RangeLocks.inv_empty fun _ _ _ hu ha hstep => hu.step ha hstep
  have hcovk : ∀ r, RangeFits k (maxBlocks j maxIOSize) r → r.journal = k →
      Covers (opts k) r.firstBlockIdx r.numBlocks := by
    intro r hr hrk
    rw [hk]
    exact hcov _ _ (hr hrk).1 (hr hrk).2
  refine ⟨?_, fun h hrefused => hinv.coherent.not_ownedBy_of_free hrefused.2⟩
  intro h h' r r' e e' b hne hh hh' hrk hrk' hb hb'
  exact ⟨hinv.exclusion hcovk hne hh hh' hrk hrk' hb hb',
    hinv.exclusion hcovk hne.symm hh' hh hrk' hrk hb' hb⟩

/-- Without overflow, the number of blocks that `initRunOptions` computes is the
number of blocks of the largest I/O. -/
theorem numBlocksOf_eq {j : Journal} {len : ℕ}
    (hfit : len + j.journalBlockSize - 1 < Word64.size) : j.numBlocksOf len = maxBlocks j len := by
  have hpos := j.journalBlockSize_pos
  rw [Journal.numBlocksOf, maxBlocks, lastBlock_eq hpos (by omega)]

/-- With overflow, it is 0. -/
theorem numBlocksOf_eq_zero {j : Journal} {len : ℕ} (hlen : len < Word64.size)
    (hwrap : Word64.size ≤ len + j.journalBlockSize - 1) : j.numBlocksOf len = 0 := by
  have hpos := j.journalBlockSize_pos
  have hbs := j.journalBlockSize_lt
  rw [Journal.numBlocksOf, Word64.add_eq_sub (by omega) hlen hbs,
    Word64.sub_eq (by omega) (by omega)]
  exact Nat.div_eq_of_lt (by omega)

/-- With regions of one block, the four blocks whose indices agree with the salt
above the lowest two bits are the regions `0` to `3` in some order. -/
theorem regionIdx_of_block {salt : BitVec 64} {i : ℕ} (hi : i < 4) :
    BitVec.ofNat 64 (4 * (salt.toNat / 4) + i) ^^^ salt =
      BitVec.ofNat 64 (i ^^^ salt.toNat % 4) := by
  have hsalt := salt.isLt
  have hxor : i ^^^ salt.toNat % 4 < 4 := Nat.xor_lt_two_pow (n := 2) hi (by omega)
  apply BitVec.eq_of_toNat_eq
  rw [BitVec.toNat_xor, BitVec.toNat_ofNat, BitVec.toNat_ofNat, Nat.mod_eq_of_lt (by omega),
    Nat.mod_eq_of_lt (by omega)]
  have hdiv : ((4 * (salt.toNat / 4) + i) ^^^ salt.toNat) / 2 ^ 2 = 0 := by
    rw [Nat.xor_div_two_pow, show (4 * (salt.toNat / 4) + i) / 2 ^ 2 = salt.toNat / 2 ^ 2 by omega,
      Nat.xor_self]
  have hmod : ((4 * (salt.toNat / 4) + i) ^^^ salt.toNat) % 2 ^ 2 = i ^^^ salt.toNat % 4 := by
    rw [Nat.xor_mod_two_pow, show (4 * (salt.toNat / 4) + i) % 2 ^ 2 = i by omega]
  omega

/-- The stripes of the regions `0` to `3` are distinct as far as needed: that of
the second of three of these blocks is neither that of the first nor that of the
third. -/
theorem stripe_middle_ne : ∀ r < 4,
    (BitVec.ofNat 64 (1 ^^^ r) * 0x9E3779B97F4A7C15#64) >>> 48 ≠
      (BitVec.ofNat 64 (0 ^^^ r) * 0x9E3779B97F4A7C15#64) >>> 48 ∧
    (BitVec.ofNat 64 (1 ^^^ r) * 0x9E3779B97F4A7C15#64) >>> 48 ≠
      (BitVec.ofNat 64 (2 ^^^ r) * 0x9E3779B97F4A7C15#64) >>> 48 := by
  decide

/-- **With regions of one block some range of three blocks is not covered**,
whatever the seed. -/
theorem not_covers_three {o : RunOptions} (hshift : o.lockRegionShift = 0) :
    ¬ Covers o (4 * (o.stripeSalt.toNat / 4)) 3 := by
  have hsalt := o.stripeSalt.isLt
  have hstripe : ∀ i < 4, (blockIndexToStripe o (4 * (o.stripeSalt.toNat / 4) + i)).val =
      ((BitVec.ofNat 64 (i ^^^ o.stripeSalt.toNat % 4) * 0x9E3779B97F4A7C15#64) >>> 48).toNat := by
    intro i hi
    rw [blockIndexToStripe]
    simp only [hshift, BitVec.ushiftRight_zero, regionIdx_of_block hi]
  obtain ⟨hne₀, hne₂⟩ := stripe_middle_ne (o.stripeSalt.toNat % 4) (by omega)
  intro hcov
  have hmem := hcov (4 * (o.stripeSalt.toNat / 4) + 1) (by omega) (by omega)
  have hsize : Word64.size = 2 ^ 64 := rfl
  rw [mem_rangeStripes, lastBlock_eq (by omega) (by omega)] at hmem
  rcases hmem with heq | heq
  · refine hne₀ (BitVec.eq_of_toNat_eq ?_)
    rw [← hstripe 1 (by omega), ← hstripe 0 (by omega), heq, Nat.add_zero]
  · refine hne₂ (BitVec.eq_of_toNat_eq ?_)
    rw [← hstripe 1 (by omega), ← hstripe 2 (by omega), heq]
    rfl

/-- **When the range locks are sound.**  They are, for a run with the given largest
I/O, exactly when this I/O has at most two journal blocks, or when the number of
its blocks is computed without overflow and is at most `2 ^ 63`. -/
theorem rangeLocks_sound_iff (j : Journal) (maxIOSize : Fin Word64.size) (sync : Bool) :
    RangeLocksSound j maxIOSize sync ↔
      maxBlocks j maxIOSize ≤ 2 ∨
        (maxIOSize + j.journalBlockSize - 1 < Word64.size ∧ maxBlocks j maxIOSize ≤ 2 ^ 63) := by
  have hmax := maxIOSize.isLt
  constructor
  · rintro ⟨o, ho, hcov, -⟩
    obtain ⟨-, -, hloop⟩ := initRunOptions_eq_some_iff.mp ho
    obtain ⟨hle, hlt, hmin⟩ := regionShiftLoop_eq_some hloop
    rcases lt_or_ge (maxIOSize + j.journalBlockSize - 1) Word64.size with hfit | hwrap
    · right
      rw [numBlocksOf_eq hfit] at hle
      exact ⟨hfit, hle.trans (Nat.pow_le_pow_right (by omega) (by omega))⟩
    · left
      by_contra hthree
      rw [numBlocksOf_eq_zero hmax hwrap] at hmin
      have hshift : o.lockRegionShift = 0 := by
        by_contra hne
        exact absurd (hmin 0 le_rfl (by omega)) (by omega)
      have hsalt := o.stripeSalt.isLt
      have hsize : Word64.size = 2 ^ 64 := rfl
      exact not_covers_three hshift (hcov _ 3 (by omega) (by omega))
  · intro hcond
    have hcases : j.numBlocksOf maxIOSize = 0 ∨
        j.numBlocksOf maxIOSize = maxBlocks j maxIOSize := by
      rcases lt_or_ge (maxIOSize + j.journalBlockSize - 1) Word64.size with hfit | hwrap
      · exact Or.inr (numBlocksOf_eq hfit)
      · exact Or.inl (numBlocksOf_eq_zero hmax hwrap)
    have hle : j.numBlocksOf maxIOSize ≤ 2 ^ 63 := by
      rcases hcond with h | ⟨-, h⟩ <;> omega
    have hsome : (regionShiftLoop (j.numBlocksOf maxIOSize) 64 0).isSome :=
      regionShiftLoop_isSome (by omega) hle
    obtain ⟨shift, hshift⟩ := Option.isSome_iff_exists.mp hsome
    let o : RunOptions := ⟨sync, shift, j.journalSeed⟩
    have ho : initRunOptions j maxIOSize sync = some o :=
      initRunOptions_eq_some_iff.mpr ⟨rfl, rfl, hshift⟩
    refine rangeLocksSound_of_covers ho fun first num hnum hfits => ?_
    rcases hcond with h | ⟨hfit, -⟩
    · exact covers_of_le_two (hnum.trans h) hfits
    · refine covers_of_le (hnum.trans ?_) hfits
      rw [← numBlocksOf_eq hfit]
      exact (regionShiftLoop_eq_some hshift).1

/-- A journal with blocks of three bytes. -/
def threeByteJournal : Journal where
  journalBlockSize := 3
  targetOffset := 3
  targetSize := 2 ^ 64 - 4
  journalSeed := 0#64
  journalBlockSize_pos := by decide
  journalBlockSize_lt := by decide
  targetOffset_lt := by decide
  targetSize_lt := by decide

/-- One holder takes the blocks `0` to `2` exclusively, another one block `1`. -/
def overlapTrace : List (RangeOp Unit Bool) :=
  [.acquireRange false ⟨(), 0, 3⟩ true true, .lock false, .lock false,
    .acquireRange true ⟨(), 1, 1⟩ true true, .lock true]

/-- **Two writers of one block.**  For a largest I/O of `2 ^ 64 - 1` bytes the sum in
`initRunOptions` overflows, the regions get one block each, and two exclusive
guards for overlapping ranges are held at the same time. -/
theorem overlapping_exclusive_ranges :
    initRunOptions threeByteJournal (2 ^ 64 - 1) false = some ⟨false, 0, 0#64⟩ ∧
      ∃ s : RangeLocks Unit Bool,
        Reach (RangeLocks.step fun _ => ⟨false, 0, 0#64⟩)
          (fun _ op => RangeLocks.Allowed
            (RangeFits () (maxBlocks threeByteJournal (2 ^ 64 - 1))) op)
          RangeLocks.empty s ∧
        s.Holds false ⟨(), 0, 3⟩ true ∧ s.Holds true ⟨(), 1, 1⟩ true ∧
        (⟨(), 0, 3⟩ : BlockRange Unit).Contains 1 ∧ (⟨(), 1, 1⟩ : BlockRange Unit).Contains 1 := by
  refine ⟨by decide, ?_⟩
  have hallowed : ∀ op ∈ overlapTrace, RangeLocks.Allowed
      (RangeFits () (maxBlocks threeByteJournal (2 ^ 64 - 1))) op := by
    simp [overlapTrace, RangeLocks.Allowed, RangeFits, maxBlocks, threeByteJournal, Word64.size]
  exact ⟨_, reach_of_runTrace _ overlapTrace hallowed rfl, ⟨rfl, _, rfl⟩, ⟨rfl, _, rfl⟩,
    ⟨by decide, by decide⟩, ⟨by decide, by decide⟩⟩

end Elbencho
