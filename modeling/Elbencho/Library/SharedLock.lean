import Elbencho.Library.Transition
import Mathlib.Data.Finset.Basic
import Mathlib.Data.List.Nodup
import Mathlib.Logic.Function.Basic
import Mathlib.Order.WellFounded

/-!
# Guards over an array of reader/writer locks

An array of reader/writer mutexes indexed by `σ`, and holders `η` each of which
owns one *guard*.  A guard is taken for a list of locks in one mode (exclusive or
shared): the locks are acquired one after the other in the order of the list,
either waiting for each of them or only trying, and they are released one after
the other.  Each lock operation on a mutex is one step, so two guards may
interleave in the middle of their acquisitions.

* `SharedMutex` is the mutex, with its owners; `Grants`, `lock`, `unlock` are its
  operations and `OwnedBy` says who holds it in which mode.
* `LockTable.step` is the machine of guards.  A trying guard may give up at any
  time, not only when the lock is taken: `try_lock` is allowed to fail for no
  reason.
* `Coherent` relates the two views: a mutex is owned by exactly the holders whose
  guards list it.  `step_coherent` keeps it, and `Coherent.exclusion` is what it
  is for: a lock in two guards is in neither of them exclusively.
* `not_circularWait` is the deadlock statement.  If every guard takes its locks
  in ascending order and a party only waits while none of its *other* guards
  holds a lock, then no set of parties waits for each other; and from every
  waiting party the chain of parties in its way ends at one that runs
  (`exists_running_of_waits`).
-/

namespace Elbencho
namespace SharedLock

open Transition

variable {η σ : Type*}

/-! ## One mutex -/

/-- A reader/writer mutex: one exclusive owner, or any number of shared owners.
A free mutex is one that nobody shares. -/
inductive SharedMutex (η : Type*) where
  | exclusive (owner : η)
  | shared (owners : Finset η)

namespace SharedMutex

/-- The mutex nobody holds. -/
def free : SharedMutex η := .shared ∅

/-- A lock call in the given mode returns at once. -/
def Grants : SharedMutex η → Bool → Prop
  | .exclusive _, _ => False
  | .shared owners, isExclusive => isExclusive = true → owners = ∅

instance [DecidableEq η] (m : SharedMutex η) (isExclusive : Bool) :
    Decidable (m.Grants isExclusive) :=
  match m with
  | .exclusive _ => isFalse id
  | .shared owners => inferInstanceAs (Decidable (isExclusive = true → owners = ∅))

/-- `h` holds the mutex in the given mode. -/
def OwnedBy : SharedMutex η → η → Bool → Prop
  | .exclusive owner, h, isExclusive => isExclusive = true ∧ owner = h
  | .shared owners, h, isExclusive => isExclusive = false ∧ h ∈ owners

variable [DecidableEq η]

/-- The state after a granted lock call of `h`. -/
def lock (m : SharedMutex η) (isExclusive : Bool) (h : η) : SharedMutex η :=
  match isExclusive, m with
  | true, _ => .exclusive h
  | false, .shared owners => .shared (insert h owners)
  | false, .exclusive owner => .exclusive owner

/-- The state after the unlock call of `h` that belongs to its mode. -/
def unlock (m : SharedMutex η) (isExclusive : Bool) (h : η) : SharedMutex η :=
  match isExclusive, m with
  | true, _ => free
  | false, .shared owners => .shared (owners.erase h)
  | false, .exclusive owner => .exclusive owner

omit [DecidableEq η] in
@[simp] theorem not_ownedBy_free (h : η) (isExclusive : Bool) :
    ¬ (free : SharedMutex η).OwnedBy h isExclusive := by
  simp [free, OwnedBy]

/-- A granted lock call adds its caller to the owners and nobody else. -/
theorem ownedBy_lock {m : SharedMutex η} {e e' : Bool} {h h' : η} (hg : m.Grants e) :
    (m.lock e h).OwnedBy h' e' ↔ (h' = h ∧ e' = e) ∨ m.OwnedBy h' e' := by
  cases m with
  | exclusive owner => exact absurd hg id
  | shared owners =>
    cases e with
    | true =>
      have hempty : owners = ∅ := hg rfl
      rw [hempty]
      simp only [lock, OwnedBy, Finset.notMem_empty, and_false, or_false]
      constructor
      · rintro ⟨he, rfl⟩
        exact ⟨rfl, he⟩
      · rintro ⟨rfl, he⟩
        exact ⟨he, rfl⟩
    | false =>
      simp only [lock, OwnedBy, Finset.mem_insert]
      constructor
      · rintro ⟨he, hh | hh⟩
        · exact Or.inl ⟨hh, he⟩
        · exact Or.inr ⟨he, hh⟩
      · rintro (⟨hh, he⟩ | ⟨he, hh⟩)
        · exact ⟨he, Or.inl hh⟩
        · exact ⟨he, Or.inr hh⟩

/-- An unlock call of an owner removes this owner and nobody else. -/
theorem ownedBy_unlock {m : SharedMutex η} {e e' : Bool} {h h' : η}
    (ho : m.OwnedBy h e) :
    (m.unlock e h).OwnedBy h' e' ↔ m.OwnedBy h' e' ∧ h' ≠ h := by
  cases m with
  | exclusive owner =>
    obtain ⟨rfl, rfl⟩ := ho
    constructor
    · exact fun hf => absurd hf (not_ownedBy_free h' e')
    · rintro ⟨⟨-, heq⟩, hne⟩
      exact absurd heq.symm hne
  | shared owners =>
    obtain ⟨rfl, hmem⟩ := ho
    simp only [unlock, OwnedBy, Finset.mem_erase]
    constructor
    · rintro ⟨he, hne, hh⟩
      exact ⟨⟨he, hh⟩, hne⟩
    · rintro ⟨⟨he, hh⟩, hne⟩
      exact ⟨he, hne, hh⟩

omit [DecidableEq η] in
/-- An exclusive owner is the only owner. -/
theorem OwnedBy.eq_of_exclusive {m : SharedMutex η} {h h' : η} {e : Bool}
    (ho : m.OwnedBy h true) (ho' : m.OwnedBy h' e) : h' = h := by
  cases m with
  | exclusive owner => exact ho'.2.symm.trans ho.2
  | shared owners => exact absurd ho.1 (by simp)

omit [DecidableEq η] in
/-- A mutex that does not grant a call has an owner. -/
theorem exists_ownedBy_of_not_grants {m : SharedMutex η} {e : Bool}
    (hn : ¬ m.Grants e) : ∃ h e', m.OwnedBy h e' := by
  cases m with
  | exclusive owner => exact ⟨owner, true, rfl, rfl⟩
  | shared owners =>
    have hne : owners ≠ ∅ := fun hempty => hn fun _ => hempty
    obtain ⟨h, hh⟩ := Finset.nonempty_iff_ne_empty.mpr hne
    exact ⟨h, false, rfl, hh⟩

end SharedMutex

/-! ## Guards -/

/-- The state of one guard.  While it is acquired, `got` are the locks it already
holds and `todo` those it still needs; while it is released, `rest` are the locks
it has not given back yet. -/
inductive Guard (σ : Type*) where
  | free
  | acquiring (got todo : List σ) (isExclusive mayBlock : Bool)
  | held (locks : List σ) (isExclusive : Bool)
  | releasing (rest : List σ) (isExclusive : Bool)

namespace Guard

/-- The locks the guard holds. -/
def owned : Guard σ → List σ
  | .free => []
  | .acquiring got _ _ _ => got
  | .held locks _ => locks
  | .releasing rest _ => rest

/-- The locks the guard still waits for or tries. -/
def wanted : Guard σ → List σ
  | .acquiring _ todo _ _ => todo
  | _ => []

/-- The mode in which the guard holds its locks. -/
def mode : Guard σ → Bool
  | .free => false
  | .acquiring _ _ isExclusive _ => isExclusive
  | .held _ isExclusive => isExclusive
  | .releasing _ isExclusive => isExclusive

/-- An acquisition that has got these locks: complete, or with more to do. -/
def afterLock (got todo : List σ) (isExclusive mayBlock : Bool) : Guard σ :=
  match todo with
  | [] => .held got isExclusive
  | s :: todo => .acquiring got (s :: todo) isExclusive mayBlock

/-- A release that still has these locks to give back: complete, or with more to
do. -/
def afterRelease (rest : List σ) (isExclusive : Bool) : Guard σ :=
  match rest with
  | [] => .free
  | s :: rest => .releasing (s :: rest) isExclusive

@[simp] theorem owned_free : (free : Guard σ).owned = [] := rfl

@[simp] theorem owned_acquiring (got todo : List σ) (e b : Bool) :
    (acquiring got todo e b).owned = got := rfl

@[simp] theorem owned_held (locks : List σ) (e : Bool) : (held locks e).owned = locks := rfl

@[simp] theorem owned_releasing (rest : List σ) (e : Bool) :
    (releasing rest e).owned = rest := rfl

@[simp] theorem wanted_acquiring (got todo : List σ) (e b : Bool) :
    (acquiring got todo e b).wanted = todo := rfl

@[simp] theorem wanted_held (locks : List σ) (e : Bool) : (held locks e).wanted = [] := rfl

@[simp] theorem wanted_releasing (rest : List σ) (e : Bool) :
    (releasing rest e).wanted = [] := rfl

@[simp] theorem mode_acquiring (got todo : List σ) (e b : Bool) :
    (acquiring got todo e b).mode = e := rfl

@[simp] theorem mode_held (locks : List σ) (e : Bool) : (held locks e).mode = e := rfl

@[simp] theorem mode_releasing (rest : List σ) (e : Bool) : (releasing rest e).mode = e := rfl

@[simp] theorem owned_afterLock (got todo : List σ) (e b : Bool) :
    (afterLock got todo e b).owned = got := by
  cases todo <;> rfl

@[simp] theorem wanted_afterLock (got todo : List σ) (e b : Bool) :
    (afterLock got todo e b).wanted = todo := by
  cases todo <;> rfl

@[simp] theorem mode_afterLock (got todo : List σ) (e b : Bool) :
    (afterLock got todo e b).mode = e := by
  cases todo <;> rfl

@[simp] theorem owned_afterRelease (rest : List σ) (e : Bool) :
    (afterRelease rest e).owned = rest := by
  cases rest <;> rfl

@[simp] theorem wanted_afterRelease (rest : List σ) (e : Bool) :
    (afterRelease rest e).wanted = [] := by
  cases rest <;> rfl

theorem mode_afterRelease {rest : List σ} (e : Bool) (hne : rest ≠ []) :
    (afterRelease rest e).mode = e := by
  cases rest with
  | nil => exact absurd rfl hne
  | cons s rest => rfl

end Guard

/-! ## The table of locks and guards -/

/-- The mutexes and the guards of all holders. -/
structure LockTable (η σ : Type*) where
  mutex : σ → SharedMutex η
  guard : η → Guard σ

/-- The table in which nothing is locked. -/
def LockTable.empty : LockTable η σ where
  mutex := fun _ => .free
  guard := fun _ => .free

/-- The operations on a table: start an acquisition, get the next lock, give up
trying, start a release, give back the next lock. -/
inductive LockOp (η σ : Type*) where
  | acquire (h : η) (locks : List σ) (isExclusive mayBlock : Bool)
  | lock (h : η)
  | giveUp (h : η)
  | release (h : η)
  | unlock (h : η)

/-- The holder whose guard an operation works on. -/
def LockOp.holder : LockOp η σ → η
  | .acquire h _ _ _ => h
  | .lock h => h
  | .giveUp h => h
  | .release h => h
  | .unlock h => h

/-- No acquisition names a lock twice.  Locking the same mutex twice would wait
for itself. -/
def LockOp.Distinct : LockOp η σ → Prop
  | .acquire _ locks _ _ => locks.Nodup
  | _ => True

variable [DecidableEq η] [DecidableEq σ]

/-- One operation on the table. -/
def LockTable.step (t : LockTable η σ) : LockOp η σ → Option (LockTable η σ)
  | .acquire h locks e b =>
    match t.guard h with
    | .free =>
      some { t with guard := Function.update t.guard h (.afterLock [] locks e b) }
    | _ => none
  | .lock h =>
    match t.guard h with
    | .acquiring got (s :: todo) e b =>
      if (t.mutex s).Grants e then
        some
          { mutex := Function.update t.mutex s ((t.mutex s).lock e h)
            guard := Function.update t.guard h (.afterLock (got ++ [s]) todo e b) }
      else none
    | _ => none
  | .giveUp h =>
    match t.guard h with
    | .acquiring got _ e false =>
      some { t with guard := Function.update t.guard h (.afterRelease got e) }
    | _ => none
  | .release h =>
    match t.guard h with
    | .held locks e =>
      some { t with guard := Function.update t.guard h (.afterRelease locks e) }
    | _ => none
  | .unlock h =>
    match t.guard h with
    | .releasing (s :: rest) e =>
      some
        { mutex := Function.update t.mutex s ((t.mutex s).unlock e h)
          guard := Function.update t.guard h (.afterRelease rest e) }
    | _ => none

/-! What each operation can do: the guard it is enabled in and the table it leads
to. -/

theorem LockTable.step_acquire {t t' : LockTable η σ} {h : η} {locks : List σ} {e b : Bool}
    (hstep : t.step (.acquire h locks e b) = some t') :
    t.guard h = .free ∧
      t' = { t with guard := Function.update t.guard h (.afterLock [] locks e b) } := by
  rw [LockTable.step] at hstep
  split at hstep
  · exact ⟨‹_›, (Option.some.inj hstep).symm⟩
  · exact absurd hstep (by simp)

theorem LockTable.step_lock {t t' : LockTable η σ} {h : η}
    (hstep : t.step (.lock h) = some t') :
    ∃ got s todo e b, t.guard h = .acquiring got (s :: todo) e b ∧ (t.mutex s).Grants e ∧
      t' = { mutex := Function.update t.mutex s ((t.mutex s).lock e h)
             guard := Function.update t.guard h (.afterLock (got ++ [s]) todo e b) } := by
  rw [LockTable.step] at hstep
  split at hstep
  · split at hstep
    · exact ⟨_, _, _, _, _, ‹_›, ‹_›, (Option.some.inj hstep).symm⟩
    · exact absurd hstep (by simp)
  · exact absurd hstep (by simp)

theorem LockTable.step_giveUp {t t' : LockTable η σ} {h : η}
    (hstep : t.step (.giveUp h) = some t') :
    ∃ got todo e, t.guard h = .acquiring got todo e false ∧
      t' = { t with guard := Function.update t.guard h (.afterRelease got e) } := by
  rw [LockTable.step] at hstep
  split at hstep
  · exact ⟨_, _, _, ‹_›, (Option.some.inj hstep).symm⟩
  · exact absurd hstep (by simp)

theorem LockTable.step_release {t t' : LockTable η σ} {h : η}
    (hstep : t.step (.release h) = some t') :
    ∃ locks e, t.guard h = .held locks e ∧
      t' = { t with guard := Function.update t.guard h (.afterRelease locks e) } := by
  rw [LockTable.step] at hstep
  split at hstep
  · exact ⟨_, _, ‹_›, (Option.some.inj hstep).symm⟩
  · exact absurd hstep (by simp)

theorem LockTable.step_unlock {t t' : LockTable η σ} {h : η}
    (hstep : t.step (.unlock h) = some t') :
    ∃ s rest e, t.guard h = .releasing (s :: rest) e ∧
      t' = { mutex := Function.update t.mutex s ((t.mutex s).unlock e h)
             guard := Function.update t.guard h (.afterRelease rest e) } := by
  rw [LockTable.step] at hstep
  split at hstep
  · exact ⟨_, _, _, ‹_›, (Option.some.inj hstep).symm⟩
  · exact absurd hstep (by simp)

/-- An operation leaves the guards of the other holders alone. -/
theorem LockTable.step_guard_of_ne {t t' : LockTable η σ} {op : LockOp η σ}
    (h : t.step op = some t') {i : η} (hi : i ≠ op.holder) : t'.guard i = t.guard i := by
  cases op with
  | acquire j locks e b =>
    obtain ⟨-, rfl⟩ := LockTable.step_acquire h
    exact Function.update_of_ne hi _ _
  | lock j =>
    obtain ⟨_, _, _, _, _, -, -, rfl⟩ := LockTable.step_lock h
    exact Function.update_of_ne hi _ _
  | giveUp j =>
    obtain ⟨_, _, _, -, rfl⟩ := LockTable.step_giveUp h
    exact Function.update_of_ne hi _ _
  | release j =>
    obtain ⟨_, _, -, rfl⟩ := LockTable.step_release h
    exact Function.update_of_ne hi _ _
  | unlock j =>
    obtain ⟨_, _, _, -, rfl⟩ := LockTable.step_unlock h
    exact Function.update_of_ne hi _ _

/-! ## Coherence -/

/-- The mutexes and the guards tell the same story: a mutex is owned by exactly
the holders whose guards list it, in the mode of the guard, and no guard lists a
lock twice. -/
structure Coherent (t : LockTable η σ) : Prop where
  owned_iff : ∀ s h e,
    (t.mutex s).OwnedBy h e ↔ s ∈ (t.guard h).owned ∧ (t.guard h).mode = e
  nodup : ∀ h, ((t.guard h).owned ++ (t.guard h).wanted).Nodup

omit [DecidableEq η] [DecidableEq σ] in
theorem coherent_empty : Coherent (LockTable.empty : LockTable η σ) where
  owned_iff := by
    intro s h e
    simp [LockTable.empty]
  nodup := fun _ => List.nodup_nil

omit [DecidableEq σ] in
/-- An operation that only renames the state of a guard, without changing the
locks it holds, keeps coherence. -/
theorem Coherent.update_guard {t : LockTable η σ} (hc : Coherent t) {i : η} {g : Guard σ}
    (howned : g.owned = (t.guard i).owned)
    (hmode : g.owned ≠ [] → g.mode = (t.guard i).mode)
    (hnodup : (g.owned ++ g.wanted).Nodup) :
    Coherent { t with guard := Function.update t.guard i g } where
  owned_iff := by
    intro s h e
    rcases eq_or_ne h i with rfl | hne
    · simp only [Function.update_self]
      rw [hc.owned_iff s h e, howned]
      constructor
      · rintro ⟨hs, he⟩
        exact ⟨hs, (hmode (howned ▸ List.ne_nil_of_mem hs)).trans he⟩
      · rintro ⟨hs, he⟩
        exact ⟨hs, (hmode (howned ▸ List.ne_nil_of_mem hs)).symm.trans he⟩
    · simp only [Function.update_of_ne hne]
      exact hc.owned_iff s h e
  nodup := by
    intro h
    rcases eq_or_ne h i with rfl | hne
    · simpa only [Function.update_self] using hnodup
    · simpa only [Function.update_of_ne hne] using hc.nodup h

/-- Getting the next lock keeps coherence. -/
theorem Coherent.lock {t : LockTable η σ} (hc : Coherent t) {i : η} {got todo : List σ}
    {s : σ} {e b : Bool} (hguard : t.guard i = .acquiring got (s :: todo) e b)
    (hgrant : (t.mutex s).Grants e) :
    Coherent
      { mutex := Function.update t.mutex s ((t.mutex s).lock e i)
        guard := Function.update t.guard i (.afterLock (got ++ [s]) todo e b) } where
  owned_iff := by
    intro s' h e'
    have hold := hc.owned_iff s' h e'
    rcases eq_or_ne s' s with rfl | hs
    · simp only [Function.update_self]
      rw [SharedMutex.ownedBy_lock hgrant, hold]
      rcases eq_or_ne h i with rfl | hne
      · simp only [Function.update_self, Guard.owned_afterLock, Guard.mode_afterLock,
          hguard, Guard.owned_acquiring, Guard.mode_acquiring, List.mem_append,
          List.mem_singleton]
        constructor
        · rintro (⟨-, rfl⟩ | ⟨hmem, rfl⟩)
          · exact ⟨Or.inr trivial, rfl⟩
          · exact ⟨Or.inl hmem, rfl⟩
        · rintro ⟨-, rfl⟩
          exact Or.inl ⟨trivial, rfl⟩
      · simp only [Function.update_of_ne hne]
        constructor
        · rintro (⟨heq, -⟩ | h')
          · exact absurd heq hne
          · exact h'
        · exact Or.inr
    · simp only [Function.update_of_ne hs]
      rw [hold]
      rcases eq_or_ne h i with rfl | hne
      · simp only [Function.update_self, Guard.owned_afterLock, Guard.mode_afterLock,
          hguard, Guard.owned_acquiring, Guard.mode_acquiring]
        simp [hs]
      · simp only [Function.update_of_ne hne]
  nodup := by
    intro h
    rcases eq_or_ne h i with rfl | hne
    · have hplan := hc.nodup h
      rw [hguard] at hplan
      simpa using hplan
    · simpa only [Function.update_of_ne hne] using hc.nodup h

/-- Giving back the next lock keeps coherence. -/
theorem Coherent.unlock {t : LockTable η σ} (hc : Coherent t) {i : η} {rest : List σ}
    {s : σ} {e : Bool} (hguard : t.guard i = .releasing (s :: rest) e) :
    Coherent
      { mutex := Function.update t.mutex s ((t.mutex s).unlock e i)
        guard := Function.update t.guard i (.afterRelease rest e) } := by
  have hown : (t.mutex s).OwnedBy i e := by
    rw [hc.owned_iff, hguard]
    exact ⟨List.mem_cons_self, rfl⟩
  have hplan : (s :: rest).Nodup := by
    have h := hc.nodup i
    rw [hguard] at h
    simpa using h
  refine ⟨?_, ?_⟩
  · intro s' h e'
    have hold := hc.owned_iff s' h e'
    rcases eq_or_ne h i with rfl | hne
    · -- the guard that gives the lock back
      have hmem : s' ∈ rest ∧ (Guard.afterRelease rest e).mode = e' ↔ s' ∈ rest ∧ e = e' := by
        constructor
        · rintro ⟨hs', he⟩
          exact ⟨hs', (Guard.mode_afterRelease e (List.ne_nil_of_mem hs')).symm.trans he⟩
        · rintro ⟨hs', he⟩
          exact ⟨hs', (Guard.mode_afterRelease e (List.ne_nil_of_mem hs')).trans he⟩
      simp only [Function.update_self, Guard.owned_afterRelease]
      rw [hmem]
      rcases eq_or_ne s' s with rfl | hs
      · simp only [Function.update_self]
        rw [SharedMutex.ownedBy_unlock hown]
        have hnot : s' ∉ rest := (List.nodup_cons.mp hplan).1
        simp [hnot]
      · simp only [Function.update_of_ne hs]
        rw [hold, hguard]
        simp [hs]
    · simp only [Function.update_of_ne hne]
      rcases eq_or_ne s' s with rfl | hs
      · simp only [Function.update_self]
        rw [SharedMutex.ownedBy_unlock hown, hold]
        exact and_iff_left hne
      · simp only [Function.update_of_ne hs]
        exact hold
  · intro h
    rcases eq_or_ne h i with rfl | hne
    · simpa using (List.nodup_cons.mp hplan).2
    · simpa only [Function.update_of_ne hne] using hc.nodup h

omit [DecidableEq σ] in
/-- Turning a guard that holds locks into one that gives them back keeps
coherence. -/
theorem Coherent.start_release {t : LockTable η σ} (hc : Coherent t) {i : η} {locks : List σ}
    {e : Bool} (howned : (t.guard i).owned = locks) (hmode : (t.guard i).mode = e) :
    Coherent { t with guard := Function.update t.guard i (.afterRelease locks e) } := by
  refine hc.update_guard ?_ ?_ ?_
  · rw [Guard.owned_afterRelease, howned]
  · intro hne
    rw [Guard.owned_afterRelease] at hne
    rw [Guard.mode_afterRelease e hne, hmode]
  · rw [Guard.owned_afterRelease, Guard.wanted_afterRelease, List.append_nil, ← howned]
    exact (hc.nodup i).of_append_left

/-- **Every operation keeps coherence.** -/
theorem step_coherent {t t' : LockTable η σ} {op : LockOp η σ} (hc : Coherent t)
    (hop : op.Distinct) (h : t.step op = some t') : Coherent t' := by
  cases op with
  | acquire i locks e b =>
    obtain ⟨hguard, rfl⟩ := LockTable.step_acquire h
    refine hc.update_guard ?_ ?_ ?_
    · rw [Guard.owned_afterLock, hguard, Guard.owned_free]
    · intro hne
      rw [Guard.owned_afterLock] at hne
      exact absurd rfl hne
    · rw [Guard.owned_afterLock, Guard.wanted_afterLock, List.nil_append]
      exact hop
  | lock i =>
    obtain ⟨_, _, _, _, _, hguard, hgrant, rfl⟩ := LockTable.step_lock h
    exact hc.lock hguard hgrant
  | giveUp i =>
    obtain ⟨_, _, _, hguard, rfl⟩ := LockTable.step_giveUp h
    exact hc.start_release (by rw [hguard, Guard.owned_acquiring]) (by rw [hguard]; rfl)
  | release i =>
    obtain ⟨_, _, hguard, rfl⟩ := LockTable.step_release h
    exact hc.start_release (by rw [hguard, Guard.owned_held]) (by rw [hguard]; rfl)
  | unlock i =>
    obtain ⟨_, _, _, hguard, rfl⟩ := LockTable.step_unlock h
    exact hc.unlock hguard

omit [DecidableEq η] [DecidableEq σ] in
/-- **Mutual exclusion.**  A lock in the guards of two different holders is held
exclusively by neither. -/
theorem Coherent.exclusion {t : LockTable η σ} (hc : Coherent t) {h h' : η} {s : σ}
    (hs : s ∈ (t.guard h).owned) (hs' : s ∈ (t.guard h').owned) (hne : h ≠ h') :
    (t.guard h).mode = false := by
  by_contra hmode
  rw [Bool.not_eq_false] at hmode
  have ho : (t.mutex s).OwnedBy h true := (hc.owned_iff s h true).mpr ⟨hs, hmode⟩
  have ho' := (hc.owned_iff s h' _).mpr ⟨hs', rfl⟩
  exact hne (ho.eq_of_exclusive ho').symm

omit [DecidableEq η] [DecidableEq σ] in
/-- A holder with a free guard owns no mutex. -/
theorem Coherent.not_ownedBy_of_free {t : LockTable η σ} (hc : Coherent t) {h : η}
    (hfree : t.guard h = .free) (s : σ) (e : Bool) : ¬ (t.mutex s).OwnedBy h e := by
  rw [hc.owned_iff, hfree]
  rintro ⟨hs, -⟩
  exact absurd hs (by simp)

/-! ## Waiting -/

section Waiting

variable {κ : Type*} (party : η → κ)

/-- The party `k` waits for the lock `s` through its holder `h`: the holder's
guard may block, `s` is its next lock, and the mutex does not grant the call. -/
def WaitsFor (t : LockTable η σ) (k : κ) (h : η) (s : σ) : Prop :=
  party h = k ∧ ∃ got todo e,
    t.guard h = .acquiring got (s :: todo) e true ∧ ¬ (t.mutex s).Grants e

/-- The party `k` waits for a lock that a guard of the party `k'` holds. -/
def BlockedBy (t : LockTable η σ) (k k' : κ) : Prop :=
  ∃ h s, WaitsFor party t k h s ∧ ∃ h', party h' = k' ∧ s ∈ (t.guard h').owned

/-- The discipline of waiting: every acquisition takes its locks in ascending
order, and while a guard may block, the other guards of its party hold nothing. -/
structure OrderedWaits [LT σ] (t : LockTable η σ) : Prop where
  ascending : ∀ h got todo e b, t.guard h = .acquiring got todo e b →
    (got ++ todo).Pairwise (· < ·)
  alone : ∀ h got todo e, t.guard h = .acquiring got todo e true →
    ∀ h', party h' = party h → h' ≠ h → (t.guard h').owned = []

variable {party}

omit [DecidableEq η] [DecidableEq σ] in
/-- Whoever waits for `s` and is itself in the way of another party holds only
locks below `s`. -/
theorem OrderedWaits.lt_of_waitsFor [LT σ] {t : LockTable η σ}
    (ho : OrderedWaits party t) {k : κ} {h h' : η} {s s' : σ}
    (hw : WaitsFor party t k h s) (hp : party h' = k) (hs' : s' ∈ (t.guard h').owned) :
    s' < s := by
  obtain ⟨hk, got, todo, e, hguard, -⟩ := hw
  rcases eq_or_ne h' h with rfl | hne
  · rw [hguard] at hs'
    have hasc := ho.ascending _ _ _ _ _ hguard
    exact (List.pairwise_append.mp hasc).2.2 s' hs' s List.mem_cons_self
  · rw [ho.alone h got (s :: todo) e hguard h' (hp.trans hk.symm) hne] at hs'
    exact absurd hs' (by simp)

omit [DecidableEq η] [DecidableEq σ] in
/-- **No circular wait.**  Under the discipline of waiting, no nonempty set of
parties is such that each of them waits for a lock held inside the set.  Of the
locks that are waited for and held inside such a set take the largest; its holder
is in the set, so waits for a larger one. -/
theorem not_circularWait [LinearOrder σ] [WellFoundedGT σ] {t : LockTable η σ}
    (ho : OrderedWaits party t) (S : Set κ) (hS : S.Nonempty)
    (hcirc : ∀ k ∈ S, ∃ k' ∈ S, BlockedBy party t k k') : False := by
  let contended : Set σ := {s | ∃ k ∈ S, ∃ h, party h = k ∧ s ∈ (t.guard h).owned}
  have hne : contended.Nonempty := by
    obtain ⟨k, hk⟩ := hS
    obtain ⟨k', hk', _, s, -, h', hp, hs⟩ := hcirc k hk
    exact ⟨s, k', hk', h', hp, hs⟩
  obtain ⟨s, ⟨k, hk, h, hp, hs⟩, hmax⟩ :=
    WellFounded.has_min (wellFounded_gt : WellFounded ((· > ·) : σ → σ → Prop)) contended hne
  obtain ⟨k', hk', i, s', hw, h', hp', hs'⟩ := hcirc k hk
  exact hmax s' ⟨k', hk', h', hp', hs'⟩ (ho.lt_of_waitsFor hw hp hs)

/-- The party waits for some lock. -/
def Waits (party : η → κ) (t : LockTable η σ) (k : κ) : Prop :=
  ∃ h s, WaitsFor party t k h s

omit [DecidableEq η] [DecidableEq σ] in
/-- A waiting party waits for a guard that somebody holds. -/
theorem Waits.blockedBy {t : LockTable η σ} (hc : Coherent t) {k : κ}
    (hw : Waits party t k) : ∃ k', BlockedBy party t k k' := by
  obtain ⟨h, s, hws⟩ := hw
  obtain ⟨hk, got, todo, e, hguard, hng⟩ := hws
  obtain ⟨h', e', ho⟩ := SharedMutex.exists_ownedBy_of_not_grants hng
  exact ⟨party h', h, s, ⟨hk, got, todo, e, hguard, hng⟩, h', rfl,
    ((hc.owned_iff s h' e').mp ho).1⟩

omit [DecidableEq η] [DecidableEq σ] in
/-- **Waiting ends at a party that runs.**  From every waiting party the chain of
parties in its way reaches one that does not wait and holds a lock. -/
theorem exists_running_of_waits [LinearOrder σ] [WellFoundedGT σ] {t : LockTable η σ}
    (hc : Coherent t) (ho : OrderedWaits party t) {k : κ} (hw : Waits party t k) :
    ∃ k', Relation.TransGen (BlockedBy party t) k k' ∧ ¬ Waits party t k' := by
  by_contra hall
  push Not at hall
  refine not_circularWait ho {k' | Relation.ReflTransGen (BlockedBy party t) k k'}
    ⟨k, Relation.ReflTransGen.refl⟩ ?_
  intro k' hk'
  have hw' : Waits party t k' := by
    rcases Relation.reflTransGen_iff_eq_or_transGen.mp hk' with rfl | htrans
    · exact hw
    · exact hall k' htrans
  obtain ⟨k'', hb⟩ := hw'.blockedBy hc
  exact ⟨k'', hk'.tail hb, hb⟩

end Waiting

end SharedLock
end Elbencho
