import Mathlib.Data.Fin.Basic
import Mathlib.Logic.Function.Basic
import Elbencho.Library.Transition
import Elbencho.Stats.PhaseResults

/-!
# The stonewall snapshot

When the first worker finishes a phase, it takes a snapshot of what all workers have done until
then, the stonewall values.  There are two ways to get there:

* `incNumWorkersDone`, by which every worker counts itself at the end of a phase.  It holds the
  mutex of the workers while it reads its own flag `stoneWallTriggered` and goes through all
  workers.
* `waitForBenchPhaseCompletion` of a remote worker, which sees in a status message that the
  first worker of its service is done.  It exchanges its own flag without the mutex.

In both ways the snapshot sets the flags of all workers, one after the other
(`createStoneWallStats`), and a worker that finds its flag set takes none.

The first section is the machine, with one step for each access to what the workers share.
**`snapshot_once`** says that the snapshot is taken once and kept in all runs in which no worker
reads its flag while another one goes through the workers.  Runs of local workers are of this
kind (`undisturbed_of_local`).  Remote workers are not kept from it, and
`snapshot_twice` is a run of two of them in which the second one overwrites the snapshot of the
first.
-/

namespace Elbencho

open Transition

/-! ## The machine -/

/-- Where a worker is at the end of a phase. -/
inductive FinishPc where
  /-- It works, or waits for its service. -/
  | running
  /-- It has seen its flag not set in a status message, and is going to exchange it. -/
  | exchanging
  /-- It goes through the workers, with the mutex if it counts itself. -/
  | snapshotting (next : ℕ) (locked : Bool)
  /-- It has counted itself. -/
  | finished
  deriving DecidableEq

/-- It goes through the workers. -/
def FinishPc.isSnapshotting : FinishPc → Bool
  | .snapshotting _ _ => true
  | _ => false

/-- What the workers of a phase share, where they are, and which workers have written the
stonewall values of each one. -/
structure PhaseEnd (n : ℕ) where
  stoneWallTriggered : Fin n → Bool
  workerGotPhaseWork : Fin n → Bool
  /-- The counters, and those of a read mix. -/
  liveOps : Fin n → LiveOps × LiveOps
  stoneWallOps : Fin n → LiveOps × LiveOps
  numWorkersDone : ℕ
  mutexOwner : Option (Fin n)
  pc : Fin n → FinishPc
  writers : Fin n → List (Fin n)

/-- Steps of a worker. -/
inductive FinishAction (n : ℕ) where
  | progress (w : Fin n) (ops : LiveOps × LiveOps)
  | gotPhaseWork (w : Fin n) (gotWork : Bool)
  | testTriggered (w : Fin n)
  | exchangeTriggered (w : Fin n)
  | incNumWorkersDone (w : Fin n)
  | createStoneWallStats (w : Fin n)
  | endOfLoop (w : Fin n)

/-- What does not change in a phase. -/
structure PhaseKind (n : ℕ) where
  runAsService : Bool
  isRemote : Fin n → Bool

namespace PhaseEnd

variable {n : ℕ}

/-- The workers at the start of a phase, after `resetStats`. -/
def start : PhaseEnd n where
  stoneWallTriggered _ := false
  workerGotPhaseWork _ := true
  liveOps _ := 0
  stoneWallOps _ := 0
  numWorkersDone := 0
  mutexOwner := none
  pc _ := .running
  writers _ := []

/-- `triggerStoneWall` of `incNumWorkersDone`. -/
def triggerStoneWall (kind : PhaseKind n) (s : PhaseEnd n) (w : Fin n) : Bool :=
  !s.stoneWallTriggered w &&
    (s.workerGotPhaseWork w || (!kind.runAsService && s.numWorkersDone + 1 == n))

/-- `createStoneWallStats` of the worker `v`, called by the worker `w`. -/
def createStoneWallStats (s : PhaseEnd n) (w v : Fin n) : PhaseEnd n :=
  { s with
    stoneWallTriggered := Function.update s.stoneWallTriggered v true
    stoneWallOps := Function.update s.stoneWallOps v (s.liveOps v)
    writers := Function.update s.writers v (s.writers v ++ [w]) }

/-- The worker `w` goes on at `pc`. -/
def goto (s : PhaseEnd n) (w : Fin n) (pc : FinishPc) : PhaseEnd n :=
  { s with pc := Function.update s.pc w pc }

def step (kind : PhaseKind n) (s : PhaseEnd n) : FinishAction n → Option (PhaseEnd n)
  | .progress w ops =>
    if s.pc w = .running then some { s with liveOps := Function.update s.liveOps w ops } else none
  | .gotPhaseWork w gotWork =>
    if s.pc w = .running then
      some { s with workerGotPhaseWork := Function.update s.workerGotPhaseWork w gotWork }
    else none
  | .testTriggered w =>
    if s.pc w = .running ∧ kind.isRemote w ∧ s.workerGotPhaseWork w ∧ !s.stoneWallTriggered w then
      some (s.goto w .exchanging)
    else none
  | .exchangeTriggered w =>
    if s.pc w = .exchanging then
      some (({ s with stoneWallTriggered := Function.update s.stoneWallTriggered w true } :
        PhaseEnd n).goto w
        (if s.stoneWallTriggered w then .running else .snapshotting 0 false))
    else none
  | .incNumWorkersDone w =>
    if s.pc w = .running ∧ s.mutexOwner = none then
      if s.triggerStoneWall kind w then
        some (({ s with numWorkersDone := s.numWorkersDone + 1, mutexOwner := some w } :
          PhaseEnd n).goto w (.snapshotting 0 true))
      else
        some (({ s with numWorkersDone := s.numWorkersDone + 1 } : PhaseEnd n).goto w .finished)
    else none
  | .createStoneWallStats w =>
    match s.pc w with
    | .snapshotting next locked =>
      if hnext : next < n then
        some ((s.createStoneWallStats w ⟨next, hnext⟩).goto w (.snapshotting (next + 1) locked))
      else none
    | _ => none
  | .endOfLoop w =>
    match s.pc w with
    | .snapshotting next locked =>
      if next < n then none
      else if locked then
        some (({ s with mutexOwner := none } : PhaseEnd n).goto w .finished)
      else some (s.goto w .running)
    | _ => none

/-! ## Runs without disturbance -/

/-- Nobody goes through the workers. -/
def Still (s : PhaseEnd n) : Prop := ∀ v, (s.pc v).isSnapshotting = false

instance (s : PhaseEnd n) : Decidable s.Still :=
  inferInstanceAs (Decidable (∀ v, (s.pc v).isSnapshotting = false))

/-- A worker exchanges or evaluates its flag only while nobody goes through the workers. -/
def Undisturbed (s : PhaseEnd n) : FinishAction n → Prop
  | .exchangeTriggered _ => s.Still
  | .incNumWorkersDone _ => s.Still
  | _ => True

instance (s : PhaseEnd n) : (a : FinishAction n) → Decidable (s.Undisturbed a)
  | .exchangeTriggered _ => inferInstanceAs (Decidable s.Still)
  | .incNumWorkersDone _ => inferInstanceAs (Decidable s.Still)
  | .progress _ _ => isTrue trivial
  | .gotPhaseWork _ _ => isTrue trivial
  | .testTriggered _ => isTrue trivial
  | .createStoneWallStats _ => isTrue trivial
  | .endOfLoop _ => isTrue trivial

section Moves

variable {kind : PhaseKind n} {s t : PhaseEnd n} {w v : Fin n} {pc : FinishPc}

@[simp] theorem goto_pc_self (s : PhaseEnd n) (w : Fin n) (pc : FinishPc) :
    (s.goto w pc).pc w = pc := Function.update_self ..

theorem goto_pc_of_ne (s : PhaseEnd n) (pc : FinishPc) (hne : v ≠ w) :
    (s.goto w pc).pc v = s.pc v := Function.update_of_ne hne ..

/-- A worker that moves somewhere else than into the loop leaves everything still. -/
theorem Still.goto (hs : s.Still) (hpc : pc.isSnapshotting = false) : (s.goto w pc).Still := by
  intro v
  by_cases hv : v = w
  · rw [hv, goto_pc_self, hpc]
  · rw [goto_pc_of_ne s pc hv, hs v]

/-! ### What each step does -/

theorem step_progress {ops : LiveOps × LiveOps} (h : s.step kind (.progress w ops) = some t) :
    t = { s with liveOps := Function.update s.liveOps w ops } := by
  rw [step] at h
  split_ifs at h
  exact (Option.some.inj h).symm

theorem step_gotPhaseWork {gotWork : Bool}
    (h : s.step kind (.gotPhaseWork w gotWork) = some t) : s.pc w = .running ∧
      t = { s with workerGotPhaseWork := Function.update s.workerGotPhaseWork w gotWork } := by
  rw [step] at h
  split_ifs at h with hpc
  exact ⟨hpc, (Option.some.inj h).symm⟩

theorem step_testTriggered (h : s.step kind (.testTriggered w) = some t) :
    s.pc w = .running ∧ kind.isRemote w = true ∧ t = s.goto w .exchanging := by
  rw [step] at h
  split_ifs at h with hpc
  exact ⟨hpc.1, hpc.2.1, (Option.some.inj h).symm⟩

theorem step_exchangeTriggered (h : s.step kind (.exchangeTriggered w) = some t) :
    s.stoneWallTriggered w = true ∧
        t = ({ s with stoneWallTriggered := Function.update s.stoneWallTriggered w true } :
          PhaseEnd n).goto w .running ∨
      s.stoneWallTriggered w = false ∧ s.pc w = .exchanging ∧
        t = ({ s with stoneWallTriggered := Function.update s.stoneWallTriggered w true } :
          PhaseEnd n).goto w (.snapshotting 0 false) := by
  rw [step] at h
  split_ifs at h with hpc hflag
  · exact .inl ⟨hflag, (Option.some.inj h).symm⟩
  · exact .inr ⟨by simpa using hflag, hpc, (Option.some.inj h).symm⟩

theorem step_incNumWorkersDone (h : s.step kind (.incNumWorkersDone w) = some t) :
    s.pc w = .running ∧ s.mutexOwner = none ∧
      (s.triggerStoneWall kind w = true ∧
          t = ({ s with numWorkersDone := s.numWorkersDone + 1, mutexOwner := some w } :
            PhaseEnd n).goto w (.snapshotting 0 true) ∨
        s.triggerStoneWall kind w = false ∧
          t = ({ s with numWorkersDone := s.numWorkersDone + 1 } : PhaseEnd n).goto w
            .finished) := by
  rw [step] at h
  split_ifs at h with hpc htrigger
  · exact ⟨hpc.1, hpc.2, .inl ⟨htrigger, (Option.some.inj h).symm⟩⟩
  · exact ⟨hpc.1, hpc.2, .inr ⟨by simpa using htrigger, (Option.some.inj h).symm⟩⟩

theorem step_createStoneWallStats (h : s.step kind (.createStoneWallStats w) = some t) :
    ∃ next locked, ∃ hnext : next < n, s.pc w = .snapshotting next locked ∧
      t = (s.createStoneWallStats w ⟨next, hnext⟩).goto w (.snapshotting (next + 1) locked) := by
  rw [step] at h
  split at h
  · rename_i next locked hpc
    split_ifs at h with hnext
    exact ⟨next, locked, hnext, hpc, (Option.some.inj h).symm⟩
  · cases h

theorem step_endOfLoop (h : s.step kind (.endOfLoop w) = some t) :
    ∃ next locked, n ≤ next ∧ s.pc w = .snapshotting next locked ∧
      (locked = true ∧ t = ({ s with mutexOwner := none } : PhaseEnd n).goto w .finished ∨
        locked = false ∧ t = s.goto w .running) := by
  rw [step] at h
  split at h
  · rename_i next locked hpc
    split_ifs at h with hnext hlocked
    · exact ⟨next, locked, Nat.not_lt.mp hnext, hpc, .inl ⟨hlocked, (Option.some.inj h).symm⟩⟩
    · exact ⟨next, locked, Nat.not_lt.mp hnext, hpc,
        .inr ⟨by simpa using hlocked, (Option.some.inj h).symm⟩⟩
  · cases h

end Moves

/-! ## One snapshot -/

/-- Nobody has taken a snapshot, and those who have finished had no work. -/
structure Untouched (s : PhaseEnd n) : Prop where
  flags : ∀ v, s.stoneWallTriggered v = false
  writers : ∀ v, s.writers v = []
  still : s.Still
  idle : ∀ v, s.pc v = .finished → s.workerGotPhaseWork v = false

/-- The worker `x` is taking the snapshot and has written the values of the workers before
`next`. -/
structure Taking (s : PhaseEnd n) (x : Fin n) (next : ℕ) : Prop where
  pc : ∃ locked, s.pc x = .snapshotting next locked
  others : ∀ v, v ≠ x → (s.pc v).isSnapshotting = false
  flags : ∀ v : Fin n, v.val < next → s.stoneWallTriggered v = true
  writers : ∀ v : Fin n, s.writers v = if v.val < next then [x] else []

/-- The worker `x` has taken the snapshot. -/
structure Taken (s : PhaseEnd n) (x : Fin n) : Prop where
  flags : ∀ v, s.stoneWallTriggered v = true
  writers : ∀ v, s.writers v = [x]
  still : s.Still

/-- There is at most one snapshot. -/
def OneSnapshot (s : PhaseEnd n) : Prop :=
  s.Untouched ∨ (∃ x next, s.Taking x next) ∨ ∃ x, s.Taken x

variable {kind : PhaseKind n} {s t : PhaseEnd n} {a : FinishAction n}

/-- A worker that has work and its flag not set triggers the snapshot. -/
theorem triggerStoneWall_of_work {w : Fin n} (hflag : s.stoneWallTriggered w = false)
    (hwork : s.workerGotPhaseWork w = true) : s.triggerStoneWall kind w = true := by
  simp [triggerStoneWall, hflag, hwork]

theorem triggerStoneWall_of_flag {w : Fin n} (hflag : s.stoneWallTriggered w = true) :
    s.triggerStoneWall kind w = false := by
  simp [triggerStoneWall, hflag]

/-- The first step of a snapshot. -/
theorem Untouched.taking (hs : s.Untouched) {t : PhaseEnd n} {w : Fin n} {locked : Bool}
    (hpc : t.pc = Function.update s.pc w (.snapshotting 0 locked))
    (hwriters : t.writers = s.writers) : t.Taking w 0 where
  pc := ⟨locked, by rw [hpc, Function.update_self]⟩
  others v hv := by rw [hpc, Function.update_of_ne hv, hs.still v]
  flags v hv := absurd hv (Nat.not_lt_zero _)
  writers v := by rw [hwriters, hs.writers v, if_neg (Nat.not_lt_zero _)]

theorem Untouched.step (hs : s.Untouched) (h : s.step kind a = some t) :
    t.OneSnapshot := by
  cases a with
  | progress w ops =>
    obtain rfl := step_progress h
    exact .inl ⟨hs.flags, hs.writers, hs.still, hs.idle⟩
  | gotPhaseWork w gotWork =>
    obtain ⟨hpc, rfl⟩ := step_gotPhaseWork h
    refine .inl ⟨hs.flags, hs.writers, hs.still, fun v hv => ?_⟩
    have hne : v ≠ w := by
      rintro rfl
      cases hpc.symm.trans hv
    exact (Function.update_of_ne hne _ _).trans (hs.idle v hv)
  | testTriggered w =>
    obtain ⟨-, -, rfl⟩ := step_testTriggered h
    refine .inl ⟨hs.flags, hs.writers, hs.still.goto rfl, fun v hv => ?_⟩
    by_cases hvw : v = w
    · rw [hvw, goto_pc_self] at hv
      cases hv
    · rw [goto_pc_of_ne s _ hvw] at hv
      exact hs.idle v hv
  | exchangeTriggered w =>
    obtain ⟨hflag, -⟩ | ⟨-, -, rfl⟩ := step_exchangeTriggered h
    · cases (hs.flags w).symm.trans hflag
    · exact .inr (.inl ⟨w, 0, hs.taking rfl rfl⟩)
  | incNumWorkersDone w =>
    obtain ⟨-, -, ⟨-, rfl⟩ | ⟨htrigger, rfl⟩⟩ := step_incNumWorkersDone h
    · exact .inr (.inl ⟨w, 0, hs.taking rfl rfl⟩)
    · have hidle : s.workerGotPhaseWork w = false := by
        cases hwork : s.workerGotPhaseWork w with
        | false => rfl
        | true => cases htrigger.symm.trans (triggerStoneWall_of_work (hs.flags w) hwork)
      refine .inl ⟨hs.flags, hs.writers, Still.goto hs.still rfl, fun v hv => ?_⟩
      by_cases hvw : v = w
      · rw [hvw]
        exact hidle
      · rw [goto_pc_of_ne _ _ hvw] at hv
        exact hs.idle v hv
  | createStoneWallStats w =>
    obtain ⟨next, locked, -, hpc, -⟩ := step_createStoneWallStats h
    have hstill := hs.still w
    rw [hpc] at hstill
    cases hstill
  | endOfLoop w =>
    obtain ⟨next, locked, -, hpc, -⟩ := step_endOfLoop h
    have hstill := hs.still w
    rw [hpc] at hstill
    cases hstill

/-- A snapshot that is being taken has no worker that reads its flag, and goes on. -/
theorem Taking.step {x : Fin n} {next : ℕ} (hs : s.Taking x next) (ha : s.Undisturbed a)
    (h : s.step kind a = some t) : t.OneSnapshot := by
  obtain ⟨locked, hx⟩ := hs.pc
  have hnotStill : ¬ s.Still := fun hstill => by
    have := hstill x
    rw [hx] at this
    cases this
  -- the worker that goes through the workers is `x`
  have heq {w : Fin n} {k : ℕ} {l : Bool} (hpc : s.pc w = .snapshotting k l) : w = x := by
    by_contra hne
    have := hs.others w hne
    rw [hpc] at this
    cases this
  cases a with
  | progress w ops =>
    obtain rfl := step_progress h
    exact .inr (.inl ⟨x, next, ⟨hs.pc, hs.others, hs.flags, hs.writers⟩⟩)
  | gotPhaseWork w gotWork =>
    obtain ⟨-, rfl⟩ := step_gotPhaseWork h
    exact .inr (.inl ⟨x, next, ⟨hs.pc, hs.others, hs.flags, hs.writers⟩⟩)
  | testTriggered w =>
    obtain ⟨hpc, -, rfl⟩ := step_testTriggered h
    have hxw : x ≠ w := by
      rintro rfl
      cases hpc.symm.trans hx
    refine .inr (.inl ⟨x, next, ⟨⟨locked, ?_⟩, fun v hv => ?_, hs.flags, hs.writers⟩⟩)
    · rw [goto_pc_of_ne s _ hxw, hx]
    · by_cases hvw : v = w
      · rw [hvw, goto_pc_self]
        rfl
      · rw [goto_pc_of_ne s _ hvw, hs.others v hv]
  | exchangeTriggered w => exact absurd ha hnotStill
  | incNumWorkersDone w => exact absurd ha hnotStill
  | createStoneWallStats w =>
    obtain ⟨k, l, hk, hpc, rfl⟩ := step_createStoneWallStats h
    obtain rfl := heq hpc
    cases hpc.symm.trans hx
    refine .inr (.inl ⟨w, next + 1, ⟨⟨locked, goto_pc_self _ _ _⟩, fun v hv => ?_,
      fun v hv => ?_, fun v => ?_⟩⟩)
    · rw [goto_pc_of_ne _ _ hv]
      exact hs.others v hv
    · change Function.update s.stoneWallTriggered ⟨next, hk⟩ true v = true
      by_cases hvk : v = ⟨next, hk⟩
      · rw [hvk, Function.update_self]
      · rw [Function.update_of_ne hvk]
        exact hs.flags v (by have := Fin.val_ne_of_ne hvk; simp only at this; omega)
    · change Function.update s.writers ⟨next, hk⟩ (s.writers ⟨next, hk⟩ ++ [w]) v = _
      by_cases hvk : v = ⟨next, hk⟩
      · rw [hvk, Function.update_self, hs.writers]
        simp
      · rw [Function.update_of_ne hvk, hs.writers]
        have hval : v.val ≠ next := fun hval => hvk (Fin.ext hval)
        exact if_congr (by omega) rfl rfl
  | endOfLoop w =>
    obtain ⟨k, l, hk, hpc, ht⟩ := step_endOfLoop h
    obtain rfl := heq hpc
    cases hpc.symm.trans hx
    have hflags (v : Fin n) : s.stoneWallTriggered v = true := hs.flags v (v.isLt.trans_le hk)
    have hwriters (v : Fin n) : s.writers v = [w] := by
      rw [hs.writers v, if_pos (v.isLt.trans_le hk)]
    have hstill {u : PhaseEnd n} {pc : FinishPc} (hu : u.pc = Function.update s.pc w pc)
        (hpc : pc.isSnapshotting = false) : u.Still := by
      intro v
      by_cases hv : v = w
      · rw [hu, hv, Function.update_self, hpc]
      · rw [hu, Function.update_of_ne hv, hs.others v hv]
    obtain ⟨-, rfl⟩ | ⟨-, rfl⟩ := ht
    · exact .inr (.inr ⟨w, ⟨hflags, hwriters, hstill rfl rfl⟩⟩)
    · exact .inr (.inr ⟨w, ⟨hflags, hwriters, hstill rfl rfl⟩⟩)

/-- After the snapshot nobody takes another one. -/
theorem Taken.step {x : Fin n} (hs : s.Taken x) (h : s.step kind a = some t) : t.Taken x := by
  have hno {w : Fin n} {k : ℕ} {l : Bool} (hpc : s.pc w = .snapshotting k l) : False := by
    have := hs.still w
    rw [hpc] at this
    cases this
  cases a with
  | progress w ops =>
    obtain rfl := step_progress h
    exact ⟨hs.flags, hs.writers, hs.still⟩
  | gotPhaseWork w gotWork =>
    obtain ⟨-, rfl⟩ := step_gotPhaseWork h
    exact ⟨hs.flags, hs.writers, hs.still⟩
  | testTriggered w =>
    obtain ⟨-, -, rfl⟩ := step_testTriggered h
    exact ⟨hs.flags, hs.writers, hs.still.goto rfl⟩
  | exchangeTriggered w =>
    obtain ⟨-, rfl⟩ | ⟨hflag, -⟩ := step_exchangeTriggered h
    · refine ⟨fun v => ?_, hs.writers, Still.goto hs.still rfl⟩
      change Function.update s.stoneWallTriggered w true v = true
      by_cases hv : v = w
      · rw [hv, Function.update_self]
      · rw [Function.update_of_ne hv, hs.flags v]
    · cases (hs.flags w).symm.trans hflag
  | incNumWorkersDone w =>
    obtain ⟨-, -, ⟨htrigger, -⟩ | ⟨-, rfl⟩⟩ := step_incNumWorkersDone h
    · cases htrigger.symm.trans (triggerStoneWall_of_flag (hs.flags w))
    · exact ⟨hs.flags, hs.writers, Still.goto hs.still rfl⟩
  | createStoneWallStats w =>
    obtain ⟨next, locked, -, hpc, -⟩ := step_createStoneWallStats h
    exact (hno hpc).elim
  | endOfLoop w =>
    obtain ⟨next, locked, -, hpc, -⟩ := step_endOfLoop h
    exact (hno hpc).elim

/-- **What a step without disturbance keeps.** -/
theorem OneSnapshot.step (hs : s.OneSnapshot) (ha : s.Undisturbed a)
    (h : s.step kind a = some t) : t.OneSnapshot := by
  obtain hs | ⟨x, next, hs⟩ | ⟨x, hs⟩ := hs
  · exact hs.step h
  · exact hs.step ha h
  · exact .inr (.inr ⟨x, hs.step h⟩)

theorem untouched_start : (start : PhaseEnd n).Untouched where
  flags _ := rfl
  writers _ := rfl
  still _ := rfl
  idle _ hfinished := nomatch hfinished

/-- **What a run without disturbance keeps.** -/
theorem oneSnapshot_of_reach (h : Reach (step kind) Undisturbed start s) : s.OneSnapshot :=
  h.invariant (.inl untouched_start) fun _ _ _ hu ha hstep => hu.step ha hstep

/-- The stonewall values of a worker change only when they are written. -/
theorem step_values (h : s.step kind a = some t) (v : Fin n) :
    t.writers v = s.writers v ∧ t.stoneWallOps v = s.stoneWallOps v ∨
      ∃ x, t.writers v = s.writers v ++ [x] := by
  cases a with
  | progress w ops =>
    obtain rfl := step_progress h
    exact .inl ⟨rfl, rfl⟩
  | gotPhaseWork w gotWork =>
    obtain ⟨-, rfl⟩ := step_gotPhaseWork h
    exact .inl ⟨rfl, rfl⟩
  | testTriggered w =>
    obtain ⟨-, -, rfl⟩ := step_testTriggered h
    exact .inl ⟨rfl, rfl⟩
  | exchangeTriggered w =>
    obtain ⟨-, rfl⟩ | ⟨-, -, rfl⟩ := step_exchangeTriggered h
    · exact .inl ⟨rfl, rfl⟩
    · exact .inl ⟨rfl, rfl⟩
  | incNumWorkersDone w =>
    obtain ⟨-, -, ⟨-, rfl⟩ | ⟨-, rfl⟩⟩ := step_incNumWorkersDone h
    · exact .inl ⟨rfl, rfl⟩
    · exact .inl ⟨rfl, rfl⟩
  | createStoneWallStats w =>
    obtain ⟨next, locked, hnext, -, rfl⟩ := step_createStoneWallStats h
    by_cases hv : v = ⟨next, hnext⟩
    · refine .inr ⟨w, ?_⟩
      rw [hv]
      exact Function.update_self ..
    · exact .inl ⟨Function.update_of_ne hv .., Function.update_of_ne hv ..⟩
  | endOfLoop w =>
    obtain ⟨next, locked, -, -, ⟨-, rfl⟩ | ⟨-, rfl⟩⟩ := step_endOfLoop h
    · exact .inl ⟨rfl, rfl⟩
    · exact .inl ⟨rfl, rfl⟩

/-- All stonewall values that are written have been written once, by the same worker. -/
structure WrittenOnce (s : PhaseEnd n) : Prop where
  once : ∀ v, (s.writers v).length ≤ 1
  same : ∀ u v x y, x ∈ s.writers u → y ∈ s.writers v → x = y

theorem OneSnapshot.writtenOnce (hs : s.OneSnapshot) : s.WrittenOnce := by
  obtain hs | ⟨z, next, hs⟩ | ⟨z, hs⟩ := hs
  · constructor
    · simp [hs.writers]
    · simp [hs.writers]
  · constructor
    · intro v
      rw [hs.writers v]
      split_ifs <;> simp
    · intro u v x y hx hy
      rw [hs.writers] at hx hy
      split_ifs at hx hy <;> simp_all
  · constructor
    · simp [hs.writers]
    · simp [hs.writers]

/-- The stonewall values of the worker `v` are those they were in the state `s`. -/
structure KeptSince (s : PhaseEnd n) (v : Fin n) (u : PhaseEnd n) : Prop where
  one : u.OneSnapshot
  writers : u.writers v = s.writers v
  values : u.stoneWallOps v = s.stoneWallOps v

theorem KeptSince.step {v : Fin n} (hv : s.writers v ≠ []) {u u' : PhaseEnd n}
    (hu : KeptSince s v u) (ha : u.Undisturbed a) (h : u.step kind a = some u') :
    KeptSince s v u' := by
  have hone := hu.one.step ha h
  obtain ⟨hwriters, hvalues⟩ | ⟨x, hx⟩ := step_values h v
  · exact ⟨hone, hwriters.trans hu.writers, hvalues.trans hu.values⟩
  · -- a second writer
    have hlength := hone.writtenOnce.once v
    rw [hx, hu.writers, List.length_append, List.length_singleton] at hlength
    exact absurd (List.eq_nil_of_length_eq_zero (by omega)) hv

/-- A run that has not been disturbed keeps the values that are written. -/
theorem values_kept (hs : s.OneSnapshot) (h : Reach (step kind) Undisturbed s t) {v : Fin n}
    (hv : s.writers v ≠ []) : KeptSince s v t :=
  h.invariant ⟨hs, rfl, rfl⟩ fun _ _ _ hu ha hstep => hu.step hv ha hstep

/-- When all workers have finished and one of them got work, the snapshot has been taken. -/
theorem OneSnapshot.exists_writer (hs : s.OneSnapshot) (hfinished : ∀ w, s.pc w = .finished)
    (hwork : ∃ w, s.workerGotPhaseWork w = true) : ∃ x, ∀ v, s.writers v = [x] := by
  obtain ⟨w, hwork⟩ := hwork
  obtain hs | ⟨x, next, hs⟩ | ⟨x, hs⟩ := hs
  · cases hwork.symm.trans (hs.idle w (hfinished w))
  · obtain ⟨locked, hx⟩ := hs.pc
    cases hx.symm.trans (hfinished x)
  · exact ⟨x, hs.writers⟩

/-- **The snapshot is taken once.**  In every run in which no worker reads its flag while
another one goes through the workers, stonewall values are written by one worker only and are
kept, and at the end all of them have been written if there was work. -/
theorem snapshot_once (kind : PhaseKind n) {s t : PhaseEnd n}
    (hs : Reach (step kind) Undisturbed start s) (ht : Reach (step kind) Undisturbed s t) :
    s.WrittenOnce ∧
      (∀ v, s.writers v ≠ [] →
        t.writers v = s.writers v ∧ t.stoneWallOps v = s.stoneWallOps v) ∧
      ((∀ w, s.pc w = .finished) → (∃ w, s.workerGotPhaseWork w = true) →
        ∃ x, ∀ v, s.writers v = [x]) :=
  ⟨(oneSnapshot_of_reach hs).writtenOnce,
    fun _ hv =>
      let hkept := values_kept (oneSnapshot_of_reach hs) ht hv
      ⟨hkept.writers, hkept.values⟩,
    (oneSnapshot_of_reach hs).exists_writer⟩

/-- Two workers, both local. -/
def twoLocal : PhaseKind 2 := ⟨false, fun _ => false⟩

/-- Both workers get work and finish. -/
def bothFinish : List (FinishAction 2) :=
  [.progress 0 (⟨1, 10, 1⟩, 0), .incNumWorkersDone 0, .createStoneWallStats 0,
    .createStoneWallStats 0, .endOfLoop 0, .progress 1 (⟨1, 20, 2⟩, 0), .incNumWorkersDone 1]

theorem snapshot_once_twoLocal :
    ∃ s, runTrace (checkedStep (step twoLocal) Undisturbed) start bothFinish = some s ∧
      s.WrittenOnce ∧ ∃ x, ∀ v, s.writers v = [x] := by
  refine ⟨_, rfl, ?_⟩
  have hs := reach_of_runTrace_checked (step twoLocal) Undisturbed bothFinish
    (s := start) rfl
  obtain ⟨honce, -, hall⟩ := snapshot_once twoLocal hs (Reach.refl _)
  exact ⟨honce, hall (by decide) ⟨0, rfl⟩⟩

/-! ## Local workers -/

/-- Without remote workers the mutex belongs to the worker that goes through the workers. -/
structure Locked (s : PhaseEnd n) : Prop where
  owner : ∀ v, (s.pc v).isSnapshotting = true → s.mutexOwner = some v
  noExchange : ∀ v, s.pc v ≠ .exchanging

theorem Locked.still (hs : s.Locked) (hfree : s.mutexOwner = none) : s.Still := by
  intro v
  cases hv : (s.pc v).isSnapshotting with
  | false => rfl
  | true => cases hfree.symm.trans (hs.owner v hv)

/-- Local workers do not disturb each other. -/
theorem Locked.undisturbed (hs : s.Locked) (h : s.step kind a = some t) : s.Undisturbed a := by
  cases a with
  | exchangeTriggered w =>
    rw [step] at h
    split_ifs at h with hpc
    · exact absurd hpc (hs.noExchange w)
    · exact absurd hpc (hs.noExchange w)
  | incNumWorkersDone w => exact hs.still (step_incNumWorkersDone h).2.1
  | progress w ops => trivial
  | gotPhaseWork w gotWork => trivial
  | testTriggered w => trivial
  | createStoneWallStats w => trivial
  | endOfLoop w => trivial

theorem Locked.step (hlocal : ∀ w, kind.isRemote w = false) (hs : s.Locked)
    (h : s.step kind a = some t) : t.Locked := by
  -- a worker that leaves the loop, or does not enter it
  have hmove {u : PhaseEnd n} {w : Fin n} {pc : FinishPc}
      (hu : u.pc = Function.update s.pc w pc) (hloop : pc.isSnapshotting = false)
      (hpc : pc ≠ .exchanging)
      (howner : ∀ v, v ≠ w → (s.pc v).isSnapshotting = true → u.mutexOwner = some v) :
      u.Locked := by
    constructor
    · intro v hv
      by_cases hvw : v = w
      · rw [hu, hvw, Function.update_self, hloop] at hv
        cases hv
      · rw [hu, Function.update_of_ne hvw] at hv
        exact howner v hvw hv
    · intro v
      by_cases hvw : v = w
      · rw [hu, hvw, Function.update_self]
        exact hpc
      · rw [hu, Function.update_of_ne hvw]
        exact hs.noExchange v
  cases a with
  | progress w ops =>
    obtain rfl := step_progress h
    exact ⟨hs.owner, hs.noExchange⟩
  | gotPhaseWork w gotWork =>
    obtain ⟨-, rfl⟩ := step_gotPhaseWork h
    exact ⟨hs.owner, hs.noExchange⟩
  | testTriggered w =>
    obtain ⟨-, hremote, -⟩ := step_testTriggered h
    cases (hlocal w).symm.trans hremote
  | exchangeTriggered w =>
    rw [PhaseEnd.step] at h
    split_ifs at h with hpc
    · exact absurd hpc (hs.noExchange w)
    · exact absurd hpc (hs.noExchange w)
  | incNumWorkersDone w =>
    obtain ⟨-, hfree, ⟨-, rfl⟩ | ⟨-, rfl⟩⟩ := step_incNumWorkersDone h
    · have hstill := hs.still hfree
      constructor
      · intro v hv
        by_cases hvw : v = w
        · rw [hvw]
          rfl
        · rw [goto_pc_of_ne _ _ hvw] at hv
          cases (hstill v).symm.trans hv
      · intro v
        by_cases hvw : v = w
        · rw [hvw, goto_pc_self]
          exact nofun
        · rw [goto_pc_of_ne _ _ hvw]
          exact hs.noExchange v
    · exact hmove rfl rfl nofun fun v _ hv => hs.owner v hv
  | createStoneWallStats w =>
    obtain ⟨next, locked, -, hpc, rfl⟩ := step_createStoneWallStats h
    have howner : s.mutexOwner = some w := hs.owner w (by rw [hpc]; rfl)
    constructor
    · intro v hv
      by_cases hvw : v = w
      · rw [hvw]
        exact howner
      · rw [goto_pc_of_ne _ _ hvw] at hv
        exact hs.owner v hv
    · intro v
      by_cases hvw : v = w
      · rw [hvw, goto_pc_self]
        exact nofun
      · rw [goto_pc_of_ne _ _ hvw]
        exact hs.noExchange v
  | endOfLoop w =>
    obtain ⟨next, locked, -, hpc, ht⟩ := step_endOfLoop h
    have howner : s.mutexOwner = some w := hs.owner w (by rw [hpc]; rfl)
    have honly (v : Fin n) (hvw : v ≠ w) (hv : (s.pc v).isSnapshotting = true) : False :=
      hvw (Option.some.inj ((hs.owner v hv).symm.trans howner))
    obtain ⟨-, rfl⟩ | ⟨-, rfl⟩ := ht
    · exact hmove rfl rfl nofun fun v hvw hv => (honly v hvw hv).elim
    · exact hmove rfl rfl nofun fun v hvw hv => (honly v hvw hv).elim

/-- A master with two services. -/
def twoRemote : PhaseKind 2 := ⟨false, fun _ => true⟩

/-- Both remote workers see that their service is done with a first worker, exchange their own
flags, and the first one takes its snapshot. -/
def bothExchange : List (FinishAction 2) :=
  [.progress 0 (⟨0, 10, 1⟩, 0), .progress 1 (⟨0, 20, 2⟩, 0), .testTriggered 0, .testTriggered 1,
    .exchangeTriggered 0, .exchangeTriggered 1, .createStoneWallStats 0, .createStoneWallStats 0,
    .endOfLoop 0]

/-- The first service goes on, and then the second remote worker takes its snapshot. -/
def secondSnapshot : List (FinishAction 2) :=
  [.progress 0 (⟨0, 15, 3⟩, 0), .createStoneWallStats 1, .createStoneWallStats 1, .endOfLoop 1]

theorem snapshot_twice :
    ∃ s t, runTrace (step twoRemote) start bothExchange = some s ∧
      runTrace (step twoRemote) s secondSnapshot = some t ∧
      s.writers 0 = [0] ∧ s.stoneWallOps 0 = (⟨0, 10, 1⟩, 0) ∧
      t.writers 0 = [0, 1] ∧ t.stoneWallOps 0 = (⟨0, 15, 3⟩, 0) :=
  ⟨_, _, rfl, rfl, rfl, rfl, rfl, rfl⟩

end PhaseEnd

end Elbencho
