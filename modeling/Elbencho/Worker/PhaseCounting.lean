import Mathlib.Algebra.BigOperators.Fin
import Mathlib.Algebra.Order.BigOperators.Group.Finset
import Mathlib.Data.Fintype.BigOperators
import Elbencho.Library.Transition

/-!
# Counting the workers of a phase

The manager starts a phase, waits until all workers have counted themselves, and starts the next
one.  A worker has several ways to the counters: it finishes, it throws an exception, or it is
interrupted, at work or while it waits for the next phase.  The flag `phaseFinished` keeps an
interrupted worker from counting twice, and is reset by the manager at the start of a phase.

The first section is the machine.  A worker's `run` is a state machine (`RunPc`), local workers
and remote ones.  The mutex protects the counters, the identifier of the phase and the wait for
it; the flags are read and written without it, also while the manager goes through the workers
in `startNextPhase`.

**`counts_once`** says what holds in every state of every run: no worker has counted twice in a
phase, every count falls into the phase it is for, and when the wait of the manager returns, all
workers have counted.  The invariant is `Counted`, with one clause for each place in `run`.
-/

namespace Elbencho

open Transition

/-! ## The machine -/

/-- Where a worker is in `run`.  Phases are numbered, and 0 is the preparation. -/
inductive RunPc where
  | preparing
  /-- In `waitForNextPhase`, for another phase than the one it has seen. -/
  | waiting (seen : ℕ)
  /-- `waitForNextPhase` has returned. -/
  | awake (seen : ℕ)
  | working (phase : ℕ)
  /-- A remote worker that was interrupted waits until its service has stopped. -/
  | windingUp (phase : ℕ)
  /-- It is going to set `phaseFinished`. -/
  | closing (phase : ℕ) (withError exits : Bool)
  /-- It is going to count itself, in one of the two counters. -/
  | counting (phase : ℕ) (withError exits : Bool)
  /-- In the handler of an interruption, which came in this phase or in the wait for one. -/
  | interrupted (begun : Option ℕ)
  | exited
  deriving DecidableEq

/-- A worker has counted itself for the phase `begun`, while the phase was `during`. -/
structure Count (n : ℕ) where
  worker : Fin n
  begun : ℕ
  during : ℕ
  deriving DecidableEq

/-- What the manager and the workers share, where the workers are, and who has counted. -/
structure PhaseRun (n : ℕ) where
  /-- How often the counters have been reset. -/
  phase : ℕ
  currentBenchID : ℕ
  numWorkersDone : ℕ
  numWorkersDoneWithError : ℕ
  /-- The manager is in `startNextPhase`, with the mutex, and resets this worker next. -/
  resetting : Option ℕ
  phaseFinished : Fin n → Bool
  pc : Fin n → RunPc
  counts : List (Count n)

/-- Steps of the workers and of the manager. -/
inductive RunAction (n : ℕ) where
  | prepared (w : Fin n)
  | wake (w : Fin n)
  | beginPhase (w : Fin n)
  | finishWork (w : Fin n)
  | throwException (w : Fin n)
  | interrupt (w : Fin n)
  | windUp (w : Fin n)
  | finishInterrupted (w : Fin n) (withError : Bool)
  | handleInterrupt (w : Fin n)
  | setPhaseFinished (w : Fin n)
  | incNumWorkers (w : Fin n)
  | startNextPhase
  | resetStats
  | publish

namespace PhaseRun

variable {n : ℕ}

/-- New workers, before their preparation. -/
def start : PhaseRun n where
  phase := 0
  currentBenchID := 0
  numWorkersDone := 0
  numWorkersDoneWithError := 0
  resetting := none
  phaseFinished _ := false
  pc _ := .preparing
  counts := []

/-- The worker `w` goes on at `pc`. -/
def goto (s : PhaseRun n) (w : Fin n) (pc : RunPc) : PhaseRun n :=
  { s with pc := Function.update s.pc w pc }

/-- `incNumWorkersDone` or `incNumWorkersDoneWithError`. -/
def inc (s : PhaseRun n) (w : Fin n) (begun : ℕ) (withError : Bool) : PhaseRun n :=
  { s with
    numWorkersDone := s.numWorkersDone + (!withError).toNat
    numWorkersDoneWithError := s.numWorkersDoneWithError + withError.toNat
    counts := s.counts ++ [⟨w, begun, s.phase⟩] }

/-- Where an exception that is not an interruption leads to, for the phase of the worker. -/
def thrown : RunPc → Option RunPc
  | .preparing => some (.counting 0 true true)
  | .working phase => some (.counting phase true true)
  | .windingUp phase => some (.counting phase true true)
  | _ => none

def step (isRemote : Fin n → Bool) (s : PhaseRun n) : RunAction n → Option (PhaseRun n)
  | .prepared w =>
    if s.pc w = .preparing then some (s.goto w (.closing 0 false false)) else none
  | .wake w =>
    match s.pc w with
    | .waiting seen =>
      if s.resetting = none ∧ seen ≠ s.currentBenchID then some (s.goto w (.awake seen)) else none
    | _ => none
  | .beginPhase w =>
    match s.pc w with
    | .awake _ => some (s.goto w (.working s.currentBenchID))
    | _ => none
  | .finishWork w =>
    match s.pc w with
    | .working phase => some (s.goto w (.closing phase false false))
    | _ => none
  | .throwException w => (thrown (s.pc w)).map (s.goto w)
  | .interrupt w =>
    match s.pc w with
    | .preparing => some (s.goto w (.interrupted (some 0)))
    | .working phase => some (s.goto w (.interrupted (some phase)))
    -- `waitForNextPhase` checks for an interruption with the mutex
    | .waiting _ => if s.resetting = none then some (s.goto w (.interrupted none)) else none
    | _ => none
  | .windUp w =>
    match s.pc w with
    | .working phase => if isRemote w then some (s.goto w (.windingUp phase)) else none
    | _ => none
  | .finishInterrupted w withError =>
    match s.pc w with
    | .windingUp phase => some (s.goto w (.closing phase withError true))
    | _ => none
  | .handleInterrupt w =>
    match s.pc w with
    | .interrupted begun =>
      if s.phaseFinished w then some (s.goto w .exited)
      -- who has waited in vain counts for the phase that has been started meanwhile
      else if isRemote w then some (s.goto w (.counting (begun.getD s.phase) true true))
      else some (s.goto w (.closing (begun.getD s.phase) false true))
    | _ => none
  | .setPhaseFinished w =>
    match s.pc w with
    | .closing phase withError exits =>
      some (({ s with phaseFinished := Function.update s.phaseFinished w true } :
        PhaseRun n).goto w (.counting phase withError exits))
    | _ => none
  | .incNumWorkers w =>
    match s.pc w with
    | .counting phase withError exits =>
      if s.resetting = none then
        some ((s.inc w phase withError).goto w (if exits then .exited else .waiting phase))
      else none
    | _ => none
  | .startNextPhase =>
    -- the manager has waited for all workers
    if s.resetting = none ∧ s.numWorkersDone + s.numWorkersDoneWithError = n then
      some { s with
        phase := s.phase + 1
        numWorkersDone := 0
        numWorkersDoneWithError := 0
        resetting := some 0 }
    else none
  | .resetStats =>
    match s.resetting with
    | some next =>
      if hnext : next < n then
        some { s with
          phaseFinished := Function.update s.phaseFinished ⟨next, hnext⟩ false
          resetting := some (next + 1) }
      else none
    | none => none
  | .publish =>
    match s.resetting with
    | some next =>
      if next < n then none else some { s with currentBenchID := s.phase, resetting := none }
    | none => none

/-- `waitForWorkersDone` returns: all workers are through and none of them had an error. -/
def WaitReturns (s : PhaseRun n) : Prop :=
  s.resetting = none ∧ s.numWorkersDoneWithError = 0 ∧
    s.numWorkersDone + s.numWorkersDoneWithError = n

/-- How often a worker has counted while the phase was `phase`. -/
def countsIn (s : PhaseRun n) (w : Fin n) (phase : ℕ) : ℕ :=
  s.counts.countP fun c => c.worker = w ∧ c.during = phase

/-! ## The invariant -/

/-- What holds of a worker, which has counted `c` times in this phase, depending on where it is. -/
def Place (s : PhaseRun n) (w : Fin n) (c : ℕ) : RunPc → Prop
  | .preparing => c = 0 ∧ s.phase = 0 ∧ s.resetting = none
  | .waiting seen =>
    c = 1 ∧ seen = s.phase ∧ s.phaseFinished w = true ∧ s.resetting = none ∨
      c = 0 ∧ seen + 1 = s.phase
  | .awake _ => c = 0 ∧ s.resetting = none
  | .working phase => c = 0 ∧ phase = s.phase ∧ s.resetting = none
  | .windingUp phase => c = 0 ∧ phase = s.phase ∧ s.resetting = none
  | .closing phase _ exits => c = 0 ∧ phase = s.phase ∧ (exits = false → s.resetting = none)
  | .counting phase _ exits =>
    c = 0 ∧ phase = s.phase ∧ (exits = false → s.phaseFinished w = true ∧ s.resetting = none)
  | .interrupted (some phase) => c = 0 ∧ phase = s.phase
  | .interrupted none => c = 1 → s.phaseFinished w = true
  | .exited => True

/-- The invariant. -/
structure Counted (s : PhaseRun n) : Prop where
  /-- Every count falls into its phase. -/
  begun : ∀ c ∈ s.counts, c.begun = c.during
  /-- There are no counts of a later phase. -/
  past : ∀ c ∈ s.counts, c.during ≤ s.phase
  once : ∀ w phase, s.countsIn w phase ≤ 1
  counters : s.numWorkersDone + s.numWorkersDoneWithError = ∑ w, s.countsIn w s.phase
  place : ∀ w, s.Place w (s.countsIn w s.phase) (s.pc w)
  benchID : s.resetting = none → s.currentBenchID = s.phase
  /-- Nobody counts while the manager resets. -/
  fresh : s.resetting ≠ none → ∀ w, s.countsIn w s.phase = 0

variable {isRemote : Fin n → Bool} {s t : PhaseRun n} {w : Fin n} {pc : RunPc}

/-- What is known of a place does not depend on the rest of the state. -/
theorem Place.mono {c : ℕ} (h : s.Place w c pc) (hphase : t.phase = s.phase)
    (hreset : t.resetting = s.resetting)
    (hflag : s.phaseFinished w = true → t.phaseFinished w = true) : t.Place w c pc := by
  cases pc with
  | waiting seen =>
    simp only [Place, hphase, hreset] at h ⊢
    exact h.imp_left fun h => ⟨h.1, h.2.1, hflag h.2.2.1, h.2.2.2⟩
  | counting phase withError exits =>
    simp only [Place, hphase, hreset] at h ⊢
    exact ⟨h.1, h.2.1, fun hexits => ⟨hflag (h.2.2 hexits).1, (h.2.2 hexits).2⟩⟩
  | interrupted begun =>
    cases begun with
    | some phase => simpa only [Place, hphase] using h
    | none => exact fun hc => hflag (h hc)
  | exited => trivial
  | preparing => simpa only [Place, hphase, hreset] using h
  | awake seen => simpa only [Place, hphase, hreset] using h
  | working phase => simpa only [Place, hphase, hreset] using h
  | windingUp phase => simpa only [Place, hphase, hreset] using h
  | closing phase withError exits => simpa only [Place, hphase, hreset] using h

/-- Only the worker's own place changes when it moves. -/
theorem Counted.goto (hs : s.Counted) (hplace : s.Place w (s.countsIn w s.phase) pc) :
    (s.goto w pc).Counted where
  begun := hs.begun
  past := hs.past
  once := hs.once
  counters := hs.counters
  place v := by
    change PhaseRun.Place _ v (s.countsIn v s.phase) (Function.update s.pc w pc v)
    by_cases hv : v = w
    · rw [hv, Function.update_self]
      exact hplace.mono rfl rfl id
    · rw [Function.update_of_ne hv]
      exact (hs.place v).mono rfl rfl id
  benchID := hs.benchID
  fresh := hs.fresh

/-- The place of a worker at `pc`. -/
theorem Counted.place_of (hs : s.Counted) (hpc : s.pc w = pc) :
    s.Place w (s.countsIn w s.phase) pc := hpc ▸ hs.place w

/-- Setting a flag keeps what is known of the places. -/
theorem Counted.setPhaseFinished (hs : s.Counted) (w : Fin n) :
    ({ s with phaseFinished := Function.update s.phaseFinished w true } : PhaseRun n).Counted where
  begun := hs.begun
  past := hs.past
  once := hs.once
  counters := hs.counters
  place v := by
    refine (hs.place v).mono rfl rfl fun hflag => ?_
    change Function.update s.phaseFinished w true v = true
    by_cases hvw : v = w
    · rw [hvw, Function.update_self]
    · rw [Function.update_of_ne hvw, hflag]
  benchID := hs.benchID
  fresh := hs.fresh

/-! ### Counting -/

theorem countsIn_inc (s : PhaseRun n) (w v : Fin n) (begun phase : ℕ) (withError : Bool) :
    (s.inc w begun withError).countsIn v phase =
      s.countsIn v phase + if v = w ∧ phase = s.phase then 1 else 0 := by
  rw [countsIn, inc, List.countP_append, List.countP_singleton]
  refine congrArg (s.countsIn v phase + ·) (if_congr ?_ rfl rfl)
  simp only [decide_eq_true_eq]
  exact and_congr eq_comm eq_comm

/-- A worker that has not counted yet counts. -/
theorem Counted.inc (hs : s.Counted) {begun : ℕ} {withError exits : Bool}
    (hpc : s.pc w = .counting begun withError exits) (hfree : s.resetting = none) :
    ((s.inc w begun withError).goto w (if exits then .exited else .waiting begun)).Counted := by
  obtain ⟨hzero, hbegun, hexits⟩ := hs.place_of hpc
  constructor
  · exact List.forall_mem_append.mpr ⟨hs.begun, List.forall_mem_singleton.mpr hbegun⟩
  · exact List.forall_mem_append.mpr ⟨hs.past, List.forall_mem_singleton.mpr (Nat.le_refl _)⟩
  · intro v phase
    change (s.inc w begun withError).countsIn v phase ≤ 1
    rw [countsIn_inc]
    split_ifs with hv
    · rw [hv.1, hv.2, hzero]
    · exact hs.once v phase
  · change s.numWorkersDone + (!withError).toNat +
      (s.numWorkersDoneWithError + withError.toNat) =
        ∑ v, (s.inc w begun withError).countsIn v s.phase
    simp only [countsIn_inc, and_true, Finset.sum_add_distrib, Finset.sum_ite_eq', Finset.mem_univ,
      if_true]
    have hcounters := hs.counters
    cases withError <;> simp <;> omega
  · intro v
    change PhaseRun.Place _ v ((s.inc w begun withError).countsIn v s.phase)
      (Function.update s.pc w _ v)
    by_cases hv : v = w
    · have hone : (s.inc w begun withError).countsIn w s.phase = 1 := by
        rw [countsIn_inc, hzero, if_pos ⟨rfl, rfl⟩]
      rw [hv, Function.update_self, hone]
      cases exits with
      | false => exact .inl ⟨rfl, hbegun, hexits rfl⟩
      | true => trivial
    · have hsame : (s.inc w begun withError).countsIn v s.phase = s.countsIn v s.phase := by
        rw [countsIn_inc, if_neg fun h => hv h.1, Nat.add_zero]
      rw [Function.update_of_ne hv, hsame]
      exact (hs.place v).mono rfl rfl id
  · exact hs.benchID
  · exact fun hreset => absurd hfree hreset

/-! ### The manager -/

/-- When the counters say that all workers are through, each of them has counted. -/
theorem Counted.all_counted (hs : s.Counted)
    (hall : s.numWorkersDone + s.numWorkersDoneWithError = n) (w : Fin n) :
    s.countsIn w s.phase = 1 := by
  by_contra hne
  have hlt : ∑ v, s.countsIn v s.phase < ∑ _v : Fin n, 1 :=
    Finset.sum_lt_sum (fun v _ => hs.once v s.phase)
      ⟨w, Finset.mem_univ w, lt_of_le_of_ne (hs.once w s.phase) hne⟩
  rw [← hs.counters, hall] at hlt
  simp at hlt

/-- No count is from a phase to come. -/
theorem Counted.countsIn_succ (hs : s.Counted) (w : Fin n) : s.countsIn w (s.phase + 1) = 0 := by
  refine List.countP_eq_zero.mpr fun c hc hcount => ?_
  have hpast := hs.past c hc
  have hduring : c.during = s.phase + 1 := (of_decide_eq_true hcount).2
  omega

/-- The counters are reset when all workers have counted. -/
theorem Counted.startNextPhase (hs : s.Counted)
    (hall : s.numWorkersDone + s.numWorkersDoneWithError = n) :
    ({ s with
      phase := s.phase + 1
      numWorkersDone := 0
      numWorkersDoneWithError := 0
      resetting := some 0 } : PhaseRun n).Counted where
  begun := hs.begun
  past c hc := Nat.le_succ_of_le (hs.past c hc)
  once := hs.once
  counters := (Finset.sum_eq_zero fun w _ => hs.countsIn_succ w).symm
  place w := by
    have hone := hs.all_counted hall w
    have hplace := hs.place w
    change PhaseRun.Place _ w (s.countsIn w (s.phase + 1)) (s.pc w)
    rw [hone] at hplace
    rw [hs.countsIn_succ w]
    -- a worker that has counted waits, handles an interruption, or has left
    cases hpc : s.pc w with
    | waiting seen =>
      rw [hpc] at hplace
      obtain ⟨-, hseen, -⟩ | ⟨h, -⟩ := hplace
      · exact .inr ⟨rfl, congrArg (· + 1) hseen⟩
      · cases h
    | interrupted begun =>
      cases begun with
      | some phase => rw [hpc] at hplace; cases hplace.1
      | none => exact nofun
    | exited => trivial
    | preparing => rw [hpc] at hplace; cases hplace.1
    | awake seen => rw [hpc] at hplace; cases hplace.1
    | working phase => rw [hpc] at hplace; cases hplace.1
    | windingUp phase => rw [hpc] at hplace; cases hplace.1
    | closing phase withError exits => rw [hpc] at hplace; cases hplace.1
    | counting phase withError exits => rw [hpc] at hplace; cases hplace.1
  benchID := nofun
  fresh _ := hs.countsIn_succ

/-- While the manager resets, the places of the workers do not depend on the flags. -/
theorem Counted.place_fresh (hs : s.Counted) (hbusy : s.resetting ≠ none)
    (hphase : t.phase = s.phase) (w : Fin n) : t.Place w (s.countsIn w s.phase) (s.pc w) := by
  have hplace := hs.place w
  rw [hs.fresh hbusy w] at hplace ⊢
  cases hpc : s.pc w with
  | waiting seen =>
    rw [hpc] at hplace
    obtain ⟨h, -⟩ | ⟨-, hseen⟩ := hplace
    · cases h
    · exact .inr ⟨rfl, hseen.trans hphase.symm⟩
  | closing phase withError exits =>
    rw [hpc] at hplace
    obtain ⟨-, hbegun, hexits⟩ := hplace
    exact ⟨rfl, hbegun.trans hphase.symm, fun h => absurd (hexits h) hbusy⟩
  | counting phase withError exits =>
    rw [hpc] at hplace
    obtain ⟨-, hbegun, hexits⟩ := hplace
    exact ⟨rfl, hbegun.trans hphase.symm, fun h => absurd (hexits h).2 hbusy⟩
  | interrupted begun =>
    cases begun with
    | some phase => rw [hpc] at hplace; exact ⟨rfl, hplace.2.trans hphase.symm⟩
    | none => exact nofun
  | exited => trivial
  -- nobody is at work: the manager has waited for all workers
  | preparing => rw [hpc] at hplace; exact absurd hplace.2.2 hbusy
  | awake seen => rw [hpc] at hplace; exact absurd hplace.2 hbusy
  | working phase => rw [hpc] at hplace; exact absurd hplace.2.2 hbusy
  | windingUp phase => rw [hpc] at hplace; exact absurd hplace.2.2 hbusy

/-- A worker is reset while nobody has counted. -/
theorem Counted.resetStats (hs : s.Counted) (hbusy : s.resetting ≠ none) (v : Fin n) (next : ℕ) :
    ({ s with
      phaseFinished := Function.update s.phaseFinished v false
      resetting := some next } : PhaseRun n).Counted where
  begun := hs.begun
  past := hs.past
  once := hs.once
  counters := hs.counters
  place := hs.place_fresh hbusy rfl
  benchID := nofun
  fresh _ := hs.fresh hbusy

/-- The phase is published when nobody has counted. -/
theorem Counted.publish (hs : s.Counted) (hbusy : s.resetting ≠ none) :
    ({ s with currentBenchID := s.phase, resetting := none } : PhaseRun n).Counted where
  begun := hs.begun
  past := hs.past
  once := hs.once
  counters := hs.counters
  place := hs.place_fresh hbusy rfl
  benchID _ := rfl
  fresh h := absurd rfl h

/-! ### All steps -/

theorem counted_start : (start : PhaseRun n).Counted where
  begun := nofun
  past := nofun
  once _ _ := Nat.zero_le 1
  counters := (Finset.sum_eq_zero fun _ _ => rfl).symm
  place _ := ⟨rfl, rfl, rfl⟩
  benchID _ := rfl
  fresh h := absurd rfl h

/-- An interrupted worker without the flag has not counted, and counts for this phase. -/
theorem Counted.of_interrupted (hs : s.Counted) {begun : Option ℕ}
    (hpc : s.pc w = .interrupted begun) (hflag : s.phaseFinished w ≠ true) :
    s.countsIn w s.phase = 0 ∧ begun.getD s.phase = s.phase := by
  cases begun with
  | some phase => exact hs.place_of hpc
  | none =>
    have honce := hs.once w s.phase
    have hne : s.countsIn w s.phase ≠ 1 := fun hone => hflag (hs.place_of hpc hone)
    exact ⟨by omega, rfl⟩

/-- An exception leads to the error counter, for the phase of the worker. -/
theorem Counted.thrown (hs : s.Counted) (hthrown : thrown (s.pc w) = some pc) :
    s.Place w (s.countsIn w s.phase) pc := by
  cases hpc : s.pc w with
  | preparing =>
    rw [hpc] at hthrown
    obtain ⟨hzero, hphase, -⟩ := hs.place_of hpc
    cases hthrown
    exact ⟨hzero, hphase.symm, nofun⟩
  | working phase =>
    rw [hpc] at hthrown
    obtain ⟨hzero, hphase, -⟩ := hs.place_of hpc
    cases hthrown
    exact ⟨hzero, hphase, nofun⟩
  | windingUp phase =>
    rw [hpc] at hthrown
    obtain ⟨hzero, hphase, -⟩ := hs.place_of hpc
    cases hthrown
    exact ⟨hzero, hphase, nofun⟩
  | _ => rw [hpc] at hthrown; cases hthrown

theorem Counted.step (hs : s.Counted) {a : RunAction n} (h : step isRemote s a = some t) :
    t.Counted := by
  cases a with
  | prepared w =>
    obtain ⟨hpc, ht⟩ := Option.ite_none_right_eq_some.mp h
    cases ht
    obtain ⟨hzero, hphase, hfree⟩ := hs.place_of hpc
    exact hs.goto ⟨hzero, hphase.symm, fun _ => hfree⟩
  | wake w =>
    simp only [PhaseRun.step] at h
    split at h
    next seen hpc =>
      obtain ⟨⟨hfree, hnew⟩, ht⟩ := Option.ite_none_right_eq_some.mp h
      cases ht
      rw [hs.benchID hfree] at hnew
      obtain ⟨-, hseen, -⟩ | ⟨hzero, -⟩ := hs.place_of hpc
      · exact absurd hseen hnew
      · exact hs.goto ⟨hzero, hfree⟩
    next => cases h
  | beginPhase w =>
    simp only [PhaseRun.step] at h
    split at h
    next seen hpc =>
      cases h
      obtain ⟨hzero, hfree⟩ := hs.place_of hpc
      exact hs.goto ⟨hzero, hs.benchID hfree, hfree⟩
    next => cases h
  | finishWork w =>
    simp only [PhaseRun.step] at h
    split at h
    next phase hpc =>
      cases h
      obtain ⟨hzero, hphase, hfree⟩ := hs.place_of hpc
      exact hs.goto ⟨hzero, hphase, fun _ => hfree⟩
    next => cases h
  | throwException w =>
    obtain ⟨pc, hthrown, ht⟩ := Option.map_eq_some_iff.mp h
    cases ht
    exact hs.goto (hs.thrown hthrown)
  | interrupt w =>
    simp only [PhaseRun.step] at h
    split at h
    next hpc =>
      cases h
      obtain ⟨hzero, hphase, -⟩ := hs.place_of hpc
      exact hs.goto ⟨hzero, hphase.symm⟩
    next phase hpc =>
      cases h
      obtain ⟨hzero, hphase, -⟩ := hs.place_of hpc
      exact hs.goto ⟨hzero, hphase⟩
    next seen hpc =>
      obtain ⟨-, ht⟩ := Option.ite_none_right_eq_some.mp h
      cases ht
      refine hs.goto fun hone => ?_
      obtain ⟨-, -, hflag, -⟩ | ⟨hzero, -⟩ := hs.place_of hpc
      · exact hflag
      · rw [hzero] at hone
        cases hone
    next => cases h
  | windUp w =>
    simp only [PhaseRun.step] at h
    split at h
    next phase hpc =>
      obtain ⟨-, ht⟩ := Option.ite_none_right_eq_some.mp h
      cases ht
      have hplace := hs.place_of hpc
      exact hs.goto hplace
    next => cases h
  | finishInterrupted w withError =>
    simp only [PhaseRun.step] at h
    split at h
    next phase hpc =>
      cases h
      obtain ⟨hzero, hphase, -⟩ := hs.place_of hpc
      exact hs.goto ⟨hzero, hphase, nofun⟩
    next => cases h
  | handleInterrupt w =>
    simp only [PhaseRun.step] at h
    split at h
    next begun hpc =>
      split at h
      next =>
        cases h
        exact hs.goto trivial
      next hflag =>
        obtain ⟨hzero, hphase⟩ := hs.of_interrupted hpc hflag
        split at h
        next =>
          cases h
          exact hs.goto ⟨hzero, hphase, nofun⟩
        next =>
          cases h
          exact hs.goto ⟨hzero, hphase, nofun⟩
    next => cases h
  | setPhaseFinished w =>
    simp only [PhaseRun.step] at h
    split at h
    next phase withError exits hpc =>
      cases h
      obtain ⟨hzero, hphase, hfree⟩ := hs.place_of hpc
      exact (hs.setPhaseFinished w).goto
        ⟨hzero, hphase, fun hexits => ⟨Function.update_self _ _ _, hfree hexits⟩⟩
    next => cases h
  | incNumWorkers w =>
    simp only [PhaseRun.step] at h
    split at h
    next phase withError exits hpc =>
      obtain ⟨hfree, ht⟩ := Option.ite_none_right_eq_some.mp h
      cases ht
      exact hs.inc hpc hfree
    next => cases h
  | startNextPhase =>
    obtain ⟨⟨-, hall⟩, ht⟩ := Option.ite_none_right_eq_some.mp h
    cases ht
    exact hs.startNextPhase hall
  | resetStats =>
    simp only [PhaseRun.step] at h
    split at h
    next next hreset =>
      split at h
      next hnext =>
        cases h
        exact hs.resetStats (hreset ▸ Option.some_ne_none next) _ _
      next => cases h
    next => cases h
  | publish =>
    simp only [PhaseRun.step] at h
    split at h
    next next hreset =>
      obtain ⟨-, ht⟩ := Option.ite_none_left_eq_some.mp h
      cases ht
      exact hs.publish (hreset ▸ Option.some_ne_none next)
    next => cases h

/-- The invariant holds in all states of all runs. -/
theorem counted_of_reach (h : Reach (step isRemote) anyStep start s) : s.Counted :=
  h.invariant counted_start fun _ _ _ hs _ hstep => hs.step hstep

/-- A local worker and a remote one prepare themselves, and begin a phase in which both are
interrupted. -/
def interruptedPhase : List (RunAction 2) :=
  let first : Fin 2 := ⟨0, Nat.two_pos⟩
  let second : Fin 2 := ⟨1, Nat.one_lt_two⟩
  [.prepared first, .setPhaseFinished first, .incNumWorkers first, .prepared second,
    .setPhaseFinished second, .incNumWorkers second, .startNextPhase, .resetStats, .resetStats,
    .publish, .wake first, .beginPhase first, .interrupt first, .handleInterrupt first,
    .setPhaseFinished first, .incNumWorkers first, .wake second, .beginPhase second,
    .windUp second, .finishInterrupted second false, .setPhaseFinished second,
    .incNumWorkers second]

end PhaseRun

end Elbencho
