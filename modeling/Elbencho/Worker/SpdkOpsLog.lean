import Elbencho.Worker.OpsLog

/-!
# The operations log of the SPDK engine

`spdkAioBlockSized` writes its first entry right before the submission, after the rate limiter, and
the second one after the completion has been verified and committed.  So a completion that has
failed, or whose data are wrong, has no entry, even if it is the only I/O in flight.  Offset and
length of the second entry are computed from the sectors of the I/O.

**Main statement** (`opsLog_paired_iff`), for both engines and every run: the log of a call that has
ended has exactly one completion for each submission if and only if the step that ended it was of
one of the kinds of `EndsPaired`, and, with SPDK, all I/Os were whole sectors of less than 4 GiB.
-/

namespace Elbencho

open OffsetGenerator Transition PairedLog

/-! ## Sectors in the log -/

/-- An operation with the offset and length of its sectors. -/
def sectorOp (sectorSize : ℕ) (op : LogOp) : LogOp :=
  { op with
    offset := Word64.mul (op.offset / sectorSize) sectorSize
    length := op.length / sectorSize % 2 ^ 32 * sectorSize % 2 ^ 32 }

/-- An operation on whole sectors, whose length is a 32-bit number. -/
def WholeSectors (sectorSize : ℕ) (op : LogOp) : Prop :=
  sectorSize ∣ op.offset ∧ sectorSize ∣ op.length ∧ op.length < 2 ^ 32

theorem reduces_sectorOp (sectorSize : ℕ) : OpsLog.Reduces (sectorOp sectorSize) where
  opName_eq _ := rfl
  entryName_eq _ := rfl
  offset_le _ := (Nat.mod_le _ _).trans (Nat.div_mul_le_self _ _)
  length_le _ :=
    (Nat.mod_le _ _).trans
      ((Nat.mul_le_mul_right _ (Nat.mod_le _ _)).trans (Nat.div_mul_le_self _ _))

/-- The operations that are logged with their own offset and length. -/
theorem sectorOp_eq_iff {sectorSize : ℕ} {op : LogOp} (hlt : op.offset < Word64.size) :
    sectorOp sectorSize op = op ↔ WholeSectors sectorSize op := by
  have hoffset : Word64.mul (op.offset / sectorSize) sectorSize =
      op.offset / sectorSize * sectorSize :=
    Word64.mul_eq ((Nat.div_mul_le_self _ _).trans_lt hlt)
  constructor
  · intro heq
    have hoff := congrArg LogOp.offset heq
    have hlen : op.length / sectorSize % 2 ^ 32 * sectorSize % 2 ^ 32 = op.length :=
      congrArg LogOp.length heq
    have hbound : op.length < 2 ^ 32 := hlen ▸ Nat.mod_lt _ (by decide)
    have hdiv : op.length / sectorSize < 2 ^ 32 := (Nat.div_le_self _ _).trans_lt hbound
    rw [Nat.mod_eq_of_lt hdiv,
      Nat.mod_eq_of_lt ((Nat.div_mul_le_self _ _).trans_lt hbound)] at hlen
    exact ⟨Dvd.intro_left _ (hoffset.symm.trans hoff), Dvd.intro_left _ hlen, hbound⟩
  · rintro ⟨hdvd, hdvdLength, hbound⟩
    refine LogOp.ext rfl rfl ?_ ?_
    · exact hoffset.trans (Nat.div_mul_cancel hdvd)
    · have hdiv : op.length / sectorSize < 2 ^ 32 := (Nat.div_le_self _ _).trans_lt hbound
      show op.length / sectorSize % 2 ^ 32 * sectorSize % 2 ^ 32 = op.length
      rw [Nat.mod_eq_of_lt hdiv, Nat.div_mul_cancel hdvdLength, Nat.mod_eq_of_lt hbound]

/-! ## The engine -/

/-- The inputs of `spdkAioBlockSized` with a log: those of the loop, with an interruption request
that is seen at the check after it or without one, a submission that fails, and an exception of the
rate limiter. -/
inductive SpdkLogInput where
  | loop (i : SpdkInput)
  | interrupted (i : SpdkInput)
  | submitFails (action : Action) (submitRes : ℤ)
  | limiterThrows (action : Action) (msg : String)

/-- `spdkAioBlockSized` with its log, and the message of an exception that is not one of the
loop. -/
structure SpdkLogged (G : Type*) where
  engine : SpdkEngine G
  log : OpsLog
  exception : Option String

/-- The engine has left its loop. -/
def SpdkPhase.Ended : SpdkPhase → Prop
  | .filling => False
  | .waiting => False
  | .completing _ => False
  | .returned _ => True
  | .threw _ => True

instance : ∀ phase : SpdkPhase, Decidable phase.Ended
  | .filling => inferInstanceAs (Decidable False)
  | .waiting => inferInstanceAs (Decidable False)
  | .completing _ => inferInstanceAs (Decidable False)
  | .returned _ => inferInstanceAs (Decidable True)
  | .threw _ => inferInstanceAs (Decidable True)

/-- The read or write that is done next without a journal. -/
def isNextOpARead (cfg : WorkerConfig) (numIOPSSubmitted : ℕ) : Bool :=
  if cfg.benchPhase = .readFiles then true else isRWMixTurn cfg numIOPSSubmitted

/-- An operation on a namespace. -/
def spdkOp (fullName : ℕ → String) (r : Request) (isRead : Bool) : LogOp :=
  ⟨if isRead then "spdkRead" else "spdkWrite", fullName r.fileIdx, r.offset, r.size⟩

/-- The operation of a completed I/O: offset and length are computed from its sectors. -/
def completedOp (sectorSize : ℕ) (fullName : ℕ → String) (r : Request) (isRead : Bool) : LogOp :=
  let (currentOffset, blockSize) := (spdkIo sectorSize r).accounted sectorSize
  ⟨if isRead then "spdkRead" else "spdkWrite", fullName r.fileIdx, currentOffset, blockSize⟩

namespace SpdkLogged

variable {G : Type*} [OffsetGenerator G] (ctx : SpdkContext) (cfg : WorkerConfig)
  (fullName : ℕ → String)

/-- The start of the loop. -/
def start (numSlots : ℕ) (p : Progress G) : SpdkLogged G :=
  ⟨.start numSlots p, ⟨fun _ => false, []⟩, none⟩

/-- The engine call has ended, by return or exception. -/
def Ended (s : SpdkLogged G) : Prop := s.exception ≠ none ∨ s.engine.phase.Ended

instance (s : SpdkLogged G) : Decidable s.Ended := inferInstanceAs (Decidable (_ ∨ _))

/-- Whether the next I/O is a read: what the journal says, if there is one. -/
def nextIsRead (s : SpdkLogged G) (action : Action) : Bool :=
  if cfg.journalEnabled then action = .read
  else isNextOpARead cfg s.engine.core.progress.numIOPSSubmitted

/-- The log right before a submission. -/
def prepped (s : SpdkLogged G) (action : Action) : OpsLog :=
  s.log.preOp (spdkOp fullName) s.engine.core.nextSlot (s.engine.core.currentRequest cfg)
    (s.nextIsRead cfg action)

/-- The completion that is handled next, with the I/O in its slot. -/
def currentCompletion (s : SpdkLogged G) : Option (SpdkCompletion × Request) :=
  match s.engine.phase with
  | .completing (c :: _) => (s.engine.core.inFlight.lookup c.slot).map fun r => (c, r)
  | _ => none

/-- The log after the entry for a completion. -/
def completed (s : SpdkLogged G) (c : SpdkCompletion) (r : Request) : OpsLog :=
  s.log.postOp (completedOp ctx.sectorSize fullName r (s.log.isRead c.slot)) false

/-- The log after a step of the loop.  A completion that has failed or whose data are wrong leaves
the loop before its entry. -/
def logAfter (s : SpdkLogged G) : SpdkInput → OpsLog
  | .fill action =>
    if s.engine.core.Prepares cfg action then s.prepped cfg fullName action else s.log
  | .complete => match s.currentCompletion with
    | some (c, r) =>
      if c.ioSuccess = true ∧ c.verifyError = none then s.completed ctx fullName c r else s.log
    | none => s.log
  | _ => s.log

/-- Only the data of reads are verified. -/
def VerifiesReads (s : SpdkLogged G) (completedVec : List SpdkCompletion) : Prop :=
  ∀ c ∈ completedVec, c.verifyError ≠ none → s.log.isRead c.slot = true

instance (s : SpdkLogged G) (completedVec : List SpdkCompletion) :
    Decidable (s.VerifiesReads completedVec) :=
  inferInstanceAs (Decidable (∀ c ∈ completedVec, _))

/-- A step of the loop. -/
def loopStep (s : SpdkLogged G) (i : SpdkInput) : Option (SpdkLogged G) :=
  match i with
  | .fillFails _ => none
  | .completions completedVec =>
    if s.VerifiesReads completedVec then
      (s.engine.step ctx cfg i).map fun e => { s with engine := e }
    else none
  | _ => (s.engine.step ctx cfg i).map fun e =>
      { s with engine := e, log := s.logAfter ctx cfg fullName i }

/-- `checkInterruptionRequest` is called after a timeout and after a completion that was good. -/
def Checks (s s' : SpdkLogged G) : SpdkInput → Prop
  | .timeout => True
  | .complete => s.currentCompletion.isSome ∧ ¬ s'.engine.phase.Ended
  | _ => False

instance (s s' : SpdkLogged G) : ∀ i, Decidable (s.Checks s' i)
  | .timeout => inferInstanceAs (Decidable True)
  | .complete => inferInstanceAs (Decidable (_ ∧ _))
  | .fill _ => inferInstanceAs (Decidable False)
  | .fillFails _ => inferInstanceAs (Decidable False)
  | .completions _ => inferInstanceAs (Decidable False)

/-- A step of `spdkAioBlockSized` with its log. -/
def step (s : SpdkLogged G) (i : SpdkLogInput) : Option (SpdkLogged G) :=
  if s.Ended then none
  else match i with
    | .loop i => s.loopStep ctx cfg fullName i
    | .interrupted i => (s.loopStep ctx cfg fullName i).bind fun s' =>
        if s.Checks s' i then some { s' with exception := some interruptedMsg } else none
    | .submitFails action submitRes =>
      if s.engine.core.Prepares cfg action then
        (s.engine.step ctx cfg (.fillFails submitRes)).map fun e =>
          { s with engine := e, log := s.prepped cfg fullName action }
      else none
    | .limiterThrows action msg =>
      match s.engine.phase with
      | .filling =>
        if s.engine.core.Prepares cfg action then some { s with exception := some msg } else none
      | _ => none

/-- The exits of the engine that leave a paired log, by the state before: the last round of
`fillIdleSlots`, an interruption after the completion of the only I/O in flight, and an exception of
the rate limiter while nothing is in flight. -/
def EndsPaired (s : SpdkLogged G) : SpdkLogInput → Prop
  | .loop (.fill _) => True
  | .interrupted .complete => s.engine.core.numPending = 1
  | .limiterThrows _ _ => s.engine.core.numPending = 0
  | _ => False

/-! ### Steps -/

variable {ctx cfg fullName} {numSlots : ℕ} {s s' : SpdkLogged G}

/-- What a step of the loop does, by its input. -/
theorem engine_step_eq_some {e e' : SpdkEngine G} {i : SpdkInput}
    (h : e.step ctx cfg i = some e') :
    match i with
    | .fill action => e.phase = .filling ∧ e.fillRound cfg action = some e'
    | .fillFails submitRes => e.phase = .filling ∧
        e' = { e with phase := .threw (e.submitErrorMsg ctx cfg submitRes) }
    | .timeout => e.phase = .waiting ∧ e' = e
    | .completions cs => e.phase = .waiting ∧ e' = { e with phase := .completing cs }
    | .complete =>
        (e.phase = .completing [] ∧
          e' = { e with core := { e.core with phase := .filling }, phase := .filling }) ∨
        ∃ c cs r, e.phase = .completing (c :: cs) ∧ e.core.inFlight.lookup c.slot = some r ∧
          e' = e.handleCompletion ctx cfg r c cs := by
  unfold SpdkEngine.step at h
  split at h
  · exact ⟨‹_›, h⟩
  · exact ⟨‹_›, (Option.some.inj h).symm⟩
  · exact ⟨‹_›, (Option.some.inj h).symm⟩
  · exact ⟨‹_›, (Option.some.inj h).symm⟩
  · exact Or.inl ⟨‹_›, (Option.some.inj h).symm⟩
  · obtain ⟨r, hr, rfl⟩ := Option.map_eq_some_iff.mp h
    exact Or.inr ⟨_, _, r, ‹_›, hr, rfl⟩
  · cases h

omit [OffsetGenerator G] in
theorem currentCompletion_eq_some {c : SpdkCompletion} {r : Request}
    (h : s.currentCompletion = some (c, r)) :
    ∃ cs, s.engine.phase = .completing (c :: cs) ∧
      s.engine.core.inFlight.lookup c.slot = some r := by
  unfold currentCompletion at h
  split at h
  · rename_i c' cs hphase
    obtain ⟨r', hr, heq⟩ := Option.map_eq_some_iff.mp h
    cases heq
    exact ⟨cs, hphase, hr⟩
  · cases h

omit [OffsetGenerator G] in
theorem currentCompletion_of_lookup {c : SpdkCompletion} {cs : List SpdkCompletion} {r : Request}
    (hphase : s.engine.phase = .completing (c :: cs))
    (hr : s.engine.core.inFlight.lookup c.slot = some r) : s.currentCompletion = some (c, r) := by
  unfold currentCompletion
  rw [hphase]
  simp only [hr, Option.map_some]

omit [OffsetGenerator G] in
variable (ctx cfg) in
/-- The handling of a completion: a release if it is good, an exit otherwise. -/
theorem handleCompletion_cases (e : SpdkEngine G) (r : Request) (c : SpdkCompletion)
    (cs : List SpdkCompletion) :
    (c.ioSuccess = true ∧ c.verifyError = none ∧
      e.handleCompletion ctx cfg r c cs = e.release ctx cfg r c cs) ∨
    (¬ (c.ioSuccess = true ∧ c.verifyError = none) ∧
      (e.handleCompletion ctx cfg r c cs).phase.Ended ∧
      (e.handleCompletion ctx cfg r c cs).core = e.core) := by
  unfold SpdkEngine.handleCompletion
  by_cases hsuccess : c.ioSuccess = true
  · rw [if_pos hsuccess]
    cases hverify : c.verifyError with
    | some msg => exact Or.inr ⟨fun hgood => (by cases hgood.2), trivial, rfl⟩
    | none => exact Or.inl ⟨hsuccess, rfl, rfl⟩
  · rw [if_neg hsuccess]
    exact Or.inr ⟨fun hgood => hsuccess hgood.1, trivial, rfl⟩

/-- A step of the loop is one of the engine without a log. -/
theorem loopStep_eq_some {i : SpdkInput} (h : s.loopStep ctx cfg fullName i = some s') :
    ∃ e', s.engine.step ctx cfg i = some e' ∧
      s' = { s with engine := e', log := s.logAfter ctx cfg fullName i } := by
  have hmap {l : OpsLog} (hlog : l = s.logAfter ctx cfg fullName i)
      (hstep : ((s.engine.step ctx cfg i).map fun e => ({ s with engine := e, log := l } :
        SpdkLogged G)) = some s') :
      ∃ e', s.engine.step ctx cfg i = some e' ∧
        s' = { s with engine := e', log := s.logAfter ctx cfg fullName i } := by
    obtain ⟨e', hengine, heq⟩ := Option.map_eq_some_iff.mp hstep
    exact ⟨e', hengine, hlog ▸ heq.symm⟩
  unfold loopStep at h
  split at h
  · cases h
  · split_ifs at h
    exact hmap rfl h
  · exact hmap rfl h

variable (ctx cfg fullName numSlots) in
/-- While the engine runs, its log is in step with its slots, its phases agree, it waits only for
I/Os in flight, and offsets are 64-bit words. -/
structure Running (s : SpdkLogged G) : Prop where
  inStep : OpsLog.InStep cfg (spdkOp fullName) (sectorOp ctx.sectorSize) numSlots s.engine.core
    s.log
  filling : s.engine.phase = .filling → s.engine.core.phase = .filling
  waiting : s.engine.phase = .waiting → s.engine.core.numPending ≠ 0
  offset_lt : ∀ op ∈ submissions s.log.entries, op.offset < Word64.size

/-- The phase after a round of `fillIdleSlots`. -/
theorem fillRound_eq_some {e e' : SpdkEngine G} {action : Action}
    (h : e.fillRound cfg action = some e') :
    ∃ core', e.core.fillRound cfg action = some core' ∧
      e' = { e with
        core := core'
        phase := match core'.phase with
          | .waiting => .waiting
          | .returned value => .returned value
          | _ => .filling } := by
  obtain ⟨core', hround, heq⟩ := Option.map_eq_some_iff.mp h
  exact ⟨core', hround, heq.symm⟩

/-- **A step of the loop.** -/
theorem Running.moves_of_loopStep (h : s.Running ctx cfg fullName numSlots) {i : SpdkInput}
    (hexc : s.exception = none) (hstep : s.loopStep ctx cfg fullName i = some s') :
    OpsLog.Moves cfg (spdkOp fullName) (sectorOp ctx.sectorSize) s.engine.core s.log
      (s.EndsPaired (.loop i)) s'.engine.core s'.log s'.Ended := by
  have hrunning {e : SpdkEngine G} {l : OpsLog} (hphase : ¬ e.phase.Ended) :
      ¬ ({ s with engine := e, log := l } : SpdkLogged G).Ended :=
    fun hended => hended.elim (fun hne => hne hexc) hphase
  obtain ⟨e', hengine, rfl⟩ := loopStep_eq_some hstep
  have hcases := engine_step_eq_some hengine
  cases i with
  | fill action =>
    obtain ⟨hphase, hround⟩ := hcases
    obtain ⟨core', hcore, rfl⟩ := fillRound_eq_some hround
    have hfilling := h.filling hphase
    rcases AioEngine.fillRound_slots hcore hfilling with ⟨hprep, rest, hfree, rfl⟩ |
      ⟨hprep, hsame, hnext⟩
    · rw [logAfter, if_pos hprep]
      refine .submitted hfree ⟨rfl, rfl, rfl, rfl⟩ (hrunning ?_)
      have hkeep : (s.engine.core.submitInto cfg s.engine.core.nextSlot rest).phase = .filling :=
        hfilling
      rw [hkeep]
      exact id
    · rw [logAfter, if_neg hprep]
      refine .quiet hsame fun hended => ⟨?_, trivial⟩
      by_contra hpending
      rw [if_neg hpending] at hnext
      refine hrunning ?_ hended
      rcases hnext with hnext | hnext <;> rw [hnext] <;> exact id
  | fillFails submitRes => cases hstep
  | timeout =>
    obtain ⟨hphase, heq⟩ := hcases
    rw [heq]
    exact .quiet ⟨rfl, rfl, rfl, rfl⟩ fun hended => absurd hended (hrunning (hphase ▸ id))
  | completions cs =>
    obtain ⟨-, rfl⟩ := hcases
    exact .quiet ⟨rfl, rfl, rfl, rfl⟩ fun hended => absurd hended (hrunning id)
  | complete =>
    rcases hcases with ⟨hphase, rfl⟩ | ⟨c, cs, r, hphase, hr, rfl⟩
    · have hnone : s.currentCompletion = none := by
        rw [currentCompletion, hphase]
      rw [logAfter, hnone]
      exact .quiet ⟨rfl, rfl, rfl, rfl⟩ fun hended => absurd hended (hrunning id)
    · rw [logAfter, currentCompletion_of_lookup hphase hr]
      rcases handleCompletion_cases ctx cfg s.engine r c cs with
        ⟨hsuccess, hverify, hrelease⟩ | ⟨hbad, hended, hcore⟩
      · dsimp only
        rw [hrelease, if_pos ⟨hsuccess, hverify⟩]
        exact .released hr ⟨rfl, rfl, rfl, rfl⟩ (hrunning id)
      · dsimp only
        rw [hcore, if_neg hbad]
        refine .endsPending (Or.inr hended) (iff_of_false id fun hzero => ?_)
        rw [h.inStep.slotsOk.inFlight_eq_nil_iff.mpr hzero] at hr
        cases hr

/-- **A step of `spdkAioBlockSized` with its log.** -/
theorem Running.moves_of_step (h : s.Running ctx cfg fullName numSlots) {i : SpdkLogInput}
    (hstep : s.step ctx cfg fullName i = some s') :
    OpsLog.Moves cfg (spdkOp fullName) (sectorOp ctx.sectorSize) s.engine.core s.log
      (s.EndsPaired i) s'.engine.core s'.log s'.Ended := by
  unfold step at hstep
  split_ifs at hstep with hrun
  have hexc : s.exception = none := not_not.mp (not_or.mp hrun).1
  cases i with
  | loop i => exact h.moves_of_loopStep hexc hstep
  | interrupted i =>
    obtain ⟨s₁, hloop, hcheck⟩ := Option.bind_eq_some_iff.mp hstep
    split_ifs at hcheck with hchecks
    obtain rfl := Option.some.inj hcheck
    obtain ⟨e', hengine, rfl⟩ := loopStep_eq_some hloop
    have hended (e : SpdkEngine G) (l : OpsLog) :
        (⟨e, l, some interruptedMsg⟩ : SpdkLogged G).Ended := Or.inl (Option.some_ne_none _)
    cases i with
    | timeout =>
      exact .endsPending (hended _ _)
        (iff_of_false id (h.waiting (engine_step_eq_some hengine).1))
    | complete =>
      obtain ⟨⟨c, r⟩, hcurrent⟩ := Option.isSome_iff_exists.mp hchecks.1
      obtain ⟨cs, hphase, hr⟩ := currentCompletion_eq_some hcurrent
      -- the check comes after a good completion only, which has its entry
      have hlog : s.logAfter ctx cfg fullName .complete = s.completed ctx fullName c r := by
        rw [logAfter, hcurrent]
        rcases engine_step_eq_some hengine with ⟨hnil, -⟩ | ⟨c', cs', r', hphase', -, rfl⟩
        · cases hphase.symm.trans hnil
        · cases hphase.symm.trans hphase'
          rcases handleCompletion_cases ctx cfg s.engine r' c cs with ⟨hsuccess, hverify, -⟩ |
            ⟨-, hbad, -⟩
          · exact if_pos ⟨hsuccess, hverify⟩
          · exact absurd hbad hchecks.2
      dsimp only
      rw [hlog]
      exact .endsCompleted hr (hended _ _) Iff.rfl
    | _ => exact absurd hchecks id
  | submitFails action submitRes =>
    dsimp only at hstep
    split_ifs at hstep
    obtain ⟨e', hengine, rfl⟩ := Option.map_eq_some_iff.mp hstep
    obtain ⟨-, rfl⟩ := engine_step_eq_some hengine
    exact .endsPrepped (Or.inr trivial) id
  | limiterThrows action msg =>
    dsimp only at hstep
    split at hstep
    · split_ifs at hstep
      obtain rfl := Option.some.inj hstep
      exact .endsPending (Or.inl (Option.some_ne_none _)) Iff.rfl
    · cases hstep

/-! ### Runs -/

/-- The phases after a step of the loop. -/
theorem Running.phases (h : s.Running ctx cfg fullName numSlots) {i : SpdkInput}
    (hstep : s.loopStep ctx cfg fullName i = some s') :
    (s'.engine.phase = .filling → s'.engine.core.phase = .filling) ∧
      (s'.engine.phase = .waiting → s'.engine.core.numPending ≠ 0) := by
  obtain ⟨e', hengine, rfl⟩ := loopStep_eq_some hstep
  have hcases := engine_step_eq_some hengine
  cases i with
  | fill action =>
    obtain ⟨hphase, hround⟩ := hcases
    obtain ⟨core', hcore, rfl⟩ := fillRound_eq_some hround
    rcases AioEngine.fillRound_slots hcore (h.filling hphase) with ⟨-, rest, -, rfl⟩ |
      ⟨-, hsame, hnext⟩
    · exact ⟨fun _ => h.filling hphase, fun _ => Nat.succ_ne_zero _⟩
    · dsimp only
      rw [hsame.numPending]
      by_cases hzero : s.engine.core.numPending = 0
      · rw [if_pos hzero] at hnext
        rcases hnext with hnext | hnext <;> rw [hnext] <;> simp
      · rw [if_neg hzero] at hnext
        rcases hnext with hnext | hnext <;> rw [hnext] <;> simp [hzero]
  | fillFails submitRes => cases hstep
  | timeout =>
    obtain ⟨-, heq⟩ := hcases
    rw [heq]
    exact ⟨h.filling, h.waiting⟩
  | completions cs =>
    obtain ⟨-, rfl⟩ := hcases
    exact ⟨fun hphase => (by cases hphase), fun hphase => (by cases hphase)⟩
  | complete =>
    rcases hcases with ⟨-, rfl⟩ | ⟨c, cs, r, -, -, rfl⟩
    · exact ⟨fun _ => rfl, fun hphase => (by cases hphase)⟩
    · rcases handleCompletion_cases ctx cfg s.engine r c cs with ⟨-, -, hrelease⟩ | ⟨-, hended, -⟩
      · dsimp only
        rw [hrelease]
        exact ⟨fun hphase => (by cases hphase), fun hphase => (by cases hphase)⟩
      · dsimp only
        refine ⟨fun hphase => ?_, fun hphase => ?_⟩ <;>
        · rw [hphase] at hended
          exact absurd hended id

/-- A step that does not end the call is one of the loop. -/
theorem exists_loopStep_of_step {i : SpdkLogInput} (h : s.step ctx cfg fullName i = some s')
    (hrun : ¬ s'.Ended) : ∃ j, s.loopStep ctx cfg fullName j = some s' := by
  have hexc : s'.exception = none := not_not.mp (not_or.mp hrun).1
  unfold step at h
  split_ifs at h
  cases i with
  | loop j => exact ⟨j, h⟩
  | interrupted j =>
    obtain ⟨s₁, -, hcheck⟩ := Option.bind_eq_some_iff.mp h
    split_ifs at hcheck
    cases hcheck
    cases hexc
  | submitFails action submitRes =>
    dsimp only at h
    split_ifs at h
    obtain ⟨e', hengine, rfl⟩ := Option.map_eq_some_iff.mp h
    obtain ⟨-, rfl⟩ := engine_step_eq_some hengine
    exact absurd (Or.inr trivial) hrun
  | limiterThrows action msg =>
    dsimp only at h
    split at h
    · split_ifs at h
      cases h
      cases hexc
    · cases h

/-- The offsets of the submissions are 64-bit words. -/
theorem Running.offset_lt_of_step (h : s.Running ctx cfg fullName numSlots) {i : SpdkLogInput}
    (hstep : s.step ctx cfg fullName i = some s') :
    ∀ op ∈ submissions s'.log.entries, op.offset < Word64.size := by
  intro op hop
  rcases (h.moves_of_step hstep).mem_submissions hop with hold | ⟨isRead, rfl⟩
  · exact h.offset_lt op hold
  · exact Progress.requestOf_offset_lt cfg (s.engine.core.currentDraw cfg).1
      (aioDecision cfg s.engine.core.progress.numIOPSSubmitted)

/-- A step that does not end the call keeps the engine running. -/
theorem Running.step (h : s.Running ctx cfg fullName numSlots) {i : SpdkLogInput}
    (hstep : s.step ctx cfg fullName i = some s') (hrun : ¬ s'.Ended) :
    s'.Running ctx cfg fullName numSlots := by
  obtain ⟨j, hloop⟩ := exists_loopStep_of_step hstep hrun
  obtain ⟨hfilling, hwaiting⟩ := h.phases hloop
  exact ⟨h.inStep.moves (h.moves_of_step hstep) hrun, hfilling, hwaiting,
    h.offset_lt_of_step hstep⟩

variable (ctx cfg fullName numSlots) in
/-- The engine runs until the call has ended. -/
def WellLogged (s : SpdkLogged G) : Prop := ¬ s.Ended → s.Running ctx cfg fullName numSlots

/-- An engine that has ended makes no step. -/
theorem not_ended_of_step {i : SpdkLogInput} (h : s.step ctx cfg fullName i = some s') :
    ¬ s.Ended := by
  unfold step at h
  split_ifs at h with hrun
  exact hrun

/-- **In every run the engine is well logged.** -/
theorem wellLogged_of_reach {p : Progress G}
    (hreach : Reach (SpdkLogged.step ctx cfg fullName) anyStep (start numSlots p) s) :
    s.WellLogged ctx cfg fullName numSlots := by
  refine hreach.invariant (fun _ => ⟨OpsLog.inStep_start p, fun _ => rfl, fun h => (by cases h),
    fun op hop => absurd hop List.not_mem_nil⟩) fun u i v hu _ hstep hrun => ?_
  exact (hu (not_ended_of_step hstep)).step hstep hrun

end SpdkLogged

/-! ## Both engines -/

/-- **Which ends of an engine call leave a log with exactly one completion for each submission.**
For every run of either engine, with any order of completions and any failure, and for the step that
ends the call:

* `aioBlockSized`: if and only if the loop was done, or the step handled the completion of the only
  I/O in flight;
* `spdkAioBlockSized`: if and only if the loop was done, or the only I/O in flight was completed
  without an error, or the rate limiter threw while nothing was in flight; and all I/Os were of
  whole sectors and of less than 4 GiB. -/
theorem opsLog_paired_iff {G : Type*} [OffsetGenerator G] (cfg : WorkerConfig) (numSlots : ℕ)
    (p : Progress G) :
    (∀ (fd : ℕ → ℤ) (s s' : AioLogged G) (i : AioLogInput),
      Reach (AioLogged.step cfg fd) anyStep (AioLogged.start numSlots p) s →
      s.step cfg fd i = some s' → s'.Ended →
        (CompletionsPaired s'.log.entries ↔ s.EndsPaired i)) ∧
    ∀ (ctx : SpdkContext) (fullName : ℕ → String) (s s' : SpdkLogged G) (i : SpdkLogInput),
      Reach (SpdkLogged.step ctx cfg fullName) anyStep (SpdkLogged.start numSlots p) s →
      s.step ctx cfg fullName i = some s' → s'.Ended →
        (CompletionsPaired s'.log.entries ↔
          s.EndsPaired i ∧ ∀ op ∈ submissions s'.log.entries, WholeSectors ctx.sectorSize op) := by
  constructor
  · intro fd s s' i hreach hstep hended
    have hrun := AioLogged.wellLogged_of_reach hreach (AioLogged.not_ended_of_step hstep)
    have hiff := hrun.inStep.paired_iff OpsLog.reduces_id (hrun.moves_of_step hstep) hended
    exact hiff.trans (and_iff_left fun _ _ => rfl)
  · intro ctx fullName s s' i hreach hstep hended
    have hrun := SpdkLogged.wellLogged_of_reach hreach (SpdkLogged.not_ended_of_step hstep)
    have hiff := hrun.inStep.paired_iff (reduces_sectorOp ctx.sectorSize)
      (hrun.moves_of_step hstep) hended
    have hlt := hrun.offset_lt_of_step hstep
    exact hiff.trans (and_congr_right fun _ => forall₂_congr fun op hop =>
      sectorOp_eq_iff (hlt op hop))

/-! ### Runs of three blocks -/

/-- The descriptor of the only file. -/
def logFd : ℕ → ℤ := fun _ => 5

/-- An interruption after the first of three blocks, with one slot. -/
theorem opsLog_paired_iff_interrupted :
    ∃ s s' : AioLogged OffsetGenSequential,
      Reach (AioLogged.step threeBlockWriter logFd) anyStep (.start 1 threeBlockProgress) s ∧
      s.step threeBlockWriter logFd (.interrupted .complete) = some s' ∧ s'.Ended ∧
      s'.log.entries.length = 2 ∧ CompletionsPaired s'.log.entries := by
  obtain ⟨s, hrun, s', hstep, hended, hlength, hpending⟩ : ∃ s, runTrace
      (AioLogged.step threeBlockWriter logFd) (.start 1 threeBlockProgress)
      [.loop (.fill .write), .loop (.fill .write), .loop (.events [⟨0, 4096, 0, none⟩])] = some s ∧
      ∃ s', s.step threeBlockWriter logFd (.interrupted .complete) = some s' ∧ s'.Ended ∧
        s'.log.entries.length = 2 ∧ s.engine.numPending = 1 :=
    ⟨_, rfl, _, rfl, by decide, rfl, rfl⟩
  have hreach : Reach (AioLogged.step threeBlockWriter logFd) anyStep
      (.start 1 threeBlockProgress) s := reach_of_runTrace _ _ (fun _ _ => trivial) hrun
  refine ⟨s, s', hreach, hstep, hended, hlength, ?_⟩
  exact ((opsLog_paired_iff threeBlockWriter 1 threeBlockProgress).1 logFd s s' _ hreach hstep
    hended).mpr hpending

/-- A short completion while another I/O is in flight, and a failed completion with SPDK: both calls
return, and a submission has no completion. -/
theorem submission_without_completion :
    (∃ s : AioLogged OffsetGenSequential,
      Reach (AioLogged.step threeBlockWriter logFd) anyStep (.start 2 threeBlockProgress) s ∧
      s.engine.phase = .returned 512 ∧ ¬ CompletionsPaired s.log.entries) ∧
    ∃ s : SpdkLogged OffsetGenSequential,
      Reach (SpdkLogged.step ⟨512, id⟩ threeBlockWriter fun _ => "ns0") anyStep
        (.start 1 threeBlockProgress) s ∧
      s.engine.phase = .returned (-1) ∧
      s.log.entries = [oplogPreOp ⟨"spdkWrite", "ns0", 0, 4096⟩] ∧
      ¬ CompletionsPaired s.log.entries := by
  obtain ⟨s, hshort, hreturned, hnot⟩ : ∃ s, runTrace
      (AioLogged.step threeBlockWriter logFd) (.start 2 threeBlockProgress)
      [.loop (.fill .write), .loop (.fill .write), .loop (.fill .write),
        .loop (.events [⟨0, 512, 0, none⟩]), .loop .complete] = some s ∧
      s.engine.phase = .returned 512 ∧ ¬ CompletionsPaired s.log.entries :=
    ⟨_, rfl, rfl, by decide⟩
  obtain ⟨t, hfailed, ht, hentries⟩ : ∃ t, runTrace
      (SpdkLogged.step ⟨512, id⟩ threeBlockWriter fun _ => "ns0") (.start 1 threeBlockProgress)
      [.loop (.fill .write), .loop (.fill .write), .loop (.completions [⟨0, false, none⟩]),
        .loop .complete] = some t ∧
      t.engine.phase = .returned (-1) ∧
      t.log.entries = [oplogPreOp ⟨"spdkWrite", "ns0", 0, 4096⟩] :=
    ⟨_, rfl, rfl, rfl⟩
  refine ⟨⟨s, reach_of_runTrace _ _ (fun _ _ => trivial) hshort, hreturned, hnot⟩,
    t, reach_of_runTrace _ _ (fun _ _ => trivial) hfailed, ht, hentries, ?_⟩
  rw [hentries]
  decide

end Elbencho
