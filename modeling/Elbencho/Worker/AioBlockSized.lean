import Mathlib.Data.List.Perm.Lattice
import Elbencho.Worker.RwBlockSized

/-!
# The asynchronous I/O loop

`aioBlockSized` keeps up to `ioDepth` I/Os in flight.  A stack holds the slots that
are free; `fillIdleSlots` takes slots from it and submits an I/O into each of them, the
completion loop takes a batch of finished I/Os from the kernel, handles one after the
other, and fills the slots again.  With a journal, a draw can be skipped, which leaves
its slot free, or deferred, because its locks are held for another I/O of the same
thread; a deferred draw is kept and retried after the next completions.

`AioEngine` is the state of the loop and `AioEngine.step` one round of it: a round of
`fillIdleSlots`, a return of `io_getevents`, or the handling of one completion.  What
the journal, the kernel and the drive do is an input of the step, so a run is over
every order and batching of completions and every pattern of deferrals.

**Main statement** (`aioBlockSized_refines_rwBlockSized`).  In every state of a run in
which all I/Os succeed, the I/Os issued so far are those that `rwBlockSized` processes
first, in the same order; the slots are partitioned into the free ones and those in
flight; and the function returns only after the last of them.  The proof is a
simulation: `AioEngine.Inv` relates the engine to a state of the synchronous loop, and
a deferred draw is the draw that the synchronous loop makes next.
-/

namespace Elbencho

open Transition

/-! ## Decisions -/

/-- `journalGetIntent`: the intent of the next journaled I/O. -/
def journalGetIntent (cfg : WorkerConfig) (numIOPSSubmitted : ℕ) : Intent :=
  if cfg.benchPhase = .readFiles then
    if cfg.currentBenchPhase = .readFiles then .readSkipUninit else .readOrInit
  else if isRWMixTurn cfg numIOPSSubmitted then .readOrInit
  else .write

/-- The read or write that `funcAioRwPrepper` prepares without a journal:
`aioReadPrepper`, `aioWritePrepper` or `aioRWMixPrepper`. -/
def prepperIsRead (cfg : WorkerConfig) (numIOPSSubmitted : ℕ) : Bool :=
  if cfg.benchPhase = .createFiles then
    if cfg.rwMixReadPercent = 0 then false
    else !decide (Word64.add cfg.workerRank numIOPSSubmitted % 100 ≥ cfg.rwMixReadPercent)
  else true

/-- The decision of the asynchronous loop before the journal is asked. -/
def aioDecision (cfg : WorkerConfig) (numIOPSSubmitted : ℕ) : Decision :=
  if cfg.journalEnabled then .journaled (journalGetIntent cfg numIOPSSubmitted)
  else .plain (prepperIsRead cfg numIOPSSubmitted)

theorem journalGetIntent_eq (cfg : WorkerConfig) (n : ℕ) :
    journalGetIntent cfg n = (rwDecide cfg n).2 := by
  unfold journalGetIntent rwDecide
  cases cfg.benchPhase with
  | readFiles => cases cfg.currentBenchPhase <;> rfl
  | createFiles => cases isRWMixTurn cfg n <;> rfl

theorem prepperIsRead_eq (cfg : WorkerConfig) (n : ℕ) :
    prepperIsRead cfg n = (rwDecide cfg n).1 := by
  unfold prepperIsRead rwDecide isRWMixTurn
  cases cfg.benchPhase with
  | readFiles => rfl
  | createFiles =>
    rw [if_pos rfl, if_neg (show ¬ BenchPhase.createFiles = .readFiles by decide)]
    by_cases hpct : cfg.rwMixReadPercent = 0
    · simp [hpct]
    · by_cases hturn : Word64.add cfg.workerRank n % 100 < cfg.rwMixReadPercent
      · simp [hpct, hturn]
      · simp [hpct, hturn, not_lt.mp hturn]

/-- **Both loops decide alike.** -/
theorem aioDecision_eq (cfg : WorkerConfig) (n : ℕ) : aioDecision cfg n = rwDecision cfg n := by
  unfold aioDecision rwDecision
  rw [journalGetIntent_eq, prepperIsRead_eq]

/-! ## The engine -/

/-- A completed I/O as `io_getevents` reports it, and what the verification of its data
says. -/
structure IoEvent where
  slot : ℕ
  res : ℤ
  res2 : ℤ
  verifyError : Option String

/-- The exceptions of the loop, with the numbers of their messages. -/
inductive AioError where
  | submissionFailed (numRequests : ℕ) (returnCode : ℤ)
  | gettingEventsFailed (numPending : ℕ) (returnCode : ℤ)
  | frameworkError (numPending : ℕ) (res res2 : ℤ) (ioSize : ℕ)
  | verificationFailed (msg : String)

/-- Where the loop is: at the head of the loop of `fillIdleSlots`, in `io_getevents`, in
the loop over the events of a batch, or at its end. -/
inductive AioPhase where
  | filling
  | waiting
  | completing (events : List IoEvent)
  | returned (value : ℤ)
  | threw (err : AioError)

/-- The state of `aioBlockSized`.  The stack of free slots has its top first.
`inFlight` are the slots whose I/O was submitted and not handled yet, with the I/O;
`issued` are the I/Os that were submitted or skipped so far, in order. -/
structure AioEngine (G : Type*) where
  progress : Progress G
  freeSlots : List ℕ
  numPending : ℕ
  numBytesDone : ℤ
  journalPendingDraw : Option (ℕ × ℕ)
  journalNumGuardsHeld : ℕ
  phase : AioPhase
  inFlight : List (ℕ × Request)
  issued : List Request

/-- The largest batch of events. -/
def AIO_MAX_EVENTS : ℕ := 4

/-- The inputs of the loop: the journal's answer to the next draw, whether its
submission fails, what `io_getevents` returns, and the handling of an event. -/
inductive AioInput where
  | fill (action : Action)
  | fillFails (action : Action) (returnCode : ℤ)
  | timeout
  | events (evs : List IoEvent)
  | eventsFail (returnCode : ℤ)
  | complete

namespace AioEngine

open OffsetGenerator

variable {G : Type*} [OffsetGenerator G] (cfg : WorkerConfig)

/-! ### The I/Os in flight -/

/-- Taking the I/O of a slot out of those in flight. -/
theorem lookup_split {slot : ℕ} {r : Request} {l : List (ℕ × Request)}
    (h : l.lookup slot = some r) :
    ∃ l₁ l₂, l = l₁ ++ (slot, r) :: l₂ ∧ (l.eraseP fun x => x.1 == slot) = l₁ ++ l₂ ∧
      ∀ x, x ≠ slot → (l₁ ++ l₂).lookup x = l.lookup x := by
  induction l with
  | nil => exact absurd h (by simp)
  | cons y l ih =>
    obtain ⟨a, q⟩ := y
    by_cases ha : slot = a
    · subst ha
      obtain rfl : q = r := by simpa using h
      refine ⟨[], l, rfl, by simp, fun x hx => ?_⟩
      rw [List.nil_append, List.lookup_cons, beq_eq_false_iff_ne.mpr hx]
    · rw [List.lookup_cons, beq_eq_false_iff_ne.mpr ha] at h
      obtain ⟨l₁, l₂, rfl, herase, hlookup⟩ := ih h
      refine ⟨(a, q) :: l₁, l₂, rfl, ?_, fun x hx => ?_⟩
      · rw [List.eraseP_cons_of_neg (by simpa using Ne.symm ha), herase]
        rfl
      · rw [List.cons_append, List.lookup_cons, List.lookup_cons, hlookup x hx]

/-! ### Steps -/

/-- The start of the loop, after `resetAsyncIOSlots`: slot 0 is on top of the stack. -/
def start (numSlots : ℕ) (p : Progress G) : AioEngine G where
  progress := p
  freeSlots := List.range numSlots
  numPending := 0
  numBytesDone := 0
  journalPendingDraw := none
  journalNumGuardsHeld := 0
  phase := .filling
  inFlight := []
  issued := []

/-- The draw that `trySubmitSlot` works on, and the generator after it.  With a journal,
a draw that was deferred is used again. -/
def currentDraw (e : AioEngine G) : (ℕ × ℕ) × G :=
  match cfg.journalEnabled, e.journalPendingDraw with
  | true, some drawn => (drawn, e.progress.gen)
  | _, _ => e.progress.draw

/-- The I/O that `trySubmitSlot` works on. -/
def currentRequest (e : AioEngine G) : Request :=
  Progress.requestOf (cfg) (e.currentDraw cfg).1 (aioDecision cfg e.progress.numIOPSSubmitted)

/-- A deferred draw is kept. -/
def keepDraw (e : AioEngine G) : AioEngine G :=
  { e with
    progress := { e.progress with gen := (e.currentDraw cfg).2 }
    journalPendingDraw := some (e.currentDraw cfg).1 }

/-- A draw is used up: the generator and the counter learn about it. -/
def account (e : AioEngine G) : AioEngine G :=
  { e with
    progress := e.progress.submitted (e.currentDraw cfg).2 (e.currentDraw cfg).1.2
    journalPendingDraw := none
    issued := e.issued ++ [e.currentRequest cfg] }

/-- An I/O is submitted into the slot on top of the stack. -/
def submitInto (e : AioEngine G) (slot : ℕ) (rest : List ℕ) : AioEngine G :=
  { e.account cfg with
    freeSlots := rest
    numPending := e.numPending + 1
    journalNumGuardsHeld := e.journalNumGuardsHeld + cfg.journalEnabled.toNat
    inFlight := (slot, e.currentRequest cfg) :: e.inFlight }

/-- `fillIdleSlots` is done: wait for completions as long as there are any to come. -/
def afterFill (e : AioEngine G) : AioEngine G :=
  { e with
    phase := if e.numPending = 0 then .returned (getNumBytesTotal e.progress.gen) else .waiting }

/-- One round of the loop of `fillIdleSlots`.  The journal defers an I/O only if this
thread holds guards, since it may wait for its locks otherwise. -/
def fillRound (e : AioEngine G) (action : Action) : Option (AioEngine G) :=
  match e.freeSlots with
  | [] => some e.afterFill
  | slot :: rest =>
    if e.progress.bytesLeft then
      if cfg.journalEnabled then
        match action with
        | .defer => if e.journalNumGuardsHeld = 0 then none else some (e.keepDraw cfg).afterFill
        | .skip => some (e.account cfg)
        | .read => some (e.submitInto cfg slot rest)
        | .write => some (e.submitInto cfg slot rest)
      else some (e.submitInto cfg slot rest)
    else some e.afterFill

/-- The I/O in a slot was successful: the slot is free again, and the journal commits and
releases. -/
def release (e : AioEngine G) (ev : IoEvent) (evs : List IoEvent) : AioEngine G :=
  { e with
    freeSlots := ev.slot :: e.freeSlots
    numPending := e.numPending - 1
    numBytesDone := e.numBytesDone + ev.res
    journalNumGuardsHeld := e.journalNumGuardsHeld - cfg.journalEnabled.toNat
    inFlight := e.inFlight.eraseP fun x => x.1 == ev.slot
    phase := .completing evs }

/-- Handle one event of a batch, for the I/O in its slot. -/
def handleEvent (e : AioEngine G) (r : Request) (ev : IoEvent) (evs : List IoEvent) :
    AioEngine G :=
  if ev.res2 ≠ 0 then
    { e with phase := .threw (.frameworkError e.numPending ev.res ev.res2 r.size) }
  else if ev.res ≠ r.size then
    -- a negative result is an error; a short one ends the loop with what was done so far
    { e with phase := .returned (if ev.res < 0 then -1 else e.numBytesDone + ev.res) }
  else match ev.verifyError with
    | some msg => { e with phase := .threw (.verificationFailed msg) }
    | none => e.release cfg ev evs

/-- A batch that `io_getevents` can return: some of the I/Os in flight, none twice. -/
def IsBatch (e : AioEngine G) (evs : List IoEvent) : Prop :=
  evs ≠ [] ∧ evs.length ≤ AIO_MAX_EVENTS ∧ (evs.map IoEvent.slot).Nodup ∧
    ∀ ev ∈ evs, ev.slot ∈ e.inFlight.map Prod.fst

instance (e : AioEngine G) (evs : List IoEvent) : Decidable (e.IsBatch evs) :=
  inferInstanceAs (Decidable (_ ∧ _ ∧ _ ∧ _))

/-- One step of `aioBlockSized`. -/
def step (e : AioEngine G) (i : AioInput) : Option (AioEngine G) :=
  match e.phase, i with
  | .filling, .fill action => e.fillRound cfg action
  | .filling, .fillFails _ returnCode =>
    some { e with phase := .threw (.submissionFailed e.numPending returnCode) }
  | .waiting, .timeout => some e
  | .waiting, .events evs => if e.IsBatch evs then some { e with phase := .completing evs } else none
  | .waiting, .eventsFail returnCode =>
    some { e with phase := .threw (.gettingEventsFailed e.numPending returnCode) }
  | .completing [], .complete => some { e with phase := .filling }
  | .completing (ev :: evs), .complete =>
    (e.inFlight.lookup ev.slot).map fun r => e.handleEvent cfg r ev evs
  | _, _ => none

/-- The input belongs to a run in which all I/Os succeed. -/
def Succeeds (e : AioEngine G) : AioInput → Prop
  | .fill _ => True
  | .fillFails _ _ => False
  | .timeout => True
  | .events evs => ∀ ev ∈ evs, ev.res2 = 0 ∧ ev.verifyError = none ∧
      (e.inFlight.lookup ev.slot).map (fun r => (r.size : ℤ)) = some ev.res
  | .eventsFail _ => False
  | .complete => True

instance (e : AioEngine G) : ∀ i, Decidable (e.Succeeds i)
  | .fill _ => inferInstanceAs (Decidable True)
  | .fillFails _ _ => inferInstanceAs (Decidable False)
  | .timeout => inferInstanceAs (Decidable True)
  | .events evs => inferInstanceAs (Decidable (∀ ev ∈ evs, ev.res2 = 0 ∧ ev.verifyError = none ∧
      (e.inFlight.lookup ev.slot).map (fun r => (r.size : ℤ)) = some ev.res))
  | .eventsFail _ => inferInstanceAs (Decidable False)
  | .complete => inferInstanceAs (Decidable True)

/-- What a round of `fillIdleSlots` can do. -/
theorem fillRound_eq_some {cfg : WorkerConfig} {e e' : AioEngine G} {action : Action}
    (hstep : e.fillRound cfg action = some e') :
    (e' = e.afterFill ∧ (e.freeSlots = [] ∨ e.progress.bytesLeft = false)) ∨
    ∃ slot rest, e.freeSlots = slot :: rest ∧ e.progress.bytesLeft = true ∧
      (((cfg.journalEnabled = true → action = .read ∨ action = .write) ∧
          e' = e.submitInto cfg slot rest) ∨
        (cfg.journalEnabled = true ∧ action = .skip ∧ e' = e.account cfg) ∨
        (cfg.journalEnabled = true ∧ action = .defer ∧ e.journalNumGuardsHeld ≠ 0 ∧
          e' = (e.keepDraw cfg).afterFill)) := by
  unfold fillRound at hstep
  cases hfree : e.freeSlots with
  | nil =>
    rw [hfree] at hstep
    exact Or.inl ⟨(Option.some.inj hstep).symm, Or.inl rfl⟩
  | cons slot rest =>
    simp only [hfree] at hstep
    by_cases hleft : e.progress.bytesLeft = true
    · rw [if_pos hleft] at hstep
      refine Or.inr ⟨slot, rest, rfl, hleft, ?_⟩
      by_cases hj : cfg.journalEnabled = true
      · rw [if_pos hj] at hstep
        cases action with
        | read => exact Or.inl ⟨fun _ => Or.inl rfl, (Option.some.inj hstep).symm⟩
        | write => exact Or.inl ⟨fun _ => Or.inr rfl, (Option.some.inj hstep).symm⟩
        | skip => exact Or.inr (Or.inl ⟨hj, rfl, (Option.some.inj hstep).symm⟩)
        | defer =>
          dsimp only at hstep
          split_ifs at hstep with hguards
          exact Or.inr (Or.inr ⟨hj, rfl, hguards, (Option.some.inj hstep).symm⟩)
      · rw [if_neg hj] at hstep
        exact Or.inl ⟨fun hj' => absurd hj' hj, (Option.some.inj hstep).symm⟩
    · rw [if_neg hleft] at hstep
      exact Or.inl ⟨(Option.some.inj hstep).symm, Or.inr (Bool.not_eq_true _ ▸ hleft)⟩

/-! ## Slots -/

variable {cfg}

variable (cfg) in
/-- The slots are partitioned into the free ones and those in flight, and the counters
count the latter. -/
structure SlotsOk (numSlots : ℕ) (e : AioEngine G) : Prop where
  slots : (e.freeSlots ++ e.inFlight.map Prod.fst).Perm (List.range numSlots)
  pending : e.numPending = e.inFlight.length
  guards : e.journalNumGuardsHeld = cfg.journalEnabled.toNat * e.numPending

section Slots

variable {numSlots : ℕ} {e : AioEngine G}

omit [OffsetGenerator G] in
theorem slotsOk_start (p : Progress G) : SlotsOk cfg numSlots (start numSlots p) where
  slots := by
    rw [start, List.map_nil, List.append_nil]
  pending := rfl
  guards := (Nat.mul_zero _).symm

omit [OffsetGenerator G] in
/-- While no I/O is in flight, there is a free slot. -/
theorem SlotsOk.freeSlots_ne_nil (h : SlotsOk cfg numSlots e) (hslots : 0 < numSlots)
    (hzero : e.numPending = 0) : e.freeSlots ≠ [] := by
  intro hnil
  have hlen := h.slots.length_eq
  rw [hnil, List.nil_append, List.length_map, ← h.pending, hzero, List.length_range] at hlen
  omega

omit [OffsetGenerator G] in
/-- A free slot has no I/O in flight. -/
theorem SlotsOk.disjoint (h : SlotsOk cfg numSlots e) {slot : ℕ} (hfree : slot ∈ e.freeSlots) :
    slot ∉ e.inFlight.map Prod.fst := by
  have hnodup : (e.freeSlots ++ e.inFlight.map Prod.fst).Nodup :=
    h.slots.nodup_iff.mpr List.nodup_range
  exact fun hmem => (List.nodup_append.mp hnodup).2.2 slot hfree slot hmem rfl

omit [OffsetGenerator G] in
/-- `numPending` counts the slots that are not on the stack. -/
theorem SlotsOk.numPending_eq (h : SlotsOk cfg numSlots e) :
    e.numPending = ((List.range numSlots).filter (· ∉ e.freeSlots)).length := by
  have hperm := h.slots.filter (· ∉ e.freeSlots)
  have hlen : (e.inFlight.map Prod.fst).length = e.inFlight.length := List.length_map _
  rw [h.pending, ← hlen]
  rw [← hperm.length_eq, List.filter_append, List.filter_eq_nil_iff.mpr (by simp),
    List.nil_append, List.filter_eq_self.mpr]
  intro slot hslot
  have hnot : slot ∉ e.freeSlots := fun hfree => h.disjoint hfree hslot
  simpa using hnot

/-- An I/O is submitted into the slot on top of the stack. -/
theorem SlotsOk.submitInto (h : SlotsOk cfg numSlots e) {slot : ℕ} {rest : List ℕ}
    (hfree : e.freeSlots = slot :: rest) : SlotsOk cfg numSlots (e.submitInto cfg slot rest) where
  slots := by
    have hslots := h.slots
    rw [hfree] at hslots
    exact List.perm_middle.trans hslots
  pending := congrArg (· + 1) h.pending
  guards := by
    show e.journalNumGuardsHeld + cfg.journalEnabled.toNat =
      cfg.journalEnabled.toNat * (e.numPending + 1)
    rw [h.guards, Nat.mul_add_one]

omit [OffsetGenerator G] in
/-- A completed I/O is released. -/
theorem SlotsOk.release (h : SlotsOk cfg numSlots e) {ev : IoEvent} {r : Request}
    (hr : e.inFlight.lookup ev.slot = some r) (evs : List IoEvent) :
    SlotsOk cfg numSlots (e.release cfg ev evs) := by
  obtain ⟨l₁, l₂, hl, herase, -⟩ := lookup_split hr
  have hlen : e.numPending = (l₁ ++ l₂).length + 1 := by
    rw [h.pending, hl]
    simp only [List.length_append, List.length_cons]
    omega
  refine ⟨?_, ?_, ?_⟩
  · show (ev.slot :: e.freeSlots ++
      (e.inFlight.eraseP fun x => x.1 == ev.slot).map Prod.fst).Perm (List.range numSlots)
    refine List.Perm.trans ?_ h.slots
    rw [herase, hl, List.map_append, List.map_append, List.map_cons, List.cons_append,
      ← List.append_assoc, ← List.append_assoc]
    exact List.perm_middle.symm
  · show e.numPending - 1 = (e.inFlight.eraseP fun x => x.1 == ev.slot).length
    rw [herase, hlen, Nat.add_sub_cancel]
  · show e.journalNumGuardsHeld - cfg.journalEnabled.toNat =
      cfg.journalEnabled.toNat * (e.numPending - 1)
    rw [h.guards, Nat.mul_sub_one]

omit [OffsetGenerator G] in
/-- The released slot is no longer in flight, all others stay. -/
theorem SlotsOk.mem_release (h : SlotsOk cfg numSlots e) {ev : IoEvent} {r : Request}
    (hr : e.inFlight.lookup ev.slot = some r) (evs : List IoEvent) {slot : ℕ} :
    slot ∈ (e.release cfg ev evs).inFlight.map Prod.fst ↔
      slot ∈ e.inFlight.map Prod.fst ∧ slot ≠ ev.slot := by
  obtain ⟨l₁, l₂, hl, herase, -⟩ := lookup_split hr
  have hnodup : (e.inFlight.map Prod.fst).Nodup :=
    ((h.slots.nodup_iff.mpr List.nodup_range).of_append_right)
  rw [hl, List.map_append, List.map_cons, List.nodup_middle, List.nodup_cons] at hnodup
  rw [show (e.release cfg ev evs).inFlight = l₁ ++ l₂ from herase, hl, List.map_append,
    List.map_append, List.map_cons, List.mem_append, List.mem_append, List.mem_cons]
  have hnot := hnodup.1
  rw [List.mem_append] at hnot
  constructor
  · intro hmem
    refine ⟨hmem.imp id Or.inr, ?_⟩
    rintro rfl
    exact hnot hmem
  · rintro ⟨hmem | rfl | hmem, hne⟩
    · exact Or.inl hmem
    · exact absurd rfl hne
    · exact Or.inr hmem

/-- After a round of filling the loop waits only if there is something in flight. -/
theorem numPending_ne_zero_of_afterFill
    (h : e.afterFill.phase = .waiting) : e.afterFill.numPending ≠ 0 := by
  intro hzero
  have hzero' : e.numPending = 0 := hzero
  unfold afterFill at h
  rw [hzero'] at h
  exact absurd h (by simp)

/-- Keeping a draw does not change whether there are bytes left. -/
theorem bytesLeft_keepDraw [LawfulOffsetGenerator G] (e : AioEngine G) :
    (e.keepDraw cfg).progress.bytesLeft = e.progress.bytesLeft := by
  have hgen : OffsetGenerator.getNumBytesLeftToSubmit (e.currentDraw cfg).2 =
      OffsetGenerator.getNumBytesLeftToSubmit e.progress.gen := by
    unfold currentDraw
    split
    · rfl
    · exact LawfulOffsetGenerator.bytesLeft_draw _
  show decide (OffsetGenerator.getNumBytesLeftToSubmit (e.currentDraw cfg).2 ≠ 0) = _
  rw [hgen]
  rfl

end Slots

/-! ## The simulation -/

variable {journal : ℕ → Journal} {p : Progress G} {e : AioEngine G}

variable (cfg) in
/-- The engine has got as far as the synchronous loop.  A deferred draw is the one that
the synchronous loop makes next. -/
def Tracks (p : Progress G) (e : AioEngine G) : Prop :=
  match e.journalPendingDraw with
  | none => e.progress = p
  | some drawn => cfg.journalEnabled = true ∧ p.draw = (drawn, e.progress.gen) ∧
      e.progress.numIOPSSubmitted = p.numIOPSSubmitted ∧ p.bytesLeft = true

theorem Tracks.currentDraw (ht : Tracks cfg p e) : e.currentDraw cfg = p.draw := by
  unfold Tracks at ht
  unfold AioEngine.currentDraw
  cases hdraw : e.journalPendingDraw with
  | none =>
    rw [hdraw] at ht
    cases cfg.journalEnabled <;> simp [ht]
  | some drawn =>
    rw [hdraw] at ht
    obtain ⟨hj, hp, -, -⟩ := ht
    rw [hj, hp]

theorem Tracks.numIOPSSubmitted (ht : Tracks cfg p e) :
    e.progress.numIOPSSubmitted = p.numIOPSSubmitted := by
  unfold Tracks at ht
  cases hdraw : e.journalPendingDraw with
  | none =>
    rw [hdraw] at ht
    rw [ht]
  | some drawn =>
    rw [hdraw] at ht
    exact ht.2.2.1

/-- The engine works on the next I/O of the synchronous loop. -/
theorem Tracks.currentRequest (ht : Tracks cfg p e) :
    e.currentRequest cfg = p.nextRequest cfg := by
  rw [AioEngine.currentRequest, ht.currentDraw, aioDecision_eq, ht.numIOPSSubmitted]
  rfl

/-- A draw that is used up is an iteration of the synchronous loop. -/
theorem Tracks.account_progress (ht : Tracks cfg p e) : (e.account cfg).progress = p.next := by
  show e.progress.submitted (e.currentDraw cfg).2 (e.currentDraw cfg).1.2 = p.next
  rw [ht.currentDraw, Progress.submitted, ht.numIOPSSubmitted]
  rfl

/-- A deferred draw keeps the engine where it is. -/
theorem Tracks.keepDraw (ht : Tracks cfg p e) (hj : cfg.journalEnabled = true)
    (hleft : p.bytesLeft = true) : Tracks cfg p (e.keepDraw cfg) := by
  refine ⟨hj, ?_, ht.numIOPSSubmitted, hleft⟩
  show p.draw = ((e.currentDraw cfg).1, (e.currentDraw cfg).2)
  rw [ht.currentDraw]

variable [LawfulOffsetGenerator G]

/-- The draw that is kept does not hide that there are bytes left. -/
theorem Tracks.bytesLeft (ht : Tracks cfg p e) : e.progress.bytesLeft = p.bytesLeft := by
  unfold Tracks at ht
  cases hdraw : e.journalPendingDraw with
  | none =>
    rw [hdraw] at ht
    rw [ht]
  | some drawn =>
    rw [hdraw] at ht
    obtain ⟨-, hp, -, -⟩ := ht
    have hgen : e.progress.gen = (OffsetGenerator.draw p.gen).2 := (congrArg Prod.snd hp).symm
    rw [Progress.bytesLeft, Progress.bytesLeft, hgen, LawfulOffsetGenerator.bytesLeft_draw]

/-- What holds in each phase of a run in which all I/Os succeed. -/
def PhaseOk (e : AioEngine G) : AioPhase → Prop
  | .filling => True
  | .waiting => e.numPending ≠ 0
  | .completing evs => (evs.map IoEvent.slot).Nodup ∧ ∀ ev ∈ evs, ev.res2 = 0 ∧
      ev.verifyError = none ∧ ∃ r, e.inFlight.lookup ev.slot = some r ∧ ev.res = r.size
  | .returned v => e.numPending = 0 ∧ e.progress.bytesLeft = false ∧
      e.journalPendingDraw = none ∧ v = getNumBytesTotal e.progress.gen
  | .threw _ => False

variable (cfg journal) in
/-- **The simulation relation.**  The slots are in order, and the engine tracks a run of
the synchronous loop that has processed what the engine has issued. -/
structure Inv (numSlots : ℕ) (σ₀ : RwState G) (e : AioEngine G) : Prop where
  slotsOk : SlotsOk cfg numSlots e
  tracks : ∃ σ, Reach (RwState.fullStep cfg journal) anyStep σ₀ σ ∧ σ.processed = e.issued ∧
    LawfulOffsetGenerator.Valid σ.progress.gen ∧ Tracks cfg σ.progress e
  phaseOk : e.PhaseOk e.phase

variable {numSlots : ℕ} {σ₀ : RwState G} {e' : AioEngine G}

/-- The start of both loops. -/
theorem inv_start (cells : ℕ → CellMap) (hvalid : LawfulOffsetGenerator.Valid p.gen) :
    Inv cfg journal numSlots ⟨p, cells, []⟩ (start numSlots p) where
  slotsOk := slotsOk_start p
  tracks := ⟨_, Reach.refl _, rfl, hvalid, rfl⟩
  phaseOk := trivial

/-- The end of a round of filling. -/
theorem Inv.afterFill (h : Inv cfg journal numSlots σ₀ e)
    (hdone : e.numPending = 0 → e.progress.bytesLeft = false ∧ e.journalPendingDraw = none) :
    Inv cfg journal numSlots σ₀ e.afterFill where
  slotsOk := ⟨h.slotsOk.slots, h.slotsOk.pending, h.slotsOk.guards⟩
  tracks := h.tracks
  phaseOk := by
    unfold AioEngine.afterFill
    dsimp only
    split_ifs with hzero
    · exact ⟨hzero, (hdone hzero).1, (hdone hzero).2, rfl⟩
    · exact hzero

/-- A draw that is used up is an iteration of the synchronous loop. -/
theorem Inv.account_tracks (h : Inv cfg journal numSlots σ₀ e)
    (hleft : e.progress.bytesLeft = true) :
    ∃ σ, Reach (RwState.fullStep cfg journal) anyStep σ₀ σ ∧
      σ.processed = (e.account cfg).issued ∧ LawfulOffsetGenerator.Valid σ.progress.gen ∧
      Tracks cfg σ.progress (e.account cfg) := by
  obtain ⟨σ, hreach, hprocessed, hvalid, ht⟩ := h.tracks
  have hleft' : σ.progress.bytesLeft = true := ht.bytesLeft ▸ hleft
  have hne : getNumBytesLeftToSubmit σ.progress.gen ≠ 0 := of_decide_eq_true hleft'
  obtain ⟨cells, hstep⟩ := RwState.fullStep_eq_some journal hleft'
    (LawfulOffsetGenerator.size_pos _ hvalid hne)
  refine ⟨_, hreach.tail (a := ()) trivial hstep, ?_, ?_, ?_⟩
  · show σ.processed ++ [σ.nextRequest cfg] = e.issued ++ [e.currentRequest cfg]
    rw [hprocessed, ht.currentRequest]
    rfl
  · exact LawfulOffsetGenerator.valid_submitDraw _ hvalid hne
  · exact ht.account_progress

/-- An I/O is submitted. -/
theorem Inv.submitInto (h : Inv cfg journal numSlots σ₀ e) (hfilling : e.phase = .filling)
    {slot : ℕ} {rest : List ℕ} (hfree : e.freeSlots = slot :: rest)
    (hleft : e.progress.bytesLeft = true) :
    Inv cfg journal numSlots σ₀ (e.submitInto cfg slot rest) where
  slotsOk := h.slotsOk.submitInto hfree
  tracks := h.account_tracks hleft
  phaseOk := by
    show PhaseOk _ e.phase
    rw [hfilling]
    trivial

/-- **A round of `fillIdleSlots` keeps the relation.** -/
theorem Inv.fillRound (h : Inv cfg journal numSlots σ₀ e) (hslots : 0 < numSlots)
    (hfilling : e.phase = .filling) {action : Action}
    (hstep : e.fillRound cfg action = some e') : Inv cfg journal numSlots σ₀ e' := by
  have hphase : ∀ e₁ : AioEngine G, PhaseOk e₁ e.phase := by
    rw [hfilling]
    exact fun _ => trivial
  obtain ⟨σ, hreach, hprocessed, hvalid, ht⟩ := h.tracks
  rcases fillRound_eq_some hstep with ⟨rfl, hstop⟩ | ⟨slot, rest, hfree, hleft, hround⟩
  · refine h.afterFill fun hzero => ?_
    have hdone := hstop.resolve_left (h.slotsOk.freeSlots_ne_nil hslots hzero)
    refine ⟨hdone, ?_⟩
    cases hdraw : e.journalPendingDraw with
    | none => rfl
    | some drawn =>
      have hleft := ht.bytesLeft
      unfold Tracks at ht
      rw [hdraw] at ht
      rw [hdone, ht.2.2.2] at hleft
      exact absurd hleft (by decide)
  · rcases hround with ⟨-, rfl⟩ | ⟨-, -, rfl⟩ | ⟨hj, -, hguards, rfl⟩
    · exact h.submitInto hfilling hfree hleft
    · exact ⟨⟨h.slotsOk.slots, h.slotsOk.pending, h.slotsOk.guards⟩, h.account_tracks hleft,
        hphase _⟩
    · have hkeep : Inv cfg journal numSlots σ₀ (e.keepDraw cfg) :=
        ⟨⟨h.slotsOk.slots, h.slotsOk.pending, h.slotsOk.guards⟩,
          ⟨σ, hreach, hprocessed, hvalid, ht.keepDraw hj (ht.bytesLeft ▸ hleft)⟩, hphase _⟩
      -- the thread holds guards, so it has I/Os in flight to wait for
      refine hkeep.afterFill fun hzero => absurd ?_ hguards
      rw [h.slotsOk.guards, show e.numPending = 0 from hzero, Nat.mul_zero]

/-- A completed I/O is released. -/
theorem Inv.release (h : Inv cfg journal numSlots σ₀ e) {ev : IoEvent} {evs : List IoEvent}
    (hphase : e.phase = .completing (ev :: evs)) :
    Inv cfg journal numSlots σ₀ (e.release cfg ev evs) := by
  have hok := h.phaseOk
  rw [hphase] at hok
  obtain ⟨hnodup, hevs⟩ := hok
  obtain ⟨-, -, r, hr, -⟩ := hevs ev List.mem_cons_self
  obtain ⟨l₁, l₂, -, herase, hlookup⟩ := lookup_split hr
  refine ⟨h.slotsOk.release hr evs, h.tracks, ?_⟩
  · refine ⟨(List.nodup_cons.mp hnodup).2, fun ev' hev' => ?_⟩
    obtain ⟨hres2, hverify, r', hr', hres⟩ := hevs ev' (List.mem_cons_of_mem _ hev')
    have hne : ev'.slot ≠ ev.slot := by
      intro heq
      exact (List.nodup_cons.mp hnodup).1 (heq ▸ List.mem_map_of_mem hev')
    refine ⟨hres2, hverify, r', ?_, hres⟩
    show (e.inFlight.eraseP fun x => x.1 == ev.slot).lookup ev'.slot = some r'
    rw [herase, hlookup _ hne, hr']

/-- The handling of an event of a successful I/O. -/
theorem Inv.handleEvent_eq (h : Inv cfg journal numSlots σ₀ e) {ev : IoEvent}
    {evs : List IoEvent} (hphase : e.phase = .completing (ev :: evs)) {r : Request}
    (hr : e.inFlight.lookup ev.slot = some r) :
    e.handleEvent cfg r ev evs = e.release cfg ev evs := by
  have hok := h.phaseOk
  rw [hphase] at hok
  obtain ⟨hres2, hverify, r', hr', hres⟩ := hok.2 ev List.mem_cons_self
  obtain rfl : r = r' := Option.some.inj (hr.symm.trans hr')
  unfold AioEngine.handleEvent
  rw [if_neg (not_not.mpr hres2), if_neg (not_not.mpr hres), hverify]

/-- **Every step of a successful run keeps the relation.** -/
theorem Inv.step (h : Inv cfg journal numSlots σ₀ e) (hslots : 0 < numSlots) {i : AioInput}
    (hok : e.Succeeds i) (hstep : e.step cfg i = some e') : Inv cfg journal numSlots σ₀ e' := by
  unfold AioEngine.step at hstep
  split at hstep
  · rename_i hphase
    exact h.fillRound hslots hphase hstep
  · exact absurd hok id
  · cases hstep
    exact h
  · rename_i evs hphase
    split_ifs at hstep with hbatch
    cases hstep
    refine ⟨⟨h.slotsOk.slots, h.slotsOk.pending, h.slotsOk.guards⟩, h.tracks, hbatch.2.2.1,
      fun ev hev => ?_⟩
    obtain ⟨hres2, hverify, hres⟩ := hok ev hev
    obtain ⟨r, hr, hres⟩ := Option.map_eq_some_iff.mp hres
    exact ⟨hres2, hverify, r, hr, hres.symm⟩
  · exact absurd hok id
  · cases hstep
    exact ⟨⟨h.slotsOk.slots, h.slotsOk.pending, h.slotsOk.guards⟩, h.tracks, trivial⟩
  · rename_i ev evs hphase
    obtain ⟨r, hr, rfl⟩ := Option.map_eq_some_iff.mp hstep
    rw [h.handleEvent_eq hphase hr]
    exact h.release hphase
  · exact absurd hstep (by simp)

theorem inv_of_reach (journal : ℕ → Journal) (hslots : 0 < numSlots) (cells : ℕ → CellMap)
    (hvalid : LawfulOffsetGenerator.Valid p.gen)
    (hreach : Reach (AioEngine.step cfg) Succeeds (start numSlots p) e) :
    Inv cfg journal numSlots ⟨p, cells, []⟩ e :=
  hreach.invariant (inv_start cells hvalid) fun _ _ _ hu hok hstep => hu.step hslots hok hstep

/-! ## What follows -/

/-- When the loop has returned, the synchronous loop returns as well. -/
theorem Inv.returned (h : Inv cfg journal numSlots σ₀ e) :
    ∃ σ, Reach (RwState.fullStep cfg journal) anyStep σ₀ σ ∧ σ.processed = e.issued ∧
      ∀ v, e.phase = .returned v → ∀ res, σ.rwIteration cfg journal res = .returned σ v := by
  obtain ⟨σ, hreach, hprocessed, -, ht⟩ := h.tracks
  refine ⟨σ, hreach, hprocessed, fun v hv res => ?_⟩
  have hok := h.phaseOk
  rw [hv] at hok
  obtain ⟨-, hdone, hdraw, rfl⟩ := hok
  have heq : e.progress = σ.progress := by
    unfold Tracks at ht
    rwa [hdraw] at ht
  rw [heq] at hdone ⊢
  exact RwState.rwIteration_of_done journal hdone res

/-- A run that has not returned can go on: an I/O that is in flight completes, or the
loop does not wait. -/
theorem Inv.exists_step (h : Inv cfg journal numSlots σ₀ e) (hrun : ∀ v, e.phase ≠ .returned v) :
    ∃ i e', i ≠ .timeout ∧ e.Succeeds i ∧ e.step cfg i = some e' := by
  have hok := h.phaseOk
  cases hphase : e.phase with
  | filling =>
    refine ⟨.fill .skip, ?_⟩
    unfold AioEngine.step AioEngine.fillRound
    rw [hphase]
    dsimp only
    split
    · exact ⟨_, by simp, trivial, rfl⟩
    · split_ifs
      · exact ⟨_, by simp, trivial, rfl⟩
      · exact ⟨_, by simp, trivial, rfl⟩
      · exact ⟨_, by simp, trivial, rfl⟩
  | waiting =>
    rw [hphase] at hok
    obtain ⟨x, rest, hx⟩ : ∃ x rest, e.inFlight = x :: rest := by
      refine List.exists_cons_of_ne_nil fun hnil => hok ?_
      rw [h.slotsOk.pending, hnil, List.length_nil]
    have hlookup : e.inFlight.lookup x.1 = some x.2 := by
      rw [hx, List.lookup_cons, beq_self_eq_true]
    refine ⟨.events [⟨x.1, x.2.size, 0, none⟩],
      { e with phase := .completing [⟨x.1, x.2.size, 0, none⟩] }, by simp, ?_, ?_⟩
    · intro ev hev
      rw [List.mem_singleton.mp hev]
      exact ⟨rfl, rfl, by rw [hlookup]; rfl⟩
    · unfold AioEngine.step
      rw [hphase]
      exact if_pos ⟨by simp, by simp [AIO_MAX_EVENTS], by simp, by simp [hx]⟩
  | completing evs =>
    rw [hphase] at hok
    cases evs with
    | nil =>
      refine ⟨.complete, { e with phase := .filling }, by simp, trivial, ?_⟩
      unfold AioEngine.step
      rw [hphase]
    | cons ev evs =>
      obtain ⟨-, -, r, hr, -⟩ := hok.2 ev List.mem_cons_self
      refine ⟨.complete, e.handleEvent cfg r ev evs, by simp, trivial, ?_⟩
      unfold AioEngine.step
      rw [hphase]
      dsimp only
      rw [hr]
      rfl
  | returned v => exact absurd hphase (hrun v)
  | threw err =>
    rw [hphase] at hok
    exact absurd hok id

/-! ## Termination -/

/-- How far a phase is from the next completion. -/
def rank : AioPhase → ℕ
  | .completing [] => 3
  | .filling => 2
  | .waiting => 1
  | _ => 0

/-- What is left to do when the synchronous loop processes at most `n` I/Os. -/
def work (n : ℕ) (e : AioEngine G) : ℕ :=
  4 * (2 * (n - e.issued.length) + e.numPending) + rank e.phase

/-- The synchronous loop processes at most `n` I/Os. -/
def AtMost (cfg : WorkerConfig) (journal : ℕ → Journal) (σ₀ : RwState G) (n : ℕ) : Prop :=
  ∀ σ, Reach (RwState.fullStep cfg journal) anyStep σ₀ σ → σ.processed.length ≤ n

/-- There is an I/O left for a draw that is used up. -/
theorem Inv.issued_lt (h : Inv cfg journal numSlots σ₀ e) {n : ℕ}
    (hn : AtMost cfg journal σ₀ n) (hleft : e.progress.bytesLeft = true) :
    e.issued.length < n := by
  obtain ⟨σ, hreach, hprocessed, -, -⟩ := h.account_tracks hleft
  have hle := hn σ hreach
  have hlen : (e.account cfg).issued.length = e.issued.length + 1 := List.length_append
  rw [hprocessed, hlen] at hle
  exact hle

/-- **Every step but a timeout lowers the work that is left.** -/
theorem Inv.work_lt (h : Inv cfg journal numSlots σ₀ e) {n : ℕ} (hn : AtMost cfg journal σ₀ n)
    {i : AioInput} (hok : e.Succeeds i) (hi : i ≠ .timeout) (hstep : e.step cfg i = some e') :
    work n e' < work n e := by
  unfold AioEngine.step at hstep
  split at hstep
  · rename_i hphase
    have hafter : ∀ e₁ : AioEngine G, e₁.issued = e.issued → e₁.numPending = e.numPending →
        work n e₁.afterFill < work n e := by
      intro e₁ hissued hpending
      have hrank : rank e₁.afterFill.phase ≤ 1 := by
        unfold AioEngine.afterFill
        dsimp only
        split_ifs
        · exact Nat.zero_le 1
        · exact le_refl 1
      show 4 * (2 * (n - e₁.issued.length) + e₁.numPending) + rank e₁.afterFill.phase < _
      rw [work, hissued, hpending, hphase, show rank .filling = 2 from rfl]
      omega
    rcases fillRound_eq_some hstep with ⟨rfl, -⟩ | ⟨slot, rest, -, hleft, hround⟩
    · exact hafter e rfl rfl
    · have hlt := h.issued_lt hn hleft
      have hlen : (e.account cfg).issued.length = e.issued.length + 1 := List.length_append
      rcases hround with ⟨-, rfl⟩ | ⟨-, -, rfl⟩ | ⟨-, -, -, rfl⟩
      · show 4 * (2 * (n - (e.account cfg).issued.length) + (e.numPending + 1)) + rank e.phase < _
        rw [work, hlen]
        omega
      · show 4 * (2 * (n - (e.account cfg).issued.length) + e.numPending) + rank e.phase < _
        rw [work, hlen]
        omega
      · exact hafter (e.keepDraw cfg) rfl rfl
  · exact absurd hok id
  · exact absurd rfl hi
  · rename_i evs hphase
    split_ifs at hstep with hbatch
    cases hstep
    obtain ⟨ev, evs, rfl⟩ := List.exists_cons_of_ne_nil hbatch.1
    rw [work, work, hphase]
    exact Nat.lt_succ_self _
  · exact absurd hok id
  · rename_i hphase
    cases hstep
    rw [work, work, hphase]
    exact Nat.lt_succ_self _
  · rename_i ev evs hphase
    obtain ⟨r, hr, rfl⟩ := Option.map_eq_some_iff.mp hstep
    rw [h.handleEvent_eq hphase hr]
    have hpos : 0 < e.numPending := by
      obtain ⟨l₁, l₂, hl, -, -⟩ := lookup_split hr
      rw [h.slotsOk.pending, hl, List.length_append, List.length_cons]
      omega
    have hrank : rank (.completing evs) ≤ 3 := by
      cases evs with
      | nil => exact le_refl _
      | cons => exact Nat.zero_le _
    show 4 * (2 * (n - e.issued.length) + (e.numPending - 1)) + rank (.completing evs) < _
    rw [work, hphase, show rank (.completing (ev :: evs)) = 0 from rfl]
    omega
  · exact absurd hstep (by simp)

/-- A run has no more steps than there was work. -/
theorem Inv.length_le_work (hslots : 0 < numSlots) {n : ℕ} (hn : AtMost cfg journal σ₀ n)
    (inputs : List AioInput) (htime : ∀ i ∈ inputs, i ≠ .timeout)
    (h : Inv cfg journal numSlots σ₀ e)
    (hrun : runTrace (checkedStep (AioEngine.step cfg) Succeeds) e inputs = some e') :
    inputs.length + work n e' ≤ work n e := by
  induction inputs generalizing e with
  | nil =>
    obtain rfl : e = e' := Option.some.inj hrun
    rw [List.length_nil, Nat.zero_add]
  | cons i inputs ih =>
    rw [runTrace] at hrun
    obtain ⟨e₁, hstep, hrun⟩ := Option.bind_eq_some_iff.mp hrun
    rw [checkedStep] at hstep
    split_ifs at hstep with hok
    have hlt := h.work_lt hn hok (htime i List.mem_cons_self) hstep
    have hle := ih (fun j hj => htime j (List.mem_cons_of_mem i hj)) (h.step hslots hok hstep) hrun
    rw [List.length_cons]
    omega

end AioEngine

/-- **The asynchronous loop ends.**  If the synchronous loop processes at most `n` I/Os,
then a run in which all I/Os succeed has at most `8 * n + 2` steps, apart from the
timeouts of `io_getevents`. -/
theorem aioBlockSized_steps_le {G : Type*} [OffsetGenerator G] [LawfulOffsetGenerator G]
    {cfg : WorkerConfig} {journal : ℕ → Journal} {cells : ℕ → CellMap} {numSlots : ℕ}
    (hslots : 0 < numSlots) {p : Progress G} (hvalid : LawfulOffsetGenerator.Valid p.gen) {n : ℕ}
    (hn : AioEngine.AtMost cfg journal ⟨p, cells, []⟩ n) {inputs : List AioInput}
    (htime : ∀ i ∈ inputs, i ≠ .timeout) {e : AioEngine G}
    (hrun : runTrace (checkedStep (AioEngine.step cfg) AioEngine.Succeeds)
      (AioEngine.start numSlots p) inputs = some e) :
    inputs.length ≤ 8 * n + 2 := by
  have hle := AioEngine.Inv.length_le_work hslots hn inputs htime
    (AioEngine.inv_start cells hvalid) hrun
  have hstart : AioEngine.work n (AioEngine.start numSlots p) = 8 * n + 2 := by
    show 4 * (2 * (n - 0) + 0) + 2 = 8 * n + 2
    omega
  omega

/-- **The asynchronous loop issues what the synchronous one processes.**  In every state
of a run in which all I/Os succeed, for every order and batching of the completions and
every pattern of deferred and skipped draws:

* the I/Os issued or skipped so far are, in order, those that a run of `rwBlockSized`
  for the same generator has processed, and when the function has returned, that run
  returns the same value;
* `numPending` is the number of slots that are not on the stack, and with a journal the
  number of guards held;
* a slot on the stack has no I/O in flight;
* the function has returned only if no I/O is in flight, it never throws, and as long as
  it has not returned it can go on. -/
theorem aioBlockSized_refines_rwBlockSized {G : Type*} [OffsetGenerator G]
    [LawfulOffsetGenerator G] (cfg : WorkerConfig) (journal : ℕ → Journal) (cells : ℕ → CellMap)
    (numSlots : ℕ) (hslots : 0 < numSlots) (p : Progress G)
    (hvalid : LawfulOffsetGenerator.Valid p.gen) (e : AioEngine G)
    (hreach : Reach (AioEngine.step cfg) AioEngine.Succeeds (AioEngine.start numSlots p) e) :
    (∃ σ, Reach (RwState.fullStep cfg journal) anyStep ⟨p, cells, []⟩ σ ∧
      σ.processed = e.issued ∧
      ∀ v, e.phase = .returned v → ∀ res, σ.rwIteration cfg journal res = .returned σ v) ∧
    e.numPending = ((List.range numSlots).filter (· ∉ e.freeSlots)).length ∧
    (cfg.journalEnabled = true → e.journalNumGuardsHeld = e.numPending) ∧
    (∀ slot ∈ e.freeSlots, slot ∉ e.inFlight.map Prod.fst) ∧
    (∀ v, e.phase = .returned v → e.inFlight = []) ∧ (∀ err, e.phase ≠ .threw err) ∧
    ((∀ v, e.phase ≠ .returned v) →
      ∃ i e', i ≠ .timeout ∧ e.Succeeds i ∧ e.step cfg i = some e') := by
  have h := AioEngine.inv_of_reach journal hslots cells hvalid hreach
  refine ⟨h.returned, h.slotsOk.numPending_eq, fun hj => ?_, fun slot => h.slotsOk.disjoint,
    fun v hv => ?_,
    fun err herr => ?_, h.exists_step⟩
  · rw [h.slotsOk.guards, hj, Bool.toNat_true, Nat.one_mul]
  · have hok := h.phaseOk
    rw [hv] at hok
    exact List.length_eq_zero_iff.mp (h.slotsOk.pending.symm.trans hok.1)
  · have hok := h.phaseOk
    rw [herr] at hok
    exact hok

/-! ### Three blocks in two slots -/

/-- A worker that writes three blocks with a journal. -/
def threeBlockWriter : WorkerConfig := { twoBlockWriter with fileSize := 12288 }

/-- Its generator. -/
def threeBlockProgress : Progress OffsetGenSequential where
  gen := .make 12288 0 (.single 4096 Word64.page_pos Word64.page_lt_size) fun _ => 0#64
  numIOPSSubmitted := 0

/-- The second I/O completes first, the third draw is deferred until the first I/O has
completed as well. -/
def threeBlockInputs : List AioInput :=
  [.fill .write, .fill .write, .fill .write, .events [⟨1, 4096, 0, none⟩], .complete, .complete,
    .fill .defer, .events [⟨0, 4096, 0, none⟩], .complete, .complete, .fill .write, .fill .write,
    .events [⟨0, 4096, 0, none⟩], .complete, .complete, .fill .write]

theorem aioBlockSized_threeBlocks :
    ∃ e : AioEngine OffsetGenSequential,
      Reach (AioEngine.step threeBlockWriter) AioEngine.Succeeds
        (AioEngine.start 2 threeBlockProgress) e ∧
      e.phase = .returned 12288 ∧ e.issued.map Request.offset = [0, 4096, 8192] ∧
      e.inFlight = [] ∧
      ∃ σ, Reach (RwState.fullStep threeBlockWriter fun _ => twoBlockJournal) anyStep
          ⟨threeBlockProgress, fun _ _ => 0#8, []⟩ σ ∧ σ.processed = e.issued := by
  obtain ⟨e, hrun, hphase, hissued⟩ : ∃ e, runTrace
      (checkedStep (AioEngine.step threeBlockWriter) AioEngine.Succeeds)
      (AioEngine.start 2 threeBlockProgress) threeBlockInputs = some e ∧
      e.phase = .returned 12288 ∧ e.issued.map Request.offset = [0, 4096, 8192] :=
    ⟨_, rfl, rfl, rfl⟩
  have hreach := reach_of_runTrace_checked _ _ threeBlockInputs hrun
  obtain ⟨⟨σ, hσ, hprocessed, -⟩, -, -, -, hempty, -⟩ :=
    aioBlockSized_refines_rwBlockSized threeBlockWriter (fun _ => twoBlockJournal)
      (fun _ _ => 0#8) 2 (by decide) threeBlockProgress trivial e hreach
  exact ⟨e, hreach, hphase, hissued, hempty _ hphase, σ, hσ, hprocessed⟩

/-- The run has 16 steps. -/
theorem aioBlockSized_steps_le_threeBlocks : threeBlockInputs.length ≤ 26 := by
  have hn : AioEngine.AtMost threeBlockWriter (fun _ => twoBlockJournal)
      ⟨threeBlockProgress, fun _ _ => 0#8, []⟩ 3 := by
    intro σ hσ
    iterate 4
      obtain rfl | ⟨_, ⟨_, -, hstep⟩, hσ⟩ := hσ.cases_head
      · decide
      cases hstep
  exact aioBlockSized_steps_le two_pos trivial hn (by simp [threeBlockInputs]) rfl

end Elbencho
