import Mathlib.Logic.Function.Basic
import Elbencho.Library.PairedLog
import Elbencho.Worker.SpdkSectors

/-!
# The operations log of the asynchronous engines

With an operations log, an asynchronous engine writes an entry before an I/O is submitted and one
after it has completed.  `OpsLog.Moves` says what a step of an engine can do to its slots and to the
log, and `OpsLog.InStep.paired_iff` which ends of the engine call leave a paired log.

`AioLogged` is `aioBlockSized` with its log.  It also has the exits that matter for the log and not
for the I/Os: interruptions, and exceptions of the rate limiter and of file locks.  The first entry
is written when the request is prepared, so every exception between this and the submission leaves
it alone, and the loop is left at the first bad completion, whatever else is in flight.

* `AioLogged.Running.moves_of_step`: what a step does to slots and log.
* `AioLogged.wellLogged_of_reach`: in every run, the log has the completions of all I/Os that are
  not in flight.
-/

namespace Elbencho

open OffsetGenerator Transition PairedLog

/-! ## The log -/

/-- An operation as the log names it. -/
@[ext]
structure LogOp where
  opName : String
  entryName : String
  offset : ℕ
  length : ℕ
  deriving DecidableEq

/-- An entry of the log: `OpsLogger::logOpJSON`. -/
structure LogEntry where
  op : LogOp
  isOpFinished : Bool
  isError : Bool
  deriving DecidableEq

/-- `OPLOG_PRE_OP`. -/
def oplogPreOp (op : LogOp) : LogEntry := ⟨op, false, false⟩

/-- `OPLOG_POST_OP`. -/
def oplogPostOp (op : LogOp) (isError : Bool) : LogEntry := ⟨op, true, isError⟩

/-- The operations that were submitted, according to the log. -/
def submissions (log : List LogEntry) : List LogOp := started LogEntry.isOpFinished LogEntry.op log

/-- For each submission there is exactly one completion with the same operation, and there is no
other completion. -/
def CompletionsPaired (log : List LogEntry) : Prop :=
  Paired LogEntry.isOpFinished LogEntry.op log

instance (log : List LogEntry) : Decidable (CompletionsPaired log) :=
  inferInstanceAs (Decidable (Paired _ _ _))

/-- The log of an engine call, and for each slot whether its last I/O was a read: the opcode of the
`iocb`, or `isReadVec`. -/
structure OpsLog where
  isRead : ℕ → Bool
  entries : List LogEntry

namespace OpsLog

variable {G : Type*} {cfg : WorkerConfig} {numSlots : ℕ} (opOf : Request → Bool → LogOp)

/-- An I/O is prepared in a slot. -/
def preOp (l : OpsLog) (slot : ℕ) (r : Request) (isRead : Bool) : OpsLog :=
  ⟨Function.update l.isRead slot isRead, l.entries ++ [oplogPreOp (opOf r isRead)]⟩

/-- An I/O has completed. -/
def postOp (l : OpsLog) (op : LogOp) (isError : Bool) : OpsLog :=
  { l with entries := l.entries ++ [oplogPostOp op isError] }

/-- The operations in flight. -/
def pending (l : OpsLog) (e : AioEngine G) : List LogOp :=
  e.inFlight.map fun x => opOf x.2 (l.isRead x.1)

/-- The log has the submissions of what is done and of what is pending, and completions of what is
done, with the offsets and lengths of `f`. -/
def Follows (f : LogOp → LogOp) (l : OpsLog) (pending : List LogOp) : Prop :=
  ∃ done, Tracks LogEntry.isOpFinished LogEntry.op f l.entries done pending

/-- `f` changes offsets and lengths only, to smaller ones. -/
structure Reduces (f : LogOp → LogOp) : Prop where
  opName_eq : ∀ op, (f op).opName = op.opName
  entryName_eq : ∀ op, (f op).entryName = op.entryName
  offset_le : ∀ op, (f op).offset ≤ op.offset
  length_le : ∀ op, (f op).length ≤ op.length

theorem reduces_id : Reduces id :=
  ⟨fun _ => rfl, fun _ => rfl, fun _ => le_rfl, fun _ => le_rfl⟩

variable {opOf} {f : LogOp → LogOp} {l : OpsLog} {e : AioEngine G}

/-- **A log is paired if and only if nothing is pending and the completions have the offsets and
lengths of their submissions.** -/
theorem Follows.paired_iff (hf : Reduces f) {pending : List LogOp} (h : l.Follows f pending) :
    CompletionsPaired l.entries ↔
      pending = [] ∧ ∀ op ∈ submissions l.entries, f op = op := by
  obtain ⟨done, htracks⟩ := h
  have hpaired := htracks.paired_iff (fun op => op.offset + op.length)
    (fun op => Nat.add_le_add (hf.offset_le op) (hf.length_le op)) fun op hsize => by
      have hoffset := hf.offset_le op
      have hlength := hf.length_le op
      exact LogOp.ext (hf.opName_eq op) (hf.entryName_eq op) (by omega) (by omega)
  refine hpaired.trans (and_congr_right fun hnil => ?_)
  subst hnil
  have hperm := htracks.started
  rw [List.append_nil] at hperm
  exact ⟨fun hall op hop => hall op (hperm.mem_iff.mp hop),
    fun hall op hop => hall op (hperm.mem_iff.mpr hop)⟩

/-- The entry before the submission. -/
theorem Follows.preOp {pending : List LogOp} (h : l.Follows f pending) (slot : ℕ) (r : Request)
    (isRead : Bool) : (l.preOp opOf slot r isRead).Follows f (opOf r isRead :: pending) := by
  obtain ⟨done, htracks⟩ := h
  exact ⟨done, htracks.start rfl⟩

/-- The operation of a slot is one of those in flight. -/
theorem pending_perm {slot : ℕ} {r : Request} (hr : e.inFlight.lookup slot = some r) :
    (l.pending opOf e).Perm (opOf r (l.isRead slot) ::
      (e.inFlight.eraseP fun x => x.1 == slot).map fun x => opOf x.2 (l.isRead x.1)) := by
  obtain ⟨l₁, l₂, hl, herase, -⟩ := AioEngine.lookup_split hr
  rw [pending, herase, hl, List.map_append, List.map_append, List.map_cons]
  exact List.perm_middle

/-- The entry after the completion. -/
theorem Follows.postOp (h : l.Follows f (l.pending opOf e)) {slot : ℕ} {r : Request}
    (hr : e.inFlight.lookup slot = some r) (isError : Bool) :
    (l.postOp (f (opOf r (l.isRead slot))) isError).Follows f
      ((e.inFlight.eraseP fun x => x.1 == slot).map fun x => opOf x.2 (l.isRead x.1)) := by
  obtain ⟨done, htracks⟩ := h
  exact ⟨_, htracks.finish rfl rfl (pending_perm hr)⟩

/-- An I/O is submitted into a free slot. -/
theorem pending_preOp_submitInto [OffsetGenerator G] (hslots : AioEngine.SlotsOk cfg numSlots e)
    {slot : ℕ} {rest : List ℕ} (hfree : e.freeSlots = slot :: rest) (isRead : Bool) :
    (l.preOp opOf slot (e.currentRequest cfg) isRead).pending opOf (e.submitInto cfg slot rest) =
      opOf (e.currentRequest cfg) isRead :: l.pending opOf e := by
  have hnot : slot ∉ e.inFlight.map Prod.fst :=
    hslots.disjoint (hfree ▸ List.mem_cons_self)
  show opOf (e.currentRequest cfg) (Function.update l.isRead slot isRead slot) ::
      e.inFlight.map (fun x => opOf x.2 (Function.update l.isRead slot isRead x.1)) = _
  rw [Function.update_self]
  refine congrArg _ (List.map_congr_left fun x hx => ?_)
  rw [Function.update_of_ne]
  rintro rfl
  exact hnot (List.mem_map_of_mem hx)

end OpsLog

/-! ## What the engines share -/

namespace AioEngine

variable {G : Type*} [OffsetGenerator G] (cfg : WorkerConfig)

/-- The next round of `fillIdleSlots` prepares an I/O, if the journal answers with `action`. -/
def Prepares (e : AioEngine G) (action : Action) : Prop :=
  e.freeSlots ≠ [] ∧ e.progress.bytesLeft = true ∧
    (cfg.journalEnabled = true → action = .read ∨ action = .write)

instance (e : AioEngine G) (action : Action) : Decidable (e.Prepares cfg action) :=
  inferInstanceAs (Decidable (_ ∧ _ ∧ _))

/-- The slot that is taken next. -/
def nextSlot (e : AioEngine G) : ℕ := e.freeSlots.headD 0

/-- The slots and their counters are the same. -/
structure SameSlots (e e' : AioEngine G) : Prop where
  freeSlots : e'.freeSlots = e.freeSlots
  inFlight : e'.inFlight = e.inFlight
  numPending : e'.numPending = e.numPending
  guards : e'.journalNumGuardsHeld = e.journalNumGuardsHeld

variable {cfg} {numSlots : ℕ} {e e' : AioEngine G} {action : Action}

omit [OffsetGenerator G] in
theorem SlotsOk.of_same (h : SlotsOk cfg numSlots e) (hsame : SameSlots e e') :
    SlotsOk cfg numSlots e' where
  slots := by
    rw [hsame.freeSlots, hsame.inFlight]
    exact h.slots
  pending := by
    rw [hsame.numPending, hsame.inFlight]
    exact h.pending
  guards := by
    rw [hsame.guards, hsame.numPending]
    exact h.guards

/-- **What a round of `fillIdleSlots` does to the slots**: it submits an I/O, or it leaves them as
they are, and then the loop is over if it does not go on with filling. -/
theorem fillRound_slots (hstep : e.fillRound cfg action = some e') (hfilling : e.phase = .filling) :
    (e.Prepares cfg action ∧ ∃ rest, e.freeSlots = e.nextSlot :: rest ∧
      e' = e.submitInto cfg e.nextSlot rest) ∨
    (¬ e.Prepares cfg action ∧ SameSlots e e' ∧
      (e'.phase = .filling ∨
        e'.phase = if e.numPending = 0 then .returned (getNumBytesTotal e'.progress.gen)
          else .waiting)) := by
  rcases fillRound_eq_some hstep with ⟨rfl, hstop⟩ | ⟨slot, rest, hfree, hleft, hround⟩
  · refine Or.inr ⟨fun hprep => ?_, ⟨rfl, rfl, rfl, rfl⟩, Or.inr rfl⟩
    rcases hstop with hnil | hdone
    · exact hprep.1 hnil
    · exact Bool.false_ne_true (hdone.symm.trans hprep.2.1)
  · have hnot (hj : cfg.journalEnabled = true) (hne : ¬ (action = .read ∨ action = .write)) :
        ¬ e.Prepares cfg action := fun hprep => hne (hprep.2.2 hj)
    have hslot : e.nextSlot = slot := by rw [nextSlot, hfree, List.headD_cons]
    rcases hround with ⟨haction, rfl⟩ | ⟨hj, rfl, rfl⟩ | ⟨hj, rfl, -, rfl⟩
    · rw [hslot]
      exact Or.inl ⟨⟨hfree ▸ List.cons_ne_nil _ _, hleft, haction⟩, rest, hfree, rfl⟩
    · exact Or.inr ⟨hnot hj (by decide), ⟨rfl, rfl, rfl, rfl⟩, Or.inl hfilling⟩
    · exact Or.inr ⟨hnot hj (by decide), ⟨rfl, rfl, rfl, rfl⟩, Or.inr rfl⟩

/-- What a step of the loop does, by its input. -/
theorem step_eq_some {i : AioInput} (h : e.step cfg i = some e') :
    match i with
    | .fill action => e.phase = .filling ∧ e.fillRound cfg action = some e'
    | .fillFails _ returnCode => e.phase = .filling ∧
        e' = { e with phase := .threw (.submissionFailed e.numPending returnCode) }
    | .timeout => e.phase = .waiting ∧ e' = e
    | .events evs => e.phase = .waiting ∧ e' = { e with phase := .completing evs }
    | .eventsFail returnCode => e.phase = .waiting ∧
        e' = { e with phase := .threw (.gettingEventsFailed e.numPending returnCode) }
    | .complete => (e.phase = .completing [] ∧ e' = { e with phase := .filling }) ∨
        ∃ ev evs r, e.phase = .completing (ev :: evs) ∧ e.inFlight.lookup ev.slot = some r ∧
          e' = e.handleEvent cfg r ev evs := by
  unfold step at h
  split at h
  · exact ⟨‹_›, h⟩
  · exact ⟨‹_›, (Option.some.inj h).symm⟩
  · exact ⟨‹_›, (Option.some.inj h).symm⟩
  · split_ifs at h
    exact ⟨‹_›, (Option.some.inj h).symm⟩
  · exact ⟨‹_›, (Option.some.inj h).symm⟩
  · exact Or.inl ⟨‹_›, (Option.some.inj h).symm⟩
  · obtain ⟨r, hr, rfl⟩ := Option.map_eq_some_iff.mp h
    exact Or.inr ⟨_, _, r, ‹_›, hr, rfl⟩
  · cases h

variable (cfg) in
/-- The slots after the I/O of one of them was handled. -/
def freed (e : AioEngine G) (slot : ℕ) : AioEngine G :=
  { e with
    freeSlots := slot :: e.freeSlots
    numPending := e.numPending - 1
    journalNumGuardsHeld := e.journalNumGuardsHeld - cfg.journalEnabled.toNat
    inFlight := e.inFlight.eraseP fun x => x.1 == slot }

omit [OffsetGenerator G] in
theorem SlotsOk.freed (h : SlotsOk cfg numSlots e) {slot : ℕ} {r : Request}
    (hr : e.inFlight.lookup slot = some r) : SlotsOk cfg numSlots (e.freed cfg slot) := by
  have hev : e.inFlight.lookup (⟨slot, 0, 0, none⟩ : IoEvent).slot = some r := hr
  exact (h.release hev []).of_same ⟨rfl, rfl, rfl, rfl⟩

omit [OffsetGenerator G] in
/-- It was the only one in flight. -/
theorem SlotsOk.eraseP_eq_nil_iff (h : SlotsOk cfg numSlots e) {slot : ℕ} {r : Request}
    (hr : e.inFlight.lookup slot = some r) :
    (e.inFlight.eraseP fun x => x.1 == slot) = [] ↔ e.numPending = 1 := by
  obtain ⟨l₁, l₂, hl, herase, -⟩ := lookup_split hr
  have hlength := congrArg List.length hl
  rw [List.length_append, List.length_cons] at hlength
  rw [herase, h.pending, ← List.length_eq_zero_iff, List.length_append]
  omega

omit [OffsetGenerator G] in
theorem SlotsOk.inFlight_eq_nil_iff (h : SlotsOk cfg numSlots e) :
    e.inFlight = [] ↔ e.numPending = 0 := by
  rw [h.pending, List.length_eq_zero_iff]

end AioEngine

namespace OpsLog

variable {G : Type*} [OffsetGenerator G] (cfg : WorkerConfig) (opOf : Request → Bool → LogOp)
  (f : LogOp → LogOp) (numSlots : ℕ)

/-- The slots are in order, and the log has the completions of all I/Os that are not in flight. -/
structure InStep (e : AioEngine G) (l : OpsLog) : Prop where
  slotsOk : AioEngine.SlotsOk cfg numSlots e
  follows : l.Follows f (l.pending opOf e)

/-- What a step of an engine can do to the slots and to the log.  The step ends the call if `ended`
holds, and `paired` is the condition on its input for a log that is paired then. -/
inductive Moves (e : AioEngine G) (l : OpsLog) (paired : Prop) :
    AioEngine G → OpsLog → Prop → Prop
  | quiet {e' : AioEngine G} {ended : Prop} (hsame : e.SameSlots e')
    (hended : ended → e.numPending = 0 ∧ paired) : Moves e l paired e' l ended
  | submitted {e' : AioEngine G} {ended : Prop} {slot : ℕ} {rest : List ℕ} {isRead : Bool}
    (hfree : e.freeSlots = slot :: rest) (hsame : (e.submitInto cfg slot rest).SameSlots e')
    (hrun : ¬ ended) :
    Moves e l paired e' (l.preOp opOf slot (e.currentRequest cfg) isRead) ended
  | released {e' : AioEngine G} {ended : Prop} {slot : ℕ} {r : Request} {isError : Bool}
    (hr : e.inFlight.lookup slot = some r) (hsame : (e.freed cfg slot).SameSlots e')
    (hrun : ¬ ended) :
    Moves e l paired e' (l.postOp (f (opOf r (l.isRead slot))) isError) ended
  | endsPrepped {e' : AioEngine G} {ended : Prop} {slot : ℕ} {isRead : Bool} (hend : ended)
    (hnot : ¬ paired) :
    Moves e l paired e' (l.preOp opOf slot (e.currentRequest cfg) isRead) ended
  | endsPending {e' : AioEngine G} {ended : Prop} (hend : ended)
    (hiff : paired ↔ e.numPending = 0) : Moves e l paired e' l ended
  | endsCompleted {e' : AioEngine G} {ended : Prop} {slot : ℕ} {r : Request} {isError : Bool}
    (hr : e.inFlight.lookup slot = some r) (hend : ended) (hiff : paired ↔ e.numPending = 1) :
    Moves e l paired e' (l.postOp (f (opOf r (l.isRead slot))) isError) ended

variable {cfg opOf f numSlots} {e e' : AioEngine G} {l l' : OpsLog} {paired ended : Prop}

omit [OffsetGenerator G] in
theorem inStep_start (p : Progress G) :
    InStep cfg opOf f numSlots (AioEngine.start numSlots p) ⟨fun _ => false, []⟩ :=
  ⟨AioEngine.slotsOk_start p, [], Tracks.nil⟩

omit [OffsetGenerator G] in
theorem InStep.of_same (h : InStep cfg opOf f numSlots e l) (hsame : e.SameSlots e') :
    InStep cfg opOf f numSlots e' l := by
  refine ⟨h.slotsOk.of_same hsame, ?_⟩
  rw [pending, hsame.inFlight]
  exact h.follows

/-- **A step that does not end the call keeps slots and log in step.** -/
theorem InStep.moves (h : InStep cfg opOf f numSlots e l)
    (hmoves : Moves cfg opOf f e l paired e' l' ended) (hrun : ¬ ended) :
    InStep cfg opOf f numSlots e' l' := by
  cases hmoves with
  | quiet hsame hended => exact h.of_same hsame
  | submitted hfree hsame _ =>
    refine InStep.of_same ⟨h.slotsOk.submitInto hfree, ?_⟩ hsame
    rw [pending_preOp_submitInto h.slotsOk hfree]
    exact h.follows.preOp _ _ _
  | released hr hsame _ =>
    exact InStep.of_same ⟨h.slotsOk.freed hr, h.follows.postOp hr _⟩ hsame
  | endsPrepped hend hnot => exact absurd hend hrun
  | endsPending hend hiff => exact absurd hend hrun
  | endsCompleted hr hend hiff => exact absurd hend hrun

/-- **Which ends of a call leave a paired log.** -/
theorem InStep.paired_iff (hf : Reduces f) (h : InStep cfg opOf f numSlots e l)
    (hmoves : Moves cfg opOf f e l paired e' l' ended) (hend : ended) :
    CompletionsPaired l'.entries ↔ paired ∧ ∀ op ∈ submissions l'.entries, f op = op := by
  have hempty : l.pending opOf e = [] ↔ e.numPending = 0 := by
    rw [pending, List.map_eq_nil_iff, h.slotsOk.inFlight_eq_nil_iff]
  cases hmoves with
  | quiet hsame hended =>
    obtain ⟨hzero, hpaired⟩ := hended hend
    rw [h.follows.paired_iff hf]
    exact and_congr_left fun _ => iff_of_true (hempty.mpr hzero) hpaired
  | submitted hfree hsame hrun => exact absurd hend hrun
  | released hr hsame hrun => exact absurd hend hrun
  | endsPrepped _ hnot =>
    rw [(h.follows.preOp _ _ _).paired_iff hf]
    exact and_congr_left fun _ => iff_of_false (List.cons_ne_nil _ _) hnot
  | endsPending _ hiff =>
    rw [h.follows.paired_iff hf]
    exact and_congr_left fun _ => hempty.trans hiff.symm
  | endsCompleted hr _ hiff =>
    rw [(h.follows.postOp hr _).paired_iff hf, List.map_eq_nil_iff,
      h.slotsOk.eraseP_eq_nil_iff hr, hiff]

/-- Every submission is one of before or the I/O that the engine works on. -/
theorem Moves.mem_submissions (hmoves : Moves cfg opOf f e l paired e' l' ended) {op : LogOp}
    (hop : op ∈ submissions l'.entries) :
    op ∈ submissions l.entries ∨ ∃ isRead, op = opOf (e.currentRequest cfg) isRead := by
  have hpre {slot : ℕ} {isRead : Bool}
      (hmem : op ∈ submissions (l.preOp opOf slot (e.currentRequest cfg) isRead).entries) :
      op ∈ submissions l.entries ∨ ∃ isRead, op = opOf (e.currentRequest cfg) isRead := by
    simp only [preOp, submissions, started, List.filter_append, List.map_append,
      List.mem_append] at hmem
    refine hmem.imp id fun hnew => ⟨isRead, ?_⟩
    simpa [oplogPreOp] using hnew
  have hpost {done : LogOp} {isError : Bool}
      (hmem : op ∈ submissions (l.postOp done isError).entries) : op ∈ submissions l.entries := by
    simpa [postOp, submissions, started, oplogPostOp] using hmem
  cases hmoves with
  | quiet hsame hended => exact Or.inl hop
  | submitted hfree hsame hrun => exact hpre hop
  | released hr hsame hrun => exact Or.inl (hpost hop)
  | endsPrepped hend hnot => exact hpre hop
  | endsPending hend hiff => exact Or.inl hop
  | endsCompleted hr hend hiff => exact Or.inl (hpost hop)

end OpsLog

/-- The message of `checkInterruptionRequest`. -/
def interruptedMsg : String := "Received friendly request to interrupt execution."

/-! ## The engine for libaio -/

/-- The inputs of `aioBlockSized` with a log: those of the loop, with an interruption request that
is seen at the check after it or without one, and exceptions of the rate limiter and of the file
locks. -/
inductive AioLogInput where
  | loop (i : AioInput)
  | interrupted (i : AioInput)
  | fillThrows (action : Action) (msg : String)
  | unlockThrows (msg : String)

/-- `aioBlockSized` with its log, and the message of an exception that is not one of the loop. -/
structure AioLogged (G : Type*) where
  engine : AioEngine G
  log : OpsLog
  exception : Option String

/-- The engine has left its loop. -/
def AioPhase.Ended : AioPhase → Prop
  | .filling => False
  | .waiting => False
  | .completing _ => False
  | .returned _ => True
  | .threw _ => True

instance : ∀ phase : AioPhase, Decidable phase.Ended
  | .filling => inferInstanceAs (Decidable False)
  | .waiting => inferInstanceAs (Decidable False)
  | .completing _ => inferInstanceAs (Decidable False)
  | .returned _ => inferInstanceAs (Decidable True)
  | .threw _ => inferInstanceAs (Decidable True)

/-- The operation of an `iocb`. -/
def aioOp (fd : ℕ → ℤ) (r : Request) (isRead : Bool) : LogOp :=
  ⟨if isRead then "aioread" else "aiowrite", toString (fd r.fileIdx), r.offset, r.size⟩

namespace AioLogged

variable {G : Type*} [OffsetGenerator G] (cfg : WorkerConfig) (fd : ℕ → ℤ)

/-- The start of the loop. -/
def start (numSlots : ℕ) (p : Progress G) : AioLogged G :=
  ⟨.start numSlots p, ⟨fun _ => false, []⟩, none⟩

/-- The engine call has ended, by return or exception. -/
def Ended (s : AioLogged G) : Prop := s.exception ≠ none ∨ s.engine.phase.Ended

instance (s : AioLogged G) : Decidable s.Ended := inferInstanceAs (Decidable (_ ∨ _))

/-- Whether the prepper makes a read: `aioJournalPrepper` with a journal, one of the others
without. -/
def prepsRead (s : AioLogged G) (action : Action) : Bool :=
  if cfg.journalEnabled then action = .read
  else prepperIsRead cfg s.engine.progress.numIOPSSubmitted

/-- The log after the prepper. -/
def prepped (s : AioLogged G) (action : Action) : OpsLog :=
  s.log.preOp (aioOp fd) s.engine.nextSlot (s.engine.currentRequest cfg) (s.prepsRead cfg action)

/-- The event that is handled next, with the I/O in its slot. -/
def currentEvent (s : AioLogged G) : Option (IoEvent × Request) :=
  match s.engine.phase with
  | .completing (ev :: _) => (s.engine.inFlight.lookup ev.slot).map fun r => (ev, r)
  | _ => none

/-- The log after the entry for a completion. -/
def completed (s : AioLogged G) (ev : IoEvent) (r : Request) : OpsLog :=
  s.log.postOp (aioOp fd r (s.log.isRead ev.slot)) (ev.res2 ≠ 0 ∨ ev.res ≠ r.size)

/-- The log after a step of the loop. -/
def logAfter (s : AioLogged G) : AioInput → OpsLog
  | .fill action =>
    if s.engine.Prepares cfg action then s.prepped cfg fd action else s.log
  | .fillFails action _ => s.prepped cfg fd action
  | .complete => match s.currentEvent with
    | some (ev, r) => s.completed fd ev r
    | none => s.log
  | _ => s.log

/-- A step of the loop.  A submission fails only if there is one. -/
def loopStep (s : AioLogged G) (i : AioInput) : Option (AioLogged G) :=
  match i with
  | .fillFails action _ =>
    if s.engine.Prepares cfg action then
      (s.engine.step cfg i).map fun e => { s with engine := e, log := s.logAfter cfg fd i }
    else none
  | _ => (s.engine.step cfg i).map fun e => { s with engine := e, log := s.logAfter cfg fd i }

/-- `checkInterruptionRequest` is called after a timeout and after a completion that was good. -/
def Checks (s s' : AioLogged G) : AioInput → Prop
  | .timeout => True
  | .complete => s.currentEvent.isSome ∧ ¬ s'.engine.phase.Ended
  | _ => False

instance (s s' : AioLogged G) : ∀ i, Decidable (s.Checks s' i)
  | .timeout => inferInstanceAs (Decidable True)
  | .complete => inferInstanceAs (Decidable (_ ∧ _))
  | .fill _ => inferInstanceAs (Decidable False)
  | .fillFails _ _ => inferInstanceAs (Decidable False)
  | .events _ => inferInstanceAs (Decidable False)
  | .eventsFail _ => inferInstanceAs (Decidable False)

/-- A step of `aioBlockSized` with its log. -/
def step (s : AioLogged G) (i : AioLogInput) : Option (AioLogged G) :=
  if s.Ended then none
  else match i with
    | .loop i => s.loopStep cfg fd i
    | .interrupted i => (s.loopStep cfg fd i).bind fun s' =>
        if s.Checks s' i then some { s' with exception := some interruptedMsg } else none
    | .fillThrows action msg =>
      -- after the prepper, before the submission
      match s.engine.phase with
      | .filling =>
        if s.engine.Prepares cfg action then
          some { s with log := s.prepped cfg fd action, exception := some msg }
        else none
      | _ => none
    | .unlockThrows msg =>
      match s.currentEvent with
      | some (ev, r) =>
        if ev.res2 ≠ 0 then none
        -- a short result is logged before the lock is given up, a full one after it
        else if ev.res ≠ r.size then
          some { s with log := s.completed fd ev r, exception := some msg }
        else some { s with exception := some msg }
      | none => none

/-- The exits of the engine that leave a paired log, by the state before: the last round of
`fillIdleSlots`, and the end of the only I/O in flight. -/
def EndsPaired (s : AioLogged G) : AioLogInput → Prop
  | .loop (.fill _) => True
  | .loop .complete => s.engine.numPending = 1
  | .interrupted .complete => s.engine.numPending = 1
  | .unlockThrows _ => s.engine.numPending = 1 ∧ ∃ ev r, s.currentEvent = some (ev, r) ∧
      ev.res ≠ r.size
  | _ => False

/-! ### Steps -/

variable {cfg fd} {numSlots : ℕ} {s s' : AioLogged G}

omit [OffsetGenerator G] in
theorem currentEvent_eq_some {ev : IoEvent} {r : Request} (h : s.currentEvent = some (ev, r)) :
    s.engine.inFlight.lookup ev.slot = some r := by
  unfold currentEvent at h
  split at h
  · obtain ⟨r', hr, heq⟩ := Option.map_eq_some_iff.mp h
    cases heq
    exact hr
  · cases h

omit [OffsetGenerator G] in
theorem currentEvent_of_lookup {ev : IoEvent} {evs : List IoEvent} {r : Request}
    (hphase : s.engine.phase = .completing (ev :: evs))
    (hr : s.engine.inFlight.lookup ev.slot = some r) : s.currentEvent = some (ev, r) := by
  unfold currentEvent
  rw [hphase]
  simp only [hr, Option.map_some]

omit [OffsetGenerator G] in
variable (cfg) in
/-- The handling of an event: a release, or an exit. -/
theorem handleEvent_cases (e : AioEngine G) (r : Request) (ev : IoEvent) (evs : List IoEvent) :
    e.handleEvent cfg r ev evs = e.release cfg ev evs ∨
      (e.handleEvent cfg r ev evs).phase.Ended := by
  unfold AioEngine.handleEvent
  by_cases hres2 : ev.res2 ≠ 0
  · rw [if_pos hres2]
    exact Or.inr trivial
  · rw [if_neg hres2]
    by_cases hres : ev.res ≠ r.size
    · rw [if_pos hres]
      exact Or.inr trivial
    · rw [if_neg hres]
      cases ev.verifyError with
      | some msg => exact Or.inr trivial
      | none => exact Or.inl rfl

/-- An engine that waits has I/Os in flight, and a step keeps this. -/
theorem numPending_ne_zero_of_step {e e' : AioEngine G} {i : AioInput}
    (h : e.phase = .waiting → e.numPending ≠ 0) (hstep : e.step cfg i = some e') :
    e'.phase = .waiting → e'.numPending ≠ 0 := by
  intro hwaiting
  have hcases := AioEngine.step_eq_some hstep
  cases i with
  | fill action =>
    rcases AioEngine.fillRound_slots hcases.2 hcases.1 with ⟨-, rest, -, rfl⟩ | ⟨-, hsame, hnext⟩
    · exact Nat.succ_ne_zero _
    · rw [hsame.numPending]
      intro hzero
      rw [if_pos hzero] at hnext
      rcases hnext with hnext | hnext <;> cases hnext.symm.trans hwaiting
  | timeout => exact hcases.2 ▸ h hcases.1
  | complete =>
    rcases hcases with ⟨-, rfl⟩ | ⟨ev, evs, r, -, -, rfl⟩
    · cases hwaiting
    · rcases handleEvent_cases cfg e r ev evs with hrelease | hended
      · rw [hrelease] at hwaiting
        cases hwaiting
      · rw [hwaiting] at hended
        exact absurd hended id
  | _ =>
    rw [hcases.2] at hwaiting
    cases hwaiting

/-- A step of the loop is one of the engine without a log. -/
theorem loopStep_eq_some {i : AioInput} (h : s.loopStep cfg fd i = some s') :
    ∃ e', s.engine.step cfg i = some e' ∧
      s' = { s with engine := e', log := s.logAfter cfg fd i } := by
  have hmap (hstep : ((s.engine.step cfg i).map fun e =>
      { s with engine := e, log := s.logAfter cfg fd i }) = some s') :
      ∃ e', s.engine.step cfg i = some e' ∧
        s' = { s with engine := e', log := s.logAfter cfg fd i } := by
    obtain ⟨e', hengine, heq⟩ := Option.map_eq_some_iff.mp hstep
    exact ⟨e', hengine, heq.symm⟩
  unfold loopStep at h
  split at h
  · split_ifs at h
    exact hmap h
  · exact hmap h

variable (cfg fd numSlots) in
/-- While the engine runs, its log is in step with its slots, and it waits only for I/Os in
flight. -/
structure Running (s : AioLogged G) : Prop where
  inStep : OpsLog.InStep cfg (aioOp fd) id numSlots s.engine s.log
  waiting : s.engine.phase = .waiting → s.engine.numPending ≠ 0

/-- **A step of the loop.** -/
theorem Running.moves_of_loopStep (h : s.Running cfg fd numSlots) {i : AioInput}
    (hexc : s.exception = none) (hstep : s.loopStep cfg fd i = some s') :
    OpsLog.Moves cfg (aioOp fd) id s.engine s.log (s.EndsPaired (.loop i)) s'.engine s'.log
      s'.Ended := by
  have hrunning {e : AioEngine G} {l : OpsLog} (hphase : ¬ e.phase.Ended) :
      ¬ ({ s with engine := e, log := l } : AioLogged G).Ended :=
    fun hended => hended.elim (fun hne => hne hexc) hphase
  obtain ⟨e', hengine, rfl⟩ := loopStep_eq_some hstep
  have hcases := AioEngine.step_eq_some hengine
  cases i with
  | fill action =>
    obtain ⟨hphase, hround⟩ := hcases
    rcases AioEngine.fillRound_slots hround hphase with ⟨hprep, rest, hfree, rfl⟩ |
      ⟨hprep, hsame, hnext⟩
    · rw [logAfter, if_pos hprep]
      exact .submitted hfree ⟨rfl, rfl, rfl, rfl⟩ (hrunning (hphase ▸ id))
    · rw [logAfter, if_neg hprep]
      refine .quiet hsame fun hended => ⟨?_, trivial⟩
      by_contra hpending
      rw [if_neg hpending] at hnext
      refine hrunning ?_ hended
      rcases hnext with hnext | hnext <;> exact hnext ▸ id
  | fillFails action returnCode =>
    obtain ⟨-, rfl⟩ := hcases
    exact .endsPrepped (Or.inr trivial) id
  | timeout =>
    obtain ⟨hphase, heq⟩ := hcases
    rw [heq]
    exact .quiet ⟨rfl, rfl, rfl, rfl⟩ fun hended => absurd hended (hrunning (hphase ▸ id))
  | events evs =>
    obtain ⟨-, rfl⟩ := hcases
    exact .quiet ⟨rfl, rfl, rfl, rfl⟩ fun hended => absurd hended (hrunning id)
  | eventsFail returnCode =>
    obtain ⟨hphase, rfl⟩ := hcases
    exact .endsPending (Or.inr trivial) (iff_of_false id (h.waiting hphase))
  | complete =>
    rcases hcases with ⟨hphase, rfl⟩ | ⟨ev, evs, r, hphase, hr, rfl⟩
    · have hnone : s.currentEvent = none := by
        rw [currentEvent, hphase]
      rw [logAfter, hnone]
      exact .quiet ⟨rfl, rfl, rfl, rfl⟩ fun hended => absurd hended (hrunning id)
    · rw [logAfter, currentEvent_of_lookup hphase hr]
      rcases handleEvent_cases cfg s.engine r ev evs with hrelease | hended
      · rw [hrelease]
        exact .released hr ⟨rfl, rfl, rfl, rfl⟩ (hrunning id)
      · exact .endsCompleted hr (Or.inr hended) Iff.rfl

/-- **A step of `aioBlockSized` with its log.** -/
theorem Running.moves_of_step (h : s.Running cfg fd numSlots) {i : AioLogInput}
    (hstep : s.step cfg fd i = some s') :
    OpsLog.Moves cfg (aioOp fd) id s.engine s.log (s.EndsPaired i) s'.engine s'.log s'.Ended := by
  unfold step at hstep
  split_ifs at hstep with hrun
  have hexc : s.exception = none := not_not.mp (not_or.mp hrun).1
  cases i with
  | loop i => exact h.moves_of_loopStep hexc hstep
  | interrupted i =>
    obtain ⟨s₁, hloop, hcheck⟩ := Option.bind_eq_some_iff.mp hstep
    split_ifs at hcheck with hchecks
    obtain rfl := Option.some.inj hcheck
    obtain ⟨e', hengine, rfl⟩ := loopStep_eq_some hloop
    have hended (e : AioEngine G) (l : OpsLog) :
        (⟨e, l, some interruptedMsg⟩ : AioLogged G).Ended := Or.inl (Option.some_ne_none _)
    cases i with
    | timeout =>
      exact .endsPending (hended _ _)
        (iff_of_false id (h.waiting (AioEngine.step_eq_some hengine).1))
    | complete =>
      obtain ⟨⟨ev, r⟩, hcurrent⟩ := Option.isSome_iff_exists.mp hchecks.1
      have hlog : s.logAfter cfg fd .complete = s.completed fd ev r := by
        rw [logAfter, hcurrent]
      dsimp only
      rw [hlog]
      exact .endsCompleted (currentEvent_eq_some hcurrent) (hended _ _) Iff.rfl
    | _ => exact absurd hchecks id
  | fillThrows action msg =>
    dsimp only at hstep
    split at hstep
    · split_ifs at hstep
      obtain rfl := Option.some.inj hstep
      exact .endsPrepped (Or.inl (Option.some_ne_none _)) id
    · cases hstep
  | unlockThrows msg =>
    dsimp only at hstep
    split at hstep
    · rename_i ev r hcurrent
      have hr := currentEvent_eq_some hcurrent
      split_ifs at hstep with hres2 hres
      · obtain rfl := Option.some.inj hstep
        exact .endsCompleted hr (Or.inl (Option.some_ne_none _))
          ⟨And.left, fun hone => ⟨hone, ev, r, hcurrent, hres⟩⟩
      · obtain rfl := Option.some.inj hstep
        refine .endsPending (Or.inl (Option.some_ne_none _)) (iff_of_false ?_ fun hzero => ?_)
        · rintro ⟨-, ev', r', hcurrent', hne⟩
          cases hcurrent.symm.trans hcurrent'
          exact hres hne
        · rw [h.inStep.slotsOk.inFlight_eq_nil_iff.mpr hzero] at hr
          cases hr
    · cases hstep

/-! ### Runs -/

/-- A step that does not end the call is one of the loop. -/
theorem exists_loopStep_of_step {i : AioLogInput} (h : s.step cfg fd i = some s')
    (hrun : ¬ s'.Ended) : ∃ j, s.loopStep cfg fd j = some s' := by
  have hexc : s'.exception = none := not_not.mp (not_or.mp hrun).1
  unfold step at h
  split_ifs at h
  cases i with
  | loop j => exact ⟨j, h⟩
  | interrupted j =>
    obtain ⟨s₁, -, hcheck⟩ := Option.bind_eq_some_iff.mp h
    split_ifs at hcheck
    cases hcheck
    cases hexc
  | fillThrows action msg =>
    dsimp only at h
    split at h
    · split_ifs at h
      cases h
      cases hexc
    · cases h
  | unlockThrows msg =>
    dsimp only at h
    split at h
    · split_ifs at h <;> cases h <;> cases hexc
    · cases h

/-- A step that does not end the call keeps the engine running. -/
theorem Running.step (h : s.Running cfg fd numSlots) {i : AioLogInput}
    (hstep : s.step cfg fd i = some s') (hrun : ¬ s'.Ended) : s'.Running cfg fd numSlots := by
  refine ⟨h.inStep.moves (h.moves_of_step hstep) hrun, ?_⟩
  obtain ⟨j, hloop⟩ := exists_loopStep_of_step hstep hrun
  obtain ⟨e', hengine, rfl⟩ := loopStep_eq_some hloop
  exact numPending_ne_zero_of_step h.waiting hengine

variable (cfg fd numSlots) in
/-- The engine runs until the call has ended. -/
def WellLogged (s : AioLogged G) : Prop := ¬ s.Ended → s.Running cfg fd numSlots

/-- An engine that has ended makes no step. -/
theorem not_ended_of_step {i : AioLogInput} (h : s.step cfg fd i = some s') : ¬ s.Ended := by
  unfold step at h
  split_ifs at h with hrun
  exact hrun

/-- **In every run the engine is well logged.** -/
theorem wellLogged_of_reach {p : Progress G}
    (hreach : Reach (AioLogged.step cfg fd) anyStep (start numSlots p) s) :
    s.WellLogged cfg fd numSlots := by
  refine hreach.invariant (fun _ => ⟨OpsLog.inStep_start p, fun h => (by cases h)⟩)
    fun u i v hu _ hstep hrun => ?_
  exact (hu (not_ended_of_step hstep)).step hstep hrun

end AioLogged

end Elbencho
