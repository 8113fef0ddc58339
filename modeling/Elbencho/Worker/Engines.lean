import Elbencho.Worker.AioBlockSized

/-!
# The engines and their journal calls

A worker thread runs `rwBlockSized` with one I/O in flight or one of the asynchronous
loops with up to `ioDepth` of them.  Towards the journal all of them do the same: they
call `journalBeginIO` for a slot and an I/O, go on with its answer, and later call
`journalCommitIO` or `journalReleaseIO` for the slot.

`RwEngine` is the synchronous loop cut at these calls, and `Engine` is either kind of
loop with its calls: `beginCall` and `finishCall` are what the engine calls next,
`begun` and `finished` how it goes on with the answer.  `Engine.Ok` says that the
counter of the guards held counts the slots in flight, and is kept by every step.

**Deferred draws.**  `Engine.deferred` is the I/O whose locks were not available.  It
stays the same until it is retried (`deferred_finished`, `Ok.goOn`), an engine that waits
for completions has an I/O in flight (`Ok.inFlight_ne_nil`), and once it has handled
them it calls `journalBeginIO` for the deferred I/O (`Ok.beginCall_of_deferred`).
-/

namespace Elbencho

/-! ## The synchronous loop -/

/-- Where `rwBlockSized` is: at the head of its loop, in the system call of an I/O, or at
its end. -/
inductive RwPhase where
  | head
  | inFlight
  | returned (value : ℤ)

/-- The state of `rwBlockSized` between its journal calls. -/
structure RwEngine (G : Type*) where
  progress : Progress G
  journalNumGuardsHeld : ℕ
  phase : RwPhase

namespace RwEngine

open OffsetGenerator

variable {G : Type*} [OffsetGenerator G]

/-- The start of the loop. -/
def start (p : Progress G) : RwEngine G := ⟨p, 0, .head⟩

/-- `journalBeginIO` has returned.  The loop does not ask for `ACTION_DEFER`, which no
guard would be counted for. -/
def begun (e : RwEngine G) : Action → RwEngine G
  | .skip => { e with progress := e.progress.next }
  | .read => { e with journalNumGuardsHeld := e.journalNumGuardsHeld + 1, phase := .inFlight }
  | .write => { e with journalNumGuardsHeld := e.journalNumGuardsHeld + 1, phase := .inFlight }
  | .defer => { e with phase := .inFlight }

/-- `journalCommitIO` or `journalReleaseIO` has returned, after a system call with the
result `rwRes`. -/
def finished (e : RwEngine G) (rwRes : ℤ) : RwEngine G :=
  if rwRes ≤ 0 then
    { e with
      journalNumGuardsHeld := e.journalNumGuardsHeld - 1
      phase := .returned (if rwRes < 0 then rwRes
        else getNumBytesTotal e.progress.gen - getNumBytesLeftToSubmit e.progress.draw.2) }
  else
    { e with
      progress := e.progress.submitted e.progress.draw.2 rwRes.toNat
      journalNumGuardsHeld := e.journalNumGuardsHeld - 1
      phase := .head }

end RwEngine

/-! ## Both kinds of engines -/

/-- The loop of a worker thread. -/
inductive Engine (G : Type*) where
  | sync (e : RwEngine G)
  | async (e : AioEngine G)

/-- The event of an I/O that was successful: neither an error nor a short result. -/
def IoEvent.Good (ev : IoEvent) (r : Request) : Prop :=
  ev.res2 = 0 ∧ ev.res = r.size ∧ ev.verifyError = none

instance (ev : IoEvent) (r : Request) : Decidable (ev.Good r) :=
  inferInstanceAs (Decidable (_ ∧ _ ∧ _))

namespace Engine

variable {G : Type*}

/-- The counter of the guards held. -/
def journalNumGuardsHeld : Engine G → ℕ
  | .sync e => e.journalNumGuardsHeld
  | .async e => e.journalNumGuardsHeld

/-- The slots with an I/O in flight. -/
def inFlight : Engine G → List ℕ
  | .sync e => match e.phase with
    | .inFlight => [0]
    | _ => []
  | .async e => e.inFlight.map Prod.fst

/-- The engine has left its loop. -/
def Ended : Engine G → Prop
  | .sync e => match e.phase with
    | .returned _ => True
    | _ => False
  | .async e => match e.phase with
    | .returned _ => True
    | .threw _ => True
    | _ => False

instance : ∀ e : Engine G, Decidable e.Ended
  | .sync ⟨_, _, .head⟩ => inferInstanceAs (Decidable False)
  | .sync ⟨_, _, .inFlight⟩ => inferInstanceAs (Decidable False)
  | .sync ⟨_, _, .returned _⟩ => inferInstanceAs (Decidable True)
  | .async ⟨_, _, _, _, _, _, .filling, _, _⟩ => inferInstanceAs (Decidable False)
  | .async ⟨_, _, _, _, _, _, .waiting, _, _⟩ => inferInstanceAs (Decidable False)
  | .async ⟨_, _, _, _, _, _, .completing _, _, _⟩ => inferInstanceAs (Decidable False)
  | .async ⟨_, _, _, _, _, _, .returned _, _, _⟩ => inferInstanceAs (Decidable True)
  | .async ⟨_, _, _, _, _, _, .threw _, _, _⟩ => inferInstanceAs (Decidable True)

/-- The engine waits for completions. -/
def Waiting : Engine G → Prop
  | .sync _ => False
  | .async e => e.phase = .waiting

/-- The engine has handled its completions and looks for the next I/O to submit. -/
def Filling : Engine G → Prop
  | .sync _ => False
  | .async e => e.phase = .filling

/-- The slot whose I/O the engine finishes next, by `journalCommitIO` or
`journalReleaseIO`. -/
def finishCall : Engine G → Option ℕ
  | .sync e => match e.phase with
    | .inFlight => some 0
    | _ => none
  | .async e => match e.phase with
    | .completing (ev :: _) => match e.inFlight.lookup ev.slot with
      | some r => if ev.Good r then some ev.slot else none
      | none => none
    | _ => none

variable [OffsetGenerator G] (cfg : WorkerConfig)

/-- The start of an engine call. -/
def start (isAsync : Bool) (ioDepth : ℕ) (p : Progress G) : Engine G :=
  if isAsync then .async (.start ioDepth p) else .sync (.start p)

/-- The call of `journalBeginIO` that the engine makes next: slot and I/O. -/
def beginCall : Engine G → Option (ℕ × Request)
  | .sync e => match e.phase with
    | .head => if e.progress.bytesLeft then some (0, e.progress.nextRequest cfg) else none
    | _ => none
  | .async e => match e.phase, e.freeSlots with
    | .filling, slot :: _ =>
      if e.progress.bytesLeft then some (slot, e.currentRequest cfg) else none
    | _, _ => none

/-- `journalBeginIO` has returned. -/
def begun (action : Action) : Engine G → Option (Engine G)
  | .sync e => some (.sync (e.begun action))
  | .async e => (e.step cfg (.fill action)).map .async

/-- `journalCommitIO` or `journalReleaseIO` has returned.  The result of the system call
is that of the synchronous loop; the asynchronous one has its events. -/
def finished (rwRes : ℤ) : Engine G → Option (Engine G)
  | .sync e => some (.sync (e.finished rwRes))
  | .async e => (e.step cfg .complete).map .async

/-- A step of the engine without a journal call. -/
def goOn (i : AioInput) (e : Engine G) : Option (Engine G) :=
  if (e.beginCall cfg).isNone ∧ e.finishCall.isNone then
    match e with
    | .sync e => match e.phase with
      | .head => some (.sync
          { e with phase := .returned (OffsetGenerator.getNumBytesTotal e.progress.gen) })
      | _ => none
    | .async e => (e.step cfg i).map .async
  else none

/-- The I/O whose locks were not available. -/
def deferred : Engine G → Option Request
  | .sync _ => none
  | .async e => e.journalPendingDraw.map fun drawn =>
      Progress.requestOf cfg drawn (aioDecision cfg e.progress.numIOPSSubmitted)

/-! ### The calls of each kind -/

variable {cfg} {ioDepth slot : ℕ} {r : Request}

theorem beginCall_sync {e : RwEngine G} (h : (sync e).beginCall cfg = some (slot, r)) :
    e.phase = .head ∧ slot = 0 := by
  unfold beginCall at h
  cases hphase : e.phase with
  | head =>
    simp only [hphase] at h
    split_ifs at h
    cases h
    exact ⟨rfl, rfl⟩
  | inFlight => simp [hphase] at h
  | returned => simp [hphase] at h

theorem beginCall_async {e : AioEngine G} (h : (async e).beginCall cfg = some (slot, r)) :
    ∃ rest, e.phase = .filling ∧ e.freeSlots = slot :: rest ∧ e.progress.bytesLeft = true ∧
      r = e.currentRequest cfg := by
  unfold beginCall at h
  cases hphase : e.phase with
  | filling =>
    cases hfree : e.freeSlots with
    | nil => simp [hphase, hfree] at h
    | cons x rest =>
      simp only [hphase, hfree] at h
      split_ifs at h with hleft
      cases h
      exact ⟨rest, rfl, rfl, hleft, rfl⟩
  | _ => simp [hphase] at h

omit [OffsetGenerator G] in
theorem finishCall_sync {e : RwEngine G} (h : (sync e).finishCall = some slot) :
    e.phase = .inFlight ∧ slot = 0 := by
  unfold finishCall at h
  cases hphase : e.phase with
  | inFlight =>
    simp only [hphase] at h
    cases h
    exact ⟨rfl, rfl⟩
  | head => simp [hphase] at h
  | returned => simp [hphase] at h

omit [OffsetGenerator G] in
theorem finishCall_async {e : AioEngine G} (h : (async e).finishCall = some slot) :
    ∃ ev evs r, e.phase = .completing (ev :: evs) ∧ ev.slot = slot ∧
      e.inFlight.lookup slot = some r ∧ ev.Good r := by
  unfold finishCall at h
  cases hphase : e.phase with
  | completing events =>
    cases events with
    | nil => simp [hphase] at h
    | cons ev evs =>
      cases hr : e.inFlight.lookup ev.slot with
      | none => simp [hphase, hr] at h
      | some r =>
        simp only [hphase, hr] at h
        split_ifs at h with hgood
        cases h
        exact ⟨ev, evs, r, rfl, rfl, hr, hgood⟩
  | _ => simp [hphase] at h

/-! ### The slots and the counter -/

omit [OffsetGenerator G] in
/-- A good event is released. -/
theorem handleEvent_of_good {e : AioEngine G} {ev : IoEvent} (hgood : ev.Good r)
    (evs : List IoEvent) : e.handleEvent cfg r ev evs = e.release cfg ev evs := by
  obtain ⟨hres2, hres, hverify⟩ := hgood
  unfold AioEngine.handleEvent
  rw [if_neg (not_not.mpr hres2), if_neg (not_not.mpr hres), hverify]

variable (cfg) in
/-- The counter of the guards counts the slots in flight; a deferred draw has a free slot
and bytes left; and the engine waits only for I/Os in flight. -/
def Ok (ioDepth : ℕ) : Engine G → Prop
  | .sync e => e.journalNumGuardsHeld = (sync e).inFlight.length
  | .async e => AioEngine.SlotsOk cfg ioDepth e ∧
      (e.journalPendingDraw.isSome → e.freeSlots ≠ [] ∧ e.progress.bytesLeft = true) ∧
      (e.phase = .waiting → e.numPending ≠ 0)

theorem ok_start (isAsync : Bool) (p : Progress G) : (start isAsync ioDepth p).Ok cfg ioDepth := by
  unfold start
  split_ifs
  · exact ⟨AioEngine.slotsOk_start p, fun h => absurd h (by simp [AioEngine.start]),
      fun h => absurd h (by simp [AioEngine.start])⟩
  · rfl

section Ok

variable {e e' : Engine G} {a : Action}

/-- The counter of the guards counts the slots in flight. -/
theorem Ok.guards (hok : e.Ok cfg ioDepth) (hj : cfg.journalEnabled = true) :
    e.journalNumGuardsHeld = e.inFlight.length := by
  cases e with
  | sync e => exact hok
  | async e =>
    show e.journalNumGuardsHeld = (e.inFlight.map Prod.fst).length
    rw [List.length_map, hok.1.guards, hj, ← hok.1.pending, Bool.toNat_true, Nat.one_mul]

/-- `journalBeginIO` is called for a slot without an I/O. -/
theorem Ok.beginCall_notMem (hok : e.Ok cfg ioDepth)
    (hcall : e.beginCall cfg = some (slot, r)) : slot ∉ e.inFlight := by
  cases e with
  | sync e =>
    obtain ⟨hphase, -⟩ := beginCall_sync hcall
    simp [inFlight, hphase]
  | async e =>
    obtain ⟨rest, -, hfree, -, -⟩ := beginCall_async hcall
    exact hok.1.disjoint (by rw [hfree]; exact List.mem_cons_self)

omit [OffsetGenerator G] in
/-- `journalCommitIO` and `journalReleaseIO` are called for a slot with an I/O. -/
theorem finishCall_mem (hcall : e.finishCall = some slot) : slot ∈ e.inFlight := by
  cases e with
  | sync e =>
    obtain ⟨hphase, rfl⟩ := finishCall_sync hcall
    simp [inFlight, hphase]
  | async e =>
    obtain ⟨ev, evs, r, -, -, hr, -⟩ := finishCall_async hcall
    obtain ⟨l₁, l₂, hl, -, -⟩ := AioEngine.lookup_split hr
    show slot ∈ e.inFlight.map Prod.fst
    rw [hl]
    simp

/-- The slots in flight are slots of the thread. -/
theorem Ok.lt_of_mem (hok : e.Ok cfg ioDepth) (hpos : 0 < ioDepth) (hmem : slot ∈ e.inFlight) :
    slot < ioDepth := by
  cases e with
  | sync e =>
    cases hphase : e.phase with
    | inFlight =>
      obtain rfl : slot = 0 := by simpa [inFlight, hphase] using hmem
      exact hpos
    | head => simp [inFlight, hphase] at hmem
    | returned => simp [inFlight, hphase] at hmem
  | async e =>
    exact List.mem_range.mp (hok.1.slots.mem_iff.mp (List.mem_append_right _ hmem))

/-- `journalBeginIO` is called for a slot of the thread. -/
theorem Ok.beginCall_lt (hok : e.Ok cfg ioDepth) (hpos : 0 < ioDepth)
    (hcall : e.beginCall cfg = some (slot, r)) : slot < ioDepth := by
  cases e with
  | sync e =>
    obtain ⟨-, rfl⟩ := beginCall_sync hcall
    exact hpos
  | async e =>
    obtain ⟨rest, -, hfree, -, -⟩ := beginCall_async hcall
    refine List.mem_range.mp (hok.1.slots.mem_iff.mp (List.mem_append_left _ ?_))
    rw [hfree]
    exact List.mem_cons_self

/-- An engine that waits for completions has an I/O in flight. -/
theorem Ok.inFlight_ne_nil (hok : e.Ok cfg ioDepth) (hw : e.Waiting) : e.inFlight ≠ [] := by
  cases e with
  | sync e => exact absurd hw id
  | async e =>
    intro hnil
    have hlen : e.inFlight.length = 0 := by
      rw [List.map_eq_nil_iff.mp hnil, List.length_nil]
    exact hok.2.2 hw (hok.1.pending.trans hlen)

/-- What the asynchronous loop does when `journalBeginIO` has returned. -/
theorem begun_async {e : AioEngine G} {e' : Engine G} (hj : cfg.journalEnabled = true)
    (hcall : (async e).beginCall cfg = some (slot, r)) (hstep : (async e).begun cfg a = some e') :
    ∃ rest, e.phase = .filling ∧ e.freeSlots = slot :: rest ∧ e.progress.bytesLeft = true ∧
      r = e.currentRequest cfg ∧
      (((a = .read ∨ a = .write) ∧ e' = async (e.submitInto cfg slot rest)) ∨
        (a = .skip ∧ e' = async (e.account cfg)) ∨
        (a = .defer ∧ e.journalNumGuardsHeld ≠ 0 ∧ e' = async (e.keepDraw cfg).afterFill)) := by
  obtain ⟨rest, hphase, hfree, hleft, hr⟩ := beginCall_async hcall
  obtain ⟨e₁, h₁, rfl⟩ := Option.map_eq_some_iff.mp hstep
  simp only [AioEngine.step, hphase] at h₁
  refine ⟨rest, hphase, hfree, hleft, hr, ?_⟩
  rcases AioEngine.fillRound_eq_some h₁ with ⟨-, hstop⟩ | ⟨x, rest', hfree', -, hcase⟩
  · rw [hfree, hleft] at hstop
    exact absurd hstop (by simp)
  · obtain ⟨rfl, rfl⟩ : slot = x ∧ rest = rest' := List.cons.inj (hfree.symm.trans hfree')
    rcases hcase with ⟨ha, rfl⟩ | ⟨-, ha, rfl⟩ | ⟨-, ha, hguards, rfl⟩
    · exact Or.inl ⟨ha hj, rfl⟩
    · exact Or.inr (Or.inl ⟨ha, rfl⟩)
    · exact Or.inr (Or.inr ⟨ha, hguards, rfl⟩)

/-- **The engine goes on after `journalBeginIO`.**  The slot is in flight afterwards
exactly if the journal has answered with a read or a write. -/
theorem Ok.begun [LawfulOffsetGenerator G] (hok : e.Ok cfg ioDepth)
    (hj : cfg.journalEnabled = true) (hcall : e.beginCall cfg = some (slot, r))
    (hdefer : a = .defer → e.journalNumGuardsHeld ≠ 0) (hstep : e.begun cfg a = some e') :
    e'.Ok cfg ioDepth ∧
      ∀ x, x ∈ e'.inFlight ↔ x ∈ e.inFlight ∨ (x = slot ∧ (a = .read ∨ a = .write)) := by
  cases e with
  | sync e =>
    obtain ⟨hphase, rfl⟩ := beginCall_sync hcall
    have hzero : e.journalNumGuardsHeld = 0 := by
      have hguards : e.journalNumGuardsHeld = (sync e).inFlight.length := hok
      simpa [inFlight, hphase] using hguards
    cases hstep
    cases a with
    | skip => exact ⟨by simpa [Ok, inFlight, RwEngine.begun, hphase] using hzero,
        by simp [inFlight, RwEngine.begun, hphase]⟩
    | read => exact ⟨by simpa [Ok, inFlight, RwEngine.begun] using hzero,
        by simp [inFlight, RwEngine.begun, hphase]⟩
    | write => exact ⟨by simpa [Ok, inFlight, RwEngine.begun] using hzero,
        by simp [inFlight, RwEngine.begun, hphase]⟩
    | defer => exact absurd hzero (hdefer rfl)
  | async e =>
    obtain ⟨hslots, hdraw, -⟩ := hok
    obtain ⟨rest, hphase, hfree, hleft, -, hcase⟩ := begun_async hj hcall hstep
    rcases hcase with ⟨ha, rfl⟩ | ⟨rfl, rfl⟩ | ⟨rfl, -, rfl⟩
    · refine ⟨⟨hslots.submitInto hfree, fun h => absurd h (by simp [AioEngine.submitInto,
        AioEngine.account]), fun h => absurd (hphase.symm.trans h) (by simp)⟩, fun x => ?_⟩
      show x ∈ slot :: e.inFlight.map Prod.fst ↔ _
      rw [List.mem_cons, or_comm]
      exact or_congr_right (iff_self_and.mpr fun _ => ha)
    · exact ⟨⟨⟨hslots.slots, hslots.pending, hslots.guards⟩,
        fun h => absurd h (by simp [AioEngine.account]),
        fun h => absurd (hphase.symm.trans h) (by simp)⟩, fun x => by simp [inFlight,
          AioEngine.account]⟩
    · refine ⟨⟨⟨hslots.slots, hslots.pending, hslots.guards⟩, fun _ => ⟨?_, ?_⟩, ?_⟩,
        fun x => by simp [inFlight, AioEngine.afterFill, AioEngine.keepDraw]⟩
      · show e.freeSlots ≠ []
        rw [hfree]
        exact List.cons_ne_nil _ _
      · exact (AioEngine.bytesLeft_keepDraw e).trans hleft
      · exact AioEngine.numPending_ne_zero_of_afterFill

/-- **The engine goes on after `journalCommitIO` or `journalReleaseIO`.**  The slot is no
longer in flight. -/
theorem Ok.finished (hok : e.Ok cfg ioDepth) (hcall : e.finishCall = some slot) {rwRes : ℤ}
    (hstep : e.finished cfg rwRes = some e') :
    e'.Ok cfg ioDepth ∧ ∀ x, x ∈ e'.inFlight ↔ x ∈ e.inFlight ∧ x ≠ slot := by
  cases e with
  | sync e =>
    obtain ⟨hphase, rfl⟩ := finishCall_sync hcall
    have hone : e.journalNumGuardsHeld = 1 := by
      have hguards : e.journalNumGuardsHeld = (sync e).inFlight.length := hok
      simpa [inFlight, hphase] using hguards
    cases hstep
    unfold RwEngine.finished
    split_ifs <;> simp [Ok, inFlight, hphase, hone]
  | async e =>
    obtain ⟨hslots, hdraw, -⟩ := hok
    obtain ⟨ev, evs, r, hphase, rfl, hr, hgood⟩ := finishCall_async hcall
    obtain ⟨e₁, h₁, rfl⟩ := Option.map_eq_some_iff.mp hstep
    simp only [AioEngine.step, hphase, hr, Option.map_some, handleEvent_of_good hgood] at h₁
    cases h₁
    refine ⟨⟨hslots.release hr evs, fun h => ⟨List.cons_ne_nil _ _, (hdraw h).2⟩,
      fun h => absurd h (by simp [AioEngine.release])⟩, fun x => ?_⟩
    exact hslots.mem_release hr evs

omit [OffsetGenerator G] in
/-- An event that is not good ends the loop. -/
theorem handleEvent_of_not_good {e : AioEngine G} {ev : IoEvent} (hgood : ¬ ev.Good r)
    (evs : List IoEvent) : ∃ phase, phase ≠ .waiting ∧
      e.handleEvent cfg r ev evs = { e with phase := phase } := by
  unfold AioEngine.handleEvent
  by_cases hres2 : ev.res2 = 0
  · by_cases hres : ev.res = r.size
    · rw [if_neg (not_not.mpr hres2), if_neg (not_not.mpr hres)]
      cases hverify : ev.verifyError with
      | some msg => exact ⟨_, by simp, rfl⟩
      | none => exact absurd ⟨hres2, hres, hverify⟩ hgood
    · rw [if_neg (not_not.mpr hres2), if_pos hres]
      exact ⟨_, by simp, rfl⟩
  · rw [if_pos hres2]
    exact ⟨_, by simp, rfl⟩

/-- A step of the asynchronous loop without a journal call only moves it to another
phase. -/
theorem goOn_async {e : AioEngine G} {e' : Engine G} {i : AioInput}
    (hstep : (async e).goOn cfg i = some e') : ∃ phase, e' = async { e with phase := phase } ∧
      (phase = .waiting → e.phase = .waiting ∨ e.numPending ≠ 0) := by
  unfold Engine.goOn at hstep
  split_ifs at hstep with hcalls
  obtain ⟨hbegin, hfinish⟩ := hcalls
  obtain ⟨e₁, h₁, rfl⟩ := Option.map_eq_some_iff.mp hstep
  unfold AioEngine.step at h₁
  split at h₁
  · -- a round of `fillIdleSlots` that finds nothing to submit
    rename_i hphase
    rcases AioEngine.fillRound_eq_some h₁ with ⟨rfl, -⟩ | ⟨x, rest, hfree, hleft, -⟩
    · exact ⟨_, rfl, fun hw => Or.inr (AioEngine.numPending_ne_zero_of_afterFill hw)⟩
    · exact absurd hbegin (by simp [beginCall, hphase, hfree, hleft])
  · cases h₁
    exact ⟨_, rfl, by simp⟩
  · rename_i hphase
    cases h₁
    exact ⟨e.phase, rfl, Or.inl⟩
  · split_ifs at h₁
    cases h₁
    exact ⟨_, rfl, by simp⟩
  · cases h₁
    exact ⟨_, rfl, by simp⟩
  · cases h₁
    exact ⟨_, rfl, by simp⟩
  · -- an event that is not good
    rename_i ev evs hphase
    obtain ⟨r, hr, rfl⟩ := Option.map_eq_some_iff.mp h₁
    have hgood : ¬ ev.Good r := by
      intro hgood
      exact absurd hfinish (by simp [finishCall, hphase, hr, hgood])
    have hend : ∃ phase, phase ≠ .waiting ∧ e.handleEvent cfg r ev evs = { e with phase := phase } :=
      handleEvent_of_not_good hgood evs
    obtain ⟨phase, hne, heq⟩ := hend
    exact ⟨phase, by rw [heq], fun hw => absurd hw hne⟩
  · cases h₁

/-- **A step without a journal call** leaves the slots and the deferred draw alone. -/
theorem Ok.goOn (hok : e.Ok cfg ioDepth) {i : AioInput} (hstep : e.goOn cfg i = some e') :
    e'.Ok cfg ioDepth ∧ e'.inFlight = e.inFlight ∧ e'.deferred cfg = e.deferred cfg := by
  cases e with
  | sync e =>
    unfold Engine.goOn at hstep
    split_ifs at hstep
    cases hphase : e.phase with
    | head =>
      simp only [hphase] at hstep
      cases hstep
      have hguards : e.journalNumGuardsHeld = (sync e).inFlight.length := hok
      simp only [inFlight, hphase] at hguards
      exact ⟨hguards, by simp [inFlight, hphase], rfl⟩
    | inFlight => simp [hphase] at hstep
    | returned => simp [hphase] at hstep
  | async e =>
    obtain ⟨phase, rfl, hwait⟩ := goOn_async hstep
    obtain ⟨hslots, hdraw, hpending⟩ := hok
    exact ⟨⟨⟨hslots.slots, hslots.pending, hslots.guards⟩, hdraw,
      fun hw => (hwait hw).elim hpending id⟩, rfl, rfl⟩

/-! ### Deferred draws -/

/-- Finishing an I/O leaves the deferred draw alone. -/
theorem deferred_finished (hcall : e.finishCall = some slot) {rwRes : ℤ}
    (hstep : e.finished cfg rwRes = some e') : e'.deferred cfg = e.deferred cfg := by
  cases e with
  | sync e =>
    cases hstep
    rfl
  | async e =>
    obtain ⟨ev, evs, r, hphase, rfl, hr, hgood⟩ := finishCall_async hcall
    obtain ⟨e₁, h₁, rfl⟩ := Option.map_eq_some_iff.mp hstep
    simp only [AioEngine.step, hphase, hr, Option.map_some, handleEvent_of_good hgood] at h₁
    cases h₁
    rfl

/-- **The retry.**  An engine with a deferred draw that has handled its completions calls
`journalBeginIO` for that draw. -/
theorem Ok.beginCall_of_deferred (hok : e.Ok cfg ioDepth) (hj : cfg.journalEnabled = true)
    (hdeferred : e.deferred cfg = some r) (hfill : e.Filling) :
    ∃ slot, e.beginCall cfg = some (slot, r) := by
  cases e with
  | sync e => exact absurd hfill id
  | async e =>
    obtain ⟨drawn, hdrawn, rfl⟩ := Option.map_eq_some_iff.mp hdeferred
    obtain ⟨hne, hleft⟩ := hok.2.1 (by rw [hdrawn]; rfl)
    obtain ⟨slot, rest, hfree⟩ := List.exists_cons_of_ne_nil hne
    have hphase : e.phase = .filling := hfill
    refine ⟨slot, ?_⟩
    unfold beginCall
    simp only [hphase, hfree]
    rw [if_pos hleft]
    unfold AioEngine.currentRequest AioEngine.currentDraw
    simp only [hj, hdrawn]

end Ok

end Engine

end Elbencho
