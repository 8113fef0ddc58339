import Elbencho.Journal.Guards
import Elbencho.Worker.Engines

/-!
# Worker threads and their journal locks

Any number of worker threads run their engines on any number of journals, which share
one array of stripes.  A thread has one `JournalBlockIO` for each of its slots; the
holders of the locks are the pairs of a thread and a slot.

`Threads.step` puts the engines and the journal together.  An engine that calls
`journalBeginIO` starts `begin` for its slot, with `mayBlock` exactly if the thread
holds no guard; the moves of `begin` interleave with everything the other threads do and
with the data of the I/Os in flight; when `begin` returns, the engine goes on with the
answer.  A thread may throw anywhere between two calls, or a `msync` inside one of them
may fail; the destructor of `JournalSlotsReleaser` then releases one slot after the
other, as on every other way out of an engine.

**Main statement** (`journaledThreads_deadlockFree`).  In no reachable state is there a
set of threads of which each waits for a lock that a thread of the set holds.  The proof
is the discipline of waiting of `SharedLock.OrderedWaits`: a range is locked in ascending
order of its stripes, and a thread only blocks while the guards of its other slots are
free.  For the latter, `ThreadOk` relates the slots in flight of an engine to the stages
of the thread's holders.
-/

namespace Elbencho

open SharedLock Transition

/-! ## Threads -/

/-- What a thread is asked to do in one call of its engine. -/
structure EngineCall (J : Type*) where
  cfg : WorkerConfig
  isAsync : Bool
  ioDepth : ℕ
  journalPtrVec : ℕ → J
  journalEnabled : cfg.journalEnabled = true
  ioDepth_pos : 0 < ioDepth

/-- Where a thread is: in the code of its engine, in `journalBeginIO` or in
`journalCommitIO` or `journalReleaseIO` for a slot, in the destructor of
`JournalSlotsReleaser` at a slot, or outside of its engine. -/
inductive Call where
  | running
  | beginning (slot : ℕ)
  | finishing (slot : ℕ) (rwRes : ℤ)
  | releasing (slot : ℕ)
  | stopped

/-- A worker thread. -/
structure Thread (J G : Type*) where
  setup : EngineCall J
  engine : Engine G
  call : Call

/-- The threads and what they share. -/
structure Threads (T J G : Type*) where
  world : World J (T × ℕ)
  thread : T → Thread J G

/-- The steps of the threads. -/
inductive ThreadAction (T J G : Type*) where
  | callBegin (t : T)
  | returnBegin (t : T)
  | callFinish (t : T) (rwRes : ℤ) (m : Move)
  | returnFinish (t : T)
  | goOn (t : T) (i : AioInput)
  | throws (t : T)
  | releaseNext (t : T)
  | journal (t : T) (slot : ℕ) (m : Move)
  | nextCall (t : T) (setup : EngineCall J) (p : Progress G)
  | writeBack (k : J) (page : ℕ)

/-- The slot a call is about. -/
def Call.slot : Call → Option ℕ
  | .running => none
  | .beginning slot => some slot
  | .finishing slot _ => some slot
  | .releasing slot => some slot
  | .stopped => none

/-- The call is the destructor of `JournalSlotsReleaser`. -/
def Call.isReleasing : Call → Bool
  | .releasing _ => true
  | _ => false

/-- A move of the data of an I/O. -/
def Move.isData : Move → Bool
  | .scribble _ _ => true
  | .readByte _ => true
  | _ => false

/-- The moves that a thread makes in a call, and those of the data of its I/Os, which
happen at any time.  The end of an I/O is the start of a call; the destructor of
`JournalSlotsReleaser` gives up what is still in flight. -/
def Call.Permits (call : Call) (slot : ℕ) (m : Move) : Prop :=
  m.isData = true ∨
    (call.slot = some slot ∧ m ≠ .ioDone ∧ (m = .ioFail → call.isReleasing = true))

instance (call : Call) (slot : ℕ) (m : Move) : Decidable (call.Permits slot m) :=
  inferInstanceAs (Decidable (_ ∨ _ ∧ _ ∧ _))

/-- Outside of the destructor no permitted move ends an I/O. -/
theorem Call.Permits.ne {call : Call} {slot : ℕ} {m : Move} (h : call.Permits slot m)
    (hrel : call.isReleasing = false) : m ≠ .ioDone ∧ m ≠ .ioFail := by
  rcases h with hdata | ⟨-, hdone, hfail⟩
  · constructor
    · rintro rfl
      exact absurd hdata (by decide)
    · rintro rfl
      exact absurd hdata (by decide)
  · exact ⟨hdone, fun hm => absurd ((hfail hm).symm.trans hrel) (by decide)⟩

/-- The call after a move: the exception of a failed `msync` leaves the engine. -/
def Call.after (call : Call) : Move → Call
  | .syncFail => .releasing 0
  | _ => call

/-- The thread goes on in its engine, or leaves it. -/
def Thread.goOnWith {J G : Type*} (th : Thread J G) (e : Engine G) : Thread J G :=
  { th with engine := e, call := if e.Ended then .releasing 0 else .running }

/-- A thread at the start of an engine call. -/
def Thread.start {J G : Type*} [OffsetGenerator G] (setup : EngineCall J) (p : Progress G) :
    Thread J G :=
  ⟨setup, .start setup.isAsync setup.ioDepth p, .running⟩

namespace Threads

variable {T J G : Type*} [DecidableEq T] [DecidableEq J] [OffsetGenerator G]

/-- The threads start their engines on the journals and targets as they are. -/
def init (w : World J (T × ℕ)) (setup : T → EngineCall J) (p : T → Progress G) :
    Threads T J G where
  world := { w with locks := RangeLocks.empty, holder := fun _ => .idle .done }
  thread t := .start (setup t) (p t)

/-- The threads with another state of one of them. -/
def setThread (s : Threads T J G) (t : T) (th : Thread J G) : Threads T J G :=
  { s with thread := Function.update s.thread t th }

omit [DecidableEq J] [OffsetGenerator G] in
@[simp] theorem setThread_thread_self (s : Threads T J G) (t : T) (th : Thread J G) :
    (s.setThread t th).thread t = th := Function.update_self _ _ _

omit [DecidableEq J] [OffsetGenerator G] in
theorem setThread_thread_of_ne (s : Threads T J G) {t t' : T} (hne : t' ≠ t) (th : Thread J G) :
    (s.setThread t th).thread t' = s.thread t' := Function.update_of_ne hne _ _

/-- `journalBeginIO`: the call of `begin` for an I/O. -/
def journalBeginIO (S : Setup J) (s : Threads T J G) (t : T) (slot : ℕ) (r : Request) :
    Option (World J (T × ℕ)) :=
  match r.decision with
  | .journaled intent =>
    s.world.step S (.beginRequest (t, slot) ((s.thread t).setup.journalPtrVec r.fileIdx) r.offset
      r.size intent (decide ((s.thread t).engine.journalNumGuardsHeld = 0)))
  | .plain _ => none

/-- One step of the threads. -/
def step (S : Setup J) (s : Threads T J G) : ThreadAction T J G → Option (Threads T J G)
  | .callBegin t =>
    match (s.thread t).call, (s.thread t).engine.beginCall (s.thread t).setup.cfg with
    | .running, some (slot, r) => (s.journalBeginIO S t slot r).map fun w =>
        { s with world := w }.setThread t { s.thread t with call := .beginning slot }
    | _, _ => none
  | .returnBegin t =>
    match (s.thread t).call with
    | .beginning slot => match (s.world.holder (t, slot)).begun with
      | some a => ((s.thread t).engine.begun (s.thread t).setup.cfg a).map fun e =>
          s.setThread t ((s.thread t).goOnWith e)
      | none => none
    | _ => none
  | .callFinish t rwRes m =>
    match (s.thread t).call, (s.thread t).engine.finishCall with
    | .running, some slot =>
      if m = .ioDone ∨ m = .ioFail then
        (s.world.step S (.move (t, slot) m)).map fun w =>
          { s with world := w }.setThread t { s.thread t with call := .finishing slot rwRes }
      else none
    | _, _ => none
  | .returnFinish t =>
    match (s.thread t).call with
    | .finishing slot rwRes => match s.world.holder (t, slot) with
      | .idle (.verifyFailed _) => some (s.setThread t { s.thread t with call := .releasing 0 })
      | .idle _ => ((s.thread t).engine.finished (s.thread t).setup.cfg rwRes).map fun e =>
          s.setThread t ((s.thread t).goOnWith e)
      | .busy _ _ => none
    | _ => none
  | .goOn t i =>
    match (s.thread t).call with
    | .running => ((s.thread t).engine.goOn (s.thread t).setup.cfg i).map fun e =>
        s.setThread t ((s.thread t).goOnWith e)
    | _ => none
  | .throws t =>
    match (s.thread t).call with
    | .running => some (s.setThread t { s.thread t with call := .releasing 0 })
    -- an exception between the return of `journalBeginIO` and the submission
    | .beginning slot => match (s.world.holder (t, slot)).begun with
      | some _ => some (s.setThread t { s.thread t with call := .releasing 0 })
      | none => none
    | _ => none
  | .releaseNext t =>
    match (s.thread t).call with
    | .releasing slot =>
      if slot < (s.thread t).setup.ioDepth then match s.world.holder (t, slot) with
        | .idle _ => some (s.setThread t { s.thread t with call := .releasing (slot + 1) })
        | .busy _ _ => none
      else some (s.setThread t { s.thread t with call := .stopped })
    | _ => none
  | .journal t slot m =>
    if (s.thread t).call.Permits slot m then
      (s.world.step S (.move (t, slot) m)).map fun w =>
        { s with world := w }.setThread t
          { s.thread t with call := (s.thread t).call.after m }
    else none
  | .nextCall t setup p =>
    match (s.thread t).call with
    | .stopped => some (s.setThread t (.start setup p))
    | _ => none
  | .writeBack k page => (s.world.step S (.writeBack k page)).map fun w => { s with world := w }

end Threads

/-! ## The invariant -/

/-- The holder has an I/O in a stage of some kind. -/
def HolderState.At {J : Type*} (kind : Stage → Prop) : HolderState J → Prop
  | .idle _ => False
  | .busy _ stage => kind stage

/-- The holder has no I/O. -/
def HolderState.Idle {J : Type*} : HolderState J → Prop
  | .idle _ => True
  | .busy _ _ => False

/-- The holder of a slot that no call is about: its I/O is in flight, or there is none. -/
def Rests {J G : Type*} (e : Engine G) (slot : ℕ) (x : HolderState J) : Prop :=
  (slot ∈ e.inFlight → x.At Stage.Transferring) ∧ (slot ∉ e.inFlight → x.Idle)

/-- The holder of the slot of `journalBeginIO`: `begin` runs, or it has returned. -/
def Begins {J : Type*} (mayBlock : Bool) (x : HolderState J) : Prop :=
  x.At (Stage.Beginning mayBlock) ∨ ∃ a, x.begun = some a ∧ (a = .defer → mayBlock = false)

/-- The call is the one the engine makes next. -/
def Call.IsNext {G : Type*} [OffsetGenerator G] (cfg : WorkerConfig) (e : Engine G) : Call → Prop
  | .beginning slot => ∃ r, e.beginCall cfg = some (slot, r)
  | .finishing slot _ => e.finishCall = some slot
  | _ => True

/-- The holders that the destructor of `JournalSlotsReleaser` may meet. -/
def Releasable {J : Type*} (x : HolderState J) : Prop :=
  x.Idle ∨ x.At Stage.Transferring ∨ x.At Stage.Finishing

/-- The state of the holder of a slot that fits a call. -/
def Call.Fits {J G : Type*} (e : Engine G) (ioDepth slot : ℕ) (x : HolderState J) : Call → Prop
  | .running => Rests e slot x
  | .beginning sl => (slot = sl → Begins (decide (e.journalNumGuardsHeld = 0)) x) ∧
      (slot ≠ sl → Rests e slot x)
  | .finishing sl _ => (slot = sl → x.At Stage.Finishing ∨ x.Idle) ∧ (slot ≠ sl → Rests e slot x)
  | .releasing sl => (slot < sl ∨ ioDepth ≤ slot → x.Idle) ∧ Releasable x
  | .stopped => x.Idle

namespace Thread

variable {J G : Type*} [OffsetGenerator G]

/-- The engine, the call and the holders of a thread fit together. -/
structure Ok (th : Thread J G) (holder : ℕ → HolderState J) : Prop where
  engine : th.engine.Ok th.setup.cfg th.setup.ioDepth
  call : th.call.IsNext th.setup.cfg th.engine
  fits : ∀ slot, th.call.Fits th.engine th.setup.ioDepth slot (holder slot)

variable {th : Thread J G} {holder : ℕ → HolderState J} {slot : ℕ}

omit [OffsetGenerator G] in
theorem releasable_of_rests {e : Engine G} {x : HolderState J} (h : Rests e slot x) :
    Releasable x := by
  by_cases hmem : slot ∈ e.inFlight
  · exact Or.inr (Or.inl (h.1 hmem))
  · exact Or.inl (h.2 hmem)

omit [OffsetGenerator G] in
/-- When `begin` has returned a read or a write, the I/O is in flight; otherwise there is
none. -/
theorem at_of_begun {x : HolderState J} {a : Action} (h : x.begun = some a) :
    (a = .read ∨ a = .write → x.At Stage.Transferring) ∧
      (¬ (a = .read ∨ a = .write) → x.Idle) := by
  cases x with
  | idle o =>
    refine ⟨fun ha => ?_, fun _ => trivial⟩
    cases o with
    | skip => cases h; exact absurd ha (by decide)
    | defer => cases h; exact absurd ha (by decide)
    | done => exact absurd h (by simp [HolderState.begun])
    | verifyFailed => exact absurd h (by simp [HolderState.begun])
  | busy io stage =>
    cases stage with
    | dataRead => cases h; exact ⟨fun _ => trivial, fun ha => absurd (Or.inl rfl) ha⟩
    | dataWrite => cases h; exact ⟨fun _ => trivial, fun ha => absurd (Or.inr rfl) ha⟩
    | _ => exact absurd h (by simp [HolderState.begun])

omit [OffsetGenerator G] in
theorem releasable_of_begun {x : HolderState J} {a : Action} (h : x.begun = some a) :
    Releasable x := by
  by_cases ha : a = .read ∨ a = .write
  · exact Or.inr (Or.inl ((at_of_begun h).1 ha))
  · exact Or.inl ((at_of_begun h).2 ha)

omit [OffsetGenerator G] in
/-- While `begin` runs, it has not returned. -/
theorem begun_of_begins {x : HolderState J} {b : Bool} {a : Action} (h : Begins b x)
    (ha : x.begun = some a) : a = .defer → b = false := by
  rcases h with hat | ⟨a', ha', hdefer⟩
  · cases x with
    | idle => exact absurd hat id
    | busy io stage =>
      cases stage with
      | dataRead => exact absurd hat id
      | dataWrite => exact absurd hat id
      | _ => exact absurd ha (by simp [HolderState.begun])
  · obtain rfl : a' = a := Option.some.inj (ha'.symm.trans ha)
    exact hdefer

/-- The slots beyond the depth are never used. -/
theorem Ok.idle_of_le (h : th.Ok holder) (hslot : th.setup.ioDepth ≤ slot) :
    (holder slot).Idle := by
  have hfits := h.fits slot
  have hpos := th.setup.ioDepth_pos
  have hrests : Rests th.engine slot (holder slot) → (holder slot).Idle := fun hr =>
    hr.2 fun hmem => absurd (h.engine.lt_of_mem hpos hmem) (not_lt.mpr hslot)
  have hcall := h.call
  cases hc : th.call with
  | running =>
    rw [hc] at hfits
    exact hrests hfits
  | beginning sl =>
    rw [hc] at hfits hcall
    obtain ⟨r, hr⟩ := hcall
    have hlt := h.engine.beginCall_lt hpos hr
    exact hrests (hfits.2 (by omega))
  | finishing sl rwRes =>
    rw [hc] at hfits hcall
    have hlt := h.engine.lt_of_mem hpos (Engine.finishCall_mem hcall)
    exact hrests (hfits.2 (by omega))
  | releasing sl =>
    rw [hc] at hfits
    exact hfits.1 (Or.inr hslot)
  | stopped =>
    rw [hc] at hfits
    exact hfits

/-- Unless `begin` runs for it, a holder can be released. -/
theorem Ok.releasable (h : th.Ok holder) (slot : ℕ)
    (hbegin : th.call = .beginning slot → ∃ a, (holder slot).begun = some a) :
    Releasable (holder slot) := by
  have hfits := h.fits slot
  cases hc : th.call with
  | running =>
    rw [hc] at hfits
    exact releasable_of_rests hfits
  | beginning sl =>
    rw [hc] at hfits
    rcases eq_or_ne slot sl with rfl | hne
    · obtain ⟨a, ha⟩ := hbegin hc
      exact releasable_of_begun ha
    · exact releasable_of_rests (hfits.2 hne)
  | finishing sl rwRes =>
    rw [hc] at hfits
    rcases eq_or_ne slot sl with rfl | hne
    · exact (hfits.1 rfl).symm.imp_right Or.inr
    · exact releasable_of_rests (hfits.2 hne)
  | releasing sl =>
    rw [hc] at hfits
    exact hfits.2
  | stopped =>
    rw [hc] at hfits
    exact Or.inl hfits

/-- A thread with releasable holders may leave its engine. -/
theorem ok_releasing {holder' : ℕ → HolderState J} (h : th.Ok holder)
    (hrel : ∀ slot, Releasable (holder' slot))
    (hidle : ∀ slot, th.setup.ioDepth ≤ slot → (holder' slot).Idle) :
    ({ th with call := .releasing 0 } : Thread J G).Ok holder' :=
  ⟨h.engine, trivial, fun slot =>
    ⟨fun hslot => hidle slot (hslot.resolve_left (Nat.not_lt_zero slot)), hrel slot⟩⟩

/-- A thread goes on in an engine that fits its holders. -/
theorem ok_goOnWith {e : Engine G} (h : e.Ok th.setup.cfg th.setup.ioDepth)
    (hrests : ∀ slot, Rests e slot (holder slot)) : (th.goOnWith e).Ok holder := by
  unfold goOnWith
  split_ifs with hended
  · refine ⟨h, trivial, fun slot => ⟨fun hslot => (hrests slot).2 fun hmem => ?_,
      releasable_of_rests (hrests slot)⟩⟩
    have hlt := h.lt_of_mem th.setup.ioDepth_pos hmem
    exact absurd (hslot.resolve_left (Nat.not_lt_zero slot)) (not_le.mpr hlt)
  · exact ⟨h, trivial, hrests⟩

/-- A thread starts its engine while its holders are idle. -/
theorem ok_start {setup : EngineCall J} {p : Progress G} (hidle : ∀ slot, (holder slot).Idle) :
    (start setup p).Ok holder := by
  refine ⟨Engine.ok_start _ _, trivial, fun slot => ⟨fun hmem => ?_, fun _ => hidle slot⟩⟩
  have hnil : (Engine.start setup.isAsync setup.ioDepth p).inFlight = [] := by
    unfold Engine.start
    split_ifs <;> rfl
  exact absurd (hnil ▸ hmem) (by simp)

end Thread

namespace Threads

variable {T J G : Type*} [DecidableEq T] [DecidableEq J] [OffsetGenerator G] {S : Setup J}
  {s s' : Threads T J G} {t : T} {slot : ℕ} {m : Move}

variable (S) in
/-- The guards fit the stages of the holders, and the holders fit their threads. -/
structure Inv (s : Threads T J G) : Prop where
  guarded : World.Guarded S s.world
  threads : ∀ t, (s.thread t).Ok fun slot => s.world.holder (t, slot)

omit [DecidableEq T] [DecidableEq J] in
theorem inv_init (w : World J (T × ℕ)) (setup : T → EngineCall J) (p : T → Progress G) :
    Inv S (init w setup p) :=
  ⟨⟨RangeLocks.inv_empty, fun _ => rfl⟩, fun _ => Thread.ok_start fun _ => trivial⟩

omit [DecidableEq J] in
/-- A step of one thread, and of its holders. -/
theorem Inv.update (hs : Inv S s) {w : World J (T × ℕ)} {th : Thread J G}
    (hg : World.Guarded S w)
    (hother : ∀ t' slot, t' ≠ t → w.holder (t', slot) = s.world.holder (t', slot))
    (hok : th.Ok fun slot => w.holder (t, slot)) :
    Inv S ({ s with world := w }.setThread t th) := by
  refine ⟨hg, fun t' => ?_⟩
  rcases eq_or_ne t' t with rfl | hne
  · rw [setThread_thread_self]
    exact hok
  · rw [setThread_thread_of_ne _ hne]
    have hold := hs.threads t'
    rw [show (fun slot => s.world.holder (t', slot)) = fun slot => w.holder (t', slot) from
      funext fun slot => (hother t' slot hne).symm] at hold
    exact hold

omit [DecidableEq J] in
/-- A step of one thread alone. -/
theorem Inv.setThread (hs : Inv S s) {th : Thread J G}
    (hok : th.Ok fun slot => s.world.holder (t, slot)) : Inv S (s.setThread t th) :=
  hs.update hs.guarded (fun _ _ _ => rfl) hok

/-! ## Steps -/

/-- The call of `journalBeginIO`. -/
theorem Inv.callBegin (hs : Inv S s) {r : Request} (hcall : (s.thread t).call = .running)
    (hbegin : (s.thread t).engine.beginCall (s.thread t).setup.cfg = some (slot, r))
    {w : World J (T × ℕ)} (hw : s.journalBeginIO S t slot r = some w) :
    Inv S ({ s with world := w }.setThread t { s.thread t with call := .beginning slot }) := by
  have hok := hs.threads t
  unfold journalBeginIO at hw
  cases hd : r.decision with
  | plain isRead => simp [hd] at hw
  | journaled intent =>
    simp only [hd, World.step] at hw
    cases hh : s.world.holder (t, slot) with
    | busy io stage => simp [hh] at hw
    | idle o =>
      simp only [hh] at hw
      obtain ⟨hg, stage, hbusy, hbeginning⟩ := hs.guarded.beginRequest hw
      have hother := (World.sameData_beginRequest hw).holder
      refine hs.update hg (fun t' slot' hne => hother _ fun heq => hne (congrArg Prod.fst heq))
        ⟨hok.engine, ⟨r, hbegin⟩, fun slot' => ⟨?_, fun hne => ?_⟩⟩
      · rintro rfl
        refine Or.inl ?_
        dsimp only
        rw [hbusy]
        exact hbeginning
      · have hfits := hok.fits slot'
        rw [hcall] at hfits
        dsimp only
        rw [hother _ fun heq => hne (congrArg Prod.snd heq)]
        exact hfits

omit [DecidableEq J] in
/-- The return of `journalBeginIO`. -/
theorem Inv.returnBegin [LawfulOffsetGenerator G] (hs : Inv S s) {a : Action} {e : Engine G}
    (hcall : (s.thread t).call = .beginning slot)
    (hbegun : (s.world.holder (t, slot)).begun = some a)
    (he : (s.thread t).engine.begun (s.thread t).setup.cfg a = some e) :
    Inv S (s.setThread t ((s.thread t).goOnWith e)) := by
  have hok := hs.threads t
  have hnext := hok.call
  rw [hcall] at hnext
  obtain ⟨r, hr⟩ := hnext
  have hfits := hok.fits
  rw [hcall] at hfits
  have hdefer : a = .defer → (s.thread t).engine.journalNumGuardsHeld ≠ 0 := fun ha =>
    of_decide_eq_false (Thread.begun_of_begins ((hfits slot).1 rfl) hbegun ha)
  obtain ⟨hengine, hmem⟩ := hok.engine.begun (s.thread t).setup.journalEnabled hr hdefer he
  refine hs.setThread (Thread.ok_goOnWith hengine fun slot' => ?_)
  rcases eq_or_ne slot' slot with rfl | hne
  · have hnot := hok.engine.beginCall_notMem hr
    have hiff : slot' ∈ e.inFlight ↔ a = .read ∨ a = .write := by
      rw [hmem]
      simp [hnot]
    exact ⟨fun hin => (Thread.at_of_begun hbegun).1 (hiff.mp hin),
      fun hout => (Thread.at_of_begun hbegun).2 fun ha => hout (hiff.mpr ha)⟩
  · have hiff : slot' ∈ e.inFlight ↔ slot' ∈ (s.thread t).engine.inFlight := by
      rw [hmem]
      simp [hne]
    have hrests := (hfits slot').2 hne
    exact ⟨fun hin => hrests.1 (hiff.mp hin), fun hout => hrests.2 fun hin => hout (hiff.mpr hin)⟩

omit [DecidableEq J] in
/-- The return of `journalCommitIO` or `journalReleaseIO`. -/
theorem Inv.returnFinish (hs : Inv S s) {rwRes : ℤ} {e : Engine G}
    (hcall : (s.thread t).call = .finishing slot rwRes)
    (hidle : (s.world.holder (t, slot)).Idle)
    (he : (s.thread t).engine.finished (s.thread t).setup.cfg rwRes = some e) :
    Inv S (s.setThread t ((s.thread t).goOnWith e)) := by
  have hok := hs.threads t
  have hnext := hok.call
  rw [hcall] at hnext
  have hfits := hok.fits
  rw [hcall] at hfits
  obtain ⟨hengine, hmem⟩ := hok.engine.finished hnext he
  refine hs.setThread (Thread.ok_goOnWith hengine fun slot' => ?_)
  rcases eq_or_ne slot' slot with rfl | hne
  · exact ⟨fun hin => absurd rfl ((hmem slot').mp hin).2, fun _ => hidle⟩
  · have hrests := (hfits slot').2 hne
    exact ⟨fun hin => hrests.1 ((hmem slot').mp hin).1,
      fun hout => hrests.2 fun hin => hout ((hmem slot').mpr ⟨hin, hne⟩)⟩

omit [DecidableEq J] in
/-- A thread leaves its engine, unless it is inside of `begin`. -/
theorem Inv.leave (hs : Inv S s)
    (hbegin : ∀ slot, (s.thread t).call = .beginning slot →
      ∃ a, (s.world.holder (t, slot)).begun = some a) :
    Inv S (s.setThread t { s.thread t with call := .releasing 0 }) :=
  have hok := hs.threads t
  hs.setThread (Thread.ok_releasing hok (fun slot => hok.releasable slot (hbegin slot))
    fun _ hslot => hok.idle_of_le hslot)

/-- A move of one holder, after which it fits the call that the thread is in then. -/
theorem Inv.moved (hs : Inv S s) {io : JournalBlockIO J} {stage : Stage} {w : World J (T × ℕ)}
    {call : Call} (hm : s.world.move S (t, slot) io stage m = some w)
    (hg : World.Guarded S w) (hnext : call.IsNext (s.thread t).setup.cfg (s.thread t).engine)
    (hself : call.Fits (s.thread t).engine (s.thread t).setup.ioDepth slot (w.holder (t, slot)))
    (hrest : ∀ slot', slot' ≠ slot →
      call.Fits (s.thread t).engine (s.thread t).setup.ioDepth slot'
        (s.world.holder (t, slot'))) :
    Inv S ({ s with world := w }.setThread t { s.thread t with call := call }) := by
  have hother : ∀ i, i ≠ (t, slot) → w.holder i = s.world.holder i := fun i hi =>
    World.holder_move_of_ne hm hi
  refine hs.update hg (fun t' slot' hne => hother _ fun heq => hne (congrArg Prod.fst heq))
    ⟨(hs.threads t).engine, hnext, fun slot' => ?_⟩
  rcases eq_or_ne slot' slot with rfl | hne
  · exact hself
  · dsimp only
    rw [hother _ fun heq => hne (congrArg Prod.snd heq)]
    exact hrest slot' hne

/-- The call of `journalCommitIO` or `journalReleaseIO`. -/
theorem Inv.callFinish (hs : Inv S s) {rwRes : ℤ} {io : JournalBlockIO J} {stage : Stage}
    (hcall : (s.thread t).call = .running) (hfinish : (s.thread t).engine.finishCall = some slot)
    (hend : m = .ioDone ∨ m = .ioFail) (hbusy : s.world.holder (t, slot) = .busy io stage)
    {w : World J (T × ℕ)} (hm : s.world.move S (t, slot) io stage m = some w) :
    Inv S ({ s with world := w }.setThread t { s.thread t with call := .finishing slot rwRes }) := by
  have hfits := (hs.threads t).fits
  rw [hcall] at hfits
  have hat := (hfits slot).1 (Engine.finishCall_mem hfinish)
  rw [hbusy] at hat
  obtain ⟨hg, io', stage', hbusy', hcase⟩ := hs.guarded.transfer_move hbusy hat hm
  refine hs.moved hm hg hfinish ⟨fun _ => Or.inl ?_, fun hne => absurd rfl hne⟩
    fun slot' hne => ⟨fun heq => absurd heq hne, fun _ => hfits slot'⟩
  rw [hbusy']
  rcases hcase with ⟨-, hdone, hfail⟩ | ⟨hfin, -⟩
  · exact absurd hend (not_or.mpr ⟨hdone, hfail⟩)
  · exact hfin

omit [OffsetGenerator G] in
/-- A move of a slot that rests only moves data. -/
theorem rests_move {e : Engine G} {io : JournalBlockIO J} {stage : Stage} {w : World J (T × ℕ)}
    (hg : World.Guarded S s.world) (hbusy : s.world.holder (t, slot) = .busy io stage)
    (hr : Rests e slot (s.world.holder (t, slot))) (hdone : m ≠ .ioDone) (hfail : m ≠ .ioFail)
    (hm : s.world.move S (t, slot) io stage m = some w) :
    World.Guarded S w ∧ Rests e slot (w.holder (t, slot)) := by
  have hmem : slot ∈ e.inFlight := by
    by_contra hnot
    have hidle := hr.2 hnot
    rw [hbusy] at hidle
    exact hidle
  have hat := hr.1 hmem
  rw [hbusy] at hat
  obtain ⟨hg', io', stage', hbusy', hcase⟩ := hg.transfer_move hbusy hat hm
  refine ⟨hg', fun _ => ?_, fun hnot => absurd hmem hnot⟩
  rw [hbusy']
  rcases hcase with ⟨rfl, -⟩ | ⟨-, hend⟩
  · exact hat
  · exact absurd hend (not_or.mpr ⟨hdone, hfail⟩)

/-- The failure of an `msync` in a call. -/
theorem Inv.syncFail (hs : Inv S s) {io : JournalBlockIO J} {stage : Stage}
    (hslot : (s.thread t).call.slot = some slot)
    (hbusy : s.world.holder (t, slot) = .busy io stage) {w : World J (T × ℕ)}
    (hm : s.world.move S (t, slot) io stage .syncFail = some w) :
    Inv S ({ s with world := w }.setThread t { s.thread t with call := .releasing 0 }) := by
  have hok := hs.threads t
  obtain ⟨hg, hbusy'⟩ := hs.guarded.syncFail_move hbusy hm
  refine hs.moved hm hg trivial ⟨fun hout => ?_, Or.inr (Or.inr ?_)⟩ fun slot' hne => ⟨fun hout => ?_, ?_⟩
  · have hidle := hok.idle_of_le (hout.resolve_left (Nat.not_lt_zero slot))
    rw [hbusy] at hidle
    exact absurd hidle id
  · rw [hbusy']
    trivial
  · exact hok.idle_of_le (hout.resolve_left (Nat.not_lt_zero slot'))
  · refine hok.releasable slot' fun hcall => absurd ?_ hne
    rw [hcall] at hslot
    exact Option.some.inj hslot

omit [OffsetGenerator G] in
/-- A move of the holder that `journalBeginIO` is called for. -/
theorem begins_move {b : Bool} {io : JournalBlockIO J} {stage : Stage} {w : World J (T × ℕ)}
    (hg : World.Guarded S s.world) (hbusy : s.world.holder (t, slot) = .busy io stage)
    (hb : Begins b (s.world.holder (t, slot))) (hdone : m ≠ .ioDone) (hfail : m ≠ .ioFail)
    (hsync : m ≠ .syncFail) (hm : s.world.move S (t, slot) io stage m = some w) :
    World.Guarded S w ∧ Begins b (w.holder (t, slot)) := by
  rcases hb with hat | ⟨a, ha, hdefer⟩
  · rw [hbusy] at hat
    obtain ⟨hg', ⟨io', stage', hbusy', hat'⟩ | hbegun⟩ := hg.begin_move hbusy hat hsync hm
    · refine ⟨hg', Or.inl ?_⟩
      rw [hbusy']
      exact hat'
    · exact ⟨hg', Or.inr hbegun⟩
  · have hat : stage.Transferring := by
      have hreturned := Thread.at_of_begun ha
      rw [hbusy] at hreturned
      by_cases hrw : a = .read ∨ a = .write
      · exact hreturned.1 hrw
      · exact absurd (hreturned.2 hrw) id
    obtain ⟨hg', io', stage', hbusy', ⟨rfl, -⟩ | ⟨-, hend⟩⟩ := hg.transfer_move hbusy hat hm
    · refine ⟨hg', Or.inr ⟨a, ?_, hdefer⟩⟩
      rw [hbusy] at ha
      rw [hbusy', ← ha]
      cases stage' <;> rfl
    · exact absurd hend (not_or.mpr ⟨hdone, hfail⟩)

omit [OffsetGenerator G] in
/-- A move of a holder in the destructor of `JournalSlotsReleaser`. -/
theorem releasable_move {io : JournalBlockIO J} {stage : Stage} {w : World J (T × ℕ)}
    (hg : World.Guarded S s.world) (hbusy : s.world.holder (t, slot) = .busy io stage)
    (hr : Releasable (s.world.holder (t, slot)))
    (hm : s.world.move S (t, slot) io stage m = some w) :
    World.Guarded S w ∧ Releasable (w.holder (t, slot)) := by
  rw [hbusy] at hr
  rcases hr with hidle | hat | hat
  · exact absurd hidle id
  · obtain ⟨hg', io', stage', hbusy', ⟨rfl, -⟩ | ⟨hat', -⟩⟩ := hg.transfer_move hbusy hat hm
    · refine ⟨hg', Or.inr (Or.inl ?_)⟩
      rw [hbusy']
      exact hat
    · refine ⟨hg', Or.inr (Or.inr ?_)⟩
      rw [hbusy']
      exact hat'
  · obtain ⟨hg', ⟨io', stage', hbusy', hat'⟩ | ⟨o, hidle⟩⟩ := hg.finish_move hbusy hat hm
    · refine ⟨hg', Or.inr (Or.inr ?_)⟩
      rw [hbusy']
      exact hat'
    · refine ⟨hg', Or.inl ?_⟩
      rw [hidle]
      trivial

/-- **A move of a holder** keeps its thread in order. -/
theorem Inv.journal (hs : Inv S s) {io : JournalBlockIO J} {stage : Stage}
    (hperm : (s.thread t).call.Permits slot m)
    (hbusy : s.world.holder (t, slot) = .busy io stage) {w : World J (T × ℕ)}
    (hm : s.world.move S (t, slot) io stage m = some w) :
    Inv S ({ s with world := w }.setThread t
      { s.thread t with call := (s.thread t).call.after m }) := by
  have hok := hs.threads t
  by_cases hsync : m = .syncFail
  · subst hsync
    have hslot := (hperm.resolve_left (by decide)).1
    exact hs.syncFail hslot hbusy hm
  rw [show (s.thread t).call.after m = (s.thread t).call by
    cases m <;> first | rfl | exact absurd rfl hsync]
  have hfits := hok.fits
  have hnext := hok.call
  cases hcall : (s.thread t).call with
  | running =>
    rw [hcall] at hfits hnext hperm
    obtain ⟨hdone, hfail⟩ := hperm.ne rfl
    obtain ⟨hg, hr⟩ := rests_move hs.guarded hbusy (hfits slot) hdone hfail hm
    exact hs.moved hm hg hnext hr fun slot' _ => hfits slot'
  | beginning sl =>
    rw [hcall] at hfits hnext hperm
    obtain ⟨hdone, hfail⟩ := hperm.ne rfl
    rcases eq_or_ne slot sl with rfl | hne
    · obtain ⟨hg, hb⟩ := begins_move hs.guarded hbusy ((hfits slot).1 rfl) hdone hfail hsync hm
      exact hs.moved hm hg hnext ⟨fun _ => hb, fun hne => absurd rfl hne⟩ fun slot' _ => hfits slot'
    · obtain ⟨hg, hr⟩ := rests_move hs.guarded hbusy ((hfits slot).2 hne) hdone hfail hm
      exact hs.moved hm hg hnext ⟨fun heq => absurd heq hne, fun _ => hr⟩ fun slot' _ => hfits slot'
  | finishing sl rwRes =>
    rw [hcall] at hfits hnext hperm
    obtain ⟨hdone, hfail⟩ := hperm.ne rfl
    rcases eq_or_ne slot sl with rfl | hne
    · have hat := (hfits slot).1 rfl
      rw [hbusy] at hat
      obtain ⟨hg, hcase⟩ := hs.guarded.finish_move hbusy (hat.resolve_right id) hm
      refine hs.moved hm hg hnext ⟨fun _ => ?_, fun hne => absurd rfl hne⟩ fun slot' _ => hfits slot'
      rcases hcase with ⟨io', stage', hbusy', hat'⟩ | ⟨o, hidle⟩
      · rw [hbusy']
        exact Or.inl hat'
      · rw [hidle]
        exact Or.inr trivial
    · obtain ⟨hg, hr⟩ := rests_move hs.guarded hbusy ((hfits slot).2 hne) hdone hfail hm
      exact hs.moved hm hg hnext ⟨fun heq => absurd heq hne, fun _ => hr⟩ fun slot' _ => hfits slot'
  | releasing sl =>
    rw [hcall] at hfits hnext
    obtain ⟨hg, hr⟩ := releasable_move hs.guarded hbusy (hfits slot).2 hm
    refine hs.moved hm hg hnext ⟨fun hout => ?_, hr⟩ fun slot' _ => hfits slot'
    have hidle := (hfits slot).1 hout
    rw [hbusy] at hidle
    exact absurd hidle id
  | stopped =>
    rw [hcall] at hfits
    have hidle := hfits slot
    rw [hbusy] at hidle
    exact absurd hidle id

/-- **Every step keeps the threads in order.** -/
theorem Inv.step [LawfulOffsetGenerator G] (hs : Inv S s) {a : ThreadAction T J G}
    (h : s.step S a = some s') : Inv S s' := by
  cases a with
  | callBegin t =>
    simp only [Threads.step] at h
    split at h
    · rename_i slot r hcall hbegin
      obtain ⟨w, hw, rfl⟩ := Option.map_eq_some_iff.mp h
      exact hs.callBegin hcall hbegin hw
    · cases h
  | returnBegin t =>
    simp only [Threads.step] at h
    split at h
    · rename_i slot hcall
      split at h
      · rename_i a hbegun
        obtain ⟨e, he, rfl⟩ := Option.map_eq_some_iff.mp h
        exact hs.returnBegin hcall hbegun he
      · cases h
    · cases h
  | callFinish t rwRes m =>
    simp only [Threads.step] at h
    split at h
    · rename_i slot hcall hfinish
      split_ifs at h with hend
      obtain ⟨w, hw, rfl⟩ := Option.map_eq_some_iff.mp h
      simp only [World.step] at hw
      split at hw
      · cases hw
      · rename_i io stage hbusy
        exact hs.callFinish hcall hfinish hend hbusy hw
    · cases h
  | returnFinish t =>
    simp only [Threads.step] at h
    split at h
    · rename_i slot rwRes hcall
      split at h
      · cases h
        exact hs.leave fun slot' hbegin => absurd (hcall.symm.trans hbegin) (by simp)
      · rename_i hidle
        obtain ⟨e, he, rfl⟩ := Option.map_eq_some_iff.mp h
        exact hs.returnFinish hcall (by rw [hidle]; trivial) he
      · cases h
    · cases h
  | goOn t i =>
    simp only [Threads.step] at h
    split at h
    · rename_i hcall
      obtain ⟨e, he, rfl⟩ := Option.map_eq_some_iff.mp h
      have hok := hs.threads t
      have hfits := hok.fits
      rw [hcall] at hfits
      obtain ⟨hengine, hsame, -⟩ := hok.engine.goOn he
      refine hs.setThread (Thread.ok_goOnWith hengine fun slot => ?_)
      have hrests : Rests (s.thread t).engine slot (s.world.holder (t, slot)) := hfits slot
      unfold Rests at hrests ⊢
      rw [hsame]
      exact hrests
    · cases h
  | throws t =>
    simp only [Threads.step] at h
    split at h
    · rename_i hcall
      cases h
      exact hs.leave fun slot hbegin => absurd (hcall.symm.trans hbegin) (by simp)
    · rename_i slot hcall
      split at h
      · rename_i a hbegun
        cases h
        refine hs.leave fun slot' hbegin => ⟨a, ?_⟩
        obtain rfl : slot = slot' := by simpa using hcall.symm.trans hbegin
        exact hbegun
      · cases h
    · cases h
  | releaseNext t =>
    have hok := hs.threads t
    have hfits := hok.fits
    simp only [Threads.step] at h
    split at h
    · rename_i slot hcall
      rw [hcall] at hfits
      split_ifs at h with hlt
      · split at h
        · rename_i o hidle
          cases h
          refine hs.setThread ⟨hok.engine, trivial, fun slot' => ⟨fun hout => ?_, (hfits slot').2⟩⟩
          rcases eq_or_ne slot' slot with rfl | hne
          · rw [hidle]
            trivial
          · exact (hfits slot').1 (hout.imp_left fun hle => by omega)
        · cases h
      · cases h
        refine hs.setThread ⟨hok.engine, trivial, fun slot' => (hfits slot').1 ?_⟩
        rcases lt_or_ge slot' (s.thread t).setup.ioDepth with hin | hout
        · exact Or.inl (lt_of_lt_of_le hin (not_lt.mp hlt))
        · exact Or.inr hout
    · cases h
  | journal t slot m =>
    simp only [Threads.step] at h
    split_ifs at h with hperm
    obtain ⟨w, hw, rfl⟩ := Option.map_eq_some_iff.mp h
    simp only [World.step] at hw
    split at hw
    · cases hw
    · rename_i io stage hbusy
      exact hs.journal hperm hbusy hw
  | nextCall t setup p =>
    have hfits := (hs.threads t).fits
    simp only [Threads.step] at h
    split at h
    · rename_i hcall
      cases h
      rw [hcall] at hfits
      exact hs.setThread (Thread.ok_start hfits)
    · cases h
  | writeBack k page =>
    cases h
    exact ⟨hs.guarded.of_same rfl rfl rfl, hs.threads⟩

/-- **The invariant holds in every run.** -/
theorem inv_of_reach [LawfulOffsetGenerator G] {w : World J (T × ℕ)} {setup : T → EngineCall J}
    {p : T → Progress G} (hreach : Reach (Threads.step S) anyStep (init w setup p) s) : Inv S s :=
  hreach.invariant (inv_init w setup p) fun _ _ _ hs _ h => hs.step h

/-! ## Waiting -/

omit [DecidableEq T] [DecidableEq J] in
/-- **A thread that blocks holds no guard.**  A guard that may block belongs to the slot
that `journalBeginIO` is called for, no I/O of the thread is in flight, and its other
guards are free. -/
theorem Inv.alone (hs : Inv S s) {got todo : List Stripe} {e : Bool}
    (hguard : s.world.locks.table.guard (t, slot) = .acquiring got todo e true) :
    (s.thread t).call = .beginning slot ∧ (s.thread t).engine.inFlight = [] ∧
      ∀ slot', slot' ≠ slot → s.world.locks.table.guard (t, slot') = .free := by
  have hok := hs.threads t
  obtain ⟨io, stage, hbusy, hstage⟩ := hs.guarded.acquiring hguard
  -- the stage is one of `begin` and of nothing else
  have hbegin : ∀ b, stage.Beginning b → b = true := by
    rintro b hb
    rcases hstage with ⟨intent, rfl⟩ | rfl
    · exact (hb : true = b).symm
    · exact (hb : true = b).symm
  have hnot : ¬ stage.Transferring ∧ ¬ stage.Finishing ∧
      (HolderState.busy io stage).begun = none := by
    rcases hstage with ⟨intent, rfl⟩ | rfl
    · exact ⟨id, id, rfl⟩
    · exact ⟨id, id, rfl⟩
  have hfits := hok.fits
  have hrests : ¬ Rests (s.thread t).engine slot (s.world.holder (t, slot)) := by
    intro hr
    rw [hbusy] at hr
    by_cases hmem : slot ∈ (s.thread t).engine.inFlight
    · exact hnot.1 (hr.1 hmem)
    · exact hr.2 hmem
  cases hcall : (s.thread t).call with
  | running =>
    rw [hcall] at hfits
    exact absurd (hfits slot) hrests
  | beginning sl =>
    rw [hcall] at hfits
    obtain rfl : slot = sl := by
      by_contra hne
      exact hrests ((hfits slot).2 hne)
    have hzero : (s.thread t).engine.journalNumGuardsHeld = 0 := by
      have hb := (hfits slot).1 rfl
      rw [hbusy] at hb
      rcases hb with hat | ⟨a, ha, -⟩
      · exact of_decide_eq_true (hbegin _ hat)
      · exact absurd (hnot.2.2.symm.trans ha) (by simp)
    have hnil : (s.thread t).engine.inFlight = [] := by
      rw [hok.engine.guards (s.thread t).setup.journalEnabled] at hzero
      exact List.length_eq_zero_iff.mp hzero
    refine ⟨rfl, hnil, fun slot' hne => ?_⟩
    have hidle := ((hfits slot').2 hne).2 (by rw [hnil]; exact List.not_mem_nil)
    have hguard' := hs.guarded.fits (t, slot')
    cases hh : s.world.holder (t, slot') with
    | idle o =>
      rw [hh] at hguard'
      exact hguard'
    | busy io' stage' =>
      rw [hh] at hidle
      exact absurd hidle id
  | finishing sl rwRes =>
    rw [hcall] at hfits
    rcases eq_or_ne slot sl with rfl | hne
    · have hat := (hfits slot).1 rfl
      rw [hbusy] at hat
      exact absurd (hat.resolve_right id) hnot.2.1
    · exact absurd ((hfits slot).2 hne) hrests
  | releasing sl =>
    rw [hcall] at hfits
    have hr := (hfits slot).2
    rw [hbusy] at hr
    rcases hr with hidle | hat | hat
    · exact absurd hidle id
    · exact absurd hat hnot.1
    · exact absurd hat hnot.2.1
  | stopped =>
    rw [hcall] at hfits
    have hidle := hfits slot
    rw [hbusy] at hidle
    exact absurd hidle id

omit [DecidableEq T] [DecidableEq J] in
/-- The discipline of waiting. -/
theorem Inv.orderedWaits (hs : Inv S s) :
    OrderedWaits (Prod.fst : T × ℕ → T) s.world.locks.table where
  ascending h got todo e b hguard := by
    obtain ⟨r, -, -, hplan⟩ := hs.guarded.locks.planned h (got ++ todo) (by rw [hguard]; rfl)
    rw [hplan]
    exact rangeStripes_pairwise _ _ _
  alone h got todo e hguard h' hparty hne := by
    obtain ⟨t, slot⟩ := h
    obtain ⟨t', slot'⟩ := h'
    obtain rfl : t' = t := hparty
    have hslot : slot' ≠ slot := fun heq => hne (by rw [heq])
    rw [(hs.alone hguard).2.2 slot' hslot]
    rfl

/-! ## Deferred I/Os -/

/-- The I/O of a thread whose locks were not available. -/
def deferred (s : Threads T J G) (t : T) : Option Request :=
  (s.thread t).engine.deferred (s.thread t).setup.cfg

omit [DecidableEq J] [OffsetGenerator G] in
/-- A thread that keeps its engine keeps its deferred I/O, and so do the others. -/
theorem deferred_setThread {w : World J (T × ℕ)} {th : Thread J G} (t' : T)
    (hdeferred : th.engine.deferred th.setup.cfg = s.deferred t) :
    ({ s with world := w }.setThread t th).deferred t' = s.deferred t' := by
  unfold deferred at hdeferred ⊢
  rcases eq_or_ne t' t with rfl | hne
  · rw [setThread_thread_self]
    exact hdeferred
  · rw [setThread_thread_of_ne _ hne]

/-- **A deferred I/O stays the same** until `journalBeginIO` has returned again. -/
theorem Inv.deferred_step (hs : Inv S s) {a : ThreadAction T J G} (h : s.step S a = some s')
    (t : T) : s'.deferred t = s.deferred t ∨ a = .returnBegin t ∨
      ∃ setup p, a = .nextCall t setup p := by
  cases a with
  | callBegin t₀ =>
    simp only [Threads.step] at h
    split at h
    · obtain ⟨w, -, rfl⟩ := Option.map_eq_some_iff.mp h
      exact Or.inl (deferred_setThread t (by rfl))
    · cases h
  | returnBegin t₀ =>
    simp only [Threads.step] at h
    split at h
    · split at h
      · obtain ⟨e, -, rfl⟩ := Option.map_eq_some_iff.mp h
        rcases eq_or_ne t t₀ with rfl | hne
        · exact Or.inr (Or.inl rfl)
        · left
          unfold deferred
          rw [setThread_thread_of_ne _ hne]
      · cases h
    · cases h
  | callFinish t₀ rwRes m =>
    simp only [Threads.step] at h
    split at h
    · split_ifs at h
      obtain ⟨w, -, rfl⟩ := Option.map_eq_some_iff.mp h
      exact Or.inl (deferred_setThread t (by rfl))
    · cases h
  | returnFinish t₀ =>
    have hnext := (hs.threads t₀).call
    simp only [Threads.step] at h
    split at h
    · rename_i slot rwRes hcall
      rw [hcall] at hnext
      split at h
      · cases h
        exact Or.inl (deferred_setThread t (by rfl))
      · obtain ⟨e, he, rfl⟩ := Option.map_eq_some_iff.mp h
        exact Or.inl (deferred_setThread t (by exact Engine.deferred_finished hnext he))
      · cases h
    · cases h
  | goOn t₀ i =>
    simp only [Threads.step] at h
    split at h
    · obtain ⟨e, he, rfl⟩ := Option.map_eq_some_iff.mp h
      exact Or.inl (deferred_setThread t (by exact ((hs.threads t₀).engine.goOn he).2.2))
    · cases h
  | throws t₀ =>
    simp only [Threads.step] at h
    split at h
    · cases h
      exact Or.inl (deferred_setThread t (by rfl))
    · split at h
      · cases h
        exact Or.inl (deferred_setThread t (by rfl))
      · cases h
    · cases h
  | releaseNext t₀ =>
    simp only [Threads.step] at h
    split at h
    · split_ifs at h
      · split at h
        · cases h
          exact Or.inl (deferred_setThread t (by rfl))
        · cases h
      · cases h
        exact Or.inl (deferred_setThread t (by rfl))
    · cases h
  | journal t₀ slot m =>
    simp only [Threads.step] at h
    split_ifs at h
    obtain ⟨w, -, rfl⟩ := Option.map_eq_some_iff.mp h
    exact Or.inl (deferred_setThread t (by rfl))
  | nextCall t₀ setup p =>
    simp only [Threads.step] at h
    split at h
    · cases h
      rcases eq_or_ne t t₀ with rfl | hne
      · exact Or.inr (Or.inr ⟨setup, p, rfl⟩)
      · left
        unfold deferred
        rw [setThread_thread_of_ne _ hne]
    · cases h
  | writeBack k page =>
    cases h
    exact Or.inl rfl

omit [DecidableEq T] [DecidableEq J] in
/-- **A deferral has an I/O to wait for.**  If `begin` returns `ACTION_DEFER`, the thread
has an I/O in flight. -/
theorem Inv.inFlight_of_defer (hs : Inv S s) (hcall : (s.thread t).call = .beginning slot)
    (hdefer : (s.world.holder (t, slot)).begun = some .defer) :
    (s.thread t).engine.inFlight ≠ [] := by
  have hfits := (hs.threads t).fits
  rw [hcall] at hfits
  have hguards : ¬ (s.thread t).engine.journalNumGuardsHeld = 0 :=
    of_decide_eq_false (Thread.begun_of_begins ((hfits slot).1 rfl) hdefer rfl)
  intro hnil
  rw [(hs.threads t).engine.guards (s.thread t).setup.journalEnabled, hnil] at hguards
  exact hguards rfl

variable (S) in
/-- What deadlock freedom says about one state. -/
structure DeadlockFree (s : Threads T J G) : Prop where
  /-- No set of threads waits for the locks of its own members only. -/
  noCircularWait : ∀ K : Set T, K.Nonempty →
    ¬ ∀ t ∈ K, ∃ t' ∈ K, BlockedBy Prod.fst s.world.locks.table t t'
  /-- From a waiting thread the chain of the threads in its way ends at one that does not
  wait. -/
  waitEnds : ∀ t, Waits Prod.fst s.world.locks.table t →
    ∃ t', Relation.TransGen (BlockedBy Prod.fst s.world.locks.table) t t' ∧
      ¬ Waits Prod.fst s.world.locks.table t'
  /-- A thread only blocks while it has no I/O in flight and no other guard. -/
  blocksAlone : ∀ t slot got todo e,
    s.world.locks.table.guard (t, slot) = .acquiring got todo e true →
    (s.thread t).engine.inFlight = [] ∧
      ∀ slot', slot' ≠ slot → s.world.locks.table.guard (t, slot') = .free
  /-- A conversion of a shared guard has released it before it asks for the exclusive one. -/
  convertsFree : ∀ h io mayBlock, s.world.holder h = .busy io (.upgrade mayBlock) →
    s.world.locks.table.guard h = .free
  /-- `ACTION_DEFER` is only returned to a thread with an I/O in flight, ... -/
  deferInFlight : ∀ t slot, (s.thread t).call = .beginning slot →
    (s.world.holder (t, slot)).begun = some .defer → (s.thread t).engine.inFlight ≠ []
  /-- ... which keeps the draw until `journalBeginIO` returns for it again, ... -/
  deferredKept : ∀ t a s', s.step S a = some s' → s'.deferred t = s.deferred t ∨
    a = .returnBegin t ∨ ∃ setup p, a = .nextCall t setup p
  /-- ... has an I/O in flight while it waits for completions, and retries after them. -/
  deferredRetried : ∀ t r, s.deferred t = some r →
    ((s.thread t).engine.Waiting → (s.thread t).engine.inFlight ≠ []) ∧
    ((s.thread t).engine.Filling → ∃ slot,
      (s.thread t).engine.beginCall (s.thread t).setup.cfg = some (slot, r))

/-- The invariant implies deadlock freedom. -/
theorem Inv.deadlockFree (hs : Inv S s) : DeadlockFree S s where
  noCircularWait K hK hcirc := not_circularWait hs.orderedWaits K hK hcirc
  waitEnds _ hw := exists_running_of_waits hs.guarded.locks.coherent hs.orderedWaits hw
  blocksAlone _ _ _ _ _ hguard := (hs.alone hguard).2
  convertsFree _ _ _ hbusy := hs.guarded.guardOk hbusy
  deferInFlight _ _ hcall hdefer := hs.inFlight_of_defer hcall hdefer
  deferredKept t _ _ hstep := hs.deferred_step hstep t
  deferredRetried t _ hr := ⟨(hs.threads t).engine.inFlight_ne_nil,
    (hs.threads t).engine.beginCall_of_deferred (s.thread t).setup.journalEnabled hr⟩

end Threads

/-- **Journaled I/O is free of deadlocks.**  Any number of threads, each with either
engine, any depth and any generator of offsets, on any number of journals with any cells:
no reachable state has a set of threads that wait for each other's journal locks. -/
theorem journaledThreads_deadlockFree {T J G : Type*} [DecidableEq T] [DecidableEq J]
    [OffsetGenerator G] [LawfulOffsetGenerator G] (S : Setup J) (w : World J (T × ℕ))
    (setup : T → EngineCall J) (p : T → Progress G) (s : Threads T J G)
    (hreach : Reach (Threads.step S) anyStep (Threads.init w setup p) s) :
    s.DeadlockFree S :=
  (Threads.inv_of_reach hreach).deadlockFree

/-! ### Two threads on one stripe -/

/-- The journal of two blocks, for all files. -/
def twoBlockSetup : Setup Unit where
  journal := fun _ => twoBlockJournal
  pageSize := 4096
  pageSize_pos := Word64.page_pos

/-- A region of this run has two blocks, so block 0 and block 1 have the same stripe. -/
def twoBlockWorld : World Unit (Bool × ℕ) :=
  .init ⟨8192, false, by decide⟩ fun _ _ => 0#8

/-- The first thread is asynchronous with two slots, the second one synchronous. -/
def twoBlockCall (isSync : Bool) : EngineCall Unit where
  cfg := twoBlockWriter
  isAsync := !isSync
  ioDepth := if isSync then 1 else 2
  journalPtrVec := fun _ => ()
  journalEnabled := rfl
  ioDepth_pos := by cases isSync <;> decide

/-- Both threads write the two blocks one after the other. -/
def twoBlockProgress : Progress OffsetGenSequential where
  gen := .make 8192 0 (.single 4096 Word64.page_pos Word64.page_lt_size) fun _ => 0#64
  numIOPSSubmitted := 0

/-- The first thread submits block 0 and is deferred for block 1, the second one then
blocks for block 0. -/
def deferAndBlock : List (ThreadAction Bool Unit OffsetGenSequential) :=
  [.callBegin false, .journal false 0 .lock, .journal false 0 .advance, .journal false 0 .advance,
    .journal false 0 .advance, .returnBegin false, .callBegin false, .journal false 1 .refuse,
    .returnBegin false, .callBegin true]

theorem deadlockFree_deferAndBlock :
    ∃ s : Threads Bool Unit OffsetGenSequential,
      Reach (Threads.step twoBlockSetup) anyStep
        (Threads.init twoBlockWorld twoBlockCall fun _ => twoBlockProgress) s ∧
      Waits Prod.fst s.world.locks.table true ∧ (s.deferred false).isSome ∧
      s.DeadlockFree twoBlockSetup := by
  obtain ⟨s, hrun, hwaits, hdeferred⟩ : ∃ s, runTrace (Threads.step twoBlockSetup)
      (Threads.init twoBlockWorld twoBlockCall fun _ => twoBlockProgress) deferAndBlock = some s ∧
      Waits Prod.fst s.world.locks.table true ∧ (s.deferred false).isSome :=
    ⟨_, rfl, ⟨(true, 0), _, rfl, [], [], true, rfl, by decide⟩, rfl⟩
  have hreach := reach_of_runTrace (Threads.step twoBlockSetup) deferAndBlock
    (fun _ _ => trivial) hrun
  exact ⟨s, hreach, hwaits, hdeferred,
    journaledThreads_deadlockFree twoBlockSetup _ _ _ s hreach⟩

end Elbencho
