import Elbencho.Journal.Tile
import Elbencho.Journal.Locking

/-!
# Journaled block I/O as a concurrent system

The journal side of one I/O is a `JournalBlockIO`: `begin` decides what the I/O
becomes and takes the lock guard, the caller then does the data I/O, and `commit`
or `release` ends it.  This module is the system of any number of holders (one
for each I/O slot of each worker thread) that run these methods on any number of
journals.  A step is one access to shared state --- one lock operation, one load,
clear or commit of a cell, one page of an `msync`, one byte of target data --- so
that the holders interleave everywhere the threads of the program can.

* `HolderState` is where a holder is: `Stage` has one value for each point of
  `begin`, `claimForWrite`, `commit` and of the data I/O at which another thread
  may get in between.
* `World` is the shared state: the range locks, the mapped cells, the journal
  files on disk and the content of the targets.
* `World.step` is one step.  A target write that is under way may put any bytes
  into its range (`scribble`); it ends with the buffer's content in place or with
  an error.  The kernel may write back any page of a mapping at any time.  A
  crashed or finished process is followed by another run (`restart`), which finds
  the cells, the files and the targets as they are.

The lemmas `move_lockShared` to `move_release` say what a holder can do in each
stage; the invariants of the later modules are read off them.
-/

namespace Elbencho

open SharedLock Transition

/-! ## Journals and runs -/

/-- The journals of a process and the page size of its machine. -/
structure Setup (J : Type*) where
  journal : J → Journal
  pageSize : ℕ
  pageSize_pos : 0 < pageSize

/-- What a run passes to `initRunOptions`.  Every worker owns I/O buffers of
`maxIOSize` bytes, so the size is that of an object in memory. -/
structure RunConfig where
  maxIOSize : ℕ
  journalSyncEnabled : Bool
  maxIOSize_lt : maxIOSize < 2 ^ 63

/-- The loop of `initRunOptions` ends for the size of a buffer. -/
theorem initRunOptions_isSome (j : Journal) (run : RunConfig) :
    (initRunOptions j run.maxIOSize run.journalSyncEnabled).isSome := by
  have hmax := run.maxIOSize_lt
  have hpos := j.journalBlockSize_pos
  have hsize : Word64.size = 2 ^ 64 := rfl
  have hle : j.numBlocksOf run.maxIOSize ≤ 2 ^ 63 := by
    rcases lt_or_ge (run.maxIOSize + j.journalBlockSize - 1) Word64.size with hfit | hwrap
    · rw [numBlocksOf_eq hfit, maxBlocks]
      refine (Nat.div_le_iff_le_mul_add_pred hpos).mpr ?_
      have hle : 2 ^ 63 ≤ j.journalBlockSize * 2 ^ 63 := Nat.le_mul_of_pos_left _ hpos
      omega
    · rw [numBlocksOf_eq_zero (by omega) hwrap]
      exact Nat.zero_le _
  have hsome : (regionShiftLoop (j.numBlocksOf run.maxIOSize) 64 0).isSome :=
    regionShiftLoop_isSome (by omega) hle
  obtain ⟨shift, hshift⟩ := Option.isSome_iff_exists.mp hsome
  exact Option.isSome_iff_exists.mpr ⟨⟨run.journalSyncEnabled, shift, j.journalSeed⟩,
    initRunOptions_eq_some_iff.mpr ⟨rfl, rfl, hshift⟩⟩

/-- The options of each journal in a run. -/
def Setup.opts {J : Type*} (S : Setup J) (run : RunConfig) (k : J) : RunOptions :=
  (initRunOptions (S.journal k) run.maxIOSize run.journalSyncEnabled).get
    (initRunOptions_isSome (S.journal k) run)

theorem Setup.initRunOptions_opts {J : Type*} (S : Setup J) (run : RunConfig) (k : J) :
    initRunOptions (S.journal k) run.maxIOSize run.journalSyncEnabled =
      some (S.opts run k) :=
  (Option.some_get _).symm

/-! ## One I/O -/

/-- What the caller of `begin` wants. -/
inductive Intent where
  | write
  | readSkipUninit
  | readOrInit
  deriving DecidableEq

/-- How the last I/O of a holder ended: it was finished or given up, `begin`
returned `ACTION_SKIP` or `ACTION_DEFER`, or the data read did not pass
verification. -/
inductive Outcome where
  | done
  | skip
  | defer
  | verifyFailed (msg : String)
  deriving DecidableEq

/-- The I/O of a holder: what `begin` stored, and the bytes that a data read has
delivered so far. -/
structure JournalBlockIO (J : Type*) where
  journal : J
  absoluteOffset : ℕ
  ioLen : ℕ
  baseBlockIdx : ℕ
  numBlocks : ℕ
  gens : ℕ → ℕ
  readBuf : ℕ → Option (BitVec 8)

/-- The block range of an I/O. -/
def JournalBlockIO.range {J : Type*} (io : JournalBlockIO J) : BlockRange J :=
  ⟨io.journal, io.baseBlockIdx, io.numBlocks⟩

/-- The assignments at the start of `begin`.  The generations are set before they
are used. -/
def JournalBlockIO.start {J : Type*} (S : Setup J) (k : J) (absoluteOffset ioLen : ℕ) :
    JournalBlockIO J where
  journal := k
  absoluteOffset := absoluteOffset
  ioLen := ioLen
  baseBlockIdx := (S.journal k).offsetToBlockIndex absoluteOffset
  numBlocks := (S.journal k).numBlocksOf ioLen
  gens := fun _ => 0
  readBuf := fun _ => none

/-- Store the generation of one of the I/O's blocks. -/
def JournalBlockIO.setGen {J : Type*} (io : JournalBlockIO J) (i gen : ℕ) : JournalBlockIO J :=
  { io with gens := Function.update io.gens i gen }

/-- Store one byte that the data read delivered. -/
def JournalBlockIO.deliver {J : Type*} (io : JournalBlockIO J) (i : ℕ) (v : BitVec 8) :
    JournalBlockIO J :=
  { io with readBuf := Function.update io.readBuf i (some v) }

/-- What follows a completed release of the guard. -/
inductive AfterRelease where
  | finish (o : Outcome)
  | upgrade (mayBlock : Bool)

/-- The points at which other threads may get in between.

* `lockShared`, `lockExclusive`: inside `acquireRange`.
* `scan`: before the loads of `begin`; `upgrade`: between the release of the
  shared guard and the call of `claimForWrite`.
* `claimLoad`, `claimMark`: before the load and before the clear of a cell in
  `claimForWrite`; `claimSync`: inside its `msync`, with the pages still to do.
* `dataRead`, `dataWrite`: the data I/O is in flight.
* `commitCell`, `commitSync`: inside `commit`.
* `release`: inside `JournalRangeGuard::release`. -/
inductive Stage where
  | lockShared (intent : Intent) (mayBlock : Bool)
  | scan (intent : Intent) (mayBlock : Bool) (i : ℕ) (anyUninit allUninit : Bool)
  | upgrade (mayBlock : Bool)
  | lockExclusive (mayBlock : Bool)
  | claimLoad (i : ℕ) (anyWasVerifiable : Bool)
  | claimMark (i : ℕ) (anyWasVerifiable : Bool)
  | claimSync (pages : List ℕ)
  | dataRead
  | dataWrite
  | commitCell (i : ℕ)
  | commitSync (pages : List ℕ)
  | release (next : AfterRelease)

/-- A holder has no I/O, or one in some stage. -/
inductive HolderState (J : Type*) where
  | idle (last : Outcome)
  | busy (io : JournalBlockIO J) (stage : Stage)

/-- Where a holder is once its guard is released. -/
def HolderState.released {J : Type*} (io : JournalBlockIO J) : AfterRelease → HolderState J
  | .finish o => .idle o
  | .upgrade mayBlock => .busy io (.upgrade mayBlock)

/-! ## The world -/

/-- The shared state of a process and its storage. -/
structure World (J H : Type*) where
  run : RunConfig
  locks : RangeLocks J H
  holder : H → HolderState J
  mem : J → CellMap
  disk : J → CellMap
  target : J → ℕ → BitVec 8

/-- The moves of a holder that has an I/O: the next lock or unlock, a failed try,
the next step of the running method, data moving to or from the target, the end
of the data I/O, the failure of an `msync`. -/
inductive Move where
  | lock
  | refuse
  | unlock
  | advance
  | scribble (addr : ℕ) (v : BitVec 8)
  | readByte (i : ℕ)
  | ioDone
  | ioFail
  | syncFail
  deriving DecidableEq

/-- The steps of the world. -/
inductive WorldAction (J H : Type*) where
  | beginRequest (h : H) (k : J) (absoluteOffset ioLen : ℕ) (intent : Intent) (mayBlock : Bool)
  | move (h : H) (m : Move)
  | writeBack (k : J) (page : ℕ)
  | restart (run : RunConfig)

namespace World

variable {J H : Type*} [DecidableEq J] [DecidableEq H]

/-- A fresh journal: no holder, no lock, every cell 0. -/
def init (run : RunConfig) (target : J → ℕ → BitVec 8) : World J H where
  run := run
  locks := RangeLocks.empty
  holder := fun _ => .idle .done
  mem := fun _ _ => 0#8
  disk := fun _ _ => 0#8
  target := target

/-- The cell of a block, in memory. -/
def cell (s : World J H) (k : J) (b : ℕ) : ℕ := loadBlockGen (s.mem k) b

/-- The cell of a block, on disk. -/
def diskCell (s : World J H) (k : J) (b : ℕ) : ℕ := loadBlockGen (s.disk k) b

/-- The world with another state of one holder. -/
def setHolder (s : World J H) (h : H) (hs : HolderState J) : World J H :=
  { s with holder := Function.update s.holder h hs }

/-- The world with other mapped cells of one journal. -/
def setMem (s : World J H) (k : J) (map : CellMap) : World J H :=
  { s with mem := Function.update s.mem k map }

/-- The world with another file of one journal. -/
def setDisk (s : World J H) (k : J) (file : CellMap) : World J H :=
  { s with disk := Function.update s.disk k file }

/-- The world with another content of one target. -/
def setTarget (s : World J H) (k : J) (content : ℕ → BitVec 8) : World J H :=
  { s with target := Function.update s.target k content }

variable (S : Setup J)

/-- The world after one page of a mapping was written to its file. -/
def flushPage (s : World J H) (k : J) (page : ℕ) : World J H :=
  s.setDisk k (writeBackPage S.pageSize (s.mem k) (s.disk k) page)

/-- One step of the range locks. -/
def lockStep (s : World J H) (op : RangeOp J H) : Option (World J H) :=
  (s.locks.step (S.opts s.run) op).map fun l => { s with locks := l }

/-- Start the release of the holder's guard. -/
def startRelease (s : World J H) (h : H) (io : JournalBlockIO J) (next : AfterRelease) :
    Option (World J H) :=
  (s.lockStep S (.release h)).map fun s => s.setHolder h (.busy io (.release next))

/-- The stage after an `acquireRange` that is complete. -/
def granted : Stage → Stage
  | .lockShared intent mayBlock => .scan intent mayBlock 0 false true
  | .lockExclusive _ => .claimLoad 0 false
  | stage => stage

/-- The next lock of a running `acquireRange`. -/
def lockNext (s : World J H) (h : H) (io : JournalBlockIO J) (stage : Stage) :
    Option (World J H) :=
  (s.lockStep S (.lock h)).map fun s =>
    match s.locks.table.guard h with
    | .held _ _ => s.setHolder h (.busy io (granted stage))
    | _ => s

/-- The next unlock of a running release, or the end of it. -/
def unlockNext (s : World J H) (h : H) (io : JournalBlockIO J) (next : AfterRelease) :
    Option (World J H) :=
  (s.lockStep S (.unlock h)).map fun s =>
    match s.locks.table.guard h with
    | .free => s.setHolder h (.released io next)
    | _ => s

/-- The failed try of a lock: what was locked so far is released, and `begin`
returns `ACTION_DEFER`. -/
def refuseNext (s : World J H) (h : H) (io : JournalBlockIO J) : Option (World J H) :=
  (s.lockStep S (.refuse h)).map fun s =>
    match s.locks.table.guard h with
    | .free => s.setHolder h (.idle .defer)
    | _ => s.setHolder h (.busy io (.release (.finish .defer)))

/-- The pages of an I/O's cells. -/
def ioPages (io : JournalBlockIO J) : List ℕ :=
  syncPages S.pageSize (S.journal io.journal).mapLength io.baseBlockIdx io.numBlocks

/-- The step of `begin` after the last load. -/
def afterScan (s : World J H) (h : H) (io : JournalBlockIO J) (intent : Intent)
    (mayBlock anyUninit allUninit : Bool) : Option (World J H) :=
  if anyUninit = false then some (s.setHolder h (.busy io .dataRead))
  else if intent = .readSkipUninit then
    if allUninit then s.startRelease S h io (.finish .skip)
    else some (s.setHolder h (.busy io .dataRead))
  else s.startRelease S h io (.upgrade mayBlock)

/-- The content of a target after a complete write of an I/O's buffer. -/
def written (io : JournalBlockIO J) (content : ℕ → BitVec 8) : ℕ → BitVec 8 := fun x =>
  if io.absoluteOffset ≤ x ∧ x < io.absoluteOffset + io.ioLen then
    preWriteJournalFillBuf (S.journal io.journal) io.gens (fun _ => 0#8) io.ioLen
      io.absoluteOffset (x - io.absoluteOffset)
  else content x

/-- The buffer of a data read. -/
def hostIOBuf (io : JournalBlockIO J) : Buf := fun i => (io.readBuf i).getD 0#8

/-- Every byte of a data read has been delivered. -/
def ReadComplete (io : JournalBlockIO J) : Prop := ∀ i < io.ioLen, (io.readBuf i).isSome

instance (io : JournalBlockIO J) : Decidable (ReadComplete io) :=
  inferInstanceAs (Decidable (∀ i < io.ioLen, (io.readBuf i).isSome))

/-- The outcome of a completed data read. -/
def readOutcome (io : JournalBlockIO J) : Outcome :=
  match postReadJournalVerifyBuf (S.journal io.journal) io.gens (hostIOBuf io) (fun _ => 0#8)
    io.ioLen io.absoluteOffset with
  | .ok () => .done
  | .error msg => .verifyFailed msg

/-- One move of a holder with an I/O. -/
def move (s : World J H) (h : H) (io : JournalBlockIO J) : Stage → Move → Option (World J H)
  | .lockShared intent mayBlock, .lock => s.lockNext S h io (.lockShared intent mayBlock)
  | .lockShared _ _, .refuse => s.refuseNext S h io
  | .scan intent mayBlock i anyUninit allUninit, .advance =>
    if i < io.numBlocks then
      let gen := s.cell io.journal (io.baseBlockIdx + i)
      some (s.setHolder h (.busy (io.setGen i gen)
        (.scan intent mayBlock (i + 1) (anyUninit || gen == 0) (allUninit && gen == 0))))
    else s.afterScan S h io intent mayBlock anyUninit allUninit
  | .upgrade mayBlock, .advance =>
    (s.lockStep S (.acquireRange h io.range true mayBlock)).map fun s =>
      s.setHolder h (.busy io (.lockExclusive mayBlock))
  | .lockExclusive mayBlock, .lock => s.lockNext S h io (.lockExclusive mayBlock)
  | .lockExclusive _, .refuse => s.refuseNext S h io
  | .claimLoad i anyWasVerifiable, .advance =>
    if i < io.numBlocks then
      let oldGen := s.cell io.journal (io.baseBlockIdx + i)
      some (s.setHolder h (.busy (io.setGen i (nextGen oldGen))
        (.claimMark i (anyWasVerifiable || oldGen != 0))))
    else if anyWasVerifiable ∧ s.run.journalSyncEnabled then
      some (s.setHolder h (.busy io (.claimSync (ioPages S io))))
    else some (s.setHolder h (.busy io .dataWrite))
  | .claimMark i anyWasVerifiable, .advance =>
    some ((s.setMem io.journal (markBlockBusy (s.mem io.journal) (io.baseBlockIdx + i))).setHolder h
      (.busy io (.claimLoad (i + 1) anyWasVerifiable)))
  | .claimSync [], .advance => some (s.setHolder h (.busy io .dataWrite))
  | .claimSync (page :: pages), .advance =>
    some ((s.flushPage S io.journal page).setHolder h (.busy io (.claimSync pages)))
  | .claimSync _, .syncFail => s.startRelease S h io (.finish .done)
  | .dataRead, .readByte i =>
    if i < io.ioLen then
      some (s.setHolder h
        (.busy (io.deliver i (s.target io.journal (io.absoluteOffset + i))) .dataRead))
    else none
  | .dataRead, .ioDone =>
    if ReadComplete io then s.startRelease S h io (.finish (readOutcome S io)) else none
  | .dataRead, .ioFail => s.startRelease S h io (.finish .done)
  | .dataWrite, .scribble addr v =>
    if io.absoluteOffset ≤ addr ∧ addr < io.absoluteOffset + io.ioLen then
      some (s.setTarget io.journal (Function.update (s.target io.journal) addr v))
    else none
  | .dataWrite, .ioDone =>
    some ((s.setTarget io.journal (written S io (s.target io.journal))).setHolder h
      (.busy io (.commitCell 0)))
  | .dataWrite, .ioFail => s.startRelease S h io (.finish .done)
  | .commitCell i, .advance =>
    if i < io.numBlocks then
      some ((s.setMem io.journal
        (commitBlockGen (s.mem io.journal) (io.baseBlockIdx + i) (io.gens i))).setHolder h
          (.busy io (.commitCell (i + 1))))
    else if s.run.journalSyncEnabled then
      some (s.setHolder h (.busy io (.commitSync (ioPages S io))))
    else s.startRelease S h io (.finish .done)
  | .commitSync [], .advance => s.startRelease S h io (.finish .done)
  | .commitSync (page :: pages), .advance =>
    some ((s.flushPage S io.journal page).setHolder h (.busy io (.commitSync pages)))
  | .commitSync _, .syncFail => s.startRelease S h io (.finish .done)
  | .release next, .unlock => s.unlockNext S h io next
  | _, _ => none

/-- `begin`: store what the I/O is and call `acquireRange` in the mode of the
intent. -/
def beginRequest (s : World J H) (h : H) (io : JournalBlockIO J) (intent : Intent)
    (mayBlock : Bool) : Option (World J H) :=
  if intent = .write then
    (s.lockStep S (.acquireRange h io.range true mayBlock)).map fun s =>
      s.setHolder h (.busy io (.lockExclusive mayBlock))
  else
    (s.lockStep S (.acquireRange h io.range false mayBlock)).map fun s =>
      s.setHolder h (.busy io (.lockShared intent mayBlock))

/-- One step of the world. -/
def step (s : World J H) : WorldAction J H → Option (World J H)
  | .beginRequest h k absoluteOffset ioLen intent mayBlock =>
    match s.holder h with
    | .idle _ => s.beginRequest S h (.start S k absoluteOffset ioLen) intent mayBlock
    | .busy _ _ => none
  | .move h m =>
    match s.holder h with
    | .idle _ => none
    | .busy io stage => s.move S h io stage m
  | .writeBack k page =>
    some (s.flushPage S k page)
  | .restart run =>
    some { s with run := run, locks := RangeLocks.empty, holder := fun _ => .idle .done }

/-! ## Reading an updated world -/

section Access

variable {S} (s : World J H)

omit [DecidableEq J] in
@[simp] theorem setHolder_holder_self (h : H) (x : HolderState J) :
    (s.setHolder h x).holder h = x := Function.update_self _ _ _

omit [DecidableEq J] in
theorem setHolder_holder_of_ne {h i : H} (hne : i ≠ h) (x : HolderState J) :
    (s.setHolder h x).holder i = s.holder i := Function.update_of_ne hne _ _

omit [DecidableEq J] in
theorem setHolder_eq_self {h : H} {x : HolderState J} (hx : s.holder h = x) :
    s.setHolder h x = s := by
  rw [setHolder, ← hx, Function.update_eq_self]

omit [DecidableEq H] in
@[simp] theorem setMem_mem_self (k : J) (map : CellMap) : (s.setMem k map).mem k = map :=
  Function.update_self _ _ _

omit [DecidableEq H] in
@[simp] theorem cell_setMem_self (k : J) (map : CellMap) (b : ℕ) :
    (s.setMem k map).cell k b = loadBlockGen map b := by
  rw [cell, setMem_mem_self]

omit [DecidableEq H] in
theorem cell_setMem_of_ne {k k' : J} (hne : k' ≠ k) (map : CellMap) (b : ℕ) :
    (s.setMem k map).cell k' b = s.cell k' b := by
  rw [cell, cell, show (s.setMem k map).mem k' = s.mem k' from Function.update_of_ne hne _ _]

omit [DecidableEq H] in
@[simp] theorem setDisk_disk_self (k : J) (file : CellMap) : (s.setDisk k file).disk k = file :=
  Function.update_self _ _ _

omit [DecidableEq H] in
theorem diskCell_setDisk_of_ne {k k' : J} (hne : k' ≠ k) (file : CellMap) (b : ℕ) :
    (s.setDisk k file).diskCell k' b = s.diskCell k' b := by
  rw [diskCell, diskCell,
    show (s.setDisk k file).disk k' = s.disk k' from Function.update_of_ne hne _ _]

omit [DecidableEq H] in
@[simp] theorem target_setTarget_self (k : J) (content : ℕ → BitVec 8) :
    (s.setTarget k content).target k = content := Function.update_self _ _ _

omit [DecidableEq H] in
theorem target_setTarget_of_ne {k k' : J} (hne : k' ≠ k) (content : ℕ → BitVec 8) :
    (s.setTarget k content).target k' = s.target k' := Function.update_of_ne hne _ _

omit [DecidableEq H] in
/-- Writing back a page brings the cells of the page to disk and no others. -/
theorem diskCell_flushPage (k k' : J) (page b : ℕ) :
    (s.flushPage S k page).diskCell k' b =
      if k' = k ∧ b / 4 / S.pageSize = page then s.cell k' b else s.diskCell k' b := by
  rw [flushPage]
  rcases eq_or_ne k' k with rfl | hne
  · rw [diskCell, setDisk_disk_self, loadBlockGen_writeBackPage]
    exact if_congr (by simp) rfl rfl
  · rw [diskCell_setDisk_of_ne s hne, if_neg fun hk => hne hk.1]

end Access

/-! ## Lock steps of the world -/

omit [DecidableEq J] in
theorem lockStep_eq_some {S : Setup J} {s s₁ : World J H} {op : RangeOp J H}
    (hstep : s.lockStep S op = some s₁) :
    ∃ l, s.locks.step (S.opts s.run) op = some l ∧ s₁ = { s with locks := l } := by
  obtain ⟨l, hl, rfl⟩ := Option.map_eq_some_iff.mp hstep
  exact ⟨l, hl, rfl⟩

/-- The two worlds differ at most in the locks and in the state of one holder. -/
structure SameData (h : H) (s s' : World J H) : Prop where
  run : s'.run = s.run
  mem : s'.mem = s.mem
  disk : s'.disk = s.disk
  target : s'.target = s.target
  holder : ∀ i, i ≠ h → s'.holder i = s.holder i

section SameData

variable {S : Setup J} {s s' : World J H} {h : H} {io : JournalBlockIO J}

omit [DecidableEq J] in
theorem sameData_setHolder (s : World J H) (l : RangeLocks J H) (h : H) (x : HolderState J) :
    SameData h s ({ s with locks := l }.setHolder h x) :=
  ⟨rfl, rfl, rfl, rfl, fun _ hi => setHolder_holder_of_ne _ hi x⟩

omit [DecidableEq J] in
theorem sameData_of_lockStep {op : RangeOp J H} {s₁ : World J H} {x : HolderState J}
    (hstep : s.lockStep S op = some s₁) :
    SameData h s s₁ ∧ SameData h s (s₁.setHolder h x) := by
  obtain ⟨l, -, rfl⟩ := lockStep_eq_some hstep
  exact ⟨⟨rfl, rfl, rfl, rfl, fun _ _ => rfl⟩, sameData_setHolder s l h x⟩

omit [DecidableEq J] in
theorem sameData_startRelease {next : AfterRelease}
    (hm : s.startRelease S h io next = some s') : SameData h s s' := by
  obtain ⟨s₁, hs₁, rfl⟩ := Option.map_eq_some_iff.mp hm
  exact (sameData_of_lockStep hs₁).2

omit [DecidableEq J] in
theorem sameData_lockNext {stage : Stage} (hm : s.lockNext S h io stage = some s') :
    SameData h s s' := by
  obtain ⟨s₁, hs₁, rfl⟩ := Option.map_eq_some_iff.mp hm
  split
  · exact (sameData_of_lockStep hs₁).2
  · exact (sameData_of_lockStep (x := .idle .done) hs₁).1

omit [DecidableEq J] in
theorem sameData_refuseNext (hm : s.refuseNext S h io = some s') : SameData h s s' := by
  obtain ⟨s₁, hs₁, rfl⟩ := Option.map_eq_some_iff.mp hm
  split <;> exact (sameData_of_lockStep hs₁).2

omit [DecidableEq J] in
theorem sameData_unlockNext {next : AfterRelease}
    (hm : s.unlockNext S h io next = some s') : SameData h s s' := by
  obtain ⟨s₁, hs₁, rfl⟩ := Option.map_eq_some_iff.mp hm
  split
  · exact (sameData_of_lockStep hs₁).2
  · exact (sameData_of_lockStep (x := .idle .done) hs₁).1

omit [DecidableEq J] in
theorem sameData_beginRequest {intent : Intent} {mayBlock : Bool}
    (hm : s.beginRequest S h io intent mayBlock = some s') : SameData h s s' := by
  rw [beginRequest] at hm
  split_ifs at hm
  · obtain ⟨s₁, hs₁, rfl⟩ := Option.map_eq_some_iff.mp hm
    exact (sameData_of_lockStep hs₁).2
  · obtain ⟨s₁, hs₁, rfl⟩ := Option.map_eq_some_iff.mp hm
    exact (sameData_of_lockStep hs₁).2

end SameData

/-! ## What a holder can do in each stage -/

variable {S} {s s' : World J H} {h : H} {io : JournalBlockIO J} {m : Move}

-- The cases of `move` are computed here, once for all the stages below.
attribute [local simp] move

theorem move_lockShared {intent : Intent} {mayBlock : Bool}
    (hm : s.move S h io (.lockShared intent mayBlock) m = some s') :
    s.lockNext S h io (.lockShared intent mayBlock) = some s' ∨
      s.refuseNext S h io = some s' := by
  cases m with
  | lock => exact Or.inl hm
  | refuse => exact Or.inr hm
  | _ => simp at hm

theorem move_scan {intent : Intent} {mayBlock anyUninit allUninit : Bool} {i : ℕ}
    (hm : s.move S h io (.scan intent mayBlock i anyUninit allUninit) m = some s') :
    (i < io.numBlocks ∧ ∃ anyUninit' allUninit', s' = s.setHolder h
      (.busy (io.setGen i (s.cell io.journal (io.baseBlockIdx + i)))
        (.scan intent mayBlock (i + 1) anyUninit' allUninit'))) ∨
    (io.numBlocks ≤ i ∧ (s' = s.setHolder h (.busy io .dataRead) ∨
      s.startRelease S h io (.finish .skip) = some s' ∨
      s.startRelease S h io (.upgrade mayBlock) = some s')) := by
  cases m with
  | advance =>
    rw [move] at hm
    split_ifs at hm with hi
    · exact Or.inl ⟨hi, _, _, (Option.some.inj hm).symm⟩
    · refine Or.inr ⟨by omega, ?_⟩
      rw [afterScan] at hm
      split_ifs at hm
      · exact Or.inl (Option.some.inj hm).symm
      · exact Or.inr (Or.inl hm)
      · exact Or.inl (Option.some.inj hm).symm
      · exact Or.inr (Or.inr hm)
  | _ => simp at hm

theorem move_upgrade {mayBlock : Bool} (hm : s.move S h io (.upgrade mayBlock) m = some s') :
    ∃ s₁, s.lockStep S (.acquireRange h io.range true mayBlock) = some s₁ ∧
      s' = s₁.setHolder h (.busy io (.lockExclusive mayBlock)) := by
  cases m with
  | advance =>
    obtain ⟨s₁, hs₁, rfl⟩ := Option.map_eq_some_iff.mp hm
    exact ⟨s₁, hs₁, rfl⟩
  | _ => simp at hm

theorem move_lockExclusive {mayBlock : Bool}
    (hm : s.move S h io (.lockExclusive mayBlock) m = some s') :
    s.lockNext S h io (.lockExclusive mayBlock) = some s' ∨ s.refuseNext S h io = some s' := by
  cases m with
  | lock => exact Or.inl hm
  | refuse => exact Or.inr hm
  | _ => simp at hm

theorem move_claimLoad {i : ℕ} {anyWasVerifiable : Bool}
    (hm : s.move S h io (.claimLoad i anyWasVerifiable) m = some s') :
    (i < io.numBlocks ∧ s' = s.setHolder h
      (.busy (io.setGen i (nextGen (s.cell io.journal (io.baseBlockIdx + i))))
        (.claimMark i (anyWasVerifiable || s.cell io.journal (io.baseBlockIdx + i) != 0)))) ∨
    (io.numBlocks ≤ i ∧ anyWasVerifiable = true ∧ s.run.journalSyncEnabled = true ∧
      s' = s.setHolder h (.busy io (.claimSync (ioPages S io)))) ∨
    (io.numBlocks ≤ i ∧ ¬ (anyWasVerifiable = true ∧ s.run.journalSyncEnabled = true) ∧
      s' = s.setHolder h (.busy io .dataWrite)) := by
  cases m with
  | advance =>
    rw [move] at hm
    split_ifs at hm with hi hsync
    · exact Or.inl ⟨hi, (Option.some.inj hm).symm⟩
    · exact Or.inr (Or.inl ⟨by omega, hsync.1, hsync.2, (Option.some.inj hm).symm⟩)
    · exact Or.inr (Or.inr ⟨by omega, hsync, (Option.some.inj hm).symm⟩)
  | _ => simp at hm

theorem move_claimMark {i : ℕ} {anyWasVerifiable : Bool}
    (hm : s.move S h io (.claimMark i anyWasVerifiable) m = some s') :
    s' = (s.setMem io.journal (markBlockBusy (s.mem io.journal) (io.baseBlockIdx + i))).setHolder h
      (.busy io (.claimLoad (i + 1) anyWasVerifiable)) := by
  cases m with
  | advance => exact (Option.some.inj hm).symm
  | _ => simp at hm

theorem move_claimSync {pages : List ℕ} (hm : s.move S h io (.claimSync pages) m = some s') :
    (pages = [] ∧ s' = s.setHolder h (.busy io .dataWrite)) ∨
    (∃ page rest, pages = page :: rest ∧
      s' = (s.flushPage S io.journal page).setHolder h (.busy io (.claimSync rest))) ∨
    (m = .syncFail ∧ s.startRelease S h io (.finish .done) = some s') := by
  cases m with
  | advance =>
    cases pages with
    | nil => exact Or.inl ⟨rfl, (Option.some.inj hm).symm⟩
    | cons page rest => exact Or.inr (Or.inl ⟨page, rest, rfl, (Option.some.inj hm).symm⟩)
  | syncFail => exact Or.inr (Or.inr ⟨rfl, by cases pages <;> exact hm⟩)
  | _ => cases pages <;> simp at hm

theorem move_dataRead (hm : s.move S h io .dataRead m = some s') :
    (∃ i < io.ioLen, s' = s.setHolder h
      (.busy (io.deliver i (s.target io.journal (io.absoluteOffset + i))) .dataRead)) ∨
    (ReadComplete io ∧ s.startRelease S h io (.finish (readOutcome S io)) = some s') ∨
    s.startRelease S h io (.finish .done) = some s' := by
  cases m with
  | readByte i =>
    rw [move] at hm
    split_ifs at hm with hi
    exact Or.inl ⟨i, hi, (Option.some.inj hm).symm⟩
  | ioDone =>
    rw [move] at hm
    split_ifs at hm with hc
    exact Or.inr (Or.inl ⟨hc, hm⟩)
  | ioFail => exact Or.inr (Or.inr hm)
  | _ => simp at hm

theorem move_dataWrite (hm : s.move S h io .dataWrite m = some s') :
    (∃ addr v, io.absoluteOffset ≤ addr ∧ addr < io.absoluteOffset + io.ioLen ∧
      s' = s.setTarget io.journal (Function.update (s.target io.journal) addr v)) ∨
    s' = (s.setTarget io.journal (written S io (s.target io.journal))).setHolder h
      (.busy io (.commitCell 0)) ∨
    s.startRelease S h io (.finish .done) = some s' := by
  cases m with
  | scribble addr v =>
    rw [move] at hm
    split_ifs at hm with ha
    exact Or.inl ⟨addr, v, ha.1, ha.2, (Option.some.inj hm).symm⟩
  | ioDone => exact Or.inr (Or.inl (Option.some.inj hm).symm)
  | ioFail => exact Or.inr (Or.inr hm)
  | _ => simp at hm

theorem move_commitCell {i : ℕ} (hm : s.move S h io (.commitCell i) m = some s') :
    (i < io.numBlocks ∧ s' = (s.setMem io.journal
      (commitBlockGen (s.mem io.journal) (io.baseBlockIdx + i) (io.gens i))).setHolder h
        (.busy io (.commitCell (i + 1)))) ∨
    s' = s.setHolder h (.busy io (.commitSync (ioPages S io))) ∨
    s.startRelease S h io (.finish .done) = some s' := by
  cases m with
  | advance =>
    rw [move] at hm
    split_ifs at hm with hi
    · exact Or.inl ⟨hi, (Option.some.inj hm).symm⟩
    · exact Or.inr (Or.inl (Option.some.inj hm).symm)
    · exact Or.inr (Or.inr hm)
  | _ => simp at hm

theorem move_commitSync {pages : List ℕ} (hm : s.move S h io (.commitSync pages) m = some s') :
    (∃ page rest, pages = page :: rest ∧
      s' = (s.flushPage S io.journal page).setHolder h (.busy io (.commitSync rest))) ∨
    s.startRelease S h io (.finish .done) = some s' := by
  cases m with
  | advance =>
    cases pages with
    | nil => exact Or.inr hm
    | cons page rest => exact Or.inl ⟨page, rest, rfl, (Option.some.inj hm).symm⟩
  | syncFail => exact Or.inr (by cases pages <;> exact hm)
  | _ => cases pages <;> simp at hm

theorem move_release {next : AfterRelease} (hm : s.move S h io (.release next) m = some s') :
    s.unlockNext S h io next = some s' := by
  cases m with
  | unlock => exact hm
  | _ => simp at hm

/-- No move changes the run. -/
theorem run_move {stage : Stage} (hm : s.move S h io stage m = some s') : s'.run = s.run := by
  cases stage with
  | lockShared =>
    rcases move_lockShared hm with hm | hm
    · exact (sameData_lockNext hm).run
    · exact (sameData_refuseNext hm).run
  | scan =>
    rcases move_scan hm with ⟨-, _, _, rfl⟩ | ⟨-, rfl | hm | hm⟩
    · rfl
    · rfl
    · exact (sameData_startRelease hm).run
    · exact (sameData_startRelease hm).run
  | upgrade =>
    obtain ⟨s₁, hs₁, rfl⟩ := move_upgrade hm
    obtain ⟨l, -, rfl⟩ := lockStep_eq_some hs₁
    rfl
  | lockExclusive =>
    rcases move_lockExclusive hm with hm | hm
    · exact (sameData_lockNext hm).run
    · exact (sameData_refuseNext hm).run
  | claimLoad => rcases move_claimLoad hm with ⟨-, rfl⟩ | ⟨-, -, -, rfl⟩ | ⟨-, -, rfl⟩ <;> rfl
  | claimMark => rw [move_claimMark hm]; rfl
  | claimSync =>
    rcases move_claimSync hm with ⟨-, rfl⟩ | ⟨_, _, -, rfl⟩ | ⟨-, hm⟩
    · rfl
    · rfl
    · exact (sameData_startRelease hm).run
  | dataRead =>
    rcases move_dataRead hm with ⟨_, -, rfl⟩ | ⟨-, hm⟩ | hm
    · rfl
    · exact (sameData_startRelease hm).run
    · exact (sameData_startRelease hm).run
  | dataWrite =>
    rcases move_dataWrite hm with ⟨_, _, -, -, rfl⟩ | rfl | hm
    · rfl
    · rfl
    · exact (sameData_startRelease hm).run
  | commitCell =>
    rcases move_commitCell hm with ⟨-, rfl⟩ | rfl | hm
    · rfl
    · rfl
    · exact (sameData_startRelease hm).run
  | commitSync =>
    rcases move_commitSync hm with ⟨_, _, -, rfl⟩ | hm
    · rfl
    · exact (sameData_startRelease hm).run
  | release => exact (sameData_unlockNext (move_release hm)).run

end World

end Elbencho
