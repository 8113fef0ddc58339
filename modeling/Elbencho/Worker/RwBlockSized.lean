import Elbencho.Journal.Sequential
import Elbencho.OffsetGen.Generators

/-!
# The synchronous I/O loop

`rwBlockSized` processes the I/Os of an offset generator one at a time: draw offset
and size, map the offset to a file, decide between read and write, let the journal
decide and lock, do the I/O, verify, commit, and tell the generator how much was
done.  `rwIteration` is one pass of the loop, with the result of the system call and
of the verification as an input.

The journal side of an iteration is `beginCells` and `commitCells`: this engine has
one I/O in flight, so it waits for its locks and nobody changes its cells while it
holds them.

**Short writes.**  A positive result below the requested size is taken for success.
The journal does not learn about it: `commit` gives every block of the request a
generation.  `onlyWrittenCommitted_iff` says for which requests and results the
generations are right, and `shortWrite_commits_unwritten` is a short write of one
block that marks two of them as written.
-/

namespace Elbencho

/-! ## What the loops read -/

/-- The two phases in which the loops run. -/
inductive BenchPhase where
  | createFiles
  | readFiles
  deriving DecidableEq

/-- What the loops read of the worker and of the program's arguments.  A reader of
`--rwmixthr` has the phase `readFiles` while the current phase is `createFiles`. -/
structure WorkerConfig where
  workerRank : ℕ
  benchPhase : BenchPhase
  currentBenchPhase : BenchPhase
  rwMixReadPercent : ℕ
  fileSize : ℕ
  fileOffset : ℕ
  numFiles : ℕ
  journalEnabled : Bool

/-- `calcFileIdxAndOffsetStriped`: the file and the absolute offset within it.  Several
files are one serial range. -/
def calcFileIdxAndOffsetStriped (cfg : WorkerConfig) (rwOffsetGenNext : ℕ) : ℕ × ℕ :=
  if cfg.numFiles = 1 then (0, Word64.add rwOffsetGenNext cfg.fileOffset)
  else (rwOffsetGenNext / cfg.fileSize, Word64.add (rwOffsetGenNext % cfg.fileSize) cfg.fileOffset)

/-- What a worker wants to do with the next block. -/
inductive Decision where
  | plain (isRead : Bool)
  | journaled (intent : Intent)
  deriving DecidableEq

/-- One I/O as the worker asks for it. -/
structure Request where
  fileIdx : ℕ
  offset : ℕ
  size : ℕ
  decision : Decision
  deriving DecidableEq

/-- The turn of a rwmix read, for the next I/O of a worker. -/
def isRWMixTurn (cfg : WorkerConfig) (numIOPSSubmitted : ℕ) : Bool :=
  cfg.rwMixReadPercent ≠ 0 ∧
    Word64.add cfg.workerRank numIOPSSubmitted % 100 < cfg.rwMixReadPercent

/-- The branches of `rwBlockSized` that decide between read and write: `isRead` and
`journalIntent`. -/
def rwDecide (cfg : WorkerConfig) (numIOPSSubmitted : ℕ) : Bool × Intent :=
  if cfg.benchPhase = .readFiles then
    (true, if cfg.benchPhase ≠ cfg.currentBenchPhase then .readOrInit else .readSkipUninit)
  else if isRWMixTurn cfg numIOPSSubmitted then (true, .readOrInit)
  else (false, .write)

/-- The decision of `rwBlockSized` before the journal is asked. -/
def rwDecision (cfg : WorkerConfig) (numIOPSSubmitted : ℕ) : Decision :=
  if cfg.journalEnabled then .journaled (rwDecide cfg numIOPSSubmitted).2
  else .plain (rwDecide cfg numIOPSSubmitted).1

/-! ## Draws -/

/-- How far a worker is: its offset generator and its counter of submitted I/Os. -/
structure Progress (G : Type*) where
  gen : G
  numIOPSSubmitted : ℕ

namespace Progress

open OffsetGenerator

variable {G : Type*} [OffsetGenerator G]

/-- Draw the next offset and then the next size. -/
def draw (p : Progress G) : (ℕ × ℕ) × G := OffsetGenerator.draw p.gen

/-- The I/O for a draw. -/
def requestOf (cfg : WorkerConfig) (drawn : ℕ × ℕ) (decision : Decision) : Request :=
  let (fileIdx, offset) := calcFileIdxAndOffsetStriped cfg drawn.1
  ⟨fileIdx, offset, drawn.2, decision⟩

theorem requestOf_offset_lt (cfg : WorkerConfig) (drawn : ℕ × ℕ) (decision : Decision) :
    (requestOf cfg drawn decision).offset < Word64.size := by
  show (calcFileIdxAndOffsetStriped cfg _).2 < Word64.size
  unfold calcFileIdxAndOffsetStriped
  split_ifs
  · exact Word64.add_lt _ _
  · exact Word64.add_lt _ _

/-- The next I/O of `rwBlockSized`. -/
def nextRequest (p : Progress G) (cfg : WorkerConfig) : Request :=
  requestOf cfg p.draw.1 (rwDecision cfg p.numIOPSSubmitted)

/-- An I/O is accounted: `numIOPSSubmitted` and the generator learn about it. -/
def submitted (p : Progress G) (drawnGen : G) (numBytes : ℕ) : Progress G :=
  ⟨addBytesSubmitted drawnGen numBytes, Word64.add p.numIOPSSubmitted 1⟩

/-- The progress after the next I/O was submitted in full. -/
def next (p : Progress G) : Progress G := p.submitted p.draw.2 p.draw.1.2

/-- There are bytes left to submit. -/
def bytesLeft (p : Progress G) : Bool := getNumBytesLeftToSubmit p.gen ≠ 0

end Progress

/-! ## The loop -/

/-- The journaled state of a worker that runs alone: its progress, the cells of each
file's journal, and the requests it has processed. -/
structure RwState (G : Type*) where
  progress : Progress G
  cells : ℕ → CellMap
  processed : List Request

/-- What an I/O returns: the result of the system call, and the error of the
verification if there is one. -/
structure IoResult where
  rwRes : ℤ
  verifyError : Option String

/-- How an iteration ends: with the next one, with a `return` or with an exception. -/
inductive LoopEnd (G : Type*) where
  | next (s : RwState G)
  | returned (s : RwState G) (value : ℤ)
  | threw (s : RwState G) (msg : String)

namespace RwState

open OffsetGenerator

variable {G : Type*} [OffsetGenerator G] (cfg : WorkerConfig) (journal : ℕ → Journal)

/-- The next I/O. -/
def nextRequest (s : RwState G) : Request := s.progress.nextRequest cfg

theorem nextRequest_offset_lt (s : RwState G) : (s.nextRequest cfg).offset < Word64.size :=
  Progress.requestOf_offset_lt cfg _ _

/-- `journalBeginIO` for the next I/O; this engine is never deferred. -/
def journalBegin (s : RwState G) : Begun :=
  let r := s.nextRequest cfg
  beginCells (s.cells r.fileIdx) ((journal r.fileIdx).offsetToBlockIndex r.offset)
    ((journal r.fileIdx).numBlocksOf r.size) (rwDecide cfg s.progress.numIOPSSubmitted).2

/-- The state with other cells of one file. -/
def setCells (s : RwState G) (fileIdx : ℕ) (map : CellMap) : RwState G :=
  { s with cells := Function.update s.cells fileIdx map }

/-- The end of an iteration: the request is accounted with some number of bytes. -/
def account (s : RwState G) (numBytes : ℕ) : RwState G :=
  { s with
    progress := s.progress.submitted s.progress.draw.2 numBytes
    processed := s.processed ++ [s.nextRequest cfg] }

/-- The cells after `journalCommitIO`: a write sets the generations of the I/O. -/
def commitMap (s : RwState G) : CellMap :=
  let r := s.nextRequest cfg
  let begun := s.journalBegin cfg journal
  if begun.action = .write then
    commitCells begun.map ((journal r.fileIdx).offsetToBlockIndex r.offset) begun.gens
      ((journal r.fileIdx).numBlocksOf r.size)
  else begun.map

/-- The I/O and what follows it, with the cells as `journalBeginIO` left them and the
cells that a commit leaves. -/
def finishIteration (s : RwState G) (begun committed : CellMap) (res : IoResult) : LoopEnd G :=
  let r := s.nextRequest cfg
  if res.rwRes ≤ 0 then
    -- no commit, so a failed write stays "uninitialized"
    .returned (s.setCells r.fileIdx begun)
      (if res.rwRes < 0 then res.rwRes
        else getNumBytesTotal s.progress.gen - getNumBytesLeftToSubmit s.progress.draw.2)
  else match res.verifyError with
    | some msg => .threw (s.setCells r.fileIdx begun) msg
    | none => .next ((s.setCells r.fileIdx committed).account cfg res.rwRes.toNat)

/-- One pass of the loop of `rwBlockSized`. -/
def rwIteration (s : RwState G) (res : IoResult) : LoopEnd G :=
  if s.progress.bytesLeft then
    let r := s.nextRequest cfg
    if cfg.journalEnabled then
      let begun := s.journalBegin cfg journal
      if begun.action = .skip then .next (s.account cfg r.size)
      else s.finishIteration cfg begun.map (s.commitMap cfg journal) res
    else s.finishIteration cfg (s.cells r.fileIdx) (s.cells r.fileIdx) res
  else .returned s (getNumBytesTotal s.progress.gen)

/-! ## Runs without errors -/

section FullRuns

/-- The result of the next I/O if it succeeds. -/
def fullResult (s : RwState G) : IoResult := ⟨(s.nextRequest cfg).size, none⟩

/-- An iteration whose I/O succeeds. -/
def fullStep (s : RwState G) (_ : Unit) : Option (RwState G) :=
  match s.rwIteration cfg journal (s.fullResult cfg) with
  | .next s' => some s'
  | _ => none

variable {cfg} {s : RwState G}

/-- **An iteration whose I/O succeeds** processes the next request, whether the journal
reads, writes or skips it. -/
theorem fullStep_eq_some (hleft : s.progress.bytesLeft = true)
    (hpos : 0 < (s.nextRequest cfg).size) :
    ∃ cells, s.fullStep cfg journal () =
      some ⟨s.progress.next, cells, s.processed ++ [s.nextRequest cfg]⟩ := by
  have hres : ¬ (s.fullResult cfg).rwRes ≤ 0 := by
    show ¬ ((s.nextRequest cfg).size : ℤ) ≤ 0
    omega
  have hfinish : ∀ begun committed, s.finishIteration cfg begun committed (s.fullResult cfg) =
      .next ((s.setCells (s.nextRequest cfg).fileIdx committed).account cfg
        (s.nextRequest cfg).size) := by
    intro begun committed
    unfold finishIteration
    rw [if_neg hres]
    rfl
  unfold fullStep rwIteration
  rw [if_pos hleft]
  dsimp only
  split_ifs with hjournal hskip
  · exact ⟨_, rfl⟩
  · rw [hfinish]
    exact ⟨_, rfl⟩
  · rw [hfinish]
    exact ⟨_, rfl⟩

/-- Without bytes left, the loop returns the number of bytes of the generator. -/
theorem rwIteration_of_done (hleft : s.progress.bytesLeft = false) (res : IoResult) :
    s.rwIteration cfg journal res = .returned s (getNumBytesTotal s.progress.gen) := by
  unfold rwIteration
  rw [if_neg (by rw [hleft]; decide)]

end FullRuns

/-! ## Short writes -/

section ShortWrites

variable {cfg journal} {s s' : RwState G} {res : IoResult}

/-- An iteration of a journaled write that goes on to the next one has committed. -/
theorem rwIteration_write (hjournal : cfg.journalEnabled = true)
    (hwrite : (s.journalBegin cfg journal).action = .write)
    (h : s.rwIteration cfg journal res = .next s') :
    0 < res.rwRes ∧ s'.cells (s.nextRequest cfg).fileIdx = s.commitMap cfg journal := by
  unfold rwIteration at h
  dsimp only at h
  split_ifs at h with hleft hskip
  · rw [hwrite] at hskip
    exact absurd hskip (by decide)
  · unfold finishIteration at h
    dsimp only at h
    split_ifs at h with hres
    split at h
    · cases h
    · cases h
      exact ⟨not_le.mp hres, Function.update_self _ _ _⟩

/-- The cells after the iteration of a journaled write: all those of the request have
a new generation. -/
theorem cells_of_rwIteration_write (hjournal : cfg.journalEnabled = true)
    (hwrite : (s.journalBegin cfg journal).action = .write)
    (h : s.rwIteration cfg journal res = .next s') {j : Journal}
    (hj : journal (s.nextRequest cfg).fileIdx = j) (b : ℕ) :
    loadBlockGen (s'.cells (s.nextRequest cfg).fileIdx) b =
      if j.offsetToBlockIndex (s.nextRequest cfg).offset ≤ b ∧
          b < j.offsetToBlockIndex (s.nextRequest cfg).offset +
            j.numBlocksOf (s.nextRequest cfg).size then
        nextGen (loadBlockGen (s.cells (s.nextRequest cfg).fileIdx) b)
      else loadBlockGen (s.cells (s.nextRequest cfg).fileIdx) b := by
  subst hj
  rw [(rwIteration_write hjournal hwrite h).2, commitMap, if_pos hwrite]
  exact loadBlockGen_commit_beginCells hwrite b

end ShortWrites

end RwState

/-- A journal block shares bytes with a range of the target. -/
def Journal.Touches (j : Journal) (b off len : ℕ) : Prop :=
  j.blockOffset b < off + len ∧ off < j.blockOffset b + j.journalBlockSize

/-- A journal block lies in a range of the target. -/
def Journal.Within (j : Journal) (b off len : ℕ) : Prop :=
  off ≤ j.blockOffset b ∧ j.blockOffset b + j.journalBlockSize ≤ off + len

/-- Of the blocks that a request touches, only those that were completely written have
a generation. -/
def OnlyWrittenCommitted (j : Journal) (map : CellMap) (r : Request) (numWritten : ℕ) : Prop :=
  ∀ b, j.Touches b r.offset r.size → loadBlockGen map b ≠ 0 → j.Within b r.offset numWritten

/-- The blocks of an aligned request in whole blocks are the blocks it touches. -/
theorem Journal.touches_aligned {j : Journal} {b base n off : ℕ} (hoff : off = j.blockOffset base)
    (h : j.Touches b off (n * j.journalBlockSize)) : base ≤ b ∧ b < base + n := by
  obtain ⟨hend, hstart⟩ := h
  subst hoff
  have hpos := j.journalBlockSize_pos
  unfold Journal.blockOffset at hend hstart
  constructor
  · by_contra hlt
    have := Nat.mul_le_mul_right j.journalBlockSize (show b + 1 ≤ base by omega)
    rw [Nat.add_one_mul] at this
    omega
  · by_contra hge
    have := Nat.mul_le_mul_right j.journalBlockSize (show base + n ≤ b by omega)
    rw [Nat.add_mul] at this
    omega

/-- The block of an offset holds the offset. -/
theorem Journal.blockOffset_offsetToBlockIndex_le {j : Journal} {off : ℕ}
    (hle : j.targetOffset ≤ off) (hlt : off < Word64.size) :
    j.blockOffset (j.offsetToBlockIndex off) ≤ off ∧
      off < j.blockOffset (j.offsetToBlockIndex off) + j.journalBlockSize := by
  have hdiv := Nat.div_add_mod (off - j.targetOffset) j.journalBlockSize
  have hmod := Nat.mod_lt (off - j.targetOffset) j.journalBlockSize_pos
  rw [offsetToBlockIndex_eq hle hlt, Journal.blockOffset, Nat.mul_comm]
  omega

/-- The number of blocks of a length: the last one starts before the end and reaches
it. -/
theorem maxBlocks_bounds (j : Journal) {len : ℕ} (hlen : 0 < len) :
    0 < maxBlocks j len ∧ (maxBlocks j len - 1) * j.journalBlockSize < len ∧
      len ≤ maxBlocks j len * j.journalBlockSize := by
  have hpos := j.journalBlockSize_pos
  have hdiv := Nat.div_add_mod (len + j.journalBlockSize - 1) j.journalBlockSize
  have hmod := Nat.mod_lt (len + j.journalBlockSize - 1) hpos
  refine ⟨Nat.div_pos (by omega) hpos, ?_⟩
  rw [maxBlocks, Nat.sub_one_mul, Nat.mul_comm]
  omega

section Geometry

variable {j : Journal} {off len numWritten : ℕ} {old : ℕ → ℕ}

/-- The cell of a block after a write that set all the cells of its request. -/
def cellAfterWrite (j : Journal) (off len : ℕ) (old : ℕ → ℕ) (b : ℕ) : ℕ :=
  if j.offsetToBlockIndex off ≤ b ∧ b < j.offsetToBlockIndex off + j.numBlocksOf len then
    nextGen (old b)
  else old b

theorem cellAfterWrite_ne_zero {i : ℕ} (hi : i < j.numBlocksOf len) :
    cellAfterWrite j off len old (j.offsetToBlockIndex off + i) ≠ 0 := by
  rw [cellAfterWrite, if_pos (by omega)]
  exact (nextGen_pos _).ne'

/-- If only written blocks have a generation, then the request was aligned and was
written in full: look at its first block and at its last one. -/
theorem aligned_of_onlyWritten (hle : j.targetOffset ≤ off) (hlt : off < Word64.size)
    (hfit : len + j.journalBlockSize ≤ Word64.size) (hpos : 0 < numWritten)
    (hres : numWritten ≤ len)
    (h : ∀ b, j.Touches b off len → cellAfterWrite j off len old b ≠ 0 →
      j.Within b off numWritten) :
    j.journalBlockSize ∣ off - j.targetOffset ∧ j.journalBlockSize ∣ len ∧ numWritten = len := by
  have hbs := j.journalBlockSize_pos
  have hn : j.numBlocksOf len = maxBlocks j len := numBlocksOf_eq (by omega)
  obtain ⟨hn0, hlast, hend⟩ := maxBlocks_bounds j (show 0 < len by omega)
  obtain ⟨hfirst, hfirst'⟩ := Journal.blockOffset_offsetToBlockIndex_le hle hlt
  have hcell : ∀ i < maxBlocks j len,
      cellAfterWrite j off len old (j.offsetToBlockIndex off + i) ≠ 0 :=
    fun i hi => cellAfterWrite_ne_zero (hn ▸ hi)
  have hstart : off = j.blockOffset (j.offsetToBlockIndex off) := by
    have hwithin := h (j.offsetToBlockIndex off) ⟨by omega, hfirst'⟩ (hcell 0 hn0)
    exact le_antisymm hwithin.1 hfirst
  have hoffset : ∀ i, j.blockOffset (j.offsetToBlockIndex off + i) =
      off + i * j.journalBlockSize := by
    intro i
    conv_rhs => rw [hstart]
    rw [Journal.blockOffset, Journal.blockOffset, Nat.add_mul, Nat.add_assoc]
  have hwithin := h (j.offsetToBlockIndex off + (maxBlocks j len - 1))
    ⟨by rw [hoffset]; omega, by rw [hoffset]; omega⟩ (hcell _ (by omega))
  have hfull : maxBlocks j len * j.journalBlockSize ≤ numWritten := by
    have hend' := hwithin.2
    rw [hoffset, Nat.sub_one_mul] at hend'
    have := Nat.le_mul_of_pos_left j.journalBlockSize hn0
    omega
  refine ⟨⟨j.offsetToBlockIndex off, ?_⟩, ⟨maxBlocks j len, ?_⟩, by omega⟩
  · rw [Nat.mul_comm]
    have := hstart
    unfold Journal.blockOffset at this
    omega
  · rw [Nat.mul_comm]
    omega

/-- The blocks that an aligned request in whole blocks touches lie in its range. -/
theorem within_of_aligned (hle : j.targetOffset ≤ off) (hlt : off < Word64.size)
    (halign : j.journalBlockSize ∣ off - j.targetOffset) (hdvd : j.journalBlockSize ∣ len)
    {b : ℕ} (htouch : j.Touches b off len) : j.Within b off len := by
  have hstart := Journal.blockOffset_offsetToBlockIndex hle hlt halign
  obtain ⟨k, rfl⟩ := hdvd
  rw [Nat.mul_comm] at htouch ⊢
  obtain ⟨hlo, hhi⟩ := Journal.touches_aligned hstart.symm htouch
  have h1 := Nat.mul_le_mul_right j.journalBlockSize hlo
  have h2 := Nat.mul_le_mul_right j.journalBlockSize
    (show b + 1 ≤ j.offsetToBlockIndex off + k by omega)
  rw [Nat.add_one_mul, Nat.add_mul] at h2
  unfold Journal.blockOffset at hstart
  unfold Journal.Within Journal.blockOffset
  omega

end Geometry

/-- **Which short writes the journal gets right.**  In an iteration of `rwBlockSized`
whose journaled write returned a positive number of bytes, the blocks of the request
that have a generation afterwards are completely written exactly if the request starts
at a journal block, has whole journal blocks and was written in full.  The size of a
request and of a journal block together are those of two objects in memory, so their
sum is a word. -/
theorem onlyWrittenCommitted_iff {G : Type*} [OffsetGenerator G] (cfg : WorkerConfig)
    (journal : ℕ → Journal) (s s' : RwState G) (res : IoResult)
    (hjournal : cfg.journalEnabled = true)
    (hwrite : (s.journalBegin cfg journal).action = .write)
    (hstep : s.rwIteration cfg journal res = .next s')
    (hres : res.rwRes ≤ (s.nextRequest cfg).size)
    (hrange : (journal (s.nextRequest cfg).fileIdx).targetOffset ≤ (s.nextRequest cfg).offset)
    (hfit : (s.nextRequest cfg).size + (journal (s.nextRequest cfg).fileIdx).journalBlockSize ≤
      Word64.size) :
    OnlyWrittenCommitted (journal (s.nextRequest cfg).fileIdx)
        (s'.cells (s.nextRequest cfg).fileIdx) (s.nextRequest cfg) res.rwRes.toNat ↔
      (journal (s.nextRequest cfg).fileIdx).journalBlockSize ∣
          (s.nextRequest cfg).offset - (journal (s.nextRequest cfg).fileIdx).targetOffset ∧
        (journal (s.nextRequest cfg).fileIdx).journalBlockSize ∣ (s.nextRequest cfg).size ∧
        res.rwRes = (s.nextRequest cfg).size := by
  have hpos := (RwState.rwIteration_write hjournal hwrite hstep).1
  have hcells := RwState.cells_of_rwIteration_write hjournal hwrite hstep rfl
  have hlt : (s.nextRequest cfg).offset < Word64.size := s.nextRequest_offset_lt cfg
  constructor
  · intro h
    have hafter : ∀ b, (journal (s.nextRequest cfg).fileIdx).Touches b (s.nextRequest cfg).offset
        (s.nextRequest cfg).size →
        cellAfterWrite (journal (s.nextRequest cfg).fileIdx) (s.nextRequest cfg).offset
          (s.nextRequest cfg).size (loadBlockGen (s.cells (s.nextRequest cfg).fileIdx)) b ≠ 0 →
        (journal (s.nextRequest cfg).fileIdx).Within b (s.nextRequest cfg).offset
          res.rwRes.toNat :=
      fun b htouch hne => h b htouch (by rw [hcells]; exact hne)
    obtain ⟨halign, hdvd, hfull⟩ :=
      aligned_of_onlyWritten hrange hlt hfit (by omega) (by omega) hafter
    exact ⟨halign, hdvd, by omega⟩
  · rintro ⟨halign, hdvd, hfull⟩ b htouch -
    have := within_of_aligned hrange hlt halign hdvd htouch
    rwa [hfull, Int.toNat_natCast]

/-! ### A file of two journal blocks, written with one call -/

/-- The journal of a file of two blocks of 4 KiB. -/
def twoBlockJournal : Journal where
  journalBlockSize := 4096
  targetOffset := 0
  targetSize := 8192
  journalSeed := 0#64
  journalBlockSize_pos := Word64.page_pos
  journalBlockSize_lt := Word64.page_lt_size
  targetOffset_lt := Word64.size_pos
  targetSize_lt := Word64.twoPages_lt_size

/-- A worker that writes the file with blocks of 8 KiB. -/
def twoBlockWriter : WorkerConfig where
  workerRank := 0
  benchPhase := .createFiles
  currentBenchPhase := .createFiles
  rwMixReadPercent := 0
  fileSize := 8192
  fileOffset := 0
  numFiles := 1
  journalEnabled := true

/-- The worker at the start, with an empty journal. -/
def twoBlockStart : RwState OffsetGenSequential where
  progress :=
    { gen := .make 8192 0 (.single 8192 (by decide) Word64.twoPages_lt_size) fun _ => 0#64
      numIOPSSubmitted := 0 }
  cells := fun _ _ => 0#8
  processed := []

/-- A write of the whole file leaves the cells right. -/
theorem onlyWrittenCommitted_fullWrite :
    ∃ s', twoBlockStart.rwIteration twoBlockWriter (fun _ => twoBlockJournal) ⟨8192, none⟩ =
        .next s' ∧
      loadBlockGen (s'.cells 0) 1 = 1 ∧
      OnlyWrittenCommitted twoBlockJournal (s'.cells 0) (twoBlockStart.nextRequest twoBlockWriter)
        8192 :=
  ⟨_, rfl, by decide, (onlyWrittenCommitted_iff twoBlockWriter (fun _ => twoBlockJournal)
    twoBlockStart _ ⟨8192, none⟩ rfl (by decide) rfl (by decide) (by decide) (by decide)).mpr
      (by decide)⟩

/-- **A short write is committed in full.**  The call writes the first of the two
blocks and returns 4096; afterwards the journal promises a content of both. -/
theorem shortWrite_commits_unwritten :
    ∃ s', twoBlockStart.rwIteration twoBlockWriter (fun _ => twoBlockJournal) ⟨4096, none⟩ =
        .next s' ∧
      twoBlockStart.nextRequest twoBlockWriter = ⟨0, 0, 8192, .journaled .write⟩ ∧
      loadBlockGen (s'.cells 0) 1 = 1 ∧
      ¬ OnlyWrittenCommitted twoBlockJournal (s'.cells 0)
        (twoBlockStart.nextRequest twoBlockWriter) 4096 := by
  refine ⟨_, rfl, by decide, by decide, ?_⟩
  intro h
  have hwithin := h 1 ⟨by decide, by decide⟩ (by decide)
  exact absurd hwithin.2 (by decide)

end Elbencho
