import Elbencho.Args.PathDependent
import Elbencho.Journal.Locking
import Elbencho.Library.Blocks

/-!
# Opening the journals

`JournalStore::init` opens one journal for each target: an existing one, if a sidecar file
in the journal directory names the target, otherwise a new one for the range of the run.
The range of an existing journal has to contain the range of the run; the ends of both are
sums of words.

`JournalDir` is the directory with everything the system calls answer.  `Opened` is what is
known of a journal that `init` has accepted.

**The cells of a run.**  `CellsInside` says that every I/O inside the range of the run uses
only blocks and bytes that the journal has.  `cellsInside_iff` says for which accepted runs
that is so: the check of the ends is right unless the end of the run wraps around, and the
size of the journal file is right unless twice the number of blocks does.
-/

namespace Elbencho

open Blocks Checks

/-! ## The journal directory -/

/-- A sidecar file, as `scanSidecars` reads it. -/
structure SidecarInfo where
  target : String
  journalBlockSize : ℕ
  targetOffset : ℕ
  targetSize : ℕ
  journalSeed : BitVec 64
  binaryPath : String
  journalBlockSize_lt : journalBlockSize < Word64.size
  targetOffset_lt : targetOffset < Word64.size
  targetSize_lt : targetSize < Word64.size

/-- The journal directory, as the system calls show it: whether it is one, the sidecar
files in it or why they cannot be read, and the results of creating, measuring and mapping
journal files. -/
structure JournalDir where
  isDirectory : Bool
  scanSidecars : Except String (List SidecarInfo)
  newSeed : String → BitVec 64
  newBinaryPath : String → String
  createError : String → Option String
  binarySize : String → Except String ℕ
  mmapError : String → Option String

/-- What `JournalStore::init` reads of the arguments. -/
structure JournalRun where
  journalDirStr : String
  benchPaths : List String
  journalBlockSize : ℕ
  fileOffset : ℕ
  fileSize : ℕ
  journalBlockSize_lt : journalBlockSize < Word64.size
  fileOffset_lt : fileOffset < Word64.size
  fileSize_lt : fileSize < Word64.size

/-- Stop if a system call has failed. -/
def stopOnError : Option String → Except Stop Unit
  | some msg => .error (.threw msg)
  | none => .ok ()

/-- A result of the system, or an exception. -/
def orThrow {α : Type} : Except String α → Except Stop α
  | .error msg => .error (.threw msg)
  | .ok x => .ok x

theorem eq_of_orThrow {α : Type} {x : Except String α} {y : α} (h : orThrow x = .ok y) :
    x = .ok y := by
  cases x with
  | error msg => cases h
  | ok z => exact congrArg Except.ok (Except.ok.inj h)

namespace JournalDir

variable (dir : JournalDir)

/-- `mmapBinaryFile`.  The system refuses a mapping of length 0. -/
def mmapBinaryFile (binaryPath : String) (j : Journal) : Except Stop Journal := do
  stopIf (j.mapLength = 0)
    (.threw ("Unable to mmap journal binary file. Path: " ++ binaryPath ++ "; Size: 0; " ++
      "SysErr: Invalid argument"))
  stopOnError (dir.mmapError binaryPath)
  pure j

/-- `createNew`.  The number of blocks is a quotient; the space of the file is allocated
before it is mapped, which the system refuses for a length of 0. -/
def createNew (run : JournalRun) (target : String) : Except Stop Journal :=
  if h : 0 < run.journalBlockSize then do
    let j : Journal :=
      { journalBlockSize := run.journalBlockSize
        targetOffset := run.fileOffset
        targetSize := run.fileSize
        journalSeed := dir.newSeed target
        journalBlockSize_pos := h
        journalBlockSize_lt := run.journalBlockSize_lt
        targetOffset_lt := run.fileOffset_lt
        targetSize_lt := run.fileSize_lt }
    stopOnError (dir.createError target)
    stopIf (j.mapLength = 0)
      (.threw ("Unable to preallocate journal binary file disk space. Path: " ++
        dir.newBinaryPath target ++ "; Size: 0; SysErr: Invalid argument"))
    dir.mmapBinaryFile (dir.newBinaryPath target) j
  else .error .crashed

/-- `openExisting`. -/
def openExisting (sidecar : SidecarInfo) : Except Stop Journal :=
  if h : 0 < sidecar.journalBlockSize then do
    let j : Journal :=
      { journalBlockSize := sidecar.journalBlockSize
        targetOffset := sidecar.targetOffset
        targetSize := sidecar.targetSize
        journalSeed := sidecar.journalSeed
        journalBlockSize_pos := h
        journalBlockSize_lt := sidecar.journalBlockSize_lt
        targetOffset_lt := sidecar.targetOffset_lt
        targetSize_lt := sidecar.targetSize_lt }
    let size ← orThrow (dir.binarySize sidecar.binaryPath)
    stopIf (size ≠ j.mapLength)
      (.threw ("Existing journal binary file size does not match the size derived from its " ++
        "sidecar. Path: " ++ sidecar.binaryPath ++ "; Expected size: " ++ toString j.mapLength ++
        "; Actual size: " ++ toString size))
    dir.mmapBinaryFile sidecar.binaryPath j
  else .error .crashed

/-- The end of the run's range, in 64 bits. -/
def runEndOffset (run : JournalRun) : ℕ := Word64.add run.fileOffset run.fileSize

/-- The end of an existing journal's range, in 64 bits. -/
def sidecarEndOffset (sidecar : SidecarInfo) : ℕ :=
  Word64.add sidecar.targetOffset sidecar.targetSize

/-- The journal for a target that has a sidecar. -/
def resume (run : JournalRun) (targetPath : String) (sidecar : SidecarInfo) :
    Except Stop Journal := do
  stopIf (sidecar.journalBlockSize ≠ run.journalBlockSize)
    (.threw ("Existing journal's block size does not match \"--journalblock\" given for this " ++
      "run. All journals used in a run must share the same journal block size. Target: " ++
      targetPath ++ "; Existing journal block size: " ++ toString sidecar.journalBlockSize ++
      "; Given journal block size: " ++ toString run.journalBlockSize))
  stopIf (run.fileOffset < sidecar.targetOffset ∨ sidecarEndOffset sidecar < runEndOffset run)
    (.threw ("Requested \"--offset\"/\"--size\" range exceeds the range that the existing " ++
      "journal for this target was originally created for. Target: " ++ targetPath ++
      "; Requested range: [" ++ toString run.fileOffset ++ ", " ++ toString (runEndOffset run) ++
      "); Journal range: [" ++ toString sidecar.targetOffset ++ ", " ++
      toString (sidecarEndOffset sidecar) ++ ")"))
  dir.openExisting sidecar

/-- The journal of a target. -/
def journalOf (run : JournalRun) (sidecars : List SidecarInfo) (targetPath : String) :
    Except Stop Journal :=
  match sidecars.filter (·.target = targetPath) with
  | [] => dir.createNew run targetPath
  | [sidecar] => dir.resume run targetPath sidecar
  | found => .error (.threw ("Ambiguous journal sidecars found for target (more than one " ++
      "sidecar's \"target\" field matches). Target: " ++ targetPath ++
      "; Num matching sidecars: " ++ toString found.length))

/-- `JournalStore::init`: the journals of the targets, in their order. -/
def init (run : JournalRun) : Except Stop (List Journal) := do
  stopIf (¬ dir.isDirectory)
    (.threw ("Journal directory (\"--journaldir\") does not exist or is not a directory. Path: " ++
      run.journalDirStr))
  let sidecars ← orThrow dir.scanSidecars
  run.benchPaths.mapM (dir.journalOf run sidecars)

/-! ## What is known of an accepted journal -/

end JournalDir

/-- An accepted journal: it is a new one for the range of the run, or an existing one with
the same block size that passed the check of the ranges; and its file is not empty. -/
structure Opened (run : JournalRun) (j : Journal) : Prop where
  journalBlockSize_eq : j.journalBlockSize = run.journalBlockSize
  targetOffset_le : j.targetOffset ≤ run.fileOffset
  end_le : Word64.add run.fileOffset run.fileSize ≤ Word64.add j.targetOffset j.targetSize
  mapLength_ne : j.mapLength ≠ 0

namespace JournalDir

variable {dir : JournalDir} {run : JournalRun} {j : Journal}

theorem mmapBinaryFile_eq_ok {path : String} {j' : Journal}
    (h : dir.mmapBinaryFile path j = .ok j') : j' = j ∧ j.mapLength ≠ 0 := by
  simp only [mmapBinaryFile, bind_eq_ok, stopIf_eq_ok] at h
  obtain ⟨_, hne, _, -, hok⟩ := h
  exact ⟨(Except.ok.inj hok).symm, hne⟩

/-- A new journal has the range of the run. -/
theorem createNew_eq_ok {target : String} (h : dir.createNew run target = .ok j) :
    j.mapLength ≠ 0 ∧ j.journalBlockSize = run.journalBlockSize ∧
      j.targetOffset = run.fileOffset ∧ j.targetSize = run.fileSize := by
  unfold createNew at h
  split_ifs at h with hpos
  simp only [bind_eq_ok] at h
  obtain ⟨_, -, _, -, hmmap⟩ := h
  obtain ⟨rfl, hne⟩ := mmapBinaryFile_eq_ok hmmap
  exact ⟨hne, rfl, rfl, rfl⟩

/-- An existing journal has the range of its sidecar. -/
theorem openExisting_eq_ok {sidecar : SidecarInfo} (h : dir.openExisting sidecar = .ok j) :
    j.mapLength ≠ 0 ∧ j.journalBlockSize = sidecar.journalBlockSize ∧
      j.targetOffset = sidecar.targetOffset ∧ j.targetSize = sidecar.targetSize := by
  unfold openExisting at h
  split_ifs at h with hpos
  simp only [bind_eq_ok] at h
  obtain ⟨_, -, _, -, hmmap⟩ := h
  obtain ⟨rfl, hne⟩ := mmapBinaryFile_eq_ok hmmap
  exact ⟨hne, rfl, rfl, rfl⟩

theorem opened_of_createNew {target : String} (h : dir.createNew run target = .ok j) :
    Opened run j := by
  obtain ⟨hne, hsize, hoffset, htotal⟩ := createNew_eq_ok h
  exact ⟨hsize, le_of_eq hoffset, by rw [hoffset, htotal], hne⟩

theorem opened_of_resume {target : String} {sidecar : SidecarInfo}
    (h : dir.resume run target sidecar = .ok j) : Opened run j := by
  simp only [resume, stopIf_bind_eq_ok] at h
  obtain ⟨hsize, hrange, hopen⟩ := h
  obtain ⟨hstart, hend⟩ := not_or.mp hrange
  obtain ⟨hne, hsize', hoffset, htotal⟩ := openExisting_eq_ok hopen
  refine ⟨hsize'.trans (not_not.mp hsize), hoffset ▸ not_lt.mp hstart, ?_, hne⟩
  rw [hoffset, htotal]
  exact not_lt.mp hend

/-- **Every journal of an accepted run** is opened for its range. -/
theorem opened_of_init {journals : List Journal} (h : dir.init run = .ok journals)
    (hj : j ∈ journals) : Opened run j := by
  simp only [init, bind_eq_ok] at h
  obtain ⟨_, -, sidecars, -, hjournals⟩ := h
  obtain ⟨target, -, hjournal⟩ := exists_of_mapM_eq_ok hjournals hj
  unfold journalOf at hjournal
  split at hjournal
  · exact opened_of_createNew hjournal
  · exact opened_of_resume hjournal
  · cases hjournal

/-- Where the range of a journal comes from: the run, or a sidecar file. -/
theorem target_of_init {journals : List Journal} (h : dir.init run = .ok journals)
    (hj : j ∈ journals) :
    j.targetOffset = run.fileOffset ∧ j.targetSize = run.fileSize ∨
      ∃ sidecars, dir.scanSidecars = .ok sidecars ∧ ∃ sidecar ∈ sidecars,
        j.journalBlockSize = sidecar.journalBlockSize ∧
        j.targetOffset = sidecar.targetOffset ∧ j.targetSize = sidecar.targetSize := by
  simp only [init, bind_eq_ok] at h
  obtain ⟨_, -, sidecars, hscan, hjournals⟩ := h
  obtain ⟨target, -, hjournal⟩ := exists_of_mapM_eq_ok hjournals hj
  unfold journalOf at hjournal
  split at hjournal
  · obtain ⟨-, -, hrange⟩ := createNew_eq_ok hjournal
    exact Or.inl hrange
  · next sidecar hfilter =>
    refine Or.inr ⟨sidecars, eq_of_orThrow hscan, sidecar, ?_, ?_⟩
    · exact List.mem_of_mem_filter (hfilter ▸ List.mem_singleton_self sidecar)
    · simp only [resume, stopIf_bind_eq_ok] at hjournal
      obtain ⟨-, -, hopen⟩ := hjournal
      exact (openExisting_eq_ok hopen).2
  · cases hjournal

end JournalDir

/-! ## The cells of a run -/

/-- Every block index that `begin` computes for an I/O inside the range of a run is one of
the journal, and the byte of its cell is one of the file. -/
def CellsInside (j : Journal) (runOffset fileSize : ℕ) : Prop :=
  ∀ absoluteOffset ioLen, runOffset ≤ absoluteOffset →
    absoluteOffset + ioLen ≤ runOffset + fileSize → absoluteOffset < Word64.size →
    ∀ i < j.numBlocksOf ioLen,
      Word64.add (j.offsetToBlockIndex absoluteOffset) i < j.numJournalBlocks ∧
        (cellLocation (Word64.add (j.offsetToBlockIndex absoluteOffset) i)).1 < j.mapLength

/-- The number of blocks that have a cell in the file. -/
def Journal.numCells (j : Journal) : ℕ :=
  min (numBlocks j.targetSize j.journalBlockSize) (4 * j.mapLength)

/-- The range of the run ends in the blocks that have a cell.  (If these reach over the end
of the 64-bit range, the run may go behind them, unless an I/O can have a second block.) -/
def RangeInside (j : Journal) (runOffset fileSize : ℕ) : Prop :=
  fileSize = 0 ∨ runOffset + fileSize ≤ j.blockOffset j.numCells ∨
    Word64.size ≤ j.blockOffset j.numCells ∧
      (Word64.size ≤ 2 * j.journalBlockSize ∨ fileSize ≤ j.journalBlockSize)

namespace Journal

variable {j : Journal}

/-- The number of blocks of a length, rounded up, unless the sum wraps around. -/
theorem numBlocksOf_eq_numBlocks {len : ℕ} (hfit : len + j.journalBlockSize ≤ Word64.size) :
    j.numBlocksOf len = numBlocks len j.journalBlockSize := by
  have hpos := j.journalBlockSize_pos
  have hmax : maxBlocks j len = (len + j.journalBlockSize - 1) / j.journalBlockSize := rfl
  rw [numBlocksOf_eq (by omega), hmax]
  refine eq_of_forall_lt_iff fun c => ?_
  rw [lt_numBlocks_iff hpos, ← Nat.succ_le_iff, Nat.le_div_iff_mul_le hpos, Nat.succ_mul]
  omega

theorem numBlocksOf_le {len : ℕ} (hlen : len < Word64.size) :
    j.numBlocksOf len ≤ numBlocks len j.journalBlockSize := by
  rcases le_or_gt (len + j.journalBlockSize) Word64.size with hfit | hwrap
  · exact le_of_eq (numBlocksOf_eq_numBlocks hfit)
  · rw [numBlocksOf_eq_zero hlen (by omega)]
    exact Nat.zero_le _

/-- A journal whose file is not empty has counted its blocks right. -/
theorem numJournalBlocks_eq (hne : j.mapLength ≠ 0) :
    j.targetSize + j.journalBlockSize ≤ Word64.size ∧
      j.numJournalBlocks = numBlocks j.targetSize j.journalBlockSize := by
  rcases le_or_gt (j.targetSize + j.journalBlockSize) Word64.size with hfit | hwrap
  · exact ⟨hfit, numBlocksOf_eq_numBlocks hfit⟩
  · have hzero : j.numJournalBlocks = 0 := numBlocksOf_eq_zero j.targetSize_lt (by omega)
    refine absurd ?_ hne
    rw [mapLength, hzero]
    rfl

/-- Unless twice the number of blocks wraps around, every block has a cell. -/
theorem numCells_eq (hne : j.mapLength ≠ 0) (hone : j.journalBlockSize ≠ 1) :
    j.numCells = numBlocks j.targetSize j.journalBlockSize := by
  have hpos := j.journalBlockSize_pos
  obtain ⟨hfit, hblocks⟩ := numJournalBlocks_eq hne
  have hsize : Word64.size = 2 ^ 64 := rfl
  have hhalf : 2 * numBlocks j.targetSize j.journalBlockSize ≤ j.targetSize + 1 := by
    have hle : numBlocks j.targetSize j.journalBlockSize ≤ (j.targetSize + 1) / 2 := by
      refine (numBlocks_le_iff hpos).mpr ?_
      have := Nat.mul_le_mul_left ((j.targetSize + 1) / 2) (show 2 ≤ j.journalBlockSize by omega)
      omega
    omega
  have hlt := j.targetSize_lt
  rw [numCells, min_eq_left]
  have hmap : j.mapLength =
      Word64.add (Word64.mul (numBlocks j.targetSize j.journalBlockSize) 2) 7 / 8 := by
    rw [mapLength, hblocks]
  rw [Word64.mul_eq (by omega)] at hmap
  rcases Nat.lt_or_ge (numBlocks j.targetSize j.journalBlockSize * 2 + 7) Word64.size with h | h
  · rw [Word64.add_eq h] at hmap
    omega
  · rw [Word64.add_eq_sub h (by omega) (by omega)] at hmap
    omega

end Journal

section Cells

variable {j : Journal} {runOffset fileSize : ℕ}

/-- An index is that of a block with a cell. -/
theorem index_iff (hne : j.mapLength ≠ 0) (idx : ℕ) :
    idx < j.numJournalBlocks ∧ (cellLocation idx).1 < j.mapLength ↔ idx < j.numCells := by
  have hbyte : (cellLocation idx).1 = idx / 4 := rfl
  rw [hbyte, (Journal.numJournalBlocks_eq hne).2, Journal.numCells]
  omega

/-- The block of the first byte of an I/O. -/
theorem offsetToBlockIndex_lt_iff {off m : ℕ} (hle : j.targetOffset ≤ off)
    (hlt : off < Word64.size) :
    j.offsetToBlockIndex off < m ↔ off < j.blockOffset m := by
  rw [Journal.offsetToBlockIndex_eq hle hlt, Nat.div_lt_iff_lt_mul j.journalBlockSize_pos,
    Journal.blockOffset]
  omega

/-- **The last block of an I/O** is not behind the block of its last byte. -/
theorem index_mul_lt {off len i : ℕ} (hle : j.targetOffset ≤ off) (hlt : off < Word64.size)
    (hi : i < numBlocks len j.journalBlockSize) :
    j.blockOffset (j.offsetToBlockIndex off + i) < off + len := by
  have hbegin := (lt_numBlocks_iff j.journalBlockSize_pos).mp hi
  have hbase := Nat.div_mul_le_self (off - j.targetOffset) j.journalBlockSize
  rw [Journal.offsetToBlockIndex_eq hle hlt, Journal.blockOffset, Nat.add_mul]
  omega

/-- An I/O that is not larger than a block has one block; and so has every I/O if a second
block would not fit into a word. -/
theorem numBlocksOf_le_one {len : ℕ} (hlen : len < Word64.size)
    (h : Word64.size ≤ 2 * j.journalBlockSize ∨ len ≤ j.journalBlockSize) :
    j.numBlocksOf len ≤ 1 := by
  have hone : len ≤ j.journalBlockSize → numBlocks len j.journalBlockSize ≤ 1 := fun hle =>
    (numBlocks_le_iff j.journalBlockSize_pos).mpr (by rwa [Nat.one_mul])
  rcases le_or_gt (len + j.journalBlockSize) Word64.size with hfit | hwrap
  · rw [Journal.numBlocksOf_eq_numBlocks hfit]
    exact hone (by omega)
  · rw [numBlocksOf_eq_zero hlen (by omega)]
    exact Nat.zero_le _

/-- A run whose range is inside uses only cells of the journal. -/
theorem RangeInside.cellsInside (hne : j.mapLength ≠ 0) (hstart : j.targetOffset ≤ runOffset)
    (hsize : fileSize < Word64.size) (h : RangeInside j runOffset fileSize) :
    CellsInside j runOffset fileSize := by
  intro off len hlo hhi hword i hi
  have hle : j.targetOffset ≤ off := hstart.trans hlo
  have hlen : len < Word64.size := by omega
  have hi' := lt_of_lt_of_le hi (Journal.numBlocksOf_le hlen)
  have hidx : j.offsetToBlockIndex off + i < j.numCells := by
    rcases h with hzero | hend | ⟨hcells, hone⟩
    · obtain rfl : len = 0 := by omega
      rw [numBlocks_zero] at hi'
      omega
    · have hbefore := index_mul_lt hle hword hi'
      have hlt : j.blockOffset (j.offsetToBlockIndex off + i) < j.blockOffset j.numCells := by omega
      unfold Journal.blockOffset at hlt
      exact Nat.lt_of_mul_lt_mul_right (Nat.lt_of_add_lt_add_left hlt)
    · have hblocks := numBlocksOf_le_one (j := j) hlen (by omega)
      obtain rfl : i = 0 := by omega
      exact (offsetToBlockIndex_lt_iff hle hword).mpr (by omega)
  rw [index_iff hne]
  exact lt_of_le_of_lt (Nat.mod_le _ _) hidx

/-- One byte is one block. -/
theorem CellsInside.byte (h : CellsInside j runOffset fileSize) (hne : j.mapLength ≠ 0)
    (hstart : j.targetOffset ≤ runOffset) (off : ℕ) (hlo : runOffset ≤ off)
    (hhi : off < runOffset + fileSize) (hword : off < Word64.size) :
    off < j.blockOffset j.numCells := by
  have hpos := j.journalBlockSize_pos
  have hbs := j.journalBlockSize_lt
  have hone : j.numBlocksOf 1 = 1 := by
    rw [Journal.numBlocksOf_eq_numBlocks (by omega)]
    refine le_antisymm ((numBlocks_le_iff hpos).mpr (by omega)) (numBlocks_pos hpos Nat.one_pos)
  have hidx := (index_iff hne _).mp (h off 1 hlo hhi hword 0 (by omega))
  have hbase : j.offsetToBlockIndex off < Word64.size :=
    lt_of_le_of_lt (Nat.div_le_self _ _) (Word64.sub_lt _ _)
  rw [Word64.add_eq (by omega), Nat.add_zero] at hidx
  exact (offsetToBlockIndex_lt_iff (hstart.trans hlo) hword).mp hidx

/-- There are fewer cells than words. -/
theorem Journal.numCells_lt (j : Journal) : j.numCells < Word64.size :=
  lt_of_le_of_lt ((min_le_left _ _).trans (numBlocks_le j.journalBlockSize_pos)) j.targetSize_lt

/-- No I/O of a run that uses only cells has the block behind the last cell. -/
theorem CellsInside.ne_numCells (h : CellsInside j runOffset fileSize) (hne : j.mapLength ≠ 0)
    (off len i : ℕ) (hlo : runOffset ≤ off) (hhi : off + len ≤ runOffset + fileSize)
    (hword : off < Word64.size) (hi : i < j.numBlocksOf len) :
    j.offsetToBlockIndex off + i ≠ j.numCells := by
  intro heq
  have hidx := (index_iff hne _).mp (h off len hlo hhi hword i hi)
  rw [Word64.add_eq (heq ▸ j.numCells_lt), heq] at hidx
  exact lt_irrefl _ hidx

/-- The range of a run that uses only cells of the journal is inside. -/
theorem CellsInside.rangeInside (h : CellsInside j runOffset fileSize)
    (hne : j.mapLength ≠ 0) (hstart : j.targetOffset ≤ runOffset)
    (hrun : runOffset < Word64.size) (hsize : fileSize < Word64.size)
    (hend : Word64.add runOffset fileSize ≤ Word64.add j.targetOffset j.targetSize) :
    RangeInside j runOffset fileSize := by
  rcases Nat.eq_zero_or_pos fileSize with hzero | hfile
  · exact Or.inl hzero
  refine Or.inr (or_iff_not_imp_left.mpr fun hgt => ?_)
  rw [not_le] at hgt
  have hpos := j.journalBlockSize_pos
  have hfirst := h.byte hne hstart runOffset le_rfl (Nat.lt_add_of_pos_right hfile) hrun
  -- the last cell is behind the 64-bit range: otherwise a byte behind it has an offset
  have hword : Word64.size ≤ j.blockOffset j.numCells := by
    by_contra hlt
    have := h.byte hne hstart (max runOffset (j.blockOffset j.numCells))
      (le_max_left _ _) (by omega) (by omega)
    omega
  refine ⟨hword, ?_⟩
  by_contra hnot
  obtain ⟨hhalf, hlarge⟩ := not_or.mp hnot
  rw [Journal.blockOffset] at hgt hword hfirst
  by_cases hone : j.journalBlockSize = 1
  · -- every byte is a block, and the run has the byte behind the last cell
    have hbase : j.offsetToBlockIndex runOffset = runOffset - j.targetOffset := by
      rw [Journal.offsetToBlockIndex_eq hstart hrun, hone, Nat.div_one]
    have hblocks : j.numBlocksOf fileSize = fileSize := by
      rw [Journal.numBlocksOf_eq_numBlocks (by omega), hone]
      conv_lhs => rw [← Nat.mul_one fileSize]
      exact numBlocks_mul Nat.one_pos fileSize
    rw [hone, Nat.mul_one] at hgt hfirst
    exact h.ne_numCells hne runOffset fileSize
      (j.numCells - (runOffset - j.targetOffset)) le_rfl le_rfl hrun (by omega) (by omega)
  · -- the last block begins in the 64-bit range, and an I/O from there has a second block
    have hcells := Journal.numCells_eq hne hone
    have hlast := (numBlocks_le_iff (n := j.targetSize) hpos).mp (le_of_eq hcells.symm)
    have htarget : j.targetOffset + j.targetSize < Word64.size := by
      by_contra hwrap
      rw [Word64.add_eq_sub (by omega) hrun hsize,
        Word64.add_eq_sub (by omega) j.targetOffset_lt j.targetSize_lt] at hend
      omega
    obtain ⟨n, hn⟩ : ∃ n, j.numCells = n + 1 := by
      refine Nat.exists_eq_add_one_of_ne_zero fun hzero => ?_
      have := j.targetOffset_lt
      rw [hzero, Nat.zero_mul] at hword
      omega
    have hbegin := (lt_numBlocks_iff hpos).mp (show n < numBlocks j.targetSize j.journalBlockSize by
      omega)
    rw [hn, Nat.add_one_mul] at hgt hword hfirst
    have htwo : j.numBlocksOf (j.journalBlockSize + 1) = 2 := by
      rw [Journal.numBlocksOf_eq_numBlocks (by omega)]
      refine le_antisymm ((numBlocks_le_iff hpos).mpr (by omega))
        ((lt_numBlocks_iff hpos).mpr (by omega))
    have hbase : j.offsetToBlockIndex (max runOffset (j.targetOffset + n * j.journalBlockSize)) =
        n := by
      rw [Journal.offsetToBlockIndex_eq (by omega) (by omega)]
      refine le_antisymm (Nat.le_of_lt_succ ?_) ?_
      · rw [Nat.div_lt_iff_lt_mul hpos, Nat.succ_mul]
        omega
      · rw [Nat.le_div_iff_mul_le hpos]
        omega
    exact h.ne_numCells hne (max runOffset (j.targetOffset + n * j.journalBlockSize))
      (j.journalBlockSize + 1) 1 (le_max_left _ _) (by omega) (by omega) (by omega)
      (by omega)

end Cells

/-- **Cell accesses stay inside the mapping** exactly if the range of the run ends in the
blocks that have a cell: for every journal of every run that `JournalStore::init` accepts,
with all sidecar files, offsets and sizes. -/
theorem cellsInside_iff (dir : JournalDir) (run : JournalRun) (journals : List Journal)
    (h : dir.init run = .ok journals) (j : Journal) (hj : j ∈ journals) :
    CellsInside j run.fileOffset run.fileSize ↔ RangeInside j run.fileOffset run.fileSize := by
  have hopened := JournalDir.opened_of_init h hj
  exact ⟨fun hcells => hcells.rangeInside hopened.mapLength_ne hopened.targetOffset_le
      run.fileOffset_lt run.fileSize_lt hopened.end_le,
    fun hrange => hrange.cellsInside hopened.mapLength_ne hopened.targetOffset_le run.fileSize_lt⟩

/-! ### The end of the run wraps around -/

/-- A sidecar for the first 8 KiB of a target, in blocks of 4 KiB. -/
def twoBlockSidecar : SidecarInfo where
  target := "/a"
  journalBlockSize := 4096
  targetOffset := 0
  targetSize := 8192
  journalSeed := 0#64
  binaryPath := "/j/a.journal"
  journalBlockSize_lt := Word64.page_lt_size
  targetOffset_lt := Word64.size_pos
  targetSize_lt := Word64.twoPages_lt_size

/-- The directory with this sidecar and its file. -/
def twoBlockDir : JournalDir where
  isDirectory := true
  scanSidecars := .ok [twoBlockSidecar]
  newSeed := fun _ => 0#64
  newBinaryPath := fun target => target
  createError := fun _ => none
  binarySize := fun _ => .ok 1
  mmapError := fun _ => none

/-- A run on some range of the target. -/
def runOn (fileOffset fileSize : ℕ) (hoffset : fileOffset < Word64.size)
    (hsize : fileSize < Word64.size) : JournalRun where
  journalDirStr := "/j"
  benchPaths := ["/a"]
  journalBlockSize := 4096
  fileOffset := fileOffset
  fileSize := fileSize
  journalBlockSize_lt := Word64.page_lt_size
  fileOffset_lt := hoffset
  fileSize_lt := hsize

/-- A run on the second block. -/
def secondBlock : JournalRun := runOn 4096 4096 Word64.page_lt_size Word64.page_lt_size

/-- It uses the second cell. -/
theorem cellsInside_secondBlock :
    ∃ j, twoBlockDir.init secondBlock = .ok [j] ∧
      CellsInside j secondBlock.fileOffset secondBlock.fileSize := by
  refine ⟨_, rfl, (cellsInside_iff twoBlockDir secondBlock _ rfl _ List.mem_cons_self).mpr ?_⟩
  exact Or.inr (Or.inl (by decide))

/-- A run on the upper half of the 64-bit range. -/
def upperHalf : JournalRun :=
  runOn 9223372036854775808 9223372036854775808 (by decide) (by decide)

/-- **A run far behind the journal is accepted.**  Its end is `2 ^ 64`, which wraps around
to 0; its first I/O has the block `2 ^ 51` of a journal with two blocks. -/
theorem upperHalf_accepted :
    ∃ j, twoBlockDir.init upperHalf = .ok [j] ∧ j.numJournalBlocks = 2 ∧ j.mapLength = 1 ∧
      j.numBlocksOf 4096 = 1 ∧ j.offsetToBlockIndex upperHalf.fileOffset = 2 ^ 51 ∧
      ¬ CellsInside j upperHalf.fileOffset upperHalf.fileSize := by
  refine ⟨_, rfl, by decide, by decide, by decide, by decide, fun h => ?_⟩
  have hcell := (h upperHalf.fileOffset 4096 le_rfl (by decide) (by decide) 0 (by decide)).1
  exact absurd hcell (by decide)

end Elbencho
