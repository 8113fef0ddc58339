import Elbencho.Library.Checks
import Elbencho.OffsetGen.Generators

/-!
# The path dependent checks of the arguments

`checkPathDependentArgs` is the last check before the workers start.  It knows the type
of the benchmark paths and the size of the files.  Besides refusing arguments it
changes them: it rounds the file size down to journal blocks and to I/O blocks, reduces
the block size to the file size, derives the random amount and rounds it down.  The
workers then compute with the changed arguments.

The function is a sequence of stages here, in the order of the source.  A stage that can
stop returns in `Except Stop`; besides the exceptions of the source a division by zero
stops the program.  The log messages are left out, except that the conditions of two of
them divide.

* `ProgArgs` are the arguments that the function reads, with what `convertUnitStrings`
  and `checkArgs` have established before.
* `FileModeOk` and `JournalOk` are what the workers can rely on, and
  `checkPathDependentArgs_spec` says that every accepted configuration has it.
-/

namespace Elbencho

open Checks

/-- What the benchmark runs against. -/
inductive BenchMode where
  | undefined
  | posix
  | s3
  | hdfs
  | netbench
  | spdk
  deriving DecidableEq

/-- The type of the benchmark paths. -/
inductive BenchPathType where
  | dir
  | file
  | blockDev
  deriving DecidableEq

/-- Why the program stops: an exception, or a division by zero. -/
inductive Stop where
  | threw (msg : String)
  | crashed
  deriving DecidableEq

/-- The arguments.  The last fields are what is known of them when their path dependent
checks begin: sizes, amounts and counts are words, the block size is the largest one of the mix (until it is reduced to 0),
there are threads and paths, at most one of the access patterns is chosen, and the
strided and the reverse one have no mix. -/
structure ProgArgs where
  benchMode : BenchMode
  benchPathType : BenchPathType
  benchPathsVec : List String
  treeFilePath : String
  runCreateFilesPhase : Bool
  runReadPhase : Bool
  runStatFilesPhase : Bool
  hasUserSetRWMixPercent : Bool
  hasUserSetRWMixReadThreads : Bool
  runS3ListObjNum : ℕ
  runS3AclPut : Bool
  runS3AclGet : Bool
  runS3BucketAclPut : Bool
  runS3BucketAclGet : Bool
  s3EndpointsVec : List String
  s3MpuSizeVariance : ℕ
  useS3RandObjSelect : Bool
  numDirs : ℕ
  numFiles : ℕ
  numDataSetThreads : ℕ
  doReverseSeqOffsets : Bool
  useRandomOffsets : Bool
  useRandomUnaligned : Bool
  useStridedAccess : Bool
  randOffsetAlgo : String
  useDirectIo : Bool
  noDirectIoCheck : Bool
  doInfiniteIoLoop : Bool
  ignoreDelErrors : Bool
  fileSize : ℕ
  fileOffset : ℕ
  blockSize : ℕ
  blockSizeMix : BlockSizeMix
  randomAmount : ℕ
  journalDirStr : String
  journalBlockSize : ℕ
  fileSize_lt : fileSize < Word64.size
  fileOffset_lt : fileOffset < Word64.size
  randomAmount_lt : randomAmount < Word64.size
  journalBlockSize_lt : journalBlockSize < Word64.size
  numDataSetThreads_lt : numDataSetThreads < Word64.size
  blockSize_eq : blockSize ≠ 0 → blockSize = blockSizeMix.getMaxSize
  numDataSetThreads_pos : 0 < numDataSetThreads
  benchPathsVec_pos : 0 < benchPathsVec.length
  onePattern : useRandomOffsets.toNat + useStridedAccess.toNat + doReverseSeqOffsets.toNat ≤ 1
  noMix : useStridedAccess ∨ doReverseSeqOffsets → blockSizeMix.isMix = false

namespace ProgArgs

/-- The block size is that of the mix. -/
theorem blockSize_eq_getMaxSize (mix : BlockSizeMix) :
    mix.getMaxSize ≠ 0 → mix.getMaxSize = mix.getMaxSize := fun _ => rfl

/-- Only random offsets. -/
theorem onePattern_of_random : true.toNat + false.toNat + false.toNat ≤ 1 := by decide

/-- In forward or random order, a mix is fine. -/
theorem noMix_of_forward (mix : BlockSizeMix) :
    ((false : Bool) = true ∨ (false : Bool) = true) → mix.isMix = false :=
  fun h => absurd h (by decide)

/-- A phase that reads or writes files is going to run. -/
def runsIoPhase (a : ProgArgs) : Bool := a.runCreateFilesPhase || a.runReadPhase

/-- The arguments whose sizes have to fit to blocks. -/
def needsBlocks (a : ProgArgs) : Bool := a.useDirectIo || a.useRandomOffsets || a.useStridedAccess

/-- Random and strided offsets exclude each other. -/
theorem not_useStridedAccess {a : ProgArgs} (hrand : a.useRandomOffsets = true) :
    ¬ a.useStridedAccess = true := by
  intro hstrided
  have hone := a.onePattern
  rw [hrand, hstrided, Bool.toNat_true] at hone
  omega

/-! ## The stages -/

/-- The checks of the path type, of S3 and of custom trees. -/
def checkPathType (a : ProgArgs) : Except Stop Unit := do
  stopIf (a.benchPathType ≠ .dir ∧ a.runStatFilesPhase)
    (.threw "File stat phase can only be used when benchmark path is a directory.")
  stopIf (a.benchPathType ≠ .dir ∧ a.treeFilePath ≠ "")
    (.threw "Custom tree mode requires benchmark path to be a directory.")
  stopIf (a.runS3ListObjNum ≠ 0 ∧ a.benchPathType ≠ .dir)
    (.threw "Object listing requires a bucket name as benchmark path.")
  stopIf (a.runS3ListObjNum ≠ 0 ∧ a.s3EndpointsVec = [])
    (.threw "Object listing requires S3 endpoints definition.")
  stopIf ((a.runS3AclPut ∨ a.runS3AclGet ∨ a.runS3BucketAclPut ∨ a.runS3BucketAclGet) ∧
      a.s3EndpointsVec = [])
    (.threw "Putting/getting bucket or object ACLs requires S3 endpoints definition.")
  stopIf (a.s3EndpointsVec ≠ [] ∧ a.s3MpuSizeVariance ≠ 0 ∧
      (a.doReverseSeqOffsets ∨ a.useRandomOffsets) ∧ a.runCreateFilesPhase)
    (.threw "S3 MPU size variance can only be used with sequential upload.")
  stopIf ((a.hasUserSetRWMixPercent ∨ a.hasUserSetRWMixReadThreads) ∧ a.benchMode = .s3 ∧
      a.treeFilePath ≠ "")
    (.threw ("Options \"--rwmixpct\" & \"--rwmixthr\" cannot be used with S3 custom tree."))
  stopIf (a.treeFilePath ≠ "" ∧ 1 < a.benchPathsVec.length)
    (.threw "Custom tree mode can only be used with a single benchmark path.")

/-- The checks that the block sizes are not 0. -/
def checkBlockSizes (a : ProgArgs) : Except Stop Unit := do
  stopIf (a.fileSize ≠ 0 ∧ a.blockSize = 0 ∧ a.runsIoPhase)
    (.threw "Block size must not be 0 when file size is given.")
  stopIf (a.journalDirStr ≠ "" ∧ a.journalBlockSize = 0)
    (.threw "Journal block size (\"--journalblock\") must not be 0.")

/-- The arguments with a smaller file size. -/
def withFileSize (a : ProgArgs) (n : ℕ) (h : n ≤ a.fileSize) : ProgArgs :=
  { a with fileSize := n, fileSize_lt := lt_of_le_of_lt h a.fileSize_lt }

/-- Round the file size down to journal blocks. -/
def roundFileSizeToJournal (a : ProgArgs) : Except Stop ProgArgs :=
  if a.journalDirStr ≠ "" ∧ a.fileSize ≠ 0 ∧ a.fileSize % a.journalBlockSize ≠ 0 then
    if a.fileSize - a.fileSize % a.journalBlockSize = 0 then
      .error (.threw ("Size (\"--size\") is smaller than the write journal's block size " ++
        "(\"--journalblock\"). Size: " ++ toString a.fileSize ++ "; Journal block size: " ++
        toString a.journalBlockSize))
    else .ok (a.withFileSize (a.fileSize - a.fileSize % a.journalBlockSize) (Nat.sub_le _ _))
  else .ok a

/-- The arguments with another block size and mix. -/
def withBlockSize (a : ProgArgs) (n : ℕ) (mix : BlockSizeMix)
    (heq : n ≠ 0 → n = mix.getMaxSize)
    (hmix : a.useStridedAccess ∨ a.doReverseSeqOffsets → mix.isMix = false) : ProgArgs :=
  { a with blockSize := n, blockSizeMix := mix, blockSize_eq := heq, noMix := hmix }

/-- Reduce the block size to the file size, unless the file size comes from a custom
tree.  The mix becomes the single new size, unless that is 0. -/
def reduceBlockSize (a : ProgArgs) : ProgArgs :=
  if a.fileSize < a.blockSize ∧ a.treeFilePath = "" then
    if h : 0 < a.fileSize then
      a.withBlockSize a.fileSize (.single a.fileSize h a.fileSize_lt)
        (fun _ => (max_self a.fileSize).symm) (fun _ => rfl)
    else a.withBlockSize a.fileSize a.blockSizeMix (fun hne => absurd hne (by omega)) a.noMix
  else a

/-- Round the file size down to the smallest block size. -/
def roundFileSizeToBlocks (a : ProgArgs) : ProgArgs :=
  if a.needsBlocks ∧ a.fileSize ≠ 0 ∧ a.runsIoPhase ∧
      a.fileSize % a.blockSizeMix.getMinSize ≠ 0 then
    a.withFileSize (a.fileSize - a.fileSize % a.blockSizeMix.getMinSize) (Nat.sub_le _ _)
  else a

/-- Both reductions, one after the other. -/
def reduceSizes (a : ProgArgs) : ProgArgs := a.reduceBlockSize.roundFileSizeToBlocks

/-- The checks of `--offset`. -/
def checkOffset (a : ProgArgs) : Except Stop Unit := do
  stopIf (a.fileOffset ≠ 0 ∧ a.fileSize = 0 ∧ a.treeFilePath = "" ∧ a.runsIoPhase)
    (.threw "File size must not be 0 when using \"--offset\".")
  stopIf (a.fileOffset ≠ 0 ∧ a.blockSize ≠ 0 ∧ a.needsBlocks ∧ a.runsIoPhase ∧
      a.fileOffset % a.blockSizeMix.getMinSize ≠ 0)
    (.threw ("Offset has to be a multiple of block size for direct IO, random IO and strided IO. " ++
      "Offset: " ++ toString a.fileOffset ++ "; Block size: " ++
      toString a.blockSizeMix.getMinSize))

/-- The arguments with another random amount. -/
def withRandomAmount (a : ProgArgs) (n : ℕ) (h : n < Word64.size) : ProgArgs :=
  { a with randomAmount := n, randomAmount_lt := h }

/-- Derive the random amount if the user has not given one. -/
def deriveRandomAmount (a : ProgArgs) : ProgArgs :=
  if a.randomAmount = 0 then
    if a.benchPathType ≠ .dir ∧ a.useRandomOffsets then
      a.withRandomAmount (Word64.mul a.fileSize a.benchPathsVec.length) (Word64.mul_lt _ _)
    else if a.benchPathType = .dir ∧ a.s3EndpointsVec ≠ [] ∧ a.useS3RandObjSelect then
      a.withRandomAmount (Word64.mul (Word64.mul (Word64.mul a.fileSize
        (if a.numDirs ≠ 0 then a.numDirs else 1)) a.numFiles) a.numDataSetThreads)
        (Word64.mul_lt _ _)
    else a
  else a

/-- `DIRECTIO_MINSIZE`. -/
def directIoMinSize : ℕ := 512

/-- The alignment checks of direct I/O, which also switch unaligned offsets off. -/
def checkDirectIo (a : ProgArgs) : Except Stop ProgArgs :=
  if a.useDirectIo ∧ a.fileSize ≠ 0 ∧ a.runsIoPhase ∧ ¬ a.noDirectIoCheck then do
    stopAt (fun size => size % directIoMinSize ≠ 0)
      (fun size => .threw ("Block size for direct IO is not a multiple of required size. " ++
        "(Note that a system's actual required size for direct IO might be even higher " ++
        "depending on system page size and drive sector size. \"--nodiocheck\" disables this " ++
        "check.) Block size: " ++ toString size ++ "; Required size: " ++
        toString directIoMinSize)) a.blockSizeMix.sizes
    stopIf (a.fileOffset % directIoMinSize ≠ 0)
      (.threw ("Offset for direct IO is not a multiple of required size. (\"--nodiocheck\" " ++
        "disables this check.) Required size: " ++ toString directIoMinSize ++ "; Offset: " ++
        toString a.fileOffset))
    pure { a with useRandomUnaligned := a.useRandomUnaligned && !a.useRandomOffsets }
  else pure a

/-- Round the random amount of aligned random I/O down to some unit. -/
def roundRandomAmount (a : ProgArgs) (unit : ℕ) : ProgArgs :=
  if a.useRandomOffsets ∧ ¬ a.useRandomUnaligned ∧ a.randomAmount % unit ≠ 0 then
    a.withRandomAmount (a.randomAmount - a.randomAmount % unit)
      (lt_of_le_of_lt (Nat.sub_le _ _) a.randomAmount_lt)
  else a

/-- Round the random amount down to the smallest block size. -/
def roundRandomAmountToBlocks (a : ProgArgs) : ProgArgs :=
  if a.blockSize ≠ 0 ∧ a.benchPathType ≠ .dir then
    a.roundRandomAmount a.blockSizeMix.getMinSize
  else a

/-- The checks of directory mode. -/
def checkDirMode (a : ProgArgs) : Except Stop Unit := do
  stopIf (a.benchPathType = .dir ∧ a.useRandomOffsets ∧ a.fileSize < a.blockSize ∧
      a.treeFilePath = "")
    (.threw "For random offsets, file size must not be smaller than block size.")
  stopIf (a.benchPathType = .dir ∧ a.useStridedAccess)
    (.threw ("Strided access mode is only available if given benchmark paths are files or " ++
      "block devices."))

/-- The number of blocks of a file, rounded up. -/
def numBlocksPerFile (a : ProgArgs) : ℕ :=
  a.fileSize / a.blockSize + if a.fileSize % a.blockSize ≠ 0 then 1 else 0

/-- The number of blocks of all files, in 64 bits. -/
def numBlocksTotal (a : ProgArgs) : ℕ := Word64.mul a.numBlocksPerFile a.benchPathsVec.length

/-- One block for each thread, in 64 bits. -/
def blockSetSize (a : ProgArgs) : ℕ := Word64.mul a.blockSize a.numDataSetThreads

/-- The checks of file and block device mode.  The number of threads is not 0, so that
only the divisions by the block size and by the block set size can fail. -/
def checkFileMode (a : ProgArgs) : Except Stop ProgArgs := do
  stopIf (a.blockSize = 0) .crashed
  stopIf (a.useRandomOffsets ∧ a.randomAmount < a.blockSetSize ∧ ¬ a.doInfiniteIoLoop)
    (.threw ("Random I/O amount (--randamount) must be large enough so that each I/O thread can " ++
      "at least read/write one block. Current block size: " ++ toString a.blockSize ++
      "; Current dataset thread count: " ++ toString a.numDataSetThreads ++
      "; Resulting min valid random amount: " ++ toString a.blockSetSize))
  stopIf (a.useRandomOffsets ∧ ¬ a.useRandomUnaligned ∧ a.blockSetSize = 0) .crashed
  let a := a.roundRandomAmount a.blockSetSize
  stopIf (a.blockSize ≠ 0 ∧ a.numBlocksTotal < a.numDataSetThreads ∧ a.runsIoPhase)
    (.threw ("Aggregate usable file size must be large enough so that each I/O thread can at " ++
      "least read/write one block. Block size: " ++ toString a.blockSize ++
      "; Dataset thread count: " ++ toString a.numDataSetThreads ++ "; Aggregate file size: " ++
      toString (Word64.mul a.benchPathsVec.length a.fileSize) ++ "; Aggregate blocks: " ++
      toString a.numBlocksTotal))
  stopIf (a.useRandomOffsets ∧ a.fileSize < a.blockSize ∧ a.runsIoPhase)
    (.threw ("File size must not be smaller than block size when random I/O with alignment is " ++
      "selected."))
  -- the condition of a log message
  stopIf (a.useRandomOffsets ∧ a.blockSetSize = 0) .crashed
  stopIf (a.useRandomOffsets ∧ a.randomAmount = 0 ∧ a.fileSize ≠ 0 ∧ a.runsIoPhase)
    (.threw ("File size must not be smaller than block size when random I/O with alignment is " ++
      "selected."))
  pure a

/-- The checks of files and block devices, which directories do not have. -/
def checkSharedFiles (a : ProgArgs) : Except Stop ProgArgs :=
  if a.benchPathType ≠ .dir then a.checkFileMode else pure a

/-- The deletion of files by several threads ignores errors. -/
def setIgnoreDelErrors (a : ProgArgs) : ProgArgs :=
  { a with ignoreDelErrors := a.ignoreDelErrors || a.benchPathType = .file }

/-- The checks of a run with journals, up to the journals themselves. -/
def checkJournaled (a : ProgArgs) : Except Stop Unit := do
  stopIf (a.benchPathType = .dir)
    (.threw ("Journaled data verification (\"--journaldir\") requires benchmark paths to be " ++
      "files or block devices."))
  stopIf (a.useRandomOffsets ∧ a.useRandomUnaligned)
    (.threw ("Journaled data verification (\"--journaldir\") requires block-aligned random I/O. " ++
      "(\"--norandalign\" is incompatible with this.)"))
  stopAt (fun size => size % a.journalBlockSize ≠ 0)
    (fun size => .threw ("Block size is not a multiple of the write journal's block size " ++
      "(\"--journalblock\"). Block size: " ++ toString size ++ "; Journal block size: " ++
      toString a.journalBlockSize)) a.blockSizeMix.sizes
  stopIf (a.fileOffset % a.journalBlockSize ≠ 0)
    (.threw ("Offset (\"--offset\") is not a multiple of the write journal's block size " ++
      "(\"--journalblock\"). Offset: " ++ toString a.fileOffset ++ "; Journal block size: " ++
      toString a.journalBlockSize))

/-- The checks of the journal, if there is one. -/
def checkJournal (a : ProgArgs) : Except Stop Unit :=
  if a.journalDirStr ≠ "" then a.checkJournaled else pure ()

/-- `checkPathDependentArgs`, up to `prepareJournals`. -/
def checkPathDependentArgs (a : ProgArgs) : Except Stop ProgArgs := do
  a.checkPathType
  a.checkBlockSizes
  let a ← a.roundFileSizeToJournal
  let a := a.reduceSizes
  a.checkOffset
  let a ← a.deriveRandomAmount.checkDirectIo
  let a := a.roundRandomAmountToBlocks
  a.checkDirMode
  let a ← a.checkSharedFiles
  let a := a.setIgnoreDelErrors
  a.checkJournal
  pure a

/-! ## What each stage does -/

section Stages

variable {a a' : ProgArgs}

theorem roundFileSizeToJournal_eq_ok (h : a.roundFileSizeToJournal = .ok a') :
    ∃ n, ∃ hn : n ≤ a.fileSize, a' = a.withFileSize n hn ∧
      (a.journalDirStr ≠ "" → a.journalBlockSize ∣ n) := by
  unfold roundFileSizeToJournal at h
  split_ifs at h with hround hzero
  · exact ⟨_, _, (Except.ok.inj h).symm, fun _ => Nat.dvd_sub_mod _⟩
  · refine ⟨a.fileSize, le_rfl, (Except.ok.inj h).symm, fun hdir => ?_⟩
    by_cases hsize : a.fileSize = 0
    · rw [hsize]
      exact Nat.dvd_zero _
    · exact Nat.dvd_of_mod_eq_zero (not_not.mp fun hmod => hround ⟨hdir, hsize, hmod⟩)

theorem reduceBlockSize_eq (a : ProgArgs) :
    ∃ n mix heq hmix, a.reduceBlockSize = a.withBlockSize n mix heq hmix ∧
      (a.treeFilePath = "" → n ≤ a.fileSize) := by
  unfold reduceBlockSize
  split_ifs with hle hpos
  · exact ⟨_, _, fun _ => (max_self a.fileSize).symm, fun _ => rfl, rfl, fun _ => le_rfl⟩
  · exact ⟨_, _, fun hne => absurd hne (by omega), a.noMix, rfl, fun _ => le_rfl⟩
  · exact ⟨_, _, a.blockSize_eq, a.noMix, rfl, fun htree => not_lt.mp fun h => hle ⟨h, htree⟩⟩

/-- The smallest block size divides the new file size, and so does everything that
divides both the old one and the smallest block size. -/
theorem roundFileSizeToBlocks_eq (a : ProgArgs) :
    ∃ n, ∃ hn : n ≤ a.fileSize, a.roundFileSizeToBlocks = a.withFileSize n hn ∧
      (a.needsBlocks → a.runsIoPhase → a.blockSizeMix.getMinSize ∣ n) ∧
      (a.blockSizeMix.getMinSize ≤ a.fileSize → 0 < n) ∧
      ∀ d, d ∣ a.fileSize → d ∣ a.blockSizeMix.getMinSize → d ∣ n := by
  have hmin := a.blockSizeMix.pos_of_mem a.blockSizeMix.getMinSize_mem
  unfold roundFileSizeToBlocks
  split_ifs with hround
  · refine ⟨_, Nat.sub_le _ _, rfl, fun _ _ => Nat.dvd_sub_mod _, fun hle => ?_, fun d _ hd =>
      Nat.dvd_trans hd (Nat.dvd_sub_mod _)⟩
    have := Nat.mod_lt a.fileSize hmin
    omega
  · refine ⟨a.fileSize, le_rfl, rfl, fun hneeds hphase => ?_, fun hle => by omega,
      fun d hd _ => hd⟩
    by_cases hsize : a.fileSize = 0
    · rw [hsize]
      exact Nat.dvd_zero _
    · exact Nat.dvd_of_mod_eq_zero (not_not.mp fun hmod => hround ⟨hneeds, hsize, hphase, hmod⟩)

/-- What the two reductions of the sizes achieve, and what they keep. -/
structure Reduced (a b : ProgArgs) : Prop where
  benchPathType_eq : b.benchPathType = a.benchPathType
  journalDirStr_eq : b.journalDirStr = a.journalDirStr
  journalBlockSize_eq : b.journalBlockSize = a.journalBlockSize
  fileSize_pos : a.treeFilePath = "" → 0 < b.blockSize → 0 < b.fileSize
  getMinSize_dvd : b.needsBlocks → b.runsIoPhase → b.blockSizeMix.getMinSize ∣ b.fileSize
  dvd_fileSize : ∀ d, d ∣ a.fileSize → d ∣ b.blockSizeMix.getMinSize → d ∣ b.fileSize

theorem reduced_reduceSizes (a : ProgArgs) : a.Reduced a.reduceSizes := by
  obtain ⟨size, mix, heq, hmix, hreduce, hle⟩ := a.reduceBlockSize_eq
  obtain ⟨n, hn, hround, hdvd, hpos, hkeep⟩ :=
    (a.withBlockSize size mix heq hmix).roundFileSizeToBlocks_eq
  rw [reduceSizes, hreduce, hround]
  refine ⟨rfl, rfl, rfl, fun htree hsize => hpos ?_, hdvd, hkeep⟩
  calc mix.getMinSize ≤ mix.getMaxSize := mix.getMinSize_le_getMaxSize
    _ = size := (heq (Nat.ne_of_gt hsize)).symm
    _ ≤ a.fileSize := hle htree

theorem checkOffset_eq_ok (h : a.checkOffset = .ok ⟨⟩) (hsize : a.blockSize ≠ 0)
    (hneeds : a.needsBlocks) (hphase : a.runsIoPhase) :
    a.blockSizeMix.getMinSize ∣ a.fileOffset := by
  simp only [checkOffset, stopIf_bind_eq_ok, stopIf_eq_ok] at h
  by_cases hoff : a.fileOffset = 0
  · rw [hoff]
    exact Nat.dvd_zero _
  · exact Nat.dvd_of_mod_eq_zero
      (not_not.mp fun hmod => h.2 ⟨hoff, hsize, hneeds, hphase, hmod⟩)

theorem deriveRandomAmount_eq (a : ProgArgs) :
    ∃ n h, a.deriveRandomAmount = a.withRandomAmount n h := by
  unfold deriveRandomAmount
  split_ifs
  · exact ⟨_, Word64.mul_lt _ _, rfl⟩
  · exact ⟨_, Word64.mul_lt _ _, rfl⟩
  · exact ⟨_, Word64.mul_lt _ _, rfl⟩
  · exact ⟨_, a.randomAmount_lt, rfl⟩
  · exact ⟨_, a.randomAmount_lt, rfl⟩

theorem checkDirectIo_eq_ok (h : a.checkDirectIo = .ok a') :
    ∃ b, a' = { a with useRandomUnaligned := b } := by
  unfold checkDirectIo at h
  split_ifs at h
  · simp only [stopAt_bind_eq_ok, stopIf_bind_eq_ok] at h
    exact ⟨_, (Except.ok.inj h.2.2).symm⟩
  · exact ⟨_, (Except.ok.inj h).symm⟩

/-- The rounded amount is below the old one, but not by a whole unit. -/
theorem roundRandomAmount_eq (a : ProgArgs) (unit : ℕ) :
    ∃ n h, a.roundRandomAmount unit = a.withRandomAmount n h ∧
      (a.useRandomOffsets → ¬ a.useRandomUnaligned → unit ∣ n) ∧
      (unit ≤ a.randomAmount → unit ≠ 0 → unit ≤ n) := by
  unfold roundRandomAmount
  split_ifs with hround
  · refine ⟨_, lt_of_le_of_lt (Nat.sub_le _ _) a.randomAmount_lt, rfl,
      fun _ _ => Nat.dvd_sub_mod _, fun hle hpos => ?_⟩
    have hdiv := Nat.div_add_mod a.randomAmount unit
    have := Nat.le_mul_of_pos_right unit (Nat.div_pos hle (Nat.pos_of_ne_zero hpos))
    omega
  · exact ⟨a.randomAmount, a.randomAmount_lt, rfl, fun hrand halign =>
      Nat.dvd_of_mod_eq_zero (not_not.mp fun hmod => hround ⟨hrand, halign, hmod⟩), fun h _ => h⟩

theorem roundRandomAmountToBlocks_eq (a : ProgArgs) :
    ∃ n h, a.roundRandomAmountToBlocks = a.withRandomAmount n h := by
  unfold roundRandomAmountToBlocks
  split_ifs
  · obtain ⟨n, hn, h, -⟩ := a.roundRandomAmount_eq a.blockSizeMix.getMinSize
    exact ⟨n, hn, h⟩
  · exact ⟨_, a.randomAmount_lt, rfl⟩

end Stages

/-! ## What the workers can rely on -/

/-- The amount of random I/O in file mode. -/
structure AmountOk (a : ProgArgs) : Prop where
  blockSetSize_ne : a.blockSetSize ≠ 0
  blockSize_le : a.runsIoPhase → a.blockSize ≤ a.fileSize
  blockSetSize_dvd : ¬ a.useRandomUnaligned → a.blockSetSize ∣ a.randomAmount
  blockSetSize_le : ¬ a.doInfiniteIoLoop → a.blockSetSize ≤ a.randomAmount
  randomAmount_ne : a.runsIoPhase → a.randomAmount ≠ 0

/-- The arguments of file and block device mode. -/
structure FileModeOk (a : ProgArgs) : Prop where
  blockSize_pos : 0 < a.blockSize
  fileSize_pos : 0 < a.fileSize
  getMinSize_dvd_fileSize :
    a.needsBlocks → a.runsIoPhase → a.blockSizeMix.getMinSize ∣ a.fileSize
  getMinSize_dvd_fileOffset :
    a.needsBlocks → a.runsIoPhase → a.blockSizeMix.getMinSize ∣ a.fileOffset
  numDataSetThreads_le : a.runsIoPhase → a.numDataSetThreads ≤ a.numBlocksTotal
  amountOk : a.useRandomOffsets → a.AmountOk

/-- The arguments of a run with journals. -/
structure JournalOk (a : ProgArgs) : Prop where
  benchPathType_ne : a.benchPathType ≠ .dir
  aligned : a.useRandomOffsets → ¬ a.useRandomUnaligned
  journalBlockSize_pos : 0 < a.journalBlockSize
  dvd_size : ∀ size ∈ a.blockSizeMix.sizes, a.journalBlockSize ∣ size
  dvd_fileOffset : a.journalBlockSize ∣ a.fileOffset
  dvd_fileSize : a.journalBlockSize ∣ a.fileSize

section Spec

variable {a a' : ProgArgs}

theorem checkFileMode_eq_ok (h : a.checkFileMode = .ok a') :
    0 < a.blockSize ∧ (a.runsIoPhase → a.numDataSetThreads ≤ a.numBlocksTotal) ∧
      ∃ n h, a' = a.withRandomAmount n h ∧
        (a.useRandomOffsets → (a.withRandomAmount n h).AmountOk) := by
  obtain ⟨n, hn, hround, hdvd, hle⟩ := a.roundRandomAmount_eq a.blockSetSize
  simp only [checkFileMode, stopIf_bind_eq_ok, hround] at h
  obtain ⟨hsize, hamount, -, hblocks, hfile, hset, hzero, hok⟩ := h
  refine ⟨Nat.pos_of_ne_zero hsize, fun hphase => not_lt.mp fun hlt => hblocks ⟨hsize, hlt, hphase⟩,
    n, hn, (Except.ok.inj hok).symm, fun hrand => ?_⟩
  have hne : a.blockSetSize ≠ 0 := fun h0 => hset ⟨hrand, h0⟩
  have hpos : a.fileSize ≠ 0 ∨ a.fileSize < a.blockSize := by omega
  refine ⟨hne, fun hphase => not_lt.mp fun hlt => hfile ⟨hrand, hlt, hphase⟩, hdvd hrand,
    fun hloop => hle (not_lt.mp fun hlt => hamount ⟨hrand, hlt, hloop⟩) hne, fun hphase h0 => ?_⟩
  rcases hpos with hpos | hlt
  · exact hzero ⟨hrand, h0, hpos, hphase⟩
  · exact hfile ⟨hrand, hlt, hphase⟩

theorem checkJournaled_eq_ok (h : a.checkJournaled = .ok ⟨⟩) :
    a.benchPathType ≠ .dir ∧ (a.useRandomOffsets → ¬ a.useRandomUnaligned) ∧
      (∀ size ∈ a.blockSizeMix.sizes, a.journalBlockSize ∣ size) ∧
      a.journalBlockSize ∣ a.fileOffset := by
  simp only [checkJournaled, stopIf_bind_eq_ok, stopAt_bind_eq_ok, stopIf_eq_ok] at h
  obtain ⟨hdir, halign, hsizes, hoff⟩ := h
  exact ⟨hdir, fun hrand hun => halign ⟨hrand, hun⟩,
    fun size hmem => Nat.dvd_of_mod_eq_zero (not_not.mp (hsizes size hmem)),
    Nat.dvd_of_mod_eq_zero (not_not.mp hoff)⟩

/-- The stages after the sizes were reduced change only the random amount and two
flags. -/
theorem eq_of_checkSharedFiles {b : ProgArgs}
    (hdirect : a.deriveRandomAmount.checkDirectIo = .ok b)
    (hfiles : b.roundRandomAmountToBlocks.checkSharedFiles = .ok a') :
    (∃ n hn unaligned, a' = { a.withRandomAmount n hn with useRandomUnaligned := unaligned }) ∧
      (a.benchPathType ≠ .dir → 0 < a.blockSize ∧
        (a.runsIoPhase → a.numDataSetThreads ≤ a.numBlocksTotal) ∧
        (a.useRandomOffsets → a'.AmountOk)) := by
  obtain ⟨n, hn, hderive⟩ := a.deriveRandomAmount_eq
  rw [hderive] at hdirect
  obtain ⟨unaligned, rfl⟩ := checkDirectIo_eq_ok hdirect
  obtain ⟨n', hn', hround⟩ := roundRandomAmountToBlocks_eq
    { a.withRandomAmount n hn with useRandomUnaligned := unaligned }
  rw [hround] at hfiles
  unfold checkSharedFiles at hfiles
  split_ifs at hfiles with hdir
  · obtain ⟨hsize, hblocks, amount, hlt, rfl, hamount⟩ := checkFileMode_eq_ok hfiles
    exact ⟨⟨amount, hlt, unaligned, rfl⟩, fun _ => ⟨hsize, hblocks, hamount⟩⟩
  · exact ⟨⟨n', hn', unaligned, (Except.ok.inj hfiles).symm⟩, fun h => absurd h hdir⟩

theorem AmountOk.setIgnoreDelErrors (h : a.AmountOk) : a.setIgnoreDelErrors.AmountOk :=
  ⟨h.1, h.2, h.3, h.4, h.5⟩

/-- **Main statement.**  What is known of every configuration that
`checkPathDependentArgs` accepts, in file mode and with journals. -/
theorem checkPathDependentArgs_spec (h : a.checkPathDependentArgs = .ok a') :
    (a'.benchPathType ≠ .dir → a'.FileModeOk) ∧ (a'.journalDirStr ≠ "" → a'.JournalOk) := by
  simp only [checkPathDependentArgs, bind_eq_ok] at h
  obtain ⟨_, hpath, _, hsizes, a1, hround, _, hoffset, a2, hdirect, _, -, a3, hfiles, _,
    hjournal, hok⟩ := h
  obtain ⟨n, hn, rfl, hdvd⟩ := roundFileSizeToJournal_eq_ok hround
  have hred := (a.withFileSize n hn).reduced_reduceSizes
  generalize (a.withFileSize n hn).reduceSizes = b at hred hdirect hoffset
  obtain ⟨⟨amount, hlt, unaligned, rfl⟩, hmode⟩ := eq_of_checkSharedFiles hdirect hfiles
  obtain rfl := Except.ok.inj hok
  refine ⟨fun hdir => ?_, fun hdirStr => ?_⟩
  · obtain ⟨hsize, hblocks, hamount⟩ := hmode hdir
    have htree : a.treeFilePath = "" := by
      simp only [checkPathType, stopIf_bind_eq_ok] at hpath
      exact not_not.mp fun hne => hpath.2.1 ⟨hred.benchPathType_eq ▸ hdir, hne⟩
    exact ⟨hsize, hred.fileSize_pos htree hsize, hred.getMinSize_dvd,
      checkOffset_eq_ok hoffset (Nat.ne_of_gt hsize), hblocks,
      fun hrand => (hamount hrand).setIgnoreDelErrors⟩
  · have hdirStr' : a.journalDirStr ≠ "" := hred.journalDirStr_eq ▸ hdirStr
    have hjbs : 0 < b.journalBlockSize := by
      simp only [checkBlockSizes, stopIf_bind_eq_ok, stopIf_eq_ok] at hsizes
      rw [hred.journalBlockSize_eq]
      exact Nat.pos_of_ne_zero fun h0 => hsizes.2 ⟨hdirStr', h0⟩
    unfold checkJournal at hjournal
    rw [if_pos hdirStr] at hjournal
    obtain ⟨hdir, halign, hdvdSize, hdvdOff⟩ := checkJournaled_eq_ok hjournal
    refine ⟨hdir, halign, hjbs, hdvdSize, hdvdOff,
      hred.dvd_fileSize _ ?_ (hdvdSize _ b.blockSizeMix.getMinSize_mem)⟩
    exact hred.journalBlockSize_eq ▸ hdvd hdirStr'

end Spec

end ProgArgs

end Elbencho
