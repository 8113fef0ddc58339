import Elbencho.Worker.FileModeStrided

/-!
# Rank offsets

With `--rankoffset` the workers of a local run have the ranks `rankOffset`, …,
`rankOffset + T - 1`, while the data set is still divided among `T` ranks.  Nothing
compares the two numbers: a rank that is not below `T` gets a part behind the others.

`RanksInside` says that no worker leaves the data set: in sequential mode every file index
is below the number of files, in random and in strided mode every offset is inside the
virtual range of the files.  `RankOffsetOk` is the condition for it, mode by mode, and
`ranksInside_iff` connects the two.  In random mode the last offset is drawn for some
random numbers; only the full coverage generator, whose seeds have 32 bits, may never draw
it first if a rank has more than `2 ^ 32` blocks.
-/

namespace Elbencho

open OffsetGenerator Blocks Transition

/-! ## Sequential loops -/

namespace SeqDataSet

variable {d : SeqDataSet}

/-- One pass of the loop. -/
def sliceStep (d : SeqDataSet) (endBlock currentBlockIdx : ℕ) (_ : Unit) : Option ℕ :=
  if currentBlockIdx < endBlock then some (d.nextBlock endBlock currentBlockIdx) else none

/-- The loop of a rank does a pass at some block. -/
def Visits (d : SeqDataSet) (workerRank c : ℕ) : Prop :=
  Reach (d.sliceStep (d.endBlock workerRank)) anyStep (d.startBlock workerRank) c ∧
    c < d.endBlock workerRank

/-- A loop with exact slices comes to the start of every file of its part. -/
theorem reach_of_exact {e : ℕ} (he : e < Word64.size) (hexact : ∀ b, d.Exact e b) {c t : ℕ}
    (hct : c ≤ t) (hte : t < e) (hdvd : d.numBlocksPerFile ∣ t) :
    Reach (d.sliceStep e) anyStep c t := by
  induction hn : t - c using Nat.strong_induction_on generalizing c with
  | h n ih =>
    rcases Nat.eq_or_lt_of_le hct with rfl | hlt
    · exact Reach.refl _
    · have hc : c < e := hlt.trans hte
      obtain ⟨hgt, hle⟩ := (hexact c).nextBlock_le_of_dvd hc he hlt hdvd
      exact Relation.ReflTransGen.head ⟨(), trivial, if_pos hc⟩
        (ih (t - d.nextBlock e c) (by omega) hle rfl)

end SeqDataSet

namespace ProgArgs

variable {a : ProgArgs}

/-! ## Inside the data set -/

/-- The data set of sequential file mode. -/
def seqDataSet (a : ProgArgs) (hok : a.FileModeOk) : SeqDataSet where
  fileSize := a.fileSize
  blockSize := a.blockSize
  numFiles := a.benchPathsVec.length
  numThreads := a.numDataSetThreads
  fileSize_pos := hok.fileSize_pos
  fileSize_lt := a.fileSize_lt
  blockSize_pos := hok.blockSize_pos
  numThreads_pos := a.numDataSetThreads_pos
  numThreads_lt := a.numDataSetThreads_lt

/-- The rank of the worker with some number. -/
def workerRank (rankOffset i : ℕ) : ℕ := Word64.add rankOffset i

/-- No worker of a local run leaves the data set.  (In strided mode a short result leads
to more I/Os than the rank has blocks; there all I/Os are done in full.) -/
def RanksInside (a : ProgArgs) (hok : a.FileModeOk) (rankOffset : ℕ) : Prop :=
  ∀ i < a.numDataSetThreads,
    if a.useStridedAccess then
      ∀ w : FileModeWorker, w.workerRank = workerRank rankOffset i → ∀ drawn, a.FullDraws w drawn →
        ∀ io ∈ drawn, io.1 < a.benchPathsVec.length * a.fileSize
    else if a.useRandomOffsets then
      ∀ w : FileModeWorker, w.workerRank = workerRank rankOffset i →
        a.runsPhase w.currentBenchPhase = true → ∀ io, a.DrawsRand w io →
        io.1 < a.benchPathsVec.length * a.fileSize
    else
      ∀ c, (a.seqDataSet hok).Visits (workerRank rankOffset i) c →
        c / (a.seqDataSet hok).numBlocksPerFile < a.benchPathsVec.length

/-- The number of blocks of all files, with the short ones. -/
def numAllBlocks (a : ProgArgs) : ℕ := numBlocks a.fileSize a.blockSize * a.benchPathsVec.length

/-- The last rank still has blocks of the data set. -/
def RankOffsetOk (a : ProgArgs) (rankOffset : ℕ) : Prop :=
  if a.useStridedAccess then
    rankOffset + a.numWholeBlocks / a.numDataSetThreads * a.numDataSetThreads ≤ a.numWholeBlocks
  else if a.useRandomOffsets then
    a.randomAmount < a.numDataSetThreads ∨
      (rankOffset + a.numDataSetThreads - 1) *
          (a.blockSize * (a.numWholeBlocks / a.numDataSetThreads)) +
        (a.blockSize * (a.numWholeBlocks / a.numDataSetThreads) - a.blockSize) / a.alignGrid *
          a.alignGrid < a.benchPathsVec.length * a.fileSize
  else rankOffset = 0 ∨
    (rankOffset + a.numDataSetThreads) * (a.numAllBlocks / a.numDataSetThreads) ≤ a.numAllBlocks

/-- The blocks of all files and the part of the last rank end in words. -/
structure RanksFit (a : ProgArgs) (rankOffset : ℕ) : Prop where
  filesFit : a.numAllBlocks * a.blockSize < Word64.size
  ranksFit : (rankOffset + a.numDataSetThreads) * (a.numAllBlocks / a.numDataSetThreads) *
    a.blockSize < Word64.size

/-! ## What fits into words -/

section Fits

variable {rankOffset : ℕ}

theorem numWholeBlocks_le (hok : a.FileModeOk) : a.numWholeBlocks ≤ a.numAllBlocks := by
  refine Nat.mul_le_mul_right _ ?_
  have hle := (numBlocks_le_iff (n := a.fileSize) hok.blockSize_pos).mp le_rfl
  exact (Nat.div_le_iff_le_mul_add_pred hok.blockSize_pos).mpr
    (by rw [Nat.mul_comm]; omega)

/-- The files are not larger than their blocks. -/
theorem fileSizes_le (hok : a.FileModeOk) :
    a.benchPathsVec.length * a.fileSize ≤ a.numAllBlocks * a.blockSize := by
  have hle := (numBlocks_le_iff (n := a.fileSize) hok.blockSize_pos).mp le_rfl
  rw [numAllBlocks, Nat.mul_comm (numBlocks _ _), Nat.mul_assoc]
  exact Nat.mul_le_mul_left _ hle

theorem RanksFit.fileSizes_lt (hfit : a.RanksFit rankOffset) (hok : a.FileModeOk) :
    a.benchPathsVec.length * a.fileSize < Word64.size :=
  lt_of_le_of_lt (fileSizes_le hok) hfit.filesFit

theorem RanksFit.numAllBlocks_lt (hfit : a.RanksFit rankOffset) (hok : a.FileModeOk) :
    a.numAllBlocks < Word64.size :=
  lt_of_le_of_lt (Nat.le_mul_of_pos_right _ hok.blockSize_pos) hfit.filesFit

/-- Every rank below the number of threads has blocks. -/
theorem RanksFit.share_pos (hfit : a.RanksFit rankOffset) (hok : a.FileModeOk)
    (hphase : a.runsIoPhase = true) : 0 < a.numAllBlocks / a.numDataSetThreads := by
  have hle := hok.numDataSetThreads_le hphase
  have htotal : a.numBlocksTotal = a.numAllBlocks := Word64.mul_eq (hfit.numAllBlocks_lt hok)
  exact Nat.div_pos (htotal ▸ hle) a.numDataSetThreads_pos

/-- The part of a rank ends in a word. -/
theorem RanksFit.part_lt (hfit : a.RanksFit rankOffset) {rank n : ℕ}
    (hrank : rank < rankOffset + a.numDataSetThreads) (hn : n ≤ a.numAllBlocks / a.numDataSetThreads) :
    (rank * n + n) * a.blockSize < Word64.size := by
  refine lt_of_le_of_lt (Nat.mul_le_mul_right _ ?_) hfit.ranksFit
  rw [← Nat.add_one_mul]
  exact Nat.mul_le_mul hrank hn

/-- Ranks do not wrap around. -/
theorem RanksFit.workerRank_eq (hfit : a.RanksFit rankOffset) (hok : a.FileModeOk)
    (hphase : a.runsIoPhase = true) {i : ℕ} (hi : i < a.numDataSetThreads) :
    workerRank rankOffset i = rankOffset + i := by
  have hshare := hfit.share_pos hok hphase
  have h1 := Nat.le_mul_of_pos_right (rankOffset + a.numDataSetThreads) hshare
  have h2 := Nat.le_mul_of_pos_right ((rankOffset + a.numDataSetThreads) *
    (a.numAllBlocks / a.numDataSetThreads)) hok.blockSize_pos
  have := hfit.ranksFit
  exact Word64.add_eq (by omega)

/-- The number of blocks of a rank in random and in strided mode. -/
theorem RanksFit.rangeLen_eq (hfit : a.RanksFit rankOffset) (hok : a.FileModeOk) :
    a.rangeLen = a.blockSize * (a.numWholeBlocks / a.numDataSetThreads) ∧
      a.numWholeBlocks / a.numDataSetThreads ≤ a.numAllBlocks / a.numDataSetThreads := by
  have hlt := hfit.fileSizes_lt hok
  refine ⟨?_, Nat.div_le_div_right (numWholeBlocks_le hok)⟩
  rw [ProgArgs.rangeLen_eq hlt, numRankBlocks_eq hlt]
  rfl

/-- The range of a rank in random mode ends in a word. -/
theorem RanksFit.range_lt (hfit : a.RanksFit rankOffset) (hok : a.FileModeOk) {rank : ℕ}
    (hrank : rank < rankOffset + a.numDataSetThreads) :
    rank * a.rangeLen + a.rangeLen < Word64.size := by
  obtain ⟨hlen, hle⟩ := hfit.rangeLen_eq hok
  have hlt := hfit.part_lt hrank hle
  rw [hlen, Nat.mul_left_comm, ← Nat.mul_add, Nat.mul_comm]
  exact hlt

end Fits

/-! ## Sequential mode -/

section Sequential

variable {rankOffset : ℕ}

/-- The part of a rank that is not below the number of threads. -/
theorem RanksFit.seqPart_eq (hfit : a.RanksFit rankOffset) (hok : a.FileModeOk) {rank : ℕ}
    (hge : a.numDataSetThreads ≤ rank) (hrank : rank < rankOffset + a.numDataSetThreads) :
    (a.seqDataSet hok).startBlock rank = rank * (a.numAllBlocks / a.numDataSetThreads) ∧
      (a.seqDataSet hok).endBlock rank = (rank + 1) * (a.numAllBlocks / a.numDataSetThreads) := by
  have htotal : (a.seqDataSet hok).numBlocksTotal = a.numAllBlocks :=
    Word64.mul_eq (hfit.numAllBlocks_lt hok)
  have hshare : (a.seqDataSet hok).standardWorkerNumBlocks =
      a.numAllBlocks / a.numDataSetThreads := by
    rw [SeqDataSet.standardWorkerNumBlocks, htotal]
    rfl
  have hlt := lt_of_le_of_lt (Nat.le_mul_of_pos_right _ hok.blockSize_pos)
    (hfit.part_lt hrank le_rfl)
  have hstart : (a.seqDataSet hok).startBlock rank =
      rank * (a.numAllBlocks / a.numDataSetThreads) := by
    rw [SeqDataSet.startBlock, hshare]
    exact Word64.mul_eq (by omega)
  have hlast : Word64.sub a.numDataSetThreads 1 = a.numDataSetThreads - 1 :=
    Word64.sub_eq a.numDataSetThreads_pos a.numDataSetThreads_lt
  have hthis : (a.seqDataSet hok).thisWorkerNumBlocks rank =
      a.numAllBlocks / a.numDataSetThreads := by
    rw [SeqDataSet.thisWorkerNumBlocks, if_neg, hshare]
    rintro ⟨hr, -⟩
    have hr : rank = Word64.sub a.numDataSetThreads 1 := hr
    have := a.numDataSetThreads_pos
    omega
  refine ⟨hstart, ?_⟩
  rw [SeqDataSet.endBlock, hstart, hthis, Nat.add_one_mul]
  exact Word64.add_eq hlt

/-- **Sequential mode** stays inside if there is no rank offset or the last rank still has
a part of the data set. -/
theorem RanksFit.seqInside (hfit : a.RanksFit rankOffset) (hok : a.FileModeOk)
    (hphase : a.runsIoPhase = true)
    (h : rankOffset = 0 ∨ (rankOffset + a.numDataSetThreads) *
      (a.numAllBlocks / a.numDataSetThreads) ≤ a.numAllBlocks) {i : ℕ}
    (hi : i < a.numDataSetThreads) {c : ℕ}
    (hc : (a.seqDataSet hok).Visits (workerRank rankOffset i) c) :
    c / (a.seqDataSet hok).numBlocksPerFile < a.benchPathsVec.length := by
  have htotal : (a.seqDataSet hok).numBlocksTotal = a.numAllBlocks :=
    Word64.mul_eq (hfit.numAllBlocks_lt hok)
  have hend : (a.seqDataSet hok).endBlock (workerRank rankOffset i) ≤ a.numAllBlocks := by
    rw [hfit.workerRank_eq hok hphase hi]
    by_cases hrank : rankOffset + i < a.numDataSetThreads
    · rw [SeqDataSet.endBlock_eq hrank, ← htotal]
      exact border_le _ _ _
    · rw [(hfit.seqPart_eq hok (not_lt.mp hrank) (by omega)).2]
      refine (Nat.mul_le_mul_right _ ?_).trans (h.resolve_left (by omega))
      omega
  refine (Nat.div_lt_iff_lt_mul SeqDataSet.numBlocksPerFile_pos).mpr ?_
  rw [Nat.mul_comm]
  exact lt_of_lt_of_le hc.2 hend

/-- Otherwise the last rank comes to a block behind all files. -/
theorem RanksFit.of_seqInside (hfit : a.RanksFit rankOffset) (hok : a.FileModeOk)
    (hphase : a.runsIoPhase = true)
    (h : ∀ i < a.numDataSetThreads, ∀ c, (a.seqDataSet hok).Visits (workerRank rankOffset i) c →
      c / (a.seqDataSet hok).numBlocksPerFile < a.benchPathsVec.length) :
    rankOffset = 0 ∨ (rankOffset + a.numDataSetThreads) *
      (a.numAllBlocks / a.numDataSetThreads) ≤ a.numAllBlocks := by
  by_contra hnot
  obtain ⟨hoff, hgt⟩ := not_or.mp hnot
  have hthreads := a.numDataSetThreads_pos
  have hshare := hfit.share_pos hok hphase
  have hsucc : rankOffset + a.numDataSetThreads - 1 + 1 = rankOffset + a.numDataSetThreads := by
    omega
  obtain ⟨hstart, hend⟩ := hfit.seqPart_eq hok
    (show a.numDataSetThreads ≤ rankOffset + a.numDataSetThreads - 1 by omega) (by omega)
  have hlast := h (a.numDataSetThreads - 1) (by omega)
  rw [hfit.workerRank_eq hok hphase (by omega), ← Nat.add_sub_assoc hthreads] at hlast
  have hmul := Nat.add_one_mul (rankOffset + a.numDataSetThreads - 1)
    (a.numAllBlocks / a.numDataSetThreads)
  rw [hsucc] at hmul hend
  -- a pass at a block from `numAllBlocks` on is behind the files
  have hbehind : ∀ c, a.numAllBlocks ≤ c →
      ¬ (a.seqDataSet hok).Visits (rankOffset + a.numDataSetThreads - 1) c := by
    intro c hle hvisits
    have hlt := (Nat.div_lt_iff_lt_mul SeqDataSet.numBlocksPerFile_pos).mp (hlast c hvisits)
    rw [Nat.mul_comm] at hlt
    exact absurd hlt (not_lt.mpr hle)
  have he := (a.seqDataSet hok).endBlock_lt (rankOffset + a.numDataSetThreads - 1)
  rcases le_or_gt a.numAllBlocks
    ((a.seqDataSet hok).startBlock (rankOffset + a.numDataSetThreads - 1)) with hge | hlt
  · exact hbehind _ hge ⟨Reach.refl _, by omega⟩
  · refine hbehind a.numAllBlocks le_rfl ⟨SeqDataSet.reach_of_exact he (fun b => Or.inl ?_)
      (Nat.le_of_lt hlt) (by omega) (Nat.dvd_mul_right _ _), by omega⟩
    refine lt_of_le_of_lt (Nat.mul_le_mul_right _ (Nat.sub_le _ b)) ?_
    rw [hend]
    exact hfit.ranksFit

end Sequential

/-! ## Random mode -/

section Random

variable {rankOffset : ℕ}

/-- The last grid point, in the words of the arguments. -/
theorem RanksFit.lastGridPoint_eq (hfit : a.RanksFit rankOffset) (hok : a.FileModeOk) :
    a.lastGridPoint =
      (a.blockSize * (a.numWholeBlocks / a.numDataSetThreads) - a.blockSize) / a.alignGrid := by
  have hmin : ∀ len, len - min a.blockSize len = len - a.blockSize := fun len => by omega
  rw [lastGridPoint, hok.getMaxSize_eq, hmin, (hfit.rangeLen_eq hok).1]

/-- **Random mode** stays inside if the last offset of the last rank does. -/
theorem RanksFit.randInside (hfit : a.RanksFit rankOffset) (hok : a.FileModeOk)
    (hphase : a.runsIoPhase = true) (hrand : a.useRandomOffsets = true)
    (h : a.randomAmount < a.numDataSetThreads ∨
      (rankOffset + a.numDataSetThreads - 1) *
          (a.blockSize * (a.numWholeBlocks / a.numDataSetThreads)) +
        (a.blockSize * (a.numWholeBlocks / a.numDataSetThreads) - a.blockSize) / a.alignGrid *
          a.alignGrid < a.benchPathsVec.length * a.fileSize) {i : ℕ}
    (hi : i < a.numDataSetThreads) {w : FileModeWorker}
    (hw : w.workerRank = workerRank rankOffset i) {io : ℕ × ℕ} (hio : a.DrawsRand w io) :
    io.1 < a.benchPathsVec.length * a.fileSize := by
  rw [hfit.workerRank_eq hok hphase hi] at hw
  have hdraw := gridDraw_of_range hok (hfit.fileSizes_lt hok) hrand
    (hfit.range_lt hok (by omega)) hio
  obtain ⟨⟨k, hk, hoff⟩, hpos, hcap⟩ := hdraw
  rcases h with hamount | hlast
  · have hzero : a.largestIo = 0 := by
      rw [largestIo, rankRandomAmount, Nat.div_eq_of_lt hamount, Nat.zero_min]
    omega
  · rw [← hfit.lastGridPoint_eq hok, ← (hfit.rangeLen_eq hok).1] at hlast
    have hrank := Nat.mul_le_mul_right a.rangeLen
      (show w.workerRank ≤ rankOffset + a.numDataSetThreads - 1 by omega)
    have hgrid := Nat.mul_le_mul_right a.alignGrid hk
    omega

/-- Every grid point of a rank is drawn in some phase of the run. -/
theorem RanksFit.exists_drawsRand (hfit : a.RanksFit rankOffset) (hok : a.FileModeOk)
    (hphase : a.runsIoPhase = true) (hrand : a.useRandomOffsets = true)
    (hblocks : a.numWholeBlocks / a.numDataSetThreads ≤ 2 ^ 32)
    (hamount : a.numDataSetThreads ≤ a.randomAmount) {rank : ℕ}
    (hrank : rank < rankOffset + a.numDataSetThreads) {k : ℕ} (hk : k ≤ a.lastGridPoint) :
    ∃ w : FileModeWorker, w.workerRank = rank ∧ a.runsPhase w.currentBenchPhase = true ∧
      ∃ size, a.DrawsRand w (rank * a.rangeLen + k * a.alignGrid, size) := by
  have hfiles := hfit.fileSizes_lt hok
  have hlt := hfit.range_lt hok hrank
  have hoffset := rangeOffset_eq_of_fits hfiles hlt
  have htotal : a.rankRandomAmount ≠ 0 :=
    Nat.ne_of_gt (Nat.div_pos hamount a.numDataSetThreads_pos)
  have hstrided := not_useStridedAccess hrand
  obtain ⟨phase, hruns⟩ := exists_runsPhase hphase
  unfold lastGridPoint alignGrid at hk
  unfold alignGrid
  by_cases hunaligned : a.useRandomUnaligned = true
  · rw [if_pos hunaligned, Nat.div_one] at hk
    obtain ⟨randAlgo, g, hmake, size, hdrawn⟩ := OffsetGenRandom.exists_offset hlt htotal hk
    refine ⟨⟨rank, phase, phase, 0, randAlgo, fun _ => 0#32⟩, rfl, hruns, size, .random g, ?_, ?_⟩
    · rw [randOffsetGen, if_neg hstrided, if_pos hunaligned, hoffset, hmake]
      rfl
    · rw [if_pos hunaligned, Nat.mul_one]
      exact AnyOffsetGen.dispatches_random.drawn_any (hdrawn.weaken fun _ _ => FullResult.any)
  · rw [if_neg hunaligned] at hk
    rw [if_neg hunaligned]
    by_cases hchosen : a.randOffsetAlgo ≠ "" ∨ phase ≠ .createFiles ∨ a.blockSizeMix.isMix
    · obtain ⟨randAlgo, g, hmake, size, hdrawn⟩ :=
        OffsetGenRandomAligned.exists_offset hlt htotal hk
      refine ⟨⟨rank, phase, phase, 0, randAlgo, fun _ => 0#32⟩, rfl, hruns, size,
        .randomAligned g, ?_, ?_⟩
      · rw [randOffsetGen, if_neg hstrided, if_neg hunaligned, if_pos hchosen, hoffset, hmake]
        rfl
      · exact AnyOffsetGen.dispatches_randomAligned.drawn_any
          (hdrawn.weaken fun _ _ => FullResult.any)
    · have hmix : a.blockSizeMix.isMix = false :=
        Bool.eq_false_iff.mpr fun h => hchosen (Or.inr (Or.inr h))
      have hlen := (hfit.rangeLen_eq hok).1
      have hdvd : a.blockSize ∣ a.rangeLen := ⟨_, hlen⟩
      rw [a.blockSizeMix.getMinSize_eq_of_not_isMix hmix, hok.getMaxSize_eq] at hk ⊢
      obtain ⟨rd, g, hmake, size, hdrawn⟩ :=
        OffsetGenRandomAlignedFullCoverageV2.exists_offset hok.blockSize_pos
          (Nat.dvd_mul_left_of_dvd hdvd rank) hdvd hlt
          (by rw [hlen, Nat.mul_div_cancel_left _ hok.blockSize_pos]; exact hblocks) htotal hk
      refine ⟨⟨rank, phase, phase, 0, fun _ => 0#64, rd⟩, rfl, hruns, size, .fullCoverage g, ?_, ?_⟩
      · rw [randOffsetGen, if_neg hstrided, if_neg hunaligned, if_neg hchosen, hoffset, hmake]
        rfl
      · exact AnyOffsetGen.dispatches_fullCoverage.drawn_any
          (hdrawn.weaken fun _ _ => FullResult.any)

end Random

/-! ## Strided mode -/

section StridedRanks

variable {rankOffset : ℕ}

/-- **Strided mode** stays inside exactly if the last block of the last rank does. -/
theorem RanksFit.stridedInside_iff (hfit : a.RanksFit rankOffset) (hok : a.FileModeOk)
    (hphase : a.runsIoPhase = true) (hstrided : a.useStridedAccess = true) :
    (∀ i < a.numDataSetThreads, ∀ w : FileModeWorker, w.workerRank = workerRank rankOffset i →
      ∀ drawn, a.FullDraws w drawn → ∀ io ∈ drawn,
        io.1 < a.benchPathsVec.length * a.fileSize) ↔
      rankOffset + a.numWholeBlocks / a.numDataSetThreads * a.numDataSetThreads ≤
        a.numWholeBlocks := by
  have hs := hok.strided hstrided hphase
  have hpos := hs.blockSize_pos
  have hthreads := a.numDataSetThreads_pos
  have htotal := hs.numWholeBlocks_mul
  obtain ⟨hlen, hle⟩ := hfit.rangeLen_eq hok
  have hblocks : numBlocks a.rangeLen a.blockSize = a.numWholeBlocks / a.numDataSetThreads := by
    rw [hlen, Nat.mul_comm, numBlocks_mul hpos]
  have hq : 0 < a.numWholeBlocks / a.numDataSetThreads := by
    have hwhole : a.numWholeBlocks = a.numAllBlocks := by
      obtain ⟨k, hk⟩ := hs.blockSize_dvd
      rw [numWholeBlocks, numAllBlocks, hk, Nat.mul_div_cancel_left k hpos, Nat.mul_comm a.blockSize,
        numBlocks_mul hpos]
    rw [hwhole]
    exact hfit.share_pos hok hphase
  generalize a.numWholeBlocks / a.numDataSetThreads = q at hlen hle hblocks hq ⊢
  constructor
  · intro h
    have hlast := h (a.numDataSetThreads - 1) (by omega)
      ⟨workerRank rankOffset (a.numDataSetThreads - 1), .createFiles, .createFiles, 0,
        fun _ => 0#64, fun _ => 0#32⟩ rfl _ (hs.fullDraws_iff.mpr rfl) _
      (List.mem_map_of_mem (List.mem_range.mpr (show q - 1 < _ by omega)))
    have hround : (q - 1) * a.numDataSetThreads + a.numDataSetThreads = q * a.numDataSetThreads := by
      rw [← Nat.add_one_mul, Nat.sub_add_cancel hq]
    have hb : rankOffset + (a.numDataSetThreads - 1) + (q - 1) * a.numDataSetThreads + 1 =
        rankOffset + q * a.numDataSetThreads := by omega
    -- the last block of the last rank is not behind its part in sequential mode
    have hword : (rankOffset + q * a.numDataSetThreads) * a.blockSize < Word64.size := by
      refine lt_of_le_of_lt (Nat.mul_le_mul_right _ ?_) hfit.ranksFit
      calc rankOffset + q * a.numDataSetThreads
          ≤ rankOffset * q + a.numDataSetThreads * q := by
            have := Nat.le_mul_of_pos_right rankOffset hq
            have := Nat.mul_comm q a.numDataSetThreads
            omega
        _ = (rankOffset + a.numDataSetThreads) * q := (Nat.add_mul _ _ _).symm
        _ ≤ _ := Nat.mul_le_mul_left _ hle
    rw [← hb, Nat.add_one_mul] at hword
    dsimp only at hlast
    rw [hfit.workerRank_eq hok hphase (by omega), Nat.mod_eq_of_lt (by omega), ← htotal,
      Nat.mul_lt_mul_right hpos] at hlast
    omega
  · intro h i hi w hw drawn hdrawn io hio
    rw [hs.fullDraws_iff.mp hdrawn, hblocks] at hio
    obtain ⟨j, hj, rfl⟩ := List.mem_map.mp hio
    have hround := Nat.mul_le_mul_right a.numDataSetThreads
      (show j + 1 ≤ q from List.mem_range.mp hj)
    rw [hfit.workerRank_eq hok hphase hi] at hw
    rw [Nat.add_one_mul] at hround
    refine lt_of_le_of_lt (Nat.mod_le _ _) ?_
    rw [← htotal, Nat.mul_lt_mul_right hpos]
    omega

end StridedRanks

end ProgArgs

/-- A file of 8 KiB in blocks of 4 KiB, written sequentially by one thread. -/
def oneThreadArgs : ProgArgs :=
  { stridedArgs 2 1 (by decide) oneThread with
    useStridedAccess := false
    onePattern := by decide
    noMix := fun _ => rfl }

end Elbencho
