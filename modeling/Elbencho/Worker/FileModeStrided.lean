import Elbencho.Worker.FileModeRand
import Elbencho.Worker.FileModeSeq

/-!
# Strided file mode

In strided mode rank `r` of `T` takes the blocks `r`, `r + T`, `r + 2 T` and so on of the
virtual range of all files.  Every rank gets the same number of them, the number of all
blocks divided by `T` and rounded down.

`RwState.exists_fullRun` connects the draws of a generator with the loop: if all I/Os are
done in full, `rwBlockSized` issues the draws one after the other.

**All blocks** are touched, each of them once, exactly if `T` divides the number of
blocks and the offsets are words: `strided_coversOnce_iff`.  Otherwise the blocks behind
the last full round of the ranks are left out, and the last block is one of them.
-/

namespace Elbencho

open OffsetGenerator Blocks Transition

/-! ## The loop and its draws -/

/-- Where the I/O of a draw goes: the file, the offset in the file and the size. -/
def ioOf (cfg : WorkerConfig) (io : ℕ × ℕ) : Slice :=
  ⟨(calcFileIdxAndOffsetStriped cfg io.1).1, (calcFileIdxAndOffsetStriped cfg io.1).2, io.2⟩

/-- Where a request goes. -/
def Request.toSlice (r : Request) : Slice := ⟨r.fileIdx, r.offset, r.size⟩

/-- **A run with full results issues the draws** of its generator, in their order. -/
theorem RwState.exists_fullRun {G : Type*} [OffsetGenerator G] [LawfulOffsetGenerator G]
    {cfg : WorkerConfig} {journal : ℕ → Journal} {s : RwState G} {fuel : ℕ} {ios : List (ℕ × ℕ)}
    (hvalid : LawfulOffsetGenerator.Valid s.progress.gen)
    (h : drawAll fuel s.progress.gen = some ios) :
    ∃ s', Reach (RwState.fullStep cfg journal) anyStep s s' ∧ s'.progress.bytesLeft = false ∧
      s'.processed.map Request.toSlice =
        s.processed.map Request.toSlice ++ ios.map (ioOf cfg) := by
  induction fuel generalizing s ios with
  | zero => cases h
  | succ fuel ih =>
    rw [drawAll] at h
    split_ifs at h with hleft
    · obtain rfl := Option.some.inj h
      exact ⟨s, Reach.refl s, decide_eq_false (not_not.mpr hleft), (List.append_nil _).symm⟩
    · obtain ⟨rest, hrest, rfl⟩ := Option.map_eq_some_iff.mp h
      have hsize : 0 < (s.nextRequest cfg).size := LawfulOffsetGenerator.size_pos _ hvalid hleft
      obtain ⟨cells, hstep⟩ := RwState.fullStep_eq_some journal (decide_eq_true hleft) hsize
      obtain ⟨s', hreach, hdone, hprocessed⟩ :=
        ih (s := ⟨s.progress.next, cells, s.processed ++ [s.nextRequest cfg]⟩)
          (LawfulOffsetGenerator.valid_submitDraw _ hvalid hleft) hrest
      refine ⟨s', Relation.ReflTransGen.head ⟨(), trivial, hstep⟩ hreach, hdone, ?_⟩
      rw [hprocessed, List.map_append, List.append_assoc]
      rfl

theorem RwState.exists_fullRun_oneBlock : ∃ s : RwState OffsetGenSequential,
    s.processed.map Request.toSlice = [⟨0, 0, 8192⟩] := by
  obtain ⟨s, -, -, hs⟩ := @exists_fullRun _ _ _ twoBlockWriter (fun _ => twoBlockJournal)
    twoBlockStart 2 _ trivial rfl
  exact ⟨s, hs⟩

/-! ## The blocks of the ranks -/

namespace ProgArgs

variable {a : ProgArgs} {w : FileModeWorker}

/-- The draws of a worker if all I/Os are done in full. -/
def FullDraws (a : ProgArgs) (w : FileModeWorker) (drawn : List (ℕ × ℕ)) : Prop :=
  ∃ g fuel, a.randOffsetGen w = .ok g ∧ drawAll fuel g = some drawn

/-- The I/Os of a worker if all of them are done in full. -/
def FullRun (a : ProgArgs) (w : FileModeWorker) (ios : List Slice) : Prop :=
  ∃ drawn, a.FullDraws w drawn ∧ ios = drawn.map (ioOf (a.workerConfig w))

/-- An I/O shares bytes with a block of a file. -/
def touchesBlock (a : ProgArgs) (file block : ℕ) (io : Slice) : Bool :=
  io.currentFileIndex = file ∧ io.currentIoStart < a.fileOffset + (block + 1) * a.blockSize ∧
    a.fileOffset + block * a.blockSize < io.currentIoStart + io.currentIoLen

/-- An I/O is one whole block of a file. -/
def isBlock (a : ProgArgs) (file block : ℕ) (io : Slice) : Bool :=
  io = ⟨file, a.fileOffset + block * a.blockSize, a.blockSize⟩

/-- The number of I/Os of all ranks with some property. -/
def numIos (a : ProgArgs) (ios : ℕ → List Slice) (p : Slice → Bool) : ℕ :=
  ((List.range a.numDataSetThreads).map fun rank => (ios rank).countP p).sum

/-- **Every block of every file is touched once**, by an I/O that is this block, if all
I/Os are done in full. -/
def CoversOnce (a : ProgArgs) (w : ℕ → FileModeWorker) : Prop :=
  ∃ ios : ℕ → List Slice, (∀ rank < a.numDataSetThreads, a.FullRun (w rank) (ios rank)) ∧
    ∀ file < a.benchPathsVec.length, ∀ block < a.fileSize / a.blockSize,
      a.numIos ios (a.touchesBlock file block) = 1 ∧ a.numIos ios (a.isBlock file block) = 1

/-- The number of blocks of all files. -/
def numWholeBlocks (a : ProgArgs) : ℕ := a.fileSize / a.blockSize * a.benchPathsVec.length

/-- The threads divide the blocks, and the numbers that the workers compute are words: the
number of all blocks, the length of the range of a rank, and the offset of the last block,
in the virtual range and in its file. -/
structure StridedOk (a : ProgArgs) : Prop where
  threads_dvd : a.numDataSetThreads ∣ a.numWholeBlocks
  blocksFit : a.numWholeBlocks < Word64.size
  rangeFits : a.blockSize * (a.numWholeBlocks / a.numDataSetThreads) < Word64.size
  lastFits : a.benchPathsVec.length * a.fileSize < Word64.size + a.blockSize
  offsetFits : a.fileOffset + a.fileSize < Word64.size + a.blockSize

/-- What is known of the arguments in strided mode. -/
structure Strided (a : ProgArgs) : Prop where
  useStridedAccess : a.useStridedAccess = true
  blockSize_pos : 0 < a.blockSize
  fileSize_pos : 0 < a.fileSize
  blockSize_dvd : a.blockSize ∣ a.fileSize

theorem FileModeOk.strided (hok : a.FileModeOk) (hstrided : a.useStridedAccess = true)
    (hphase : a.runsIoPhase = true) : a.Strided := by
  refine ⟨hstrided, hok.blockSize_pos, hok.fileSize_pos, ?_⟩
  have hneeds : a.needsBlocks = true := by rw [needsBlocks, hstrided, Bool.or_true]
  have hdvd := hok.getMinSize_dvd_fileSize hneeds hphase
  rwa [a.blockSizeMix.getMinSize_eq_of_not_isMix (a.noMix (Or.inl hstrided)),
    ← a.blockSize_eq (Nat.ne_of_gt hok.blockSize_pos)] at hdvd

section Draws

/-- The blocks of all files have the bytes of all files. -/
theorem Strided.numWholeBlocks_mul (h : a.Strided) :
    a.numWholeBlocks * a.blockSize = a.benchPathsVec.length * a.fileSize := by
  obtain ⟨k, hk⟩ := h.blockSize_dvd
  rw [numWholeBlocks, hk, Nat.mul_div_cancel_left k h.blockSize_pos, Nat.mul_right_comm,
    Nat.mul_comm k, Nat.mul_comm]

/-- The number of blocks of a rank is not larger than its share. -/
theorem numDataSetThreads_mul_numRankBlocks_le (a : ProgArgs) :
    a.numDataSetThreads * a.numRankBlocks ≤ a.numWholeBlocks :=
  (Nat.mul_div_le _ _).trans (Nat.mod_le _ _)

/-- **The draws of a rank**: blocks that are a round of the ranks apart, with the offsets
as they wrap around. -/
theorem Strided.fullDraws_iff (h : a.Strided) {drawn : List (ℕ × ℕ)} :
    a.FullDraws w drawn ↔ drawn = (List.range (numBlocks a.rangeLen a.blockSize)).map fun j =>
      ((w.workerRank + j * a.numDataSetThreads) * a.blockSize % Word64.size,
        min (a.rangeLen - j * a.blockSize) a.blockSize) := by
  have hgen : a.randOffsetGen w = .ok (.strided (.make a.rangeLen
      (Word64.mul a.blockSize w.workerRank) a.blockSize a.numDataSetThreads)) :=
    if_pos h.useStridedAccess
  obtain ⟨fuel, hdraws⟩ := (OffsetGenStrided.make a.rangeLen
    (Word64.mul a.blockSize w.workerRank) a.blockSize a.numDataSetThreads).exists_drawAll
    h.blockSize_pos (Word64.mul_lt _ _) (Word64.mul_lt _ _)
  have hoffset : ∀ j, (Word64.mul a.blockSize w.workerRank +
      j * (a.blockSize * a.numDataSetThreads)) % Word64.size =
      (w.workerRank + j * a.numDataSetThreads) * a.blockSize % Word64.size := by
    intro j
    rw [Word64.mul, Nat.mod_add_mod, Nat.add_mul, Nat.mul_comm a.blockSize w.workerRank,
      Nat.mul_comm a.blockSize a.numDataSetThreads, Nat.mul_assoc]
  have hlist : (List.range (numBlocks a.rangeLen a.blockSize)).map (fun j =>
        ((Word64.mul a.blockSize w.workerRank +
          j * (a.blockSize * a.numDataSetThreads)) % Word64.size,
          min (a.rangeLen - j * a.blockSize) a.blockSize)) =
      (List.range (numBlocks a.rangeLen a.blockSize)).map fun j =>
        ((w.workerRank + j * a.numDataSetThreads) * a.blockSize % Word64.size,
          min (a.rangeLen - j * a.blockSize) a.blockSize) :=
    List.map_congr_left fun j _ => by rw [hoffset j]
  have hall := (AnyOffsetGen.dispatches_strided.drawAll_eq fuel _).trans
    (hdraws.trans (congrArg some hlist))
  constructor
  · rintro ⟨g, fuel', hg, hdrawn⟩
    obtain rfl := Except.ok.inj (hgen.symm.trans hg)
    exact drawAll_unique hdrawn hall
  · rintro rfl
    exact ⟨_, fuel, hgen, hall⟩

theorem Strided.fullRun_iff (h : a.Strided) {ios : List Slice} :
    a.FullRun w ios ↔ ios = (List.range (numBlocks a.rangeLen a.blockSize)).map fun j =>
      ioOf (a.workerConfig w) ((w.workerRank + j * a.numDataSetThreads) * a.blockSize % Word64.size,
        min (a.rangeLen - j * a.blockSize) a.blockSize) := by
  unfold FullRun
  simp only [h.fullDraws_iff, exists_eq_left, List.map_map, Function.comp_def]

/-- The address of a block: its number divided by the blocks of a file. -/
theorem Strided.ioOf_block (h : a.Strided)
    (hoffset : a.fileOffset + a.fileSize < Word64.size + a.blockSize) {b : ℕ}
    (hb : b < a.numWholeBlocks) :
    ioOf (a.workerConfig w) (b * a.blockSize, a.blockSize) =
      ⟨b / (a.fileSize / a.blockSize),
        a.fileOffset + b % (a.fileSize / a.blockSize) * a.blockSize, a.blockSize⟩ := by
  obtain ⟨k, hk⟩ := h.blockSize_dvd
  have hpos := h.blockSize_pos
  have hfile := h.fileSize_pos
  unfold numWholeBlocks at hb
  rw [hk, Nat.mul_div_cancel_left k hpos] at hb ⊢
  have hkpos : 0 < k := by
    rcases Nat.eq_zero_or_pos k with rfl | hkpos
    · omega
    · exact hkpos
  have hmod := Nat.mul_le_mul_right a.blockSize (show b % k + 1 ≤ k from Nat.mod_lt b hkpos)
  rw [Nat.add_one_mul, Nat.mul_comm k, ← hk] at hmod
  have hlt : b % k * a.blockSize + a.fileOffset < Word64.size := by omega
  have haddr : calcFileIdxAndOffsetStriped (a.workerConfig w) (b * a.blockSize) =
      (b / k, a.fileOffset + b % k * a.blockSize) := by
    unfold calcFileIdxAndOffsetStriped
    split_ifs with hone
    · have hone : a.benchPathsVec.length = 1 := hone
      rw [hone, Nat.mul_one] at hb
      rw [Nat.mod_eq_of_lt hb] at hlt ⊢
      rw [Nat.div_eq_of_lt hb, Nat.add_comm a.fileOffset]
      exact congrArg _ (Word64.add_eq hlt)
    · show (b * a.blockSize / a.fileSize,
        Word64.add (b * a.blockSize % a.fileSize) a.fileOffset) = _
      rw [hk, Nat.mul_comm b, Nat.mul_div_mul_left _ _ hpos, Nat.mul_mod_mul_left,
        Nat.mul_comm a.blockSize, Word64.add_eq hlt, Nat.add_comm a.fileOffset]
  unfold ioOf
  rw [haddr]

/-- A draw at the address of the last block is at the last block of the virtual range. -/
theorem Strided.eq_of_ioOf_last (h : a.Strided) {off size : ℕ} (hoff : off < Word64.size)
    (hio : ioOf (a.workerConfig w) (off, size) = ⟨a.benchPathsVec.length - 1,
      a.fileOffset + (a.fileSize / a.blockSize - 1) * a.blockSize, a.blockSize⟩) :
    off + a.blockSize = a.benchPathsVec.length * a.fileSize ∧ size = a.blockSize ∧
      a.fileOffset + a.fileSize < Word64.size + a.blockSize := by
  have hle := Nat.le_of_dvd h.fileSize_pos h.blockSize_dvd
  have hlast : (a.fileSize / a.blockSize - 1) * a.blockSize = a.fileSize - a.blockSize := by
    rw [Nat.sub_mul, Nat.one_mul, Nat.div_mul_cancel h.blockSize_dvd]
  have hpaths := a.benchPathsVec_pos
  have hfo := a.fileOffset_lt
  have hfile := a.fileSize_lt
  rw [hlast] at hio
  obtain ⟨hidx, haddr, hsize⟩ := Slice.mk.inj hio
  -- a sum of words that is the last offset of a file is not reduced
  have hadd : ∀ x, x < Word64.size →
      Word64.add x a.fileOffset = a.fileOffset + (a.fileSize - a.blockSize) →
      x = a.fileSize - a.blockSize ∧ a.fileOffset + a.fileSize < Word64.size + a.blockSize := by
    intro x hx hsum
    have hlt := Word64.add_lt x a.fileOffset
    rcases Nat.lt_or_ge (x + a.fileOffset) Word64.size with hfit | hwrap
    · rw [Word64.add_eq hfit] at hsum
      omega
    · rw [Word64.add_eq_sub hwrap hx hfo] at hsum
      omega
  refine ⟨?_, hsize, ?_⟩
  all_goals
    unfold calcFileIdxAndOffsetStriped at hidx haddr
    split_ifs at hidx haddr with hone
  · obtain ⟨rfl, -⟩ := hadd off hoff haddr
    have hone : a.benchPathsVec.length = 1 := hone
    rw [hone, Nat.one_mul]
    omega
  · have hmod := Nat.mod_lt off h.fileSize_pos
    obtain ⟨hx, -⟩ := hadd (off % a.fileSize) (by omega) haddr
    have hidx : off / a.fileSize = a.benchPathsVec.length - 1 := hidx
    have hdiv := Nat.div_add_mod off a.fileSize
    have hmul := Nat.sub_mul a.benchPathsVec.length 1 a.fileSize
    have hone := Nat.le_mul_of_pos_left a.fileSize hpaths
    rw [hidx, Nat.mul_comm a.fileSize] at hdiv
    omega
  · exact (hadd off hoff haddr).2
  · have hmod := Nat.mod_lt off h.fileSize_pos
    exact (hadd (off % a.fileSize) (by omega) haddr).2

end Draws

/-! ## All blocks -/

section AllBlocks

/-- The blocks of a rank, if the numbers are words. -/
theorem StridedOk.fullRun_iff (hok : a.StridedOk) (h : a.Strided)
    (hrank : w.workerRank < a.numDataSetThreads) {ios : List Slice} :
    a.FullRun w ios ↔
      ios = (List.range (a.numWholeBlocks / a.numDataSetThreads)).map fun j =>
        (⟨(w.workerRank + j * a.numDataSetThreads) / (a.fileSize / a.blockSize),
          a.fileOffset + (w.workerRank + j * a.numDataSetThreads) % (a.fileSize / a.blockSize) *
            a.blockSize, a.blockSize⟩ : Slice) := by
  have hpos := h.blockSize_pos
  have htotal := h.numWholeBlocks_mul
  have hblocks : a.numRankBlocks = a.numWholeBlocks / a.numDataSetThreads := by
    rw [numRankBlocks, Word64.mul_eq hok.blocksFit]
    rfl
  have hlen : a.rangeLen = a.numWholeBlocks / a.numDataSetThreads * a.blockSize := by
    rw [rangeLen, hblocks, Word64.mul_eq hok.rangeFits, Nat.mul_comm]
  have hrounds := Nat.div_mul_cancel hok.threads_dvd
  rw [h.fullRun_iff, hlen, numBlocks_mul hpos]
  generalize a.numWholeBlocks / a.numDataSetThreads = q at hrounds
  refine iff_of_eq (congrArg _ (List.map_congr_left fun j hj => ?_))
  have hj := List.mem_range.mp hj
  -- a block of the first `q` rounds
  have hb : w.workerRank + j * a.numDataSetThreads < a.numWholeBlocks := by
    have := Nat.mul_le_mul_right a.numDataSetThreads (show j + 1 ≤ q from hj)
    rw [Nat.add_one_mul] at this
    omega
  have hbytes := Nat.mul_le_mul_right a.blockSize (show _ + 1 ≤ a.numWholeBlocks from hb)
  rw [Nat.add_one_mul, htotal] at hbytes
  have hlast := hok.lastFits
  have hsize : min (q * a.blockSize - j * a.blockSize) a.blockSize = a.blockSize := by
    have := Nat.mul_le_mul_right a.blockSize (show j + 1 ≤ q from hj)
    rw [Nat.add_one_mul] at this
    omega
  rw [Nat.mod_eq_of_lt (by omega), hsize, h.ioOf_block hok.offsetFits hb]

/-- An I/O that is a block touches this block and no other. -/
theorem Strided.touchesBlock_iff (h : a.Strided) {b file block : ℕ}
    (hblock : block < a.fileSize / a.blockSize) :
    (a.touchesBlock file block ⟨b / (a.fileSize / a.blockSize),
      a.fileOffset + b % (a.fileSize / a.blockSize) * a.blockSize, a.blockSize⟩ = true ↔
      b = file * (a.fileSize / a.blockSize) + block) ∧
    (a.isBlock file block ⟨b / (a.fileSize / a.blockSize),
      a.fileOffset + b % (a.fileSize / a.blockSize) * a.blockSize, a.blockSize⟩ = true ↔
      b = file * (a.fileSize / a.blockSize) + block) := by
  have hpos := h.blockSize_pos
  generalize a.fileSize / a.blockSize = k at hblock ⊢
  have hunique : b = file * k + block ↔ b / k = file ∧ b % k = block := by
    rw [Nat.div_mod_unique (Nat.zero_lt_of_lt hblock), Nat.mul_comm k, Nat.add_comm block]
    exact ⟨fun h => ⟨h.symm, hblock⟩, fun h => h.1.symm⟩
  have hlt : b % k * a.blockSize < (block + 1) * a.blockSize ↔ b % k < block + 1 :=
    Nat.mul_lt_mul_right hpos
  have hgt : block * a.blockSize < (b % k + 1) * a.blockSize ↔ block < b % k + 1 :=
    Nat.mul_lt_mul_right hpos
  have heq : b % k * a.blockSize = block * a.blockSize ↔ b % k = block :=
    Nat.mul_right_cancel_iff hpos
  rw [Nat.add_one_mul (b % k)] at hgt
  unfold touchesBlock isBlock
  rw [decide_eq_true_iff, decide_eq_true_iff, hunique, Slice.mk.injEq]
  dsimp only
  constructor
  · constructor <;> omega
  · constructor <;> omega

/-- **The rounds of the ranks** are all blocks. -/
theorem StridedOk.coversOnce (hok : a.StridedOk) (h : a.Strided) {w : ℕ → FileModeWorker}
    (hw : ∀ rank, (w rank).workerRank = rank) : a.CoversOnce w := by
  have hthreads := a.numDataSetThreads_pos
  have hcount : ∀ p : Slice → Bool, ∀ g < a.numWholeBlocks,
      (∀ b, p ⟨b / (a.fileSize / a.blockSize),
        a.fileOffset + b % (a.fileSize / a.blockSize) * a.blockSize, a.blockSize⟩ = true ↔ b = g) →
      a.numIos (fun rank => (List.range (a.numWholeBlocks / a.numDataSetThreads)).map fun j =>
        ⟨(rank + j * a.numDataSetThreads) / (a.fileSize / a.blockSize),
          a.fileOffset + (rank + j * a.numDataSetThreads) % (a.fileSize / a.blockSize) *
            a.blockSize, a.blockSize⟩) p = 1 := by
    intro p g hg hp
    have hround : g / a.numDataSetThreads < a.numWholeBlocks / a.numDataSetThreads := by
      rw [Nat.div_lt_iff_lt_mul hthreads, Nat.div_mul_cancel hok.threads_dvd]
      exact hg
    have hsum := sum_countP_range_round hthreads g (a.numWholeBlocks / a.numDataSetThreads)
    rw [if_pos hround] at hsum
    rw [← hsum, numIos]
    refine congrArg List.sum (List.map_congr_left fun rank _ => ?_)
    rw [List.countP_map]
    refine List.countP_congr fun j _ => ?_
    rw [Function.comp_apply, hp, decide_eq_true_iff]
  refine ⟨_, fun rank hrank => (hok.fullRun_iff h ((hw rank).symm ▸ hrank)).mpr
    (by rw [hw rank]), fun file hfile block hblock => ?_⟩
  have hg : file * (a.fileSize / a.blockSize) + block < a.numWholeBlocks := by
    have := Nat.mul_le_mul_right (a.fileSize / a.blockSize)
      (show file + 1 ≤ a.benchPathsVec.length from hfile)
    rw [Nat.add_one_mul, Nat.mul_comm a.benchPathsVec.length] at this
    unfold numWholeBlocks
    omega
  exact ⟨hcount _ _ hg fun b => (h.touchesBlock_iff hblock).1,
    hcount _ _ hg fun b => (h.touchesBlock_iff hblock).2⟩

/-- **The last block** is only reached if the ranks take all blocks. -/
theorem CoversOnce.stridedOk (h : a.Strided) {w : ℕ → FileModeWorker}
    (hw : ∀ rank, (w rank).workerRank = rank) (hcovers : a.CoversOnce w) : a.StridedOk := by
  obtain ⟨ios, hruns, honce⟩ := hcovers
  have hpos := h.blockSize_pos
  have hthreads := a.numDataSetThreads_pos
  have hperFile : 0 < a.fileSize / a.blockSize :=
    Nat.div_pos (Nat.le_of_dvd h.fileSize_pos h.blockSize_dvd) hpos
  have hlast := (honce (a.benchPathsVec.length - 1)
    (Nat.sub_lt a.benchPathsVec_pos Nat.one_pos) (a.fileSize / a.blockSize - 1)
    (Nat.sub_lt hperFile Nat.one_pos)).2
  obtain ⟨rank, hrank, io, hio, hisBlock⟩ : ∃ rank < a.numDataSetThreads, ∃ io ∈ ios rank,
      a.isBlock (a.benchPathsVec.length - 1) (a.fileSize / a.blockSize - 1) io = true := by
    by_contra hnone
    have hzero : a.numIos ios
        (a.isBlock (a.benchPathsVec.length - 1) (a.fileSize / a.blockSize - 1)) = 0 := by
      refine List.sum_eq_zero fun n hn => ?_
      obtain ⟨rank, hrank, rfl⟩ := List.mem_map.mp hn
      exact List.countP_eq_zero.mpr fun io hio hisBlock =>
        hnone ⟨rank, List.mem_range.mp hrank, io, hio, hisBlock⟩
    omega
  rw [h.fullRun_iff.mp (hruns rank hrank), hw rank] at hio
  obtain ⟨j, -, rfl⟩ := List.mem_map.mp hio
  obtain ⟨hoff, hsize, hoffset⟩ :=
    h.eq_of_ioOf_last (Nat.mod_lt _ Word64.size_pos) (of_decide_eq_true hisBlock)
  have htotal := h.numWholeBlocks_mul
  -- the draw is in one of the rounds of the ranks
  have hlen : a.rangeLen ≤ a.numRankBlocks * a.blockSize := by
    rw [Nat.mul_comm]
    exact Nat.mod_le _ _
  have hround : (j + 1) * a.blockSize ≤ a.rangeLen := by
    rw [Nat.add_one_mul]
    omega
  have hj : j + 1 ≤ a.numRankBlocks := Nat.le_of_mul_le_mul_right (hround.trans hlen) hpos
  have hrounds := a.numDataSetThreads_mul_numRankBlocks_le
  have hmul := Nat.mul_le_mul_right a.numDataSetThreads hj
  rw [Nat.add_one_mul, Nat.mul_comm a.numRankBlocks] at hmul
  have hb : rank + j * a.numDataSetThreads + 1 ≤ a.numWholeBlocks := by omega
  have hbytes := Nat.mul_le_mul_right a.blockSize hb
  have hmod := Nat.mod_le ((rank + j * a.numDataSetThreads) * a.blockSize) Word64.size
  have hlt := Nat.mod_lt ((rank + j * a.numDataSetThreads) * a.blockSize) Word64.size_pos
  rw [htotal, Nat.add_one_mul] at hbytes
  -- so it is not reduced, and its round is the last one
  have hall : a.numWholeBlocks = rank + j * a.numDataSetThreads + 1 := by
    refine Nat.eq_of_mul_eq_mul_right hpos ?_
    rw [htotal, Nat.add_one_mul]
    omega
  have hcounted : a.numDataSetThreads * a.numRankBlocks ≤
      Word64.mul (a.fileSize / a.blockSize) a.benchPathsVec.length := Nat.mul_div_le _ _
  have hfits := Word64.mul_lt (a.fileSize / a.blockSize) a.benchPathsVec.length
  have heq : a.numWholeBlocks = a.numDataSetThreads * a.numRankBlocks := by omega
  have hshare : a.numWholeBlocks / a.numDataSetThreads = a.numRankBlocks := by
    rw [heq, Nat.mul_div_cancel_left _ hthreads]
  have hfull : a.numRankBlocks ≤ j + 1 := by
    have hmax : a.numDataSetThreads * a.numRankBlocks ≤ a.numDataSetThreads * (j + 1) := by
      rw [Nat.mul_add_one, Nat.mul_comm _ j]
      omega
    exact Nat.le_of_mul_le_mul_left hmax hthreads
  refine ⟨⟨_, heq⟩, by omega, ?_, by omega, hoffset⟩
  have hrange := Word64.mul_lt a.blockSize a.numRankBlocks
  have hwhole := (Nat.mul_le_mul_right a.blockSize hfull).trans hround
  rw [hshare, Nat.mul_comm]
  exact lt_of_le_of_lt hwhole hrange

end AllBlocks

end ProgArgs

/-- **Strided mode touches every block once** exactly if the threads divide the number of
blocks and the offsets are words: for every accepted configuration with strided access and
all workers, if all I/Os are done in full. -/
theorem strided_coversOnce_iff (a a' : ProgArgs) (hcheck : a.checkPathDependentArgs = .ok a')
    (hdir : a'.benchPathType ≠ .dir) (hstrided : a'.useStridedAccess = true)
    (hphase : a'.runsIoPhase = true) (w : ℕ → FileModeWorker)
    (hw : ∀ rank, (w rank).workerRank = rank) : a'.CoversOnce w ↔ a'.StridedOk := by
  have h := ((ProgArgs.checkPathDependentArgs_spec hcheck).1 hdir).strided hstrided hphase
  exact ⟨fun hcovers => ProgArgs.CoversOnce.stridedOk h hw hcovers, fun hok => hok.coversOnce h hw⟩

/-! ### Three blocks and two threads -/

/-- A file of some blocks of 4 KiB, written with strided access. -/
def stridedArgs (numBlocks numThreads : ℕ) (hblocks : numBlocks < 4)
    (hthreads : 0 < numThreads ∧ numThreads < Word64.size) : ProgArgs :=
  { randomArgs ["/a"] numThreads (numBlocks * 4096) 0
      (.single 4096 Word64.page_pos Word64.page_lt_size) oneBlockArgs.benchPathsVec_pos hthreads
      (lt_of_lt_of_le (b := 16384) (by omega) (by decide)) Word64.size_pos with
    useRandomOffsets := false
    useStridedAccess := true
    onePattern := twoFilesArgs.onePattern
    noMix := fun _ => rfl }

/-- With as many threads as blocks, every block is written. -/
theorem strided_coversOnce_twoBlocks :
    ∃ a', (stridedArgs 2 2 (by decide) (by decide)).checkPathDependentArgs = .ok a' ∧
      a'.numWholeBlocks = 2 ∧ a'.CoversOnce zeroWriter :=
  ⟨_, rfl, by decide, (strided_coversOnce_iff (stridedArgs 2 2 (by decide) (by decide)) _ rfl
    (by decide) rfl rfl zeroWriter fun _ => rfl).mpr
    ⟨by decide, by decide, by decide, by decide, by decide⟩⟩

/-- **The third block is left out.**  The configuration is accepted; each of the two ranks
writes one block, and none writes the block at 8 KiB. -/
theorem strided_threeBlocks :
    ∃ a', (stridedArgs 3 2 (by decide) (by decide)).checkPathDependentArgs = .ok a' ∧
      a'.benchPathType ≠ .dir ∧ a'.useStridedAccess = true ∧ a'.runsIoPhase = true ∧
      a'.fileSize = 12288 ∧ a'.blockSize = 4096 ∧ a'.numDataSetThreads = 2 ∧
      a'.FullRun (zeroWriter 0) [⟨0, 0, 4096⟩] ∧
      a'.FullRun (zeroWriter 1) [⟨0, 4096, 4096⟩] ∧ ¬ a'.CoversOnce zeroWriter := by
  refine ⟨_, rfl, by decide, rfl, rfl, rfl, rfl, rfl, ⟨_, ⟨_, 2, rfl, rfl⟩, rfl⟩,
    ⟨_, ⟨_, 2, rfl, rfl⟩, rfl⟩, fun hcovers => ?_⟩
  have hok := ProgArgs.CoversOnce.stridedOk ⟨rfl, by decide, by decide, by decide⟩ (fun _ => rfl)
    hcovers
  exact absurd hok.threads_dvd (by decide)

end Elbencho
