import Elbencho.Journal.Store
import Elbencho.Worker.RankOffset

/-!
# Alignment to journal blocks

A run with journals is only accepted if the journal block size divides the sizes of the
mix, the offset and the file size.  Every I/O of a worker then is a whole number of journal
blocks, at a multiple of the journal block size: in sequential and reverse mode, where the
part of a worker is cut at files, in strided mode, and in aligned random mode, where the
random amount of a worker is a whole number of blocks.

All of this is arithmetic on words.  A product that is reduced modulo `2 ^ 64` keeps its
divisors only if they divide `2 ^ 64`; `AlignSafe` says that nothing is reduced, or that
the journal block size is such a divisor.  The proofs are about any number that divides the
arguments (`AlignedTo`), since the sectors of a device are another one.

* `Issues` are the I/Os of a worker in all modes, if every I/O is done in full.
* `CoversRange` says that the range of the run is a whole number of blocks of a journal.
* `journaledIo_aligned` is the main statement, and `threeFiles_unaligned` a run whose files
  have more than `2 ^ 64` bytes together.
-/

namespace Elbencho

open OffsetGenerator Blocks Transition

/-! ## Aligned draws -/

/-- The offset and the size of a draw are multiples of a number, and there is something to
read or write.  The offset is below a limit, unless the number divides `2 ^ 64`. -/
structure AlignedDraw (d limit : ℕ) (io : ℕ × ℕ) : Prop where
  dvd_offset : d ∣ io.1
  dvd_size : d ∣ io.2
  size_pos : 0 < io.2
  safe : d ∣ Word64.size ∨ io.1 < limit

section Draws

variable {d limit : ℕ}

theorem dvd_min {x y : ℕ} (hx : d ∣ x) (hy : d ∣ y) : d ∣ min x y := by
  rcases min_choice x y with h | h
  · rwa [h]
  · rwa [h]

/-- The rest of an aligned amount after an aligned I/O. -/
theorem dvd_word_sub {left size : ℕ} (hleft : d ∣ left) (hsize : d ∣ size) (hle : size ≤ left)
    (hlt : left < Word64.size) : d ∣ Word64.sub left size := by
  rw [Word64.sub_eq hle hlt]
  exact Nat.dvd_sub hleft hsize

/-- **The address of an aligned draw** is aligned. -/
theorem AlignedDraw.dvd_address {cfg : WorkerConfig} {io : ℕ × ℕ} (h : AlignedDraw d limit io)
    (hfile : d ∣ cfg.fileSize) (hoffset : d ∣ cfg.fileOffset) (hpos : 0 < cfg.fileSize)
    (hend : cfg.fileOffset + cfg.fileSize < Word64.size)
    (hlimit : cfg.numFiles = 1 → limit ≤ cfg.fileSize) :
    d ∣ (calcFileIdxAndOffsetStriped cfg io.1).2 := by
  unfold calcFileIdxAndOffsetStriped
  split_ifs with hone
  · have hle := hlimit hone
    exact Word64.dvd_mod (Nat.dvd_add h.dvd_offset hoffset) (h.safe.imp_right fun hlt => by omega)
  · have hmod := Nat.mod_lt io.1 hpos
    exact Word64.dvd_mod (Nat.dvd_add ((Nat.dvd_mod_iff hfile).mpr h.dvd_offset) hoffset)
      (Or.inr (by omega))

/-! ### Sequential and reverse draws -/

/-- A sequential generator whose range is aligned and ends before a limit. -/
structure OffsetGenSequential.Aligned (d limit : ℕ) (g : OffsetGenSequential) : Prop where
  end_le : g.currentOffset + g.numBytesLeft ≤ limit
  limit_lt : limit < Word64.size
  dvd_offset : d ∣ g.currentOffset
  dvd_left : d ∣ g.numBytesLeft
  dvd_sizes : ∀ size ∈ g.blockSizeMix.sizes, d ∣ size

theorem OffsetGenSequential.submitDraw_blockSizeMix (g : OffsetGenSequential) :
    (submitDraw g).blockSizeMix = g.blockSizeMix := by
  cases g
  rfl

theorem OffsetGenSequential.Aligned.draw {g : OffsetGenSequential} (h : g.Aligned d limit)
    (hleft : getNumBytesLeftToSubmit g ≠ 0) : AlignedDraw d limit (draw g).1 := by
  have hend := h.end_le
  have hne : g.numBytesLeft ≠ 0 := hleft
  exact ⟨h.dvd_offset, dvd_min h.dvd_left (h.dvd_sizes _ (g.blockSizeMix.getNextSize_mem _)),
    LawfulOffsetGenerator.size_pos g trivial hleft, Or.inr (show g.currentOffset < limit by omega)⟩

theorem OffsetGenSequential.Aligned.submitDraw {g : OffsetGenSequential} (h : g.Aligned d limit)
    (hleft : getNumBytesLeftToSubmit g ≠ 0) : (submitDraw g).Aligned d limit := by
  have hdraw := h.draw hleft
  have hend := h.end_le
  have hlimit := h.limit_lt
  have hle : (OffsetGenerator.draw g).1.2 ≤ g.numBytesLeft := min_le_left _ _
  have hleft' : (OffsetGenerator.submitDraw g).numBytesLeft =
      g.numBytesLeft - (OffsetGenerator.draw g).1.2 :=
    Word64.sub_eq hle (show g.numBytesLeft < Word64.size by omega)
  have hoffset' : (OffsetGenerator.submitDraw g).currentOffset =
      g.currentOffset + (OffsetGenerator.draw g).1.2 :=
    Word64.add_eq (show g.currentOffset + (OffsetGenerator.draw g).1.2 < Word64.size by omega)
  refine ⟨?_, hlimit, ?_, ?_, ?_⟩
  · rw [hoffset', hleft']
    omega
  · rw [hoffset']
    exact Nat.dvd_add h.dvd_offset hdraw.dvd_size
  · rw [hleft']
    exact Nat.dvd_sub h.dvd_left hdraw.dvd_size
  · rw [g.submitDraw_blockSizeMix]
    exact h.dvd_sizes

theorem OffsetGenSequential.Aligned.drawn {g : OffsetGenSequential} (h : g.Aligned d limit)
    {io : ℕ × ℕ} (hio : Drawn FullResult g io) : AlignedDraw d limit io := by
  have hinv : ∃ g' : OffsetGenSequential, g'.Aligned d limit ∧ getNumBytesLeftToSubmit g' ≠ 0 ∧
      (OffsetGenerator.draw g').1 = io := by
    refine hio.invariant h fun u n hu hleft hn => ?_
    rw [show n = _ from hn]
    exact hu.submitDraw hleft
  obtain ⟨g', hg', hleft, rfl⟩ := hinv
  exact hg'.draw hleft

/-- The draws of a reverse generator whose range is aligned. -/
theorem OffsetGenReverseSeq.aligned_of_drawn {g : OffsetGenReverseSeq}
    (h : g.numBytesLeft ≠ 0 → ∃ i, g.AtBlock i) (hstart : d ∣ g.startOffset)
    (htotal : d ∣ g.numBytesTotal) (hsize : d ∣ g.blockSize)
    (hlimit : g.startOffset + g.numBytesTotal ≤ limit)
    {io : ℕ × ℕ} (hio : Drawn FullResult g io) : AlignedDraw d limit io := by
  have hinv : ∃ g' : OffsetGenReverseSeq, ((g'.startOffset = g.startOffset ∧
      g'.numBytesTotal = g.numBytesTotal ∧ g'.blockSize = g.blockSize) ∧
      (g'.numBytesLeft ≠ 0 → ∃ i, g'.AtBlock i)) ∧ getNumBytesLeftToSubmit g' ≠ 0 ∧
      (draw g').1 = io := by
    refine hio.invariant ⟨⟨rfl, rfl, rfl⟩, h⟩ ?_
    rintro ⟨total, left, start, current, blockSize⟩ n ⟨hsame, hat⟩ hleft hn
    rw [show n = _ from hn]
    exact ⟨hsame, LawfulOffsetGenerator.valid_submitDraw
      (OffsetGenReverseSeq.mk total left start current blockSize) hat hleft⟩
  obtain ⟨g', ⟨⟨hs, ht, hb⟩, hat⟩, hleft, rfl⟩ := hinv
  obtain ⟨k, hk⟩ := hat hleft
  have hoffset : (draw g').1.1 = g.startOffset + k * g.blockSize := by
    rw [← hs, ← hb]
    exact hk.currentOffset_eq
  have hlt := hk.lt_total
  rw [hb, ht] at hlt
  refine ⟨?_, ?_, LawfulOffsetGenerator.size_pos g' hat hleft, Or.inr (by omega)⟩
  · rw [hoffset]
    exact Nat.dvd_add hstart (Nat.dvd_mul_left_of_dvd hsize k)
  · rw [hk.size_eq, ht, hb]
    exact dvd_min (Nat.dvd_sub htotal (Nat.dvd_mul_left_of_dvd hsize k)) hsize

/-! ### Random draws -/

/-- The draws of an aligned random generator have aligned sizes.  Their offsets are aligned
even if they wrap around, if the number divides `2 ^ 64`. -/
theorem OffsetGenRandomAligned.aligned_of_drawn {total len offset : ℕ} {mix : BlockSizeMix}
    {randAlgo : RandAlgo} {g : OffsetGenRandomAligned}
    (hmake : make total randAlgo len offset mix = .ok g) (hsizes : ∀ size ∈ mix.sizes, d ∣ size)
    (htotal : d ∣ total) (hlt : total < Word64.size) {io : ℕ × ℕ}
    (hio : Drawn FullResult g io) :
    d ∣ io.2 ∧ 0 < io.2 ∧ (d ∣ Word64.size → d ∣ offset → d ∣ io.1) := by
  simp only [make, Checks.bind_eq_ok] at hmake
  obtain ⟨range, -, hok⟩ := hmake
  obtain rfl := Except.ok.inj hok
  have hinv : ∃ g : OffsetGenRandomAligned, (g.offset = offset ∧ g.alignGrid = mix.getMinSize ∧
      g.blockSizeMix = mix ∧ d ∣ g.numBytesLeft ∧ g.numBytesLeft < Word64.size) ∧
      getNumBytesLeftToSubmit g ≠ 0 ∧ (draw g).1 = io := by
    refine hio.invariant ⟨rfl, rfl, rfl, htotal, hlt⟩ ?_
    rintro ⟨range, total, left, offset', mix', grid, randAlgo'⟩ n ⟨hoff, hgrid, hmix, hdvd, hfit⟩ - hn
    refine ⟨hoff, hgrid, hmix, ?_, Word64.sub_lt _ _⟩
    rw [show n = _ from hn]
    have hmix' : mix' = mix := hmix
    exact dvd_word_sub hdvd (dvd_min hdvd (hsizes _ (hmix' ▸ mix'.getNextSize_mem _)))
      (min_le_left _ _) hfit
  obtain ⟨g, ⟨hoff, hgrid, hmix, hdvd, hfit⟩, hleft, rfl⟩ := hinv
  refine ⟨dvd_min hdvd (hsizes _ (hmix ▸ g.blockSizeMix.getNextSize_mem _)),
    LawfulOffsetGenerator.size_pos g trivial hleft, fun hword hoffset => ?_⟩
  show d ∣ Word64.add g.offset (Word64.mul (g.randRange.next g.randAlgo).1 g.alignGrid)
  rw [hoff, hgrid]
  exact Word64.dvd_mod (Nat.dvd_add hoffset (Word64.dvd_mod
    (Nat.dvd_mul_left_of_dvd (hsizes _ mix.getMinSize_mem) _) (Or.inl hword))) (Or.inl hword)

/-- The same for the full coverage generator. -/
theorem OffsetGenRandomAlignedFullCoverageV2.aligned_of_drawn {total len offset blockSize : ℕ}
    {rd : RandomDevice} {g : OffsetGenRandomAlignedFullCoverageV2}
    (hmake : make total len offset blockSize rd = .ok g) (hpos : 0 < blockSize)
    (hsize : d ∣ blockSize) (htotal : d ∣ total) (hlt : total < Word64.size) {io : ℕ × ℕ}
    (hio : Drawn FullResult g io) :
    d ∣ io.2 ∧ 0 < io.2 ∧ (d ∣ Word64.size → d ∣ io.1) := by
  simp only [make, Checks.bind_eq_ok] at hmake
  obtain ⟨randomGen, -, hok⟩ := hmake
  obtain rfl := Except.ok.inj hok
  have hinv : ∃ g : OffsetGenRandomAlignedFullCoverageV2, (g.blockSize = blockSize ∧
      d ∣ g.numBytesLeft ∧ g.numBytesLeft < Word64.size) ∧
      getNumBytesLeftToSubmit g ≠ 0 ∧ (draw g).1 = io := by
    refine hio.invariant ⟨rfl, htotal, hlt⟩ ?_
    rintro ⟨total, left, size, gen⟩ n ⟨hbs, hdvd, hfit⟩ - hn
    refine ⟨hbs, ?_, Word64.sub_lt _ _⟩
    rw [show n = _ from hn]
    have hbs' : size = blockSize := hbs
    exact dvd_word_sub hdvd (dvd_min hdvd (hbs' ▸ hsize)) (min_le_left _ _) hfit
  obtain ⟨g, ⟨hbs, hdvd, hfit⟩, hleft, rfl⟩ := hinv
  refine ⟨dvd_min hdvd (hbs ▸ hsize), LawfulOffsetGenerator.size_pos g
    (show 0 < g.blockSize from hbs ▸ hpos) hleft, fun hword => ?_⟩
  show d ∣ Word64.mul g.randomGen.next.1 g.blockSize
  rw [hbs]
  exact Word64.dvd_mod (Nat.dvd_mul_left_of_dvd hsize _) (Or.inl hword)

/-! ### The draws of a loop -/

/-- The draws of a loop with full results are those of `drawAll`. -/
theorem OffsetGenerator.mem_of_drawn {G : Type*} [OffsetGenerator G] {g : G} {fuel : ℕ}
    {ios : List (ℕ × ℕ)} (h : drawAll fuel g = some ios) {io : ℕ × ℕ}
    (hio : Drawn FullResult g io) : io ∈ ios := by
  obtain ⟨g', hreach, hleft', rfl⟩ := hio
  induction fuel generalizing g ios with
  | zero => cases h
  | succ fuel ih =>
    rw [drawAll] at h
    rcases Relation.ReflTransGen.cases_head hreach with rfl | ⟨u, ⟨n, hn, hstep⟩, hrest⟩
    · rw [if_neg hleft'] at h
      obtain ⟨rest, -, rfl⟩ := Option.map_eq_some_iff.mp h
      exact List.mem_cons_self
    · rw [account] at hstep
      split_ifs at hstep with hleft
      obtain rfl := Option.some.inj hstep
      rw [if_neg hleft] at h
      obtain ⟨rest, htail, rfl⟩ := Option.map_eq_some_iff.mp h
      rw [show n = _ from hn] at hrest
      exact List.mem_cons_of_mem _ (ih htail hrest)

end Draws

section FullLoop

variable {G : Type*} [OffsetGenerator G] {cfg : WorkerConfig} {journal : ℕ → Journal}

/-- The loop has come from the generator `g` with full results, and its requests are such
draws. -/
structure RwState.FullDrawsFrom (cfg : WorkerConfig) (g : G) (s : RwState G) : Prop where
  reach : Reach OffsetGenerator.account FullResult g s.progress.gen
  drawn : ∀ r ∈ s.processed, ∃ io decision, Drawn FullResult g io ∧
    r = Progress.requestOf cfg io decision

theorem RwState.FullDrawsFrom.fullStep {g : G} {s s' : RwState G}
    (h : RwState.FullDrawsFrom cfg g s) (hstep : s.fullStep cfg journal () = some s') :
    RwState.FullDrawsFrom cfg g s' := by
  obtain ⟨hleft, hprocessed, n, -, hfull, hgen⟩ :=
    RwState.rwStep_eq_some (le_refl (s.fullResult cfg).rwRes) hstep
  refine ⟨h.reach.tail (hfull rfl) ?_, fun r hr => ?_⟩
  · rw [OffsetGenerator.account, if_pos hleft, hgen]
  · rw [hprocessed, List.mem_append, List.mem_singleton] at hr
    rcases hr with hr | rfl
    · exact h.drawn r hr
    · exact ⟨_, _, ⟨_, h.reach, hleft, rfl⟩, rfl⟩

/-- **Every request of a loop with full results** is a draw with full results. -/
theorem fullDrawn_of_mem_processed {s s' : RwState G} (hstart : s.processed = [])
    (h : Reach (RwState.fullStep cfg journal) anyStep s s') {r : Request}
    (hr : r ∈ s'.processed) :
    ∃ io decision, Drawn FullResult s.progress.gen io ∧ r = Progress.requestOf cfg io decision := by
  have hinit : RwState.FullDrawsFrom cfg s.progress.gen s :=
    ⟨Reach.refl _, fun r hr => absurd (hstart ▸ hr) List.not_mem_nil⟩
  exact (h.invariant hinit fun u _ v hu _ hstep => hu.fullStep hstep).drawn r hr

end FullLoop

/-! ## The I/Os of a worker -/

namespace ProgArgs

variable {a : ProgArgs} {w : FileModeWorker}

/-- The generator for a slice of a file, in sequential or in reverse mode. -/
def seqOffsetGen (a : ProgArgs) (s : Slice) (randAlgo : RandAlgo) : AnyOffsetGen :=
  if a.doReverseSeqOffsets then .reverseSeq (.make s.currentIoLen s.currentIoStart a.blockSize)
  else .sequential (.make s.currentIoLen s.currentIoStart a.blockSizeMix randAlgo)

/-- What the I/O loop reads of the arguments when it works on one file. -/
def fileConfig (a : ProgArgs) (w : FileModeWorker) : WorkerConfig :=
  { a.workerConfig w with numFiles := 1 }

/-- The worker runs an I/O loop with some generator: one loop over all files in random and
in strided mode, otherwise one for each slice of its part, with the random numbers that the
slices before have left. -/
def Loops (a : ProgArgs) (w : FileModeWorker) (cfg : WorkerConfig) (g : AnyOffsetGen) : Prop :=
  if a.useRandomOffsets ∨ a.useStridedAccess then
    cfg = a.workerConfig w ∧ a.randOffsetGen w = .ok g
  else
    cfg = a.fileConfig w ∧ ∃ (hok : a.FileModeOk) (c : ℕ)
      (randAlgo : RandAlgo), (a.seqDataSet hok).Visits w.workerRank c ∧
        g = a.seqOffsetGen ((a.seqDataSet hok).slice
          ((a.seqDataSet hok).endBlock w.workerRank) c) randAlgo

/-- The worker issues an I/O, if all I/Os before it were done in full. -/
def Issues (a : ProgArgs) (w : FileModeWorker) (r : Request) : Prop :=
  ∃ (cfg : WorkerConfig) (journal : ℕ → Journal) (s s' : RwState AnyOffsetGen),
    a.Loops w cfg s.progress.gen ∧ s.processed = [] ∧
      Reach (RwState.fullStep cfg journal) anyStep s s' ∧ r ∈ s'.processed

/-- The loop of a slice. -/
theorem loops_slice (hok : a.FileModeOk) (hmode : ¬ (a.useRandomOffsets ∨ a.useStridedAccess))
    {c : ℕ} (hvisit : (a.seqDataSet hok).Visits w.workerRank c) (randAlgo : RandAlgo) :
    a.Loops w (a.fileConfig w) (a.seqOffsetGen ((a.seqDataSet hok).slice
      ((a.seqDataSet hok).endBlock w.workerRank) c) randAlgo) := by
  unfold Loops
  rw [if_neg hmode]
  exact ⟨rfl, hok, c, randAlgo, hvisit, rfl⟩

/-- The first draw of a loop is issued. -/
theorem Loops.issues_first {cfg : WorkerConfig} {g : AnyOffsetGen} (h : a.Loops w cfg g)
    (journal : ℕ → Journal) (hleft : getNumBytesLeftToSubmit g ≠ 0) (hpos : 0 < (draw g).1.2) :
    a.Issues w (Progress.nextRequest ⟨g, 0⟩ cfg) := by
  let start : RwState AnyOffsetGen := ⟨⟨g, 0⟩, fun _ _ => 0#8, []⟩
  have hsize : 0 < (start.nextRequest cfg).size := hpos
  obtain ⟨cells, hstep⟩ := RwState.fullStep_eq_some journal (decide_eq_true hleft) hsize
  exact ⟨cfg, journal, start, _, h, rfl, (Reach.refl _).tail trivial hstep,
    List.mem_singleton_self _⟩

/-- The range of the run ends in a word, and so do the blocks of all files; or the journal
block size divides `2 ^ 64`, and a block of every thread is a word. -/
structure AlignSafe (a : ProgArgs) : Prop where
  end_lt : a.fileOffset + a.fileSize < Word64.size
  safe : a.journalBlockSize ∣ Word64.size ∧ a.blockSize * a.numDataSetThreads < Word64.size ∨
    a.numAllBlocks * a.blockSize < Word64.size

/-- The arguments are aligned to some number: random offsets are, and the number divides the
sizes of the mix, the offset and the file size. -/
structure AlignedTo (a : ProgArgs) (d : ℕ) : Prop where
  aligned : a.useRandomOffsets → ¬ a.useRandomUnaligned
  dvd_size : ∀ size ∈ a.blockSizeMix.sizes, d ∣ size
  dvd_fileOffset : d ∣ a.fileOffset
  dvd_fileSize : d ∣ a.fileSize

/-- No reduction modulo `2 ^ 64` can lose the divisor. -/
structure SafeFor (a : ProgArgs) (d : ℕ) : Prop where
  end_lt : a.fileOffset + a.fileSize < Word64.size
  safe : d ∣ Word64.size ∧ a.blockSize * a.numDataSetThreads < Word64.size ∨
    a.numAllBlocks * a.blockSize < Word64.size

theorem JournalOk.alignedTo (h : a.JournalOk) : a.AlignedTo a.journalBlockSize :=
  ⟨h.aligned, h.dvd_size, h.dvd_fileOffset, h.dvd_fileSize⟩

theorem AlignSafe.safeFor (h : a.AlignSafe) : a.SafeFor a.journalBlockSize := ⟨h.end_lt, h.safe⟩

section Modes

variable {d : ℕ} (hto : a.AlignedTo d) (hok : a.FileModeOk) (hsafe : a.SafeFor d)

include hto hok in
theorem AlignedTo.dvd_blockSize : d ∣ a.blockSize := by
  rw [a.blockSize_eq (Nat.ne_of_gt hok.blockSize_pos)]
  exact hto.dvd_size _ a.blockSizeMix.getMaxSize_mem

include hok hsafe in
/-- A block of every thread is a word. -/
theorem SafeFor.blockSet_lt (hphase : a.runsIoPhase = true) :
    a.blockSize * a.numDataSetThreads < Word64.size := by
  rcases hsafe.safe with ⟨-, hlt⟩ | hlt
  · exact hlt
  · have hle : a.numDataSetThreads ≤ a.numAllBlocks :=
      (hok.numDataSetThreads_le hphase).trans (Nat.mod_le _ _)
    rw [Nat.mul_comm]
    exact lt_of_le_of_lt (Nat.mul_le_mul_right _ hle) hlt

include hto hok hsafe in
/-- The random amount of a rank is a whole number of blocks. -/
theorem SafeFor.dvd_rankRandomAmount (hphase : a.runsIoPhase = true)
    (hrand : a.useRandomOffsets = true) : d ∣ a.rankRandomAmount := by
  obtain ⟨m, hm⟩ := (hok.amountOk hrand).blockSetSize_dvd (hto.aligned hrand)
  have hset : a.blockSetSize = a.blockSize * a.numDataSetThreads :=
    Word64.mul_eq (hsafe.blockSet_lt hok hphase)
  have hamount : a.rankRandomAmount = a.blockSize * m := by
    rw [rankRandomAmount, hm, hset, Nat.mul_right_comm,
      Nat.mul_div_cancel _ a.numDataSetThreads_pos]
  rw [hamount]
  exact Nat.dvd_mul_right_of_dvd (hto.dvd_blockSize hok) m

include hto hok hsafe in
/-- **Sequential and reverse mode.** -/
theorem SafeFor.seq_aligned (hrank : w.workerRank < a.numDataSetThreads) {c : ℕ}
    (hvisit : (a.seqDataSet hok).Visits w.workerRank c) {randAlgo : RandAlgo} {io : ℕ × ℕ}
    (hio : Drawn FullResult (a.seqOffsetGen ((a.seqDataSet hok).slice
      ((a.seqDataSet hok).endBlock w.workerRank) c) randAlgo) io) :
    AlignedDraw d a.fileSize io := by
  have hblock := hto.dvd_blockSize hok
  have hlt := (a.seqDataSet hok).endBlock_lt w.workerRank
  have hend : (a.seqDataSet hok).endBlock w.workerRank ≤ a.numAllBlocks := by
    rw [SeqDataSet.endBlock_eq hrank]
    exact (border_le _ _ _).trans (Nat.mod_le _ _)
  have hstart := SeqDataSet.currentIoStart_eq (d := a.seqDataSet hok)
    ((a.seqDataSet hok).endBlock w.workerRank) c
  have hlen := SeqDataSet.currentIoLen_eq (d := a.seqDataSet hok) hvisit.2 hlt
  have hfits := SeqDataSet.slice_end_le (d := a.seqDataSet hok) hvisit.2 hlt
  have hstartDvd : d ∣ ((a.seqDataSet hok).slice
      ((a.seqDataSet hok).endBlock w.workerRank) c).currentIoStart := by
    rw [hstart]
    exact Nat.dvd_mul_left_of_dvd hblock _
  have hlenDvd : d ∣ ((a.seqDataSet hok).slice
      ((a.seqDataSet hok).endBlock w.workerRank) c).currentIoLen := by
    rw [hlen]
    refine dvd_min (Word64.dvd_mod (Nat.dvd_mul_left_of_dvd hblock _) ?_)
      (Nat.dvd_sub hto.dvd_fileSize (Nat.dvd_mul_left_of_dvd hblock _))
    refine hsafe.safe.imp And.left fun hall => lt_of_le_of_lt (Nat.mul_le_mul_right _ ?_) hall
    omega
  generalize (a.seqDataSet hok).slice _ c = slice at hio hstartDvd hlenDvd hfits
  have hfits' : slice.currentIoStart + slice.currentIoLen ≤ a.fileSize := hfits
  have hfile := a.fileSize_lt
  unfold seqOffsetGen at hio
  split_ifs at hio with hreverse
  · refine OffsetGenReverseSeq.aligned_of_drawn ?_ hstartDvd hlenDvd hblock hfits'
      (AnyOffsetGen.dispatches_reverseSeq.drawn
        (fun _ _ => AnyOffsetGen.dispatches_reverseSeq.fullResult) hio)
    exact fun hne => ⟨_, OffsetGenReverseSeq.atBlock_make (Nat.pos_of_ne_zero hne)
      hok.blockSize_pos (by omega)⟩
  · exact OffsetGenSequential.Aligned.drawn
      ⟨hfits', hfile, hstartDvd, hlenDvd, hto.dvd_size⟩
      (AnyOffsetGen.dispatches_sequential.drawn
        (fun _ _ => AnyOffsetGen.dispatches_sequential.fullResult) hio)

include hto hok hsafe in
/-- **Strided mode.** -/
theorem SafeFor.strided_aligned (hphase : a.runsIoPhase = true)
    (hstrided : a.useStridedAccess = true) (hrank : w.workerRank < a.numDataSetThreads)
    {g : AnyOffsetGen} (hgen : a.randOffsetGen w = .ok g) {io : ℕ × ℕ}
    (hio : Drawn FullResult g io) :
    AlignedDraw d (a.benchPathsVec.length * a.fileSize) io := by
  have hblock := hto.dvd_blockSize hok
  have hmode := hok.strided hstrided hphase
  obtain ⟨g', fuel, hgen', hall⟩ := hmode.fullDraws_iff (w := w) |>.mpr rfl
  obtain rfl := Except.ok.inj (hgen.symm.trans hgen')
  obtain ⟨j, hj, rfl⟩ := List.mem_map.mp (mem_of_drawn hall hio)
  have hlt := (lt_numBlocks_iff hok.blockSize_pos).mp (List.mem_range.mp hj)
  have hlenDvd : d ∣ a.rangeLen := by
    refine Word64.dvd_mod (Nat.dvd_mul_right_of_dvd hblock _) (hsafe.safe.imp And.left fun hfits => ?_)
    have hfile := lt_of_le_of_lt (fileSizes_le hok) hfits
    have hle := rank_mul_rangeLen_le hfile a.numDataSetThreads_pos
    rw [rangeLen_eq hfile] at hle
    omega
  -- a block of a round is one of the files
  have hin : a.numAllBlocks * a.blockSize < Word64.size →
      (w.workerRank + j * a.numDataSetThreads) * a.blockSize <
        a.benchPathsVec.length * a.fileSize := by
    intro hfits
    have hfile := lt_of_le_of_lt (fileSizes_le hok) hfits
    rw [rangeLen_eq hfile, Nat.mul_comm] at hlt
    have hround : j + 1 ≤ a.numRankBlocks := Nat.lt_of_mul_lt_mul_left hlt
    have hmul := Nat.mul_le_mul_left a.numDataSetThreads hround
    have hle := a.numDataSetThreads_mul_numRankBlocks_le
    rw [← hmode.numWholeBlocks_mul]
    refine Nat.mul_lt_mul_of_pos_right ?_ hok.blockSize_pos
    rw [Nat.mul_succ, Nat.mul_comm] at hmul
    omega
  refine ⟨Word64.dvd_mod (Nat.dvd_mul_left_of_dvd hblock _) ?_,
    dvd_min (Nat.dvd_sub hlenDvd (Nat.dvd_mul_left_of_dvd hblock _)) hblock,
    lt_min (Nat.sub_pos_of_lt hlt) hok.blockSize_pos, ?_⟩
  · exact hsafe.safe.imp And.left fun hfits =>
      (hin hfits).trans (lt_of_le_of_lt (fileSizes_le hok) hfits)
  · exact hsafe.safe.imp And.left fun hfits => lt_of_le_of_lt (Nat.mod_le _ _) (hin hfits)

include hto hok hsafe in
/-- **Aligned random mode.** -/
theorem SafeFor.random_aligned (hphase : a.runsIoPhase = true)
    (hrand : a.useRandomOffsets = true) (hrank : w.workerRank < a.numDataSetThreads)
    {g : AnyOffsetGen} (hgen : a.randOffsetGen w = .ok g) {io : ℕ × ℕ}
    (hio : Drawn FullResult g io) :
    AlignedDraw d (a.benchPathsVec.length * a.fileSize) io := by
  have hblock := hto.dvd_blockSize hok
  have hamount := hsafe.dvd_rankRandomAmount hto hok hphase hrand
  have hamountLt : a.rankRandomAmount < Word64.size :=
    lt_of_le_of_lt (Nat.div_le_self _ _) a.randomAmount_lt
  have haligned := hto.aligned hrand
  have hdraw : a.DrawsRand w io := ⟨g, hgen, hio.weaken fun _ _ h => h.any⟩
  have hsizes : d ∣ io.2 ∧ 0 < io.2 ∧
      (d ∣ Word64.size → d ∣ io.1) := by
    unfold randOffsetGen at hgen
    rw [if_neg (not_useStridedAccess hrand), if_neg haligned] at hgen
    split_ifs at hgen with hchosen
    · obtain ⟨g', hmake, rfl⟩ := Checks.map_eq_ok.mp hgen
      obtain ⟨hsize, hpos, hoff⟩ := OffsetGenRandomAligned.aligned_of_drawn hmake hto.dvd_size
        hamount hamountLt (AnyOffsetGen.dispatches_randomAligned.drawn
          (fun _ _ => AnyOffsetGen.dispatches_randomAligned.fullResult) hio)
      refine ⟨hsize, hpos, fun hword => hoff hword (Word64.dvd_mod ?_ (Or.inl hword))⟩
      exact Nat.dvd_mul_right_of_dvd
        (Word64.dvd_mod (Nat.dvd_mul_left_of_dvd hblock _) (Or.inl hword)) _
    · obtain ⟨g', hmake, rfl⟩ := Checks.map_eq_ok.mp hgen
      exact OffsetGenRandomAlignedFullCoverageV2.aligned_of_drawn hmake hok.blockSize_pos hblock
        hamount hamountLt (AnyOffsetGen.dispatches_fullCoverage.drawn
          (fun _ _ => AnyOffsetGen.dispatches_fullCoverage.fullResult) hio)
  obtain ⟨hsize, hpos, hoff⟩ := hsizes
  rcases hsafe.safe with ⟨hword, -⟩ | hfits
  · exact ⟨hoff hword, hsize, hpos, Or.inl hword⟩
  · have hfile := lt_of_le_of_lt (fileSizes_le hok) hfits
    have hgrid := gridDraw_of_drawsRand hok hfile hrand hrank hdraw
    have hend := (draw_end_le hok hfile ((hok.amountOk hrand).blockSize_le hphase) hrank hgrid).2.2
    obtain ⟨⟨k, -, hk⟩, -, -⟩ := hgrid
    refine ⟨?_, hsize, hpos, Or.inr (by omega)⟩
    have hgridDvd : d ∣ a.alignGrid := by
      rw [alignGrid, if_neg haligned]
      exact hto.dvd_size _ a.blockSizeMix.getMinSize_mem
    rw [hk, rangeLen_eq hfile]
    exact Nat.dvd_add (Nat.dvd_mul_left_of_dvd (Nat.dvd_mul_right_of_dvd hblock _) _)
      (Nat.dvd_mul_left_of_dvd hgridDvd _)

include hto hok hsafe in
/-- **Every I/O for a draw of a worker's generator is aligned**, and there is something to
read or write. -/
theorem SafeFor.loops_aligned (hrank : w.workerRank < a.numDataSetThreads)
    (hphase : a.runsIoPhase = true) {cfg : WorkerConfig} {g : AnyOffsetGen}
    (hloop : a.Loops w cfg g) {io : ℕ × ℕ} (hio : Drawn FullResult g io) (decision : Decision) :
    d ∣ (Progress.requestOf cfg io decision).offset ∧
      d ∣ (Progress.requestOf cfg io decision).size ∧
      0 < (Progress.requestOf cfg io decision).size := by
  unfold Loops at hloop
  split_ifs at hloop with hmode
  · obtain ⟨rfl, hgen⟩ := hloop
    have hdraw : AlignedDraw d (a.benchPathsVec.length * a.fileSize) io := by
      rcases hmode with hrand | hstrided
      · exact hsafe.random_aligned hto hok hphase hrand hrank hgen hio
      · exact hsafe.strided_aligned hto hok hphase hstrided hrank hgen hio
    refine ⟨hdraw.dvd_address hto.dvd_fileSize hto.dvd_fileOffset hok.fileSize_pos
      hsafe.end_lt fun hone => ?_, hdraw.dvd_size, hdraw.size_pos⟩
    rw [show a.benchPathsVec.length = 1 from hone, Nat.one_mul]
    exact le_rfl
  · obtain ⟨rfl, hok', c, randAlgo, hvisit, hgen⟩ := hloop
    rw [hgen] at hio
    have hdraw := hsafe.seq_aligned hto hok hrank hvisit hio
    have haddress : d ∣ (calcFileIdxAndOffsetStriped (a.fileConfig w) io.1).2 :=
      hdraw.dvd_address hto.dvd_fileSize hto.dvd_fileOffset hok.fileSize_pos
        hsafe.end_lt fun _ => le_rfl
    exact ⟨haddress, hdraw.dvd_size, hdraw.size_pos⟩

include hto hok hsafe in
/-- **Every I/O of a worker is aligned.** -/
theorem SafeFor.issues_aligned (hrank : w.workerRank < a.numDataSetThreads)
    (hphase : a.runsIoPhase = true) {r : Request} (h : a.Issues w r) :
    d ∣ r.offset ∧ d ∣ r.size ∧ 0 < r.size := by
  obtain ⟨cfg, journal, s, s', hloop, hstart, hreach, hr⟩ := h
  obtain ⟨io, decision, hio, rfl⟩ := fullDrawn_of_mem_processed hstart hreach hr
  exact hsafe.loops_aligned hto hok hrank hphase hloop hio decision

end Modes

end ProgArgs

/-! ## The blocks of the journal -/

/-- The range of a run is a whole number of blocks of the journal. -/
def CoversRange (j : Journal) (runOffset fileSize : ℕ) : Prop :=
  ∃ b n, j.blockOffset b = runOffset ∧ n * j.journalBlockSize = fileSize ∧
    b + n ≤ j.numJournalBlocks

/-- What `JournalStore::init` reads. -/
def ProgArgs.journalRun (a : ProgArgs) : JournalRun where
  journalDirStr := a.journalDirStr
  benchPaths := a.benchPathsVec
  journalBlockSize := a.journalBlockSize
  fileOffset := a.fileOffset
  fileSize := a.fileSize
  journalBlockSize_lt := a.journalBlockSize_lt
  fileOffset_lt := a.fileOffset_lt
  fileSize_lt := a.fileSize_lt

/-- The sidecar files were written by accepted runs. -/
def JournalDir.FromRuns (dir : JournalDir) : Prop :=
  ∀ sidecars, dir.scanSidecars = .ok sidecars → ∀ sidecar ∈ sidecars, ∃ a a' : ProgArgs,
    a.checkPathDependentArgs = .ok a' ∧ a'.journalDirStr ≠ "" ∧
      sidecar.journalBlockSize = a'.journalBlockSize ∧
      sidecar.targetOffset = a'.fileOffset ∧ sidecar.targetSize = a'.fileSize

/-- The range of a journal of accepted runs is aligned. -/
theorem JournalDir.FromRuns.dvd_target {dir : JournalDir} (hruns : dir.FromRuns) {a : ProgArgs}
    (hjournal : a.JournalOk) {journals : List Journal} (hinit : dir.init a.journalRun = .ok journals)
    {j : Journal} (hj : j ∈ journals) :
    j.journalBlockSize ∣ j.targetOffset ∧ j.journalBlockSize ∣ j.targetSize := by
  have hsize := (JournalDir.opened_of_init hinit hj).journalBlockSize_eq
  rcases JournalDir.target_of_init hinit hj with
    ⟨hoffset, htotal⟩ | ⟨sidecars, hscan, sidecar, hmem, hjbs, hoffset, htotal⟩
  · rw [hsize, hoffset, htotal]
    exact ⟨hjournal.dvd_fileOffset, hjournal.dvd_fileSize⟩
  · obtain ⟨a0, a0', hcheck, hdir, hjbs0, hoffset0, htotal0⟩ := hruns sidecars hscan sidecar hmem
    have hjournal0 := (ProgArgs.checkPathDependentArgs_spec hcheck).2 hdir
    rw [hjbs, hoffset, htotal, hjbs0, hoffset0, htotal0]
    exact ⟨hjournal0.dvd_fileOffset, hjournal0.dvd_fileSize⟩

/-- **An opened journal covers whole blocks** of an aligned range that ends in a word. -/
theorem Opened.coversRange {run : JournalRun} {j : Journal} (h : Opened run j)
    (htarget : j.journalBlockSize ∣ j.targetOffset ∧ j.journalBlockSize ∣ j.targetSize)
    (hoffset : j.journalBlockSize ∣ run.fileOffset) (hsize : j.journalBlockSize ∣ run.fileSize)
    (hend : run.fileOffset + run.fileSize < Word64.size) :
    CoversRange j run.fileOffset run.fileSize := by
  have hpos := j.journalBlockSize_pos
  have hle := h.targetOffset_le
  have hends := h.end_le
  rw [Word64.add_eq hend] at hends
  have hends' : run.fileOffset + run.fileSize ≤ j.targetOffset + j.targetSize :=
    hends.trans (Nat.mod_le _ _)
  obtain ⟨b, hb⟩ := Nat.dvd_sub hoffset htarget.1
  obtain ⟨n, hn⟩ := hsize
  obtain ⟨m, hm⟩ := htarget.2
  rw [Nat.mul_comm] at hb hn hm
  refine ⟨b, n, ?_, hn.symm, ?_⟩
  · rw [Journal.blockOffset, ← hb]
    omega
  · rw [(Journal.numJournalBlocks_eq h.mapLength_ne).2, hm, numBlocks_mul hpos]
    refine Nat.le_of_mul_le_mul_right ?_ hpos
    rw [Nat.add_mul, ← hb, ← hn, ← hm]
    omega

/-! ## Main statement -/

/-- Three files of `3 * 2 ^ 61` bytes, written backwards by one thread in blocks of 3 MiB,
which are also the journal blocks. -/
def threeLargeFiles : ProgArgs :=
  { randomArgs ["/a", "/b", "/c"] 1 (3 * 2 ^ 61) 0 (.single (3 * 2 ^ 20) (by decide) (by decide))
      (by decide) oneThread (by decide) Word64.size_pos with
    useRandomOffsets := false
    doReverseSeqOffsets := true
    journalDirStr := "/journal"
    ignoreDelErrors := true
    journalBlockSize := 3 * 2 ^ 20
    journalBlockSize_lt := by decide
    onePattern := twoFilesArgs.onePattern
    noMix := fun _ => rfl }

theorem threeLargeFiles_check : threeLargeFiles.checkPathDependentArgs = .ok threeLargeFiles := rfl

theorem threeLargeFiles_ok : threeLargeFiles.FileModeOk :=
  (ProgArgs.checkPathDependentArgs_spec threeLargeFiles_check).1 (by decide)

/-- The journal of one of the files. -/
def largeFileJournal : Journal where
  journalBlockSize := 3 * 2 ^ 20
  targetOffset := 0
  targetSize := 3 * 2 ^ 61
  journalSeed := 0#64
  journalBlockSize_pos := by decide
  journalBlockSize_lt := by decide
  targetOffset_lt := Word64.size_pos
  targetSize_lt := by decide

/-- The same with one file of a journal block and a half. -/
def oneSmallFile : ProgArgs :=
  { threeLargeFiles with
    benchPathsVec := ["/a"]
    fileSize := 9 * 2 ^ 19
    fileSize_lt := by decide
    benchPathsVec_pos := oneBlockArgs.benchPathsVec_pos }

end Elbencho
