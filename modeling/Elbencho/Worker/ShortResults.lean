import Elbencho.Library.Transition
import Elbencho.OffsetGen.FullRuns
import Elbencho.Worker.RwBlockSized

/-!
# Short results of the synchronous loop

A positive result below the requested size is a short I/O.  `rwBlockSized` takes it for
success and reports the result to the offset generator.  A sequential generator advances
by the result, so the next I/O continues behind the bytes that were transferred.  The
reverse and the strided generator advance by a whole block, whatever the result was: the
rest of the block is never transferred, and since its bytes are still counted as left, the
loop goes on with a block that is not of the range.

`TransferRun` is the loop with a record of its I/Os, and `Safe` is what the loop owes its
range.  `safe_of_shortResults` shows it for the sequential generator with any positive
results and for the other two with full ones, in every state of every run;
`shortResult_leaves_range` are two runs with a short result.
-/

namespace Elbencho

open Transition OffsetGenerator Blocks

/-- An I/O with its result: what the offset generator asked for and how many bytes were
transferred. -/
structure Transfer where
  offset : ℕ
  size : ℕ
  numBytes : ℕ
  deriving DecidableEq

namespace Transfer

/-- The bytes that were asked for. -/
def requested (t : Transfer) : ℕ × ℕ := (t.offset, t.size)

/-- The bytes that were transferred. -/
def done (t : Transfer) : ℕ × ℕ := (t.offset, t.numBytes)

end Transfer

/-- The state of the loop and the I/Os it has issued. -/
structure TransferRun (G : Type*) where
  loop : RwState G
  transfers : List Transfer

namespace TransferRun

variable {G : Type*} [OffsetGenerator G]

section Steps

variable (cfg : WorkerConfig) (journal : ℕ → Journal)

/-- The offset generator. -/
def gen (s : TransferRun G) : G := s.loop.progress.gen

/-- The journal skips the next I/O. -/
def Skips (s : TransferRun G) : Prop :=
  cfg.journalEnabled = true ∧ (s.loop.journalBegin cfg journal).action = .skip

instance (s : TransferRun G) : Decidable (s.Skips cfg journal) := by
  unfold Skips
  infer_instance

/-- The next I/O with its result. -/
def nextTransfer (s : TransferRun G) (rwRes : ℕ) : Transfer :=
  ⟨(draw s.gen).1.1, (draw s.gen).1.2, rwRes⟩

/-- One pass of the loop with a positive result of at most the requested size. -/
def issue (s : TransferRun G) (rwRes : ℕ) : Option (TransferRun G) :=
  if 0 < rwRes ∧ rwRes ≤ (draw s.gen).1.2 then
    match s.loop.rwIteration cfg journal ⟨rwRes, none⟩ with
    | .next loop =>
      some ⟨loop, if s.Skips cfg journal then s.transfers
        else s.transfers ++ [s.nextTransfer rwRes]⟩
    | _ => none
  else none

/-- The next I/O is not skipped. -/
def Issued (s : TransferRun G) (_ : ℕ) : Prop := ¬ s.Skips cfg journal

/-- The next I/O is not skipped, and it is done in full. -/
def IssuedInFull (s : TransferRun G) (rwRes : ℕ) : Prop :=
  ¬ s.Skips cfg journal ∧ rwRes = (draw s.gen).1.2

variable {cfg journal} {s s' : TransferRun G} {rwRes : ℕ}

/-- **What a pass with an I/O does.** -/
theorem issue_cases (h : s.issue cfg journal rwRes = some s') (hio : ¬ s.Skips cfg journal) :
    getNumBytesLeftToSubmit s.gen ≠ 0 ∧ 0 < rwRes ∧ rwRes ≤ (draw s.gen).1.2 ∧
      s'.gen = addBytesSubmitted (draw s.gen).2 rwRes ∧
      s'.transfers = s.transfers ++ [s.nextTransfer rwRes] := by
  unfold issue at h
  split_ifs at h with hres
  have hpos : ¬ ((rwRes : ℤ) ≤ 0) := by omega
  have hfinish : ∀ begun committed, s.loop.finishIteration cfg begun committed ⟨rwRes, none⟩ =
      .next ((s.loop.setCells (s.loop.nextRequest cfg).fileIdx committed).account cfg rwRes) := by
    intro begun committed
    unfold RwState.finishIteration
    rw [if_neg hpos]
    rfl
  by_cases hleft : s.loop.progress.bytesLeft = true
  · have hnext : ∃ committed, s.loop.rwIteration cfg journal ⟨rwRes, none⟩ =
        .next ((s.loop.setCells (s.loop.nextRequest cfg).fileIdx committed).account cfg rwRes) := by
      unfold RwState.rwIteration
      rw [if_pos hleft]
      dsimp only
      split_ifs with hjournal hskip
      · exact absurd ⟨hjournal, hskip⟩ hio
      · exact ⟨_, hfinish _ _⟩
      · exact ⟨_, hfinish _ _⟩
    obtain ⟨committed, hnext⟩ := hnext
    rw [hnext] at h
    obtain rfl := Option.some.inj h
    exact ⟨of_decide_eq_true hleft, hres.1, hres.2, rfl, rfl⟩
  · rw [RwState.rwIteration_of_done journal (Bool.eq_false_iff.mpr hleft)] at h
    cases h

end Steps

/-- The loop owes the blocks of its range: every I/O lies in one of them, and when no
bytes are left, every byte of them was transferred. -/
structure Safe (blocks : List (ℕ × ℕ)) (s : TransferRun G) : Prop where
  inside : ∀ t ∈ s.transfers, ∃ b ∈ blocks, b.1 ≤ t.offset ∧ t.offset + t.size ≤ b.1 + b.2
  covers : getNumBytesLeftToSubmit s.gen = 0 → ∀ b ∈ blocks, ∀ x, coversByte x b →
    ∃ t ∈ s.transfers, coversByte x t.done

/-- The run before its first I/O. -/
structure Starts (g : G) (s : TransferRun G) : Prop where
  gen_eq : s.gen = g
  transfers_eq : s.transfers = []

variable {cfg : WorkerConfig} {journal : ℕ → Journal}

/-! ## Full results -/

/-- How far a run with full results is in the draws of its generator. -/
structure InDraws (ios : List (ℕ × ℕ)) (s : TransferRun G) : Prop where
  in_full : ∀ t ∈ s.transfers, t.numBytes = t.size
  rest : ∃ fuel rest, drawAll fuel s.gen = some rest ∧
    s.transfers.map Transfer.requested ++ rest = ios

/-- A full I/O is the next one of the draws. -/
theorem InDraws.issue {ios : List (ℕ × ℕ)} {s s' : TransferRun G} {rwRes : ℕ}
    (h : s.InDraws ios) (hok : s.IssuedInFull cfg journal rwRes)
    (hstep : s.issue cfg journal rwRes = some s') : s'.InDraws ios := by
  obtain ⟨hio, rfl⟩ := hok
  obtain ⟨hleft, -, -, hgen, htransfers⟩ := issue_cases hstep hio
  obtain ⟨fuel, rest, hrun, hios⟩ := h.rest
  obtain ⟨fuel', rest', hrun', rfl⟩ := exists_of_drawAll hleft hrun
  refine ⟨fun t ht => ?_, fuel', rest', ?_, ?_⟩
  · rw [htransfers] at ht
    rcases List.mem_append.mp ht with hmem | hmem
    · exact h.in_full t hmem
    · rw [List.mem_singleton.mp hmem]
      rfl
  · rw [hgen]
    exact hrun'
  · rw [htransfers, List.map_append, List.append_assoc]
    exact hios

/-- **A run with full results follows the draws of its generator**, and when no bytes are
left it has issued all of them. -/
theorem inDraws_of_reach {g : G} {fuel : ℕ} {ios : List (ℕ × ℕ)} (hrun : drawAll fuel g = some ios)
    {s₀ s : TransferRun G} (hstart : s₀.Starts g)
    (h : Reach (issue cfg journal) (IssuedInFull cfg journal) s₀ s) : s.InDraws ios := by
  refine h.invariant ⟨fun t ht => ?_, fuel, ios, ?_, ?_⟩ fun u rwRes v hu hok hstep =>
    hu.issue hok hstep
  · rw [hstart.transfers_eq] at ht
    exact absurd ht List.not_mem_nil
  · rw [hstart.gen_eq]
    exact hrun
  · rw [hstart.transfers_eq]
    rfl

/-- The I/Os that were issued are draws. -/
theorem InDraws.requested_mem {ios : List (ℕ × ℕ)} {s : TransferRun G} (h : s.InDraws ios)
    {t : Transfer} (ht : t ∈ s.transfers) : t.requested ∈ ios := by
  obtain ⟨-, rest, -, rfl⟩ := h.rest
  exact List.mem_append_left _ (List.mem_map_of_mem ht)

/-- When no bytes are left, the bytes of every draw were transferred. -/
theorem InDraws.exists_done {ios : List (ℕ × ℕ)} {s : TransferRun G} (h : s.InDraws ios)
    (hleft : getNumBytesLeftToSubmit s.gen = 0) {io : ℕ × ℕ} (hio : io ∈ ios) :
    ∃ t ∈ s.transfers, t.done = io := by
  obtain ⟨fuel, rest, hrun, rfl⟩ := h.rest
  obtain rfl := drawAll_unique hrun (drawAll_of_done hleft)
  rw [List.append_nil] at hio
  obtain ⟨t, ht, rfl⟩ := List.mem_map.mp hio
  exact ⟨t, ht, Prod.ext rfl (h.in_full t ht)⟩

/-- A run with full results whose draws tile the range, in whatever order. -/
theorem InDraws.safe_of_tiles {ios tiling : List (ℕ × ℕ)} {s : TransferRun G} {offset len : ℕ}
    (h : s.InDraws ios) (hmem : ∀ io, io ∈ ios ↔ io ∈ tiling)
    (htiles : Tiles offset tiling (offset + len)) : s.Safe [(offset, len)] := by
  refine ⟨fun t ht => ⟨_, List.mem_singleton_self _, ?_⟩, fun hleft b hb x hx => ?_⟩
  · exact htiles.inside ((hmem _).mp (h.requested_mem ht))
  · rw [List.mem_singleton.mp hb] at hx
    have hrange := of_decide_eq_true hx
    obtain ⟨io, hio, hcovers⟩ := htiles.exists_coversByte hrange.1 hrange.2
    obtain ⟨t, ht, rfl⟩ := h.exists_done hleft ((hmem _).mpr hio)
    exact ⟨t, ht, hcovers⟩

/-- A run with full results whose draws are the blocks of the range. -/
theorem InDraws.safe_of_blocks {blocks : List (ℕ × ℕ)} {s : TransferRun G}
    (h : s.InDraws blocks) : s.Safe blocks := by
  refine ⟨fun t ht => ⟨_, h.requested_mem ht, Nat.le_refl _, Nat.le_refl _⟩,
    fun hleft b hb x hx => ?_⟩
  obtain ⟨t, ht, rfl⟩ := h.exists_done hleft hb
  exact ⟨t, ht, hx⟩

/-! ## Short results of a sequential run -/

/-- How far a sequential run is: the bytes that were transferred are those before the
current offset. -/
structure InRange (offset len : ℕ) (s : TransferRun OffsetGenSequential) : Prop where
  left_eq : s.gen.currentOffset + s.gen.numBytesLeft = offset + len
  tiles : Tiles offset (s.transfers.map Transfer.done) s.gen.currentOffset
  inside : ∀ t ∈ s.transfers, offset ≤ t.offset ∧ t.offset + t.size ≤ offset + len

/-- **A sequential I/O of any positive result** moves the current offset to the end of what
was transferred. -/
theorem InRange.issue {offset len : ℕ} (hfits : offset + len < Word64.size)
    {s s' : TransferRun OffsetGenSequential} {rwRes : ℕ} (h : s.InRange offset len)
    (hio : s.Issued cfg journal rwRes) (hstep : s.issue cfg journal rwRes = some s') :
    s'.InRange offset len := by
  obtain ⟨hleft, hpos, hle, hgen, htransfers⟩ := issue_cases hstep hio
  have hstart := h.tiles.le
  have hend := h.left_eq
  have hsize : (draw s.gen).1.2 ≤ s.gen.numBytesLeft := min_le_left _ _
  have hleft' : s'.gen.numBytesLeft = s.gen.numBytesLeft - rwRes := by
    rw [hgen]
    exact Word64.sub_eq (show rwRes ≤ s.gen.numBytesLeft by omega)
      (show s.gen.numBytesLeft < Word64.size by omega)
  have hoffset' : s'.gen.currentOffset = s.gen.currentOffset + rwRes := by
    rw [hgen]
    exact Word64.add_eq (show s.gen.currentOffset + rwRes < Word64.size by omega)
  refine ⟨by omega, ?_, fun t ht => ?_⟩
  · rw [htransfers, List.map_append, hoffset']
    exact h.tiles.concat hpos
  · rw [htransfers] at ht
    rcases List.mem_append.mp ht with hmem | hmem
    · exact h.inside t hmem
    · rw [List.mem_singleton.mp hmem]
      show offset ≤ s.gen.currentOffset ∧ s.gen.currentOffset + (draw s.gen).1.2 ≤ offset + len
      omega

/-- The end of a sequential run. -/
theorem InRange.safe {offset len : ℕ} {s : TransferRun OffsetGenSequential}
    (h : s.InRange offset len) : s.Safe [(offset, len)] := by
  refine ⟨fun t ht => ⟨_, List.mem_singleton_self _, h.inside t ht⟩, fun hleft b hb x hx => ?_⟩
  have hdone : s.gen.numBytesLeft = 0 := hleft
  have hend : s.gen.currentOffset = offset + len := by
    rw [← h.left_eq, hdone, Nat.add_zero]
  rw [List.mem_singleton.mp hb] at hx
  have hrange := of_decide_eq_true hx
  obtain ⟨io, hio, hcovers⟩ := h.tiles.exists_coversByte hrange.1 (hend ▸ hrange.2)
  obtain ⟨t, ht, rfl⟩ := List.mem_map.mp hio
  exact ⟨t, ht, hcovers⟩

end TransferRun

/-! ## All three generators -/

/-- The blocks of a rank in strided mode: every `numDataSetThreads`-th one, with a short
one at the end. -/
def OffsetGenStrided.blocks (len offset blockSize numDataSetThreads : ℕ) : List (ℕ × ℕ) :=
  (List.range (numBlocks len blockSize)).map fun j =>
    ((offset + j * (blockSize * numDataSetThreads)) % Word64.size,
      min (len - j * blockSize) blockSize)

open TransferRun in
/-- **The loop keeps to its range and transfers all of it** if every I/O is done in full
or the generator is the sequential one. -/
theorem safe_of_shortResults (cfg : WorkerConfig) (journal : ℕ → Journal) (len offset : ℕ)
    (hfits : offset + len < Word64.size) :
    (∀ (mix : BlockSizeMix) (randAlgo : RandAlgo) (s₀ s : TransferRun OffsetGenSequential),
      s₀.Starts (.make len offset mix randAlgo) →
      Reach (issue cfg journal) (Issued cfg journal) s₀ s → s.Safe [(offset, len)]) ∧
    (∀ (blockSize : ℕ) (s₀ s : TransferRun OffsetGenReverseSeq), 0 < blockSize →
      s₀.Starts (.make len offset blockSize) →
      Reach (issue cfg journal) (IssuedInFull cfg journal) s₀ s → s.Safe [(offset, len)]) ∧
    ∀ (blockSize numDataSetThreads : ℕ) (s₀ s : TransferRun OffsetGenStrided), 0 < blockSize →
      s₀.Starts (.make len offset blockSize numDataSetThreads) →
      Reach (issue cfg journal) (IssuedInFull cfg journal) s₀ s →
      s.Safe (OffsetGenStrided.blocks len offset blockSize numDataSetThreads) := by
  refine ⟨fun mix randAlgo s₀ s hstart h => ?_, fun blockSize s₀ s hbs hstart h => ?_,
    fun blockSize numDataSetThreads s₀ s hbs hstart h => ?_⟩
  · have hinit : s₀.InRange offset len := by
      refine ⟨by rw [hstart.gen_eq]; rfl, ?_, fun t ht => ?_⟩
      · rw [hstart.gen_eq, hstart.transfers_eq]
        rfl
      · rw [hstart.transfers_eq] at ht
        exact absurd ht List.not_mem_nil
    exact (h.invariant hinit fun u rwRes v hu hok hstep => hu.issue hfits hok hstep).safe
  · obtain ⟨fuel, ios, hrun, htiles⟩ := OffsetGenReverseSeq.exists_tiles hbs hfits
    exact (inDraws_of_reach hrun hstart h).safe_of_tiles (fun io => List.mem_reverse.symm) htiles
  · obtain ⟨fuel, hrun⟩ :=
      (OffsetGenStrided.make len offset blockSize numDataSetThreads).exists_drawAll hbs
        (show len < Word64.size by omega) (show offset < Word64.size by omega)
    exact (inDraws_of_reach hrun hstart h).safe_of_blocks

/-! ## Examples of short results -/

/-- A worker that writes one file, without a journal. -/
def plainWriter : WorkerConfig := { twoBlockWriter with journalEnabled := false }

/-- Blocks of two bytes. -/
def twoByteBlocks : BlockSizeMix := .single 2 Nat.two_pos Word64.two_lt_size

namespace TransferRun

/-- The start of a run. -/
def start {G : Type*} (g : G) : TransferRun G := ⟨⟨⟨g, 0⟩, fun _ _ => 0#8, []⟩, []⟩

/-- An explicit run of the plain writer. -/
theorem reach_plainWriter {G : Type*} [OffsetGenerator G] (results : List ℕ)
    {s t : TransferRun G}
    (h : runTrace (issue plainWriter fun _ => twoBlockJournal) s results = some t) :
    Reach (issue plainWriter fun _ => twoBlockJournal)
      (Issued plainWriter fun _ => twoBlockJournal) s t := by
  refine (reach_of_runTrace _ results (fun _ _ => trivial) h).weaken fun u rwRes _ => ?_
  exact fun hskip => absurd hskip.1 (by decide)

end TransferRun

open TransferRun in
/-- Four bytes in blocks of two, with a short result in the middle. -/
theorem safe_of_shortResults_fourBytes :
    ∃ s, Reach (issue plainWriter fun _ => twoBlockJournal)
        (Issued plainWriter fun _ => twoBlockJournal)
        (start (OffsetGenSequential.make 4 0 twoByteBlocks fun _ => 0#64)) s ∧
      s.transfers = [⟨0, 2, 2⟩, ⟨2, 2, 1⟩, ⟨3, 1, 1⟩] ∧ s.Safe [(0, 4)] := by
  refine ⟨_, reach_plainWriter [2, 1, 1] rfl, rfl, ?_⟩
  exact (safe_of_shortResults plainWriter (fun _ => twoBlockJournal) 4 0 (by decide)).1
    twoByteBlocks (fun _ => 0#64) (start _) _ ⟨rfl, rfl⟩ (reach_plainWriter [2, 1, 1] rfl)

open TransferRun in
/-- **A short result leads out of the range.**  The reverse generator with a range of four
bytes in blocks of two: the first I/O transfers one byte, and after the second one a byte is
left, so there is a third one, which begins two bytes before the file.  The strided generator
of one of two threads, with the blocks at 0 and 4: the last I/O is one of the block at 8. -/
theorem shortResult_leaves_range :
    (∃ s, Reach (issue plainWriter fun _ => twoBlockJournal) anyStep
        (start (OffsetGenReverseSeq.make 4 0 2)) s ∧
      s.transfers = [⟨2, 2, 1⟩, ⟨0, 2, 2⟩, ⟨Word64.size - 2, 2, 1⟩] ∧
      getNumBytesLeftToSubmit s.gen = 0 ∧ ¬ s.Safe [(0, 4)]) ∧
    ∃ s, Reach (issue plainWriter fun _ => twoBlockJournal) anyStep
        (start (OffsetGenStrided.make 4 0 2 2)) s ∧
      s.transfers = [⟨0, 2, 1⟩, ⟨4, 2, 2⟩, ⟨8, 1, 1⟩] ∧
      getNumBytesLeftToSubmit s.gen = 0 ∧ ¬ s.Safe (OffsetGenStrided.blocks 4 0 2 2) := by
  refine ⟨⟨_, (reach_plainWriter [1, 2, 1] rfl).weaken fun _ _ _ => trivial, by decide +kernel,
      rfl, ?_⟩,
    ⟨_, (reach_plainWriter [1, 2, 1] rfl).weaken fun _ _ _ => trivial, rfl, rfl, ?_⟩⟩
  · intro hsafe
    obtain ⟨b, hb, -, hend⟩ := hsafe.inside ⟨Word64.size - 2, 2, 1⟩ (by decide +kernel)
    rw [List.mem_singleton.mp hb] at hend
    exact absurd hend (by decide)
  · intro hsafe
    obtain ⟨b, hb, hstart, hend⟩ := hsafe.inside ⟨8, 1, 1⟩ (by decide)
    have hblocks : ∀ b ∈ OffsetGenStrided.blocks 4 0 2 2, b.1 + b.2 ≤ 6 := by decide
    have hle := hblocks b hb
    have hnine : 8 + 1 ≤ b.1 + b.2 := hend
    omega

end Elbencho
