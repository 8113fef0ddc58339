import Mathlib.Data.List.Sort
import Elbencho.OffsetGen.Dispatch

/-!
# Multipart uploads by one worker

A worker uploads an object that is larger than a block in parts.  It asks the offset generator for
offset and size of each part, uploads the part under a part number, and at the end sends the list
of the parts, from which the server assembles the object in the order of the part numbers.

Forward, the parts are numbered one after the other, and their sizes may vary: by a block size mix,
and by a random amount that is subtracted from blocks of the largest size.  Backward, the number
is computed from the offset, and the list is reversed at the end.  Random offsets fall back to the
backward order.  With an I/O depth above one, the parts of a batch are uploaded at the same time,
and they finish in any order.

**`s3ModeUploadObjectMultiPart_assembles`**: the parts are in ascending order in the list, and put
together in this order they are the object.  Both loops go through the same states, and in each of
them the parts so far are consecutive: from the first byte on, or up to the last one.
-/

namespace Elbencho

open OffsetGenerator

/-! ## Parts -/

/-- A part of an object: its number, and the range of bytes that is uploaded under it. -/
structure Part where
  partNum : ℕ
  currentOffset : ℕ
  blockSize : ℕ
  deriving DecidableEq, Repr

/-- The byte positions of a part. -/
def Part.positions (p : Part) : List ℕ := List.range' p.currentOffset p.blockSize

/-- The order of the part numbers. -/
def Part.le (p q : Part) : Bool := p.partNum ≤ q.partNum

/-- The bytes in parts. -/
def totalSize (parts : List Part) : ℕ := (parts.map Part.blockSize).sum

@[simp] theorem totalSize_nil : totalSize [] = 0 := rfl

@[simp] theorem totalSize_cons (p : Part) (parts : List Part) :
    totalSize (p :: parts) = p.blockSize + totalSize parts := by
  simp [totalSize]

@[simp] theorem totalSize_reverse (parts : List Part) :
    totalSize parts.reverse = totalSize parts := by
  simp [totalSize]

@[simp] theorem totalSize_append (parts parts' : List Part) :
    totalSize (parts ++ parts') = totalSize parts + totalSize parts' := by
  simp [totalSize]

/-- Parts that follow one another, from a part number and an offset on. -/
def Consecutive : ℕ → ℕ → List Part → Prop
  | _, _, [] => True
  | n, a, p :: parts =>
    p.partNum = n ∧ p.currentOffset = a ∧ 0 < p.blockSize ∧
      Consecutive (n + 1) (a + p.blockSize) parts

namespace Consecutive

theorem append {parts : List Part} {p : Part} {n a : ℕ} (h : Consecutive n a parts)
    (hnum : p.partNum = n + parts.length) (hoffset : p.currentOffset = a + totalSize parts)
    (hpos : 0 < p.blockSize) : Consecutive n a (parts ++ [p]) := by
  induction parts generalizing n a with
  | nil => exact ⟨hnum, hoffset, hpos, trivial⟩
  | cons q parts ih =>
    obtain ⟨hq, ha, hqpos, hrest⟩ := h
    refine ⟨hq, ha, hqpos, ih hrest ?_ ?_⟩
    · rw [hnum, List.length_cons]
      omega
    · rw [hoffset, totalSize_cons]
      omega

theorem length_le {parts : List Part} {n a : ℕ} (h : Consecutive n a parts) :
    parts.length ≤ totalSize parts := by
  induction parts generalizing n a with
  | nil => exact le_refl 0
  | cons p parts ih =>
    have hrest := ih h.2.2.2
    have hpos := h.2.2.1
    rw [List.length_cons, totalSize_cons]
    omega

theorem le_partNum {parts : List Part} {n a : ℕ} (h : Consecutive n a parts) :
    ∀ p ∈ parts, n ≤ p.partNum := by
  induction parts generalizing n a with
  | nil => simp
  | cons q parts ih =>
    intro p hp
    rcases List.mem_cons.mp hp with rfl | hp
    · exact h.1.ge
    · exact (Nat.le_succ n).trans (ih h.2.2.2 p hp)

/-- The part numbers are ascending. -/
theorem pairwise {parts : List Part} {n a : ℕ} (h : Consecutive n a parts) :
    parts.Pairwise fun p q => p.partNum < q.partNum := by
  induction parts generalizing n a with
  | nil => exact List.Pairwise.nil
  | cons p parts ih =>
    refine List.pairwise_cons.mpr ⟨?_, ih h.2.2.2⟩
    intro q hq
    have hle := le_partNum h.2.2.2 q hq
    rw [h.1]
    omega

theorem eq_of_partNum_eq {parts : List Part} {n a : ℕ} (h : Consecutive n a parts) {p q : Part}
    (hp : p ∈ parts) (hq : q ∈ parts) (heq : p.partNum = q.partNum) : p = q := by
  have hnodup : (parts.map Part.partNum).Nodup :=
    List.pairwise_map.mpr (h.pairwise.imp fun hlt => hlt.ne)
  exact List.inj_on_of_nodup_map hnodup hp hq heq

/-- Together the parts are one range of bytes. -/
theorem positions {parts : List Part} {n a : ℕ} (h : Consecutive n a parts) :
    parts.flatMap Part.positions = List.range' a (totalSize parts) := by
  induction parts generalizing n a with
  | nil => rfl
  | cons p parts ih =>
    have hrest := ih h.2.2.2
    rw [List.flatMap_cons, hrest, Part.positions, h.2.1, totalSize_cons]
    simp

end Consecutive

/-! ## The model -/

/-- `getBlockSize`. -/
def AnyOffsetGen.getBlockSize : AnyOffsetGen → ℕ
  | sequential g => g.blockSizeMix.getMaxSize
  | reverseSeq g => g.blockSize
  | random g => g.blockSizeMix.getMaxSize
  | randomAligned g => g.blockSizeMix.getMaxSize
  | fullCoverage g => g.blockSize
  | strided g => g.blockSize

/-- Draw the next size and then the next offset. -/
def drawSizeFirst {G : Type*} [OffsetGenerator G] (g : G) : (ℕ × ℕ) × G :=
  let (blockSize, g) := getNextBlockSizeToSubmit g
  let (currentOffset, g) := getNextOffset g
  ((currentOffset, blockSize), g)

/-- The settings of an upload. -/
structure S3WriteArgs where
  blockSizeMix : BlockSizeMix
  doReverseSeqOffsets : Bool
  useRandomOffsets : Bool
  s3MpuSizeVariance : ℕ
  ioDepth : ℕ
  s3NoMpuCompletion : Bool
  /-- A mix of sizes and a size variance are for the forward order only. -/
  single_of_backward : (doReverseSeqOffsets || useRandomOffsets) = true → blockSizeMix.isMix = false
  variance_of_backward : (doReverseSeqOffsets || useRandomOffsets) = true → s3MpuSizeVariance = 0

namespace S3WriteArgs

/-- `getDoReverseSeqOffsets() || getS3ModeDoReverseSeqFallback()` in the write phase. -/
def backward (args : S3WriteArgs) : Bool := args.doReverseSeqOffsets || args.useRandomOffsets

/-- `initPhaseRWOffsetGen` for uploads. -/
def initPhaseRWOffsetGen (args : S3WriteArgs) (fileSize : ℕ) (randOffsetAlgo : RandAlgo) :
    AnyOffsetGen :=
  if args.backward then
    .reverseSeq (OffsetGenReverseSeq.make fileSize 0 args.blockSizeMix.getMaxSize)
  else .sequential (OffsetGenSequential.make fileSize 0 args.blockSizeMix randOffsetAlgo)

/-- The part number of the next part. -/
def nextPartNum (args : S3WriteArgs) (g : AnyOffsetGen) (currentOffset currentPartNum : ℕ) : ℕ :=
  if args.backward then Word64.add 1 (currentOffset / g.getBlockSize)
  else Word64.add currentPartNum 1

/-- The size of a part after the random amount has been subtracted. -/
def varySize (args : S3WriteArgs) (maxSize blockSize : ℕ) (randBlockVarReseed : RandAlgo) :
    ℕ × RandAlgo :=
  if args.s3MpuSizeVariance ≠ 0 ∧ blockSize = maxSize then
    let randBlockSizeVar := randBlockVarReseed.next.1 % args.s3MpuSizeVariance
    (if randBlockSizeVar < blockSize then blockSize - randBlockSizeVar else blockSize,
      randBlockVarReseed.next.2)
  else (blockSize, randBlockVarReseed)

end S3WriteArgs

/-- The variables of the loops, with the parts in the order of their submission. -/
structure MpuLoop where
  rwOffsetGen : AnyOffsetGen
  randBlockVarReseed : RandAlgo
  currentPartNum : ℕ
  submitted : List Part

namespace MpuLoop

variable (args : S3WriteArgs)

/-- `getNumBytesLeftToSubmit`. -/
def bytesLeft (st : MpuLoop) : ℕ := getNumBytesLeftToSubmit st.rwOffsetGen

/-- One pass of the loop in `s3ModeUploadObjectMultiPart`. -/
def uploadPart (st : MpuLoop) : MpuLoop :=
  let ((currentOffset, blockSize), g) := draw st.rwOffsetGen
  let partNum := args.nextPartNum g currentOffset st.currentPartNum
  let (blockSize, rand) := args.varySize g.getBlockSize blockSize st.randBlockVarReseed
  { rwOffsetGen := addBytesSubmitted g blockSize
    randBlockVarReseed := rand
    currentPartNum := partNum
    submitted := st.submitted ++ [⟨partNum, currentOffset, blockSize⟩] }

/-- The loop in `s3ModeUploadObjectMultiPart`. -/
def uploadAll : ℕ → MpuLoop → Option MpuLoop
  | 0, st => if st.bytesLeft = 0 then some st else none
  | fuel + 1, st => if st.bytesLeft = 0 then some st else uploadAll fuel (st.uploadPart args)

/-- One submission in `s3ModeUploadObjectMultiPartAsync`, which draws the size first. -/
def submitPart (st : MpuLoop) : MpuLoop :=
  let ((currentOffset, blockSize), g) := drawSizeFirst st.rwOffsetGen
  let partNum := args.nextPartNum g currentOffset st.currentPartNum
  { rwOffsetGen := addBytesSubmitted g blockSize
    randBlockVarReseed := st.randBlockVarReseed
    currentPartNum := partNum
    submitted := st.submitted ++ [⟨partNum, currentOffset, blockSize⟩] }

/-- The submissions of a batch, up to the I/O depth. -/
def submitBatch : ℕ → MpuLoop → MpuLoop
  | 0, st => st
  | depth + 1, st => if st.bytesLeft = 0 then st else submitBatch depth (st.submitPart args)

end MpuLoop

/-- In which order the uploads of each batch finish. -/
structure BatchOrder where
  order : ℕ → List Part → List Part
  perm : ∀ k parts, (order k parts).Perm parts

namespace MpuLoop

variable (args : S3WriteArgs)

/-- The loop in `s3ModeUploadObjectMultiPartAsync`, with the uploads in the order in which they
finished. -/
def uploadBatches (finish : BatchOrder) :
    ℕ → ℕ → MpuLoop × List Part → Option (MpuLoop × List Part)
  | 0, _, (st, uploaded) => if st.bytesLeft = 0 then some (st, uploaded) else none
  | fuel + 1, k, (st, uploaded) =>
    if st.bytesLeft = 0 then some (st, uploaded)
    else
      let st' := st.submitBatch args args.ioDepth
      let batch := st'.submitted.drop st.submitted.length
      uploadBatches finish fuel (k + 1) (st', uploaded ++ finish.order k batch)

end MpuLoop

/-- What the server gets: the parts as their uploads finished, and the list of the completion
request, if there is one. -/
structure MpuRequests where
  uploaded : List Part
  completed : Option (List Part)

/-- The completion request. -/
def S3WriteArgs.completion (args : S3WriteArgs) (parts : List Part) : Option (List Part) :=
  if args.s3NoMpuCompletion then none
  else some (if args.backward then parts.reverse else parts)

/-- `s3ModeUploadObjectMultiPart`, with all requests successful.  Every pass of the loops submits
at least one byte. -/
def s3ModeUploadObjectMultiPart (args : S3WriteArgs) (fileSize : ℕ)
    (randOffsetAlgo randBlockVarReseed : RandAlgo) (finish : BatchOrder) : Option MpuRequests :=
  let start : MpuLoop :=
    ⟨args.initPhaseRWOffsetGen fileSize randOffsetAlgo, randBlockVarReseed, 0, []⟩
  if 1 < args.ioDepth then
    (MpuLoop.uploadBatches args finish fileSize 0 (start, [])).map fun result =>
      ⟨result.2, args.completion result.1.submitted⟩
  else
    (start.uploadAll args fileSize).map fun st => ⟨st.submitted, args.completion st.submitted⟩

/-! ## The states of the loops -/

namespace S3WriteArgs

variable (args : S3WriteArgs)

/-- The settings without the size variance, which the asynchronous loop does not know. -/
def withoutVariance : S3WriteArgs :=
  { args with s3MpuSizeVariance := 0, variance_of_backward := fun _ => rfl }

theorem varySize_withoutVariance (maxSize blockSize : ℕ) (rand : RandAlgo) :
    args.withoutVariance.varySize maxSize blockSize rand = (blockSize, rand) :=
  if_neg fun h => h.1 rfl

theorem varySize_of_backward (h : args.backward = true) (maxSize blockSize : ℕ) (rand : RandAlgo) :
    args.varySize maxSize blockSize rand = (blockSize, rand) :=
  if_neg fun hvary => hvary.1 (args.variance_of_backward h)

/-- The subtracted amount is smaller than the block. -/
theorem varySize_bounds (maxSize : ℕ) {blockSize : ℕ} (hpos : 0 < blockSize) (rand : RandAlgo) :
    0 < (args.varySize maxSize blockSize rand).1 ∧
      (args.varySize maxSize blockSize rand).1 ≤ blockSize := by
  rw [varySize]
  split
  · dsimp only
    split
    · next hlt => exact ⟨Nat.sub_pos_of_lt hlt, Nat.sub_le _ _⟩
    · exact ⟨hpos, le_refl _⟩
  · exact ⟨hpos, le_refl _⟩

end S3WriteArgs

namespace MpuLoop

theorem bytesLeft_sequential (g : OffsetGenSequential) (rand : RandAlgo) (num : ℕ)
    (parts : List Part) : bytesLeft ⟨.sequential g, rand, num, parts⟩ = g.numBytesLeft := rfl

theorem bytesLeft_reverseSeq (g : OffsetGenReverseSeq) (rand : RandAlgo) (num : ℕ)
    (parts : List Part) : bytesLeft ⟨.reverseSeq g, rand, num, parts⟩ = g.numBytesLeft := rfl

/-- The forward loop: the parts so far are the bytes before the current offset. -/
structure Forward (size : ℕ) (g : OffsetGenSequential) (st : MpuLoop) : Prop where
  gen : st.rwOffsetGen = .sequential g
  consecutive : Consecutive 1 0 st.submitted
  total : totalSize st.submitted = g.currentOffset
  left : g.currentOffset + g.numBytesLeft = size
  num : st.currentPartNum = st.submitted.length

/-- The backward loop before the block with number `i`: the parts so far are the bytes after it. -/
structure Backward (size : ℕ) (g : OffsetGenReverseSeq) (i : ℕ) (st : MpuLoop) : Prop where
  gen : st.rwOffsetGen = .reverseSeq g
  atBlock : g.AtBlock i
  start : g.startOffset = 0
  length : g.numBytesTotal = size
  consecutive : Consecutive (i + 2) (min ((i + 1) * g.blockSize) size) st.submitted.reverse
  total : totalSize st.submitted + min ((i + 1) * g.blockSize) size = size

/-- The parts in the order of the completion request. -/
def ascending (backward : Bool) (parts : List Part) : List Part :=
  if backward then parts.reverse else parts

theorem ascending_perm (backward : Bool) (parts : List Part) :
    (ascending backward parts).Perm parts := by
  cases backward
  · exact List.Perm.refl parts
  · exact List.reverse_perm parts

theorem totalSize_ascending (backward : Bool) (parts : List Part) :
    totalSize (ascending backward parts) = totalSize parts := by
  cases backward
  · rfl
  · exact totalSize_reverse parts

/-- The states of the loops, in both orders. -/
inductive Inv (size : ℕ) : Bool → MpuLoop → Prop where
  | forward {st : MpuLoop} (g : OffsetGenSequential) (h : Forward size g st) : Inv size false st
  | backward {st : MpuLoop} (g : OffsetGenReverseSeq) (i : ℕ) (h : Backward size g i st) :
      Inv size true st
  | done {st : MpuLoop} (backward : Bool) (left : st.bytesLeft = 0)
      (consecutive : Consecutive 1 0 (ascending backward st.submitted))
      (total : totalSize st.submitted = size) : Inv size backward st

variable {args : S3WriteArgs} {size : ℕ} {st : MpuLoop}

/-- The size of the next part in the forward loop. -/
def forwardSize (args : S3WriteArgs) (g : OffsetGenSequential) (rand : RandAlgo) : ℕ :=
  (args.varySize g.blockSizeMix.getMaxSize
    (min g.numBytesLeft (g.blockSizeMix.getNextSize g.randAlgo).1) rand).1

theorem forwardSize_bounds (args : S3WriteArgs) {g : OffsetGenSequential}
    (hleft : g.numBytesLeft ≠ 0) (rand : RandAlgo) :
    0 < forwardSize args g rand ∧ forwardSize args g rand ≤ g.numBytesLeft := by
  have hdraw : 0 < min g.numBytesLeft (g.blockSizeMix.getNextSize g.randAlgo).1 :=
    lt_min (Nat.pos_of_ne_zero hleft)
      (g.blockSizeMix.pos_of_mem (g.blockSizeMix.getNextSize_mem g.randAlgo))
  obtain ⟨hpos, hle⟩ := args.varySize_bounds g.blockSizeMix.getMaxSize hdraw rand
  exact ⟨hpos, hle.trans (min_le_left _ _)⟩

theorem draw_sequential (g : OffsetGenSequential) :
    draw g = ((g.currentOffset, min g.numBytesLeft (g.blockSizeMix.getNextSize g.randAlgo).1),
      { g with randAlgo := (g.blockSizeMix.getNextSize g.randAlgo).2 }) := rfl

theorem submitDraw_blockSize (g : OffsetGenReverseSeq) :
    (submitDraw g).blockSize = g.blockSize := by
  obtain ⟨total, left, start, current, blockSize⟩ := g
  rfl

theorem submitDraw_startOffset (g : OffsetGenReverseSeq) :
    (submitDraw g).startOffset = g.startOffset := by
  obtain ⟨total, left, start, current, blockSize⟩ := g
  rfl

theorem submitDraw_numBytesTotal (g : OffsetGenReverseSeq) :
    (submitDraw g).numBytesTotal = g.numBytesTotal := by
  obtain ⟨total, left, start, current, blockSize⟩ := g
  rfl

theorem draw_reverseSeq (g : OffsetGenReverseSeq) :
    draw g = ((g.currentOffset, min (Word64.sub (Word64.add g.startOffset g.numBytesTotal)
      g.currentOffset) g.blockSize), g) :=
  rfl

/-- The generator after the next part of the forward loop. -/
def forwardGen (args : S3WriteArgs) (g : OffsetGenSequential) (rand : RandAlgo) :
    OffsetGenSequential :=
  addBytesSubmitted { g with randAlgo := (g.blockSizeMix.getNextSize g.randAlgo).2 }
    (forwardSize args g rand)

/-- The next part in the forward loop. -/
theorem Forward.uploadPart_eq {g : OffsetGenSequential} (h : Forward size g st)
    (hargs : args.backward = false) :
    ∃ rand, st.uploadPart args =
      ⟨.sequential (forwardGen args g st.randBlockVarReseed), rand,
        Word64.add st.submitted.length 1,
        st.submitted ++ [⟨Word64.add st.submitted.length 1, g.currentOffset,
          forwardSize args g st.randBlockVarReseed⟩]⟩ := by
  have hgen := AnyOffsetGen.dispatches_sequential
  have hdraw : draw (AnyOffsetGen.sequential g) =
      ((g.currentOffset, min g.numBytesLeft (g.blockSizeMix.getNextSize g.randAlgo).1),
        .sequential { g with randAlgo := (g.blockSizeMix.getNextSize g.randAlgo).2 }) := by
    rw [hgen.draw_eq, draw_sequential]
  have hnext : ∀ g, args.nextPartNum g = fun _ num => Word64.add num 1 := by
    intro g
    funext currentOffset num
    rw [S3WriteArgs.nextPartNum, hargs, if_neg Bool.false_ne_true]
  refine ⟨(args.varySize g.blockSizeMix.getMaxSize
    (min g.numBytesLeft (g.blockSizeMix.getNextSize g.randAlgo).1) st.randBlockVarReseed).2, ?_⟩
  rw [uploadPart, h.gen, hdraw]
  simp only [hnext, hgen.addBytesSubmitted_eq, h.num, AnyOffsetGen.getBlockSize, forwardGen,
    forwardSize]

theorem forwardGen_numBytesLeft (args : S3WriteArgs) (g : OffsetGenSequential) (rand : RandAlgo) :
    (forwardGen args g rand).numBytesLeft =
      Word64.sub g.numBytesLeft (forwardSize args g rand) := rfl

theorem forwardGen_currentOffset (args : S3WriteArgs) (g : OffsetGenSequential) (rand : RandAlgo) :
    (forwardGen args g rand).currentOffset =
      Word64.add g.currentOffset (forwardSize args g rand) := rfl

theorem Forward.step {g : OffsetGenSequential} (h : Forward size g st) (hsize : size < Word64.size)
    (hargs : args.backward = false) (hleft : st.bytesLeft ≠ 0) :
    Inv size false (st.uploadPart args) ∧ (st.uploadPart args).bytesLeft < st.bytesLeft := by
  have hbytes : st.bytesLeft = g.numBytesLeft := by
    rw [bytesLeft, h.gen]
    rfl
  obtain ⟨hpos, hle⟩ := forwardSize_bounds args (hbytes ▸ hleft) st.randBlockVarReseed
  obtain ⟨rand, hpart⟩ := h.uploadPart_eq hargs
  generalize hblock : forwardSize args g st.randBlockVarReseed = blockSize at hpos hle hpart
  have htotal := h.total
  have hsum := h.left
  have hlen := h.consecutive.length_le
  have hnum : Word64.add st.submitted.length 1 = st.submitted.length + 1 :=
    Word64.add_eq (by omega)
  have hfits : g.numBytesLeft < Word64.size := by omega
  have hfits' : g.currentOffset + blockSize < Word64.size := by omega
  have hsub : (forwardGen args g st.randBlockVarReseed).numBytesLeft = g.numBytesLeft - blockSize :=
    (forwardGen_numBytesLeft args g _).trans (by rw [hblock, Word64.sub_eq hle hfits])
  have hadd : (forwardGen args g st.randBlockVarReseed).currentOffset =
      g.currentOffset + blockSize :=
    (forwardGen_currentOffset args g _).trans (by rw [hblock, Word64.add_eq hfits'])
  rw [hpart, hnum, bytesLeft_sequential, hbytes, hsub]
  refine ⟨.forward _ ⟨rfl, ?_, ?_, ?_, ?_⟩, by omega⟩
  · refine h.consecutive.append (Nat.add_comm _ _) ?_ hpos
    rw [htotal, Nat.zero_add]
  · rw [totalSize_append, totalSize_cons, totalSize_nil, hadd, htotal, Nat.add_zero]
  · rw [hadd, hsub]
    omega
  · rw [List.length_append, List.length_singleton]

theorem Backward.nextPartNum {g : OffsetGenReverseSeq} {i : ℕ} (h : Backward size g i st)
    (hargs : args.backward = true) (num : ℕ) :
    args.nextPartNum (.reverseSeq g) g.currentOffset num = i + 1 := by
  have hbpos := h.atBlock.blockSize_pos
  have hlt := h.atBlock.lt_total
  have hfits := h.atBlock.fits
  have hi : i ≤ i * g.blockSize := Nat.le_mul_of_pos_right i hbpos
  have hdiv : g.currentOffset / g.blockSize = i := by
    rw [h.atBlock.currentOffset_eq, h.start, Nat.zero_add, Nat.mul_div_cancel i hbpos]
  have hfit : 1 + i < Word64.size := by omega
  rw [S3WriteArgs.nextPartNum, hargs, if_pos rfl, AnyOffsetGen.getBlockSize, hdiv,
    Word64.add_eq hfit, Nat.add_comm]

/-- The next part in the backward loop is the block with number `i`. -/
theorem Backward.uploadPart_eq {g : OffsetGenReverseSeq} {i : ℕ} (h : Backward size g i st)
    (hargs : args.backward = true) :
    st.uploadPart args =
      ⟨.reverseSeq (submitDraw g), st.randBlockVarReseed, i + 1,
        st.submitted ++ [⟨i + 1, i * g.blockSize, min (size - i * g.blockSize) g.blockSize⟩]⟩ := by
  have hnext := h.nextPartNum hargs st.currentPartNum
  have hoffset : g.currentOffset = i * g.blockSize := by
    rw [h.atBlock.currentOffset_eq, h.start, Nat.zero_add]
  have hsize : (draw g).1.2 = min (size - i * g.blockSize) g.blockSize := by
    rw [h.atBlock.size_eq, h.length]
  have hgen := AnyOffsetGen.dispatches_reverseSeq
  have hdraw : draw (AnyOffsetGen.reverseSeq g) =
      ((g.currentOffset, (draw g).1.2), .reverseSeq g) := by
    simp only [hgen.draw_eq, draw_reverseSeq]
  have hsubmit : addBytesSubmitted g (draw g).1.2 = submitDraw g := by
    simp only [submitDraw, draw_reverseSeq]
  rw [uploadPart, h.gen, hdraw]
  simp only [args.varySize_of_backward hargs, hgen.addBytesSubmitted_eq]
  rw [hnext, hsubmit, hsize, hoffset]

theorem Backward.step {g : OffsetGenReverseSeq} {i : ℕ} (h : Backward size g i st)
    (hargs : args.backward = true) :
    Inv size true (st.uploadPart args) ∧ (st.uploadPart args).bytesLeft < st.bytesLeft := by
  have hlt := h.atBlock.lt_total
  have hbpos := h.atBlock.blockSize_pos
  have hsucc := Nat.add_one_mul i g.blockSize
  have hleft := h.atBlock.submitDraw_numBytesLeft
  have hbytes : st.bytesLeft = g.numBytesLeft := by
    rw [bytesLeft, h.gen, AnyOffsetGen.dispatches_reverseSeq.getNumBytesLeftToSubmit_eq]
    rfl
  have htotal := h.total
  have hcons := h.consecutive
  have hlength := h.length
  have hend : i * g.blockSize + min (size - i * g.blockSize) g.blockSize =
      min ((i + 1) * g.blockSize) size := by
    omega
  rw [h.uploadPart_eq hargs]
  refine ⟨?_, ?_⟩
  · cases i with
    | zero =>
      rw [← hend] at hcons
      simp only [Nat.zero_mul, Nat.sub_zero, Nat.zero_add] at hcons hend hleft ⊢
      refine .done true ((bytesLeft_reverseSeq _ _ _ _).trans hleft) ?_ ?_
      · rw [ascending, if_pos rfl, List.reverse_append]
        refine ⟨rfl, rfl, lt_min (by omega) hbpos, ?_⟩
        rw [Nat.zero_add]
        exact hcons
      · simp only [totalSize_append, totalSize_cons, totalSize_nil, Nat.add_zero]
        omega
    | succ i =>
      refine .backward (submitDraw g) i ⟨rfl, h.atBlock.submitDraw,
        (submitDraw_startOffset g).trans h.start, (submitDraw_numBytesTotal g).trans hlength,
        ?_, ?_⟩
      · rw [submitDraw_blockSize, List.reverse_append, min_eq_left (by omega)]
        refine ⟨rfl, rfl, ?_, ?_⟩
        · dsimp only
          omega
        · rw [← hend] at hcons
          exact hcons
      · rw [submitDraw_blockSize, totalSize_append, totalSize_cons, totalSize_nil]
        dsimp only
        omega
  · rw [bytesLeft_reverseSeq, hleft, hbytes, h.atBlock.numBytesLeft_eq]
    omega

/-- **One part.** -/
theorem Inv.step (h : Inv size args.backward st) (hsize : size < Word64.size)
    (hleft : st.bytesLeft ≠ 0) :
    Inv size args.backward (st.uploadPart args) ∧
      (st.uploadPart args).bytesLeft < st.bytesLeft := by
  generalize hargs : args.backward = backward at h
  cases h with
  | forward g h => exact h.step hsize hargs hleft
  | backward g i h => exact h.step hargs
  | done _ left => exact absurd left hleft

/-- The asynchronous loop submits what the other one uploads without a size variance. -/
theorem Inv.submitPart_eq {backward : Bool} (h : Inv size backward st) (hleft : st.bytesLeft ≠ 0) :
    st.submitPart args = st.uploadPart args.withoutVariance := by
  have hsame : drawSizeFirst st.rwOffsetGen = draw st.rwOffsetGen := by
    cases h with
    | forward g h =>
      rw [h.gen]
      rfl
    | backward g i h =>
      rw [h.gen]
      rfl
    | done _ left => exact absurd left hleft
  rw [MpuLoop.submitPart, uploadPart, hsame]
  simp only [args.varySize_withoutVariance]
  rfl

theorem Inv.submitPart (h : Inv size args.backward st) (hsize : size < Word64.size)
    (hleft : st.bytesLeft ≠ 0) :
    Inv size args.backward (st.submitPart args) ∧
      (st.submitPart args).bytesLeft < st.bytesLeft := by
  rw [h.submitPart_eq hleft]
  have hsame : args.withoutVariance.backward = args.backward := rfl
  rw [← hsame] at h ⊢
  exact h.step hsize hleft

/-- At the end of the loops, the parts are the object. -/
theorem Inv.consecutive_of_done {backward : Bool} (h : Inv size backward st)
    (hleft : st.bytesLeft = 0) :
    Consecutive 1 0 (ascending backward st.submitted) ∧ totalSize st.submitted = size := by
  obtain ⟨gen, rand, num, parts⟩ := st
  cases h with
  | forward g h =>
    obtain rfl : gen = .sequential g := h.gen
    have hzero : g.numBytesLeft = 0 := hleft
    refine ⟨h.consecutive, h.total.trans ?_⟩
    rw [← h.left, hzero, Nat.add_zero]
  | backward g i h =>
    obtain rfl : gen = .reverseSeq g := h.gen
    have hzero : g.numBytesLeft = 0 := hleft
    have hlt := h.atBlock.lt_total
    have hpos := h.atBlock.blockSize_pos
    have hsucc := Nat.add_one_mul i g.blockSize
    rw [h.atBlock.numBytesLeft_eq] at hzero
    omega
  | done _ left consecutive total => exact ⟨consecutive, total⟩

theorem Inv.start (args : S3WriteArgs) {size : ℕ} (hpos : 0 < size) (hsize : size < Word64.size)
    (randOffsetAlgo rand : RandAlgo) :
    Inv size args.backward ⟨args.initPhaseRWOffsetGen size randOffsetAlgo, rand, 0, []⟩ := by
  cases hargs : args.backward with
  | false =>
    rw [S3WriteArgs.initPhaseRWOffsetGen, hargs]
    exact .forward _ ⟨rfl, trivial, rfl, Nat.zero_add size, rfl⟩
  | true =>
    have hbpos : 0 < args.blockSizeMix.getMaxSize :=
      args.blockSizeMix.pos_of_mem args.blockSizeMix.getMaxSize_mem
    have hfits : 0 + size < Word64.size := by omega
    have hat := OffsetGenReverseSeq.atBlock_make hpos hbpos hfits
    rw [S3WriteArgs.initPhaseRWOffsetGen, hargs]
    refine .backward _ _ ⟨rfl, hat, rfl, rfl, trivial, ?_⟩
    rw [totalSize_nil, Nat.zero_add]
    exact hat.numBytesLeft_eq.symm

/-! ## Whole uploads -/

/-- **The loop of single parts ends**, and its parts are the object. -/
theorem Inv.exists_uploadAll (hsize : size < Word64.size) :
    ∀ {fuel : ℕ} {st : MpuLoop}, Inv size args.backward st → st.bytesLeft ≤ fuel →
      ∃ st', st.uploadAll args fuel = some st' ∧ Inv size args.backward st' ∧ st'.bytesLeft = 0
  | 0, st, h, hfuel => by
    have hzero : st.bytesLeft = 0 := Nat.le_zero.mp hfuel
    exact ⟨st, if_pos hzero, h, hzero⟩
  | fuel + 1, st, h, hfuel => by
    by_cases hzero : st.bytesLeft = 0
    · exact ⟨st, if_pos hzero, h, hzero⟩
    · obtain ⟨h', hlt⟩ := h.step hsize hzero
      obtain ⟨st', hrun, hst'⟩ := exists_uploadAll hsize h' (by omega : _ ≤ fuel)
      exact ⟨st', by rw [uploadAll, if_neg hzero, hrun], hst'⟩

theorem Inv.submitBatch (hsize : size < Word64.size) :
    ∀ (depth : ℕ) {st : MpuLoop}, Inv size args.backward st →
      Inv size args.backward (st.submitBatch args depth) ∧
        (st.submitBatch args depth).bytesLeft ≤ st.bytesLeft ∧
        st.submitted <+: (st.submitBatch args depth).submitted
  | 0, st, h => ⟨h, le_refl _, List.prefix_refl _⟩
  | depth + 1, st, h => by
    by_cases hzero : st.bytesLeft = 0
    · rw [MpuLoop.submitBatch, if_pos hzero]
      exact ⟨h, le_refl _, List.prefix_refl _⟩
    · obtain ⟨h', hlt⟩ := h.submitPart hsize hzero
      obtain ⟨hinv, hle, hpre⟩ := submitBatch hsize depth h'
      rw [MpuLoop.submitBatch, if_neg hzero]
      exact ⟨hinv, hle.trans hlt.le, (List.prefix_append _ _).trans hpre⟩

/-- A batch is not empty. -/
theorem Inv.bytesLeft_submitBatch_lt (hsize : size < Word64.size) (h : Inv size args.backward st)
    (hleft : st.bytesLeft ≠ 0) {depth : ℕ} (hdepth : 0 < depth) :
    (st.submitBatch args depth).bytesLeft < st.bytesLeft := by
  obtain ⟨depth, rfl⟩ := Nat.exists_eq_succ_of_ne_zero hdepth.ne'
  obtain ⟨h', hlt⟩ := h.submitPart hsize hleft
  rw [MpuLoop.submitBatch, if_neg hleft]
  exact (h'.submitBatch hsize depth).2.1.trans_lt hlt

/-- **The loop of batches ends**, and its parts, which finished in some order, are the object. -/
theorem Inv.exists_uploadBatches (hsize : size < Word64.size) (hdepth : 0 < args.ioDepth)
    (finish : BatchOrder) :
    ∀ {fuel k : ℕ} {st : MpuLoop} {uploaded : List Part}, Inv size args.backward st →
      st.bytesLeft ≤ fuel → uploaded.Perm st.submitted →
      ∃ st' uploaded', uploadBatches args finish fuel k (st, uploaded) = some (st', uploaded') ∧
        Inv size args.backward st' ∧ st'.bytesLeft = 0 ∧ uploaded'.Perm st'.submitted
  | 0, k, st, uploaded, h, hfuel, hperm => by
    have hzero : st.bytesLeft = 0 := Nat.le_zero.mp hfuel
    exact ⟨st, uploaded, if_pos hzero, h, hzero, hperm⟩
  | fuel + 1, k, st, uploaded, h, hfuel, hperm => by
    by_cases hzero : st.bytesLeft = 0
    · exact ⟨st, uploaded, if_pos hzero, h, hzero, hperm⟩
    · obtain ⟨hinv, -, batch, hbatch⟩ := h.submitBatch hsize args.ioDepth
      have hlt := h.bytesLeft_submitBatch_lt hsize hzero hdepth
      have hdrop : (st.submitBatch args args.ioDepth).submitted.drop st.submitted.length =
          batch := by
        rw [← hbatch, List.drop_left]
      have hperm' : (uploaded ++ finish.order k batch).Perm
          (st.submitBatch args args.ioDepth).submitted := by
        rw [← hbatch]
        exact hperm.append (finish.perm k batch)
      have hfuel' : (st.submitBatch args args.ioDepth).bytesLeft ≤ fuel := by omega
      obtain ⟨st', uploaded', hrun, hst'⟩ :=
        exists_uploadBatches hsize hdepth finish (k := k + 1) hinv hfuel' hperm'
      refine ⟨st', uploaded', ?_, hst'⟩
      rw [uploadBatches, if_neg hzero]
      simp only [hdrop]
      exact hrun

end MpuLoop

/-- Consecutive parts are what sorting makes of them in any order. -/
theorem Consecutive.eq_mergeSort {parts parts' : List Part} {n a : ℕ} (h : Consecutive n a parts)
    (hperm : parts'.Perm parts) : parts'.mergeSort Part.le = parts := by
  have hle : parts.Pairwise fun p q => Part.le p q = true :=
    h.pairwise.imp fun hlt => decide_eq_true hlt.le
  have hsorted : (parts'.mergeSort Part.le).Pairwise fun p q => Part.le p q = true := by
    refine List.pairwise_mergeSort ?_ ?_ parts'
    · intro p q r hpq hqr
      simp only [Part.le, decide_eq_true_eq] at hpq hqr ⊢
      exact hpq.trans hqr
    · intro p q
      simpa [Part.le] using le_total p.partNum q.partNum
  have hmerge : (parts'.mergeSort Part.le).Perm parts := (List.mergeSort_perm _ _).trans hperm
  refine hmerge.eq_of_pairwise ?_ hsorted hle
  intro p q hp hq hpq hqp
  -- the numbers of two parts are the same only if the parts are
  have heq : p.partNum = q.partNum :=
    le_antisymm (of_decide_eq_true hpq) (of_decide_eq_true hqp)
  exact h.eq_of_partNum_eq (hmerge.mem_iff.mp hp) hq heq

/-- **Multipart objects are assembled in order.**  In ascending order of their numbers, the
uploaded parts have strictly ascending numbers and are the bytes of the object, and this is the
list of the completion request. -/
theorem s3ModeUploadObjectMultiPart_assembles (args : S3WriteArgs) {size : ℕ} (hpos : 1 ≤ size)
    (hsize : size < Word64.size) (randOffsetAlgo randBlockVarReseed : RandAlgo)
    (finish : BatchOrder) :
    ∃ requests, s3ModeUploadObjectMultiPart args size randOffsetAlgo randBlockVarReseed finish =
        some requests ∧
      (requests.uploaded.mergeSort Part.le).Pairwise (fun p q => p.partNum < q.partNum) ∧
      (requests.uploaded.mergeSort Part.le).flatMap Part.positions = List.range size ∧
      requests.completed =
        if args.s3NoMpuCompletion then none else some (requests.uploaded.mergeSort Part.le) := by
  -- what the parts of a finished loop are, in whatever order their uploads finished
  have hfinal : ∀ {st : MpuLoop} {uploaded : List Part}, MpuLoop.Inv size args.backward st →
      st.bytesLeft = 0 → uploaded.Perm st.submitted →
      (uploaded.mergeSort Part.le).Pairwise (fun p q => p.partNum < q.partNum) ∧
      (uploaded.mergeSort Part.le).flatMap Part.positions = List.range size ∧
      args.completion st.submitted =
        if args.s3NoMpuCompletion then none else some (uploaded.mergeSort Part.le) := by
    intro st uploaded hinv hleft hperm
    obtain ⟨hcons, htotal⟩ := hinv.consecutive_of_done hleft
    have hasc : uploaded.Perm (MpuLoop.ascending args.backward st.submitted) :=
      hperm.trans (MpuLoop.ascending_perm _ _).symm
    have hsum : totalSize (MpuLoop.ascending args.backward st.submitted) = size :=
      (MpuLoop.totalSize_ascending _ _).trans htotal
    rw [hcons.eq_mergeSort hasc]
    refine ⟨hcons.pairwise, ?_, rfl⟩
    rw [hcons.positions, hsum, List.range_eq_range']
  have hstart := MpuLoop.Inv.start args hpos hsize randOffsetAlgo randBlockVarReseed
  have hfuel : MpuLoop.bytesLeft
      ⟨args.initPhaseRWOffsetGen size randOffsetAlgo, randBlockVarReseed, 0, []⟩ ≤ size := by
    rw [MpuLoop.bytesLeft, S3WriteArgs.initPhaseRWOffsetGen]
    split
    · exact le_refl size
    · exact le_refl size
  rw [s3ModeUploadObjectMultiPart]
  by_cases hdepth : 1 < args.ioDepth
  · obtain ⟨st, uploaded, hrun, hinv, hleft, hperm⟩ := hstart.exists_uploadBatches hsize
      (Nat.zero_lt_of_lt hdepth) finish (k := 0) hfuel (List.Perm.refl [])
    refine ⟨⟨uploaded, args.completion st.submitted⟩, ?_, hfinal hinv hleft hperm⟩
    simp only [hdepth, if_true, hrun, Option.map_some]
  · obtain ⟨st, hrun, hinv, hleft⟩ := hstart.exists_uploadAll hsize hfuel
    refine ⟨⟨st.submitted, args.completion st.submitted⟩, ?_, hfinal hinv hleft (List.Perm.refl _)⟩
    simp only [hdepth, if_false, hrun, Option.map_some]

/-- Backward uploads with two parts of four bytes at a time. -/
def backwardPairs : S3WriteArgs where
  blockSizeMix := BlockSizeMix.single 4 Word64.four_pos Word64.four_lt_size
  doReverseSeqOffsets := true
  useRandomOffsets := false
  s3MpuSizeVariance := 0
  ioDepth := 2
  s3NoMpuCompletion := false
  single_of_backward _ := rfl
  variance_of_backward _ := rfl

/-- An object of ten bytes, with the uploads of each batch finished in reverse order. -/
theorem s3ModeUploadObjectMultiPart_assembles_backwardPairs :
    ∃ requests, s3ModeUploadObjectMultiPart backwardPairs 10 (Stream'.const 0) (Stream'.const 0)
        ⟨fun _ parts => parts.reverse, fun _ parts => List.reverse_perm parts⟩ = some requests ∧
      (requests.uploaded.mergeSort Part.le).flatMap Part.positions = List.range 10 := by
  obtain ⟨requests, hrun, -, hpositions, -⟩ := s3ModeUploadObjectMultiPart_assembles backwardPairs
    (by decide : 1 ≤ 10) (by decide) (Stream'.const 0) (Stream'.const 0)
    ⟨fun _ parts => parts.reverse, fun _ parts => List.reverse_perm parts⟩
  exact ⟨requests, hrun, hpositions⟩

end Elbencho
