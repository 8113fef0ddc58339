import Elbencho.S3.MultiPart
import Elbencho.Tree.Partition

/-!
# The parts of shared objects

An object that is shared by workers is uploaded in ranges.  Each worker draws the blocks of its
ranges from the offset generator and computes the part number of a block from its offset, so the
blocks must not vary in size: a block size mix is not accepted together with shared objects.

`objectParts` is what an upload should consist of: the blocks of the object, numbered from one.
`rangeParts` is what a worker makes of a range.  **`perm_objectParts`**: if every byte of an
object is in one of the ranges, and the ranges begin at blocks, then all ranges together have the
parts of the object.  That ranges also end at blocks, or at the end of the object, follows: the
bytes of a block that is cut in two would be covered twice.
-/

namespace Elbencho

open OffsetGenerator Blocks

/-! ## Blocks as parts -/

/-- The part of the block with number `k` of an object. -/
def blockPart (blockSize totalLen k : ℕ) : Part :=
  ⟨k + 1, k * blockSize, min (totalLen - k * blockSize) blockSize⟩

/-- The blocks of an object as parts. -/
def objectParts (blockSize totalLen : ℕ) : List Part :=
  (List.range (numBlocks totalLen blockSize)).map (blockPart blockSize totalLen)

theorem consecutive_blocks {blockSize totalLen : ℕ} (hpos : 0 < blockSize) {n : ℕ}
    (hn : n ≤ numBlocks totalLen blockSize) :
    Consecutive 1 0 ((List.range n).map (blockPart blockSize totalLen)) ∧
      totalSize ((List.range n).map (blockPart blockSize totalLen)) =
        min (n * blockSize) totalLen := by
  induction n with
  | zero =>
    refine ⟨trivial, ?_⟩
    rw [Nat.zero_mul, Nat.zero_min]
    rfl
  | succ n ih =>
    have hlt : n * blockSize < totalLen := (lt_numBlocks_iff hpos).mp (by omega)
    have hsucc := Nat.add_one_mul n blockSize
    obtain ⟨hcons, htotal⟩ := ih (by omega)
    rw [List.range_succ, List.map_append, List.map_singleton]
    refine ⟨hcons.append ?_ ?_ ?_, ?_⟩
    · rw [List.length_map, List.length_range, Nat.add_comm]
      rfl
    · rw [htotal, Nat.zero_add, min_eq_left hlt.le]
      rfl
    · exact lt_min (Nat.sub_pos_of_lt hlt) hpos
    · rw [totalSize_append, htotal, totalSize_cons, totalSize_nil, blockPart, Nat.add_zero, hsucc]
      dsimp only
      omega

/-- **The parts of an object** follow one another and are the object. -/
theorem consecutive_objectParts {blockSize : ℕ} (hpos : 0 < blockSize) (totalLen : ℕ) :
    Consecutive 1 0 (objectParts blockSize totalLen) ∧
      totalSize (objectParts blockSize totalLen) = totalLen := by
  obtain ⟨hcons, htotal⟩ := consecutive_blocks hpos (le_refl (numBlocks totalLen blockSize))
  refine ⟨hcons, htotal.trans (min_eq_right ?_)⟩
  exact (numBlocks_le_iff hpos).mp (le_refl _)

/-! ## The parts of a range -/

/-- The settings of uploads with shared objects: the block size does not vary. -/
structure SharedWriteArgs extends S3WriteArgs where
  single : blockSizeMix.isMix = false

namespace SharedWriteArgs

variable (args : SharedWriteArgs)

def blockSize : ℕ := args.blockSizeMix.getMaxSize

theorem blockSize_pos : 0 < args.blockSize :=
  args.blockSizeMix.pos_of_mem args.blockSizeMix.getMaxSize_mem

/-- The generator after `reset(rangeLen, fileOffset)` in `s3ModeIterateCustomObjects`. -/
def rangeGen (randOffsetAlgo : RandAlgo) (e : PathStoreElem) : AnyOffsetGen :=
  if args.backward then
    .reverseSeq (OffsetGenReverseSeq.make e.rangeLen e.rangeStart args.blockSize)
  else .sequential (OffsetGenSequential.make e.rangeLen e.rangeStart args.blockSizeMix
    randOffsetAlgo)

/-- The parts that the loops of `s3ModeUploadObjectMultiPartShared` and of its asynchronous
version go through; `none` if they need more passes. -/
def partLoop : ℕ → AnyOffsetGen → Option (List Part)
  | 0, g => if getNumBytesLeftToSubmit g = 0 then some [] else none
  | fuel + 1, g =>
    if getNumBytesLeftToSubmit g = 0 then some []
    else
      let ((currentOffset, blockSize), g) := drawSizeFirst g
      (partLoop fuel (addBytesSubmitted g blockSize)).map
        (⟨Word64.add 1 (currentOffset / g.getBlockSize), currentOffset, blockSize⟩ :: ·)

/-- The parts of a range.  Every pass of the loop submits at least a byte. -/
def rangeParts (randOffsetAlgo : RandAlgo) (e : PathStoreElem) : Option (List Part) :=
  partLoop e.rangeLen (args.rangeGen randOffsetAlgo e)

end SharedWriteArgs

/-- A block of a range as a part. -/
def rangePart (blockSize start len j : ℕ) : Part :=
  ⟨Word64.add 1 ((start + j * blockSize) / blockSize), start + j * blockSize,
    min (len - j * blockSize) blockSize⟩

open SharedWriteArgs

theorem partLoop_succ {g : AnyOffsetGen} (hleft : getNumBytesLeftToSubmit g ≠ 0) (fuel : ℕ) :
    partLoop (fuel + 1) g =
      (partLoop fuel (addBytesSubmitted (drawSizeFirst g).2 (drawSizeFirst g).1.2)).map
        (⟨Word64.add 1 ((drawSizeFirst g).1.1 / (drawSizeFirst g).2.getBlockSize),
          (drawSizeFirst g).1.1, (drawSizeFirst g).1.2⟩ :: ·) := by
  rw [partLoop, if_neg hleft]

theorem drawSizeFirst_sequential {mix : BlockSizeMix} (hmix : mix.isMix = false)
    (total left start current : ℕ) (rand : RandAlgo) :
    drawSizeFirst (AnyOffsetGen.sequential ⟨total, left, start, current, mix, rand⟩) =
      ((current, min left mix.getMaxSize),
        .sequential ⟨total, left, start, current, mix, rand⟩) := by
  have hnext : mix.getNextSize rand = (mix.getMaxSize, rand) := by
    rw [BlockSizeMix.getNextSize, if_neg (by rw [hmix]; exact Bool.false_ne_true)]
  show ((current, min left (mix.getNextSize rand).1),
    AnyOffsetGen.sequential ⟨total, left, start, current, mix, (mix.getNextSize rand).2⟩) = _
  rw [hnext]

/-- The first block of a range and the other ones. -/
theorem map_rangePart_succ {blockSize len : ℕ} (hpos : 0 < blockSize) (hlen : 0 < len)
    (start : ℕ) :
    (List.range (numBlocks len blockSize)).map (rangePart blockSize start len) =
      ⟨Word64.add 1 (start / blockSize), start, min len blockSize⟩ ::
        (List.range (numBlocks (len - min len blockSize) blockSize)).map
          (rangePart blockSize (start + min len blockSize) (len - min len blockSize)) := by
  rw [numBlocks_eq_succ hpos hlen, List.range_succ_eq_map, List.map_cons, List.map_map]
  refine List.cons_eq_cons.mpr ⟨?_, List.map_congr_left fun j hj => ?_⟩
  · rw [rangePart, Nat.zero_mul, Nat.add_zero, Nat.sub_zero]
  · -- there is another block, so the first one is a whole one
    have hlt := (lt_numBlocks_iff hpos).mp (List.mem_range.mp hj)
    have hsucc : j.succ * blockSize = j * blockSize + blockSize := Nat.succ_mul j blockSize
    have hmin : min len blockSize = blockSize := by omega
    rw [Function.comp_apply, rangePart, rangePart, hmin, hsucc, Nat.add_assoc, Nat.add_comm
      blockSize, Nat.sub_sub, Nat.add_comm blockSize]

/-- **Forward**, the blocks come in their order. -/
theorem partLoop_sequential {mix : BlockSizeMix} (hmix : mix.isMix = false) (total start : ℕ)
    (rand : RandAlgo) {fuel left current : ℕ} (hfuel : left ≤ fuel)
    (hfits : current + left < Word64.size) :
    partLoop fuel (.sequential ⟨total, left, start, current, mix, rand⟩) =
      some ((List.range (numBlocks left mix.getMaxSize)).map
        (rangePart mix.getMaxSize current left)) := by
  have hpos : 0 < mix.getMaxSize := mix.pos_of_mem mix.getMaxSize_mem
  induction fuel generalizing left current with
  | zero =>
    obtain rfl : left = 0 := Nat.le_zero.mp hfuel
    rw [numBlocks_zero]
    rfl
  | succ fuel ih =>
    by_cases hleft : left = 0
    · subst hleft
      rw [numBlocks_zero]
      rfl
    · have hsome : getNumBytesLeftToSubmit
          (AnyOffsetGen.sequential ⟨total, left, start, current, mix, rand⟩) ≠ 0 := hleft
      rw [partLoop_succ hsome, drawSizeFirst_sequential hmix,
        map_rangePart_succ hpos (Nat.pos_of_ne_zero hleft)]
      have hnext : addBytesSubmitted
          (AnyOffsetGen.sequential ⟨total, left, start, current, mix, rand⟩)
          (min left mix.getMaxSize) = .sequential ⟨total, left - min left mix.getMaxSize, start,
            current + min left mix.getMaxSize, mix, rand⟩ := by
        rw [← Word64.sub_eq (min_le_left _ _) (by omega), ← Word64.add_eq (a := current) (by omega)]
        rfl
      rw [hnext, ih (by omega) (by omega)]
      rfl

theorem drawSizeFirst_dispatch {G : Type*} [OffsetGenerator G] {toAny : G → AnyOffsetGen}
    (h : AnyOffsetGen.Dispatches toAny) (g : G) :
    drawSizeFirst (toAny g) = ((drawSizeFirst g).1, toAny (drawSizeFirst g).2) := by
  unfold drawSizeFirst
  rw [h.getNextBlockSizeToSubmit_eq]
  show (((getNextOffset (toAny (getNextBlockSizeToSubmit g).2)).1, _),
    (getNextOffset (toAny (getNextBlockSizeToSubmit g).2)).2) = _
  rw [h.getNextOffset_eq]
  rfl

/-- Neither draw changes the backward generator, so their order does not matter. -/
theorem drawSizeFirst_reverseSeq (g : OffsetGenReverseSeq) :
    drawSizeFirst (AnyOffsetGen.reverseSeq g) = ((draw g).1, .reverseSeq (draw g).2) := by
  rw [drawSizeFirst_dispatch AnyOffsetGen.dispatches_reverseSeq]
  rfl

theorem draw_of_atBlock {g : OffsetGenReverseSeq} {i : ℕ} (h : g.AtBlock i) :
    (draw g).1 = (g.startOffset + i * g.blockSize,
      min (g.numBytesTotal - i * g.blockSize) g.blockSize) := by
  refine Prod.ext ?_ h.size_eq
  rw [MpuLoop.draw_reverseSeq]
  exact h.currentOffset_eq

theorem bytesLeft_of_atBlock {g : OffsetGenReverseSeq} {i : ℕ} (h : g.AtBlock i) :
    getNumBytesLeftToSubmit (AnyOffsetGen.reverseSeq g) ≠ 0 := by
  have hpos := h.blockSize_pos
  have hlt := h.lt_total
  have hsucc := Nat.add_one_mul i g.blockSize
  show g.numBytesLeft ≠ 0
  rw [h.numBytesLeft_eq]
  omega

/-- One pass of the backward loop. -/
theorem partLoop_atBlock {g : OffsetGenReverseSeq} {i : ℕ} (h : g.AtBlock i) (fuel : ℕ) :
    partLoop (fuel + 1) (.reverseSeq g) = (partLoop fuel (.reverseSeq (submitDraw g))).map
      (rangePart g.blockSize g.startOffset g.numBytesTotal i :: ·) := by
  have hsize : (AnyOffsetGen.reverseSeq (draw g).2).getBlockSize = g.blockSize := by
    rw [MpuLoop.draw_reverseSeq]
    rfl
  rw [partLoop_succ (bytesLeft_of_atBlock h), drawSizeFirst_reverseSeq]
  dsimp only
  rw [AnyOffsetGen.dispatches_reverseSeq.addBytesSubmitted_eq, hsize, ← submitDraw,
    draw_of_atBlock h]
  rfl

/-- **Backward**, the blocks come in the reverse order. -/
theorem partLoop_reverseSeq {g : OffsetGenReverseSeq} {i : ℕ} (h : g.AtBlock i) {fuel : ℕ}
    (hfuel : i + 1 ≤ fuel) :
    partLoop fuel (.reverseSeq g) = some ((List.range (i + 1)).map
      (rangePart g.blockSize g.startOffset g.numBytesTotal)).reverse := by
  induction i generalizing g fuel with
  | zero =>
    obtain ⟨fuel, rfl⟩ := Nat.exists_eq_succ_of_ne_zero (by omega : fuel ≠ 0)
    have hdone : getNumBytesLeftToSubmit (AnyOffsetGen.reverseSeq (submitDraw g)) = 0 :=
      h.submitDraw_numBytesLeft.trans (Nat.zero_mul _)
    have hrest : partLoop fuel (.reverseSeq (submitDraw g)) = some [] := by
      cases fuel <;> rw [partLoop, if_pos hdone]
    rw [partLoop_atBlock h, hrest]
    rfl
  | succ i ih =>
    obtain ⟨fuel, rfl⟩ := Nat.exists_eq_succ_of_ne_zero (by omega : fuel ≠ 0)
    rw [partLoop_atBlock h, ih h.submitDraw (by omega), MpuLoop.submitDraw_blockSize,
      MpuLoop.submitDraw_startOffset, MpuLoop.submitDraw_numBytesTotal,
      List.range_succ (n := i + 1), List.map_append, List.map_singleton, List.reverse_append]
    rfl

/-- **The parts of a range** are its blocks, forward or backward. -/
theorem exists_rangeParts (args : SharedWriteArgs) (randOffsetAlgo : RandAlgo) {e : PathStoreElem}
    (hpos : 0 < e.rangeLen) (hfits : e.rangeStart + e.rangeLen < Word64.size) :
    ∃ parts, args.rangeParts randOffsetAlgo e = some parts ∧
      parts.Perm ((List.range (numBlocks e.rangeLen args.blockSize)).map
        (rangePart args.blockSize e.rangeStart e.rangeLen)) := by
  unfold rangeParts rangeGen
  split_ifs with hbackward
  · have hat := OffsetGenReverseSeq.atBlock_make hpos args.blockSize_pos hfits
    have hnum : numBlocks e.rangeLen args.blockSize = (e.rangeLen - 1) / args.blockSize + 1 := by
      refine eq_of_forall_lt_iff fun c => ?_
      rw [lt_numBlocks_iff args.blockSize_pos, Nat.lt_add_one_iff,
        Nat.le_div_iff_mul_le args.blockSize_pos]
      omega
    have hfuel : (e.rangeLen - 1) / args.blockSize + 1 ≤ e.rangeLen :=
      hnum ▸ numBlocks_le args.blockSize_pos
    rw [hnum]
    exact ⟨_, partLoop_reverseSeq hat hfuel, List.reverse_perm _⟩
  · exact ⟨_, partLoop_sequential args.single _ _ randOffsetAlgo (le_refl _) hfits, .refl _⟩

/-! ## All ranges of an object -/

/-- The numbers of the blocks of a range. -/
def PathStoreElem.blocks (blockSize : ℕ) (e : PathStoreElem) : List ℕ :=
  List.range' (e.rangeStart / blockSize) (numBlocks e.rangeLen blockSize)

/-- Every byte of a file is in one of the ranges, and the ranges begin at blocks. -/
structure Covered (blockSize : ℕ) (f : PathStoreElem) (ranges : List PathStoreElem) : Prop where
  dvd_rangeStart : ∀ e ∈ ranges, e.file = f → blockSize ∣ e.rangeStart
  rangeLen_pos : ∀ e ∈ ranges, e.file = f → 0 < e.rangeLen
  end_le : ∀ e ∈ ranges, e.file = f → e.rangeStart + e.rangeLen ≤ f.totalLen
  once : ∀ x < f.totalLen, ranges.countP (PathStoreElem.covers f x) = 1

/-- A covered file stays covered if the ranges come in another order. -/
theorem Covered.perm {blockSize : ℕ} {f : PathStoreElem} {ranges ranges' : List PathStoreElem}
    (h : Covered blockSize f ranges) (hperm : ranges.Perm ranges') :
    Covered blockSize f ranges' where
  dvd_rangeStart e he := h.dvd_rangeStart e (hperm.mem_iff.mpr he)
  rangeLen_pos e he := h.rangeLen_pos e (hperm.mem_iff.mpr he)
  end_le e he := h.end_le e (hperm.mem_iff.mpr he)
  once x hx := (hperm.countP_eq _).symm.trans (h.once x hx)

/-- **The ranks of a tree cover its files**, if a file is in the tree once. -/
theorem PathStore.CoversFiles.covered {s : PathStore} {T : ℕ} {new : ℕ → List PathStoreElem}
    (h : s.CoversFiles T new) {f : PathStoreElem} (honce : s.paths.count f = 1) :
    Covered s.blockSize f ((List.range T).flatMap new) := by
  have hin : ∀ e ∈ (List.range T).flatMap new, InFile s.blockSize s.paths e := by
    intro e he
    obtain ⟨rank, hrank, he⟩ := List.mem_flatMap.mp he
    exact h.inFile rank (List.mem_range.mp hrank) e he
  refine ⟨fun e he _ => (hin e he).dvd_rangeStart, fun e he _ => (hin e he).rangeLen_pos,
    fun e he hfile => ?_, fun x hx => ?_⟩
  · rw [← hfile]
    exact (hin e he).end_le
  · rw [List.countP_flatMap, ← honce, ← h.once f x hx]
    rfl

section Cover

variable {blockSize : ℕ} {f : PathStoreElem} {ranges : List PathStoreElem}

theorem covers_iff {x : ℕ} {e : PathStoreElem} : PathStoreElem.covers f x e = true ↔
    e.file = f ∧ e.rangeStart ≤ x ∧ x < e.rangeStart + e.rangeLen := by
  rw [PathStoreElem.covers, decide_eq_true_eq]

/-- A byte of a file is in one range only. -/
theorem Covered.eq_of_covers (h : Covered blockSize f ranges) {x : ℕ} (hx : x < f.totalLen)
    {e e' : PathStoreElem} (he : e ∈ ranges) (he' : e' ∈ ranges)
    (hc : PathStoreElem.covers f x e = true) (hc' : PathStoreElem.covers f x e' = true) :
    e = e' := by
  have hlen : (ranges.filter (PathStoreElem.covers f x)).length = 1 := by
    rw [← List.countP_eq_length_filter, h.once x hx]
  obtain ⟨a, ha⟩ := List.length_eq_one_iff.mp hlen
  have hmem : ∀ e ∈ ranges, PathStoreElem.covers f x e = true → e = a := fun e he hc =>
    List.mem_singleton.mp (ha ▸ List.mem_filter.mpr ⟨he, hc⟩)
  rw [hmem e he hc, hmem e' he' hc']

/-- **A range ends at a block**, or at the end of the file.  If it did not, the range that has the
next byte would begin at the same block or before, and the first byte of the block would be in
both. -/
theorem Covered.dvd_end (h : Covered blockSize f ranges) (hbs : 0 < blockSize)
    {e : PathStoreElem} (he : e ∈ ranges) (hfile : e.file = f)
    (hend : e.rangeStart + e.rangeLen < f.totalLen) : blockSize ∣ e.rangeStart + e.rangeLen := by
  have hpos := h.rangeLen_pos e he hfile
  obtain ⟨k, hk⟩ := h.dvd_rangeStart e he hfile
  -- the range of the next byte
  obtain ⟨e', he', hc'⟩ := List.countP_pos_iff.mp (h.once _ hend ▸ Nat.one_pos)
  obtain ⟨hfile', hstart', hend'⟩ := covers_iff.mp hc'
  obtain ⟨k', hk'⟩ := h.dvd_rangeStart e' he' hfile'
  by_contra hnd
  -- the first byte of its block
  have hdiv := Nat.div_add_mod (e.rangeStart + e.rangeLen) blockSize
  have hmod : (e.rangeStart + e.rangeLen) % blockSize ≠ 0 :=
    fun hzero => hnd (Nat.dvd_of_mod_eq_zero hzero)
  have hle : k ≤ (e.rangeStart + e.rangeLen) / blockSize := by
    rw [Nat.le_div_iff_mul_le hbs, Nat.mul_comm]
    omega
  have hle' : k' ≤ (e.rangeStart + e.rangeLen) / blockSize := by
    rw [Nat.le_div_iff_mul_le hbs, Nat.mul_comm]
    omega
  have hmul := Nat.mul_le_mul_left blockSize hle
  have hmul' := Nat.mul_le_mul_left blockSize hle'
  have heq := h.eq_of_covers (x := blockSize * ((e.rangeStart + e.rangeLen) / blockSize))
    (by omega) he he' (covers_iff.mpr ⟨hfile, by omega, by omega⟩)
    (covers_iff.mpr ⟨hfile', by omega, by omega⟩)
  rw [heq] at hend'
  exact lt_irrefl _ hend'

/-- The blocks of a range as parts. -/
theorem Covered.map_rangePart (h : Covered blockSize f ranges) (hbs : 0 < blockSize)
    (hsize : f.totalLen < Word64.size) {e : PathStoreElem} (he : e ∈ ranges)
    (hfile : e.file = f) :
    (List.range (numBlocks e.rangeLen blockSize)).map
        (rangePart blockSize e.rangeStart e.rangeLen) =
      (e.blocks blockSize).map (blockPart blockSize f.totalLen) := by
  obtain ⟨k, hk⟩ := h.dvd_rangeStart e he hfile
  have hend := h.end_le e he hfile
  have hstart : e.rangeStart / blockSize = k := by rw [hk, Nat.mul_div_cancel_left k hbs]
  rw [PathStoreElem.blocks, List.range'_eq_map_range, List.map_map, hstart]
  refine List.map_congr_left fun j hj => ?_
  have hlt := (lt_numBlocks_iff hbs).mp (List.mem_range.mp hj)
  have hoffset : e.rangeStart + j * blockSize = (k + j) * blockSize := by
    rw [Nat.add_mul, hk, Nat.mul_comm blockSize]
  have hnum : k + j ≤ (k + j) * blockSize := Nat.le_mul_of_pos_right _ hbs
  rw [Function.comp_apply, rangePart, blockPart, hoffset, Nat.mul_div_cancel _ hbs,
    Word64.add_eq (by omega), Nat.add_comm 1]
  congr 1
  -- the last block of the range is short only at the end of the file
  by_cases hlast : e.rangeStart + e.rangeLen < f.totalLen
  · obtain ⟨m, hm⟩ := h.dvd_end hbs he hfile hlast
    rw [Nat.mul_comm] at hm
    have hjm : (k + j) * blockSize < m * blockSize := by omega
    have hsucc := Nat.mul_le_mul_right blockSize (Nat.lt_of_mul_lt_mul_right hjm)
    rw [Nat.succ_eq_add_one, Nat.add_one_mul] at hsucc
    omega
  · omega

/-- A range has a block exactly if it has the first byte of the block. -/
theorem Covered.count_blocks (h : Covered blockSize f ranges) (hbs : 0 < blockSize)
    {e : PathStoreElem} (he : e ∈ ranges) (b : ℕ) :
    (if e.file = f then e.blocks blockSize else []).count b =
      (PathStoreElem.covers f (b * blockSize) e).toNat := by
  by_cases hfile : e.file = f
  · obtain ⟨k, hk⟩ := h.dvd_rangeStart e he hfile
    have hstart : e.rangeStart / blockSize = k := by rw [hk, Nat.mul_div_cancel_left k hbs]
    have hmem : b ∈ e.blocks blockSize ↔ PathStoreElem.covers f (b * blockSize) e = true := by
      rw [PathStoreElem.blocks, List.mem_range'_1, hstart, covers_iff, hk, Nat.mul_comm blockSize,
        Nat.mul_le_mul_right_iff hbs]
      have hshift : k ≤ b → (b < k + numBlocks e.rangeLen blockSize ↔
          b * blockSize < k * blockSize + e.rangeLen) := by
        intro hle
        obtain ⟨c, rfl⟩ := Nat.exists_eq_add_of_le hle
        rw [Nat.add_lt_add_iff_left, lt_numBlocks_iff hbs, Nat.add_mul]
        omega
      constructor
      · exact fun hb => ⟨hfile, hb.1, (hshift hb.1).mp hb.2⟩
      · exact fun hb => ⟨hb.2.1, (hshift hb.2.1).mpr hb.2.2⟩
    have hnodup : (e.blocks blockSize).Nodup := List.nodup_range'
    rw [if_pos hfile]
    by_cases hb : b ∈ e.blocks blockSize
    · rw [List.count_eq_one_of_mem hnodup hb, hmem.mp hb, Bool.toNat_true]
    · rw [List.count_eq_zero_of_not_mem hb, Bool.eq_false_iff.mpr (mt hmem.mpr hb),
        Bool.toNat_false]
  · rw [if_neg hfile, Bool.eq_false_iff.mpr fun hc => hfile (covers_iff.mp hc).1, List.count_nil,
      Bool.toNat_false]

theorem count_flatMap {α β : Type*} [BEq β] {g : α → List β} {p : α → Bool} {b : β} {l : List α}
    (h : ∀ e ∈ l, (g e).count b = (p e).toNat) : (l.flatMap g).count b = l.countP p := by
  induction l with
  | nil => rfl
  | cons e l ih =>
    obtain ⟨he, hl⟩ := List.forall_mem_cons.mp h
    rw [List.flatMap_cons, List.count_append, ih hl, he, List.countP_cons, Nat.add_comm]
    cases p e <;> rfl

/-- The blocks of all ranges are those of the file. -/
theorem Covered.perm_range (h : Covered blockSize f ranges) (hbs : 0 < blockSize) :
    (ranges.flatMap fun e => if e.file = f then e.blocks blockSize else []).Perm
      (List.range (numBlocks f.totalLen blockSize)) := by
  refine List.perm_iff_count.mpr fun b => ?_
  rw [count_flatMap fun e he => h.count_blocks hbs he b]
  by_cases hb : b * blockSize < f.totalLen
  · rw [h.once _ hb, List.count_eq_one_of_mem List.nodup_range
      (List.mem_range.mpr ((lt_numBlocks_iff hbs).mpr hb))]
  · rw [List.count_eq_zero_of_not_mem fun hmem =>
      hb ((lt_numBlocks_iff hbs).mp (List.mem_range.mp hmem))]
    refine List.countP_eq_zero.mpr fun e he hc => ?_
    obtain ⟨hfile, -, hlt⟩ := covers_iff.mp hc
    have hend := h.end_le e he hfile
    omega

/-- **All ranges of an object together have its parts.** -/
theorem Covered.perm_objectParts {args : SharedWriteArgs} (h : Covered args.blockSize f ranges)
    (hsize : f.totalLen < Word64.size) {parts : PathStoreElem → List Part}
    (hparts : ∀ e ∈ ranges, e.file = f → (parts e).Perm
      ((List.range (numBlocks e.rangeLen args.blockSize)).map
        (rangePart args.blockSize e.rangeStart e.rangeLen))) :
    (ranges.flatMap fun e => if e.file = f then parts e else []).Perm
      (objectParts args.blockSize f.totalLen) := by
  refine .trans ?_ ((h.perm_range args.blockSize_pos).map _)
  rw [List.map_flatMap]
  refine List.Perm.flatMap_left _ fun e he => ?_
  split_ifs with hfile
  · exact (h.map_rangePart args.blockSize_pos hsize he hfile) ▸ hparts e he hfile
  · exact .refl _

end Cover

end Elbencho
