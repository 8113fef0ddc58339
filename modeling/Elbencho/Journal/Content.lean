import Elbencho.Journal.Tile

/-!
# The content of a journal block identifies it

The content that a write leaves in a journal block depends on the offset of the block, the
seed and the generation only, not on the I/O that the block was a part of: this is how the
fill loop and the verify loop can work with I/Os of different sizes.  It also identifies the
block and the generation: `verify_eq_ok_iff_of_holds` says that a read finds the content of
some other block or generation exactly when it is there.

The mixing of the tile value is injective, so what is to be shown is that its input is.  The
input is the exclusive or of the offset, a word of the seed and a multiple of the generation;
for offsets below `2 ^ 62` the generation can be told from its two highest bits.
-/

namespace Elbencho

open Journal

/-! ## Tile values of different blocks -/

/-- The two highest bits of the multiples tell the generations apart. -/
theorem generation_eq_of_highBits {g g' : ℕ} (hpos : 1 ≤ g) (hle : g ≤ 3) (hpos' : 1 ≤ g')
    (hle' : g' ≤ 3)
    (h : (BitVec.ofNat 64 g * 0xBF58476D1CE4E5B9#64) >>> 62 =
      (BitVec.ofNat 64 g' * 0xBF58476D1CE4E5B9#64) >>> 62) : g = g' := by
  have hall : ∀ g ∈ [1, 2, 3], ∀ g' ∈ [1, 2, 3],
      (BitVec.ofNat 64 g * 0xBF58476D1CE4E5B9#64) >>> 62 =
        (BitVec.ofNat 64 g' * 0xBF58476D1CE4E5B9#64) >>> 62 → g = g' := by decide
  have hmem : ∀ n, 1 ≤ n → n ≤ 3 → n ∈ [1, 2, 3] := by
    intro n hn hn'
    simp only [List.mem_cons, List.not_mem_nil, or_false]
    omega
  exact hall g (hmem g hpos hle) g' (hmem g' hpos' hle') h

/-- The highest bits of a small offset. -/
theorem ofNat_ushiftRight_eq_zero {off : ℕ} (hoff : off < 2 ^ 62) :
    BitVec.ofNat 64 off >>> 62 = 0#64 := by
  refine BitVec.eq_of_toNat_eq ?_
  rw [BitVec.toNat_ushiftRight, BitVec.toNat_ofNat, Nat.mod_eq_of_lt (by omega),
    Nat.shiftRight_eq_div_pow, Nat.div_eq_of_lt hoff]
  rfl

/-- **Tile values identify block and generation**, for every seed. -/
theorem computeExpectedTileValue_eq_iff {off off' g g' : ℕ} (hoff : off < 2 ^ 62)
    (hoff' : off' < 2 ^ 62) (hpos : 1 ≤ g) (hle : g ≤ 3) (hpos' : 1 ≤ g') (hle' : g' ≤ 3)
    (seed : BitVec 64) :
    computeExpectedTileValue (BitVec.ofNat 64 off) seed g =
        computeExpectedTileValue (BitVec.ofNat 64 off') seed g' ↔ off = off' ∧ g = g' := by
  constructor
  · intro h
    have hxor := xor_eq_of_computeExpectedTileValue_eq h
    have hhigh := congrArg (fun x : BitVec 64 => x >>> 62) hxor
    simp only [BitVec.ushiftRight_xor_distrib, ofNat_ushiftRight_eq_zero hoff,
      ofNat_ushiftRight_eq_zero hoff'] at hhigh
    obtain rfl := generation_eq_of_highBits hpos hle hpos' hle' ((BitVec.xor_right_inj _).mp hhigh)
    rw [BitVec.xor_left_inj, BitVec.xor_left_inj] at hxor
    have hnat := congrArg BitVec.toNat hxor
    rw [BitVec.toNat_ofNat, BitVec.toNat_ofNat, Nat.mod_eq_of_lt (by omega),
      Nat.mod_eq_of_lt (by omega)] at hnat
    exact ⟨hnat, rfl⟩
  · rintro ⟨rfl, rfl⟩
    rfl

/-! ## Blocks -/

/-- **The content of a block** that a journaled write fills: it depends on the absolute offset
of the block, the seed and the generation of the block. -/
theorem preWriteJournalFillBuf_block (j : Journal) (gens : ℕ → ℕ) (buf : Buf) {bufLen : ℕ}
    (fileOffset : ℕ) {k i : ℕ} (hi : i < j.journalBlockSize)
    (hlen : k * j.journalBlockSize + i < bufLen) :
    preWriteJournalFillBuf j gens buf bufLen fileOffset (k * j.journalBlockSize + i) =
      tileAt j (fileOffset + k * j.journalBlockSize) (gens k) i := by
  rw [preWriteJournalFillBuf_apply j gens buf fileOffset hlen,
    expectedByte_of_mem (Nat.le_add_right _ _) (by rw [Nat.add_one_mul]; omega),
    Nat.add_sub_cancel_left]

/-- A block of a buffer holds the full content that some journaled write, of whatever size,
has filled for the block at `off` with the generation `g`. -/
def HoldsBlock (j : Journal) (hostIOBuf : Buf) (k off g : ℕ) : Prop :=
  ∃ (gens : ℕ → ℕ) (buf : Buf) (bufLen fileOffset n : ℕ),
    (n + 1) * j.journalBlockSize ≤ bufLen ∧ fileOffset + n * j.journalBlockSize = off ∧
      gens n = g ∧ ∀ i < j.journalBlockSize, hostIOBuf (k * j.journalBlockSize + i) =
        preWriteJournalFillBuf j gens buf bufLen fileOffset (n * j.journalBlockSize + i)

theorem HoldsBlock.eq_tileAt {j : Journal} {hostIOBuf : Buf} {k off g : ℕ}
    (h : HoldsBlock j hostIOBuf k off g) {i : ℕ} (hi : i < j.journalBlockSize) :
    hostIOBuf (k * j.journalBlockSize + i) = tileAt j off g i := by
  obtain ⟨gens, buf, bufLen, fileOffset, n, hlen, rfl, rfl, hbytes⟩ := h
  have hsucc := Nat.add_one_mul n j.journalBlockSize
  rw [hbytes i hi, preWriteJournalFillBuf_block j gens buf fileOffset hi (by omega)]

/-- Blocks of at least eight bytes have the same content only if they have the same value. -/
theorem tileAt_eq_iff {j : Journal} (hsize : 8 ≤ j.journalBlockSize) {off off' g g' : ℕ} :
    (∀ i < j.journalBlockSize, tileAt j off g i = tileAt j off' g' i) ↔
      computeExpectedTileValue (BitVec.ofNat 64 off) j.journalSeed g =
        computeExpectedTileValue (BitVec.ofNat 64 off') j.journalSeed g' := by
  constructor
  · intro h
    refine eq_of_tileByte_eq fun i hi => ?_
    have hbyte := h i (by omega)
    rwa [tileAt, tileAt, Nat.mod_eq_of_lt hi] at hbyte
  · intro h i _
    rw [tileAt, tileAt, h]

/-- The bytes of whole blocks, block by block. -/
theorem forall_blocks_iff {P : ℕ → Prop} {size : ℕ} (hsize : 0 < size) (numBlocks : ℕ) :
    (∀ i < numBlocks * size, P i) ↔ ∀ k < numBlocks, ∀ i < size, P (k * size + i) := by
  constructor
  · intro h k hk i hi
    refine h _ ?_
    have hmul := Nat.mul_le_mul_right size (Nat.succ_le_of_lt hk)
    rw [Nat.succ_mul] at hmul
    omega
  · intro h i hi
    have hrest := h (i / size) ((Nat.div_lt_iff_lt_mul hsize).mpr hi) (i % size)
      (Nat.mod_lt i hsize)
    rwa [Nat.mul_comm, Nat.div_add_mod] at hrest

/-- **The content of a journal block identifies it.**  What a write of any size fills is a
function of offset, seed and generation; and a read of any number of blocks is accepted
exactly if each block holds the content of its own offset and generation. -/
theorem verify_eq_ok_iff_of_holds (j : Journal) (hsize : 8 ≤ j.journalBlockSize) :
    (∀ (gens : ℕ → ℕ) (buf : Buf) (bufLen fileOffset k i : ℕ), i < j.journalBlockSize →
      k * j.journalBlockSize + i < bufLen →
      preWriteJournalFillBuf j gens buf bufLen fileOffset (k * j.journalBlockSize + i) =
        tileByte (computeExpectedTileValue
          (BitVec.ofNat 64 (fileOffset + k * j.journalBlockSize)) j.journalSeed (gens k))
          (i % 8)) ∧
    ∀ (gens : ℕ → ℕ) (hostIOBuf journalVerifyBuf : Buf) (numBlocks fileOffset : ℕ)
      (offs gens' : ℕ → ℕ),
      (∀ k < numBlocks, fileOffset + k * j.journalBlockSize < 2 ^ 62 ∧ offs k < 2 ^ 62 ∧
        1 ≤ gens k ∧ gens k ≤ 3 ∧ 1 ≤ gens' k ∧ gens' k ≤ 3 ∧
        HoldsBlock j hostIOBuf k (offs k) (gens' k)) →
      (postReadJournalVerifyBuf j gens hostIOBuf journalVerifyBuf
          (numBlocks * j.journalBlockSize) fileOffset = .ok () ↔
        ∀ k < numBlocks, fileOffset + k * j.journalBlockSize = offs k ∧ gens k = gens' k) := by
  refine ⟨fun gens buf bufLen fileOffset k i hi hlen =>
    preWriteJournalFillBuf_block j gens buf fileOffset hi hlen,
    fun gens hostIOBuf journalVerifyBuf numBlocks fileOffset offs gens' hblocks => ?_⟩
  rw [postReadJournalVerifyBuf_eq_ok_iff, forall_blocks_iff j.journalBlockSize_pos]
  refine forall₂_congr fun k hk => ?_
  obtain ⟨hoff, hoff', hpos, hle, hpos', hle', hholds⟩ := hblocks k hk
  rw [← computeExpectedTileValue_eq_iff hoff hoff' hpos hle hpos' hle' j.journalSeed,
    ← tileAt_eq_iff hsize]
  refine forall₂_congr fun i hi => ?_
  have hdiv : (k * j.journalBlockSize + i) / j.journalBlockSize = k :=
    Nat.div_eq_of_lt_le (Nat.le_add_right _ _) (by rw [Nat.add_one_mul]; omega)
  rw [BytePasses, hdiv, hholds.eq_tileAt hi,
    expectedByte_of_mem (Nat.le_add_right _ _) (by rw [Nat.add_one_mul]; omega),
    Nat.add_sub_cancel_left, eq_comm]
  exact forall_prop_of_true (Nat.ne_of_gt hpos)

/-- A journal of two blocks of eight bytes. -/
def eightByteJournal : Journal where
  journalBlockSize := 8
  targetOffset := 0
  targetSize := 16
  journalSeed := 7#64
  journalBlockSize_pos := Word64.bytes_pos
  journalBlockSize_lt := Word64.eight_lt_size
  targetOffset_lt := Word64.size_pos
  targetSize_lt := by decide

/-- Both blocks are written with generation 1, and a read that expects generation 2 in the
second block is not accepted. -/
theorem verify_eq_ok_iff_of_holds_twoBlocks :
    postReadJournalVerifyBuf eightByteJournal (fun k => k + 1)
      (preWriteJournalFillBuf eightByteJournal (fun _ => 1) (fun _ => 0#8) 16 0) (fun _ => 0#8)
      (2 * 8) 0 ≠ .ok () := by
  intro hok
  have hblocks := ((verify_eq_ok_iff_of_holds eightByteJournal (by decide)).2 (fun k => k + 1)
    (preWriteJournalFillBuf eightByteJournal (fun _ => 1) (fun _ => 0#8) 16 0) (fun _ => 0#8) 2 0
    (fun k => 0 + k * 8) (fun _ => 1) fun k hk => ?_).mp hok 1 (by decide)
  · exact absurd hblocks.2 (by decide)
  · have hoff : 0 + k * 8 < 2 ^ 62 := by omega
    exact ⟨hoff, hoff, by omega, by omega, le_rfl, by decide, fun _ => 1, fun _ => 0#8, 16, 0, k,
      show (k + 1) * 8 ≤ 16 by omega, rfl, rfl, fun i _ => rfl⟩

end Elbencho
