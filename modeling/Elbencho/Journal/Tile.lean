import Elbencho.Journal.Cells
import Mathlib.Tactic.Ring

/-!
# The content a journal expects

A generation of a journal block stands for a fixed content: an 8-byte value
computed from the block's absolute offset, the journal's seed and the generation
(`computeExpectedTileValue`), repeated over the block.  A worker fills its buffer
with it before a write (`preWriteJournalFillBuf`) and compares its buffer with it
after a read (`postReadJournalVerifyBuf`); both walk over the buffer one journal
block at a time.

* `preWriteJournalFillBuf_apply` and `postReadJournalVerifyBuf_eq_ok_iff` say what
  the two loops do, byte by byte, for every buffer length.
* `computeExpectedTileValue_injective` says that two generations of one block
  never share a content: the mixing steps are all invertible.
-/

namespace Elbencho

open Journal

/-- A byte buffer, read and written by index. -/
abbrev Buf := ℕ → BitVec 8

/-! ## The tile value -/

/-- `x ^= x >> 33`. -/
def xorShift33 (x : BitVec 64) : BitVec 64 := x ^^^ (x >>> 33)

/-- `computeExpectedTileValue`. -/
def computeExpectedTileValue (blockAlignedOffset journalSeed : BitVec 64) (generation : ℕ) :
    BitVec 64 :=
  let x := blockAlignedOffset ^^^ (journalSeed * 0x9E3779B97F4A7C15#64) ^^^
    (BitVec.ofNat 64 generation * 0xBF58476D1CE4E5B9#64)
  let x := xorShift33 x * 0xFF51AFD7ED558CCD#64
  let x := xorShift33 x * 0xC4CEB9FE1A85EC53#64
  xorShift33 x

/-- The shift by 33 of a word mixed once is the shift of the word itself, so
mixing twice gives the word back. -/
theorem xorShift33_involutive (x : BitVec 64) : xorShift33 (xorShift33 x) = x := by
  have hshift : (x >>> 33) >>> 33 = 0#64 := by
    rw [← BitVec.shiftRight_add]
    refine BitVec.eq_of_getLsbD_eq fun i hi => ?_
    rw [BitVec.getLsbD_ushiftRight, BitVec.getLsbD_zero]
    exact BitVec.getLsbD_of_ge x _ (by omega)
  have hmixed : xorShift33 x >>> 33 = x >>> 33 := by
    rw [xorShift33, BitVec.ushiftRight_xor_distrib, hshift, BitVec.xor_zero]
  rw [xorShift33, hmixed, xorShift33, BitVec.xor_assoc, BitVec.xor_self, BitVec.xor_zero]

theorem xorShift33_injective : Function.Injective xorShift33 :=
  Function.LeftInverse.injective xorShift33_involutive

/-- Multiplying by a unit is injective. -/
theorem mul_injective_of_inverse {k k' : BitVec 64} (hinv : k * k' = 1#64) :
    Function.Injective fun x : BitVec 64 => x * k := by
  intro x y hxy
  have hmul : x * k * k' = y * k * k' := congrArg (· * k') hxy
  rwa [BitVec.mul_assoc, BitVec.mul_assoc, hinv, BitVec.mul_one, BitVec.mul_one] at hmul

/-- **The mixing is injective**: blocks with the same tile value have the same input of it. -/
theorem xor_eq_of_computeExpectedTileValue_eq {off off' seed : BitVec 64} {g g' : ℕ}
    (h : computeExpectedTileValue off seed g = computeExpectedTileValue off' seed g') :
    off ^^^ (seed * 0x9E3779B97F4A7C15#64) ^^^ (BitVec.ofNat 64 g * 0xBF58476D1CE4E5B9#64) =
      off' ^^^ (seed * 0x9E3779B97F4A7C15#64) ^^^
        (BitVec.ofNat 64 g' * 0xBF58476D1CE4E5B9#64) := by
  have h₁ := mul_injective_of_inverse
    (by decide : 0xC4CEB9FE1A85EC53#64 * 0x9CB4B2F8129337DB#64 = 1#64) (xorShift33_injective h)
  have h₂ := mul_injective_of_inverse
    (by decide : 0xFF51AFD7ED558CCD#64 * 0x4F74430C22A54005#64 = 1#64) (xorShift33_injective h₁)
  exact xorShift33_injective h₂

/-- **Two generations of one block have different tile values.** -/
theorem computeExpectedTileValue_injective (off seed : BitVec 64) {g g' : ℕ}
    (hg : g < 256) (hg' : g' < 256)
    (h : computeExpectedTileValue off seed g = computeExpectedTileValue off seed g') :
    g = g' := by
  have h₃ := (BitVec.xor_right_inj _).mp (xor_eq_of_computeExpectedTileValue_eq h)
  have h₄ := mul_injective_of_inverse
    (by decide : 0xBF58476D1CE4E5B9#64 * 0x96DE1B173F119089#64 = 1#64) h₃
  have h₅ := congrArg BitVec.toNat h₄
  rwa [BitVec.toNat_ofNat, BitVec.toNat_ofNat, Nat.mod_eq_of_lt (by omega),
    Nat.mod_eq_of_lt (by omega)] at h₅

/-! ## Tiling a buffer -/

/-- The byte of a value at a memory address, lowest byte first. -/
def tileByte (tileValue : BitVec 64) (i : ℕ) : BitVec 8 :=
  (tileValue >>> (8 * i)).setWidth 8

/-- The eight bytes of a value determine it. -/
theorem eq_of_tileByte_eq {v v' : BitVec 64} (h : ∀ i < 8, tileByte v i = tileByte v' i) :
    v = v' := by
  refine BitVec.eq_of_getLsbD_eq fun i hi => ?_
  have hbit := congrArg (fun b : BitVec 8 => b.getLsbD (i % 8)) (h (i / 8) (by omega))
  have hmod : i % 8 < 8 := Nat.mod_lt i (by decide)
  have hsum : 8 * (i / 8) + i % 8 = i := Nat.div_add_mod i 8
  simpa only [tileByte, BitVec.getLsbD_setWidth, BitVec.getLsbD_ushiftRight, hmod, hsum,
    decide_true, Bool.true_and] using hbit

/-- `journalFillTileBlock`: repeat the tile of one journal block over `len` bytes
of the buffer from `start` on. -/
def journalFillTileBlock (buf : Buf) (start len : ℕ) (blockAlignedOffset : ℕ)
    (journalSeed : BitVec 64) (generation : ℕ) : Buf :=
  let tileValue := computeExpectedTileValue (BitVec.ofNat 64 blockAlignedOffset) journalSeed
    generation
  (List.range len).foldl
    (fun buf i => Function.update buf (start + i) (tileByte tileValue (i % 8))) buf

/-- The byte that a journal block of the given generation holds at an inner
position. -/
def tileAt (j : Journal) (blockAlignedOffset generation i : ℕ) : BitVec 8 :=
  tileByte (computeExpectedTileValue (BitVec.ofNat 64 blockAlignedOffset) j.journalSeed
    generation) (i % 8)

/-- The loop of `journalFillTileBlock`, byte by byte. -/
theorem journalFillTileBlock_apply (buf : Buf) (start len : ℕ) (j : Journal)
    (off g x : ℕ) :
    journalFillTileBlock buf start len off j.journalSeed g x =
      if start ≤ x ∧ x < start + len then tileAt j off g (x - start) else buf x := by
  induction len with
  | zero =>
    rw [if_neg (by omega)]
    rfl
  | succ len ih =>
    rw [journalFillTileBlock, List.range_succ, List.foldl_append]
    simp only [List.foldl_cons, List.foldl_nil]
    rcases eq_or_ne x (start + len) with rfl | hne
    · rw [Function.update_self, if_pos (by omega), Nat.add_sub_cancel_left]
      rfl
    · rw [Function.update_of_ne hne]
      refine ih.trans (if_congr ?_ rfl rfl)
      omega

/-- The loop of `preWriteJournalFillBuf`: one journal block of the buffer per
round.  The number of rounds left is explicit; every round handles at least one
byte, so `bufLen` rounds are enough. -/
def fillLoop (j : Journal) (gens : ℕ → ℕ) (fileOffset bufLen : ℕ) : ℕ → ℕ → Buf → Buf
  | 0, _, buf => buf
  | rounds + 1, numBytesDone, buf =>
    if numBytesDone < bufLen then
      let subBlockIdx := numBytesDone / j.journalBlockSize
      let subBlockCopyLen := min (bufLen - numBytesDone) j.journalBlockSize
      fillLoop j gens fileOffset bufLen rounds (numBytesDone + subBlockCopyLen)
        (journalFillTileBlock buf numBytesDone subBlockCopyLen (fileOffset + numBytesDone)
          j.journalSeed (gens subBlockIdx))
    else buf

/-- `preWriteJournalFillBuf`, for an I/O that the journal admitted as a write. -/
def preWriteJournalFillBuf (j : Journal) (gens : ℕ → ℕ) (hostIOBuf : Buf)
    (bufLen fileOffset : ℕ) : Buf :=
  fillLoop j gens fileOffset bufLen bufLen 0 hostIOBuf

/-- The byte the journal expects at position `i` of a buffer for `fileOffset`. -/
def expectedByte (j : Journal) (gens : ℕ → ℕ) (fileOffset i : ℕ) : BitVec 8 :=
  tileAt j (fileOffset + i / j.journalBlockSize * j.journalBlockSize)
    (gens (i / j.journalBlockSize)) (i % j.journalBlockSize)

/-- Inside the sub-block that starts at a multiple `k` of the block size, the
expected byte is that of sub-block `k`. -/
theorem expectedByte_of_mem {j : Journal} {gens : ℕ → ℕ} {fileOffset k i : ℕ}
    (hle : k * j.journalBlockSize ≤ i) (hlt : i < (k + 1) * j.journalBlockSize) :
    expectedByte j gens fileOffset i =
      tileAt j (fileOffset + k * j.journalBlockSize) (gens k) (i - k * j.journalBlockSize) := by
  have hdiv : i / j.journalBlockSize = k := Nat.div_eq_of_lt_le hle hlt
  have hmod : i % j.journalBlockSize = i - k * j.journalBlockSize := by
    rw [Nat.mod_eq_sub_div_mul, hdiv]
  rw [expectedByte, hdiv, hmod]

/-- What the loop of `preWriteJournalFillBuf` leaves in the buffer when it starts
at sub-block `k`. -/
theorem fillLoop_apply (j : Journal) (gens : ℕ → ℕ) (fileOffset bufLen : ℕ) :
    ∀ (rounds k : ℕ) (buf : Buf) (x : ℕ), bufLen ≤ k * j.journalBlockSize + rounds →
      fillLoop j gens fileOffset bufLen rounds (min (k * j.journalBlockSize) bufLen) buf x =
        if k * j.journalBlockSize ≤ x ∧ x < bufLen then expectedByte j gens fileOffset x
        else buf x
  | 0, k, buf, x, hr => by
    rw [fillLoop, if_neg (by omega)]
  | rounds + 1, k, buf, x, hr => by
    have hpos := j.journalBlockSize_pos
    rw [fillLoop]
    rcases lt_or_ge (k * j.journalBlockSize) bufLen with hlt | hge
    · have hsucc : (k + 1) * j.journalBlockSize = k * j.journalBlockSize + j.journalBlockSize := by
        ring
      have hnext : k * j.journalBlockSize +
          min (bufLen - k * j.journalBlockSize) j.journalBlockSize =
          min ((k + 1) * j.journalBlockSize) bufLen := by omega
      rw [min_eq_left hlt.le, if_pos hlt, Nat.mul_div_cancel _ hpos, hnext]
      rw [fillLoop_apply j gens fileOffset bufLen rounds (k + 1) _ x (by omega)]
      rw [journalFillTileBlock_apply]
      -- the byte is in a later sub-block, in sub-block `k`, or in neither
      by_cases hlater : (k + 1) * j.journalBlockSize ≤ x ∧ x < bufLen
      · rw [if_pos hlater, if_pos ⟨by omega, hlater.2⟩]
      · rw [if_neg hlater]
        by_cases hhere : k * j.journalBlockSize ≤ x ∧ x < bufLen
        · rw [if_pos hhere, if_pos (by omega), expectedByte_of_mem hhere.1 (by omega)]
        · rw [if_neg hhere, if_neg (by omega)]
    · rw [min_eq_right hge, if_neg (by omega), if_neg (by omega)]

/-- **What a journaled write puts into its buffer**: the expected content of each
covered block, whatever the buffer held before. -/
theorem preWriteJournalFillBuf_apply (j : Journal) (gens : ℕ → ℕ) (buf : Buf)
    {bufLen : ℕ} (fileOffset : ℕ) {i : ℕ} (hi : i < bufLen) :
    preWriteJournalFillBuf j gens buf bufLen fileOffset i = expectedByte j gens fileOffset i := by
  have h := fillLoop_apply j gens fileOffset bufLen bufLen 0 buf i (by omega)
  rw [Nat.zero_mul, Nat.zero_min] at h
  rw [preWriteJournalFillBuf, h, if_pos ⟨Nat.zero_le i, hi⟩]

/-! ## Verifying a buffer -/

/-- The text of the exception for a mismatching byte. -/
def verifyErrorMsg (offset : ℕ) (expected actual : BitVec 8) : String :=
  "Journal data verification failed. " ++
  "Offset: " ++ toString offset ++ "; " ++
  "Expected value: " ++ toString expected.toNat ++ "; " ++
  "Actual value: " ++ toString actual.toNat

/-- The first position at which the two buffers differ: `memcmp` followed by the
search for the exact mismatch offset. -/
def firstMismatch (journalVerifyBuf hostIOBuf : Buf) (numBytesDone len : ℕ) : Option ℕ :=
  (List.range len).find? fun i => journalVerifyBuf i != hostIOBuf (numBytesDone + i)

/-- The loop of `postReadJournalVerifyBuf`: one journal block of the buffer per
round, blocks of generation 0 accepted unseen. -/
def verifyLoop (j : Journal) (gens : ℕ → ℕ) (hostIOBuf : Buf) (fileOffset bufLen : ℕ) :
    ℕ → ℕ → Buf → Except String Unit
  | 0, _, _ => .ok ()
  | rounds + 1, numBytesDone, journalVerifyBuf =>
    if numBytesDone < bufLen then
      let subBlockIdx := numBytesDone / j.journalBlockSize
      let subBlockCopyLen := min (bufLen - numBytesDone) j.journalBlockSize
      let generation := gens subBlockIdx
      if generation = 0 then
        verifyLoop j gens hostIOBuf fileOffset bufLen rounds (numBytesDone + subBlockCopyLen)
          journalVerifyBuf
      else
        let verifyBuf := journalFillTileBlock journalVerifyBuf 0 subBlockCopyLen
          (fileOffset + numBytesDone) j.journalSeed generation
        match firstMismatch verifyBuf hostIOBuf numBytesDone subBlockCopyLen with
        | some i => .error (verifyErrorMsg (fileOffset + numBytesDone + i) (verifyBuf i)
            (hostIOBuf (numBytesDone + i)))
        | none => verifyLoop j gens hostIOBuf fileOffset bufLen rounds
            (numBytesDone + subBlockCopyLen) verifyBuf
    else .ok ()

/-- `postReadJournalVerifyBuf`, for an I/O that the journal admitted as a read. -/
def postReadJournalVerifyBuf (j : Journal) (gens : ℕ → ℕ) (hostIOBuf journalVerifyBuf : Buf)
    (bufLen fileOffset : ℕ) : Except String Unit :=
  verifyLoop j gens hostIOBuf fileOffset bufLen bufLen 0 journalVerifyBuf

/-- The byte at position `i` passes: its block has no generation, or it is the
expected one. -/
def BytePasses (j : Journal) (gens : ℕ → ℕ) (hostIOBuf : Buf) (fileOffset i : ℕ) : Prop :=
  gens (i / j.journalBlockSize) ≠ 0 → hostIOBuf i = expectedByte j gens fileOffset i

theorem firstMismatch_eq_none_iff (verifyBuf hostIOBuf : Buf) (done len : ℕ) :
    firstMismatch verifyBuf hostIOBuf done len = none ↔
      ∀ i < len, hostIOBuf (done + i) = verifyBuf i := by
  rw [firstMismatch, List.find?_eq_none]
  simp only [List.mem_range, bne_iff_ne, ne_eq, not_not]
  exact forall₂_congr fun i _ => eq_comm

/-- The comparison of sub-block `k` finds nothing exactly when its bytes pass. -/
theorem firstMismatch_fill_eq_none_iff (j : Journal) {gens : ℕ → ℕ} (verifyBuf hostIOBuf : Buf)
    (fileOffset bufLen : ℕ) {k : ℕ} (hgen : gens k ≠ 0) :
    firstMismatch
        (journalFillTileBlock verifyBuf 0 (min (bufLen - k * j.journalBlockSize)
          j.journalBlockSize) (fileOffset + k * j.journalBlockSize) j.journalSeed (gens k))
        hostIOBuf (k * j.journalBlockSize)
        (min (bufLen - k * j.journalBlockSize) j.journalBlockSize) = none ↔
      ∀ i, k * j.journalBlockSize ≤ i → i < bufLen → i < (k + 1) * j.journalBlockSize →
        BytePasses j gens hostIOBuf fileOffset i := by
  have hsucc : (k + 1) * j.journalBlockSize = k * j.journalBlockSize + j.journalBlockSize := by
    ring
  rw [firstMismatch_eq_none_iff]
  constructor
  · intro h i hle hib hin _
    have hi := h (i - k * j.journalBlockSize) (by omega)
    rw [journalFillTileBlock_apply, if_pos (by omega), Nat.sub_zero, Nat.add_sub_cancel' hle] at hi
    rw [hi, expectedByte_of_mem hle hin]
  · intro h i hi
    have hdiv : (k * j.journalBlockSize + i) / j.journalBlockSize = k :=
      Nat.div_eq_of_lt_le (by omega) (by omega)
    have hpass := h (k * j.journalBlockSize + i) (by omega) (by omega) (by omega)
      (by rw [hdiv]; exact hgen)
    rw [hpass, expectedByte_of_mem (k := k) (by omega) (by omega), journalFillTileBlock_apply,
      if_pos (by omega), Nat.add_sub_cancel_left, Nat.sub_zero]

/-- A statement about all positions from sub-block `k` on is one about sub-block
`k` and one about the later ones. -/
theorem forall_from_block_iff {P : ℕ → Prop} (j : Journal) (k bufLen : ℕ) :
    (∀ i, k * j.journalBlockSize ≤ i → i < bufLen → P i) ↔
      (∀ i, k * j.journalBlockSize ≤ i → i < bufLen → i < (k + 1) * j.journalBlockSize → P i) ∧
      (∀ i, (k + 1) * j.journalBlockSize ≤ i → i < bufLen → P i) := by
  have hsucc : (k + 1) * j.journalBlockSize = k * j.journalBlockSize + j.journalBlockSize := by
    ring
  constructor
  · exact fun h => ⟨fun i hle hib _ => h i hle hib, fun i hle hib => h i (by omega) hib⟩
  · rintro ⟨hhere, hlater⟩ i hle hib
    rcases lt_or_ge i ((k + 1) * j.journalBlockSize) with hin | hout
    · exact hhere i hle hib hin
    · exact hlater i hout hib

/-- The loop of `postReadJournalVerifyBuf` started at sub-block `k` returns exactly
when every byte from there on passes. -/
theorem verifyLoop_eq_ok_iff (j : Journal) (gens : ℕ → ℕ) (hostIOBuf : Buf)
    (fileOffset bufLen : ℕ) :
    ∀ (rounds k : ℕ) (verifyBuf : Buf), bufLen ≤ k * j.journalBlockSize + rounds →
      (verifyLoop j gens hostIOBuf fileOffset bufLen rounds (min (k * j.journalBlockSize) bufLen)
          verifyBuf = .ok () ↔
        ∀ i, k * j.journalBlockSize ≤ i → i < bufLen →
          BytePasses j gens hostIOBuf fileOffset i)
  | 0, k, verifyBuf, hr => by
    rw [verifyLoop]
    exact iff_of_true rfl fun i hle hlt => absurd hlt (by omega)
  | rounds + 1, k, verifyBuf, hr => by
    have hpos := j.journalBlockSize_pos
    rw [verifyLoop]
    rcases lt_or_ge (k * j.journalBlockSize) bufLen with hlt | hge
    · have hsucc : (k + 1) * j.journalBlockSize = k * j.journalBlockSize + j.journalBlockSize := by
        ring
      have hnext : k * j.journalBlockSize +
          min (bufLen - k * j.journalBlockSize) j.journalBlockSize =
          min ((k + 1) * j.journalBlockSize) bufLen := by omega
      have hlater := fun verifyBuf' =>
        verifyLoop_eq_ok_iff j gens hostIOBuf fileOffset bufLen rounds (k + 1) verifyBuf' (by omega)
      rw [min_eq_left hlt.le, if_pos hlt, Nat.mul_div_cancel _ hpos, forall_from_block_iff]
      dsimp only
      rw [hnext]
      by_cases hgen : gens k = 0
      · -- an uninitialized block is accepted as it is
        rw [if_pos hgen, hlater]
        refine (and_iff_right ?_).symm
        intro i hle _ hin hne
        rw [Nat.div_eq_of_lt_le hle hin] at hne
        exact absurd hgen hne
      · rw [if_neg hgen]
        have hblock := firstMismatch_fill_eq_none_iff j verifyBuf hostIOBuf fileOffset bufLen hgen
        split
        · next i hmis =>
          refine iff_of_false (by simp) fun h => ?_
          rw [hblock.mpr h.1] at hmis
          exact absurd hmis (by simp)
        · next hnone =>
          rw [hlater]
          exact (and_iff_right (hblock.mp hnone)).symm
    · rw [min_eq_right hge, if_neg (by omega)]
      exact iff_of_true rfl fun i hle hlt => absurd hlt (by omega)

/-- **When a journaled read is accepted**: exactly when every byte of a block with
a generation is the expected one. -/
theorem postReadJournalVerifyBuf_eq_ok_iff (j : Journal) (gens : ℕ → ℕ)
    (hostIOBuf journalVerifyBuf : Buf) (bufLen fileOffset : ℕ) :
    postReadJournalVerifyBuf j gens hostIOBuf journalVerifyBuf bufLen fileOffset = .ok () ↔
      ∀ i < bufLen, BytePasses j gens hostIOBuf fileOffset i := by
  have h := verifyLoop_eq_ok_iff j gens hostIOBuf fileOffset bufLen bufLen 0 journalVerifyBuf
    (by omega)
  rw [Nat.zero_mul, Nat.zero_min] at h
  rw [postReadJournalVerifyBuf, h]
  exact ⟨fun h i hi => h i (Nat.zero_le i) hi, fun h i _ hi => h i hi⟩

end Elbencho
