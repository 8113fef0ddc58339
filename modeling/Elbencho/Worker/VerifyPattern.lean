import Elbencho.Journal.Tile

/-!
# The pattern of `--verify`

With `--verify` a worker fills its buffer before a write with 64-bit checksums, the sum of the
file offset and a salt, and compares its buffer with them after a read.  Neither the offset
nor the length of an I/O has to be a multiple of eight, so the fill loop copies a part of a
checksum at the start and at the end of the buffer.

`patternByte` is the byte for a position of the file.  `fillLoop_apply` shows that the loop
puts it there, whatever the I/O is, and so what was written with I/Os of some sizes can be
verified with I/Os of any other sizes: `verifyPattern_sound`.
-/

namespace Elbencho
namespace IntegrityCheck

/-! ## Filling a buffer -/

/-- `sizeof(uint64_t)`. -/
def checkSumLen : ℕ := 8

/-- `memcpy` of some bytes of a word to a position of the buffer. -/
def copyWord (buf : Buf) (start : ℕ) (word : BitVec 64) (wordIdx len : ℕ) : Buf :=
  fun x => if start ≤ x ∧ x < start + len then tileByte word (wordIdx + (x - start)) else buf x

/-- The loop of `preWriteIntegrityCheckFillBuf`.  The number of rounds left is explicit; every
round copies at least one byte, so `bufLen` rounds are enough. -/
def fillLoop (checkSumSalt : BitVec 64) : ℕ → ℕ → ℕ → ℕ → Buf → Buf
  | 0, _, _, _, hostIOBuf => hostIOBuf
  | rounds + 1, numBytesDone, numBytesLeft, currentOffset, hostIOBuf =>
    if numBytesLeft ≠ 0 then
      let checkSumStartOffset := currentOffset - currentOffset % checkSumLen
      let checkSum := BitVec.ofNat 64 checkSumStartOffset + checkSumSalt
      let checkSumArrayStartIdx := currentOffset - checkSumStartOffset
      let checkSumCopyLen := min numBytesLeft (checkSumLen - checkSumArrayStartIdx)
      fillLoop checkSumSalt rounds (numBytesDone + checkSumCopyLen)
        (numBytesLeft - checkSumCopyLen) (Word64.add currentOffset checkSumCopyLen)
        (copyWord hostIOBuf numBytesDone checkSum checkSumArrayStartIdx checkSumCopyLen)
    else hostIOBuf

/-- `preWriteIntegrityCheckFillBuf`. -/
def preWriteIntegrityCheckFillBuf (checkSumSalt : BitVec 64) (hostIOBuf : Buf)
    (bufLen fileOffset : ℕ) : Buf :=
  fillLoop checkSumSalt bufLen 0 bufLen fileOffset hostIOBuf

/-- The byte for a position of the file: one of the bytes of the checksum for the eight bytes
around it. -/
def patternByte (checkSumSalt : BitVec 64) (p : ℕ) : BitVec 8 :=
  tileByte (BitVec.ofNat 64 (p - p % 8) + checkSumSalt) (p % 8)

/-- A copy of one round has the bytes for its positions. -/
theorem patternByte_add (salt : BitVec 64) {off d : ℕ} (hd : off % 8 + d < 8) :
    patternByte salt (off + d) =
      tileByte (BitVec.ofNat 64 (off - off % 8) + salt) (off % 8 + d) := by
  have hmod : (off + d) % 8 = off % 8 + d := by omega
  have hstart : off + d - (off % 8 + d) = off - off % 8 := by omega
  rw [patternByte, hmod, hstart]

/-- **What the fill loop leaves in the buffer**, from any round on. -/
theorem fillLoop_apply (salt : BitVec 64) (rounds numBytesDone numBytesLeft off : ℕ) (buf : Buf)
    (x : ℕ) (hrounds : numBytesLeft ≤ rounds) (hfits : off + numBytesLeft ≤ 2 ^ 63) :
    fillLoop salt rounds numBytesDone numBytesLeft off buf x =
      if numBytesDone ≤ x ∧ x < numBytesDone + numBytesLeft then
        patternByte salt (off + (x - numBytesDone))
      else buf x := by
  induction rounds generalizing numBytesDone numBytesLeft off buf with
  | zero =>
    rw [if_neg (by omega)]
    rfl
  | succ rounds ih =>
    rw [fillLoop]
    by_cases hleft : numBytesLeft = 0
    · rw [if_neg (not_not.mpr hleft), if_neg (by omega)]
    · have hidx : off - (off - off % 8) = off % 8 := by
        have hle := Nat.mod_le off 8
        omega
      have hmod : off % 8 < 8 := Nat.mod_lt off (by decide)
      have hword : Word64.size = 2 ^ 64 := rfl
      rw [if_pos hleft]
      simp only [checkSumLen, hidx]
      generalize hcopy : min numBytesLeft (8 - off % 8) = copyLen
      rw [Word64.add_eq (by omega), ih (numBytesDone + copyLen) (numBytesLeft - copyLen)
        (off + copyLen) _ (by omega) (by omega), copyWord]
      -- the byte is of a later round, of this one, or of neither
      by_cases hlater : numBytesDone + copyLen ≤ x ∧
          x < numBytesDone + copyLen + (numBytesLeft - copyLen)
      · rw [if_pos hlater, if_pos (by omega)]
        congr 1
        omega
      · rw [if_neg hlater]
        by_cases hhere : numBytesDone ≤ x ∧ x < numBytesDone + copyLen
        · rw [if_pos hhere, if_pos (by omega), patternByte_add salt (by omega)]
        · rw [if_neg hhere, if_neg (by omega)]

/-- **The byte that a write fills for a position of the file.** -/
theorem preWriteIntegrityCheckFillBuf_apply (salt : BitVec 64) (buf : Buf) {bufLen off : ℕ}
    (hfits : off + bufLen ≤ 2 ^ 63) {i : ℕ} (hi : i < bufLen) :
    preWriteIntegrityCheckFillBuf salt buf bufLen off i = patternByte salt (off + i) := by
  rw [preWriteIntegrityCheckFillBuf, fillLoop_apply salt _ _ _ _ buf i le_rfl hfits,
    if_pos (by omega), Nat.sub_zero]

/-! ## Verifying a buffer -/

/-- The text of the exception for a mismatching byte. -/
def verifyErrorMsg (offset : ℕ) (expectedVal actualVal : BitVec 8) : String :=
  "Data verification failed. " ++
  "Offset: " ++ toString offset ++ "; " ++
  "Expected value: " ++ toString expectedVal.toNat ++ "; " ++
  "Actual value: " ++ toString actualVal.toNat

/-- `postReadIntegrityCheckVerifyBuf`, with what `malloc` returns. -/
def postReadIntegrityCheckVerifyBuf (checkSumSalt : BitVec 64) (hostIOBuf mallocBuf : Buf)
    (bufLen fileOffset : ℕ) : Except String Unit :=
  if bufLen = 0 then .ok ()
  else
    let verifyBuf := preWriteIntegrityCheckFillBuf checkSumSalt mallocBuf bufLen fileOffset
    match firstMismatch verifyBuf hostIOBuf 0 bufLen with
    | none => .ok ()
    | some i => .error (verifyErrorMsg (fileOffset + i) (verifyBuf i) (hostIOBuf i))

/-- **When a read is accepted**: exactly when every byte is that of its position. -/
theorem postReadIntegrityCheckVerifyBuf_eq_ok_iff (salt : BitVec 64) (hostIOBuf mallocBuf : Buf)
    {bufLen off : ℕ} (hfits : off + bufLen ≤ 2 ^ 63) :
    postReadIntegrityCheckVerifyBuf salt hostIOBuf mallocBuf bufLen off = .ok () ↔
      ∀ i < bufLen, hostIOBuf i = patternByte salt (off + i) := by
  have hbytes : (∀ i < bufLen, hostIOBuf (0 + i) =
      preWriteIntegrityCheckFillBuf salt mallocBuf bufLen off i) ↔
        ∀ i < bufLen, hostIOBuf i = patternByte salt (off + i) := by
    refine forall₂_congr fun i hi => ?_
    rw [Nat.zero_add, preWriteIntegrityCheckFillBuf_apply salt mallocBuf hfits hi]
  unfold postReadIntegrityCheckVerifyBuf
  split_ifs with hzero
  · exact iff_of_true rfl fun i hi => absurd hi (by omega)
  · rw [← hbytes, ← firstMismatch_eq_none_iff]
    dsimp only
    cases firstMismatch (preWriteIntegrityCheckFillBuf salt mallocBuf bufLen off) hostIOBuf 0
        bufLen with
    | none => exact iff_of_true rfl rfl
    | some i => exact iff_of_false (by simp) (by simp)

/-- A read is rejected exactly when one of its bytes is not that of its position. -/
theorem postReadIntegrityCheckVerifyBuf_eq_error_iff (salt : BitVec 64)
    (hostIOBuf mallocBuf : Buf) {bufLen off : ℕ} (hfits : off + bufLen ≤ 2 ^ 63) :
    (∃ msg, postReadIntegrityCheckVerifyBuf salt hostIOBuf mallocBuf bufLen off = .error msg) ↔
      ∃ i < bufLen, hostIOBuf i ≠ patternByte salt (off + i) := by
  have hok := postReadIntegrityCheckVerifyBuf_eq_ok_iff salt hostIOBuf mallocBuf hfits
  have hsome : (∃ i < bufLen, hostIOBuf i ≠ patternByte salt (off + i)) ↔
      ¬ ∀ i < bufLen, hostIOBuf i = patternByte salt (off + i) := by
    push Not
    rfl
  rw [hsome, ← hok]
  cases postReadIntegrityCheckVerifyBuf salt hostIOBuf mallocBuf bufLen off with
  | ok => exact iff_of_false (by simp) (by simp)
  | error msg => exact iff_of_true ⟨msg, rfl⟩ (by simp)

/-! ## Files -/

/-- A write I/O, with what the buffer holds before it is filled. -/
structure WriteIO where
  offset : ℕ
  size : ℕ
  hostIOBuf : Buf

/-- The bytes of a file after a write of a filled buffer. -/
def writeBlock (salt : BitVec 64) (file : Buf) (w : WriteIO) : Buf := fun x =>
  if w.offset ≤ x ∧ x < w.offset + w.size then
    preWriteIntegrityCheckFillBuf salt w.hostIOBuf w.size w.offset (x - w.offset)
  else file x

/-- The bytes that a read puts into the buffer. -/
def readBlock (file : Buf) (offset : ℕ) : Buf := fun i => file (offset + i)

/-- A write leaves the pattern in the bytes that it covers and the others alone. -/
theorem writeBlock_apply (salt : BitVec 64) (file : Buf) {w : WriteIO}
    (hfits : w.offset + w.size ≤ 2 ^ 63) (x : ℕ) :
    writeBlock salt file w x =
      if w.offset ≤ x ∧ x < w.offset + w.size then patternByte salt x else file x := by
  unfold writeBlock
  split_ifs with hcovers
  · rw [preWriteIntegrityCheckFillBuf_apply salt w.hostIOBuf hfits (by omega),
      Nat.add_sub_cancel' hcovers.1]
  · rfl

/-- **What was written is the pattern**, after writes of whatever offsets and sizes, in
whatever order. -/
theorem foldl_writeBlock_apply (salt : BitVec 64) (writes : List WriteIO) (file : Buf)
    (hfits : ∀ w ∈ writes, w.offset + w.size ≤ 2 ^ 63) {x : ℕ}
    (hx : file x = patternByte salt x ∨ ∃ w ∈ writes, w.offset ≤ x ∧ x < w.offset + w.size) :
    writes.foldl (writeBlock salt) file x = patternByte salt x := by
  induction writes generalizing file with
  | nil =>
    rcases hx with hx | ⟨w, hw, -⟩
    · exact hx
    · exact absurd hw List.not_mem_nil
  | cons w writes ih =>
    refine ih (writeBlock salt file w) (fun w' hw' => hfits w' (List.mem_cons_of_mem w hw')) ?_
    rw [writeBlock_apply salt file (hfits w List.mem_cons_self)]
    by_cases hhere : w.offset ≤ x ∧ x < w.offset + w.size
    · exact Or.inl (if_pos hhere)
    · rw [if_neg hhere]
      rcases hx with hx | ⟨w', hw', hcovers⟩
      · exact Or.inl hx
      · rcases List.mem_cons.mp hw' with rfl | hmem
        · exact absurd hcovers hhere
        · exact Or.inr ⟨w', hmem, hcovers⟩

/-- **The pattern does not depend on the I/O sizes.**  The byte that is filled is a function of
salt and position; every read of bytes that were written is accepted, whatever the writes were;
and a read is rejected exactly when one of its bytes is not that of its position. -/
theorem verifyPattern_sound (salt : BitVec 64) :
    (∀ (buf : Buf) (bufLen off i : ℕ), off + bufLen ≤ 2 ^ 63 → i < bufLen →
      preWriteIntegrityCheckFillBuf salt buf bufLen off i = patternByte salt (off + i)) ∧
    (∀ (writes : List WriteIO) (file mallocBuf : Buf) (bufLen off : ℕ),
      (∀ w ∈ writes, w.offset + w.size ≤ 2 ^ 63) → off + bufLen ≤ 2 ^ 63 →
      (∀ x, off ≤ x → x < off + bufLen → ∃ w ∈ writes, w.offset ≤ x ∧ x < w.offset + w.size) →
      postReadIntegrityCheckVerifyBuf salt (readBlock (writes.foldl (writeBlock salt) file) off)
        mallocBuf bufLen off = .ok ()) ∧
    ∀ (hostIOBuf mallocBuf : Buf) (bufLen off : ℕ), off + bufLen ≤ 2 ^ 63 →
      ((∃ msg, postReadIntegrityCheckVerifyBuf salt hostIOBuf mallocBuf bufLen off =
          .error msg) ↔
        ∃ i < bufLen, hostIOBuf i ≠ patternByte salt (off + i)) := by
  refine ⟨fun buf bufLen off i hfits hi => preWriteIntegrityCheckFillBuf_apply salt buf hfits hi,
    fun writes file mallocBuf bufLen off hwrites hfits hcovers => ?_,
    fun hostIOBuf mallocBuf bufLen off hfits =>
      postReadIntegrityCheckVerifyBuf_eq_error_iff salt hostIOBuf mallocBuf hfits⟩
  rw [postReadIntegrityCheckVerifyBuf_eq_ok_iff salt _ mallocBuf hfits]
  intro i hi
  exact foldl_writeBlock_apply salt writes file hwrites
    (Or.inr (hcovers (off + i) (by omega) (by omega)))

/-- Two unaligned writes of 3 and 9 bytes, verified by a read of 10 bytes. -/
theorem verifyPattern_sound_unaligned :
    postReadIntegrityCheckVerifyBuf 5#64
      (readBlock ([⟨1, 3, fun _ => 0#8⟩, ⟨4, 9, fun _ => 1#8⟩].foldl (writeBlock 5#64)
        fun _ => 0#8) 2)
      (fun _ => 0#8) 10 2 = .ok () := by
  refine (verifyPattern_sound 5#64).2.1 _ _ _ 10 2 (fun w hw => ?_) (by decide)
    fun x hx hx' => ?_
  · rcases List.mem_pair.mp hw with rfl | rfl
    · decide
    · decide
  · rcases Nat.lt_or_ge x 4 with hlt | hge
    · exact ⟨_, List.mem_cons_self, show 1 ≤ x by omega, show x < 1 + 3 by omega⟩
    · exact ⟨_, List.mem_cons_of_mem _ List.mem_cons_self, hge, show x < 4 + 9 by omega⟩

end IntegrityCheck
end Elbencho
