import Elbencho.Library.PackedCells
import Elbencho.Library.Word64

/-!
# The journal's cells

A journal tracks the blocks of `journalBlockSize` bytes of a target's range
`[targetOffset, targetOffset + targetSize)` with two bits per block, packed into
an mmap'ed file.  The value `0` says that the block's content is not known, the
values `1`, `2`, `3` are content generations.

This module is the bottom of the model.

* `Journal` is the metadata of a journal as its sidecar file stores it.
* `cellLocation`, `loadBlockGen`, `markBlockBusy`, `commitBlockGen` are the cell
  operations on the mapped bytes.  Each of them is a single atomic access, so
  each is one step of the concurrent system built above.
* `syncPages` are the pages `syncRange` passes to `msync`.

The cells are shown to be independent registers although four of them share a
byte, so the system above may treat the mapping as a family of registers.
-/

namespace Elbencho

open PackedCells

/-- The metadata of a journal. -/
structure Journal where
  journalBlockSize : ℕ
  targetOffset : ℕ
  targetSize : ℕ
  journalSeed : BitVec 64
  journalBlockSize_pos : 0 < journalBlockSize
  journalBlockSize_lt : journalBlockSize < Word64.size
  targetOffset_lt : targetOffset < Word64.size
  targetSize_lt : targetSize < Word64.size

/-- The bytes of a journal file, in memory or on disk. -/
abbrev CellMap := ℕ → BitVec 8

namespace Journal

/-! ## Geometry -/

/-- The number of whole or started journal blocks in `len` bytes. -/
def numBlocksOf (j : Journal) (len : ℕ) : ℕ :=
  Word64.sub (Word64.add len j.journalBlockSize) 1 / j.journalBlockSize

/-- `numJournalBlocks`: the number of journal blocks of the target range. -/
def numJournalBlocks (j : Journal) : ℕ := j.numBlocksOf j.targetSize

/-- `mapLength`: the size of the binary journal file. -/
def mapLength (j : Journal) : ℕ := Word64.add (Word64.mul j.numJournalBlocks 2) 7 / 8

/-- `offsetToBlockIndex`: the journal block of an absolute target offset. -/
def offsetToBlockIndex (j : Journal) (absoluteOffset : ℕ) : ℕ :=
  Word64.sub absoluteOffset j.targetOffset / j.journalBlockSize

/-- The absolute target offset of a journal block. -/
def blockOffset (j : Journal) (b : ℕ) : ℕ := j.targetOffset + b * j.journalBlockSize

theorem offsetToBlockIndex_eq {j : Journal} {off : ℕ} (hle : j.targetOffset ≤ off)
    (hlt : off < Word64.size) :
    j.offsetToBlockIndex off = (off - j.targetOffset) / j.journalBlockSize := by
  rw [offsetToBlockIndex, Word64.sub_eq hle hlt]

/-- The block index of an aligned offset leads back to the offset. -/
theorem blockOffset_offsetToBlockIndex {j : Journal} {off : ℕ} (hle : j.targetOffset ≤ off)
    (hlt : off < Word64.size) (halign : j.journalBlockSize ∣ off - j.targetOffset) :
    j.blockOffset (j.offsetToBlockIndex off) = off := by
  rw [offsetToBlockIndex_eq hle hlt, blockOffset, Nat.div_mul_cancel halign]
  omega

/-- The number of blocks of a length in whole blocks, away from the end of the
64-bit range. -/
theorem numBlocksOf_mul_eq {j : Journal} {len : ℕ} (hdvd : j.journalBlockSize ∣ len)
    (hlt : len < 2 ^ 63) : j.numBlocksOf len * j.journalBlockSize = len := by
  obtain ⟨k, rfl⟩ := hdvd
  have hpos := j.journalBlockSize_pos
  have hbs := j.journalBlockSize_lt
  have hsize : Word64.size = 2 ^ 64 := rfl
  rcases Nat.eq_zero_or_pos k with rfl | hk
  · have hadd : Word64.add (j.journalBlockSize * 0) j.journalBlockSize = j.journalBlockSize := by
      rw [Nat.mul_zero, Word64.add_eq (by omega), Nat.zero_add]
    rw [numBlocksOf, hadd, Word64.sub_eq hpos hbs,
      Nat.div_eq_of_lt (by omega : j.journalBlockSize - 1 < j.journalBlockSize), Nat.zero_mul,
      Nat.mul_zero]
  · have hle : j.journalBlockSize ≤ j.journalBlockSize * k := Nat.le_mul_of_pos_right _ hk
    have hadd : Word64.add (j.journalBlockSize * k) j.journalBlockSize =
        j.journalBlockSize * k + j.journalBlockSize := Word64.add_eq (by omega)
    have hdiv : (j.journalBlockSize * k + j.journalBlockSize - 1) / j.journalBlockSize = k := by
      rw [show j.journalBlockSize * k + j.journalBlockSize - 1 =
        (j.journalBlockSize - 1) + j.journalBlockSize * k by omega,
        Nat.add_mul_div_left _ _ hpos, Nat.div_eq_of_lt (by omega), Nat.zero_add]
    rw [numBlocksOf, hadd, Word64.sub_eq (by omega) (by omega), hdiv, Nat.mul_comm]

end Journal

/-! ## Cell access -/

/-- `cellLocation`: the byte, the shift and the mask of a block's cell. -/
def cellLocation (blockIndex : ℕ) : ℕ × ℕ × BitVec 8 :=
  let shift := blockIndex % 4 * 2
  (blockIndex / 4, shift, 0x3#8 <<< shift)

/-- `loadBlockGen`: the generation in a block's cell. -/
def loadBlockGen (map : CellMap) (blockIndex : ℕ) : ℕ :=
  let (byteIdx, shift, mask) := cellLocation blockIndex
  ((map byteIdx &&& mask) >>> shift).toNat

/-- `markBlockBusy`: clear a block's cell to 0. -/
def markBlockBusy (map : CellMap) (blockIndex : ℕ) : CellMap :=
  let (byteIdx, _, mask) := cellLocation blockIndex
  Function.update map byteIdx (map byteIdx &&& ~~~ mask)

/-- `commitBlockGen`: OR the new generation into a block's cell. -/
def commitBlockGen (map : CellMap) (blockIndex newGen : ℕ) : CellMap :=
  let (byteIdx, shift, mask) := cellLocation blockIndex
  Function.update map byteIdx (map byteIdx ||| ((BitVec.ofNat 8 newGen <<< shift) &&& mask))

/-- `nextGen`: the generation a rewrite of a block gets; never 0. -/
def nextGen (prevGen : ℕ) : ℕ := if prevGen = 0 then 1 else prevGen % 3 + 1

theorem nextGen_pos (g : ℕ) : 0 < nextGen g := by
  rw [nextGen]
  split_ifs <;> omega

theorem nextGen_lt (g : ℕ) : nextGen g < 4 := by
  rw [nextGen]
  split_ifs <;> omega

/-- A rewrite of a block with known content gets another generation. -/
theorem nextGen_ne (g : ℕ) : nextGen g ≠ g := by
  rw [nextGen]
  split_ifs <;> omega

/-- The bit position of a cell inside its byte. -/
def cellShift (blockIndex : ℕ) : ℕ := blockIndex % 4 * 2

theorem loadBlockGen_eq (map : CellMap) (b : ℕ) :
    loadBlockGen map b = (readCell 2 (map (b / 4)) (cellShift b)).toNat := rfl

theorem markBlockBusy_eq (map : CellMap) (b : ℕ) :
    markBlockBusy map b =
      Function.update map (b / 4) (clearCell 2 (map (b / 4)) (cellShift b)) := rfl

theorem commitBlockGen_eq (map : CellMap) (b g : ℕ) :
    commitBlockGen map b g =
      Function.update map (b / 4) (orCell 2 (map (b / 4)) (cellShift b) (BitVec.ofNat 8 g)) :=
  rfl

/-- Two blocks that share a byte have disjoint cells. -/
theorem cellShift_disjoint {b b' : ℕ} (hbyte : b' / 4 = b / 4) (hne : b' ≠ b) :
    PackedCells.Disjoint 2 (cellShift b) (cellShift b') := by
  rw [PackedCells.Disjoint, cellShift, cellShift]
  omega

@[simp] theorem loadBlockGen_markBlockBusy_self (map : CellMap) (b : ℕ) :
    loadBlockGen (markBlockBusy map b) b = 0 := by
  rw [loadBlockGen_eq, markBlockBusy_eq, Function.update_self, readCell_clearCell_self]
  rfl

/-- A cleared cell does not disturb the three others in its byte. -/
theorem loadBlockGen_markBlockBusy_of_ne (map : CellMap) {b b' : ℕ} (hne : b' ≠ b) :
    loadBlockGen (markBlockBusy map b) b' = loadBlockGen map b' := by
  rw [loadBlockGen_eq, markBlockBusy_eq, loadBlockGen_eq]
  rcases eq_or_ne (b' / 4) (b / 4) with hbyte | hbyte
  · rw [hbyte, Function.update_self,
      readCell_clearCell_of_disjoint _ (cellShift_disjoint hbyte hne)]
  · rw [Function.update_of_ne hbyte]

/-- A generation OR-ed into a cleared cell is found there. -/
theorem loadBlockGen_commitBlockGen_self {map : CellMap} {b g : ℕ}
    (hclear : loadBlockGen map b = 0) (hg : g < 4) :
    loadBlockGen (commitBlockGen map b g) b = g := by
  have hval : (BitVec.ofNat 8 g).toNat = g := by
    rw [BitVec.toNat_ofNat]
    exact Nat.mod_eq_of_lt (by omega)
  have hzero : readCell 2 (map (b / 4)) (cellShift b) = 0#8 := BitVec.eq_of_toNat_eq hclear
  rw [loadBlockGen_eq, commitBlockGen_eq, Function.update_self,
    readCell_orCell_self hzero (by rw [hval]; exact hg) (by rw [cellShift]; omega), hval]

/-- A committed cell does not disturb the three others in its byte. -/
theorem loadBlockGen_commitBlockGen_of_ne (map : CellMap) {b b' : ℕ} (g : ℕ) (hne : b' ≠ b) :
    loadBlockGen (commitBlockGen map b g) b' = loadBlockGen map b' := by
  rw [loadBlockGen_eq, commitBlockGen_eq, loadBlockGen_eq]
  rcases eq_or_ne (b' / 4) (b / 4) with hbyte | hbyte
  · rw [hbyte, Function.update_self,
      readCell_orCell_of_disjoint _ _ (cellShift_disjoint hbyte hne)]
  · rw [Function.update_of_ne hbyte]

/-! ## Pages of the journal file -/

/-- The pages that `syncRange` passes to `msync` for the cells of the blocks
`[firstBlockIdx, firstBlockIdx + numBlocks)`. -/
def syncPages (pageSize mapLength firstBlockIdx numBlocks : ℕ) : List ℕ :=
  let startByteIdx := firstBlockIdx / 4
  let endByteIdx := min (Word64.add (Word64.add firstBlockIdx numBlocks) 3 / 4) mapLength
  let firstPage := startByteIdx / pageSize
  List.range' firstPage ((endByteIdx + pageSize - 1) / pageSize - firstPage)

/-- The file after one page of the mapping was written to it. -/
def writeBackPage (pageSize : ℕ) (map file : CellMap) (page : ℕ) : CellMap :=
  fun byteIdx => if byteIdx / pageSize = page then map byteIdx else file byteIdx

/-- A page that is written back carries the cells of its bytes and no others. -/
theorem loadBlockGen_writeBackPage (pageSize : ℕ) (map file : CellMap) (page b : ℕ) :
    loadBlockGen (writeBackPage pageSize map file page) b =
      if b / 4 / pageSize = page then loadBlockGen map b else loadBlockGen file b := by
  rw [loadBlockGen_eq, writeBackPage]
  split_ifs <;> rfl

/-- **`syncRange` covers its blocks**: the page of each block's cell is among the
pages it passes to `msync`. -/
theorem mem_syncPages {pageSize mapLength first num b : ℕ} (hpage : 0 < pageSize)
    (hmap : first + num ≤ 4 * mapLength) (hlt : first + num + 3 < Word64.size)
    (hb : first ≤ b ∧ b < first + num) :
    b / 4 / pageSize ∈ syncPages pageSize mapLength first num := by
  have hend : min (Word64.add (Word64.add first num) 3 / 4) mapLength = (first + num + 3) / 4 := by
    rw [Word64.add_eq (by omega : first + num < Word64.size), Word64.add_eq hlt]
    exact min_eq_left (by omega)
  have hstart : first / 4 / pageSize ≤ b / 4 / pageSize :=
    Nat.div_le_div_right (Nat.div_le_div_right hb.1)
  have hbyte : b / 4 < (first + num + 3) / 4 := by omega
  have hlast : b / 4 / pageSize < ((first + num + 3) / 4 + pageSize - 1) / pageSize := by
    rw [Nat.lt_div_iff_mul_lt hpage]
    have hle := Nat.div_mul_le_self (b / 4) pageSize
    rw [Nat.mul_comm] at hle ⊢
    omega
  rw [syncPages, hend]
  simp only [List.mem_range', Nat.one_mul]
  exact ⟨b / 4 / pageSize - first / 4 / pageSize, by omega, by omega⟩

end Elbencho
