import Mathlib.Algebra.Order.Field.Basic
import Mathlib.Algebra.Order.Ring.Rat
import Mathlib.Tactic.IntervalCases
import Elbencho.Journal.CellOps
import Elbencho.Library.CellFlags

/-!
# The number of verifiable blocks

When a journal is opened, `getVerifiablePercent` reports how many of its blocks have a known
content.  It counts the cells that are not 0, first in words of eight bytes and then in the bytes
that are left, and it looks at the whole mapping: the cells behind the last block are counted too,
because nothing ever sets them.

* `numVerifiable_eq`: the two loops count the cells of the mapping, for either byte order.
* `loadBlockGen_runOps_eq_zero`: a cell that no operation addresses stays 0.
* `numVerifiable_eq_count_iff` is the comparison with the plain count over the blocks.  They agree
  for every content of the cells unless the length of the mapping wraps around.
-/

namespace Elbencho

open PackedCells

/-! ## Words of bytes -/

/-- The byte order of a machine. -/
inductive ByteOrder where
  | little
  | big
  deriving DecidableEq

/-- The place in memory of a byte of a word, from the lowest byte on. -/
def ByteOrder.place : ByteOrder → ℕ → ℕ
  | little, i => i
  | big, i => 7 - i

/-- `memcpy` of eight bytes to a word. -/
def wordAt (order : ByteOrder) (map : CellMap) (byteIdx : ℕ) : BitVec 64 :=
  let byte := fun i => map (byteIdx + order.place i)
  byte 7 ++ byte 6 ++ byte 5 ++ byte 4 ++ byte 3 ++ byte 2 ++ byte 1 ++ byte 0

/-! ## The loops -/

/-- The loop over words: the index of the next byte, and the count. -/
def countWords (order : ByteOrder) (map : CellMap) (mapLength byteIdx numVerifiable : ℕ) : ℕ × ℕ :=
  if byteIdx + 8 ≤ mapLength then
    let wordVal := wordAt order map byteIdx
    countWords order map mapLength (byteIdx + 8) (Word64.add numVerifiable
      (popcount ((wordVal ||| (wordVal >>> 1)) &&& 0x5555555555555555#64)))
  else (byteIdx, numVerifiable)
termination_by mapLength - byteIdx

/-- The loop over the bytes that are left.  (A byte is promoted to `int`, which adds bits that are
0.) -/
def countBytes (map : CellMap) (mapLength byteIdx numVerifiable : ℕ) : ℕ :=
  if byteIdx < mapLength then
    let byteVal := map byteIdx
    countBytes map mapLength (byteIdx + 1) (Word64.add numVerifiable
      (popcount ((byteVal ||| (byteVal >>> 1)) &&& 0x55#8)))
  else numVerifiable
termination_by mapLength - byteIdx

namespace Journal

/-- The count of `getVerifiablePercent`. -/
def numVerifiable (j : Journal) (order : ByteOrder) (map : CellMap) : ℕ :=
  let words := countWords order map j.mapLength 0 0
  countBytes map j.mapLength words.1 words.2

/-- `getVerifiablePercent`, with an exact quotient. -/
def getVerifiablePercent (j : Journal) (order : ByteOrder) (map : CellMap) : ℚ :=
  if j.numJournalBlocks = 0 then 0
  else 100 * (j.numVerifiable order map : ℚ) / (j.numJournalBlocks : ℚ)

end Journal

/-! ## What the loops count -/

/-- The block has a known content. -/
def Verifiable (map : CellMap) (b : ℕ) : Prop := loadBlockGen map b ≠ 0

instance (map : CellMap) : DecidablePred (Verifiable map) :=
  fun _ => inferInstanceAs (Decidable (_ ≠ _))

theorem isLowMask_word : IsLowMask 0x5555555555555555#64 := by
  unfold IsLowMask
  decide

theorem isLowMask_byte : IsLowMask 0x55#8 := by
  unfold IsLowMask
  decide

/-- A cell of a byte belongs to a block. -/
theorem verifiable_iff (map : CellMap) (byteIdx : ℕ) {c : ℕ} (hc : c < 4) :
    Verifiable map (4 * byteIdx + c) ↔ readCell 2 (map byteIdx) (2 * c) ≠ 0#8 := by
  have hbyte : (4 * byteIdx + c) / 4 = byteIdx := by omega
  have hshift : cellShift (4 * byteIdx + c) = 2 * c := by
    rw [cellShift]
    omega
  rw [Verifiable, loadBlockGen_eq, hbyte, hshift]
  exact BitVec.toNat_ne_iff_ne (y := 0#8)

/-- The bits of a word are those of its bytes. -/
theorem getLsbD_wordAt (order : ByteOrder) (map : CellMap) (byteIdx : ℕ) {k r : ℕ} (hk : k < 8)
    (hr : r < 8) : (wordAt order map byteIdx).getLsbD (8 * k + r) =
      (map (byteIdx + order.place k)).getLsbD r := by
  unfold wordAt
  simp only [BitVec.getLsbD_append]
  interval_cases k <;> repeat rw [if_neg (by omega)]
  all_goals try rw [if_pos (by omega)]
  all_goals exact congrArg _ (by omega)

/-- A cell of a word is a cell of one of its bytes. -/
theorem readCell_wordAt (order : ByteOrder) (map : CellMap) (byteIdx : ℕ) {k c : ℕ} (hk : k < 8)
    (hc : c < 4) : readCell 2 (wordAt order map byteIdx) (2 * (4 * k + c)) ≠ 0#64 ↔
      Verifiable map (4 * (byteIdx + order.place k) + c) := by
  have hlow : 2 * (4 * k + c) = 8 * k + 2 * c := by omega
  have hhigh : 8 * k + 2 * c + 1 = 8 * k + (2 * c + 1) := by omega
  rw [verifiable_iff map _ hc, readCell_two_ne_zero_iff, readCell_two_ne_zero_iff, hlow, hhigh,
    getLsbD_wordAt order map byteIdx hk (by omega), getLsbD_wordAt order map byteIdx hk (by omega)]

/-- The count of a byte. -/
theorem popcount_byte (map : CellMap) (byteIdx : ℕ) :
    popcount ((map byteIdx ||| (map byteIdx >>> 1)) &&& 0x55#8) =
      Nat.count (fun c => Verifiable map (4 * byteIdx + c)) 4 := by
  have hflags := popcount_cellFlags (m := 4) (x := map byteIdx) isLowMask_byte
  exact hflags.trans (count_congr fun c hc => (verifiable_iff map byteIdx hc).symm)

/-- The byte order does not matter for a sum over the bytes of a word. -/
theorem sum_place (order : ByteOrder) (f : ℕ → ℕ) :
    ∑ k ∈ Finset.range 8, f (order.place k) = ∑ k ∈ Finset.range 8, f k := by
  cases order with
  | little => rfl
  | big => exact Finset.sum_range_reflect f 8

/-- The count of a word. -/
theorem popcount_word (order : ByteOrder) (map : CellMap) (byteIdx : ℕ) :
    popcount ((wordAt order map byteIdx ||| (wordAt order map byteIdx >>> 1)) &&&
      0x5555555555555555#64) = Nat.count (fun c => Verifiable map (4 * byteIdx + c)) (4 * 8) := by
  have hflags := popcount_cellFlags (m := 32) (x := wordAt order map byteIdx) isLowMask_word
  have hbyte : ∀ k ∈ Finset.range 8,
      Nat.count (fun c => readCell 2 (wordAt order map byteIdx) (2 * (4 * k + c)) ≠ 0#64) 4 =
        Nat.count (fun c => Verifiable map (4 * (byteIdx + order.place k) + c)) 4 :=
    fun k hk => count_congr fun c hc =>
      readCell_wordAt order map byteIdx (Finset.mem_range.mp hk) hc
  calc popcount ((wordAt order map byteIdx ||| (wordAt order map byteIdx >>> 1)) &&&
        0x5555555555555555#64)
      = Nat.count (fun c => readCell 2 (wordAt order map byteIdx) (2 * c) ≠ 0#64) (4 * 8) := hflags
    _ = ∑ k ∈ Finset.range 8,
          Nat.count (fun c => Verifiable map (4 * (byteIdx + order.place k) + c)) 4 := by
        rw [count_mul_eq_sum]
        exact Finset.sum_congr rfl hbyte
    _ = ∑ k ∈ Finset.range 8, Nat.count (fun c => Verifiable map (4 * (byteIdx + k) + c)) 4 :=
        sum_place order fun k => Nat.count (fun c => Verifiable map (4 * (byteIdx + k) + c)) 4
    _ = Nat.count (fun c => Verifiable map (4 * byteIdx + c)) (4 * 8) := by
        rw [count_mul_eq_sum]
        refine Finset.sum_congr rfl fun k _ => count_congr fun c _ => ?_
        rw [Nat.mul_add, Nat.add_assoc]

/-- The cells of the first bytes that are not 0. -/
def verifiableBefore (map : CellMap) (byteIdx : ℕ) : ℕ := Nat.count (Verifiable map) (4 * byteIdx)

theorem verifiableBefore_add (map : CellMap) (byteIdx m : ℕ) :
    verifiableBefore map (byteIdx + m) = verifiableBefore map byteIdx +
      Nat.count (fun c => Verifiable map (4 * byteIdx + c)) (4 * m) := by
  rw [verifiableBefore, Nat.mul_add, Nat.count_add]
  rfl

theorem verifiableBefore_lt {map : CellMap} {mapLength byteIdx : ℕ} (hle : byteIdx ≤ mapLength)
    (hlen : 4 * mapLength < Word64.size) : verifiableBefore map byteIdx < Word64.size :=
  lt_of_le_of_lt (le_trans (Nat.count_le _) (Nat.mul_le_mul_left 4 hle)) hlen

/-- **The loop over words** counts the cells up to the byte at which it ends. -/
theorem countWords_spec (order : ByteOrder) (map : CellMap) {mapLength : ℕ}
    (hlen : 4 * mapLength < Word64.size) {byteIdx : ℕ} (hle : byteIdx ≤ mapLength) :
    ∃ stop ≤ mapLength, countWords order map mapLength byteIdx (verifiableBefore map byteIdx) =
      (stop, verifiableBefore map stop) := by
  induction hleft : mapLength - byteIdx using Nat.strongRecOn generalizing byteIdx with
  | _ left ih =>
    rw [countWords]
    split_ifs with hword
    · have hadd : Word64.add (verifiableBefore map byteIdx)
          (popcount ((wordAt order map byteIdx ||| (wordAt order map byteIdx >>> 1)) &&&
            0x5555555555555555#64)) = verifiableBefore map (byteIdx + 8) := by
        rw [popcount_word, Word64.add_eq, ← verifiableBefore_add]
        rw [← verifiableBefore_add]
        exact verifiableBefore_lt hword hlen
      simp only [hadd]
      exact ih (mapLength - (byteIdx + 8)) (by omega) hword rfl
    · exact ⟨byteIdx, hle, rfl⟩

/-- **The loop over bytes** counts the cells that are left. -/
theorem countBytes_spec (map : CellMap) {mapLength : ℕ} (hlen : 4 * mapLength < Word64.size)
    {byteIdx : ℕ} (hle : byteIdx ≤ mapLength) :
    countBytes map mapLength byteIdx (verifiableBefore map byteIdx) =
      verifiableBefore map mapLength := by
  induction hleft : mapLength - byteIdx using Nat.strongRecOn generalizing byteIdx with
  | _ left ih =>
    rw [countBytes]
    split_ifs with hbyte
    · have hadd : Word64.add (verifiableBefore map byteIdx)
          (popcount ((map byteIdx ||| (map byteIdx >>> 1)) &&& 0x55#8)) =
            verifiableBefore map (byteIdx + 1) := by
        have hsum := verifiableBefore_add map byteIdx 1
        rw [popcount_byte, Word64.add_eq, hsum]
        rw [← hsum]
        exact verifiableBefore_lt hbyte hlen
      simp only [hadd]
      exact ih (mapLength - (byteIdx + 1)) (by omega) hbyte rfl
    · obtain rfl : byteIdx = mapLength := by omega
      rfl

namespace Journal

variable {j : Journal}

/-- The mapping is short enough for the count of its cells to be a word. -/
theorem four_mul_mapLength_lt (j : Journal) : 4 * j.mapLength < Word64.size := by
  have hword := Word64.add_lt (Word64.mul j.numJournalBlocks 2) 7
  rw [mapLength]
  unfold Word64.size at hword ⊢
  omega

/-- **`getVerifiablePercent` counts the cells of the mapping.** -/
theorem numVerifiable_eq (j : Journal) (order : ByteOrder) (map : CellMap) :
    j.numVerifiable order map = Nat.count (Verifiable map) (4 * j.mapLength) := by
  obtain ⟨stop, hle, hwords⟩ :=
    countWords_spec order map j.four_mul_mapLength_lt (Nat.zero_le j.mapLength)
  have hzero : verifiableBefore map 0 = 0 := rfl
  have hbytes := countBytes_spec map j.four_mul_mapLength_lt hle
  rw [hzero] at hwords
  rw [numVerifiable, hwords]
  exact hbytes

end Journal

/-! ## Spare cells -/

theorem loadBlockGen_zero (b : ℕ) : loadBlockGen (fun _ => 0#8) b = 0 := by
  show ((0#8 &&& (0x3#8 <<< (b % 4 * 2))) >>> (b % 4 * 2)).toNat = 0
  rw [BitVec.zero_and, BitVec.zero_ushiftRight]
  rfl

/-- **A cell that no operation addresses stays 0.** -/
theorem loadBlockGen_runOps_eq_zero {T : Type*} {events : List (T × CellOp)} {b : ℕ}
    (hother : ∀ e ∈ events, e.2.block ≠ b) :
    loadBlockGen (runOps CellOp.onCells (fun _ => 0#8) events) b = 0 := by
  induction events using List.reverseRecOn with
  | nil => exact loadBlockGen_zero b
  | append_singleton events e ih =>
    have hbefore := ih fun e' he' => hother e' (List.mem_append_left [e] he')
    have hne : e.2.block ≠ b := hother e (List.mem_append_right events (List.mem_singleton_self e))
    rw [runOps_concat]
    obtain ⟨t, op⟩ := e
    cases op with
    | loadBlockGen b' => exact hbefore
    | markBlockBusy b' => exact (loadBlockGen_markBlockBusy_of_ne _ (Ne.symm hne)).trans hbefore
    | commitBlockGen b' newGen =>
      exact (loadBlockGen_commitBlockGen_of_ne _ newGen (Ne.symm hne)).trans hbefore

/-! ## The plain count -/

namespace Journal

variable (j : Journal)

/-- The number of blocks whose cell is not 0. -/
def numBlocksVerifiable (map : CellMap) : ℕ := Nat.count (Verifiable map) j.numJournalBlocks

/-- The length of the mapping is computed without a wrap around. -/
def MapLengthFits : Prop := 2 * j.numJournalBlocks + 7 < Word64.size

theorem numJournalBlocks_lt : j.numJournalBlocks < Word64.size :=
  lt_of_le_of_lt (Nat.div_le_self _ _) (Word64.sub_lt _ _)

/-- The mapping has a cell for every block exactly if its length fits. -/
theorem numJournalBlocks_le_iff : j.numJournalBlocks ≤ 4 * j.mapLength ↔ j.MapLengthFits ∨
    j.numJournalBlocks = 0 := by
  have hlt := j.numJournalBlocks_lt
  rw [mapLength, MapLengthFits, Word64.add, Word64.mul]
  unfold Word64.size at hlt ⊢
  omega

/-- With a cell for every block, the spare cells are all that could be counted too much. -/
theorem numVerifiable_eq_of_le (order : ByteOrder) {map : CellMap}
    (hle : j.numJournalBlocks ≤ 4 * j.mapLength)
    (hspare : ∀ b, j.numJournalBlocks ≤ b → loadBlockGen map b = 0) :
    j.numVerifiable order map = j.numBlocksVerifiable map := by
  obtain ⟨spare, hspares⟩ := Nat.exists_eq_add_of_le hle
  rw [numVerifiable_eq, hspares, Nat.count_add, numBlocksVerifiable]
  refine Nat.add_eq_left.mpr (Nat.count_iff_forall_not.mpr fun k _ hset => ?_)
  exact hset (hspare _ (Nat.le_add_right _ _))

/-- One commit behind the mapping is not counted. -/
theorem numVerifiable_commit_behind (order : ByteOrder) {b : ℕ} (hbehind : 4 * j.mapLength ≤ b)
    (hlt : b < j.numJournalBlocks) :
    j.numVerifiable order (runOps CellOp.onCells (fun _ => 0#8)
        [((0 : ℕ), .commitBlockGen b 1)]) = 0 ∧
      j.numBlocksVerifiable (runOps CellOp.onCells (fun _ => 0#8)
        [((0 : ℕ), .commitBlockGen b 1)]) ≠ 0 := by
  constructor
  · rw [numVerifiable_eq, Nat.count_iff_forall_not]
    intro b' hb' hset
    refine hset (loadBlockGen_runOps_eq_zero fun e he => ?_)
    rw [List.mem_singleton.mp he]
    exact Nat.ne_of_gt (lt_of_lt_of_le hb' hbehind)
  · rw [numBlocksVerifiable, Nat.count_ne_iff_exists]
    refine ⟨b, hlt, ?_⟩
    show loadBlockGen (commitBlockGen (fun _ => 0#8) b 1) b ≠ 0
    rw [loadBlockGen_commitBlockGen_self (loadBlockGen_zero b) (by omega)]
    exact Nat.one_ne_zero

/-- The count of the scan for cells of the journal's blocks. -/
theorem numVerifiable_runOps {events : List (ℕ × CellOp)} (order : ByteOrder)
    (hfit : j.MapLengthFits) (hevents : ∀ e ∈ events, e.2.block < j.numJournalBlocks) :
    j.numVerifiable order (runOps CellOp.onCells (fun _ => 0#8) events) =
      j.numBlocksVerifiable (runOps CellOp.onCells (fun _ => 0#8) events) := by
  have hspare : ∀ b, j.numJournalBlocks ≤ b →
      loadBlockGen (runOps CellOp.onCells (fun _ => 0#8) events) b = 0 := fun b hb =>
    loadBlockGen_runOps_eq_zero fun e he => Nat.ne_of_lt (lt_of_lt_of_le (hevents e he) hb)
  exact j.numVerifiable_eq_of_le order (j.numJournalBlocks_le_iff.mpr (Or.inl hfit)) hspare

/-- **The count of the scan is the plain count** for every content of the cells, exactly if the
length of the mapping is computed without a wrap around.  It is then not above the number of
blocks. -/
theorem numVerifiable_eq_count_iff (order : ByteOrder) :
    (∀ events : List (ℕ × CellOp), (∀ e ∈ events, e.2.block < j.numJournalBlocks) →
      j.numVerifiable order (runOps CellOp.onCells (fun _ => 0#8) events) =
          j.numBlocksVerifiable (runOps CellOp.onCells (fun _ => 0#8) events) ∧
        j.numVerifiable order (runOps CellOp.onCells (fun _ => 0#8) events) ≤
          j.numJournalBlocks) ↔
      j.MapLengthFits := by
  constructor
  · intro h
    by_contra hwrap
    have hlt : 4 * j.mapLength < j.numJournalBlocks := by
      by_contra hle
      rcases j.numJournalBlocks_le_iff.mp (not_lt.mp hle) with hfit | hzero
      · exact hwrap hfit
      · refine hwrap ?_
        rw [MapLengthFits, hzero]
        decide
    obtain ⟨b, hb⟩ : ∃ b, b = 4 * j.mapLength := ⟨_, rfl⟩
    rw [← hb] at hlt
    obtain ⟨hscan, hplain⟩ := j.numVerifiable_commit_behind order (le_of_eq hb.symm) hlt
    have hagree := (h [((0 : ℕ), .commitBlockGen b 1)] fun e he => by
      rw [List.mem_singleton.mp he]
      exact hlt).1
    exact hplain (hagree.symm.trans hscan)
  · intro hfit events hevents
    have hagree := j.numVerifiable_runOps order hfit hevents
    exact ⟨hagree, hagree.trans_le (Nat.count_le _)⟩

/-- A journal with a block for each byte of a target of `2 ^ 63 + 1` bytes. -/
def bytewise : Journal where
  journalBlockSize := 1
  targetOffset := 0
  targetSize := 2 ^ 63 + 1
  journalSeed := 0
  journalBlockSize_pos := Nat.one_pos
  journalBlockSize_lt := Word64.one_lt_size
  targetOffset_lt := Word64.size_pos
  targetSize_lt := by decide

/-- The length of its mapping wraps around to one byte, so a commit of the fifth block is not
counted. -/
theorem bytewise_count_differs :
    4 < bytewise.numJournalBlocks ∧ bytewise.mapLength = 1 ∧
      bytewise.numVerifiable .little
        (runOps CellOp.onCells (fun _ => 0#8) [((0 : ℕ), .commitBlockGen 4 1)]) = 0 ∧
      bytewise.numBlocksVerifiable
        (runOps CellOp.onCells (fun _ => 0#8) [((0 : ℕ), .commitBlockGen 4 1)]) ≠ 0 := by
  have hblocks : 4 < bytewise.numJournalBlocks := by decide
  have hlength : bytewise.mapLength = 1 := by decide
  have hbehind : 4 * bytewise.mapLength ≤ 4 := by rw [hlength]
  exact ⟨hblocks, hlength, bytewise.numVerifiable_commit_behind .little hbehind hblocks⟩

end Journal

end Elbencho
