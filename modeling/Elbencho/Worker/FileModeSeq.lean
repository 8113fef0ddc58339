import Elbencho.OffsetGen.FullRuns

/-!
# Sequential file mode

`fileModeIterateFilesSeq` numbers the blocks of all files one after the other, gives each
rank a contiguous part of them, and works through that part in slices: a slice ends where
the part or the file ends.  `sliceLoop` is that loop, with `fuel` for its passes.

The length of the rest of a part is a product of two words.  Where it is not reduced, or
where the reduced product is still longer than the rest of the file, the slice is the
right one; `Exact` says that, and `sliceLoop_exact` is the loop under this condition.

**The data set is partitioned** exactly if the number of blocks of all files is a word
and every slice is exact: `partitions_iff`.  A slice that is not exact leaves out bytes of
its last block, or the loop comes to a slice of length 0 and stays there forever.
-/

namespace Elbencho

open OffsetGenerator Blocks

/-! ## The loop -/

/-- What `fileModeIterateFilesSeq` reads of the arguments. -/
structure SeqDataSet where
  fileSize : ℕ
  blockSize : ℕ
  numFiles : ℕ
  numThreads : ℕ
  fileSize_pos : 0 < fileSize
  fileSize_lt : fileSize < Word64.size
  blockSize_pos : 0 < blockSize
  numThreads_pos : 0 < numThreads
  numThreads_lt : numThreads < Word64.size

/-- A range of a file that a worker processes in one pass of its loop. -/
structure Slice where
  currentFileIndex : ℕ
  currentIoStart : ℕ
  currentIoLen : ℕ
  deriving DecidableEq

/-- A byte of a file lies in the slice. -/
def Slice.covers (file x : ℕ) (s : Slice) : Bool :=
  s.currentFileIndex = file ∧ s.currentIoStart ≤ x ∧ x < s.currentIoStart + s.currentIoLen

namespace SeqDataSet

variable (d : SeqDataSet)

/-- `numBlocksPerFile`. -/
def numBlocksPerFile : ℕ := numBlocks d.fileSize d.blockSize

/-- `numBlocksTotal`: the blocks of all files. -/
def numBlocksTotal : ℕ := Word64.mul d.numBlocksPerFile d.numFiles

/-- `standardWorkerNumBlocks`. -/
def standardWorkerNumBlocks : ℕ := d.numBlocksTotal / d.numThreads

/-- `thisWorkerNumBlocks`: the last rank takes the rest. -/
def thisWorkerNumBlocks (workerRank : ℕ) : ℕ :=
  if workerRank = Word64.sub d.numThreads 1 ∧ d.numBlocksTotal % d.numThreads ≠ 0 then
    Word64.sub d.numBlocksTotal
      (Word64.mul d.standardWorkerNumBlocks (Word64.sub d.numThreads 1))
  else d.standardWorkerNumBlocks

/-- `startBlock`. -/
def startBlock (workerRank : ℕ) : ℕ := Word64.mul workerRank d.standardWorkerNumBlocks

/-- `endBlock`. -/
def endBlock (workerRank : ℕ) : ℕ :=
  Word64.add (d.startBlock workerRank) (d.thisWorkerNumBlocks workerRank)

/-- The slice of a pass that is at the block `currentBlockIdx`. -/
def slice (endBlock currentBlockIdx : ℕ) : Slice where
  currentFileIndex := currentBlockIdx / d.numBlocksPerFile
  currentIoStart := Word64.mul (currentBlockIdx % d.numBlocksPerFile) d.blockSize
  currentIoLen :=
    min (Word64.mul (Word64.sub endBlock currentBlockIdx) d.blockSize)
      (Word64.sub d.fileSize (Word64.mul (currentBlockIdx % d.numBlocksPerFile) d.blockSize))

/-- The block of the next pass. -/
def nextBlock (endBlock currentBlockIdx : ℕ) : ℕ :=
  Word64.add currentBlockIdx
    (numBlocks (d.slice endBlock currentBlockIdx).currentIoLen d.blockSize)

/-- The loop over the blocks of a worker; `none` if it needs more passes. -/
def sliceLoop (endBlock : ℕ) : ℕ → ℕ → Option (List Slice)
  | 0, _ => none
  | fuel + 1, currentBlockIdx =>
    if currentBlockIdx < endBlock then
      (sliceLoop endBlock fuel (d.nextBlock endBlock currentBlockIdx)).map
        (d.slice endBlock currentBlockIdx :: ·)
    else some []

/-- `fileModeIterateFilesSeq`: the slices of a rank.  A rank whose start is not before
its end got no work. -/
def fileModeIterateFilesSeq (workerRank fuel : ℕ) : Option (List Slice) :=
  d.sliceLoop (d.endBlock workerRank) fuel (d.startBlock workerRank)

/-- The block of a byte, in the numbering of all files. -/
def blockOf (file x : ℕ) : ℕ := file * d.numBlocksPerFile + x / d.blockSize

variable {d}

/-! ## One slice -/

section OneSlice

theorem numBlocksPerFile_pos : 0 < d.numBlocksPerFile :=
  numBlocks_pos d.blockSize_pos d.fileSize_pos

/-- A block of a file begins in the file. -/
theorem blockInFile_mul_lt (c : ℕ) : c % d.numBlocksPerFile * d.blockSize < d.fileSize :=
  (lt_numBlocks_iff d.blockSize_pos).mp (Nat.mod_lt c numBlocksPerFile_pos)

theorem currentIoStart_eq (e c : ℕ) :
    (d.slice e c).currentIoStart = c % d.numBlocksPerFile * d.blockSize :=
  Word64.mul_eq ((blockInFile_mul_lt c).trans d.fileSize_lt)

/-- The length of a slice: only the rest of the part can be reduced. -/
theorem currentIoLen_eq {e c : ℕ} (hc : c < e) (he : e < Word64.size) :
    (d.slice e c).currentIoLen =
      min ((e - c) * d.blockSize % Word64.size)
        (d.fileSize - c % d.numBlocksPerFile * d.blockSize) := by
  have hlt := blockInFile_mul_lt (d := d) c
  show min (Word64.mul (Word64.sub e c) d.blockSize)
    (Word64.sub d.fileSize (d.slice e c).currentIoStart) = _
  rw [currentIoStart_eq, Word64.sub_eq (Nat.le_of_lt hlt) d.fileSize_lt,
    Word64.sub_eq (Nat.le_of_lt hc) he]
  rfl

/-- A slice does not leave its file. -/
theorem slice_end_le {e c : ℕ} (hc : c < e) (he : e < Word64.size) :
    (d.slice e c).currentIoStart + (d.slice e c).currentIoLen ≤ d.fileSize := by
  have hlt := blockInFile_mul_lt (d := d) c
  have hle : (d.slice e c).currentIoLen ≤ d.fileSize - c % d.numBlocksPerFile * d.blockSize := by
    rw [currentIoLen_eq hc he]
    exact min_le_right _ _
  rw [currentIoStart_eq]
  omega

theorem blockOf_lt {file x : ℕ} (hfile : file < d.numFiles) (hx : x < d.fileSize) :
    d.blockOf file x < d.numBlocksPerFile * d.numFiles := by
  have hblock : x / d.blockSize < d.numBlocksPerFile :=
    (lt_numBlocks_iff d.blockSize_pos).mpr ((Nat.div_mul_le_self _ _).trans_lt hx)
  have := Nat.mul_le_mul_right d.numBlocksPerFile (show file + 1 ≤ d.numFiles from hfile)
  rw [Nat.add_one_mul] at this
  rw [blockOf, Nat.mul_comm d.numBlocksPerFile]
  omega

/-- The bytes of a slice belong to blocks from its first one on, before the next pass
and before the end of the part. -/
theorem blockOf_of_covers {e c : ℕ} (hc : c < e) (he : e < Word64.size) {file x : ℕ}
    (h : (d.slice e c).covers file x = true) :
    c ≤ d.blockOf file x ∧ d.blockOf file x < e ∧
      d.blockOf file x < c + numBlocks (d.slice e c).currentIoLen d.blockSize := by
  obtain ⟨rfl, hlo, hhi⟩ := of_decide_eq_true h
  rw [currentIoStart_eq] at hlo hhi
  have hdiv := Nat.div_add_mod c d.numBlocksPerFile
  rw [Nat.mul_comm] at hdiv
  have hfile : (d.slice e c).currentFileIndex = c / d.numBlocksPerFile := rfl
  have hpos := d.blockSize_pos
  have hge : c % d.numBlocksPerFile ≤ x / d.blockSize :=
    (Nat.le_div_iff_mul_le hpos).mpr hlo
  have hrest : (d.slice e c).currentIoLen ≤ (e - c) * d.blockSize := by
    rw [currentIoLen_eq hc he]
    exact (min_le_left _ _).trans (Nat.mod_le _ _)
  have hend : x / d.blockSize < c % d.numBlocksPerFile + (e - c) :=
    (div_lt_add_iff hpos).mpr (by omega)
  have hnext : x / d.blockSize <
      c % d.numBlocksPerFile + numBlocks (d.slice e c).currentIoLen d.blockSize := by
    have := (numBlocks_le_iff hpos).mp (le_refl (numBlocks (d.slice e c).currentIoLen d.blockSize))
    exact (div_lt_add_iff hpos).mpr (by omega)
  unfold blockOf
  rw [hfile]
  omega

variable (d) in
/-- The slice at a block has the right length: the rest of the part is not reduced, or it
is still as long as the rest of the file. -/
def Exact (e c : ℕ) : Prop :=
  (e - c) * d.blockSize < Word64.size ∨
    d.fileSize - c % d.numBlocksPerFile * d.blockSize ≤ (e - c) * d.blockSize % Word64.size

theorem Exact.currentIoLen_eq {e c : ℕ} (h : d.Exact e c) (hc : c < e) (he : e < Word64.size) :
    (d.slice e c).currentIoLen =
      min ((e - c) * d.blockSize) (d.fileSize - c % d.numBlocksPerFile * d.blockSize) := by
  rw [SeqDataSet.currentIoLen_eq hc he]
  rcases h with h | h
  · rw [Nat.mod_eq_of_lt h]
  · rw [min_eq_right h, min_eq_right (h.trans (Nat.mod_le _ _))]

/-- The next pass is at the end of the part or at the start of the next file. -/
theorem Exact.nextBlock_eq {e c : ℕ} (h : d.Exact e c) (hc : c < e) (he : e < Word64.size) :
    d.nextBlock e c = c + min (e - c) (d.numBlocksPerFile - c % d.numBlocksPerFile) := by
  rw [nextBlock, h.currentIoLen_eq hc he, numBlocks_min_sub d.blockSize_pos]
  exact Word64.add_eq (by unfold numBlocksPerFile; omega)

/-- An exact slice covers the blocks up to the next pass. -/
theorem Exact.covers_iff {e c : ℕ} (h : d.Exact e c) (hc : c < e) (he : e < Word64.size)
    {file x : ℕ} (hx : x < d.fileSize) :
    (d.slice e c).covers file x = true ↔
      c ≤ d.blockOf file x ∧ d.blockOf file x < d.nextBlock e c := by
  have hnext := h.nextBlock_eq hc he
  have hpos := d.blockSize_pos
  have hdiv := Nat.div_add_mod c d.numBlocksPerFile
  rw [Nat.mul_comm] at hdiv
  have hmod := Nat.mod_lt c (numBlocksPerFile_pos (d := d))
  constructor
  · intro hcovers
    obtain ⟨hlo, -, hhi⟩ := blockOf_of_covers hc he hcovers
    rw [h.currentIoLen_eq hc he, numBlocks_min_sub hpos] at hhi
    exact ⟨hlo, hnext ▸ hhi⟩
  · rintro ⟨hlo, hhi⟩
    have hblock : x / d.blockSize < d.numBlocksPerFile :=
      (lt_numBlocks_iff hpos).mpr ((Nat.div_mul_le_self _ _).trans_lt hx)
    -- the block is in the file of the slice
    have hfile : c / d.numBlocksPerFile = file := by
      have hsame : d.blockOf file x / d.numBlocksPerFile = file := by
        rw [blockOf, Nat.mul_comm, Nat.mul_add_div numBlocksPerFile_pos, Nat.div_eq_of_lt hblock,
          Nat.add_zero]
      rw [← hsame]
      refine le_antisymm (Nat.div_le_div_right hlo) ?_
      rw [Nat.div_le_iff_le_mul_add_pred numBlocksPerFile_pos]
      rw [Nat.mul_comm]
      omega
    subst hfile
    unfold blockOf at hlo hhi
    have hx' : x / d.blockSize < c % d.numBlocksPerFile + (e - c) := by omega
    rw [div_lt_add_iff hpos] at hx'
    have hx'' := (Nat.le_div_iff_mul_le hpos).mp
      (show c % d.numBlocksPerFile ≤ x / d.blockSize by omega)
    refine decide_eq_true ⟨rfl, ?_, ?_⟩
    · rw [currentIoStart_eq]
      exact hx''
    · rw [currentIoStart_eq, h.currentIoLen_eq hc he]
      omega

end OneSlice

/-! ## Whole loops -/

section Loop

theorem sliceLoop_of_done {e c : ℕ} (h : ¬ c < e) : d.sliceLoop e 1 c = some [] := if_neg h

/-- The first pass and the rest. -/
theorem sliceLoop_succ {e c fuel : ℕ} (h : c < e) {rest : List Slice}
    (hrest : d.sliceLoop e fuel (d.nextBlock e c) = some rest) :
    d.sliceLoop e (fuel + 1) c = some (d.slice e c :: rest) := by
  rw [sliceLoop, if_pos h, hrest]
  rfl

/-- A loop that ends before its end block did a pass and the rest. -/
theorem exists_rest {e c fuel : ℕ} (hc : c < e) {slices : List Slice}
    (h : d.sliceLoop e fuel c = some slices) :
    ∃ fuel' rest, fuel = fuel' + 1 ∧ d.sliceLoop e fuel' (d.nextBlock e c) = some rest ∧
      slices = d.slice e c :: rest := by
  cases fuel with
  | zero => cases h
  | succ fuel =>
    rw [sliceLoop, if_pos hc] at h
    obtain ⟨rest, hrest, rfl⟩ := Option.map_eq_some_iff.mp h
    exact ⟨fuel, rest, rfl, hrest, rfl⟩

/-- The next pass is not behind the end of the part. -/
theorem nextBlock_le {e c : ℕ} (hc : c < e) (he : e < Word64.size) :
    d.nextBlock e c = c + numBlocks (d.slice e c).currentIoLen d.blockSize ∧
      d.nextBlock e c ≤ e := by
  have hle : numBlocks (d.slice e c).currentIoLen d.blockSize ≤ e - c := by
    rw [numBlocks_le_iff d.blockSize_pos, currentIoLen_eq hc he]
    exact (min_le_left _ _).trans (Nat.mod_le _ _)
  have hnext : d.nextBlock e c = c + numBlocks (d.slice e c).currentIoLen d.blockSize :=
    Word64.add_eq (by omega)
  exact ⟨hnext, by omega⟩

/-- Every slice of a loop is the slice at one of the blocks that are left. -/
theorem exists_of_mem_sliceLoop {e c fuel : ℕ} (he : e < Word64.size) {slices : List Slice}
    (h : d.sliceLoop e fuel c = some slices) {s : Slice} (hs : s ∈ slices) :
    ∃ c', c ≤ c' ∧ c' < e ∧ s = d.slice e c' := by
  induction fuel generalizing c slices with
  | zero => cases h
  | succ fuel ih =>
    by_cases hc : c < e
    · obtain ⟨fuel', rest, hfuel, hrest, rfl⟩ := exists_rest hc h
      obtain rfl : fuel = fuel' := Nat.succ.inj hfuel
      rcases List.mem_cons.mp hs with rfl | hs
      · exact ⟨c, le_rfl, hc, rfl⟩
      · obtain ⟨c', hle, hlt, rfl⟩ := ih hrest hs
        have := (nextBlock_le (d := d) hc he).1
        exact ⟨c', by omega, hlt, rfl⟩
    · rw [sliceLoop, if_neg hc] at h
      obtain rfl := Option.some.inj h
      exact absurd hs List.not_mem_nil

/-- A loop covers no bytes of blocks before its start or behind its end. -/
theorem countP_eq_zero {e c fuel : ℕ} (he : e < Word64.size) {slices : List Slice}
    (h : d.sliceLoop e fuel c = some slices) {file x : ℕ}
    (hout : ¬ (c ≤ d.blockOf file x ∧ d.blockOf file x < e)) :
    slices.countP (Slice.covers file x) = 0 := by
  refine List.countP_eq_zero.mpr fun s hs hcovers => hout ?_
  obtain ⟨c', hle, hlt, rfl⟩ := exists_of_mem_sliceLoop he h hs
  obtain ⟨hlo, hhi, -⟩ := blockOf_of_covers hlt he hcovers
  exact ⟨hle.trans hlo, hhi⟩

/-- The next pass after an exact slice is at the end of the part or at a file. -/
theorem Exact.next_visited {e c : ℕ} (h : d.Exact e c) (hc : c < e) (he : e < Word64.size)
    (hlt : d.nextBlock e c < e) : d.numBlocksPerFile ∣ d.nextBlock e c := by
  have hmod := Nat.mod_lt c (numBlocksPerFile_pos (d := d))
  have hdiv := Nat.div_add_mod c d.numBlocksPerFile
  rw [h.nextBlock_eq hc he] at hlt ⊢
  have hnext : c + min (e - c) (d.numBlocksPerFile - c % d.numBlocksPerFile) =
      d.numBlocksPerFile * (c / d.numBlocksPerFile + 1) := by
    rw [Nat.mul_add_one]
    omega
  exact ⟨_, hnext⟩

/-- The next pass after an exact slice is not behind the start of a later file. -/
theorem Exact.nextBlock_le_of_dvd {e c t : ℕ} (h : d.Exact e c) (hc : c < e)
    (he : e < Word64.size) (hct : c < t) (hdvd : d.numBlocksPerFile ∣ t) :
    c < d.nextBlock e c ∧ d.nextBlock e c ≤ t := by
  have hnext := h.nextBlock_eq hc he
  obtain ⟨q, rfl⟩ := hdvd
  have hq : c / d.numBlocksPerFile < q :=
    (Nat.div_lt_iff_lt_mul numBlocksPerFile_pos).mpr (by rwa [Nat.mul_comm])
  have hmul := Nat.mul_le_mul_left d.numBlocksPerFile
    (show c / d.numBlocksPerFile + 1 ≤ q from hq)
  have hdiv := Nat.div_add_mod c d.numBlocksPerFile
  have hmod := Nat.mod_lt c (numBlocksPerFile_pos (d := d))
  rw [Nat.mul_add_one] at hmul
  omega

/-- **A loop with exact slices** ends, and it covers its blocks once. -/
theorem sliceLoop_exact {e : ℕ} (he : e < Word64.size) (c : ℕ)
    (h : ∀ b, c ≤ b → b < e → b = c ∨ d.numBlocksPerFile ∣ b → d.Exact e b) :
    ∃ fuel slices, d.sliceLoop e fuel c = some slices ∧ ∀ file x, x < d.fileSize →
      slices.countP (Slice.covers file x) =
        if c ≤ d.blockOf file x ∧ d.blockOf file x < e then 1 else 0 := by
  induction hn : e - c using Nat.strong_induction_on generalizing c with
  | h n ih =>
    by_cases hc : c < e
    · have hexact := h c le_rfl hc (Or.inl rfl)
      have hnext := hexact.nextBlock_eq hc he
      have hmod := Nat.mod_lt c (numBlocksPerFile_pos (d := d))
      obtain ⟨fuel, rest, hrest, hcount⟩ := ih (e - d.nextBlock e c) (by omega) (d.nextBlock e c)
        (fun b hle hlt hb => h b (by omega) hlt (Or.inr (by
          rcases hb with rfl | hb
          · exact hexact.next_visited hc he hlt
          · exact hb))) rfl
      refine ⟨fuel + 1, _, sliceLoop_succ hc hrest, fun file x hx => ?_⟩
      rw [List.countP_cons, hcount file x hx]
      simp only [hexact.covers_iff hc he hx]
      split_ifs <;> omega
    · refine ⟨1, [], sliceLoop_of_done hc, fun file x _ => ?_⟩
      rw [if_neg (by omega)]
      rfl

/-- A loop whose slices are exact up to a block that is the start of a file comes to
that block. -/
theorem sliceLoop_reaches {e t : ℕ} (he : e < Word64.size) (hte : t < e) {c fuel : ℕ}
    {slices : List Slice} (hct : c ≤ t) (ht : t = c ∨ d.numBlocksPerFile ∣ t)
    (hexact : ∀ b, c ≤ b → b < t → b = c ∨ d.numBlocksPerFile ∣ b → d.Exact e b)
    (h : d.sliceLoop e fuel c = some slices) :
    ∃ fuel' before after, slices = before ++ after ∧ d.sliceLoop e fuel' t = some after ∧
      ∀ s ∈ before, ∀ file x, s.covers file x = true → d.blockOf file x < t := by
  induction fuel generalizing c slices with
  | zero => cases h
  | succ fuel ih =>
    rcases Nat.eq_or_lt_of_le hct with rfl | hlt
    · exact ⟨_, [], slices, rfl, h, fun s hs => absurd hs List.not_mem_nil⟩
    · have hc : c < e := hlt.trans hte
      obtain ⟨fuel', rest, hfuel, hrest, rfl⟩ := exists_rest hc h
      obtain rfl : fuel = fuel' := Nat.succ.inj hfuel
      have hdvd : d.numBlocksPerFile ∣ t := ht.resolve_left (Nat.ne_of_gt hlt)
      have hfirst := hexact c le_rfl hlt (Or.inl rfl)
      obtain ⟨hgt, hle⟩ := hfirst.nextBlock_le_of_dvd hc he hlt hdvd
      obtain ⟨fuel', before, after, rfl, hafter, hbefore⟩ := ih (c := d.nextBlock e c) hle
        (Or.inr hdvd) (fun b hle hbt hb => hexact b (by omega) hbt (Or.inr (by
          rcases hb with rfl | hb
          · exact hfirst.next_visited hc he (hbt.trans hte)
          · exact hb))) hrest
      refine ⟨fuel', d.slice e c :: before, after, rfl, hafter, fun s hs file x hcovers => ?_⟩
      rcases List.mem_cons.mp hs with rfl | hs
      · have := (blockOf_of_covers hc he hcovers).2.2
        have := (nextBlock_le (d := d) hc he).1
        omega
      · exact hbefore s hs file x hcovers

/-- A slice of length 0 does not lead any further. -/
theorem sliceLoop_eq_none {e c : ℕ} (hc : c < e) (he : e < Word64.size)
    (hzero : (e - c) * d.blockSize % Word64.size = 0) (fuel : ℕ) : d.sliceLoop e fuel c = none := by
  induction fuel with
  | zero => rfl
  | succ fuel ih =>
    have hnext : d.nextBlock e c = c := by
      rw [(nextBlock_le hc he).1, currentIoLen_eq hc he, hzero, Nat.zero_min, numBlocks_zero,
        Nat.add_zero]
    rw [sliceLoop, if_pos hc, hnext, ih]
    rfl

/-- **A slice that is not exact** and that the loop gets beyond leaves out a byte of the
part. -/
theorem exists_not_covered {e c fuel : ℕ} (hc : c < e) (he : e < Word64.size)
    (hbad : ¬ d.Exact e c) {slices : List Slice} (h : d.sliceLoop e fuel c = some slices) :
    ∃ x < d.fileSize, c ≤ d.blockOf (c / d.numBlocksPerFile) x ∧
      d.blockOf (c / d.numBlocksPerFile) x < e ∧
      slices.countP (Slice.covers (c / d.numBlocksPerFile) x) = 0 := by
  obtain ⟨hwrap, hshort⟩ := not_or.mp hbad
  rw [not_lt] at hwrap
  rw [not_le] at hshort
  have hpos := d.blockSize_pos
  have hdiv := Nat.div_add_mod c d.numBlocksPerFile
  rw [Nat.mul_comm] at hdiv
  obtain ⟨fuel', rest, -, hrest, rfl⟩ := exists_rest hc h
  have hnext := (nextBlock_le (d := d) hc he).1
  have hlen : (d.slice e c).currentIoLen = (e - c) * d.blockSize % Word64.size := by
    rw [currentIoLen_eq hc he, min_eq_left (Nat.le_of_lt hshort)]
  generalize hw : (e - c) * d.blockSize % Word64.size = w at hshort hlen
  have hwlt : w < (e - c) * d.blockSize := by
    have := Nat.mod_lt ((e - c) * d.blockSize) Word64.size_pos
    omega
  have hwdiv : w / d.blockSize < e - c := (Nat.div_lt_iff_lt_mul hpos).mpr hwlt
  rw [hlen] at hnext
  by_cases hrem : w % d.blockSize = 0
  · -- the rest of the part is then a multiple of the word size, and the loop does not end
    obtain ⟨m, rfl⟩ := Nat.dvd_of_mod_eq_zero hrem
    rw [Nat.mul_comm d.blockSize m, numBlocks_mul hpos] at hnext
    rw [Nat.mul_div_cancel_left m hpos] at hwdiv
    have hzero : (e - (c + m)) * d.blockSize % Word64.size = 0 := by
      rw [show e - (c + m) = e - c - m by omega, Nat.sub_mul, Nat.mul_comm m, ← hw]
      exact Nat.mod_eq_zero_of_dvd (Nat.dvd_sub_mod _)
    rw [hnext, sliceLoop_eq_none (by omega) he hzero] at hrest
    cases hrest
  · -- the byte behind the slice is in its last block
    have hblocks : numBlocks w d.blockSize = w / d.blockSize + 1 := by
      rw [numBlocks, if_pos hrem]
    have hblockOf : d.blockOf (c / d.numBlocksPerFile)
        (c % d.numBlocksPerFile * d.blockSize + w) = c + w / d.blockSize := by
      rw [blockOf, Nat.add_comm (_ * d.blockSize), Nat.add_mul_div_right w _ hpos]
      omega
    refine ⟨c % d.numBlocksPerFile * d.blockSize + w, by omega,
      hblockOf ▸ Nat.le_add_right _ _, by omega, ?_⟩
    rw [List.countP_cons, countP_eq_zero he hrest (by omega), if_neg]
    intro hcovers
    obtain ⟨-, -, hhi⟩ := of_decide_eq_true hcovers
    rw [currentIoStart_eq, hlen] at hhi
    omega

end Loop

/-! ## All ranks -/

section Ranks

theorem numBlocksTotal_lt : d.numBlocksTotal < Word64.size := Word64.mul_lt _ _

/-- The part of a rank. -/
theorem startBlock_eq {rank : ℕ} (hrank : rank < d.numThreads) :
    d.startBlock rank = border d.numBlocksTotal d.numThreads rank := by
  have hle := border_le d.numBlocksTotal d.numThreads rank
  have hlt := numBlocksTotal_lt (d := d)
  unfold border at hle ⊢
  rw [if_pos hrank] at hle ⊢
  exact Word64.mul_eq (lt_of_le_of_lt hle hlt)

theorem endBlock_eq {rank : ℕ} (hrank : rank < d.numThreads) :
    d.endBlock rank = border d.numBlocksTotal d.numThreads (rank + 1) := by
  have hle := border_le d.numBlocksTotal d.numThreads (rank + 1)
  have hlt := numBlocksTotal_lt (d := d)
  have hpred := div_mul_pred_le d.numBlocksTotal d.numThreads
  have hadd := border_add_share hrank d.numBlocksTotal
  have hshare : d.thisWorkerNumBlocks rank = share d.numBlocksTotal d.numThreads rank := by
    rw [thisWorkerNumBlocks, standardWorkerNumBlocks, Word64.sub_eq d.numThreads_pos d.numThreads_lt,
      Word64.mul_eq (lt_of_le_of_lt hpred hlt), Word64.sub_eq hpred hlt]
    rfl
  rw [endBlock, startBlock_eq hrank, hshare, Word64.add_eq (by omega), hadd]

theorem endBlock_lt (d : SeqDataSet) (rank : ℕ) : d.endBlock rank < Word64.size :=
  Word64.add_lt _ _

/-- The slices of all ranks that contain a byte. -/
def numCovering (d : SeqDataSet) (slices : ℕ → List Slice) (file x : ℕ) : ℕ :=
  ((List.range d.numThreads).map fun rank => (slices rank).countP (Slice.covers file x)).sum

/-- The ranks cover every byte of the files once, in slices that begin at a block, lie in
one file and are worked off completely by the sequential generator; and the loops of all
ranks end. -/
def Partitions (d : SeqDataSet) : Prop :=
  ∃ slices : ℕ → List Slice,
    (∀ rank < d.numThreads,
      (∃ fuel, d.fileModeIterateFilesSeq rank fuel = some (slices rank)) ∧
      ∀ s ∈ slices rank, d.blockSize ∣ s.currentIoStart ∧ s.currentFileIndex < d.numFiles ∧
        s.currentIoStart + s.currentIoLen ≤ d.fileSize ∧
        ∀ g : OffsetGenSequential, ∃ fuel ios,
          drawAll fuel (g.reset s.currentIoLen s.currentIoStart) = some ios ∧
          ∀ x, ios.countP (coversByte x) =
            if s.currentIoStart ≤ x ∧ x < s.currentIoStart + s.currentIoLen then 1 else 0) ∧
    ∀ file < d.numFiles, ∀ x < d.fileSize, d.numCovering slices file x = 1

/-- The blocks of all files are counted in a word, and every slice of every rank is
exact: those at the start of the part of the rank and those at the start of a file. -/
structure Fits (d : SeqDataSet) : Prop where
  totalFits : d.numBlocksPerFile * d.numFiles < Word64.size
  exact : ∀ rank < d.numThreads, ∀ c,
    border (d.numBlocksPerFile * d.numFiles) d.numThreads rank ≤ c →
    c < border (d.numBlocksPerFile * d.numFiles) d.numThreads (rank + 1) →
    c = border (d.numBlocksPerFile * d.numFiles) d.numThreads rank ∨ d.numBlocksPerFile ∣ c →
    d.Exact (border (d.numBlocksPerFile * d.numFiles) d.numThreads (rank + 1)) c

/-- A byte that no rank covers is missing. -/
theorem numCovering_eq_zero {slices : ℕ → List Slice} {file x : ℕ}
    (h : ∀ rank < d.numThreads, (slices rank).countP (Slice.covers file x) = 0) :
    d.numCovering slices file x = 0 := by
  refine List.sum_eq_zero fun n hn => ?_
  obtain ⟨rank, hrank, rfl⟩ := List.mem_map.mp hn
  exact h rank (List.mem_range.mp hrank)

/-- A byte whose block is in no other part is covered by its own rank only. -/
theorem numCovering_other {slices : ℕ → List Slice} {rank : ℕ} {file x : ℕ}
    (hrank : rank < d.numThreads)
    (hslices : ∀ r < d.numThreads, ∃ fuel, d.fileModeIterateFilesSeq r fuel = some (slices r))
    (hlo : d.startBlock rank ≤ d.blockOf file x) (hhi : d.blockOf file x < d.endBlock rank)
    (h : (slices rank).countP (Slice.covers file x) = 0) : d.numCovering slices file x = 0 := by
  have hmono := monotone_nat_of_le_succ (border_mono d.numBlocksTotal d.numThreads)
  refine numCovering_eq_zero fun r hr => ?_
  obtain ⟨fuel, hloop⟩ := hslices r hr
  rcases Nat.lt_trichotomy r rank with hlt | rfl | hgt
  · have := hmono (show r + 1 ≤ rank from hlt)
    rw [← endBlock_eq hr, ← startBlock_eq hrank] at this
    exact countP_eq_zero (d.endBlock_lt r) hloop (by omega)
  · exact h
  · have := hmono (show rank + 1 ≤ r from hgt)
    rw [← endBlock_eq hrank, ← startBlock_eq hr] at this
    exact countP_eq_zero (d.endBlock_lt r) hloop (by omega)

/-- If all blocks are counted, every slice of a partition is exact. -/
theorem Partitions.exact (h : d.Partitions)
    (htotal : d.numBlocksTotal = d.numBlocksPerFile * d.numFiles) {rank : ℕ}
    (hrank : rank < d.numThreads) (c : ℕ) (hlo : d.startBlock rank ≤ c) (hhi : c < d.endBlock rank)
    (hvisited : c = d.startBlock rank ∨ d.numBlocksPerFile ∣ c) : d.Exact (d.endBlock rank) c := by
  obtain ⟨slices, hranks, honce⟩ := h
  have hloops := fun r hr => (hranks r hr).1
  have he := d.endBlock_lt rank
  induction c using Nat.strong_induction_on with
  | h c ih =>
    by_contra hbad
    obtain ⟨fuel, hloop⟩ := hloops rank hrank
    obtain ⟨fuel', before, after, hsplit, hafter, hbefore⟩ := sliceLoop_reaches he hhi hlo hvisited
      (fun b hle hlt hb => ih b hlt hle (hlt.trans hhi) hb) hloop
    obtain ⟨x, hx, hge, hlt, hzero⟩ := exists_not_covered hhi he hbad hafter
    have hfile : c / d.numBlocksPerFile < d.numFiles := by
      have := border_le d.numBlocksTotal d.numThreads (rank + 1)
      rw [← endBlock_eq hrank, htotal] at this
      refine (Nat.div_lt_iff_lt_mul numBlocksPerFile_pos).mpr ?_
      rw [Nat.mul_comm]
      omega
    have hcount : (slices rank).countP (Slice.covers (c / d.numBlocksPerFile) x) = 0 := by
      rw [hsplit, List.countP_append, hzero, Nat.add_zero]
      refine List.countP_eq_zero.mpr fun s hs hcovers => ?_
      have := hbefore s hs _ _ hcovers
      omega
    have := honce _ hfile x hx
    rw [numCovering_other hrank hloops (hlo.trans hge) hlt hcount] at this
    omega

/-- A partition counts all blocks: otherwise the last block of the last file is in no
part. -/
theorem Partitions.totalFits (h : d.Partitions) :
    d.numBlocksPerFile * d.numFiles < Word64.size := by
  obtain ⟨slices, hranks, honce⟩ := h
  by_contra hwrap
  rw [not_lt] at hwrap
  have hfiles : 0 < d.numFiles := by
    rcases Nat.eq_zero_or_pos d.numFiles with h0 | h0
    · have := Word64.size_pos
      rw [h0, Nat.mul_zero] at hwrap
      omega
    · exact h0
  have htotal : d.numBlocksTotal < d.numBlocksPerFile * d.numFiles :=
    numBlocksTotal_lt.trans_le hwrap
  have hlast : d.numBlocksTotal ≤ d.blockOf (d.numFiles - 1) (d.fileSize - 1) := by
    have hfile := d.fileSize_pos
    have hbegin := (lt_numBlocks_iff d.blockSize_pos).mp
      (show d.numBlocksPerFile - 1 < numBlocks d.fileSize d.blockSize from
        Nat.sub_lt numBlocksPerFile_pos Nat.one_pos)
    have hblock : d.numBlocksPerFile - 1 ≤ (d.fileSize - 1) / d.blockSize :=
      (Nat.le_div_iff_mul_le d.blockSize_pos).mpr (by omega)
    have hmul := Nat.sub_mul d.numFiles 1 d.numBlocksPerFile
    have hcomm := Nat.mul_comm d.numFiles d.numBlocksPerFile
    have hone := Nat.le_mul_of_pos_left d.numBlocksPerFile hfiles
    rw [Nat.one_mul] at hmul
    unfold blockOf
    omega
  have hzero : d.numCovering slices (d.numFiles - 1) (d.fileSize - 1) = 0 := by
    refine numCovering_eq_zero fun rank hrank => ?_
    obtain ⟨fuel, hloop⟩ := (hranks rank hrank).1
    have := border_le d.numBlocksTotal d.numThreads (rank + 1)
    rw [← endBlock_eq hrank] at this
    exact countP_eq_zero (d.endBlock_lt rank) hloop (by omega)
  have := honce (d.numFiles - 1) (by omega) (d.fileSize - 1) (Nat.sub_lt d.fileSize_pos Nat.one_pos)
  omega

/-- With exact slices, the ranks partition the files. -/
theorem Fits.partitions (h : d.Fits) : d.Partitions := by
  have htotal : d.numBlocksTotal = d.numBlocksPerFile * d.numFiles := Word64.mul_eq h.totalFits
  have hloop : ∀ rank, ∃ slices, rank < d.numThreads →
      (∃ fuel, d.fileModeIterateFilesSeq rank fuel = some slices) ∧ ∀ file x, x < d.fileSize →
        slices.countP (Slice.covers file x) =
          if d.startBlock rank ≤ d.blockOf file x ∧ d.blockOf file x < d.endBlock rank then 1
          else 0 := by
    intro rank
    by_cases hrank : rank < d.numThreads
    · have hexact := h.exact rank hrank
      rw [← htotal, ← startBlock_eq hrank, ← endBlock_eq hrank] at hexact
      obtain ⟨fuel, slices, hloop, hcount⟩ :=
        sliceLoop_exact (d.endBlock_lt rank) (d.startBlock rank) hexact
      exact ⟨slices, fun _ => ⟨⟨fuel, hloop⟩, hcount⟩⟩
    · exact ⟨[], fun h => absurd h hrank⟩
  obtain ⟨slices, hslices⟩ := Classical.axiom_of_choice hloop
  refine ⟨slices, fun rank hrank => ⟨(hslices rank hrank).1, fun s hs => ?_⟩, ?_⟩
  · obtain ⟨fuel, hloop⟩ := (hslices rank hrank).1
    have he := d.endBlock_lt rank
    obtain ⟨c, -, hlt, rfl⟩ := exists_of_mem_sliceLoop he hloop hs
    have hend := slice_end_le (d := d) hlt he
    refine ⟨?_, ?_, hend, fun g => ?_⟩
    · rw [currentIoStart_eq]
      exact Nat.dvd_mul_left _ _
    · have := border_le d.numBlocksTotal d.numThreads (rank + 1)
      rw [← endBlock_eq hrank, htotal] at this
      refine (Nat.div_lt_iff_lt_mul numBlocksPerFile_pos).mpr ?_
      rw [Nat.mul_comm]
      omega
    · exact (g.reset _ _).exists_drawAll (lt_of_le_of_lt hend d.fileSize_lt)
  · intro file hfile x hx
    have hblock := blockOf_lt hfile hx
    have hsum := sum_between (border_mono d.numBlocksTotal d.numThreads) (d.blockOf file x)
      d.numThreads
    rw [border_zero d.numThreads_pos, border_last, if_pos ⟨Nat.zero_le _, by omega⟩] at hsum
    rw [← hsum, numCovering]
    congr 1
    refine List.map_congr_left fun rank hrank => ?_
    have hrank := List.mem_range.mp hrank
    rw [(hslices rank hrank).2 file x hx, startBlock_eq hrank, endBlock_eq hrank]

end Ranks

end SeqDataSet

/-- **Sequential file mode partitions the files** exactly if no product is reduced in a
way that shortens a slice: for every file size and block size, every number of files and
every number of threads. -/
theorem seqRanks_partition_iff (d : SeqDataSet) : d.Partitions ↔ d.Fits := by
  constructor
  · intro h
    have htotal : d.numBlocksTotal = d.numBlocksPerFile * d.numFiles := Word64.mul_eq h.totalFits
    refine ⟨h.totalFits, fun rank hrank => ?_⟩
    rw [← htotal, ← SeqDataSet.startBlock_eq hrank, ← SeqDataSet.endBlock_eq hrank]
    exact h.exact htotal hrank
  · exact SeqDataSet.Fits.partitions

/-- Four files of `2 ^ 62` bytes, blocks of 1 MiB and one thread. -/
def fourLargeFiles : SeqDataSet where
  fileSize := 2 ^ 62
  blockSize := 2 ^ 20
  numFiles := 4
  numThreads := 1
  fileSize_pos := by decide
  fileSize_lt := by decide
  blockSize_pos := by decide
  numThreads_pos := Nat.one_pos
  numThreads_lt := Word64.one_lt_size

/-- **A loop that does not end.**  The blocks of the only rank have `2 ^ 64` bytes; the
first slice gets the length 0, and the loop stays at the first block. -/
theorem fourLargeFiles_stuck :
    fourLargeFiles.numThreads ≤ fourLargeFiles.numBlocksPerFile * fourLargeFiles.numFiles ∧
      fourLargeFiles.slice (fourLargeFiles.endBlock 0) (fourLargeFiles.startBlock 0) = ⟨0, 0, 0⟩ ∧
      (∀ fuel, fourLargeFiles.fileModeIterateFilesSeq 0 fuel = none) ∧
      ¬ fourLargeFiles.Partitions := by
  have hstuck : ∀ fuel, fourLargeFiles.fileModeIterateFilesSeq 0 fuel = none := fun fuel =>
    SeqDataSet.sliceLoop_eq_none (by decide) (by decide) (by decide) fuel
  refine ⟨by decide, by decide +kernel, hstuck, ?_⟩
  rintro ⟨slices, hranks, -⟩
  obtain ⟨fuel, hloop⟩ := (hranks 0 (by decide)).1
  rw [hstuck] at hloop
  cases hloop

end Elbencho
