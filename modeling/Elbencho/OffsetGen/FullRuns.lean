import Elbencho.Library.Blocks
import Elbencho.OffsetGen.Dispatch

/-!
# Runs of a generator with full results

`drawAll` are the draws of a loop whose I/Os are all done in full, until there are no
bytes left.  The draws of a sequential run tile its range from the start to the end, those
of a reverse run do so from the end to the start: `sequential_and_reverse_tile`.  The draws
of a strided run are listed, with the offsets as they wrap around.
-/

namespace Elbencho

open Transition

/-! ## Tilings -/

/-- A byte lies in an I/O. -/
def coversByte (x : ℕ) (io : ℕ × ℕ) : Bool := io.1 ≤ x ∧ x < io.1 + io.2

/-- `Tiles a ios b`: the I/Os are not empty, the first one begins at `a`, each other one
begins where the one before ends, and the last one ends at `b`. -/
def Tiles : ℕ → List (ℕ × ℕ) → ℕ → Prop
  | a, [], b => a = b
  | a, io :: ios, b => io.1 = a ∧ 0 < io.2 ∧ Tiles (a + io.2) ios b

namespace Tiles

theorem le {a b : ℕ} {ios : List (ℕ × ℕ)} (h : Tiles a ios b) : a ≤ b := by
  induction ios generalizing a with
  | nil => exact Nat.le_of_eq h
  | cons io ios ih =>
    have hrest := ih h.2.2
    omega

/-- One more I/O at the end. -/
theorem concat {a b : ℕ} {ios : List (ℕ × ℕ)} (h : Tiles a ios b) {size : ℕ} (hpos : 0 < size) :
    Tiles a (ios ++ [(b, size)]) (b + size) := by
  induction ios generalizing a with
  | nil =>
    have hab : a = b := h
    exact ⟨hab.symm, hpos, congrArg (· + size) hab⟩
  | cons io ios ih => exact ⟨h.1, h.2.1, ih h.2.2⟩

/-- **A tiling covers every byte between its ends once**, and no other one. -/
theorem countP_coversByte {a b : ℕ} {ios : List (ℕ × ℕ)} (h : Tiles a ios b) (x : ℕ) :
    ios.countP (coversByte x) = if a ≤ x ∧ x < b then 1 else 0 := by
  induction ios generalizing a with
  | nil =>
    have hab : a = b := h
    rw [if_neg (by omega)]
    rfl
  | cons io ios ih =>
    obtain ⟨rfl, hpos, hrest⟩ := h
    have hle := hrest.le
    rw [List.countP_cons, ih hrest, coversByte]
    simp only [decide_eq_true_eq]
    split_ifs <;> omega

/-- The I/Os of a tiling lie between its ends. -/
theorem inside {a b : ℕ} {ios : List (ℕ × ℕ)} (h : Tiles a ios b) {io : ℕ × ℕ} (hio : io ∈ ios) :
    a ≤ io.1 ∧ io.1 + io.2 ≤ b := by
  induction ios generalizing a with
  | nil => exact absurd hio List.not_mem_nil
  | cons first ios ih =>
    obtain ⟨rfl, hpos, hrest⟩ := h
    have hle := hrest.le
    rcases List.mem_cons.mp hio with rfl | hmem
    · exact ⟨Nat.le_refl _, hle⟩
    · have hin := ih hrest hmem
      omega

/-- Every byte between the ends lies in an I/O of the tiling. -/
theorem exists_coversByte {a b : ℕ} {ios : List (ℕ × ℕ)} (h : Tiles a ios b) {x : ℕ}
    (hstart : a ≤ x) (hend : x < b) : ∃ io ∈ ios, coversByte x io := by
  have hcount := h.countP_coversByte x
  rw [if_pos ⟨hstart, hend⟩] at hcount
  exact List.countP_pos_iff.mp (by omega)

end Tiles

/-! ## The draws of a run -/

namespace OffsetGenerator

variable {G : Type*} [OffsetGenerator G]

/-- The draws of a loop with full results; `none` if it needs more passes. -/
def drawAll : ℕ → G → Option (List (ℕ × ℕ))
  | 0, _ => none
  | fuel + 1, g =>
    if getNumBytesLeftToSubmit g = 0 then some []
    else (drawAll fuel (submitDraw g)).map ((draw g).1 :: ·)

variable {g : G}

/-- Nothing is left to draw. -/
theorem drawAll_of_done (h : getNumBytesLeftToSubmit g = 0) : drawAll 1 g = some [] := if_pos h

/-- One draw and the rest. -/
theorem drawAll_succ (h : getNumBytesLeftToSubmit g ≠ 0) {fuel : ℕ} {ios : List (ℕ × ℕ)}
    (hrest : drawAll fuel (submitDraw g) = some ios) :
    drawAll (fuel + 1) g = some ((draw g).1 :: ios) := by
  rw [drawAll, if_neg h, hrest]
  rfl

/-- The draws of a run with bytes left begin with the next one. -/
theorem exists_of_drawAll (hleft : getNumBytesLeftToSubmit g ≠ 0) {fuel : ℕ} {ios : List (ℕ × ℕ)}
    (h : drawAll fuel g = some ios) :
    ∃ fuel' rest, drawAll fuel' (submitDraw g) = some rest ∧ ios = (draw g).1 :: rest := by
  cases fuel with
  | zero => cases h
  | succ fuel =>
    rw [drawAll, if_neg hleft] at h
    obtain ⟨rest, hrest, rfl⟩ := Option.map_eq_some_iff.mp h
    exact ⟨fuel, rest, hrest, rfl⟩

/-- The draws do not depend on the fuel. -/
theorem drawAll_unique {fuel fuel' : ℕ} {ios ios' : List (ℕ × ℕ)}
    (h : drawAll fuel g = some ios) (h' : drawAll fuel' g = some ios') : ios = ios' := by
  induction fuel generalizing g fuel' ios ios' with
  | zero => cases h
  | succ fuel ih =>
    cases fuel' with
    | zero => cases h'
    | succ fuel' =>
      rw [drawAll] at h h'
      split_ifs at h h' with hleft
      · exact Option.some.inj (h.symm.trans h')
      · obtain ⟨rest, hrest, rfl⟩ := Option.map_eq_some_iff.mp h
        obtain ⟨rest', hrest', rfl⟩ := Option.map_eq_some_iff.mp h'
        rw [ih hrest hrest']

end OffsetGenerator

open OffsetGenerator Blocks

theorem AnyOffsetGen.Dispatches.drawAll_eq {G : Type*} [OffsetGenerator G]
    {toAny : G → AnyOffsetGen} (h : AnyOffsetGen.Dispatches toAny) (fuel : ℕ) (g : G) :
    drawAll fuel (toAny g) = drawAll fuel g := by
  induction fuel generalizing g with
  | zero => rfl
  | succ fuel ih =>
    rw [drawAll, drawAll, h.getNumBytesLeftToSubmit_eq, h.draw_eq, h.submitDraw_eq, ih]

/-! ## Sequential and reverse runs -/

/-- **A sequential run tiles the rest of its range.** -/
theorem OffsetGenSequential.exists_tiles (g : OffsetGenSequential)
    (hfits : g.currentOffset + g.numBytesLeft < Word64.size) :
    ∃ fuel ios, drawAll fuel g = some ios ∧
      Tiles g.currentOffset ios (g.currentOffset + g.numBytesLeft) := by
  induction hn : g.numBytesLeft using Nat.strong_induction_on generalizing g with
  | h n ih =>
    subst hn
    by_cases hleft : g.numBytesLeft = 0
    · refine ⟨1, [], drawAll_of_done hleft, ?_⟩
      rw [hleft]
      rfl
    · have hpos : 0 < (draw g).1.2 := LawfulOffsetGenerator.size_pos g trivial hleft
      have hle : (draw g).1.2 ≤ g.numBytesLeft := min_le_left _ _
      have hleft' : (submitDraw g).numBytesLeft = g.numBytesLeft - (draw g).1.2 :=
        Word64.sub_eq hle (show g.numBytesLeft < Word64.size by omega)
      have hoffset' : (submitDraw g).currentOffset = g.currentOffset + (draw g).1.2 :=
        Word64.add_eq (show g.currentOffset + (draw g).1.2 < Word64.size by omega)
      obtain ⟨fuel, ios, hrest, htiles⟩ :=
        ih (g.numBytesLeft - (draw g).1.2) (by omega) (submitDraw g)
          (by rw [hleft', hoffset']; omega) hleft'
      refine ⟨fuel + 1, _, drawAll_succ hleft hrest, rfl, hpos, ?_⟩
      rw [hoffset', Nat.add_assoc, Nat.add_sub_cancel' hle] at htiles
      exact htiles

/-- **A sequential run covers the rest of its range once.** -/
theorem OffsetGenSequential.exists_drawAll (g : OffsetGenSequential)
    (hfits : g.currentOffset + g.numBytesLeft < Word64.size) :
    ∃ fuel ios, drawAll fuel g = some ios ∧ ∀ x, ios.countP (coversByte x) =
      if g.currentOffset ≤ x ∧ x < g.currentOffset + g.numBytesLeft then 1 else 0 := by
  obtain ⟨fuel, ios, hrun, htiles⟩ := g.exists_tiles hfits
  exact ⟨fuel, ios, hrun, htiles.countP_coversByte⟩

namespace OffsetGenReverseSeq

theorem submitDraw_startOffset (g : OffsetGenReverseSeq) :
    (submitDraw g).startOffset = g.startOffset := by
  cases g
  rfl

/-- The draw of a block goes behind a tiling of the blocks before it. -/
theorem AtBlock.tiles_draw {g : OffsetGenReverseSeq} {i : ℕ} (h : g.AtBlock i)
    {ios : List (ℕ × ℕ)}
    (hbefore : Tiles g.startOffset ios.reverse (g.startOffset + i * g.blockSize)) :
    Tiles g.startOffset ((draw g).1 :: ios).reverse (g.startOffset + g.numBytesLeft) := by
  have hlt := h.lt_total
  have hsucc := Nat.add_one_mul i g.blockSize
  have hleft := h.numBytesLeft_eq
  have hdraw : (draw g).1 =
      (g.startOffset + i * g.blockSize, min (g.numBytesTotal - i * g.blockSize) g.blockSize) :=
    Prod.ext h.currentOffset_eq h.size_eq
  have hend : g.startOffset + g.numBytesLeft = g.startOffset + i * g.blockSize +
      min (g.numBytesTotal - i * g.blockSize) g.blockSize := by omega
  rw [List.reverse_cons, hdraw, hend]
  exact hbefore.concat (lt_min (by omega) h.blockSize_pos)

/-- A reverse run from a block of its range tiles the blocks up to that one, the last one
first. -/
theorem AtBlock.exists_tiles {g : OffsetGenReverseSeq} {i : ℕ} (h : g.AtBlock i) :
    ∃ fuel ios, drawAll fuel g = some ios ∧
      Tiles g.startOffset ios.reverse (g.startOffset + g.numBytesLeft) := by
  have hleft : getNumBytesLeftToSubmit g ≠ 0 := by
    show g.numBytesLeft ≠ 0
    have hpos := h.blockSize_pos
    have hlt := h.lt_total
    rw [h.numBytesLeft_eq, Nat.add_one_mul]
    omega
  have hbefore := h.submitDraw_numBytesLeft
  induction i generalizing g with
  | zero =>
    have hdone : getNumBytesLeftToSubmit (OffsetGenerator.submitDraw g) = 0 :=
      hbefore.trans (Nat.zero_mul _)
    refine ⟨2, _, drawAll_succ hleft (drawAll_of_done hdone), h.tiles_draw ?_⟩
    exact (congrArg (g.startOffset + ·) (Nat.zero_mul g.blockSize)).symm
  | succ i ih =>
    have hnext := h.submitDraw
    have hleft' : getNumBytesLeftToSubmit (OffsetGenerator.submitDraw g) ≠ 0 := by
      have hpos := Nat.mul_pos (Nat.succ_pos i) h.blockSize_pos
      exact fun hzero => absurd (hbefore.symm.trans hzero) (Nat.ne_of_gt hpos)
    obtain ⟨fuel, ios, hrest, htiles⟩ := ih hnext hleft' hnext.submitDraw_numBytesLeft
    rw [submitDraw_startOffset, hbefore] at htiles
    exact ⟨fuel + 1, _, drawAll_succ hleft hrest, h.tiles_draw htiles⟩

/-- **A reverse run tiles its range**, the last block first. -/
theorem exists_tiles {len offset blockSize : ℕ} (hbs : 0 < blockSize)
    (hfits : offset + len < Word64.size) :
    ∃ fuel ios, drawAll fuel (make len offset blockSize) = some ios ∧
      Tiles offset ios.reverse (offset + len) := by
  rcases Nat.eq_zero_or_pos len with rfl | hlen
  · exact ⟨1, [], drawAll_of_done rfl, rfl⟩
  · exact (atBlock_make hlen hbs hfits).exists_tiles

end OffsetGenReverseSeq

/-- **The sequential and the reverse generator tile their range**, from the start and from
the end, as they were made and after a reset to another range. -/
theorem sequential_and_reverse_tile (len offset : ℕ) (hfits : offset + len < Word64.size) :
    (∀ (mix : BlockSizeMix) (randAlgo : RandAlgo), ∃ fuel ios,
      drawAll fuel (OffsetGenSequential.make len offset mix randAlgo) = some ios ∧
        Tiles offset ios (offset + len)) ∧
    (∀ g : OffsetGenSequential, ∃ fuel ios,
      drawAll fuel (g.reset len offset) = some ios ∧ Tiles offset ios (offset + len)) ∧
    (∀ blockSize, 0 < blockSize → ∃ fuel ios,
      drawAll fuel (OffsetGenReverseSeq.make len offset blockSize) = some ios ∧
        Tiles offset ios.reverse (offset + len)) ∧
    ∀ g : OffsetGenReverseSeq, 0 < g.blockSize → ∃ fuel ios,
      drawAll fuel (g.reset len offset) = some ios ∧
        Tiles offset ios.reverse (offset + len) := by
  refine ⟨fun mix randAlgo => ?_, fun g => ?_, fun blockSize hbs => ?_, fun g hbs => ?_⟩
  · exact OffsetGenSequential.exists_tiles (.make len offset mix randAlgo) hfits
  · exact (g.reset len offset).exists_tiles hfits
  · exact OffsetGenReverseSeq.exists_tiles hbs hfits
  · exact OffsetGenReverseSeq.exists_tiles hbs hfits

theorem sequential_and_reverse_tile_short : ∃ fuel ios,
    drawAll fuel (OffsetGenReverseSeq.make 10 3 4) = some ios ∧ Tiles 3 ios.reverse 13 :=
  (sequential_and_reverse_tile 10 3 (by decide)).2.2.1 4 (by decide)

/-! ## Strided runs -/

theorem OffsetGenStrided.submitDraw_blockSize (g : OffsetGenStrided) :
    (submitDraw g).blockSize = g.blockSize := by
  cases g
  rfl

theorem OffsetGenStrided.submitDraw_numDataSetThreads (g : OffsetGenStrided) :
    (submitDraw g).numDataSetThreads = g.numDataSetThreads := by
  cases g
  rfl

/-- **A strided run**: its draws are a stride apart, and all but the last one have the
block size. -/
theorem OffsetGenStrided.exists_drawAll (g : OffsetGenStrided) (hpos : 0 < g.blockSize)
    (hlt : g.numBytesLeft < Word64.size) (hcur : g.currentOffset < Word64.size) :
    ∃ fuel, drawAll fuel g =
      some ((List.range (numBlocks g.numBytesLeft g.blockSize)).map fun j =>
        ((g.currentOffset + j * (g.blockSize * g.numDataSetThreads)) % Word64.size,
          min (g.numBytesLeft - j * g.blockSize) g.blockSize)) := by
  induction hn : g.numBytesLeft using Nat.strong_induction_on generalizing g with
  | h n ih =>
    subst hn
    by_cases hleft : g.numBytesLeft = 0
    · refine ⟨1, ?_⟩
      rw [drawAll_of_done hleft, hleft, numBlocks_zero]
      rfl
    · have hle : (draw g).1.2 ≤ g.numBytesLeft := min_le_left _ _
      have hsize : (draw g).1.2 = min g.numBytesLeft g.blockSize := rfl
      have hleft' : (submitDraw g).numBytesLeft = g.numBytesLeft - (draw g).1.2 :=
        Word64.sub_eq hle hlt
      have hoffset' : (submitDraw g).currentOffset =
          (g.currentOffset + g.blockSize * g.numDataSetThreads) % Word64.size := by
        have hnext : (submitDraw g).currentOffset = Word64.add g.currentOffset
          (Word64.mul g.blockSize g.numDataSetThreads) := rfl
        rw [hnext, Word64.add, Word64.mul, Nat.add_mod_mod]
      obtain ⟨fuel, hrest⟩ := ih (g.numBytesLeft - (draw g).1.2) (by omega) (submitDraw g)
        (by rw [g.submitDraw_blockSize]; exact hpos) (by omega)
        (by rw [hoffset']; exact Nat.mod_lt _ Word64.size_pos) hleft'
      refine ⟨fuel + 1, ?_⟩
      rw [drawAll_succ hleft hrest, hoffset', g.submitDraw_blockSize,
        g.submitDraw_numDataSetThreads, hsize, numBlocks_eq_succ hpos (Nat.pos_of_ne_zero hleft),
        List.range_succ_eq_map, List.map_cons, List.map_map]
      refine congrArg some (List.cons_eq_cons.mpr ⟨?_, ?_⟩)
      · have hdraw : (draw g).1 = (g.currentOffset, min g.numBytesLeft g.blockSize) := rfl
        rw [hdraw, Nat.zero_mul, Nat.zero_mul, Nat.add_zero, Nat.sub_zero, Nat.mod_eq_of_lt hcur]
      · refine List.map_congr_left fun j _ => ?_
        have hsucc := Nat.add_one_mul j g.blockSize
        rw [Function.comp_apply, Nat.succ_eq_add_one, Nat.mod_add_mod, hsucc, Nat.add_one_mul,
          Nat.add_assoc, Nat.add_comm (g.blockSize * _)]
        congr 1
        omega

end Elbencho
