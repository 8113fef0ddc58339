import Elbencho.OffsetGen.FullCoverage
import Elbencho.OffsetGen.FullRuns

/-!
# Cycles of the full coverage generator

A `CoveringRandomGenerator` returns the numbers of its range in cycles, each from a new seed.  A
cycle is as many calls of `next` as the range has numbers: it returns each number once
(`AtCycle.perm`), because the searches of a period find each state below the range size once
(`Lcg.walks_perm`).  So the calls with numbers `p * n` to `p * n + n - 1` return the range, for
every `p` (`AtCycle.perm_drop`).

**`fullCoverage_permutation`** is the main statement: every call ends, every cycle is a
permutation of the range, and `OffsetGenRandomAlignedFullCoverageV2` visits every block of its
range once in each pass over as many bytes as the range has.
-/

namespace Elbencho

open OffsetGenerator Blocks

namespace CoveringRandomGenerator

/-! ## Calls one after the other -/

/-- The generator whose loop runs in a call of `next`. -/
def seeded (g : CoveringRandomGenerator) : CoveringRandomGenerator :=
  if g.hasNext then g else g.reset

/-- **The loop of a call ends**: after some steps it finds the first state of the range, and this
is the number that is returned. -/
def LoopEnds (g : CoveringRandomGenerator) : Prop :=
  ∃ j, (lcgStep g.mLcg)^[j + 1] g.seeded.currentLcgState < g.rangeSize ∧
    (∀ i < j, g.rangeSize ≤ (lcgStep g.mLcg)^[i + 1] g.seeded.currentLcgState) ∧
    g.next.1 = Word64.add g.minValue ((lcgStep g.mLcg)^[j + 1] g.seeded.currentLcgState)

/-- The numbers of calls of `next` one after the other, and the generator after them. -/
def nexts : ℕ → CoveringRandomGenerator → List ℕ × CoveringRandomGenerator
  | 0, g => ([], g)
  | n + 1, g => (g.next.1 :: (nexts n g.next.2).1, (nexts n g.next.2).2)

theorem nexts_add (m n : ℕ) (g : CoveringRandomGenerator) :
    nexts (m + n) g =
      ((nexts m g).1 ++ (nexts n (nexts m g).2).1, (nexts n (nexts m g).2).2) := by
  induction m generalizing g with
  | zero => rw [Nat.zero_add]; rfl
  | succ m ih =>
    rw [Nat.add_right_comm, nexts, ih]
    rfl

theorem length_nexts (n : ℕ) (g : CoveringRandomGenerator) : (nexts n g).1.length = n := by
  induction n generalizing g with
  | zero => rfl
  | succ n ih => exact congrArg (· + 1) (ih g.next.2)

theorem take_nexts {m n : ℕ} (h : m ≤ n) (g : CoveringRandomGenerator) :
    (nexts n g).1.take m = (nexts m g).1 := by
  obtain ⟨d, rfl⟩ := Nat.exists_eq_add_of_le h
  rw [nexts_add, List.take_left' (length_nexts m g)]

/-- A generator for `n` numbers from `minVal` on. -/
structure ForRange (g : CoveringRandomGenerator) (minVal n : ℕ) : Prop where
  minValue_eq : g.minValue = minVal
  rangeSize_eq : g.rangeSize = n
  pos : 0 < n
  fits : minVal + n ≤ Word64.size
  mLcg_pow : ∃ k ≤ 64, g.mLcg = 2 ^ k ∧ n ≤ 2 ^ k

section ForRange

variable {g : CoveringRandomGenerator} {minVal n : ℕ}

theorem ForRange.reset (h : g.ForRange minVal n) : g.reset.ForRange minVal n :=
  ⟨h.minValue_eq, h.rangeSize_eq, h.pos, h.fits, h.mLcg_pow⟩

theorem ForRange.seeded (h : g.ForRange minVal n) : g.seeded.ForRange minVal n := by
  unfold CoveringRandomGenerator.seeded
  split
  · exact h
  · exact h.reset

theorem next_eq (g : CoveringRandomGenerator) :
    g.next = (Word64.add g.seeded.minValue (Lcg.walk (lcgStep g.seeded.mLcg) g.seeded.rangeSize
      g.seeded.mLcg g.seeded.currentLcgState),
      { g.seeded with
        currentCount := g.seeded.currentCount + 1
        currentLcgState := Lcg.walk (lcgStep g.seeded.mLcg) g.seeded.rangeSize g.seeded.mLcg
          g.seeded.currentLcgState }) := rfl

theorem ForRange.next (h : g.ForRange minVal n) : g.next.2.ForRange minVal n := by
  rw [next_eq]
  exact ⟨h.seeded.minValue_eq, h.seeded.rangeSize_eq, h.pos, h.fits, h.seeded.mLcg_pow⟩

theorem ForRange.nexts (h : g.ForRange minVal n) (count : ℕ) :
    (nexts count g).2.ForRange minVal n := by
  induction count generalizing g with
  | zero => exact h
  | succ count ih => exact ih h.next

theorem ForRange.walk_lt (h : g.ForRange minVal n) (x : ℕ) :
    Lcg.walk (lcgStep g.mLcg) n g.mLcg x < n := by
  obtain ⟨k, hk, hpow, -⟩ := h.mLcg_pow
  rw [hpow, lcgStep_two_pow hk]
  exact Lcg.walk_lt (by decide) (by decide) h.pos

/-- The loop of every call ends. -/
theorem ForRange.loopEnds (h : g.ForRange minVal n) : g.LoopEnds := by
  obtain ⟨k, hk, hpow, -⟩ := h.mLcg_pow
  have hsame : g.seeded.mLcg = g.mLcg ∧ g.seeded.rangeSize = g.rangeSize ∧
      g.seeded.minValue = g.minValue := by
    unfold CoveringRandomGenerator.seeded
    split
    · exact ⟨rfl, rfl, rfl⟩
    · exact ⟨rfl, rfl, rfl⟩
  obtain ⟨j, hwalk, hlt, hskip⟩ := Lcg.exists_walk_step_eq (a := aLcg) (c := cLcg) (k := k)
    (by decide) (by decide) h.pos g.seeded.currentLcgState
  rw [LoopEnds, next_eq, hsame.1, hsame.2.1, hsame.2.2, hpow, lcgStep_two_pow hk, h.rangeSize_eq,
    hwalk]
  exact ⟨j, hlt, hskip, rfl⟩

/-- **Calls within a cycle** are searches one after the other. -/
theorem ForRange.nexts_eq_walks (h : g.ForRange minVal n) {count : ℕ}
    (hcount : g.currentCount + count ≤ n) :
    (CoveringRandomGenerator.nexts count g).1 =
        (Lcg.walks (lcgStep g.mLcg) n g.mLcg count g.currentLcgState).map (minVal + ·) ∧
      (CoveringRandomGenerator.nexts count g).2.currentCount = g.currentCount + count := by
  induction count generalizing g with
  | zero => exact ⟨rfl, rfl⟩
  | succ count ih =>
    have hnext : g.seeded = g := by
      unfold CoveringRandomGenerator.seeded
      rw [if_pos]
      rw [hasNext, h.rangeSize_eq, decide_eq_true_eq]
      omega
    have hwalk := h.walk_lt g.currentLcgState
    have hfits := h.fits
    obtain ⟨hwalks, hcounted⟩ := ih h.next (by
      rw [next_eq, hnext]
      dsimp only
      omega)
    rw [CoveringRandomGenerator.nexts, hwalks, hcounted, next_eq, hnext, h.minValue_eq,
      h.rangeSize_eq]
    refine ⟨?_, ?_⟩
    · rw [Lcg.walks, List.map_cons, Word64.add_eq (by omega)]
    · dsimp only
      omega

/-- The generator is at the beginning of a cycle: it is new, or the last cycle is over. -/
structure AtCycle (g : CoveringRandomGenerator) (minVal n : ℕ) : Prop
    extends ForRange g minVal n where
  count_eq : g.currentCount = 0 ∨ g.currentCount = n

/-- A cycle from a new seed. -/
theorem ForRange.perm_of_count (h : g.ForRange minVal n) (hcount : g.currentCount = 0) :
    (CoveringRandomGenerator.nexts n g).1.Perm (List.range' minVal n) ∧
      (CoveringRandomGenerator.nexts n g).2.AtCycle minVal n := by
  obtain ⟨hwalks, hcounted⟩ := h.nexts_eq_walks (show g.currentCount + n ≤ n by omega)
  obtain ⟨k, hk, hpow, hle⟩ := h.mLcg_pow
  refine ⟨?_, h.nexts n, Or.inr (by omega)⟩
  rw [hwalks, hpow, lcgStep_two_pow hk, List.range'_eq_map_range]
  exact (Lcg.walks_perm (by decide) (by decide) hle _).map _

/-- After a cycle the next call starts a new one. -/
theorem ForRange.next_of_done (h : g.ForRange minVal n) (hcount : g.currentCount = n) :
    g.next = g.reset.next := by
  have hdone : g.seeded = g.reset := by
    unfold CoveringRandomGenerator.seeded
    rw [if_neg]
    rw [hasNext, h.rangeSize_eq, hcount, decide_eq_true_eq]
    exact lt_irrefl n
  have hnew : g.reset.seeded = g.reset := by
    unfold CoveringRandomGenerator.seeded
    rw [if_pos]
    rw [hasNext, h.reset.rangeSize_eq, decide_eq_true_eq]
    exact h.pos
  rw [next_eq, next_eq, hdone, hnew]

/-- **A cycle** returns every number of the range once. -/
theorem AtCycle.perm (h : g.AtCycle minVal n) :
    (CoveringRandomGenerator.nexts n g).1.Perm (List.range' minVal n) ∧
      (CoveringRandomGenerator.nexts n g).2.AtCycle minVal n := by
  rcases h.count_eq with hcount | hcount
  · exact h.toForRange.perm_of_count hcount
  · have hreset := h.toForRange.reset.perm_of_count rfl
    have hsame : CoveringRandomGenerator.nexts n g =
        CoveringRandomGenerator.nexts n g.reset := by
      obtain ⟨m, rfl⟩ := Nat.exists_eq_succ_of_ne_zero h.pos.ne'
      rw [CoveringRandomGenerator.nexts, CoveringRandomGenerator.nexts,
        h.toForRange.next_of_done hcount]
    rw [hsame]
    exact hreset

theorem AtCycle.nexts_mul (h : g.AtCycle minVal n) (p : ℕ) :
    (CoveringRandomGenerator.nexts (p * n) g).2.AtCycle minVal n := by
  induction p with
  | zero =>
    rw [Nat.zero_mul]
    exact h
  | succ p ih =>
    rw [Nat.add_one_mul, nexts_add]
    exact ih.perm.2

/-- **Every cycle** returns every number of the range once. -/
theorem AtCycle.perm_drop (h : g.AtCycle minVal n) (p : ℕ) :
    ((CoveringRandomGenerator.nexts (p * n + n) g).1.drop (p * n)).Perm (List.range' minVal n) := by
  have hlength := length_nexts (p * n) g
  rw [nexts_add, List.drop_left' hlength]
  exact (h.nexts_mul p).perm.1

/-- The calls of a cycle among more calls. -/
theorem AtCycle.perm_take_drop (h : g.AtCycle minVal n) {p count : ℕ}
    (hcount : p * n + n ≤ count) :
    (((CoveringRandomGenerator.nexts count g).1.drop (p * n)).take n).Perm
      (List.range' minVal n) := by
  rw [List.take_drop, take_nexts hcount]
  exact h.perm_drop p

/-- The calls of a cycle that is not finished. -/
theorem AtCycle.subperm_take_drop (h : g.AtCycle minVal n) (p count : ℕ) :
    (((CoveringRandomGenerator.nexts count g).1.drop (p * n)).take n).Subperm
      (List.range' minVal n) := by
  have hmore : (CoveringRandomGenerator.nexts count g).1 =
      (CoveringRandomGenerator.nexts (count + (p * n + n)) g).1.take count :=
    (take_nexts (Nat.le_add_right _ _) g).symm
  have hsub : (((CoveringRandomGenerator.nexts count g).1.drop (p * n)).take n).Sublist
      (((CoveringRandomGenerator.nexts (count + (p * n + n)) g).1.drop (p * n)).take n) := by
    rw [hmore, List.drop_take, List.take_take, min_comm, ← List.take_take]
    exact List.take_sublist _ _
  exact hsub.subperm.trans (h.perm_take_drop (Nat.le_add_left _ _)).subperm

end ForRange

/-- A new generator is at the beginning of a cycle. -/
theorem make_atCycle {minVal maxVal : ℕ} (hle : minVal ≤ maxVal) (hsize : maxVal - minVal < 2 ^ 63)
    (hmax : maxVal < Word64.size) (rd : RandomDevice) :
    ∃ g, make minVal maxVal rd = .ok g ∧ g.AtCycle minVal (maxVal - minVal + 1) := by
  have hbits : (maxVal - minVal).size ≤ 64 := Nat.size_le.mpr (by omega)
  refine ⟨_, make_eq hle hsize hmax rd, ⟨rfl, rfl, Nat.succ_pos _, by omega, _, hbits, rfl, ?_⟩,
    Or.inl rfl⟩
  exact Nat.lt_size_self (maxVal - minVal)

end CoveringRandomGenerator

namespace OffsetGenRandomAlignedFullCoverageV2

/-! ## Passes over the blocks -/

theorem submitDraw_eq (g : OffsetGenRandomAlignedFullCoverageV2) :
    submitDraw g = ⟨g.numBytesTotal, Word64.sub g.numBytesLeft (min g.numBytesLeft g.blockSize),
      g.blockSize, g.randomGen.next.2⟩ := by
  obtain ⟨total, left, blockSize, randomGen⟩ := g
  rfl

/-- **The draws of a loop**: the numbers of the covering generator, times the block size, and
all but the last one of a whole block. -/
theorem exists_drawAll (g : OffsetGenRandomAlignedFullCoverageV2) (hpos : 0 < g.blockSize)
    (hlt : g.numBytesLeft < Word64.size) :
    ∃ fuel ios, drawAll fuel g = some ios ∧
      ios.map Prod.fst = (g.randomGen.nexts (numBlocks g.numBytesLeft g.blockSize)).1.map
        (Word64.mul · g.blockSize) ∧
      ios.map Prod.snd = (List.range (numBlocks g.numBytesLeft g.blockSize)).map fun j =>
        min (g.numBytesLeft - j * g.blockSize) g.blockSize := by
  induction hn : g.numBytesLeft using Nat.strong_induction_on generalizing g with
  | h n ih =>
    subst hn
    by_cases hleft : g.numBytesLeft = 0
    · refine ⟨1, [], drawAll_of_done hleft, ?_, ?_⟩
      · rw [hleft, numBlocks_zero]
        rfl
      · rw [hleft, numBlocks_zero]
        rfl
    · have hmin : min g.numBytesLeft g.blockSize ≤ g.numBytesLeft := min_le_left _ _
      have hleft' : (submitDraw g).numBytesLeft =
          g.numBytesLeft - min g.numBytesLeft g.blockSize := by
        rw [submitDraw_eq]
        exact Word64.sub_eq hmin hlt
      have hsize' : (submitDraw g).blockSize = g.blockSize := by rw [submitDraw_eq]
      have hgen' : (submitDraw g).randomGen = g.randomGen.next.2 := by rw [submitDraw_eq]
      obtain ⟨fuel, ios, hrest, hfst, hsnd⟩ := ih _ (by omega) (submitDraw g)
        (by rw [hsize']; exact hpos) (by omega) hleft'
      rw [hsize', hgen'] at hfst
      rw [hsize'] at hsnd
      refine ⟨fuel + 1, _, drawAll_succ hleft hrest, ?_, ?_⟩
      · rw [List.map_cons, hfst, numBlocks_eq_succ hpos (Nat.pos_of_ne_zero hleft)]
        rfl
      · rw [List.map_cons, hsnd, numBlocks_eq_succ hpos (Nat.pos_of_ne_zero hleft),
          List.range_succ_eq_map, List.map_cons, List.map_map]
        refine List.cons_eq_cons.mpr ⟨?_, List.map_congr_left fun j hj => ?_⟩
        · rw [Nat.zero_mul, Nat.sub_zero]
          rfl
        · have hblock := (lt_numBlocks_iff hpos).mp (List.mem_range.mp hj)
          have hsucc : j.succ * g.blockSize = j * g.blockSize + g.blockSize :=
            Nat.succ_mul j g.blockSize
          rw [Function.comp_apply, hsucc]
          omega

theorem make_eq_ok {len offset blockSize : ℕ} (hpos : 0 < blockSize) (hlen : 0 < len)
    (hdvd : blockSize ∣ len) (hblocks : len / blockSize ≤ 2 ^ 63)
    (hfits : offset + len ≤ Word64.size) (numBytesTotal : ℕ) (rd : RandomDevice) :
    ∃ g, make numBytesTotal len offset blockSize rd = .ok g ∧
      g.numBytesLeft = numBytesTotal ∧ g.blockSize = blockSize ∧
      g.randomGen.AtCycle (offset / blockSize) (len / blockSize) := by
  have hne : blockSize ≠ 0 := hpos.ne'
  have hsome : 0 < len / blockSize := Nat.div_pos (Nat.le_of_dvd hlen hdvd) hpos
  have hsum : offset / blockSize + len / blockSize ≤ Word64.size := by
    have hoffset := Nat.div_le_self offset blockSize
    have hlength := Nat.div_le_self len blockSize
    omega
  have hstart : calcStartBlockIdx offset blockSize = offset / blockSize := if_pos hne
  have hend : calcEndBlockIdx offset len blockSize =
      offset / blockSize + (len / blockSize - 1) := by
    rw [calcEndBlockIdx, hstart, if_pos ⟨hne, hsome.ne'⟩, Word64.add_eq (by omega)]
  have hcount : offset / blockSize + (len / blockSize - 1) - offset / blockSize + 1 =
      len / blockSize := by omega
  obtain ⟨randomGen, hmake, hcycle⟩ := CoveringRandomGenerator.make_atCycle
    (Nat.le_add_right (offset / blockSize) (len / blockSize - 1)) (by omega) (by omega) rd
  rw [hcount] at hcycle
  refine ⟨⟨numBytesTotal, numBytesTotal, blockSize, randomGen⟩, ?_, rfl, rfl, hcycle⟩
  rw [make, hstart, hend, hmake]
  rfl

end OffsetGenRandomAlignedFullCoverageV2

/-- The block offsets of a range. -/
def blockOffsets (len offset blockSize : ℕ) : List ℕ :=
  (List.range (len / blockSize)).map fun i => offset + i * blockSize

/-- Block numbers as offsets. -/
theorem map_mul_range' {len offset blockSize : ℕ} (hpos : 0 < blockSize) (hlen : blockSize ∣ len)
    (hoffset : blockSize ∣ offset) (hfits : offset + len ≤ Word64.size) :
    (List.range' (offset / blockSize) (len / blockSize)).map (Word64.mul · blockSize) =
      blockOffsets len offset blockSize := by
  rw [blockOffsets, List.range'_eq_map_range, List.map_map]
  refine List.map_congr_left fun i hi => ?_
  have hmul : (i + 1) * blockSize ≤ len := by
    have hle := Nat.mul_le_mul_right blockSize (Nat.succ_le_of_lt (List.mem_range.mp hi))
    rwa [Nat.div_mul_cancel hlen] at hle
  have hprod : (offset / blockSize + i) * blockSize = offset + i * blockSize := by
    rw [Nat.add_mul, Nat.div_mul_cancel hoffset]
  have hsucc := Nat.add_one_mul i blockSize
  rw [Function.comp_apply, Word64.mul_eq (by omega), hprod]

/-- **Main statement.**  The loop of every call of `next` ends, every cycle of calls returns the
numbers of the range once; and every pass of the offset generator over as many bytes as its
range has visits every block of the range once, in whole blocks.  In a pass that the amount of
bytes cuts off no block is visited twice. -/
theorem fullCoverage_permutation :
    (∀ (minVal maxVal : ℕ) (rd : RandomDevice), minVal ≤ maxVal → maxVal - minVal + 1 ≤ 2 ^ 63 →
      maxVal < Word64.size →
      ∃ g, CoveringRandomGenerator.make minVal maxVal rd = .ok g ∧
        (∀ count, (g.nexts count).2.LoopEnds) ∧
        ∀ p, ((g.nexts (p * (maxVal - minVal + 1) + (maxVal - minVal + 1))).1.drop
          (p * (maxVal - minVal + 1))).Perm (List.range' minVal (maxVal - minVal + 1))) ∧
    ∀ (numBytesTotal len offset blockSize : ℕ) (rd : RandomDevice), 0 < blockSize → 0 < len →
      blockSize ∣ len → blockSize ∣ offset → len / blockSize ≤ 2 ^ 63 →
      offset + len ≤ Word64.size → numBytesTotal < Word64.size →
      ∃ g fuel ios,
        OffsetGenRandomAlignedFullCoverageV2.make numBytesTotal len offset blockSize rd = .ok g ∧
        drawAll fuel g = some ios ∧ ios.length = numBlocks numBytesTotal blockSize ∧
        ∀ p, let pass := (ios.drop (p * (len / blockSize))).take (len / blockSize)
          (pass.map Prod.fst).Subperm (blockOffsets len offset blockSize) ∧
          ((p + 1) * len ≤ numBytesTotal →
            (pass.map Prod.fst).Perm (blockOffsets len offset blockSize) ∧
              ∀ io ∈ pass, io.2 = blockSize) := by
  refine ⟨fun minVal maxVal rd hle hsize hmax => ?_,
    fun numBytesTotal len offset blockSize rd hpos hlen hdvd hoffset hblocks hfits htotal => ?_⟩
  · obtain ⟨g, hmake, hcycle⟩ :=
      CoveringRandomGenerator.make_atCycle hle (by omega) hmax rd
    exact ⟨g, hmake, fun count => (hcycle.toForRange.nexts count).loopEnds, hcycle.perm_drop⟩
  · obtain ⟨g, hmake, hleft, hsize, hcycle⟩ := OffsetGenRandomAlignedFullCoverageV2.make_eq_ok hpos
      hlen hdvd hblocks hfits numBytesTotal rd
    obtain ⟨fuel, ios, hdraws, hfst, hsnd⟩ := g.exists_drawAll (by rw [hsize]; exact hpos)
      (by rw [hleft]; exact htotal)
    rw [hleft, hsize] at hfst hsnd
    have hmap := map_mul_range' hpos hdvd hoffset hfits
    have hlength : ios.length = numBlocks numBytesTotal blockSize := by
      rw [← List.length_map Prod.snd, hsnd, List.length_map, List.length_range]
    have hbytes : ∀ {p}, (p + 1) * len ≤ numBytesTotal →
        (p * (len / blockSize) + len / blockSize) * blockSize ≤ numBytesTotal := by
      intro p hp
      rw [← Nat.add_one_mul, Nat.mul_assoc, Nat.div_mul_cancel hdvd]
      exact hp
    refine ⟨g, fuel, ios, hmake, hdraws, hlength, fun p => ⟨?_, fun hp => ⟨?_, ?_⟩⟩⟩
    · rw [List.map_take, List.map_drop, hfst, ← hmap, ← List.map_drop, ← List.map_take]
      obtain ⟨l, hl, hsub⟩ := hcycle.subperm_take_drop p (numBlocks numBytesTotal blockSize)
      exact ⟨l.map _, hl.map _, hsub.map _⟩
    · rw [List.map_take, List.map_drop, hfst, ← hmap, ← List.map_drop, ← List.map_take]
      exact (hcycle.perm_take_drop (le_numBlocks hpos (hbytes hp))).map _
    · intro io hio
      have hmem := List.mem_map_of_mem (f := Prod.snd) hio
      rw [List.map_take, List.map_drop, hsnd, ← List.map_drop, ← List.map_take, List.take_drop]
        at hmem
      obtain ⟨j, hj, heq⟩ := List.mem_map.mp hmem
      have hlt : j + 1 ≤ p * (len / blockSize) + len / blockSize := by
        have hrange := List.mem_of_mem_drop hj
        rw [List.take_range, List.mem_range] at hrange
        omega
      have hmul := (Nat.mul_le_mul_right blockSize hlt).trans (hbytes hp)
      have hsucc := Nat.add_one_mul j blockSize
      rw [← heq]
      omega

/-- Seven bytes over the three blocks of two bytes from byte four on: a whole pass, and a part of
a second one. -/
theorem fullCoverage_permutation_threeBlocks :
    ∃ g fuel ios, OffsetGenRandomAlignedFullCoverageV2.make 7 6 4 2 (fun _ => 5) = .ok g ∧
      drawAll fuel g = some ios ∧ ios.length = 4 ∧
      ((ios.take 3).map Prod.fst).Perm [4, 6, 8] := by
  obtain ⟨g, fuel, ios, hmake, hdraws, hlength, hpass⟩ := fullCoverage_permutation.2 7 6 4 2
    (fun _ => 5) (by decide) (by decide) (by decide) (by decide) (by decide) (by decide) (by decide)
  exact ⟨g, fuel, ios, hmake, hdraws, hlength, ((hpass 0).2 (by decide)).1⟩

end Elbencho
