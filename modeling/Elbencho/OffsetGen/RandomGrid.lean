import Elbencho.Library.Checks
import Elbencho.OffsetGen.Dispatch

/-!
# Where random generators draw

The random generators of a range `[offset, offset + len)` draw their offsets from a grid:
`offset + k * grid` with `k ≤ last`, where `last` is the last grid point at which the
largest block still fits (or 0 if it does not fit at all).  The grid has the step 1 for
unaligned offsets, the smallest block size for aligned ones and the block size for full
coverage.  `GridDraw` is what all their draws have, for ranges whose end is a word.

The other direction is needed to tell which I/Os do occur: `exists_drawn` says for the
two generators with a block size mix that every grid point comes with the largest size.
-/

namespace Elbencho

open OffsetGenerator

/-- A draw from a grid, of some size that is not 0 and not above a bound. -/
structure GridDraw (offset grid last cap : ℕ) (io : ℕ × ℕ) : Prop where
  exists_offset : ∃ k ≤ last, io.1 = offset + k * grid
  size_pos : 0 < io.2
  size_le : io.2 ≤ cap

/-! ## The sizes of a mix -/

namespace BlockSizeMix

/-- The sum of the weights is a word. -/
def WeightsFit (mix : BlockSizeMix) : Prop := (mix.sizesAndWeights.map Prod.snd).sum < Word64.size

instance (mix : BlockSizeMix) : Decidable mix.WeightsFit :=
  inferInstanceAs (Decidable (_ < Word64.size))

/-- Every size is picked for some weight. -/
theorem exists_pick {entries : List (ℕ × ℕ)} {w size : ℕ}
    (hfit : w + (entries.map Prod.snd).sum < Word64.size) (hpos : ∀ e ∈ entries, 0 < e.2)
    (hmem : size ∈ entries.map Prod.fst) :
    ∃ x, w ≤ x ∧ x < w + (entries.map Prod.snd).sum ∧ pick x w entries = some size := by
  induction entries generalizing w with
  | nil => exact absurd hmem List.not_mem_nil
  | cons e entries ih =>
    rw [List.map_cons, List.sum_cons] at hfit ⊢
    have he := hpos e List.mem_cons_self
    have hadd : Word64.add w e.2 = w + e.2 := Word64.add_eq (by omega)
    rcases List.mem_cons.mp hmem with rfl | hmem
    · refine ⟨w, le_rfl, by omega, ?_⟩
      rw [pick, hadd, if_pos (by omega)]
    · have hrest : w + e.2 + (entries.map Prod.snd).sum < Word64.size := by omega
      obtain ⟨x, hle, hlt, hpick⟩ := ih hrest (fun e h => hpos e (List.mem_cons_of_mem _ h)) hmem
      refine ⟨x, by omega, by omega, ?_⟩
      rw [pick, hadd, if_neg (by omega)]
      exact hpick

theorem sumWeights_eq {entries : List (ℕ × ℕ)} {w : ℕ}
    (hfit : w + (entries.map Prod.snd).sum < Word64.size) :
    entries.foldl (fun w e => Word64.add w e.2) w = w + (entries.map Prod.snd).sum := by
  induction entries generalizing w with
  | nil => rfl
  | cons e entries ih =>
    rw [List.map_cons, List.sum_cons] at hfit ⊢
    rw [List.foldl_cons, Word64.add_eq (by omega), ih (by omega), Nat.add_assoc]

/-- **The largest size is drawn** for some random word. -/
theorem exists_getNextSize (mix : BlockSizeMix) (hfit : mix.WeightsFit) :
    ∃ w : BitVec 64, ∀ randAlgo : RandAlgo, randAlgo.head = w →
      (mix.getNextSize randAlgo).1 = mix.getMaxSize := by
  have hfit0 : 0 + (mix.sizesAndWeights.map Prod.snd).sum < Word64.size := by
    rw [Nat.zero_add]
    exact hfit
  obtain ⟨x, -, hlt, hpick⟩ := exists_pick hfit0 mix.weight_pos mix.getMaxSize_mem
  refine ⟨BitVec.ofNat 64 x, fun randAlgo hhead => ?_⟩
  have hx : randAlgo.next.1 = x := by
    show randAlgo.head.toNat = x
    rw [hhead, BitVec.toNat_ofNat]
    exact Nat.mod_eq_of_lt (lt_trans hlt hfit0)
  have htotal : mix.totalWeight = 0 + (mix.sizesAndWeights.map Prod.snd).sum := sumWeights_eq hfit0
  unfold getNextSize
  split_ifs
  · show (pick (randAlgo.next.1 % mix.totalWeight) 0 mix.sizesAndWeights).getD _ = _
    rw [hx, htotal, Nat.mod_eq_of_lt hlt, hpick]
    rfl
  · rfl

/-- A mix that is none has one size. -/
theorem getMinSize_eq_of_not_isMix (mix : BlockSizeMix) (h : mix.isMix = false) :
    mix.getMinSize = mix.getMaxSize := by
  obtain ⟨entries, hne, hnodup, h1, h2, h3, h4⟩ := mix
  match entries, hne with
  | [e], _ => rfl
  | e :: e' :: rest, _ => exact absurd h (by simp [isMix])

end BlockSizeMix

/-! ## Random words -/

/-- A number of a range. -/
theorem RandAlgoRange.next_eq (start last : ℕ) (randAlgo : RandAlgo)
    (hfit : start + last < Word64.size) :
    ∃ k ≤ last, (RandAlgoRange.next ⟨start, last + 1⟩ randAlgo).1 = start + k := by
  have hlt := Nat.mod_lt randAlgo.next.1 (show 0 < last + 1 by omega)
  refine ⟨randAlgo.next.1 % (last + 1), by omega, ?_⟩
  show Word64.add (randAlgo.next.1 % (last + 1)) start = _
  rw [Word64.add_eq (by omega), Nat.add_comm]

/-- Every number of a range is drawn for some random word. -/
theorem RandAlgoRange.next_of_head {start last k : ℕ} {randAlgo : RandAlgo} (hk : k ≤ last)
    (hfit : start + last < Word64.size) (hhead : randAlgo.head = BitVec.ofNat 64 k) :
    (RandAlgoRange.next ⟨start, last + 1⟩ randAlgo).1 = start + k := by
  have hword : randAlgo.next.1 = k := by
    show randAlgo.head.toNat = k
    rw [hhead, BitVec.toNat_ofNat]
    exact Nat.mod_eq_of_lt (lt_of_le_of_lt hk (by unfold Word64.size at hfit; omega))
  show Word64.add (randAlgo.next.1 % (last + 1)) start = _
  rw [hword, Nat.mod_eq_of_lt (by omega), Word64.add_eq (by omega), Nat.add_comm]

/-- The words `x` and `y`, and then zeros. -/
def twoWords (x y : BitVec 64) : RandAlgo := Stream'.cons x (Stream'.cons y fun _ => 0#64)

/-! ## The generators -/

namespace OffsetGenRandom

variable {numBytesTotal len offset : ℕ} {mix : BlockSizeMix} {randAlgo : RandAlgo}

/-- The constructor succeeds. -/
theorem make_eq_ok (hfit : offset + len < Word64.size) :
    make numBytesTotal randAlgo len offset mix =
      .ok ⟨⟨offset, len - min mix.getMaxSize len + 1⟩, numBytesTotal, numBytesTotal, mix,
        randAlgo⟩ := by
  have hmax := mix.pos_of_mem mix.getMaxSize_mem
  have hword : 1 < Word64.size := by decide
  have hend : Word64.sub (Word64.add offset len) (min mix.getMaxSize len) =
      offset + (len - min mix.getMaxSize len) := by
    rw [Word64.add_eq hfit, Word64.sub_eq (by omega) hfit]
    omega
  have hlen : Word64.add (Word64.sub (offset + (len - min mix.getMaxSize len)) offset) 1 =
      len - min mix.getMaxSize len + 1 := by
    rw [Word64.sub_eq (by omega) (by omega), Word64.add_eq (by omega)]
    omega
  unfold make RandAlgoRange.make
  rw [hend, if_neg (by omega), hlen]
  rfl

/-- **Unaligned draws.** -/
theorem gridDraw {g : OffsetGenRandom} (hfit : offset + len < Word64.size)
    (htotal : numBytesTotal < Word64.size)
    (hmake : make numBytesTotal randAlgo len offset mix = .ok g) {io : ℕ × ℕ}
    (hdrawn : Drawn AnyResult g io) :
    GridDraw offset 1 (len - min mix.getMaxSize len) (min numBytesTotal mix.getMaxSize) io := by
  rw [make_eq_ok hfit] at hmake
  obtain rfl := Except.ok.inj hmake
  have hinv : ∃ g : OffsetGenRandom, (g.randRange = ⟨offset, len - min mix.getMaxSize len + 1⟩ ∧
      g.blockSizeMix = mix ∧ g.numBytesLeft ≤ numBytesTotal) ∧
      getNumBytesLeftToSubmit g ≠ 0 ∧ (draw g).1 = io := by
    refine hdrawn.invariant ⟨rfl, rfl, le_rfl⟩ ?_
    rintro ⟨range, total, left, mix', randAlgo'⟩ n ⟨hrange, hmix, hle⟩ - hn
    exact ⟨hrange, hmix, Word64.sub_le (le_trans hn (min_le_left _ _)) hle htotal⟩
  obtain ⟨g, ⟨hrange, hmix, hle⟩, hleft, rfl⟩ := hinv
  obtain ⟨k, hk, hoff⟩ := RandAlgoRange.next_eq offset (len - min mix.getMaxSize len) g.randAlgo
    (by omega)
  rw [← hrange] at hoff
  refine ⟨⟨k, hk, by rw [Nat.mul_one]; exact hoff⟩, LawfulOffsetGenerator.size_pos _ trivial hleft,
    min_le_min hle ?_⟩
  rw [← hmix]
  exact g.blockSizeMix.le_getMaxSize (g.blockSizeMix.getNextSize_mem _)

/-- A reset makes a generator for the new range. -/
theorem reset_eq_make (g : OffsetGenRandom) (len offset : ℕ) :
    g.reset len offset = make len g.randAlgo len offset g.blockSizeMix := rfl

/-- Every unaligned offset is drawn with the largest size. -/
theorem exists_drawn (hfit : offset + len < Word64.size) (hweights : mix.WeightsFit)
    (htotal : numBytesTotal ≠ 0) {k : ℕ} (hk : k ≤ len - min mix.getMaxSize len) :
    ∃ randAlgo g, make numBytesTotal randAlgo len offset mix = .ok g ∧
      Drawn FullResult g (offset + k, min numBytesTotal mix.getMaxSize) := by
  obtain ⟨w, hw⟩ := mix.exists_getNextSize hweights
  refine ⟨twoWords (BitVec.ofNat 64 k) w, _, make_eq_ok hfit, ?_⟩
  have hoff : (RandAlgoRange.next ⟨offset, len - min mix.getMaxSize len + 1⟩
      (twoWords (BitVec.ofNat 64 k) w)).1 = offset + k :=
    RandAlgoRange.next_of_head hk (by omega) rfl
  have hsize := hw (twoWords (BitVec.ofNat 64 k) w).tail rfl
  rw [← hoff, ← hsize]
  exact Drawn.first htotal

/-- Every unaligned offset is drawn. -/
theorem exists_offset (hfit : offset + len < Word64.size) (htotal : numBytesTotal ≠ 0) {k : ℕ}
    (hk : k ≤ len - min mix.getMaxSize len) :
    ∃ randAlgo g, make numBytesTotal randAlgo len offset mix = .ok g ∧
      ∃ size, Drawn FullResult g (offset + k, size) := by
  refine ⟨twoWords (BitVec.ofNat 64 k) 0#64, _, make_eq_ok hfit, ?_⟩
  have hoff : (RandAlgoRange.next ⟨offset, len - min mix.getMaxSize len + 1⟩
      (twoWords (BitVec.ofNat 64 k) 0#64)).1 = offset + k :=
    RandAlgoRange.next_of_head hk (by omega) rfl
  rw [← hoff]
  exact ⟨_, Drawn.first htotal⟩

end OffsetGenRandom

namespace OffsetGenRandomAligned

variable {numBytesTotal len offset : ℕ} {mix : BlockSizeMix} {randAlgo : RandAlgo}

/-- The last grid point. -/
def lastGridPoint (mix : BlockSizeMix) (len : ℕ) : ℕ :=
  (len - min mix.getMaxSize len) / mix.getMinSize

theorem lastGridPoint_mul_le (mix : BlockSizeMix) (len : ℕ) :
    lastGridPoint mix len * mix.getMinSize ≤ len - min mix.getMaxSize len :=
  Nat.div_mul_le_self _ _

theorem lastGridPoint_le (mix : BlockSizeMix) (len : ℕ) :
    lastGridPoint mix len ≤ len - min mix.getMaxSize len := Nat.div_le_self _ _

/-- The constructor succeeds. -/
theorem make_eq_ok (hlen : len < Word64.size) :
    make numBytesTotal randAlgo len offset mix =
      .ok ⟨⟨0, lastGridPoint mix len + 1⟩, numBytesTotal, numBytesTotal, offset, mix,
        mix.getMinSize, randAlgo⟩ := by
  have hmax := mix.pos_of_mem mix.getMaxSize_mem
  have hmin := mix.pos_of_mem mix.getMinSize_mem
  have hle := mix.getMinSize_le_getMaxSize
  have hword : 1 < Word64.size := by decide
  have hlast : (if min mix.getMinSize len = 0 then 0
      else Word64.sub len (min mix.getMaxSize len) / min mix.getMinSize len) =
      lastGridPoint mix len := by
    rw [Word64.sub_eq (min_le_right _ _) hlen, lastGridPoint]
    by_cases hshort : len < mix.getMinSize
    · rw [show len - min mix.getMaxSize len = 0 by omega, Nat.zero_div, Nat.zero_div, ite_self]
    · rw [min_eq_left (not_lt.mp hshort), if_neg (Nat.ne_of_gt hmin)]
  have hbound := lastGridPoint_le mix len
  have hrange : Word64.add (Word64.sub (lastGridPoint mix len) 0) 1 =
      lastGridPoint mix len + 1 := by
    rw [Word64.sub_eq (Nat.zero_le _) (by omega), Word64.add_eq (by omega), Nat.sub_zero]
  unfold make RandAlgoRange.make
  rw [hlast, if_neg (Nat.not_lt_zero _), hrange]
  rfl

/-- A grid point of the range, as the generator computes it. -/
theorem gridPoint_eq {k : ℕ} (hfit : offset + len < Word64.size) (hk : k ≤ lastGridPoint mix len) :
    Word64.add offset (Word64.mul (0 + k) mix.getMinSize) = offset + k * mix.getMinSize := by
  have hmul := Nat.mul_le_mul_right mix.getMinSize hk
  have hlast := lastGridPoint_mul_le mix len
  rw [Nat.zero_add, Word64.mul_eq (by omega), Word64.add_eq (by omega)]

/-- **Aligned draws.** -/
theorem gridDraw {g : OffsetGenRandomAligned} (hfit : offset + len < Word64.size)
    (htotal : numBytesTotal < Word64.size)
    (hmake : make numBytesTotal randAlgo len offset mix = .ok g) {io : ℕ × ℕ}
    (hdrawn : Drawn AnyResult g io) :
    GridDraw offset mix.getMinSize (lastGridPoint mix len) (min numBytesTotal mix.getMaxSize)
      io := by
  rw [make_eq_ok (by omega)] at hmake
  obtain rfl := Except.ok.inj hmake
  have hinv : ∃ g : OffsetGenRandomAligned, (g.randRange = ⟨0, lastGridPoint mix len + 1⟩ ∧
      g.offset = offset ∧ g.alignGrid = mix.getMinSize ∧ g.blockSizeMix = mix ∧
      g.numBytesLeft ≤ numBytesTotal) ∧ getNumBytesLeftToSubmit g ≠ 0 ∧ (draw g).1 = io := by
    refine hdrawn.invariant ⟨rfl, rfl, rfl, rfl, le_rfl⟩ ?_
    rintro ⟨range, total, left, offset', mix', grid, randAlgo'⟩ n
      ⟨hrange, hoff, hgrid, hmix, hle⟩ - hn
    exact ⟨hrange, hoff, hgrid, hmix, Word64.sub_le (le_trans hn (min_le_left _ _)) hle htotal⟩
  obtain ⟨g, ⟨hrange, hoff, hgrid, hmix, hle⟩, hleft, rfl⟩ := hinv
  have hbound := lastGridPoint_le mix len
  obtain ⟨k, hk, hnext⟩ := RandAlgoRange.next_eq 0 (lastGridPoint mix len) g.randAlgo (by omega)
  rw [← hrange] at hnext
  refine ⟨⟨k, hk, ?_⟩, LawfulOffsetGenerator.size_pos _ trivial hleft, min_le_min hle ?_⟩
  · show Word64.add g.offset (Word64.mul (g.randRange.next g.randAlgo).1 g.alignGrid) = _
    rw [hoff, hgrid, hnext]
    exact gridPoint_eq hfit hk
  · rw [← hmix]
    exact g.blockSizeMix.le_getMaxSize (g.blockSizeMix.getNextSize_mem _)

/-- A reset makes a generator for the new range. -/
theorem reset_eq_make (g : OffsetGenRandomAligned) (hgrid : g.alignGrid = g.blockSizeMix.getMinSize)
    (len offset : ℕ) : g.reset len offset = make len g.randAlgo len offset g.blockSizeMix := by
  obtain ⟨range, total, left, offset', mix, grid, randAlgo⟩ := g
  obtain rfl : grid = mix.getMinSize := hgrid
  unfold reset make
  simp only [ne_eq, ite_not]

/-- Every grid point is drawn with the largest size. -/
theorem exists_drawn (hfit : offset + len < Word64.size) (hweights : mix.WeightsFit)
    (htotal : numBytesTotal ≠ 0) {k : ℕ} (hk : k ≤ lastGridPoint mix len) :
    ∃ randAlgo g, make numBytesTotal randAlgo len offset mix = .ok g ∧
      Drawn FullResult g (offset + k * mix.getMinSize, min numBytesTotal mix.getMaxSize) := by
  obtain ⟨w, hw⟩ := mix.exists_getNextSize hweights
  refine ⟨twoWords (BitVec.ofNat 64 k) w, _, make_eq_ok (by omega), ?_⟩
  have hbound := lastGridPoint_le mix len
  have hnext : (RandAlgoRange.next ⟨0, lastGridPoint mix len + 1⟩
      (twoWords (BitVec.ofNat 64 k) w)).1 = 0 + k :=
    RandAlgoRange.next_of_head hk (by omega) rfl
  have hsize := hw (twoWords (BitVec.ofNat 64 k) w).tail rfl
  rw [← gridPoint_eq hfit hk, ← hnext, ← hsize]
  exact Drawn.first htotal

/-- Every grid point is drawn. -/
theorem exists_offset (hfit : offset + len < Word64.size) (htotal : numBytesTotal ≠ 0) {k : ℕ}
    (hk : k ≤ lastGridPoint mix len) :
    ∃ randAlgo g, make numBytesTotal randAlgo len offset mix = .ok g ∧
      ∃ size, Drawn FullResult g (offset + k * mix.getMinSize, size) := by
  refine ⟨twoWords (BitVec.ofNat 64 k) 0#64, _, make_eq_ok (by omega), ?_⟩
  have hbound := lastGridPoint_le mix len
  have hnext : (RandAlgoRange.next ⟨0, lastGridPoint mix len + 1⟩
      (twoWords (BitVec.ofNat 64 k) 0#64)).1 = 0 + k :=
    RandAlgoRange.next_of_head hk (by omega) rfl
  rw [← gridPoint_eq hfit hk, ← hnext]
  exact ⟨_, Drawn.first htotal⟩

end OffsetGenRandomAligned

/-- A draw from a grid lies in the range if the last grid point leaves room for it. -/
theorem GridDraw.inside {offset grid last cap len : ℕ} {io : ℕ × ℕ}
    (h : GridDraw offset grid last cap io) (hroom : last * grid + cap ≤ len) :
    offset ≤ io.1 ∧ io.1 + io.2 ≤ offset + len := by
  obtain ⟨k, hk, hoff⟩ := h.exists_offset
  have hmul := Nat.mul_le_mul_right grid hk
  have hsize := h.size_le
  omega

/-- **Random draws stay inside a range that was set by a reset**, however short it is, and
aligned ones are on the grid of the smallest block size. -/
theorem random_draws_inside (len offset : ℕ) (hfits : offset + len < Word64.size) :
    (∀ g : OffsetGenRandom, ∃ g', g.reset len offset = .ok g' ∧
      ∀ io, Drawn AnyResult g' io →
        offset ≤ io.1 ∧ io.1 + io.2 ≤ offset + len ∧ 0 < io.2) ∧
    ∀ g : OffsetGenRandomAligned, g.alignGrid = g.blockSizeMix.getMinSize →
      ∃ g', g.reset len offset = .ok g' ∧
        ∀ io, Drawn AnyResult g' io →
          offset ≤ io.1 ∧ io.1 + io.2 ≤ offset + len ∧ 0 < io.2 ∧
            ∃ k, io.1 = offset + k * g.blockSizeMix.getMinSize := by
  have hlen : len < Word64.size := by omega
  refine ⟨fun g => ?_, fun g hgrid => ?_⟩
  · refine ⟨_, (g.reset_eq_make len offset).trans (OffsetGenRandom.make_eq_ok hfits),
      fun io hio => ?_⟩
    have hdraw := OffsetGenRandom.gridDraw hfits hlen (OffsetGenRandom.make_eq_ok hfits) hio
    obtain ⟨hstart, hend⟩ := hdraw.inside (show _ ≤ len by omega)
    exact ⟨hstart, hend, hdraw.size_pos⟩
  · refine ⟨_, (g.reset_eq_make hgrid len offset).trans (OffsetGenRandomAligned.make_eq_ok hlen),
      fun io hio => ?_⟩
    have hdraw :=
      OffsetGenRandomAligned.gridDraw hfits hlen (OffsetGenRandomAligned.make_eq_ok hlen) hio
    have hlast := OffsetGenRandomAligned.lastGridPoint_mul_le g.blockSizeMix len
    obtain ⟨hstart, hend⟩ := hdraw.inside (show _ ≤ len by omega)
    obtain ⟨k, -, hoff⟩ := hdraw.exists_offset
    exact ⟨hstart, hend, hdraw.size_pos, k, hoff⟩

/-- A slice that is shorter than the block size: the draw is the slice. -/
theorem random_draws_inside_shortSlice :
    ∃ g', (OffsetGenRandomAligned.mk ⟨0, 1⟩ 0 0 0 (.single 8 (by decide) (by decide)) 8
        fun _ => 5#64).reset 3 100 = .ok g' ∧
      ∀ io, Drawn AnyResult g' io → 100 ≤ io.1 ∧ io.1 + io.2 ≤ 100 + 3 ∧ 0 < io.2 ∧
        ∃ k, io.1 = 100 + k * 8 :=
  (random_draws_inside 3 100 (by decide)).2 _ rfl

namespace CoveringRandomGenerator

/-- There is no generator for more than `2 ^ 63` values. -/
theorem make_of_large {minVal maxVal : ℕ} (hle : minVal ≤ maxVal) (hmax : maxVal < Word64.size)
    (hlarge : 2 ^ 63 ≤ maxVal - minVal) (rd : RandomDevice) :
    ∃ msg, make minVal maxVal rd = .error msg := by
  have hmod : Word64.size = 2 ^ 64 := rfl
  have hsub : Word64.sub maxVal minVal = maxVal - minVal := Word64.sub_eq hle hmax
  unfold make
  dsimp only
  rw [if_neg (not_lt.mpr hle), hsub]
  by_cases hwrap : maxVal - minVal + 1 = 2 ^ 64
  · rw [if_pos (by rw [Word64.add, hwrap, hmod, Nat.mod_self])]
    exact ⟨_, rfl⟩
  · have hrange : Word64.add (maxVal - minVal) 1 = maxVal - minVal + 1 := Word64.add_eq (by omega)
    have hsize : (maxVal - minVal).size = 64 :=
      le_antisymm (Nat.size_le.mpr (by omega)) (Nat.lt_size.mpr hlarge)
    have hpow : nextPowerOfTwo (maxVal - minVal + 1) = 0 := by
      rw [nextPowerOfTwo, if_neg (by omega), Word64.sub_eq (by omega) (by omega),
        Nat.add_sub_cancel, Lcg.fillBits_eq (by omega), hsize]
      rfl
    -- both numbers have the bit 63
    have hbit : ∀ x, 2 ^ 63 ≤ x → x < 2 ^ 64 → x.testBit 63 = true := by
      intro x hlo hhi
      rw [Nat.testBit_eq_decide_div_mod_eq]
      exact decide_eq_true (by omega)
    have hand : (maxVal - minVal + 1) &&& (maxVal - minVal + 1 - 1) ≠ 0 := by
      intro h0
      have h63 : ((maxVal - minVal + 1) &&& (maxVal - minVal + 1 - 1)).testBit 63 =
          (0).testBit 63 := congrArg (fun x => x.testBit 63) h0
      rw [Nat.testBit_and, hbit _ (by omega) (by omega), hbit _ (by omega) (by omega),
        Nat.zero_testBit] at h63
      exact absurd h63 (by decide)
    rw [hrange, if_neg (by omega), hpow, if_pos rfl, if_pos (by omega), if_neg hand]
    exact ⟨_, rfl⟩

/-- A generator covers the range it was made for. -/
theorem of_make_eq_ok {minVal maxVal : ℕ} {rd : RandomDevice} {g : CoveringRandomGenerator}
    (hle : minVal ≤ maxVal) (hmax : maxVal < Word64.size) (hmake : make minVal maxVal rd = .ok g) :
    g.Valid ∧ g.minValue = minVal ∧ g.rangeSize = maxVal - minVal + 1 := by
  by_cases hlarge : 2 ^ 63 ≤ maxVal - minVal
  · obtain ⟨msg, herror⟩ := make_of_large hle hmax hlarge rd
    rw [herror] at hmake
    exact absurd hmake (by simp)
  · obtain ⟨g', hok, hg'⟩ := make_eq_ok hle (not_le.mp hlarge) hmax rd
    rw [hok] at hmake
    obtain rfl := Except.ok.inj hmake
    exact hg'

end CoveringRandomGenerator

namespace OffsetGenRandomAlignedFullCoverageV2

variable {numBytesTotal len offset blockSize : ℕ} {rd : RandomDevice}

/-- The last grid point of whole blocks. -/
theorem lastBlock_eq (hsize : 0 < blockSize) (q : ℕ) :
    (blockSize * q - min blockSize (blockSize * q)) / blockSize = q - 1 := by
  cases q with
  | zero => rw [Nat.mul_zero, Nat.zero_sub, Nat.zero_div]
  | succ q =>
    rw [min_eq_left (Nat.le_mul_of_pos_right _ (Nat.succ_pos q)), Nat.mul_succ, Nat.add_sub_cancel,
      Nat.mul_div_cancel_left _ hsize, Nat.add_sub_cancel]

/-- The blocks of a range of `q` blocks from block `i` on are `i`, …, `i + (q - 1)`. -/
theorem make_blocks (hsize : 0 < blockSize) {i q : ℕ}
    (hfit : blockSize * i + blockSize * q < Word64.size) :
    make numBytesTotal (blockSize * q) (blockSize * i) blockSize rd =
      (CoveringRandomGenerator.make i (i + (q - 1)) rd >>= fun randomGen =>
        pure ⟨numBytesTotal, numBytesTotal, blockSize, randomGen⟩) := by
  have hiq : i + q ≤ blockSize * i + blockSize * q :=
    Nat.add_le_add (Nat.le_mul_of_pos_left _ hsize) (Nat.le_mul_of_pos_left _ hsize)
  have hstart : calcStartBlockIdx (blockSize * i) blockSize = i := by
    rw [calcStartBlockIdx, if_pos (Nat.ne_of_gt hsize), Nat.mul_div_cancel_left _ hsize]
  have hend : calcEndBlockIdx (blockSize * i) (blockSize * q) blockSize = i + (q - 1) := by
    have hq : (if blockSize ≠ 0 ∧ q ≠ 0 then q - 1 else 0) = q - 1 := by
      split_ifs with h
      · rfl
      · omega
    rw [calcEndBlockIdx, hstart, Nat.mul_div_cancel_left _ hsize, hq, Word64.add_eq (by omega)]
  rw [make, hstart, hend]

/-- The offset of a block. -/
theorem mul_block_eq (hsize : 0 < blockSize) {i q k : ℕ}
    (hfit : blockSize * i + blockSize * q < Word64.size) (hk : k ≤ q - 1) :
    Word64.mul (Word64.add i k) blockSize = blockSize * i + k * blockSize := by
  have hmul : (i + k) * blockSize = blockSize * i + k * blockSize := by
    rw [Nat.add_mul, Nat.mul_comm i]
  have hle : k * blockSize ≤ blockSize * q := by
    rw [Nat.mul_comm]
    exact Nat.mul_le_mul_left _ (by omega)
  have hik : i + k ≤ (i + k) * blockSize := Nat.le_mul_of_pos_right _ hsize
  rw [Word64.add_eq (by omega), Word64.mul_eq (by omega), hmul]

/-- **The draws of full coverage**, for a range of whole blocks. -/
theorem gridDraw {g : OffsetGenRandomAlignedFullCoverageV2} (hsize : 0 < blockSize)
    (hoffset : blockSize ∣ offset) (hlen : blockSize ∣ len) (hfit : offset + len < Word64.size)
    (htotal : numBytesTotal < Word64.size)
    (hmake : make numBytesTotal len offset blockSize rd = .ok g) {io : ℕ × ℕ}
    (hdrawn : Drawn AnyResult g io) :
    GridDraw offset blockSize ((len - min blockSize len) / blockSize)
      (min numBytesTotal blockSize) io := by
  obtain ⟨i, rfl⟩ := hoffset
  obtain ⟨q, rfl⟩ := hlen
  rw [make_blocks hsize hfit] at hmake
  obtain ⟨randomGen, hgen, hok⟩ := Checks.bind_eq_ok.mp hmake
  have hiq : i + q ≤ blockSize * i + blockSize * q :=
    Nat.add_le_add (Nat.le_mul_of_pos_left _ hsize) (Nat.le_mul_of_pos_left _ hsize)
  obtain ⟨hvalid, hminValue, hrange⟩ :=
    CoveringRandomGenerator.of_make_eq_ok (by omega) (by omega) hgen
  obtain rfl := Except.ok.inj hok
  have hinv : ∃ g : OffsetGenRandomAlignedFullCoverageV2, (g.blockSize = blockSize ∧
      g.randomGen.Valid ∧ g.randomGen.minValue = i ∧ g.randomGen.rangeSize = q - 1 + 1 ∧
      g.numBytesLeft ≤ numBytesTotal) ∧ getNumBytesLeftToSubmit g ≠ 0 ∧ (draw g).1 = io := by
    refine hdrawn.invariant ⟨rfl, hvalid, hminValue, by rw [hrange]; omega, le_rfl⟩ ?_
    rintro ⟨total, left, size, gen⟩ n ⟨hbs, hgenValid, hmin, hrangeSize, hle⟩ - hn
    obtain ⟨-, hvalid', hmin', hrange'⟩ := hgenValid.next
    exact ⟨hbs, hvalid', hmin'.trans hmin, hrange'.trans hrangeSize,
      Word64.sub_le (le_trans hn (min_le_left _ _)) hle htotal⟩
  obtain ⟨g, ⟨hbs, hgenValid, hmin, hrangeSize, hle⟩, hleft, rfl⟩ := hinv
  obtain ⟨⟨k, hk, hnext⟩, -⟩ := hgenValid.next
  rw [hrangeSize] at hk
  rw [lastBlock_eq hsize]
  refine ⟨⟨k, by omega, ?_⟩, LawfulOffsetGenerator.size_pos g ?_ hleft,
    min_le_min hle (le_of_eq hbs)⟩
  · show Word64.mul g.randomGen.next.1 g.blockSize = _
    rw [hnext, hmin, hbs]
    exact mul_block_eq hsize hfit (by omega)
  · show 0 < g.blockSize
    rw [hbs]
    exact hsize

/-- Every block of a range of up to `2 ^ 32` blocks is drawn, for some seed. -/
theorem exists_offset (hsize : 0 < blockSize) (hoffset : blockSize ∣ offset)
    (hlen : blockSize ∣ len) (hfit : offset + len < Word64.size)
    (hblocks : len / blockSize ≤ 2 ^ 32) (htotal : numBytesTotal ≠ 0) {k : ℕ}
    (hk : k ≤ (len - min blockSize len) / blockSize) :
    ∃ rd g, make numBytesTotal len offset blockSize rd = .ok g ∧
      ∃ size, Drawn FullResult g (offset + k * blockSize, size) := by
  obtain ⟨i, rfl⟩ := hoffset
  obtain ⟨q, rfl⟩ := hlen
  have hiq : i + q ≤ blockSize * i + blockSize * q :=
    Nat.add_le_add (Nat.le_mul_of_pos_left _ hsize) (Nat.le_mul_of_pos_left _ hsize)
  rw [Nat.mul_div_cancel_left _ hsize] at hblocks
  rw [lastBlock_eq hsize] at hk
  obtain ⟨rd, randomGen, hgen, hnext⟩ := CoveringRandomGenerator.exists_next_eq
    (Nat.le_add_right i (q - 1)) (by omega) (by omega) (k := k) (by omega)
  refine ⟨rd, _, by rw [make_blocks hsize hfit, hgen]; rfl, ?_⟩
  rw [← mul_block_eq hsize hfit hk, ← hnext]
  exact ⟨_, Drawn.first htotal⟩

end OffsetGenRandomAlignedFullCoverageV2

end Elbencho
