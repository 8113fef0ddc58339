import Elbencho.Library.Lcg
import Elbencho.OffsetGen.Generators

/-!
# The full coverage generator

Random aligned writes without a chosen algorithm use
`OffsetGenRandomAlignedFullCoverageV2`, which draws the blocks of its range from a
`CoveringRandomGenerator`: a linear congruential generator modulo the next power of two,
of which the values beyond the range are skipped.

The loop that skips them is `Lcg.walk` with one period as fuel; `Valid.next` says that
it ends there with a value of the range, so the fuel is never used up without a result.
Seeds come from `std::random_device`; the seeds of a generator's cycles are a stream.
-/

namespace Elbencho

/-- The seeds that `std::random_device` returns, one after the other. -/
abbrev RandomDevice := Stream' (BitVec 32)

/-- `CoveringRandomGenerator`.  The modulus is a power of two. -/
structure CoveringRandomGenerator where
  minValue : ℕ
  rangeSize : ℕ
  currentCount : ℕ
  mLcg : ℕ
  currentLcgState : ℕ
  rd : RandomDevice

namespace CoveringRandomGenerator

/-- The multiplier. -/
def aLcg : ℕ := 6364136223846793005

/-- The increment. -/
def cLcg : ℕ := 1442695040888963407

/-- One step of the generator, in 64 bits. -/
def lcgStep (m x : ℕ) : ℕ := Word64.add (Word64.mul aLcg x) cLcg % m

/-- The reduction to 64 bits does not matter, because the modulus divides `2 ^ 64`. -/
theorem lcgStep_two_pow {k : ℕ} (hk : k ≤ 64) : lcgStep (2 ^ k) = Lcg.step aLcg cLcg (2 ^ k) := by
  have hdvd : 2 ^ k ∣ Word64.size := Nat.pow_dvd_pow 2 hk
  funext x
  unfold lcgStep Lcg.step Word64.add Word64.mul
  rw [Nat.mod_mod_of_dvd _ hdvd, Nat.add_mod, Nat.mod_mod_of_dvd _ hdvd, ← Nat.add_mod]

/-- `next_power_of_two`, in 64 bits. -/
def nextPowerOfTwo (n : ℕ) : ℕ :=
  if n = 0 then 1 else Word64.add (Lcg.fillBits (Word64.sub n 1)) 1

/-- Up to `2 ^ 63` values there is a next power of two. -/
theorem nextPowerOfTwo_eq {n : ℕ} (hpos : 0 < n) (hn : n ≤ 2 ^ 63) :
    nextPowerOfTwo n = 2 ^ (n - 1).size := by
  have hsize : (n - 1).size ≤ 63 := Nat.size_le.mpr (by omega)
  have hpow : 2 ^ (n - 1).size ≤ 2 ^ 63 := Nat.pow_le_pow_right Nat.two_pos hsize
  have hone : 0 < 2 ^ (n - 1).size := Nat.two_pow_pos _
  have hmod : Word64.size = 2 ^ 64 := rfl
  unfold nextPowerOfTwo
  rw [if_neg (by omega), Word64.sub_eq (by omega) (by omega), Lcg.fillBits_eq (by omega),
    Word64.add_eq (by omega)]
  omega

/-- The constructor. -/
def make (minVal maxVal : ℕ) (rd : RandomDevice) : Except String CoveringRandomGenerator :=
  if maxVal < minVal then
    .error "OffsetGenFullCov: Minimum value cannot be greater than maximum value."
  else
    let rangeSize := Word64.add (Word64.sub maxVal minVal) 1
    if rangeSize = 0 then .error "OffsetGenFullCov: Range cannot be empty."
    else
      let m := nextPowerOfTwo rangeSize
      let seeded (m : ℕ) : CoveringRandomGenerator :=
        ⟨minVal, rangeSize, 0, m, rd.head.toNat % m, rd.tail⟩
      if m = 0 then
        if 2 ^ 63 < rangeSize then
          if rangeSize &&& (rangeSize - 1) = 0 then .ok (seeded rangeSize)
          else .error ("Range size too large for this LCG implementation with 64-bit modulus " ++
            "selection.")
        else .ok (seeded rangeSize)
      else .ok (seeded m)

/-- `has_next`. -/
def hasNext (g : CoveringRandomGenerator) : Bool := g.currentCount < g.rangeSize

/-- `reset`: a new cycle from a new seed. -/
def reset (g : CoveringRandomGenerator) : CoveringRandomGenerator :=
  { g with currentCount := 0, currentLcgState := g.rd.head.toNat % g.mLcg, rd := g.rd.tail }

/-- `next`: the next number of the cycle. -/
def next (g : CoveringRandomGenerator) : ℕ × CoveringRandomGenerator :=
  let g := if g.hasNext then g else g.reset
  let state := Lcg.walk (lcgStep g.mLcg) g.rangeSize g.mLcg g.currentLcgState
  (Word64.add g.minValue state,
    { g with currentCount := g.currentCount + 1, currentLcgState := state })

/-- A generator for a range of up to `2 ^ 63` values. -/
structure Valid (g : CoveringRandomGenerator) : Prop where
  rangeSize_pos : 0 < g.rangeSize
  mLcg_pow : ∃ k ≤ 64, g.mLcg = 2 ^ k

theorem Valid.reset {g : CoveringRandomGenerator} (h : g.Valid) : g.reset.Valid :=
  ⟨h.rangeSize_pos, h.mLcg_pow⟩

/-- **The loop of `next` ends**: its number is one of the range, and the generator stays
valid. -/
theorem Valid.next {g : CoveringRandomGenerator} (h : g.Valid) :
    (∃ i < g.rangeSize, g.next.1 = Word64.add g.minValue i) ∧ g.next.2.Valid ∧
      g.next.2.minValue = g.minValue ∧ g.next.2.rangeSize = g.rangeSize := by
  have hseeded : ∀ g' : CoveringRandomGenerator, g'.Valid →
      Lcg.walk (lcgStep g'.mLcg) g'.rangeSize g'.mLcg g'.currentLcgState < g'.rangeSize := by
    intro g' h'
    obtain ⟨k, hk, hpow⟩ := h'.mLcg_pow
    rw [hpow, lcgStep_two_pow hk]
    exact Lcg.walk_lt (by decide) (by decide) h'.rangeSize_pos
  unfold CoveringRandomGenerator.next
  split_ifs
  · exact ⟨⟨_, hseeded g h, rfl⟩, ⟨h.rangeSize_pos, h.mLcg_pow⟩, rfl, rfl⟩
  · exact ⟨⟨_, hseeded g.reset h.reset, rfl⟩, ⟨h.rangeSize_pos, h.mLcg_pow⟩, rfl, rfl⟩

/-- The generator for a range of up to `2 ^ 63` values. -/
theorem make_eq {minVal maxVal : ℕ} (hle : minVal ≤ maxVal) (hsize : maxVal - minVal < 2 ^ 63)
    (hmax : maxVal < Word64.size) (rd : RandomDevice) :
    make minVal maxVal rd = .ok ⟨minVal, maxVal - minVal + 1, 0, 2 ^ (maxVal - minVal).size,
      rd.head.toNat % 2 ^ (maxVal - minVal).size, rd.tail⟩ := by
  have hmod : Word64.size = 2 ^ 64 := rfl
  have hrange : Word64.add (Word64.sub maxVal minVal) 1 = maxVal - minVal + 1 := by
    rw [Word64.sub_eq hle hmax, Word64.add_eq (by omega)]
  have hm := nextPowerOfTwo_eq (Nat.succ_pos (maxVal - minVal)) (by omega)
  have hpos := Nat.ne_of_gt (Nat.two_pow_pos (maxVal - minVal).size)
  unfold make
  dsimp only
  rw [if_neg (not_lt.mpr hle), hrange, if_neg (Nat.succ_ne_zero _), hm, Nat.succ_eq_add_one,
    Nat.add_sub_cancel, if_neg hpos]

/-- The constructor accepts every range of up to `2 ^ 63` values. -/
theorem make_eq_ok {minVal maxVal : ℕ} (hle : minVal ≤ maxVal) (hsize : maxVal - minVal < 2 ^ 63)
    (hmax : maxVal < Word64.size) (rd : RandomDevice) :
    ∃ g, make minVal maxVal rd = .ok g ∧ g.Valid ∧ g.minValue = minVal ∧
      g.rangeSize = maxVal - minVal + 1 := by
  have hbits : (maxVal - minVal).size ≤ 64 := Nat.size_le.mpr (by omega)
  exact ⟨_, make_eq hle hsize hmax rd, ⟨Nat.succ_pos _, _, hbits, rfl⟩, rfl, rfl⟩

/-- Every number of a range of up to `2 ^ 32` values is the first one for some seed. -/
theorem exists_next_eq {minVal maxVal k : ℕ} (hle : minVal ≤ maxVal)
    (hsize : maxVal - minVal < 2 ^ 32) (hmax : maxVal < Word64.size) (hk : k ≤ maxVal - minVal) :
    ∃ rd g, make minVal maxVal rd = .ok g ∧ g.next.1 = Word64.add minVal k := by
  have hbits : (maxVal - minVal).size ≤ 32 := Nat.size_le.mpr hsize
  have hpow : 2 ^ (maxVal - minVal).size ≤ 2 ^ 32 := Nat.pow_le_pow_right Nat.two_pos hbits
  obtain ⟨x, hx, hstep⟩ := Lcg.exists_step_eq (a := aLcg) (c := cLcg) (by decide) (by decide)
    (lt_of_le_of_lt hk (Nat.lt_size_self (maxVal - minVal)))
  refine ⟨fun _ => BitVec.ofNat 32 x, _, make_eq hle (by omega) hmax _, ?_⟩
  have hseed : (BitVec.ofNat 32 x).toNat % 2 ^ (maxVal - minVal).size = x := by
    rw [BitVec.toNat_ofNat, Nat.mod_eq_of_lt (lt_of_lt_of_le hx hpow), Nat.mod_eq_of_lt hx]
  have hwalk : Lcg.walk (lcgStep (2 ^ (maxVal - minVal).size)) (maxVal - minVal + 1)
      (2 ^ (maxVal - minVal).size) x = k := by
    obtain ⟨fuel, hfuel⟩ := Nat.exists_eq_add_one_of_ne_zero
      (Nat.ne_of_gt (Nat.two_pow_pos (maxVal - minVal).size))
    rw [lcgStep_two_pow (by omega), hfuel, Lcg.walk, ← hfuel, hstep, if_pos (by omega)]
  unfold CoveringRandomGenerator.next
  rw [if_pos (show hasNext _ = true from decide_eq_true (Nat.succ_pos _))]
  show Word64.add minVal (Lcg.walk _ _ _ ((BitVec.ofNat 32 x).toNat % _)) = _
  rw [hseed, hwalk]

end CoveringRandomGenerator

/-- `OffsetGenRandomAlignedFullCoverageV2`. -/
structure OffsetGenRandomAlignedFullCoverageV2 where
  numBytesTotal : ℕ
  numBytesLeft : ℕ
  blockSize : ℕ
  randomGen : CoveringRandomGenerator

namespace OffsetGenRandomAlignedFullCoverageV2

/-- `calcStartBlockIdx`. -/
def calcStartBlockIdx (offset blockSize : ℕ) : ℕ := if blockSize ≠ 0 then offset / blockSize else 0

/-- `calcEndBlockIdx`. -/
def calcEndBlockIdx (offset rangeLen blockSize : ℕ) : ℕ :=
  Word64.add (calcStartBlockIdx offset blockSize)
    (if blockSize ≠ 0 ∧ rangeLen / blockSize ≠ 0 then rangeLen / blockSize - 1 else 0)

/-- The constructor. -/
def make (numBytesTotal len offset blockSize : ℕ) (rd : RandomDevice) :
    Except String OffsetGenRandomAlignedFullCoverageV2 := do
  let randomGen ← CoveringRandomGenerator.make (calcStartBlockIdx offset blockSize)
    (calcEndBlockIdx offset len blockSize) rd
  pure ⟨numBytesTotal, numBytesTotal, blockSize, randomGen⟩

instance : OffsetGenerator OffsetGenRandomAlignedFullCoverageV2 where
  getNextOffset g :=
    let (x, randomGen) := g.randomGen.next
    (Word64.mul x g.blockSize, { g with randomGen := randomGen })
  getNextBlockSizeToSubmit g := (min g.numBytesLeft g.blockSize, g)
  getNumBytesTotal g := g.numBytesTotal
  getNumBytesLeftToSubmit g := g.numBytesLeft
  addBytesSubmitted g numBytes := { g with numBytesLeft := Word64.sub g.numBytesLeft numBytes }

instance : LawfulOffsetGenerator OffsetGenRandomAlignedFullCoverageV2 where
  Valid g := 0 < g.blockSize
  bytesLeft_draw _ := rfl
  size_pos _ hvalid hleft := lt_min (Nat.pos_of_ne_zero hleft) hvalid
  valid_submitDraw g hvalid _ := by
    cases g
    exact hvalid

end OffsetGenRandomAlignedFullCoverageV2

end Elbencho
