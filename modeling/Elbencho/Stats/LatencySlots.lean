import Elbencho.Library.LogLinear
import Elbencho.Stats.LatencyHistogram

/-!
# The buckets of a latency histogram

`valueToIndex` finds the bucket of a latency from the position of its highest bit, and
`indexToUpperBoundMicroSec` gives the first latency above a bucket.  The buckets are the
log-linear slots of `LogLinear` with `2 ^ 6` slots in each octave, up to the last one, which
also gets everything above.

* `valueToIndex_eq`, `indexToUpperBoundMicroSec_eq`: both functions in terms of these slots.
* **`latencySlots_partition`**: the buckets below the last one are a partition of the latencies
  that it does not get, and each is narrow compared to its members.
-/

namespace Elbencho
namespace LatencyHistogram

open LogLinear

/-- `LATHISTO_SUBBUCKET_BITS` -/
def lathistoSubbucketBits : ℕ := 7

/-- `__builtin_clzll`, the number of leading zero bits -/
def builtinClzll (x : UInt64) : ℕ := x.toBitVec.clz.toNat

def valueToIndex (latencyMicroSec : UInt64) : ℕ :=
  if latencyMicroSec.toNat < lathistoSubbucketCount then
    latencyMicroSec.toNat
  else
    let bucketIndex := (63 - builtinClzll latencyMicroSec) - (lathistoSubbucketBits - 1)
    -- larger latencies are clamped into the last octave
    let bucketIndex :=
      if bucketIndex > lathistoMaxbucketidx then lathistoMaxbucketidx else bucketIndex
    let subBucketIndex := latencyMicroSec.toNat >>> bucketIndex
    let subBucketIndex :=
      if subBucketIndex ≥ lathistoSubbucketCount then lathistoSubbucketCount - 1
      else subBucketIndex
    lathistoSubbucketCount + (bucketIndex - 1) * lathistoSubbucketHalfcount +
      (subBucketIndex - lathistoSubbucketHalfcount)

/-- The bounds of the buckets are at most `2 ^ 45`, so that no word is reduced. -/
def indexToUpperBoundMicroSec (bucketIndex : ℕ) : ℕ :=
  if bucketIndex < lathistoSubbucketCount then
    bucketIndex + 1
  else
    let octave := 1 + (bucketIndex - lathistoSubbucketCount) / lathistoSubbucketHalfcount
    let subBucketIndex := lathistoSubbucketHalfcount +
      (bucketIndex - lathistoSubbucketCount) % lathistoSubbucketHalfcount
    (subBucketIndex + 1) <<< octave

/-- The upper bound of the bucket before, which is zero for the first bucket. -/
def lowerBoundMicroSec (bucketIndex : ℕ) : ℕ :=
  if bucketIndex = 0 then 0 else indexToUpperBoundMicroSec (bucketIndex - 1)

/-! ## The buckets as log-linear slots -/

theorem lathistoSubbucketCount_eq : lathistoSubbucketCount = 128 := rfl

theorem lathistoSubbucketHalfcount_eq : lathistoSubbucketHalfcount = 64 := rfl

theorem lathistoNumbuckets_eq : lathistoNumbuckets = 2560 := rfl

/-- The position of the highest bit. -/
theorem sub_builtinClzll {x : UInt64} (hx : x.toNat ≠ 0) : 63 - builtinClzll x = x.toNat.log2 := by
  have hne : x.toBitVec ≠ 0#64 := by
    intro heq
    exact hx (by rw [← UInt64.toNat_toBitVec, heq]; rfl)
  have hlow : 2 ^ (63 - builtinClzll x) ≤ x.toNat :=
    BitVec.two_pow_sub_clz_le_toNat_of_ne_zero (by decide) hne
  have hclz : builtinClzll x < 64 := by
    have hlt := BitVec.clz_lt_iff_ne_zero.mpr hne
    exact BitVec.lt_def.mp hlt
  have hhigh : x.toNat < 2 ^ (64 - builtinClzll x) := BitVec.toNat_lt_two_pow_sub_clz
  have hsucc : 64 - builtinClzll x = 63 - builtinClzll x + 1 := by omega
  rw [hsucc] at hhigh
  exact ((Nat.log2_eq_iff hx).mpr ⟨hlow, hhigh⟩).symm

/-- The bucket of a latency is its slot, or the last bucket. -/
theorem valueToIndex_eq (v : UInt64) :
    valueToIndex v = min (slot 6 v.toNat) (lathistoNumbuckets - 1) := by
  rw [lathistoNumbuckets_eq, valueToIndex, lathistoSubbucketCount_eq,
    lathistoSubbucketHalfcount_eq]
  by_cases hsmall : v.toNat < 128
  · have hslot : slot 6 v.toNat = v.toNat := by
      simp [slot, octave_eq_zero (s := 6) hsmall]
    rw [if_pos hsmall, hslot]
    omega
  · have hoct : 63 - builtinClzll v - (lathistoSubbucketBits - 1) = octave 6 v.toNat := by
      rw [sub_builtinClzll (by omega)]
      rfl
    have hlog : 7 ≤ v.toNat.log2 := (Nat.le_log2 (by omega)).mpr (by omega)
    have hpos : octave 6 v.toNat ≠ 0 := by
      rw [octave]
      omega
    have hle := two_pow_mul_le hpos
    have hlt := lt_two_pow_mul 6 v.toNat
    have hhalf : 64 ≤ v.toNat / 2 ^ octave 6 v.toNat :=
      (Nat.le_div_iff_mul_le (Nat.two_pow_pos _)).mpr hle
    simp only [if_neg hsmall, hoct, lathistoMaxbucketidx, Nat.shiftRight_eq_div_pow]
    by_cases hclamp : octave 6 v.toNat > 38
    · -- the latency is above the last octave
      have hbig : 128 * 2 ^ 38 ≤ v.toNat := by
        have hpow : 2 ^ 39 ≤ 2 ^ octave 6 v.toNat := Nat.pow_le_pow_right Nat.two_pos hclamp
        omega
      have hsub : v.toNat / 2 ^ 38 ≥ 128 := (Nat.le_div_iff_mul_le (Nat.two_pow_pos _)).mpr hbig
      rw [if_pos hclamp, if_pos hsub, slot]
      omega
    · have hquot : v.toNat / 2 ^ octave 6 v.toNat < 128 :=
        Nat.div_lt_of_lt_mul (by rw [Nat.mul_comm]; exact hlt)
      rw [if_neg hclamp, if_neg (Nat.not_le.mpr hquot), slot]
      omega

/-- A bucket ends where the next slot begins. -/
theorem indexToUpperBoundMicroSec_eq (i : ℕ) : indexToUpperBoundMicroSec i = lower 6 (i + 1) := by
  rw [indexToUpperBoundMicroSec, lathistoSubbucketCount_eq, lathistoSubbucketHalfcount_eq,
    lower_succ]
  by_cases hsmall : i < 128
  · have hoct : slotOctave 6 i = 0 := by
      rw [slotOctave]
      omega
    rw [if_pos hsmall, lower_of_lt (s := 6) hsmall, hoct, pow_zero]
  · have hoct : 1 + (i - 128) / 64 = slotOctave 6 i := by
      rw [slotOctave]
      omega
    have hsub : 64 + (i - 128) % 64 = i - slotOctave 6 i * 2 ^ 6 := by
      rw [slotOctave]
      omega
    simp only [if_neg hsmall, hoct, hsub]
    rw [Nat.shiftLeft_eq, Nat.add_mul, Nat.one_mul, lower]

theorem lowerBoundMicroSec_eq (i : ℕ) : lowerBoundMicroSec i = lower 6 i := by
  cases i with
  | zero => exact (lower_zero 6).symm
  | succ i => exact indexToUpperBoundMicroSec_eq i

/-! ## The buckets are a partition -/

theorem valueToIndex_lt (v : UInt64) : valueToIndex v < lathistoNumbuckets := by
  rw [valueToIndex_eq, lathistoNumbuckets_eq]
  omega

theorem valueToIndex_mono {v w : UInt64} (hle : v ≤ w) : valueToIndex v ≤ valueToIndex w := by
  rw [valueToIndex_eq, valueToIndex_eq]
  exact min_le_min_right _ (slot_mono 6 (UInt64.le_iff_toNat_le.mp hle))

/-- The members of a bucket other than the last one. -/
theorem valueToIndex_eq_iff {v : UInt64} {i : ℕ} (hi : i < lathistoNumbuckets - 1) :
    valueToIndex v = i ↔
      lowerBoundMicroSec i ≤ v.toNat ∧ v.toNat < indexToUpperBoundMicroSec i := by
  rw [lowerBoundMicroSec_eq, indexToUpperBoundMicroSec_eq, ← slot_eq_iff, valueToIndex_eq]
  omega

/-- The latencies of the buckets up to one other than the last. -/
theorem valueToIndex_le_iff {v : UInt64} {i : ℕ} (hi : i < lathistoNumbuckets - 1) :
    valueToIndex v ≤ i ↔ v.toNat < indexToUpperBoundMicroSec i := by
  rw [indexToUpperBoundMicroSec_eq, ← slot_lt_iff, valueToIndex_eq]
  omega

/-- **The buckets are a partition.**  Every latency is in a bucket, and in order; the buckets
other than the last one have no gaps between them, and a member of such a bucket is at least
64 times as large as the bucket is wide, unless it is the only member. -/
theorem latencySlots_partition (v : UInt64) :
    valueToIndex v < lathistoNumbuckets ∧
    (∀ w, v ≤ w → valueToIndex v ≤ valueToIndex w) ∧
    (valueToIndex v ≠ lathistoNumbuckets - 1 →
      lowerBoundMicroSec (valueToIndex v) ≤ v.toNat ∧
      v.toNat < indexToUpperBoundMicroSec (valueToIndex v) ∧
      indexToUpperBoundMicroSec (valueToIndex v) - lowerBoundMicroSec (valueToIndex v) ≤
        max 1 (v.toNat / 64)) ∧
    ∀ i < lathistoNumbuckets - 1,
      lowerBoundMicroSec i < indexToUpperBoundMicroSec i ∧
      (lowerBoundMicroSec i ≤ v.toNat → v.toNat < indexToUpperBoundMicroSec i →
        valueToIndex v = i) := by
  have hlt := valueToIndex_lt v
  refine ⟨hlt, fun w hle => valueToIndex_mono hle, fun hlast => ?_, fun i hi => ⟨?_, ?_⟩⟩
  · have hi : valueToIndex v < lathistoNumbuckets - 1 := by omega
    obtain ⟨hlower, hupper⟩ := (valueToIndex_eq_iff hi).mp rfl
    refine ⟨hlower, hupper, ?_⟩
    have hslot : valueToIndex v = slot 6 v.toNat := by
      rw [valueToIndex_eq] at hi ⊢
      omega
    rw [lowerBoundMicroSec_eq, indexToUpperBoundMicroSec_eq, lower_succ, Nat.add_sub_cancel_left,
      hslot]
    exact two_pow_slotOctave_le 6 v.toNat
  · rw [lowerBoundMicroSec_eq, indexToUpperBoundMicroSec_eq]
    exact lower_strictMono 6 (Nat.lt_succ_self i)
  · intro hlower hupper
    exact (valueToIndex_eq_iff hi).mpr ⟨hlower, hupper⟩

end LatencyHistogram
end Elbencho
