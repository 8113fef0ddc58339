import Mathlib.Algebra.BigOperators.Fin
import Mathlib.Data.Nat.Log
import Elbencho.Stats.Percentiles

/-!
# The grouped histogram

`getHistogramGroupedStr` sums up the buckets of a histogram by decades and shows one line for
each decade that is not empty, with a label such as `10-99us`.  A bucket is put into the decade
of its upper bound, which is the first latency above the bucket.  So a bucket that ends exactly
at a power of ten is counted one decade too high.

* `categorySums_addLatency`: a latency is counted in the decade of the upper bound of its bucket.
* `le_three_of_lower_eq`: the only powers of ten where a bucket ends are 10, 100 and 1000.
* **`groupedUnderLabels_iff`**: the lines have the counts that their labels say if and only if
  there is no latency in one of the three buckets that end there (and no count is reduced).
-/

namespace Elbencho

/-! ## Decades and their labels -/

/-- The loop of `decadeExponent`, with fuel. -/
def decadeExponentLoop (v : ℕ) : ℕ → ℕ → ℕ → ℕ
  | 0, _, decadeExp => decadeExp
  | fuel + 1, threshold, decadeExp =>
    if v ≥ threshold then decadeExponentLoop v fuel (Word64.mul threshold 10) (decadeExp + 1)
    else decadeExp

/-- Below `10 ^ 19` the loop ends within 20 rounds; the bounds of all buckets are far below. -/
def decadeExponent (v : ℕ) : ℕ := decadeExponentLoop v 20 10 0

def pow10 : ℕ → ℕ
  | 0 => 1
  | exponent + 1 => Word64.mul (pow10 exponent) 10

def decadeUnitAndDigits (decadeExp : ℕ) : String × ℕ :=
  if decadeExp < 3 then ("us", decadeExp)
  else if decadeExp < 6 then ("ms", decadeExp - 3)
  else ("s", decadeExp - 6)

/-- The two numbers in the label of a decade. -/
def decadeBounds (decadeExp : ℕ) : ℕ × ℕ :=
  let digitDecade := (decadeUnitAndDigits decadeExp).2
  (if decadeExp = 0 then 0 else pow10 digitDecade, pow10 (digitDecade + 1) - 1)

def decadeRangeStr (decadeExp : ℕ) : String :=
  toString (decadeBounds decadeExp).1 ++ "-" ++ toString (decadeBounds decadeExp).2 ++
    (decadeUnitAndDigits decadeExp).1

def decadeLowerBoundStr (decadeExp : ℕ) : String :=
  toString (decadeBounds decadeExp).1 ++ (decadeUnitAndDigits decadeExp).1

/-- The latencies of a decade: 0 to 9, 10 to 99, 100 to 999 and so on. -/
def InDecade (d v : ℕ) : Prop := (d = 0 ∨ 10 ^ d ≤ v) ∧ v < 10 ^ (d + 1)

instance (d v : ℕ) : Decidable (InDecade d v) := inferInstanceAs (Decidable (_ ∧ _))

/-- The number of lines that there can be. -/
def numDecades : ℕ := 20

/-- Different decades have different labels. -/
theorem decadeRangeStr_nodup : ((List.range numDecades).map decadeRangeStr).Nodup := by
  decide +kernel

theorem tenPow_lt_size : 10 ^ 19 < Word64.size := by decide +kernel

/-- The loop finds the logarithm. -/
theorem decadeExponentLoop_eq {v : ℕ} (hv : v < 10 ^ 19) (hne : v ≠ 0) (fuel e : ℕ)
    (hfuel : fuel + e = 20) (hle : 10 ^ e ≤ v) :
    decadeExponentLoop v fuel (10 ^ (e + 1)) e = Nat.log 10 v := by
  have hten : 1 < 10 := by decide
  have hlt : e < 19 := (Nat.pow_lt_pow_iff_right hten).mp (hle.trans_lt hv)
  induction fuel generalizing e with
  | zero => omega
  | succ fuel ih =>
    rw [decadeExponentLoop]
    by_cases hge : v ≥ 10 ^ (e + 1)
    · have hlt' : e + 1 < 19 := (Nat.pow_lt_pow_iff_right hten).mp (hge.trans_lt hv)
      have hmul : 10 ^ (e + 1) * 10 = 10 ^ (e + 1 + 1) := (pow_succ 10 (e + 1)).symm
      have hfits : 10 ^ (e + 1) * 10 < Word64.size := by
        rw [hmul]
        exact (Nat.pow_le_pow_right (Nat.le_of_lt hten) hlt').trans_lt tenPow_lt_size
      rw [if_pos hge, Word64.mul_eq hfits, hmul]
      exact ih (e + 1) (by omega) hge hlt'
    · rw [if_neg hge]
      exact ((Nat.log_eq_iff (Or.inr ⟨hten, hne⟩)).mpr ⟨hle, Nat.lt_of_not_le hge⟩).symm

theorem decadeExponent_eq {v : ℕ} (hv : v < 10 ^ 19) (hne : v ≠ 0) :
    decadeExponent v = Nat.log 10 v :=
  decadeExponentLoop_eq hv hne 20 0 rfl (Nat.one_le_iff_ne_zero.mpr hne)

namespace LatencyHistogram

open LogLinear

/-! ## The lines of the grouped histogram -/

/-- The decade that a bucket is counted in. -/
def decadeOfBucket (bucketIndex : ℕ) : ℕ :=
  decadeExponent (indexToUpperBoundMicroSec bucketIndex)

/-- The loop over the buckets. -/
def categorySums (h : LatencyHistogram) : ℕ → UInt64 :=
  (List.finRange lathistoNumbuckets).foldl
    (fun categorySums bucketIndex =>
      if h.buckets bucketIndex = 0 then categorySums
      else Function.update categorySums (decadeOfBucket bucketIndex)
        (categorySums (decadeOfBucket bucketIndex) + h.buckets bucketIndex))
    fun _ => 0

/-- `SummaryLine`, with the number that `countStr` shows. -/
structure SummaryLine where
  rangeLabel : String
  rangeLabelDisplayWidth : ℕ
  count : UInt64
  percentage : ℚ

/-- The last bucket. -/
def topBucket : Fin lathistoNumbuckets := ⟨lathistoNumbuckets - 1, by decide⟩

/-- The lines of `getHistogramGroupedStr`, before they are padded. -/
def summaryLines (h : LatencyHistogram) : List SummaryLine :=
  let topCategoryDecade := decadeOfBucket (lathistoNumbuckets - 1)
  let isTopCategoryOpenEnded := h.buckets topBucket > 0
  (List.range numDecades).filterMap fun decade =>
    if h.categorySums decade = 0 then none
    else
      let percentage : ℚ := 100 * (h.categorySums decade).toNat / h.numStoredValues.toNat
      if isTopCategoryOpenEnded ∧ decade = topCategoryDecade then
        -- the sign takes three bytes and one column
        some ⟨"≥" ++ decadeLowerBoundStr decade, 1 + (decadeLowerBoundStr decade).length,
          h.categorySums decade, percentage⟩
      else
        some ⟨decadeRangeStr decade, (decadeRangeStr decade).length, h.categorySums decade,
          percentage⟩

/-- The number that is shown under a label; there is no line for zero. -/
def printedCount (h : LatencyHistogram) (label : String) : ℕ :=
  ((h.summaryLines.find? (·.rangeLabel = label)).map (·.count.toNat)).getD 0

/-- The loop adds up the buckets of a decade. -/
theorem categorySums_apply (h : LatencyHistogram) (d : ℕ) :
    h.categorySums d = ∑ i, if decadeOfBucket i.val = d then h.buckets i else 0 := by
  have hloop (buckets : List (Fin lathistoNumbuckets)) (sums : ℕ → UInt64) :
      buckets.foldl (fun sums i => if h.buckets i = 0 then sums
        else Function.update sums (decadeOfBucket i) (sums (decadeOfBucket i) + h.buckets i))
        sums d =
      sums d + (buckets.map fun i => if decadeOfBucket i.val = d then h.buckets i else 0).sum := by
    induction buckets generalizing sums with
    | nil => simp
    | cons i buckets ih =>
      rw [List.foldl_cons, ih, List.map_cons, List.sum_cons, ← add_assoc]
      congr 1
      by_cases hzero : h.buckets i = 0
      · simp [hzero]
      · by_cases hd : decadeOfBucket i = d
        · simp [hzero, hd]
        · simp [hzero, hd, Function.update_of_ne (Ne.symm hd)]
  rw [categorySums, hloop, Fin.sum_univ_def]
  exact zero_add _

theorem categorySums_add (a b : LatencyHistogram) (d : ℕ) :
    (a + b).categorySums d = a.categorySums d + b.categorySums d := by
  have hbucket (i : Fin lathistoNumbuckets) :
      (if decadeOfBucket i.val = d then (a + b).buckets i else 0) =
        (if decadeOfBucket i.val = d then a.buckets i else 0) +
          if decadeOfBucket i.val = d then b.buckets i else 0 := by
    by_cases hd : decadeOfBucket i = d
    · rw [if_pos hd, if_pos hd, if_pos hd, buckets_add]
    · rw [if_neg hd, if_neg hd, if_neg hd, add_zero]
  rw [categorySums_apply, categorySums_apply, categorySums_apply, ← Finset.sum_add_distrib]
  simp only [hbucket]

theorem categorySums_single (v : UInt64) (d : ℕ) :
    (single v).categorySums d = if decadeOfBucket (valueToIndex v) = d then 1 else 0 := by
  rw [categorySums_apply, Finset.sum_eq_single (bucketOf v)]
  · rw [buckets_single, if_pos rfl]
    rfl
  · intro i _ hi
    rw [buckets_single, if_neg (Ne.symm hi), ite_self]
  · intro hnot
    exact absurd (Finset.mem_univ _) hnot

/-- A latency is counted in the decade of the upper bound of its bucket. -/
theorem categorySums_addLatency (h : LatencyHistogram) (v : UInt64) :
    (h.addLatency v).categorySums = Function.update h.categorySums
      (decadeOfBucket (valueToIndex v)) (h.categorySums (decadeOfBucket (valueToIndex v)) + 1) := by
  funext d
  rw [addLatency_eq_add, categorySums_add, categorySums_single]
  by_cases hd : decadeOfBucket (valueToIndex v) = d
  · subst hd
    rw [if_pos rfl, Function.update_self]
  · rw [if_neg hd, Function.update_of_ne (Ne.symm hd), add_zero]

/-- The sums of a histogram with the given latencies. -/
theorem categorySums_ofLatencies (latencies : List UInt64) (d : ℕ) :
    (ofLatencies latencies).categorySums d =
      UInt64.ofNat (latencies.countP fun v => decadeOfBucket (valueToIndex v) = d) := by
  have hsum (latencies : List UInt64) : ((latencies.map single).sum).categorySums d =
      UInt64.ofNat (latencies.countP fun v => decadeOfBucket (valueToIndex v) = d) := by
    induction latencies with
    | nil =>
      rw [List.map_nil, List.sum_nil, categorySums_apply]
      exact Finset.sum_eq_zero fun i _ => ite_self 0
    | cons v latencies ih =>
      rw [List.map_cons, List.sum_cons, categorySums_add, ih, categorySums_single,
        List.countP_cons, UInt64.ofNat_add, add_comm]
      by_cases hd : decadeOfBucket (valueToIndex v) = d
      · simp [hd]
      · simp [hd]
  rw [ofLatencies, foldl_addLatency]
  change (0 + _ : LatencyHistogram).categorySums d = _
  rw [zero_add, hsum]

/-- The lines with closed ranges that are shown for some decades. -/
def closedLines (h : LatencyHistogram) (decades : List ℕ) : List SummaryLine :=
  decades.filterMap fun decade =>
    if h.categorySums decade = 0 then none
    else some ⟨decadeRangeStr decade, (decadeRangeStr decade).length, h.categorySums decade,
      100 * (h.categorySums decade).toNat / h.numStoredValues.toNat⟩

/-- All lines are such lines if the last bucket is empty. -/
theorem summaryLines_eq (h : LatencyHistogram) (htop : h.buckets topBucket = 0) :
    h.summaryLines = h.closedLines (List.range numDecades) := by
  have hclosed : ¬ h.buckets topBucket > 0 := by
    rw [htop]
    exact UInt64.lt_irrefl 0
  simp only [summaryLines, closedLines, hclosed, false_and, if_false]

theorem closedLines_cons (h : LatencyHistogram) (d : ℕ) (decades : List ℕ) :
    h.closedLines (d :: decades) =
      if h.categorySums d = 0 then h.closedLines decades
      else ⟨decadeRangeStr d, (decadeRangeStr d).length, h.categorySums d,
        100 * (h.categorySums d).toNat / h.numStoredValues.toNat⟩ :: h.closedLines decades := by
  by_cases hzero : h.categorySums d = 0
  · rw [if_pos hzero]
    exact List.filterMap_cons_none (if_pos hzero)
  · rw [if_neg hzero]
    exact List.filterMap_cons_some (if_neg hzero)

theorem rangeLabel_mem_of_mem_closedLines {h : LatencyHistogram} {decades : List ℕ}
    {line : SummaryLine} (hline : line ∈ h.closedLines decades) :
    line.rangeLabel ∈ decades.map decadeRangeStr := by
  obtain ⟨d, hd, hsome⟩ := List.mem_filterMap.mp hline
  split_ifs at hsome with hzero
  rw [Option.some_inj] at hsome
  rw [← hsome]
  exact List.mem_map_of_mem hd

/-- The line with the label of a decade is the line of this decade. -/
theorem find?_closedLines (h : LatencyHistogram) {d : ℕ} {decades : List ℕ} (hd : d ∈ decades)
    (hnodup : (decades.map decadeRangeStr).Nodup) :
    (((h.closedLines decades).find? (·.rangeLabel = decadeRangeStr d)).map (·.count.toNat)).getD 0 =
      (h.categorySums d).toNat := by
  induction decades with
  | nil => exact absurd hd List.not_mem_nil
  | cons e decades ih =>
    rw [List.map_cons, List.nodup_cons] at hnodup
    obtain ⟨hnew, hnodup⟩ := hnodup
    rw [closedLines_cons]
    rcases List.mem_cons.mp hd with rfl | hd
    · by_cases hzero : h.categorySums d = 0
      · have hnone : (h.closedLines decades).find? (·.rangeLabel = decadeRangeStr d) = none := by
          refine List.find?_eq_none.mpr fun line hline => ?_
          rw [decide_eq_true_iff]
          intro hlabel
          exact hnew (hlabel ▸ rangeLabel_mem_of_mem_closedLines hline)
        rw [if_pos hzero, hnone, hzero]
        rfl
      · rw [if_neg hzero, List.find?_cons_of_pos (by simp), Option.map_some, Option.getD_some]
    · have hne : decadeRangeStr e ≠ decadeRangeStr d := by
        intro heq
        exact hnew (heq ▸ List.mem_map_of_mem hd)
      by_cases hzero : h.categorySums e = 0
      · rw [if_pos hzero]
        exact ih hd hnodup
      · rw [if_neg hzero, List.find?_cons_of_neg (by simpa using hne)]
        exact ih hd hnodup

/-- The line with the label of a decade shows the sum of this decade, unless the last bucket
makes it open. -/
theorem printedCount_decadeRangeStr (h : LatencyHistogram) {d : ℕ} (hd : d < numDecades)
    (htop : h.buckets topBucket = 0) :
    h.printedCount (decadeRangeStr d) = (h.categorySums d).toNat := by
  rw [printedCount, summaryLines_eq h htop]
  have hmem : d ∈ List.range numDecades := List.mem_range.mpr hd
  exact find?_closedLines h hmem decadeRangeStr_nodup

/-! ## Buckets that end at a power of ten -/

/-- The latencies in the buckets that end at 10, 100 and 1000. -/
def EndsAtPower (v : UInt64) : Prop :=
  v.toNat = 9 ∨ v.toNat = 99 ∨ (992 ≤ v.toNat ∧ v.toNat ≤ 999)

instance (v : UInt64) : Decidable (EndsAtPower v) := inferInstanceAs (Decidable (_ ∨ _))

/-- The bounds of the buckets end below `10 ^ 14`. -/
theorem lower_lt {j : ℕ} (hj : j ≤ lathistoNumbuckets) : lower 6 j < 10 ^ 14 :=
  calc lower 6 j ≤ lower 6 lathistoNumbuckets := (lower_strictMono 6).monotone hj
    _ < 10 ^ 14 := by decide +kernel

/-- No bucket begins or ends at a higher power of ten. -/
theorem le_three_of_lower_eq {j k : ℕ} (hj : j ≤ lathistoNumbuckets) (heq : lower 6 j = 10 ^ k) :
    k ≤ 3 := by
  have hhigh : ∀ k < 14, 4 ≤ k → lower 6 (slot 6 (10 ^ k)) ≠ 10 ^ k := by decide +kernel
  have hk : k < 14 := by
    have hlt := lower_lt hj
    rw [heq] at hlt
    exact (Nat.pow_lt_pow_iff_right (by decide)).mp hlt
  by_contra hgt
  have hslot : slot 6 (10 ^ k) = j := by
    rw [slot_eq_iff, ← heq]
    exact ⟨le_rfl, lower_strictMono 6 (Nat.lt_succ_self j)⟩
  exact hhigh k hk (by omega) (by rw [hslot, heq])

/-- The buckets that begin at low powers of ten. -/
theorem exists_lower_eq_pow {k : ℕ} (hk : 1 ≤ k) (hle : k ≤ 3) :
    ∃ j < lathistoNumbuckets - 1, lower 6 (j + 1) = 10 ^ k := by
  have hall : lower 6 (9 + 1) = 10 ^ 1 ∧ lower 6 (99 + 1) = 10 ^ 2 ∧
      lower 6 (316 + 1) = 10 ^ 3 := by decide +kernel
  have hlt : 9 < lathistoNumbuckets - 1 ∧ 99 < lathistoNumbuckets - 1 ∧
      316 < lathistoNumbuckets - 1 := by decide
  obtain rfl | rfl | rfl : k = 1 ∨ k = 2 ∨ k = 3 := by omega
  · exact ⟨9, hlt.1, hall.1⟩
  · exact ⟨99, hlt.2.1, hall.2.1⟩
  · exact ⟨316, hlt.2.2, hall.2.2⟩

section Latency

variable {v : UInt64} (hbelow : valueToIndex v ≠ lathistoNumbuckets - 1)

include hbelow in
theorem valueToIndex_eq_slot : valueToIndex v = slot 6 v.toNat := by
  rw [valueToIndex_eq] at hbelow ⊢
  omega

include hbelow in
/-- The buckets that end at a power of ten have the latencies 9, 99 and 992 to 999. -/
theorem endsAtPower_iff :
    EndsAtPower v ↔ ∃ k, 1 ≤ k ∧ indexToUpperBoundMicroSec (valueToIndex v) = 10 ^ k := by
  have hindex := valueToIndex_eq_slot hbelow
  have hnine : slot 6 v.toNat = 9 ↔ v.toNat = 9 := by
    rw [slot_eq_iff, show lower 6 9 = 9 by decide +kernel,
      show lower 6 (9 + 1) = 10 by decide +kernel]
    omega
  have hninetyNine : slot 6 v.toNat = 99 ↔ v.toNat = 99 := by
    rw [slot_eq_iff, show lower 6 99 = 99 by decide +kernel,
      show lower 6 (99 + 1) = 100 by decide +kernel]
    omega
  have hthousand : slot 6 v.toNat = 316 ↔ 992 ≤ v.toNat ∧ v.toNat ≤ 999 := by
    rw [slot_eq_iff, show lower 6 316 = 992 by decide +kernel,
      show lower 6 (316 + 1) = 1000 by decide +kernel]
    omega
  rw [EndsAtPower, ← hnine, ← hninetyNine, ← hthousand, hindex, indexToUpperBoundMicroSec_eq]
  constructor
  · rintro (heq | heq | heq) <;> rw [heq]
    · exact ⟨1, le_rfl, by decide +kernel⟩
    · exact ⟨2, by decide, by decide +kernel⟩
    · exact ⟨3, by decide, by decide +kernel⟩
  · rintro ⟨k, hk, heq⟩
    have hlt := valueToIndex_lt v
    have hle : k ≤ 3 := le_three_of_lower_eq (by omega) heq
    have hinj := (lower_strictMono 6).injective
    obtain rfl | rfl | rfl : k = 1 ∨ k = 2 ∨ k = 3 := by omega
    · have hsucc := hinj (heq.trans (show 10 ^ 1 = lower 6 10 by decide +kernel))
      omega
    · have hsucc := hinj (heq.trans (show 10 ^ 2 = lower 6 100 by decide +kernel))
      omega
    · have hsucc := hinj (heq.trans (show 10 ^ 3 = lower 6 317 by decide +kernel))
      omega

/-- The decade of a bucket, by its upper bound. -/
theorem decadeOfBucket_eq_iff {d : ℕ} :
    decadeOfBucket (valueToIndex v) = d ↔
      10 ^ d ≤ indexToUpperBoundMicroSec (valueToIndex v) ∧
        indexToUpperBoundMicroSec (valueToIndex v) < 10 ^ (d + 1) := by
  have hlt : indexToUpperBoundMicroSec (valueToIndex v) < 10 ^ 14 := by
    rw [indexToUpperBoundMicroSec_eq]
    exact lower_lt (valueToIndex_lt v)
  have hne : indexToUpperBoundMicroSec (valueToIndex v) ≠ 0 := by
    rw [indexToUpperBoundMicroSec_eq]
    exact (Nat.zero_le _).trans_lt (lower_strictMono 6 (Nat.lt_succ_self _)) |>.ne'
  rw [decadeOfBucket, decadeExponent_eq (hlt.trans (by decide)) hne,
    Nat.log_eq_iff (Or.inr ⟨Nat.one_lt_succ_succ 8, hne⟩)]

variable (hends : ¬ EndsAtPower v)

include hbelow hends in
/-- A low power of ten is above the bucket if it is above the latency. -/
theorem upperBound_lt_pow_iff {k : ℕ} (hk : 1 ≤ k) (hle : k ≤ 3) :
    indexToUpperBoundMicroSec (valueToIndex v) < 10 ^ k ↔ v.toNat < 10 ^ k := by
  obtain ⟨j, -, hj⟩ := exists_lower_eq_pow hk hle
  have hne : indexToUpperBoundMicroSec (valueToIndex v) ≠ 10 ^ k := by
    intro heq
    exact hends ((endsAtPower_iff hbelow).mpr ⟨k, hk, heq⟩)
  have hupto : indexToUpperBoundMicroSec (valueToIndex v) ≤ 10 ^ k ↔ v.toNat < 10 ^ k := by
    rw [indexToUpperBoundMicroSec_eq, ← hj, (lower_strictMono 6).le_iff_le, ← slot_lt_iff,
      valueToIndex_eq_slot hbelow]
    omega
  rw [← hupto]
  omega

include hbelow hends in
/-- In the low decades, the decade of the bucket is the one of the latency. -/
theorem decadeOfBucket_eq_iff_inDecade {d : ℕ} (hd : d < 3) :
    decadeOfBucket (valueToIndex v) = d ↔ InDecade d v.toNat := by
  rw [decadeOfBucket_eq_iff, InDecade,
    upperBound_lt_pow_iff hbelow hends (Nat.succ_pos d) (Nat.succ_le_of_lt hd)]
  refine and_congr_left fun _ => ?_
  rcases Nat.eq_zero_or_pos d with rfl | hpos
  · have hupper := (decadeOfBucket_eq_iff (v := v)).mp rfl
    simp only [pow_zero, true_or, iff_true]
    exact (Nat.one_le_pow _ _ (by decide)).trans hupper.1
  · rw [← Nat.not_lt, upperBound_lt_pow_iff hbelow hends hpos (by omega), Nat.not_lt]
    simp [hpos.ne']

end Latency

/-! ## Labels and counts -/

/-- A bucket lies within a decade. -/
def SlotWithin (d i : ℕ) : Prop :=
  (d = 0 ∨ 10 ^ d ≤ lowerBoundMicroSec i) ∧ indexToUpperBoundMicroSec i ≤ 10 ^ (d + 1)

/-- A latency is counted in the line of a decade and nowhere else. -/
def CountedUnder (d : ℕ) (v : UInt64) : Prop :=
  ∀ h : LatencyHistogram,
    (h.addLatency v).categorySums = Function.update h.categorySums d (h.categorySums d + 1)

/-- A decade begins and ends with a bucket. -/
def AlignedDecade (d : ℕ) : Prop :=
  (d = 0 ∨ ∃ i < lathistoNumbuckets, lowerBoundMicroSec i = 10 ^ d) ∧
    ∃ j < lathistoNumbuckets, indexToUpperBoundMicroSec j = 10 ^ (d + 1)

/-- The lines of the grouped histogram have the counts that their labels say. -/
structure GroupedUnderLabels (latencies : List UInt64) : Prop where
  counted : ∀ v ∈ latencies, ∀ d, SlotWithin d (valueToIndex v) → CountedUnder d v
  printed : ∀ d, AlignedDecade d →
    (ofLatencies latencies).printedCount (decadeRangeStr d) =
      latencies.countP fun v => InDecade d v.toNat

theorem countedUnder_iff {d : ℕ} {v : UInt64} :
    CountedUnder d v ↔ decadeOfBucket (valueToIndex v) = d := by
  constructor
  · intro hcounted
    by_contra hne
    have hd := congrFun (hcounted reset) d
    rw [categorySums_addLatency, Function.update_of_ne (Ne.symm hne), Function.update_self] at hd
    have hone : (1 : UInt64) = 0 := left_eq_add.mp hd
    exact absurd hone (by decide)
  · rintro rfl h
    exact categorySums_addLatency h v

/-- The decade of a bucket that lies within a decade is this one, or the bucket ends with it. -/
theorem decadeOfBucket_of_slotWithin {d : ℕ} {v : UInt64}
    (hwithin : SlotWithin d (valueToIndex v))
    (hne : indexToUpperBoundMicroSec (valueToIndex v) ≠ 10 ^ (d + 1)) :
    decadeOfBucket (valueToIndex v) = d := by
  obtain ⟨hlower, hupper⟩ := hwithin
  have hlt : lowerBoundMicroSec (valueToIndex v) < indexToUpperBoundMicroSec (valueToIndex v) := by
    rw [lowerBoundMicroSec_eq, indexToUpperBoundMicroSec_eq]
    exact lower_strictMono 6 (Nat.lt_succ_self _)
  refine decadeOfBucket_eq_iff.mpr ⟨?_, lt_of_le_of_ne hupper hne⟩
  rcases hlower with rfl | hlower
  · exact Nat.one_le_iff_ne_zero.mpr (Nat.ne_zero_of_lt hlt)
  · exact hlower.trans hlt.le

/-- A bucket that ends at a power of ten is within the decade that ends there. -/
theorem slotWithin_of_upperBound_eq {k : ℕ} {v : UInt64}
    (heq : indexToUpperBoundMicroSec (valueToIndex v) = 10 ^ (k + 1)) :
    SlotWithin k (valueToIndex v) := by
  refine ⟨?_, heq.le⟩
  rcases Nat.eq_zero_or_pos k with rfl | hpos
  · exact Or.inl rfl
  · rw [indexToUpperBoundMicroSec_eq] at heq
    have hle : k + 1 ≤ 3 := le_three_of_lower_eq (valueToIndex_lt v) heq
    obtain ⟨j, -, hj⟩ := exists_lower_eq_pow hpos (Nat.le_of_succ_le hle)
    have hlt : lower 6 (j + 1) < lower 6 (valueToIndex v + 1) := by
      rw [hj, heq]
      exact Nat.pow_lt_pow_right (Nat.one_lt_succ_succ 8) (Nat.lt_succ_self k)
    have hindex : j + 1 ≤ valueToIndex v :=
      Nat.le_of_lt_succ ((lower_strictMono 6).lt_iff_lt.mp hlt)
    right
    rw [lowerBoundMicroSec_eq, ← hj]
    exact (lower_strictMono 6).monotone hindex

theorem alignedDecade_iff {d : ℕ} : AlignedDecade d ↔ d < 3 := by
  constructor
  · rintro ⟨-, j, hj, heq⟩
    rw [indexToUpperBoundMicroSec_eq] at heq
    exact le_three_of_lower_eq hj heq
  · intro hd
    obtain ⟨j, hj, hupper⟩ := exists_lower_eq_pow (Nat.succ_pos d) (Nat.succ_le_of_lt hd)
    refine ⟨?_, j, by omega, (indexToUpperBoundMicroSec_eq j).trans hupper⟩
    rcases Nat.eq_zero_or_pos d with rfl | hpos
    · exact Or.inl rfl
    · obtain ⟨i, hi, hlower⟩ := exists_lower_eq_pow hpos (by omega)
      exact Or.inr ⟨i + 1, by omega, (lowerBoundMicroSec_eq _).trans hlower⟩

/-- The last bucket is empty if no latency is in it. -/
theorem buckets_topBucket_eq_zero {latencies : List UInt64}
    (hbelow : ∀ v ∈ latencies, valueToIndex v ≠ lathistoNumbuckets - 1) :
    (ofLatencies latencies).buckets topBucket = 0 := by
  have hnone : latencies.countP (bucketOf · = topBucket) = 0 := by
    refine List.countP_eq_zero.mpr fun v hv => ?_
    rw [decide_eq_true_iff]
    intro heq
    exact hbelow v hv (Fin.ext_iff.mp heq)
  rw [ofLatencies, foldl_addLatency]
  change (0 + _ : LatencyHistogram).buckets topBucket = 0
  rw [zero_add, buckets_sum_single, hnone]
  rfl

/-- **The lines of the grouped histogram have the right counts if and only if no latency is in
a bucket that ends at a power of ten,** and the counts fit into words. -/
theorem groupedUnderLabels_iff (latencies : List UInt64)
    (hbelow : ∀ v ∈ latencies, valueToIndex v ≠ lathistoNumbuckets - 1) :
    GroupedUnderLabels latencies ↔
      (∀ v ∈ latencies, ¬ EndsAtPower v) ∧
      ∀ d < 3, (latencies.countP fun v => InDecade d v.toNat) < Word64.size := by
  have hprinted (hends : ∀ v ∈ latencies, ¬ EndsAtPower v) {d : ℕ} (hd : d < 3) :
      (ofLatencies latencies).printedCount (decadeRangeStr d) =
        (latencies.countP fun v => InDecade d v.toNat) % Word64.size := by
    have hnum : d < numDecades := hd.trans (by decide)
    have hcount : (latencies.countP fun v => decadeOfBucket (valueToIndex v) = d) =
        latencies.countP fun v => InDecade d v.toNat :=
      List.countP_congr fun v hv => by
        simp only [decide_eq_true_iff]
        exact decadeOfBucket_eq_iff_inDecade (hbelow v hv) (hends v hv) hd
    rw [printedCount_decadeRangeStr _ hnum (buckets_topBucket_eq_zero hbelow),
      categorySums_ofLatencies, hcount]
    exact UInt64.toNat_ofNat'
  constructor
  · intro hgrouped
    have hends : ∀ v ∈ latencies, ¬ EndsAtPower v := by
      intro v hv hends
      obtain ⟨k, hk, heq⟩ := (endsAtPower_iff (hbelow v hv)).mp hends
      obtain ⟨d, rfl⟩ : ∃ d, k = d + 1 := ⟨k - 1, by omega⟩
      -- the bucket is within the decade that ends at the power, and counted in the next one
      have hdecade := countedUnder_iff.mp
        (hgrouped.counted v hv d (slotWithin_of_upperBound_eq heq))
      rw [decadeOfBucket_eq_iff, heq] at hdecade
      exact lt_irrefl _ hdecade.2
    refine ⟨hends, fun d hd => ?_⟩
    have hcount := hgrouped.printed d (alignedDecade_iff.mpr hd)
    rw [hprinted hends hd] at hcount
    rw [← hcount]
    exact Nat.mod_lt _ Word64.size_pos
  · rintro ⟨hends, hfits⟩
    constructor
    · intro v hv d hwithin
      refine countedUnder_iff.mpr (decadeOfBucket_of_slotWithin hwithin fun heq => ?_)
      exact hends v hv ((endsAtPower_iff (hbelow v hv)).mpr ⟨d + 1, Nat.succ_pos d, heq⟩)
    · intro d haligned
      have hd := alignedDecade_iff.mp haligned
      rw [hprinted hends hd, Nat.mod_eq_of_lt (hfits d hd)]

/-- Latencies of 5 and of 42 microseconds. -/
theorem groupedUnderLabels_iff_twoDecades :
    GroupedUnderLabels [5, 42] ↔
      (∀ v ∈ [5, 42], ¬ EndsAtPower v) ∧
      ∀ d < 3, ([5, 42].countP fun v : UInt64 => InDecade d v.toNat) < Word64.size :=
  groupedUnderLabels_iff [5, 42]
    (List.forall_mem_cons.mpr ⟨by decide, List.forall_mem_singleton.mpr (by decide)⟩)

/-- A latency of 9 microseconds is shown under `10-99us`. -/
theorem nineMicroSec_wrongLabel :
    ¬ GroupedUnderLabels [9] ∧
      (ofLatencies [9]).printedCount "0-9us" = 0 ∧
      (ofLatencies [9]).printedCount "10-99us" = 1 := by
  have htop : (ofLatencies [9]).buckets topBucket = 0 :=
    buckets_topBucket_eq_zero (List.forall_mem_singleton.mpr (by decide))
  have hzero : (ofLatencies [9]).printedCount (decadeRangeStr 0) = 0 := by
    rw [printedCount_decadeRangeStr _ (by decide) htop, categorySums_ofLatencies]
    decide +kernel
  have hone : (ofLatencies [9]).printedCount (decadeRangeStr 1) = 1 := by
    rw [printedCount_decadeRangeStr _ (by decide) htop, categorySums_ofLatencies]
    decide +kernel
  refine ⟨fun hgrouped => ?_, ?_, ?_⟩
  · have hcount := hgrouped.printed 0 (alignedDecade_iff.mpr (by decide))
    rw [hzero] at hcount
    exact absurd hcount (by decide)
  · have hlabel : decadeRangeStr 0 = "0-9us" := by decide +kernel
    rw [← hlabel]
    exact hzero
  · have hlabel : decadeRangeStr 1 = "10-99us" := by decide +kernel
    rw [← hlabel]
    exact hone

end LatencyHistogram
end Elbencho
