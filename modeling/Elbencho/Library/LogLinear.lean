import Mathlib.Algebra.Order.Ring.Nat
import Mathlib.Data.Nat.Basic
import Mathlib.Order.Monotone.Basic

/-!
# Log-linear slots

The natural numbers are cut into slots: below `2 ^ (s + 1)` each number has a slot of its own,
and every octave above is cut into `2 ^ s` slots of equal width.  A number `n` of octave `o`
is in the slot with number `o * 2 ^ s + n / 2 ^ o`.

* `lower_succ`: the slot `i` ends where the slot `i + 1` begins.
* **`slot_eq_iff`**: a number is in the slot whose bounds it lies between, so the slots are a
  partition.
* **`le_slot_iff`**: `slot` and `lower` are a Galois connection.
* **`two_pow_slotOctave_le`**: the width of a slot is at most the part `1 / 2 ^ s` of each of
  its members, or one.
-/

namespace Elbencho
namespace LogLinear

/-- The octave of a number: zero below `2 ^ (s + 1)`. -/
def octave (s n : ℕ) : ℕ := n.log2 - s

/-- The number of the slot that a number is in. -/
def slot (s n : ℕ) : ℕ := octave s n * 2 ^ s + n / 2 ^ octave s n

/-- The octave of the members of a slot. -/
def slotOctave (s i : ℕ) : ℕ := i / 2 ^ s - 1

/-- The least member of a slot. -/
def lower (s i : ℕ) : ℕ := (i - slotOctave s i * 2 ^ s) * 2 ^ slotOctave s i

theorem octave_eq_zero {s n : ℕ} (hlt : n < 2 ^ (s + 1)) : octave s n = 0 := by
  rcases Nat.eq_zero_or_pos n with rfl | hpos
  · simp [octave]
  · have hlog : n.log2 < s + 1 := (Nat.log2_lt hpos.ne').mpr hlt
    rw [octave]
    omega

/-- A number of an octave above the lowest, scaled down, is in the upper half. -/
theorem two_pow_mul_le {s n : ℕ} (hoct : octave s n ≠ 0) : 2 ^ s * 2 ^ octave s n ≤ n := by
  have hlog : s + octave s n = n.log2 := by
    rw [octave] at hoct ⊢
    omega
  have hne : n ≠ 0 := by
    rintro rfl
    exact hoct (octave_eq_zero (Nat.two_pow_pos _))
  rw [← pow_add, hlog]
  exact Nat.log2_self_le hne

/-- A number, scaled down by its octave, is below `2 ^ (s + 1)`. -/
theorem lt_two_pow_mul (s n : ℕ) : n < 2 * 2 ^ s * 2 ^ octave s n := by
  have hle : n.log2 + 1 ≤ s + 1 + octave s n := by
    rw [octave]
    omega
  calc n < 2 ^ (n.log2 + 1) := Nat.lt_log2_self
    _ ≤ 2 ^ (s + 1 + octave s n) := Nat.pow_le_pow_right Nat.two_pos hle
    _ = 2 * 2 ^ s * 2 ^ octave s n := by rw [pow_add, pow_succ, Nat.mul_comm (2 ^ s)]

/-- A slot tells the octave of its members. -/
theorem slotOctave_slot (s n : ℕ) : slotOctave s (slot s n) = octave s n := by
  have hpos : 0 < 2 ^ octave s n := Nat.two_pow_pos _
  have hlt : n / 2 ^ octave s n < 2 * 2 ^ s :=
    Nat.div_lt_of_lt_mul (by rw [Nat.mul_comm]; exact lt_two_pow_mul s n)
  have hquot : n / 2 ^ octave s n / 2 ^ s < 2 := Nat.div_lt_of_lt_mul (by omega)
  rw [slotOctave, slot, Nat.add_comm, Nat.add_mul_div_right _ _ (Nat.two_pow_pos s)]
  by_cases hoct : octave s n = 0
  · omega
  · have hle : 2 ^ s ≤ n / 2 ^ octave s n := (Nat.le_div_iff_mul_le hpos).mpr (two_pow_mul_le hoct)
    have hone : 1 ≤ n / 2 ^ octave s n / 2 ^ s := Nat.div_pos hle (Nat.two_pow_pos s)
    omega

theorem slotOctave_mul_le (s i : ℕ) : slotOctave s i * 2 ^ s ≤ i := by
  have hle : i / 2 ^ s * 2 ^ s ≤ i := Nat.div_mul_le_self i _
  exact (Nat.mul_le_mul_right _ (Nat.sub_le _ _)).trans hle

/-- A slot ends where the next one begins. -/
theorem lower_succ (s i : ℕ) : lower s (i + 1) = lower s i + 2 ^ slotOctave s i := by
  have hpos : 0 < 2 ^ s := Nat.two_pow_pos s
  have hle := slotOctave_mul_le s i
  by_cases hsame : slotOctave s (i + 1) = slotOctave s i
  · rw [lower, lower, hsame, Nat.sub_add_comm hle, Nat.add_mul, Nat.one_mul]
  · -- the next slot is the first one of the next octave
    have hdiv : (i + 1) / 2 ^ s = i / 2 ^ s + if 2 ^ s ∣ i + 1 then 1 else 0 := Nat.succ_div
    have hdvd : 2 ^ s ∣ i + 1 := by
      by_contra hnot
      rw [if_neg hnot] at hdiv
      exact hsame (by rw [slotOctave, slotOctave, hdiv, Nat.add_zero])
    rw [if_pos hdvd] at hdiv
    have hge : 1 ≤ i / 2 ^ s := by
      rw [slotOctave, slotOctave, hdiv] at hsame
      omega
    have hnext : slotOctave s (i + 1) = slotOctave s i + 1 := by
      rw [slotOctave, slotOctave, hdiv]
      omega
    have hi : i + 1 = (slotOctave s i + 2) * 2 ^ s := by
      have hmul : (i + 1) / 2 ^ s * 2 ^ s = i + 1 := Nat.div_mul_cancel hdvd
      rw [← hmul, hdiv, slotOctave]
      congr 1
      omega
    have hupper : i + 1 - slotOctave s (i + 1) * 2 ^ s = 2 ^ s := by
      rw [hnext, hi, ← Nat.sub_mul]
      simp [Nat.add_sub_add_left]
    have hfull : i - slotOctave s i * 2 ^ s + 1 = 2 * 2 ^ s := by
      have hsum : (slotOctave s i + 2) * 2 ^ s = slotOctave s i * 2 ^ s + 2 * 2 ^ s :=
        Nat.add_mul _ _ _
      omega
    rw [lower, lower, hupper, hnext]
    calc 2 ^ s * 2 ^ (slotOctave s i + 1) = 2 * 2 ^ s * 2 ^ slotOctave s i := by
          rw [pow_succ, Nat.mul_comm 2 (2 ^ s), Nat.mul_assoc, Nat.mul_comm 2]
      _ = (i - slotOctave s i * 2 ^ s) * 2 ^ slotOctave s i + 2 ^ slotOctave s i := by
          rw [← hfull, Nat.add_mul, Nat.one_mul]

theorem lower_strictMono (s : ℕ) : StrictMono (lower s) :=
  strictMono_nat_of_lt_succ fun i => by
    rw [lower_succ]
    exact Nat.lt_add_of_pos_right (Nat.two_pow_pos _)

theorem lower_zero (s : ℕ) : lower s 0 = 0 := by simp [lower]

/-- Slots of the lowest octave have one member. -/
theorem lower_of_lt {s i : ℕ} (hlt : i < 2 ^ (s + 1)) : lower s i = i := by
  have hquot : i / 2 ^ s < 2 := Nat.div_lt_of_lt_mul (by rwa [pow_succ] at hlt)
  have hoct : slotOctave s i = 0 := by
    rw [slotOctave]
    omega
  simp [lower, hoct]

/-- A number lies between the bounds of its slot. -/
theorem lower_slot_le (s n : ℕ) : lower s (slot s n) ≤ n := by
  rw [lower, slotOctave_slot, slot, Nat.add_sub_cancel_left]
  exact Nat.div_mul_le_self _ _

theorem lt_lower_slot_succ (s n : ℕ) : n < lower s (slot s n + 1) := by
  rw [lower_succ, lower, slotOctave_slot, slot, Nat.add_sub_cancel_left, ← Nat.succ_mul]
  exact Nat.lt_mul_of_div_lt (Nat.lt_succ_self _) (Nat.two_pow_pos _)

/-- **The slot of a number and the least member of a slot are a Galois connection.** -/
theorem le_slot_iff {s n i : ℕ} : i ≤ slot s n ↔ lower s i ≤ n := by
  constructor
  · intro hle
    exact ((lower_strictMono s).monotone hle).trans (lower_slot_le s n)
  · intro hle
    by_contra hlt
    have hnext : lower s (slot s n + 1) ≤ lower s i :=
      (lower_strictMono s).monotone (Nat.succ_le_of_lt (Nat.lt_of_not_le hlt))
    exact absurd (lt_lower_slot_succ s n) (Nat.not_lt.mpr (hnext.trans hle))

theorem slot_lt_iff {s n i : ℕ} : slot s n < i ↔ n < lower s i := by
  rw [← Nat.not_le, ← Nat.not_le, le_slot_iff]

/-- **The slots are a partition.** -/
theorem slot_eq_iff {s n i : ℕ} : slot s n = i ↔ lower s i ≤ n ∧ n < lower s (i + 1) := by
  rw [← le_slot_iff, ← slot_lt_iff]
  omega

theorem slot_mono (s : ℕ) : Monotone (slot s) := fun _ _ hmn =>
  le_slot_iff.mpr ((lower_slot_le s _).trans hmn)

/-- **The width of a slot is small compared to its members.** -/
theorem two_pow_slotOctave_le (s n : ℕ) : 2 ^ slotOctave s (slot s n) ≤ max 1 (n / 2 ^ s) := by
  rw [slotOctave_slot]
  by_cases hoct : octave s n = 0
  · rw [hoct, pow_zero]
    exact Nat.le_max_left _ _
  · have hle : 2 ^ octave s n * 2 ^ s ≤ n := by
      rw [Nat.mul_comm]
      exact two_pow_mul_le hoct
    exact ((Nat.le_div_iff_mul_le (Nat.two_pow_pos s)).mpr hle).trans (Nat.le_max_right _ _)

end LogLinear
end Elbencho
