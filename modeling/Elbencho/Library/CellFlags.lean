import Mathlib.Algebra.BigOperators.Intervals
import Mathlib.Data.Nat.Count
import Elbencho.Library.PackedCells

/-!
# Counting the cells of a word that are not 0

A word of cells of two bits is turned into a word of flags: the OR of the two bits of each cell is
put to the position of its low bit, and all other bits are cleared.  The number of set bits is then
the number of cells that are not 0 (`popcount_cellFlags`).  No bit gets from one cell to another
one, because the shifted word only matters at the low positions.
-/

namespace Elbencho
namespace PackedCells

variable {n : ℕ}

/-- The number of set bits. -/
def popcount (x : BitVec n) : ℕ := Nat.count (fun i => x.getLsbD i) n

/-- The low bits of the cells. -/
def IsLowMask (mask : BitVec n) : Prop := ∀ i < n, mask.getLsbD i = decide (i % 2 = 0)

/-- The flags of the cells that are not 0. -/
def cellFlags (x mask : BitVec n) : BitVec n := (x ||| (x >>> 1)) &&& mask

theorem readCell_two_ne_zero_iff (x : BitVec n) (s : ℕ) :
    readCell 2 x s ≠ 0#n ↔ x.getLsbD s ∨ x.getLsbD (s + 1) := by
  constructor
  · intro hne
    by_contra hbits
    obtain ⟨hlow, hhigh⟩ := not_or.mp hbits
    refine hne (BitVec.eq_of_getLsbD_eq fun i _ => ?_)
    rw [getLsbD_readCell, BitVec.getLsbD_zero]
    match i with
    | 0 => exact Bool.eq_false_iff.mpr hlow
    | 1 => exact Bool.eq_false_iff.mpr hhigh
    | i + 2 => rw [decide_eq_false (by omega), Bool.false_and]
  · intro hbits hzero
    have hbit : ∀ i, (decide (i < 2) && x.getLsbD (s + i)) = false := fun i => by
      rw [← getLsbD_readCell, hzero, BitVec.getLsbD_zero]
    rcases hbits with hlow | hhigh
    · exact absurd hlow (Bool.eq_false_iff.mp (hbit 0))
    · exact absurd hhigh (Bool.eq_false_iff.mp (hbit 1))

/-- A flag stands at the low bit of a cell. -/
theorem getLsbD_cellFlags {x mask : BitVec n} (hmask : IsLowMask mask) {i : ℕ} (hi : i < n) :
    (cellFlags x mask).getLsbD i ↔ i % 2 = 0 ∧ readCell 2 x i ≠ 0#n := by
  rw [readCell_two_ne_zero_iff, cellFlags, BitVec.getLsbD_and, BitVec.getLsbD_or,
    BitVec.getLsbD_ushiftRight, hmask i hi, Bool.and_eq_true, Bool.or_eq_true, decide_eq_true_iff,
    Nat.add_comm 1 i]
  exact and_comm

/-- **The flags are as many as the cells that are not 0.** -/
theorem popcount_cellFlags {m : ℕ} {x mask : BitVec (2 * m)} (hmask : IsLowMask mask) :
    popcount (cellFlags x mask) = Nat.count (fun c => readCell 2 x (2 * c) ≠ 0#(2 * m)) m := by
  suffices h : ∀ k ≤ m, Nat.count (fun i => (cellFlags x mask).getLsbD i) (2 * k) =
      Nat.count (fun c => readCell 2 x (2 * c) ≠ 0#(2 * m)) k from h m le_rfl
  intro k hk
  induction k with
  | zero => rfl
  | succ k ih =>
    have hlow := getLsbD_cellFlags (x := x) hmask (i := 2 * k) (by omega)
    have hhigh := getLsbD_cellFlags (x := x) hmask (i := 2 * k + 1) (by omega)
    have heven : 2 * k % 2 = 0 := Nat.mul_mod_right 2 k
    have hodd : ¬ ((2 * k + 1) % 2 = 0 ∧ readCell 2 x (2 * k + 1) ≠ 0#(2 * m)) := fun h => by
      omega
    rw [Nat.mul_succ, Nat.count_succ, Nat.count_succ, Nat.count_succ, ih (by omega),
      if_neg (fun h => hodd (hhigh.mp h)), Nat.add_zero]
    by_cases hcell : readCell 2 x (2 * k) ≠ 0#(2 * m)
    · rw [if_pos hcell, if_pos (hlow.mpr ⟨heven, hcell⟩)]
    · rw [if_neg hcell, if_neg (fun h => hcell (hlow.mp h).2)]

/-- A count below a bound looks at the numbers below the bound only. -/
theorem count_congr {p q : ℕ → Prop} [DecidablePred p] [DecidablePred q] {m : ℕ}
    (h : ∀ k < m, p k ↔ q k) : Nat.count p m = Nat.count q m :=
  le_antisymm (Nat.count_mono_left fun k hk => (h k hk).mp)
    (Nat.count_mono_left fun k hk => (h k hk).mpr)

/-- A count in groups of equal length. -/
theorem count_mul_eq_sum (p : ℕ → Prop) [DecidablePred p] (w m : ℕ) :
    Nat.count p (w * m) = ∑ i ∈ Finset.range m, Nat.count (fun k => p (w * i + k)) w := by
  induction m with
  | zero => rfl
  | succ m ih => rw [Nat.mul_succ, Nat.count_add, ih, Finset.sum_range_succ]

end PackedCells
end Elbencho
