import Mathlib.Data.BitVec

/-!
# Cells packed into words

A word of `n` bits that holds several cells of `w` bits each.  A cell is named by
the position `s` of its lowest bit.  It is read with a mask and a shift, cleared
with the complement of the mask, and set by OR-ing a value into a cleared cell
--- the three operations a program performs with `fetch_and`, `fetch_or` and an
atomic load.

The statements say that the cells of one word are independent registers: each
operation acts on its own cell (`readCell_clearCell_self`,
`readCell_orCell_self`) and leaves every cell that does not overlap it alone
(`readCell_clearCell_of_disjoint`, `readCell_orCell_of_disjoint`).  All of them
are read off the bits of a read (`getLsbD_readCell`).
-/

namespace Elbencho
namespace PackedCells

variable {n : ℕ}

/-- The mask of the cell of width `w` at position `s`. -/
def cellMask (n w s : ℕ) : BitVec n := (BitVec.setWidth n (BitVec.allOnes w)) <<< s

/-- The value of a cell. -/
def readCell (w : ℕ) (x : BitVec n) (s : ℕ) : BitVec n := (x &&& cellMask n w s) >>> s

/-- The word with a cell cleared. -/
def clearCell (w : ℕ) (x : BitVec n) (s : ℕ) : BitVec n := x &&& ~~~ cellMask n w s

/-- The word with a value OR-ed into a cell. -/
def orCell (w : ℕ) (x : BitVec n) (s : ℕ) (v : BitVec n) : BitVec n :=
  x ||| ((v <<< s) &&& cellMask n w s)

/-- Two cells of one width that share no bit. -/
def Disjoint (w s s' : ℕ) : Prop := s + w ≤ s' ∨ s' + w ≤ s

theorem getLsbD_cellMask (w s i : ℕ) :
    (cellMask n w s).getLsbD i = decide (i < n ∧ s ≤ i ∧ i < s + w) := by
  rw [cellMask, BitVec.getLsbD_shiftLeft, BitVec.getLsbD_setWidth, BitVec.getLsbD_allOnes]
  rw [Bool.eq_iff_iff]
  simp only [Bool.and_eq_true, decide_eq_true_eq, Bool.not_eq_true', decide_eq_false_iff_not]
  omega

/-- The bits of a cell, from its lowest one. -/
theorem getLsbD_readCell (w : ℕ) (x : BitVec n) (s i : ℕ) :
    (readCell w x s).getLsbD i = (decide (i < w) && x.getLsbD (s + i)) := by
  rw [readCell, BitVec.getLsbD_ushiftRight, BitVec.getLsbD_and, getLsbD_cellMask]
  rcases Bool.eq_false_or_eq_true (x.getLsbD (s + i)) with hx | hx
  · have hlt : s + i < n := BitVec.lt_of_getLsbD hx
    rw [hx, Bool.true_and, Bool.and_true, decide_eq_decide]
    omega
  · rw [hx, Bool.false_and, Bool.and_false]

theorem readCell_clearCell_self (w : ℕ) (x : BitVec n) (s : ℕ) :
    readCell w (clearCell w x s) s = 0#n := by
  refine BitVec.eq_of_getLsbD_eq fun i hi => ?_
  rw [getLsbD_readCell, clearCell, BitVec.getLsbD_and, BitVec.getLsbD_not, getLsbD_cellMask,
    BitVec.getLsbD_zero]
  simp only [Bool.and_eq_false_imp, decide_eq_true_eq, Bool.not_eq_false']
  intro hw _ hn
  omega

theorem readCell_clearCell_of_disjoint {w s s' : ℕ} (x : BitVec n) (h : Disjoint w s s') :
    readCell w (clearCell w x s) s' = readCell w x s' := by
  refine BitVec.eq_of_getLsbD_eq fun i hi => ?_
  rw [getLsbD_readCell, getLsbD_readCell, clearCell, BitVec.getLsbD_and, BitVec.getLsbD_not,
    getLsbD_cellMask]
  rcases Bool.eq_false_or_eq_true (x.getLsbD (s' + i)) with hx | hx
  · have hlt : s' + i < n := BitVec.lt_of_getLsbD hx
    rw [hx, Bool.true_and, Bool.and_true]
    rcases lt_or_ge i w with hw | hw
    · have hout : ¬ (s' + i < n ∧ s ≤ s' + i ∧ s' + i < s + w) := by
        rcases h with h | h <;> omega
      rw [decide_eq_false hout, decide_eq_true hlt, decide_eq_true hw]
      rfl
    · rw [decide_eq_false (by omega), Bool.false_and]
  · rw [hx, Bool.false_and]

/-- A value that fits is found in the cell it was OR-ed into, when the cell was
clear. -/
theorem readCell_orCell_self {w s : ℕ} {x v : BitVec n} (hclear : readCell w x s = 0#n)
    (hv : v.toNat < 2 ^ w) (hs : s + w ≤ n) : readCell w (orCell w x s v) s = v := by
  refine BitVec.eq_of_getLsbD_eq fun i hi => ?_
  have hbit : (decide (i < w) && x.getLsbD (s + i)) = false := by
    rw [← getLsbD_readCell, hclear, BitVec.getLsbD_zero]
  rw [getLsbD_readCell, orCell, BitVec.getLsbD_or, BitVec.getLsbD_and, BitVec.getLsbD_shiftLeft,
    getLsbD_cellMask, Bool.and_or_distrib_left, hbit, Bool.false_or, Nat.add_sub_cancel_left]
  rcases lt_or_ge i w with hw | hw
  · rw [decide_eq_true hw, decide_eq_true (by omega : s + i < n),
      decide_eq_false (by omega : ¬ s + i < s),
      decide_eq_true (by omega : s + i < n ∧ s ≤ s + i ∧ s + i < s + w)]
    simp
  · have hhigh : v.getLsbD i = false :=
      Nat.testBit_lt_two_pow (lt_of_lt_of_le hv (Nat.pow_le_pow_right (by omega) hw))
    rw [decide_eq_false (by omega), Bool.false_and, hhigh]

theorem readCell_orCell_of_disjoint {w s s' : ℕ} (x v : BitVec n) (h : Disjoint w s s') :
    readCell w (orCell w x s v) s' = readCell w x s' := by
  refine BitVec.eq_of_getLsbD_eq fun i hi => ?_
  rw [getLsbD_readCell, getLsbD_readCell, orCell, BitVec.getLsbD_or, BitVec.getLsbD_and,
    getLsbD_cellMask]
  rcases lt_or_ge i w with hw | hw
  · have hout : ¬ (s' + i < n ∧ s ≤ s' + i ∧ s' + i < s + w) := by
      rcases h with h | h <;> omega
    rw [decide_eq_false hout, Bool.and_false, Bool.or_false]
  · rw [decide_eq_false (by omega), Bool.false_and, Bool.false_and]

end PackedCells
end Elbencho
