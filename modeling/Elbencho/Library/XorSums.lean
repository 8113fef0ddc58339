import Mathlib.Algebra.BigOperators.Group.Finset.Basic
import Mathlib.Algebra.Order.Ring.Nat
import Mathlib.Algebra.Ring.Parity
import Mathlib.Data.List.Count
import Mathlib.Algebra.BigOperators.Ring.Nat

/-!
# Sums of bit vectors without carry

`xorSum` is the exclusive or of a list of bit vectors.  A bit of it says whether an odd number of
the vectors have this bit, so an entry that comes twice does not count, and the order of the
list does not matter either.

A form `φ` is linear if it turns an exclusive or into one (`IsLinear`).  If there is a linear form
that tells one letter `a` from all others, the sum of a word can only be 0 if `a` comes an even
number of times in it (`even_count_of_dual`).
-/

namespace Elbencho
namespace XorSums

variable {w : ℕ}

/-- The exclusive or of a list. -/
def xorSum (l : List (BitVec w)) : BitVec w := l.foldr (· ^^^ ·) 0#w

@[simp] theorem xorSum_nil : xorSum ([] : List (BitVec w)) = 0#w := rfl

@[simp] theorem xorSum_cons (x : BitVec w) (l : List (BitVec w)) :
    xorSum (x :: l) = x ^^^ xorSum l := rfl

theorem xorSum_append (l l' : List (BitVec w)) : xorSum (l ++ l') = xorSum l ^^^ xorSum l' := by
  induction l with
  | nil => simp
  | cons x l ih => rw [List.cons_append, xorSum_cons, ih, xorSum_cons, BitVec.xor_assoc]

/-! ## Linear forms -/

/-- A form that turns an exclusive or into one. -/
def IsLinear (φ : BitVec w → Bool) : Prop := ∀ x y, φ (x ^^^ y) = (φ x ^^ φ y)

theorem isLinear_getLsbD (i : ℕ) : IsLinear fun x : BitVec w => x.getLsbD i :=
  fun _ _ => BitVec.getLsbD_xor

theorem IsLinear.zero {φ : BitVec w → Bool} (hφ : IsLinear φ) : φ 0#w = false := by
  have h := hφ 0#w 0#w
  rw [BitVec.xor_self, Bool.xor_self] at h
  exact h

/-- **A linear form of a sum** counts the vectors on which it holds. -/
theorem IsLinear.xorSum {φ : BitVec w → Bool} (hφ : IsLinear φ) (l : List (BitVec w)) :
    φ (xorSum l) = true ↔ Odd (l.countP φ) := by
  induction l with
  | nil => simp [hφ.zero]
  | cons x l ih =>
    rw [xorSum_cons, hφ, List.countP_cons]
    cases hx : φ x with
    | false => simpa using ih
    | true => simpa [Nat.odd_add_one, Nat.not_odd_iff_even] using not_congr ih

/-- The bits of a sum that is 0. -/
theorem xorSum_eq_zero_iff (l : List (BitVec w)) :
    xorSum l = 0#w ↔ ∀ i, Even (l.countP fun x => x.getLsbD i) := by
  constructor
  · intro h i
    rw [← Nat.not_odd_iff_even, ← (isLinear_getLsbD i).xorSum, h]
    simp
  · intro h
    refine BitVec.eq_of_getLsbD_eq fun i _ => ?_
    have hi := mt ((isLinear_getLsbD i).xorSum l).mp (Nat.not_odd_iff_even.mpr (h i))
    simpa using hi

variable {α : Type*} [DecidableEq α]

/-- If every letter comes an even number of times, so does every kind of letters. -/
theorem even_countP_of_even_count {l : List α} (h : ∀ a, Even (l.count a)) (p : α → Bool) :
    Even (l.countP p) := by
  have hsum : ∀ l : List α, l.countP p = (l.map fun a => if p a then 1 else 0).sum := by
    intro l
    induction l with
    | nil => rfl
    | cons a l ih => rw [List.countP_cons, ih, List.map_cons, List.sum_cons, Nat.add_comm]
  rw [hsum, Finset.sum_list_map_count]
  exact Finset.even_sum _ fun a _ => (h a).mul_right _

theorem xorSum_map_eq_zero_of_even (f : α → BitVec w) {l : List α} (h : ∀ a, Even (l.count a)) :
    xorSum (l.map f) = 0#w := by
  rw [xorSum_eq_zero_iff]
  intro i
  rw [List.countP_map]
  exact even_countP_of_even_count h _

/-- **A letter that a linear form tells from all others** comes an even number of times in a word
whose sum is 0. -/
theorem even_count_of_dual {f : α → BitVec w} {φ : BitVec w → Bool} (hφ : IsLinear φ) {a : α}
    {l : List α} (hdual : ∀ b ∈ l, φ (f b) = decide (b = a)) (h : xorSum (l.map f) = 0#w) :
    Even (l.count a) := by
  have hcount : l.count a = (l.map f).countP φ := by
    rw [List.countP_map, List.count_eq_countP]
    refine List.countP_congr fun b hb => ?_
    rw [Function.comp_apply, hdual b hb, decide_eq_true_eq, beq_iff_eq]
  rw [hcount, ← Nat.not_odd_iff_even, ← hφ.xorSum, h, hφ.zero]
  exact Bool.false_ne_true

end XorSums
end Elbencho
