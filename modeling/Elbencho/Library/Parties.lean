import Mathlib.Algebra.BigOperators.Fin
import Mathlib.Algebra.Order.BigOperators.Group.Finset
import Mathlib.Data.Fintype.BigOperators

/-!
# Sums over the parties of a system

A system of several parties keeps one local state for each of them, `f : ι → σ`, and a step
changes the local state of one party.  What all parties have together is a sum
`∑ i, g i (f i)`; these lemmas say how a step changes it.
-/

namespace Elbencho
namespace Parties

variable {ι σ M : Type*} [DecidableEq ι]

/-- A function of the changed local state changes at the party that moved. -/
theorem apply_update_eq (g : ι → σ → M) (f : ι → σ) (i : ι) (x : σ) :
    (fun j => g j (Function.update f i x j)) =
      Function.update (fun j => g j (f j)) i (g i x) := by
  ext j
  by_cases hj : j = i
  · subst hj
    rw [Function.update_self, Function.update_self]
  · rw [Function.update_of_ne hj, Function.update_of_ne hj]

variable [Fintype ι]

/-- **One party moves.**  Its old share and the new sum are the old sum and its new share. -/
theorem sum_update_add [AddCommMonoid M] (g : ι → σ → M) (f : ι → σ) (i : ι) (x : σ) :
    (∑ j, g j (Function.update f i x j)) + g i (f i) = (∑ j, g j (f j)) + g i x := by
  have hnew : ∑ j, g j (Function.update f i x j) = g i x + ∑ j ∈ Finset.univ \ {i}, g j (f j) := by
    rw [apply_update_eq, Finset.sum_update_of_mem (Finset.mem_univ i)]
  have hold : ∑ j, g j (f j) = g i (f i) + ∑ j ∈ Finset.univ \ {i}, g j (f j) :=
    Finset.sum_eq_add_sum_sdiff_singleton_of_mem (Finset.mem_univ i) _
  rw [hnew, hold, add_assoc, add_comm (g i x), add_comm (g i (f i))]

omit [DecidableEq ι] in
/-- No party has more than all of them. -/
theorem le_sum (g : σ → ℕ) (f : ι → σ) (i : ι) : g (f i) ≤ ∑ j, g (f j) :=
  Finset.single_le_sum (f := fun j => g (f j)) (fun _ _ => Nat.zero_le _) (Finset.mem_univ i)

end Parties
end Elbencho
