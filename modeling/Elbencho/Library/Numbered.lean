import Mathlib.Algebra.BigOperators.Group.List.Basic
import Mathlib.Algebra.GroupWithZero.Nat
import Mathlib.Algebra.Order.Monoid.Unbundled.Basic

/-!
# Numbered entries

The entries of a list take consecutive numbers: an entry `e` takes `w e` of them, and the
first entry begins at some number.  `countFrom` counts the entries with a property that may
depend on the number where they begin.

Ranks that divide the entries among them each count their own ones.  If every entry counts
for one rank, then all ranks together count the entries of the list: `sum_countFrom`.
-/

namespace Elbencho
namespace Numbered

variable {α : Type*} {w : α → ℕ}

/-- The number of entries with some property, if the first entry begins at `c`. -/
def countFrom (w : α → ℕ) (q : ℕ → α → Bool) : ℕ → List α → ℕ
  | _, [] => 0
  | c, e :: l => (q c e).toNat + countFrom w q (c + w e) l

theorem countFrom_nil (w : α → ℕ) (q : ℕ → α → Bool) (c : ℕ) : countFrom w q c [] = 0 := rfl

theorem countFrom_cons (w : α → ℕ) (q : ℕ → α → Bool) (c : ℕ) (e : α) (l : List α) :
    countFrom w q c (e :: l) = (q c e).toNat + countFrom w q (c + w e) l := rfl

/-- No entry has the property. -/
theorem countFrom_eq_zero {q : ℕ → α → Bool} {c : ℕ} {l : List α}
    (h : ∀ e ∈ l, ∀ n, c ≤ n → q n e = false) : countFrom w q c l = 0 := by
  induction l generalizing c with
  | nil => rfl
  | cons e l ih =>
    rw [countFrom_cons, h e List.mem_cons_self c (Nat.le_refl c), Bool.toNat_false, Nat.zero_add]
    exact ih fun e he n hn => h e (List.mem_cons_of_mem _ he) n (by omega)

/-- Entries of width 1 that do not have the property are skipped. -/
theorem countFrom_drop {q : ℕ → α → Bool} (k : ℕ) {c : ℕ} {l : List α}
    (h : ∀ e ∈ l, ∀ n, c ≤ n → n < c + k → q n e = false) :
    countFrom (fun _ => 1) q c l = countFrom (fun _ => 1) q (c + k) (l.drop k) := by
  induction k generalizing c l with
  | zero => rfl
  | succ k ih =>
    cases l with
    | nil => rfl
    | cons e l =>
      rw [countFrom_cons, h e List.mem_cons_self c (Nat.le_refl c) (by omega), Bool.toNat_false,
        Nat.zero_add, List.drop_succ_cons, Nat.add_comm k 1, ← Nat.add_assoc]
      exact ih fun e he n hn hlt => h e (List.mem_cons_of_mem _ he) n (by omega) (by omega)

/-- The sum of two counts of every rank. -/
theorem sum_map_range_add (f g : ℕ → ℕ) (T : ℕ) :
    ((List.range T).map fun r => f r + g r).sum =
      ((List.range T).map f).sum + ((List.range T).map g).sum :=
  List.sum_map_add

/-- **All ranks together**: if every entry counts for one rank exactly if it has the
property `m`, wherever it begins, the ranks together count the entries with this property. -/
theorem sum_countFrom {q : ℕ → ℕ → α → Bool} {m : α → Bool} {T c : ℕ} {l : List α}
    (h : ∀ e ∈ l, ∀ n, c ≤ n → n + w e ≤ c + (l.map w).sum →
      ((List.range T).map fun r => (q r n e).toNat).sum = (m e).toNat) :
    ((List.range T).map fun r => countFrom w (q r) c l).sum = l.countP m := by
  induction l generalizing c with
  | nil =>
    refine List.sum_eq_zero fun n hn => ?_
    obtain ⟨r, -, rfl⟩ := List.mem_map.mp hn
    rfl
  | cons e l ih =>
    rw [List.map_cons, List.sum_cons] at h
    have hhead := h e List.mem_cons_self c (Nat.le_refl c) (by omega)
    have htail := ih (c := c + w e) fun e' he' n hn hle =>
      h e' (List.mem_cons_of_mem _ he') n (by omega) (by omega)
    simp only [countFrom_cons]
    rw [sum_map_range_add, hhead, htail, List.countP_cons, Nat.add_comm]
    cases m e <;> rfl

end Numbered
end Elbencho
