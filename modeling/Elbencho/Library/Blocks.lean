import Mathlib.Algebra.BigOperators.Group.List.Basic
import Mathlib.Algebra.GroupWithZero.Nat
import Mathlib.Algebra.Order.Monoid.Unbundled.Basic
import Mathlib.Order.Monotone.Basic

/-!
# Blocks and their division among ranks

`numBlocks n b` is the number of blocks of size `b` that `n` bytes take, the last of
which may be a short one; `lt_numBlocks_iff` is all that a proof needs to know of it.

`border total T r` is where the part of rank `r` begins if `total` blocks are divided
among `T` ranks such that each gets `total / T` of them and the last one takes the rest.
Parts that are cut at ascending borders contain every block once: `sum_between`.
-/

namespace Elbencho
namespace Blocks

/-! ## The blocks of a range -/

/-- The number of blocks of `n` bytes, with a short last one. -/
def numBlocks (n b : ℕ) : ℕ := n / b + if n % b ≠ 0 then 1 else 0

/-- **A block number is in the range** if the block begins in it. -/
theorem lt_numBlocks_iff {n b : ℕ} (hb : 0 < b) {c : ℕ} : c < numBlocks n b ↔ c * b < n := by
  have hdiv := Nat.div_add_mod n b
  have hmod := Nat.mod_lt n hb
  rw [Nat.mul_comm] at hdiv
  unfold numBlocks
  constructor
  · intro h
    split_ifs at h with hrem
    · have := Nat.mul_le_mul_right b (show c ≤ n / b by omega)
      omega
    · have := Nat.mul_le_mul_right b (show c + 1 ≤ n / b by omega)
      rw [Nat.add_one_mul] at this
      omega
  · intro h
    by_contra hge
    split_ifs at hge with hrem
    · have := Nat.mul_le_mul_right b (show n / b + 1 ≤ c by omega)
      rw [Nat.add_one_mul] at this
      omega
    · have := Nat.mul_le_mul_right b (show n / b ≤ c by omega)
      omega

theorem numBlocks_le_iff {n b : ℕ} (hb : 0 < b) {c : ℕ} : numBlocks n b ≤ c ↔ n ≤ c * b := by
  rw [← not_lt, lt_numBlocks_iff hb, not_lt]

theorem le_numBlocks {n b : ℕ} (hb : 0 < b) {c : ℕ} (h : c * b ≤ n) : c ≤ numBlocks n b := by
  cases c with
  | zero => exact Nat.zero_le _
  | succ c =>
    have hsucc := Nat.add_one_mul c b
    exact (lt_numBlocks_iff hb).mpr (by omega)

theorem numBlocks_pos {n b : ℕ} (hb : 0 < b) (hn : 0 < n) : 0 < numBlocks n b :=
  (lt_numBlocks_iff hb).mpr (by rwa [Nat.zero_mul])

theorem numBlocks_le {n b : ℕ} (hb : 0 < b) : numBlocks n b ≤ n :=
  (numBlocks_le_iff hb).mpr (Nat.le_mul_of_pos_right n hb)

theorem numBlocks_zero (b : ℕ) : numBlocks 0 b = 0 := by
  rw [numBlocks, Nat.zero_div, Nat.zero_mod, if_neg (not_not.mpr rfl)]

/-- Whole blocks. -/
theorem numBlocks_mul {b : ℕ} (hb : 0 < b) (c : ℕ) : numBlocks (c * b) b = c := by
  rw [numBlocks, Nat.mul_div_cancel c hb, Nat.mul_mod_left, if_neg (not_not.mpr rfl), Nat.add_zero]

/-- The first block and the blocks of the rest. -/
theorem numBlocks_eq_succ {n b : ℕ} (hb : 0 < b) (hn : 0 < n) :
    numBlocks n b = numBlocks (n - min n b) b + 1 := by
  refine eq_of_forall_lt_iff fun c => ?_
  cases c with
  | zero => exact iff_of_true (numBlocks_pos hb hn) (Nat.succ_pos _)
  | succ c =>
    have hsucc := Nat.add_one_mul c b
    rw [lt_numBlocks_iff hb, Nat.add_lt_add_iff_right, lt_numBlocks_iff hb]
    omega

/-- The rest of a range from one of its blocks on, cut off after `k` blocks. -/
theorem numBlocks_min_sub {n b m k : ℕ} (hb : 0 < b) :
    numBlocks (min (k * b) (n - m * b)) b = min k (numBlocks n b - m) := by
  refine eq_of_forall_lt_iff fun c => ?_
  have hshift := Nat.add_mul c m b
  have hk : c * b < k * b ↔ c < k := Nat.mul_lt_mul_right hb
  have hn : c * b < n - m * b ↔ c < numBlocks n b - m := by
    have := lt_numBlocks_iff (n := n) hb (c := c + m)
    omega
  rw [lt_numBlocks_iff hb, lt_min_iff, lt_min_iff, hk, hn]

/-- The block of a byte, counted from a block before. -/
theorem div_lt_add_iff {b : ℕ} (hb : 0 < b) {x m k : ℕ} : x / b < m + k ↔ x < m * b + k * b := by
  rw [Nat.div_lt_iff_lt_mul hb, Nat.add_mul]

/-! ## The parts of the ranks -/

/-- Where the part of a rank begins. -/
def border (total T r : ℕ) : ℕ := if r < T then r * (total / T) else total

theorem border_zero {T : ℕ} (hT : 0 < T) (total : ℕ) : border total T 0 = 0 := by
  rw [border, if_pos hT, Nat.zero_mul]

theorem border_last (total T : ℕ) : border total T T = total := if_neg (lt_irrefl T)

theorem border_le (total T r : ℕ) : border total T r ≤ total := by
  unfold border
  split_ifs with h
  · exact (Nat.mul_le_mul_right _ (Nat.le_of_lt h)).trans (Nat.mul_div_le total T)
  · exact le_rfl

theorem border_mono (total T r : ℕ) : border total T r ≤ border total T (r + 1) := by
  by_cases h : r + 1 < T
  · rw [border, border, if_pos h, if_pos (by omega)]
    exact Nat.mul_le_mul_right _ (Nat.le_succ r)
  · rw [border.eq_def total T (r + 1), if_neg h]
    exact border_le total T r

/-- The number of blocks of a rank. -/
def share (total T r : ℕ) : ℕ :=
  if r = T - 1 ∧ total % T ≠ 0 then total - total / T * (T - 1) else total / T

theorem div_mul_pred_le (total T : ℕ) : total / T * (T - 1) ≤ total :=
  (Nat.mul_le_mul_left _ (Nat.sub_le T 1)).trans (Nat.div_mul_le_self total T)

/-- The part of a rank ends where that of the next one begins. -/
theorem border_add_share {T r : ℕ} (hr : r < T) (total : ℕ) :
    border total T r + share total T r = border total T (r + 1) := by
  have hdiv := Nat.div_add_mod total T
  have hsucc := Nat.add_one_mul r (total / T)
  have hle := div_mul_pred_le total T
  unfold border share
  rw [if_pos hr]
  generalize total / T = q at hdiv hsucc hle ⊢
  by_cases hlast : r + 1 < T
  · rw [if_neg (by omega), if_pos hlast, hsucc]
  · obtain rfl : T = r + 1 := by omega
    have hcomm := Nat.mul_comm q r
    rw [if_neg hlast, Nat.add_sub_cancel]
    rw [Nat.add_sub_cancel] at hle
    split_ifs with hrem
    · omega
    · have hzero : total % (r + 1) = 0 := by
        by_contra h
        exact hrem ⟨rfl, h⟩
      omega

/-- **Every number lies in one part** of those that are cut at ascending borders. -/
theorem sum_between {f : ℕ → ℕ} (hf : ∀ r, f r ≤ f (r + 1)) (g T : ℕ) :
    ((List.range T).map fun r => if f r ≤ g ∧ g < f (r + 1) then 1 else 0).sum =
      if f 0 ≤ g ∧ g < f T then 1 else 0 := by
  induction T with
  | zero => rw [if_neg (by omega)]; rfl
  | succ T ih =>
    have hmono := monotone_nat_of_le_succ hf (Nat.zero_le T)
    have hlast := hf T
    rw [List.range_succ, List.map_append, List.sum_append, ih, List.map_singleton,
      List.sum_singleton]
    split_ifs <;> omega

/-! ## Rounds -/

/-- A number is in the sequence `r`, `r + T`, `r + 2 T`, … if it has the remainder `r`, and
its quotient says at which place. -/
theorem add_mul_eq_iff {T r : ℕ} (hr : r < T) {j g : ℕ} :
    r + j * T = g ↔ r = g % T ∧ g / T = j := by
  have hunique := Nat.div_mod_unique (a := g) (b := T) (c := r) (d := j) (Nat.zero_lt_of_lt hr)
  rw [Nat.mul_comm]
  constructor
  · intro h
    obtain ⟨hdiv, hmod⟩ := hunique.mpr ⟨h, hr⟩
    exact ⟨hmod.symm, hdiv⟩
  · rintro ⟨hmod, hdiv⟩
    exact (hunique.mp ⟨hdiv, hmod.symm⟩).1

theorem countP_range_round {T r : ℕ} (hr : r < T) (g q : ℕ) :
    (List.range q).countP (fun j => r + j * T = g) = if r = g % T ∧ g / T < q then 1 else 0 := by
  induction q with
  | zero => rw [if_neg fun h => absurd h.2 (Nat.not_lt_zero _)]; rfl
  | succ q ih =>
    rw [List.range_succ, List.countP_append, ih, List.countP_singleton]
    simp only [decide_eq_true_eq, add_mul_eq_iff hr]
    split_ifs <;> omega

/-- **Every number below `q` rounds is taken once**, by the rank of its remainder. -/
theorem sum_countP_range_round {T : ℕ} (hT : 0 < T) (g q : ℕ) :
    ((List.range T).map fun r => (List.range q).countP (fun j => r + j * T = g)).sum =
      if g / T < q then 1 else 0 := by
  have hmod := Nat.mod_lt g hT
  have hsum := sum_between (f := id) (fun r => Nat.le_succ r) (g % T) T
  by_cases hq : g / T < q
  · rw [if_pos hq]
    refine Eq.trans (congrArg List.sum (List.map_congr_left fun r hr => ?_))
      (hsum.trans (if_pos ⟨Nat.zero_le _, hmod⟩))
    rw [countP_range_round (List.mem_range.mp hr)]
    simp only [id]
    split_ifs <;> omega
  · rw [if_neg hq]
    refine List.sum_eq_zero fun n hn => ?_
    obtain ⟨r, hr, rfl⟩ := List.mem_map.mp hn
    rw [countP_range_round (List.mem_range.mp hr), if_neg fun h => hq h.2]

end Blocks
end Elbencho
