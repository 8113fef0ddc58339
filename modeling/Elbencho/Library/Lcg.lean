import Mathlib.Data.Nat.ModEq
import Mathlib.Data.Nat.Size
import Mathlib.Data.List.Perm.Subperm
import Mathlib.Data.List.Range
import Mathlib.Logic.Function.Iterate
import Mathlib.Tactic.Ring

/-!
# Linear congruential generators with a power of two as modulus

The map `x ↦ a * x + c` modulo `2 ^ k` runs through all residues, from any of them, as
soon as `a` is 1 modulo 4 and `c` is odd (`exists_iterate_step_eq`).  The reason is that
`2 ^ k` steps are again an affine map, and one that adds `2 ^ k` to its argument modulo
`2 ^ (k + 1)`: of the two residues modulo `2 ^ (k + 1)` over one residue modulo `2 ^ k`,
the sequence reaches the second one `2 ^ k` steps after the first.

Consequently the search for the next value below some positive bound ends within one
period: `walk` is that search with the period as fuel, and `walk_lt` says that it has
found something.  Searches one after the other find the states below the bound in the order of
their states; so as many of them as the bound says find each number below it once (`walks_perm`).

The modulus for a given number of values is the next power of two, computed by filling
all bits below the highest one of its predecessor (`fillBits_eq`).
-/

namespace Elbencho
namespace Lcg

/-! ## The period -/

variable {a c : ℕ}

/-- Twice as many steps, for an affine map that is known for `n` steps. -/
theorem iterate_add_self {f : ℕ → ℕ} {n mul inc : ℕ} (h : ∀ x, f^[n] x = mul * x + inc) (x : ℕ) :
    f^[n + n] x = mul * mul * x + (mul + 1) * inc := by
  rw [Function.iterate_add_apply, h, h]
  ring

/-- **`2 ^ k` steps.**  They are an affine map whose factor is 1 modulo `2 ^ (k + 2)` and
whose summand is an odd multiple of `2 ^ k`. -/
theorem iterate_two_pow (ha : a % 4 = 1) (hc : c % 2 = 1) (k : ℕ) :
    ∃ t u, ∀ x, (fun y => a * y + c)^[2 ^ k] x =
      (1 + 2 ^ (k + 2) * t) * x + 2 ^ k * (2 * u + 1) := by
  induction k with
  | zero =>
    refine ⟨a / 4, c / 2, fun x => ?_⟩
    rw [pow_zero, Function.iterate_one, Nat.zero_add, Nat.one_mul]
    rw [show 1 + 2 ^ 2 * (a / 4) = a by omega, show 2 * (c / 2) + 1 = c by omega]
  | succ k ih =>
    obtain ⟨t, u, h⟩ := ih
    -- the square of the factor, and the odd factor of the sum
    refine ⟨t + 2 ^ (k + 1) * t * t, (1 + 2 ^ (k + 1) * t) * u + 2 ^ k * t, fun x => ?_⟩
    rw [pow_succ, Nat.mul_two, iterate_add_self h]
    ring

/-- `2 ^ k` steps add `2 ^ k` modulo `2 ^ (k + 1)`. -/
theorem iterate_two_pow_modEq (ha : a % 4 = 1) (hc : c % 2 = 1) (k x : ℕ) :
    (fun y => a * y + c)^[2 ^ k] x ≡ x + 2 ^ k [MOD 2 ^ (k + 1)] := by
  obtain ⟨t, u, h⟩ := iterate_two_pow ha hc k
  have hsum : (1 + 2 ^ (k + 2) * t) * x + 2 ^ k * (2 * u + 1) =
      (x + 2 ^ k) + 2 ^ (k + 1) * (2 * t * x + u) := by ring
  rw [h, hsum]
  exact Nat.add_modulus_mul_modEq_iff.mpr rfl

/-- Two residues modulo `p * 2` lie over each residue modulo `p`. -/
theorem modEq_or_add_modEq {p z y : ℕ} (hp : 0 < p) (h : z ≡ y [MOD p]) :
    z ≡ y [MOD p * 2] ∨ z + p ≡ y [MOD p * 2] := by
  unfold Nat.ModEq at h ⊢
  rw [Nat.mod_mul, Nat.mod_mul, Nat.mod_mul, h, Nat.add_mod_right, h, Nat.add_div_right _ hp]
  have hz := Nat.mod_two_eq_zero_or_one (z / p)
  have hy := Nat.mod_two_eq_zero_or_one (y / p)
  have hsucc : (z / p).succ % 2 = (z / p % 2 + 1) % 2 := by omega
  rw [hsucc]
  rcases hz with hz | hz <;> rcases hy with hy | hy <;> simp [hz, hy]

/-- **Full period.**  Every residue is reached from everywhere, in less steps than there
are residues. -/
theorem exists_iterate_modEq (ha : a % 4 = 1) (hc : c % 2 = 1) (k x y : ℕ) :
    ∃ n < 2 ^ k, (fun y => a * y + c)^[n] x ≡ y [MOD 2 ^ k] := by
  induction k with
  | zero => exact ⟨0, Nat.one_pos, Nat.modEq_one⟩
  | succ k ih =>
    obtain ⟨n, hn, hmod⟩ := ih
    have hsucc : 2 ^ (k + 1) = 2 ^ k * 2 := pow_succ 2 k
    rcases modEq_or_add_modEq (Nat.two_pow_pos k) hmod with h | h
    · exact ⟨n, by omega, hsucc ▸ h⟩
    · refine ⟨2 ^ k + n, by omega, ?_⟩
      rw [Function.iterate_add_apply]
      exact (iterate_two_pow_modEq ha hc k _).trans (hsucc ▸ h)

/-- One step of the generator. -/
def step (a c m x : ℕ) : ℕ := (a * x + c) % m

/-- Reducing the state at each step does not change its residue. -/
theorem iterate_step_modEq (a c m n x : ℕ) :
    (step a c m)^[n] x ≡ (fun y => a * y + c)^[n] x [MOD m] := by
  induction n with
  | zero => rfl
  | succ n ih =>
    rw [Function.iterate_succ_apply', Function.iterate_succ_apply']
    exact (Nat.mod_modEq _ _).trans ((ih.mul_left a).add_right c)

/-- **Every state is reached from every state.** -/
theorem exists_iterate_step_eq (ha : a % 4 = 1) (hc : c % 2 = 1) {k x y : ℕ} (hx : x < 2 ^ k)
    (hy : y < 2 ^ k) : ∃ n < 2 ^ k, (step a c (2 ^ k))^[n] x = y := by
  obtain ⟨n, hn, hmod⟩ := exists_iterate_modEq ha hc k x y
  refine ⟨n, hn, ?_⟩
  have hlt : (step a c (2 ^ k))^[n] x < 2 ^ k := by
    cases n with
    | zero => exact hx
    | succ n =>
      rw [Function.iterate_succ_apply']
      exact Nat.mod_lt _ (Nat.two_pow_pos k)
  exact ((iterate_step_modEq a c (2 ^ k) n x).trans hmod).eq_of_lt_of_lt hlt hy

/-- Every state has a predecessor. -/
theorem exists_step_eq (ha : a % 4 = 1) (hc : c % 2 = 1) {k y : ℕ} (hy : y < 2 ^ k) :
    ∃ x < 2 ^ k, step a c (2 ^ k) x = y := by
  have hstep : ∀ x, step a c (2 ^ k) x < 2 ^ k := fun x => Nat.mod_lt _ (Nat.two_pow_pos k)
  obtain ⟨n, -, hn⟩ := exists_iterate_step_eq ha hc (hstep y) hy
  cases n with
  | zero => exact ⟨y, hy, hn⟩
  | succ n =>
    rw [Function.iterate_succ_apply'] at hn
    refine ⟨(step a c (2 ^ k))^[n] (step a c (2 ^ k) y), ?_, hn⟩
    cases n with
    | zero => exact hstep y
    | succ n =>
      rw [Function.iterate_succ_apply']
      exact hstep _

/-! ## Cycle walking -/

/-- The next state below `bound` of an iteration, searched for `fuel` steps. -/
def walk (f : ℕ → ℕ) (bound : ℕ) : ℕ → ℕ → ℕ
  | 0, x => x
  | fuel + 1, x => if f x < bound then f x else walk f bound fuel (f x)

/-- **The search is the loop**: it takes the first state below the bound, if there is one within
reach. -/
theorem exists_walk_eq {f : ℕ → ℕ} {bound n : ℕ} : ∀ {fuel x : ℕ}, n < fuel →
    f^[n] (f x) < bound → ∃ j ≤ n, walk f bound fuel x = f^[j] (f x) ∧ f^[j] (f x) < bound ∧
      ∀ i < j, bound ≤ f^[i] (f x) := by
  induction n with
  | zero =>
    intro fuel x hfuel h
    obtain ⟨fuel, rfl⟩ := Nat.exists_eq_add_one_of_ne_zero (Nat.ne_of_gt hfuel)
    exact ⟨0, le_refl 0, if_pos h, h, fun i hi => absurd hi (Nat.not_lt_zero i)⟩
  | succ n ih =>
    intro fuel x hfuel h
    obtain ⟨fuel, rfl⟩ := Nat.exists_eq_add_one_of_ne_zero (Nat.ne_of_gt (Nat.zero_lt_of_lt hfuel))
    by_cases hstep : f x < bound
    · exact ⟨0, Nat.zero_le _, if_pos hstep, hstep, fun i hi => absurd hi (Nat.not_lt_zero i)⟩
    · obtain ⟨j, hj, hwalk, hlt, hskip⟩ := ih (Nat.lt_of_succ_lt_succ hfuel) h
      refine ⟨j + 1, by omega, (if_neg hstep).trans hwalk, hlt, fun i hi => ?_⟩
      cases i with
      | zero => exact not_lt.mp hstep
      | succ i => exact hskip i (by omega)

/-- **The search ends within one period**, with the first state below the bound. -/
theorem exists_walk_step_eq (ha : a % 4 = 1) (hc : c % 2 = 1) {k bound : ℕ} (hbound : 0 < bound)
    (x : ℕ) :
    ∃ j, walk (step a c (2 ^ k)) bound (2 ^ k) x = (step a c (2 ^ k))^[j + 1] x ∧
      (step a c (2 ^ k))^[j + 1] x < bound ∧
      ∀ i < j, bound ≤ (step a c (2 ^ k))^[i + 1] x := by
  have hx : step a c (2 ^ k) x < 2 ^ k := Nat.mod_lt _ (Nat.two_pow_pos k)
  obtain ⟨n, hn, hzero⟩ := exists_iterate_step_eq ha hc hx (Nat.two_pow_pos k)
  obtain ⟨j, -, hwalk⟩ := exists_walk_eq hn (by rw [hzero]; exact hbound)
  exact ⟨j, hwalk⟩

theorem walk_lt (ha : a % 4 = 1) (hc : c % 2 = 1) {k bound x : ℕ} (hbound : 0 < bound) :
    walk (step a c (2 ^ k)) bound (2 ^ k) x < bound := by
  obtain ⟨j, hwalk, hlt, -⟩ := exists_walk_step_eq ha hc (k := k) hbound x
  rw [hwalk]
  exact hlt

/-! ## A full cycle -/

section Cycle

variable {f : ℕ → ℕ} {bound fuel : ℕ}

/-- The states after one step, two steps and so on. -/
def orbit (f : ℕ → ℕ) : ℕ → ℕ → List ℕ
  | 0, _ => []
  | n + 1, x => f x :: orbit f n (f x)

/-- The results of searches one after the other. -/
def walks (f : ℕ → ℕ) (bound fuel : ℕ) : ℕ → ℕ → List ℕ
  | 0, _ => []
  | n + 1, x => walk f bound fuel x :: walks f bound fuel n (walk f bound fuel x)

theorem length_orbit (n x : ℕ) : (orbit f n x).length = n := by
  induction n generalizing x with
  | zero => rfl
  | succ n ih => exact congrArg (· + 1) (ih (f x))

theorem iterate_mem_orbit {i n : ℕ} (hi : i < n) (x : ℕ) : f^[i] (f x) ∈ orbit f n x := by
  induction n generalizing i x with
  | zero => exact absurd hi (Nat.not_lt_zero i)
  | succ n ih =>
    cases i with
    | zero => exact List.mem_cons_self
    | succ i => exact List.mem_cons_of_mem _ (ih (by omega) (f x))

/-- A search, and the searches after it, find the states below the bound one after the other. -/
theorem cons_walks_eq_take {n fuel' count x : ℕ} (hfuel' : n ≤ fuel') (hfuel : n ≤ fuel)
    (hcount : count < ((orbit f n x).filter (· < bound)).length) :
    walk f bound fuel' x :: walks f bound fuel count (walk f bound fuel' x) =
      ((orbit f n x).filter (· < bound)).take (count + 1) := by
  induction n generalizing fuel' count x with
  | zero => exact absurd hcount (Nat.not_lt_zero count)
  | succ n ih =>
    obtain ⟨fuel', rfl⟩ :=
      Nat.exists_eq_add_one_of_ne_zero (Nat.ne_of_gt (Nat.zero_lt_of_lt hfuel'))
    rw [orbit] at hcount ⊢
    by_cases hstep : f x < bound
    · have hkeep : (f x :: orbit f n (f x)).filter (· < bound) =
          f x :: (orbit f n (f x)).filter (· < bound) := by simp [hstep]
      rw [hkeep] at hcount ⊢
      rw [walk, if_pos hstep, List.take_succ_cons]
      refine congrArg (f x :: ·) ?_
      cases count with
      | zero => rfl
      | succ count => exact ih (by omega) (by omega) (Nat.lt_of_succ_lt_succ hcount)
    · have hskip : (f x :: orbit f n (f x)).filter (· < bound) =
          (orbit f n (f x)).filter (· < bound) := by simp [hstep]
      rw [hskip] at hcount ⊢
      rw [walk, if_neg hstep]
      exact ih (by omega) (by omega) hcount

/-- **As many searches as there are states below the bound** find all of them. -/
theorem walks_eq_filter {n x : ℕ} (hfuel : n ≤ fuel) :
    walks f bound fuel ((orbit f n x).filter (· < bound)).length x =
      (orbit f n x).filter (· < bound) := by
  cases hlength : ((orbit f n x).filter (· < bound)).length with
  | zero => exact (List.length_eq_zero_iff.mp hlength).symm
  | succ count =>
    have htake : walks f bound fuel (count + 1) x =
        ((orbit f n x).filter (· < bound)).take (count + 1) :=
      cons_walks_eq_take hfuel hfuel (by omega)
    rw [← hlength, List.take_length] at htake
    rw [← hlength]
    exact htake

/-- The orbit over a period has all states. -/
theorem orbit_step_perm (ha : a % 4 = 1) (hc : c % 2 = 1) (k x : ℕ) :
    (orbit (step a c (2 ^ k)) (2 ^ k) x).Perm (List.range (2 ^ k)) := by
  have hx : step a c (2 ^ k) x < 2 ^ k := Nat.mod_lt _ (Nat.two_pow_pos k)
  have hsub : List.range (2 ^ k) ⊆ orbit (step a c (2 ^ k)) (2 ^ k) x := by
    intro y hy
    obtain ⟨n, hn, heq⟩ := exists_iterate_step_eq ha hc hx (List.mem_range.mp hy)
    rw [← heq]
    exact iterate_mem_orbit hn x
  refine ((List.nodup_range.subperm hsub).perm_of_length_le ?_).symm
  rw [length_orbit, List.length_range]

/-- **One cycle of searches** finds every number below the bound once. -/
theorem walks_perm (ha : a % 4 = 1) (hc : c % 2 = 1) {k : ℕ} (hbound : bound ≤ 2 ^ k) (x : ℕ) :
    (walks (step a c (2 ^ k)) bound (2 ^ k) bound x).Perm (List.range bound) := by
  have hfilter : (List.range (2 ^ k)).filter (· < bound) = List.range bound := by
    obtain ⟨d, hd⟩ := Nat.exists_eq_add_of_le hbound
    rw [hd, List.range_add, List.filter_append]
    have hlow : (List.range bound).filter (· < bound) = List.range bound :=
      List.filter_eq_self.mpr fun i hi => decide_eq_true (List.mem_range.mp hi)
    have hhigh : ((List.range d).map (bound + ·)).filter (· < bound) = [] := by
      refine List.filter_eq_nil_iff.mpr fun i hi => ?_
      obtain ⟨j, -, rfl⟩ := List.mem_map.mp hi
      simp
    rw [hlow, hhigh, List.append_nil]
  have hperm : ((orbit (step a c (2 ^ k)) (2 ^ k) x).filter (· < bound)).Perm
      (List.range bound) := by
    have h := (orbit_step_perm ha hc k x).filter (· < bound)
    rwa [hfilter] at h
  have hlength : ((orbit (step a c (2 ^ k)) (2 ^ k) x).filter (· < bound)).length = bound := by
    rw [hperm.length_eq, List.length_range]
  have hwalks : walks (step a c (2 ^ k)) bound (2 ^ k)
      ((orbit (step a c (2 ^ k)) (2 ^ k) x).filter (· < bound)).length x =
        (orbit (step a c (2 ^ k)) (2 ^ k) x).filter (· < bound) := walks_eq_filter le_rfl
  rw [hlength] at hwalks
  rw [hwalks]
  exact hperm

end Cycle

/-! ## The next power of two -/

/-- `s` has the bits of `n` and of its shifts by less than `w`. -/
def Smeared (n w s : ℕ) : Prop := ∀ i, s.testBit i = true ↔ ∃ j < w, n.testBit (i + j) = true

theorem smeared_one (n : ℕ) : Smeared n 1 n := by
  intro i
  constructor
  · exact fun h => ⟨0, Nat.one_pos, h⟩
  · rintro ⟨j, hj, h⟩
    obtain rfl : j = 0 := by omega
    exact h

/-- Each step doubles the number of shifts. -/
theorem Smeared.double {n w s : ℕ} (h : Smeared n w s) : Smeared n (w + w) (s ||| s >>> w) := by
  intro i
  rw [Nat.testBit_or, Nat.testBit_shiftRight, Bool.or_eq_true, h i, h (w + i)]
  constructor
  · rintro (⟨j, hj, hbit⟩ | ⟨j, hj, hbit⟩)
    · exact ⟨j, by omega, hbit⟩
    · exact ⟨w + j, by omega, by rwa [show i + (w + j) = w + i + j by omega]⟩
  · rintro ⟨j, hj, hbit⟩
    rcases lt_or_ge j w with hlt | hge
    · exact Or.inl ⟨j, hlt, hbit⟩
    · exact Or.inr ⟨j - w, by omega, by rwa [show w + i + (j - w) = i + j by omega]⟩

/-- All bits below the highest one are set, for words of 64 bits. -/
def fillBits (n : ℕ) : ℕ :=
  let n := n ||| n >>> 1
  let n := n ||| n >>> 2
  let n := n ||| n >>> 4
  let n := n ||| n >>> 8
  let n := n ||| n >>> 16
  n ||| n >>> 32

theorem smeared_fillBits (n : ℕ) : Smeared n 64 (fillBits n) :=
  (smeared_one n).double.double.double.double.double.double

/-- **Filling the bits** gives the predecessor of a power of two. -/
theorem fillBits_eq {n : ℕ} (hn : n < 2 ^ 64) : fillBits n = 2 ^ n.size - 1 := by
  refine Nat.eq_of_testBit_eq fun i => Bool.eq_iff_iff.mpr ?_
  rw [smeared_fillBits n i, Nat.testBit_two_pow_sub_one, decide_eq_true_iff, Nat.lt_size]
  constructor
  · rintro ⟨j, -, hbit⟩
    by_contra hlt
    have hpow : 2 ^ i ≤ 2 ^ (i + j) := Nat.pow_le_pow_right Nat.two_pos (Nat.le_add_right i j)
    rw [Nat.testBit_lt_two_pow (by omega)] at hbit
    exact absurd hbit (by decide)
  · intro hle
    obtain ⟨k, hk, hbit⟩ := Nat.exists_ge_and_testBit_of_ge_two_pow hle
    have hlt : k < 64 := by
      by_contra hge
      have hpow : 2 ^ 64 ≤ 2 ^ k := Nat.pow_le_pow_right Nat.two_pos (not_lt.mp hge)
      rw [Nat.testBit_lt_two_pow (by omega)] at hbit
      exact absurd hbit (by decide)
    exact ⟨k - i, by omega, by rwa [Nat.add_sub_cancel' hk]⟩

end Lcg
end Elbencho
