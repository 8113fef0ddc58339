import Mathlib.Algebra.Group.Nat.Defs
import Mathlib.Data.Nat.Basic

/-!
# Unsigned 64-bit arithmetic on natural numbers

Sums, differences and products reduced modulo `2 ^ 64`, the way an unsigned
64-bit expression computes them.  The lemmas say when the reduction does nothing;
a proof that stays below `2 ^ 64` rewrites with them and continues in `ℕ`.
-/

namespace Elbencho
namespace Word64

/-- The number of values of a word. -/
def size : ℕ := 2 ^ 64

theorem size_pos : 0 < size := by decide

/-- `a + b` on unsigned 64-bit operands. -/
def add (a b : ℕ) : ℕ := (a + b) % size

/-- `a - b` on unsigned 64-bit operands. -/
def sub (a b : ℕ) : ℕ := (a + size - b) % size

/-- `a * b` on unsigned 64-bit operands. -/
def mul (a b : ℕ) : ℕ := a * b % size

theorem add_lt (a b : ℕ) : add a b < size := Nat.mod_lt _ size_pos

theorem sub_lt (a b : ℕ) : sub a b < size := Nat.mod_lt _ size_pos

theorem mul_lt (a b : ℕ) : mul a b < size := Nat.mod_lt _ size_pos

/-- A sum that fits is not reduced. -/
theorem add_eq {a b : ℕ} (h : a + b < size) : add a b = a + b := Nat.mod_eq_of_lt h

/-- A product that fits is not reduced. -/
theorem mul_eq {a b : ℕ} (h : a * b < size) : mul a b = a * b := Nat.mod_eq_of_lt h

/-- A difference of ordered words is the difference of the numbers. -/
theorem sub_eq {a b : ℕ} (h : b ≤ a) (ha : a < size) : sub a b = a - b := by
  rw [sub, Nat.add_comm, Nat.add_sub_assoc h, Nat.add_mod_left]
  exact Nat.mod_eq_of_lt (by omega)

/-- A word does not grow when a smaller one is subtracted. -/
theorem sub_le {a b c : ℕ} (h : b ≤ a) (hac : a ≤ c) (hc : c < size) : sub a b ≤ c := by
  rw [sub_eq h (lt_of_le_of_lt hac hc)]
  omega

/-- A sum that wraps around once. -/
theorem add_eq_sub {a b : ℕ} (h : size ≤ a + b) (ha : a < size) (hb : b < size) :
    add a b = a + b - size := by
  rw [add, Nat.mod_eq_sub_mod h]
  exact Nat.mod_eq_of_lt (by omega)

/-- A reduction keeps the divisors of the number of words, and all others if it does
nothing. -/
theorem dvd_mod {d x : ℕ} (hd : d ∣ x) (h : d ∣ size ∨ x < size) : d ∣ x % size := by
  rcases h with hsize | hlt
  · exact (Nat.dvd_mod_iff hsize).mpr hd
  · rwa [Nat.mod_eq_of_lt hlt]

/-! ## Small numbers are words -/

theorem one_lt_size : 1 < size := by decide

theorem two_lt_size : 2 < size := by decide

theorem four_lt_size : 4 < size := by decide

theorem five_lt_size : 5 < size := by decide

theorem eight_lt_size : 8 < size := by decide

theorem four_pos : 0 < 4 := by decide

/-- The number of bytes of a word. -/
theorem bytes_pos : 0 < 8 := by decide

/-- The size of a page. -/
theorem page_pos : 0 < 4096 := by decide

theorem page_lt_size : 4096 < size := by decide

theorem twoPages_lt_size : 8192 < size := by decide

/-- A block of 64 KiB. -/
theorem block_pos : 0 < 65536 := by decide

theorem block_lt_size : 65536 < size := by decide

theorem twoBlocks_lt_size : 131072 < size := by decide

theorem mebi_lt_size : 2 ^ 20 < size := by decide

end Word64
end Elbencho
