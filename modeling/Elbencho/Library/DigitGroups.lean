import Mathlib.Data.Nat.Digits.Lemmas

/-!
# Regrouping the bits of a list of digits

A list of digits of `w` bits each, most significant digit first, is a number below
`2 ^ (w * length)`.  The same bits can be read in groups of `v` bits.  A program that does this
from left to right keeps the bits that are not yet a whole group: it gets a digit, has `w` more
of these *pending* bits, and gives a group away as long as there are `v` of them.

`Regrouped w v input pending out` says that `out` are the groups of the bits of `input` up to
the last `pending` ones, in terms of the two numbers alone: the groups are the number of the
input without its last bits.  So none of the steps has to mention single bits:

* `Regrouped.feed` and `Regrouped.give` are the two steps,
* `Regrouped.fill` is the end of an encoder, which fills the last group with zeros,
* `Regrouped.eq_of_filled` is the way back: digits that were regrouped, filled and regrouped
  again are the digits.  The zeros are fewer than a digit, hence they are what is pending.
-/

namespace Elbencho.DigitGroups

variable {w v pending : ℕ} {input out : List ℕ}

/-- The number of a list of digits of `w` bits, most significant digit first. -/
def value (w : ℕ) (ds : List ℕ) : ℕ := Nat.ofDigits (2 ^ w) ds.reverse

@[simp] theorem value_nil : value w [] = 0 := rfl

@[simp] theorem value_append_singleton (ds : List ℕ) (d : ℕ) :
    value w (ds ++ [d]) = value w ds * 2 ^ w + d := by
  rw [value, List.reverse_append, List.reverse_singleton, List.singleton_append,
    Nat.ofDigits_cons, Nat.add_comm, Nat.mul_comm]
  rfl

/-- **A number of a given length has one list of digits.** -/
theorem eq_of_value_eq (hw : 0 < w) {ds es : List ℕ} (hlength : ds.length = es.length)
    (hds : ∀ d ∈ ds, d < 2 ^ w) (hes : ∀ e ∈ es, e < 2 ^ w) (h : value w ds = value w es) :
    ds = es := by
  refine List.reverse_injective (Nat.ofDigits_inj_of_len_eq (Nat.one_lt_two_pow hw.ne') ?_
    (fun d hd => hds d (List.mem_reverse.mp hd)) (fun e he => hes e (List.mem_reverse.mp he)) h)
  rw [List.length_reverse, List.length_reverse, hlength]

/-- The groups `out` of `v` bits are the bits of the digits `input` of `w` bits, without the
last ones, which are pending. -/
structure Regrouped (w v : ℕ) (input : List ℕ) (pending : ℕ) (out : List ℕ) : Prop where
  length_eq : w * input.length = v * out.length + pending
  value_eq : value v out = value w input / 2 ^ pending
  lt : ∀ g ∈ out, g < 2 ^ v

theorem Regrouped.nil : Regrouped w v [] 0 [] := by
  refine ⟨rfl, ?_, fun _ hg => absurd hg List.not_mem_nil⟩
  rw [value_nil, value_nil, Nat.zero_div]

/-- **A digit arrives.** -/
theorem Regrouped.feed (h : Regrouped w v input pending out) {d : ℕ} (hd : d < 2 ^ w) :
    Regrouped w v (input ++ [d]) (pending + w) out := by
  refine ⟨?_, ?_, h.lt⟩
  · rw [List.length_append, List.length_singleton, Nat.mul_add, h.length_eq, Nat.mul_one,
      Nat.add_assoc]
  · have hpow : 2 ^ (pending + w) = 2 ^ w * 2 ^ pending := by rw [Nat.pow_add, Nat.mul_comm]
    rw [h.value_eq, value_append_singleton, hpow, ← Nat.div_div_eq_div_mul,
      Nat.add_comm (value w input * 2 ^ w), Nat.add_mul_div_right _ _ (Nat.two_pow_pos w),
      Nat.div_eq_of_lt hd, Nat.zero_add]

/-- **A group leaves.**  It consists of the first pending bits. -/
theorem Regrouped.give (h : Regrouped w v input pending out) (hle : v ≤ pending) :
    Regrouped w v input (pending - v)
      (out ++ [value w input / 2 ^ (pending - v) % 2 ^ v]) := by
  have hpow : 2 ^ pending = 2 ^ (pending - v) * 2 ^ v := by
    rw [← Nat.pow_add, Nat.sub_add_cancel hle]
  refine ⟨?_, ?_, ?_⟩
  · rw [h.length_eq, List.length_append, List.length_singleton, Nat.mul_add, Nat.mul_one,
      Nat.add_assoc, Nat.add_sub_cancel' hle]
  · rw [value_append_singleton, h.value_eq, hpow, ← Nat.div_div_eq_div_mul, Nat.mul_comm]
    exact Nat.div_add_mod _ _
  · intro g hg
    rcases List.mem_append.mp hg with hg | hg
    · exact h.lt g hg
    · rw [List.mem_singleton.mp hg]
      exact Nat.mod_lt _ (Nat.two_pow_pos v)

/-- The groups are the digits, and some zero bits behind them. -/
structure Filled (w v : ℕ) (input : List ℕ) (zeros : ℕ) (out : List ℕ) : Prop where
  length_eq : v * out.length = w * input.length + zeros
  value_eq : value v out = value w input * 2 ^ zeros
  lt : ∀ g ∈ out, g < 2 ^ v

/-- **Nothing to fill.** -/
theorem Regrouped.filled (h : Regrouped w v input 0 out) : Filled w v input 0 out := by
  refine ⟨h.length_eq.symm, ?_, h.lt⟩
  rw [h.value_eq, Nat.pow_zero, Nat.div_one, Nat.mul_one]

/-- **The last group is filled with zeros.** -/
theorem Regrouped.fill (h : Regrouped w v input pending out) (hlt : pending < v) :
    Filled w v input (v - pending) (out ++ [value w input * 2 ^ (v - pending) % 2 ^ v]) := by
  have hpow : 2 ^ v = 2 ^ pending * 2 ^ (v - pending) := by
    rw [← Nat.pow_add, Nat.add_sub_cancel' hlt.le]
  refine ⟨?_, ?_, ?_⟩
  · rw [h.length_eq, List.length_append, List.length_singleton, Nat.mul_add, Nat.mul_one]
    omega
  · -- whole groups in front of the pending bits, and these in front of the zeros
    rw [value_append_singleton, h.value_eq, hpow, Nat.mul_mod_mul_right, ← Nat.mul_assoc,
      ← Nat.add_mul, Nat.div_add_mod']
  · intro g hg
    rcases List.mem_append.mp hg with hg | hg
    · exact h.lt g hg
    · rw [List.mem_singleton.mp hg]
      exact Nat.mod_lt _ (Nat.two_pow_pos v)

/-- **The way back.**  Zeros that are less than a digit do not matter. -/
theorem Regrouped.eq_of_filled {zeros : ℕ} {groups : List ℕ}
    (hfilled : Filled w v input zeros groups) (hinput : ∀ d ∈ input, d < 2 ^ w)
    (hzeros : zeros < w) (h : Regrouped v w groups pending out) (hpending : pending < w) :
    out = input := by
  have hw : 0 < w := lt_of_le_of_lt (Nat.zero_le zeros) hzeros
  have htotal : w * input.length + zeros = w * out.length + pending :=
    hfilled.length_eq.symm.trans h.length_eq
  -- the same length in digits and a rest below a digit
  have hrest : zeros = pending := by
    have hmod := congrArg (· % w) htotal
    simpa only [Nat.mul_add_mod, Nat.mod_eq_of_lt hzeros, Nat.mod_eq_of_lt hpending] using hmod
  have hlength : out.length = input.length := by
    have hmul : w * out.length = w * input.length := by omega
    exact Nat.eq_of_mul_eq_mul_left hw hmul
  refine eq_of_value_eq hw hlength h.lt hinput ?_
  rw [h.value_eq, hfilled.value_eq, hrest, Nat.mul_div_cancel _ (Nat.two_pow_pos pending)]

end Elbencho.DigitGroups
