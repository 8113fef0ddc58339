import Elbencho.Args.BlockSizeText

/-!
# Sizes with units

`numHumanToBytesBinary` reads the number at the beginning of a text with `atoll` and looks at the
last character for a unit.  It does not look at what is in between, `atoll` stops at `2 ^ 63 - 1`,
and the product of number and unit is reduced to 64 bits.

* `isSize_toNat`: what is read from a text that is a number with or without a unit.
* **`sizeExact_iff`**: the texts that are refused or read exactly.
-/

namespace Elbencho
namespace UnitTk

/-- A text that is a number in decimal digits, with one unit or none after it; its number and the
factor of its unit. -/
inductive IsSize : List Char → ℕ → ℕ → Prop
  | plain {digits : List Char} (hne : digits ≠ []) (hdigits : ∀ c ∈ digits, c.isDigit = true) :
    IsSize digits (Nat.ofDigitChars 10 digits 0) 1
  | withUnit {digits : List Char} {unit : Char} {shift : UInt64} (hne : digits ≠ [])
    (hdigits : ∀ c ∈ digits, c.isDigit = true) (hunit : unitShift? unit.toUpper = some shift) :
    IsSize (digits ++ [unit]) (Nat.ofDigitChars 10 digits 0) (2 ^ shift.toNat)

/-- A text is not accepted, or it is a number with a unit or none, and the result is their
product. -/
def SizeExact (numHuman : List Char) : Prop :=
  ∀ bytes, numHumanToBytesBinary numHuman true = .ok bytes →
    ∃ number factor, IsSize numHuman number factor ∧ bytes.toNat = number * factor

/-- A text without a number or unit at its end, or with one of three characters. -/
def Refused (numHuman : List Char) : Prop :=
  numHuman = [] ∨ '.' ∈ numHuman ∨ ',' ∈ numHuman ∨ '-' ∈ numHuman ∨
    ∃ c ∈ numHuman.getLast?, c.isDigit = false ∧ unitShift? c.toUpper = none

/-! ## Units -/

theorem unitShift?_bounds {c : Char} {shift : UInt64} (h : unitShift? c = some shift) :
    10 ≤ shift.toNat ∧ shift.toNat < 64 := by
  unfold unitShift? at h
  split at h <;> cases h <;> decide

/-- The factor of a unit fits into a word, and is large. -/
theorem shift_spec {c : Char} {shift : UInt64} (h : unitShift? c = some shift) :
    (1 <<< shift : UInt64).toNat = 2 ^ shift.toNat ∧ 2 ^ 10 ≤ 2 ^ shift.toNat := by
  obtain ⟨hge, hlt⟩ := unitShift?_bounds h
  refine ⟨?_, Nat.pow_le_pow_right Nat.two_pos hge⟩
  rw [UInt64.toNat_shiftLeft, Nat.mod_eq_of_lt hlt, UInt64.toNat_one, Nat.one_shiftLeft,
    Nat.mod_eq_of_lt (Nat.pow_lt_pow_right Nat.one_lt_two hlt)]

/-- A unit is not a digit. -/
theorem isDigit_of_unit {c : Char} {shift : UInt64} (h : unitShift? c.toUpper = some shift) :
    c.isDigit = false := by
  by_contra hdigit
  have hc : c.isDigit = true := by simpa using hdigit
  have hupper : c.toUpper = c := by
    simp only [Char.isDigit, Bool.and_eq_true, decide_eq_true_eq] at hc
    unfold Char.toUpper
    rw [dif_neg]
    intro hlower
    have hle : c.val.toNat ≤ 57 := UInt32.le_iff_toNat_le.mp hc.2
    have hge : 97 ≤ c.val.toNat := UInt32.le_iff_toNat_le.mp hlower.1
    omega
  rw [hupper] at h
  unfold unitShift? at h
  split at h <;> simp_all [Char.isDigit]

/-! ## What is read -/

/-- The result for a text that is not refused. -/
theorem numHumanToBytesBinary_of_not_refused {numHuman : List Char} (h : ¬ Refused numHuman) :
    ∃ c, numHuman.getLast? = some c ∧
      (c.isDigit = true ∧
        numHumanToBytesBinary numHuman true = .ok (UInt64.ofInt (atoll numHuman)) ∨
      ∃ shift, c.isDigit = false ∧ unitShift? c.toUpper = some shift ∧
        numHumanToBytesBinary numHuman true =
          .ok (UInt64.ofInt (atoll numHuman) * (1 <<< shift))) := by
  simp only [Refused, not_or, not_exists, not_and] at h
  obtain ⟨hne, hdot, hcomma, hdash, hlast⟩ := h
  obtain ⟨c, hc⟩ : ∃ c, numHuman.getLast? = some c :=
    ⟨_, List.getLast?_eq_getLast_of_ne_nil hne⟩
  refine ⟨c, hc, ?_⟩
  rw [numHumanToBytesBinary, hc]
  simp only [if_neg hdot, if_neg hcomma, if_neg hdash]
  cases hdigit : c.isDigit with
  | true => exact Or.inl ⟨rfl, rfl⟩
  | false =>
    obtain ⟨shift, hshift⟩ := Option.ne_none_iff_exists'.mp (hlast c hc hdigit)
    refine Or.inr ⟨shift, rfl, hshift, ?_⟩
    rw [hshift]
    rfl

/-- Texts that are refused are not accepted. -/
theorem not_refused_of_eq_ok {numHuman : List Char} {bytes : UInt64}
    (h : numHumanToBytesBinary numHuman true = .ok bytes) : ¬ Refused numHuman := by
  rw [numHumanToBytesBinary] at h
  cases hlast : numHuman.getLast? with
  | none =>
    rw [hlast] at h
    cases h
  | some c =>
    simp only [hlast] at h
    split_ifs at h with hdot hcomma hdash hdigit
    all_goals
      rintro (rfl | hin | hin | hin | ⟨d, hd, hnot, hnone⟩)
    · cases hlast
    · exact hdot hin
    · exact hcomma hin
    · exact hdash hin
    · cases hd.symm.trans hlast
      exact Bool.false_ne_true (hnot.symm.trans hdigit)
    · cases hlast
    · exact hdot hin
    · exact hcomma hin
    · exact hdash hin
    · cases hd.symm.trans hlast
      rw [hnone] at h
      cases h

/-- The number of a text is read up to the greatest value of `atoll`. -/
theorem atoll_append {digits rest : List Char} (hne : digits ≠ [])
    (hdigits : ∀ c ∈ digits, c.isDigit = true) (hrest : ∀ c ∈ rest.head?, c.isDigit = false) :
    atoll (digits ++ rest) = (min (Nat.ofDigitChars 10 digits 0) (2 ^ 63 - 1) : ℕ) := by
  rw [atoll, signAndDigits_append hne hdigits hrest]
  simp only [if_neg Bool.false_ne_true]

theorem toNat_ofInt_min (n : ℕ) :
    (UInt64.ofInt (min n (2 ^ 63 - 1) : ℕ)).toNat = min n (2 ^ 63 - 1) := by
  have hlt : min n (2 ^ 63 - 1) < UInt64.size := by
    have hsize : UInt64.size = 2 ^ 64 := rfl
    omega
  rw [ofInt_natCast, UInt64.toNat_ofNat_of_lt' hlt]

/-- **What is read from a number with a unit or none.** -/
theorem isSize_toNat {numHuman : List Char} {number factor : ℕ}
    (hsize : IsSize numHuman number factor) {bytes : UInt64}
    (h : numHumanToBytesBinary numHuman true = .ok bytes) :
    bytes.toNat = min number (2 ^ 63 - 1) * factor % 2 ^ 64 := by
  obtain ⟨c, hlast, hresult⟩ := numHumanToBytesBinary_of_not_refused (not_refused_of_eq_ok h)
  cases hsize with
  | plain hne hdigits =>
    have hc : c.isDigit = true := hdigits c (List.mem_of_getLast? hlast)
    have hnone : ∀ c ∈ ([] : List Char).head?, c.isDigit = false := by simp
    have hatoll := atoll_append hne hdigits hnone
    rw [List.append_nil] at hatoll
    rcases hresult with ⟨-, hok⟩ | ⟨shift, hnot, -⟩
    · cases h.symm.trans hok
      rw [hatoll, toNat_ofInt_min, Nat.mul_one, Nat.mod_eq_of_lt (by omega)]
    · exact absurd (hnot.symm.trans hc) Bool.false_ne_true
  | @withUnit digits unit shift hne hdigits hunit =>
    rw [List.getLast?_append_of_ne_nil _ (List.cons_ne_nil _ _)] at hlast
    cases hlast
    have hnot := isDigit_of_unit hunit
    have hstop : ∀ c ∈ [unit].head?, c.isDigit = false := by simpa using hnot
    have hatoll := atoll_append hne hdigits hstop
    rcases hresult with ⟨hdigit, -⟩ | ⟨shift', -, hshift, hok⟩
    · exact absurd (hnot.symm.trans hdigit) Bool.false_ne_true
    · cases hunit.symm.trans hshift
      cases h.symm.trans hok
      rw [UInt64.toNat_mul, hatoll, toNat_ofInt_min, (shift_spec hunit).1]

/-- **A text is refused or read exactly if and only if it is of one of the refused forms, or a
number that `atoll` can read with a unit or none, whose product is below `2 ^ 64`.** -/
theorem sizeExact_iff (numHuman : List Char) :
    SizeExact numHuman ↔
      Refused numHuman ∨ ∃ number factor, IsSize numHuman number factor ∧
        number < 2 ^ 63 ∧ number * factor < 2 ^ 64 := by
  constructor
  · intro hexact
    by_cases hrefused : Refused numHuman
    · exact Or.inl hrefused
    · have hok : ∃ bytes, numHumanToBytesBinary numHuman true = .ok bytes := by
        obtain ⟨c, -, ⟨-, hok⟩ | ⟨shift, -, -, hok⟩⟩ :=
          numHumanToBytesBinary_of_not_refused hrefused
        · exact ⟨_, hok⟩
        · exact ⟨_, hok⟩
      obtain ⟨bytes, hbytes⟩ := hok
      obtain ⟨number, factor, hsize, hproduct⟩ := hexact bytes hbytes
      have hlt : number * factor < 2 ^ 64 := by
        rw [← hproduct]
        exact bytes.toNat_lt
      refine Or.inr ⟨number, factor, hsize, ?_, hlt⟩
      have hread := isSize_toNat hsize hbytes
      rw [hproduct] at hread
      cases hsize with
      | plain hne hdigits =>
        rw [Nat.mul_one, Nat.mul_one] at hread
        omega
      | @withUnit digits unit shift hne hdigits hunit =>
        have hle := Nat.mul_le_mul_left (Nat.ofDigitChars 10 digits 0) (shift_spec hunit).2
        have hbound := hle.trans_lt hlt
        omega
  · rintro (hrefused | ⟨number, factor, hsize, hnumber, hlt⟩) bytes hbytes
    · exact absurd hrefused (not_refused_of_eq_ok hbytes)
    · refine ⟨number, factor, hsize, ?_⟩
      have hmin : min number (2 ^ 63 - 1) = number := by omega
      rw [isSize_toNat hsize hbytes, hmin, Nat.mod_eq_of_lt hlt]

/-- The number of a text is that of its first digits, and at most one character follows. -/
theorem IsSize.takeWhile {numHuman : List Char} {number factor : ℕ}
    (h : IsSize numHuman number factor) :
    number = Nat.ofDigitChars 10 (numHuman.takeWhile Char.isDigit) 0 ∧
      (numHuman.dropWhile Char.isDigit).length ≤ 1 ∧ 1 ≤ factor := by
  cases h with
  | plain hne hdigits =>
    rw [List.takeWhile_eq_self_iff.mpr hdigits, List.dropWhile_eq_nil_iff.mpr hdigits]
    exact ⟨rfl, Nat.zero_le 1, le_rfl⟩
  | @withUnit digits unit shift hne hdigits hunit =>
    have hnot : ¬ unit.isDigit = true := by simp [isDigit_of_unit hunit]
    rw [List.takeWhile_append_of_pos hdigits, List.dropWhile_append_of_pos hdigits,
      List.takeWhile_cons_of_neg hnot, List.dropWhile_cons_of_neg hnot, List.append_nil]
    exact ⟨rfl, le_rfl, Nat.one_le_two_pow⟩

/-- A product that is reduced to zero, a number that is too large for `atoll`, and a text of which
only a part is read. -/
theorem reduced_saturated_and_partial :
    (numHumanToBytesBinary "17179869184G".toList true = .ok 0 ∧
      ¬ SizeExact "17179869184G".toList) ∧
    (numHumanToBytesBinary "9223372036854775808".toList true = .ok 9223372036854775807 ∧
      ¬ SizeExact "9223372036854775808".toList) ∧
    (numHumanToBytesBinary "1x4k".toList true = .ok 1024 ∧ ¬ SizeExact "1x4k".toList) := by
  have hreduced : numHumanToBytesBinary "17179869184G".toList true = .ok 0 := by decide +kernel
  have hsaturated : numHumanToBytesBinary "9223372036854775808".toList true =
      .ok 9223372036854775807 := by decide +kernel
  have hpart : numHumanToBytesBinary "1x4k".toList true = .ok 1024 := by decide +kernel
  refine ⟨⟨hreduced, fun hexact => ?_⟩, ⟨hsaturated, fun hexact => ?_⟩,
    ⟨hpart, fun hexact => ?_⟩⟩
  · obtain ⟨number, factor, hsize, hproduct⟩ := hexact _ hreduced
    obtain ⟨hnumber, -, hfactor⟩ := hsize.takeWhile
    have hvalue : number = 17179869184 := hnumber.trans (by decide +kernel)
    have hzero : number * factor = 0 := hproduct.symm
    rcases Nat.mul_eq_zero.mp hzero with hzero | hzero <;> omega
  · obtain ⟨number, factor, hsize, hproduct⟩ := hexact _ hsaturated
    obtain ⟨hnumber, -, hfactor⟩ := hsize.takeWhile
    have hvalue : number = 9223372036854775808 := hnumber.trans (by decide +kernel)
    have hle : number * 1 ≤ number * factor := Nat.mul_le_mul_left number hfactor
    rw [← hproduct, hvalue] at hle
    exact absurd hle (by decide)
  · obtain ⟨number, factor, hsize, -⟩ := hexact _ hpart
    obtain ⟨-, hlength, -⟩ := hsize.takeWhile
    exact absurd hlength (by decide +kernel)

end UnitTk
end Elbencho
