import Mathlib.Data.Fin.VecNotation
import Elbencho.Library.DigitGroups

/-!
# The text form of paths

Tree files are read line by line, but a path may hold a line break.  So `scanCustomTree`
writes paths in base64, by `Base64Encoder::encode`, and `PathStore` reads them back by
`Base64Encoder::decode`.

Both functions shift what they read into an `int` and never clear it.  After a few characters
it has overflowed; the model takes it modulo `2 ^ 32`, as a `BitVec 32` with the arithmetic
right shift of a signed number.  The counter `valb` is the number of pending bits, less the
bits of a group: it is negative as long as there is no whole group.

The two machines regroup digits in the sense of `DigitGroups`, one from 8 to 6 bits and one
from 6 to 8.  The invariant of both is that the accumulator is the number of all digits that
were read, modulo `2 ^ 32`; at most 14 bits are pending, so the group that is given away is
that of the whole number.
-/

namespace Elbencho

open DigitGroups

namespace Base64Encoder

/-! ## The two functions -/

/-- `Base64Alphabet`. -/
def base64Alphabet : List Char :=
  ['A', 'B', 'C', 'D', 'E', 'F', 'G', 'H', 'I', 'J', 'K', 'L', 'M', 'N', 'O', 'P', 'Q', 'R', 'S',
    'T', 'U', 'V', 'W', 'X', 'Y', 'Z',
    'a', 'b', 'c', 'd', 'e', 'f', 'g', 'h', 'i', 'j', 'k', 'l', 'm', 'n', 'o', 'p', 'q', 'r', 's',
    't', 'u', 'v', 'w', 'x', 'y', 'z',
    '0', '1', '2', '3', '4', '5', '6', '7', '8', '9', '+', '/']

/-- The variables of either function. -/
structure Acc (α : Type) where
  out : List α
  val : BitVec 32
  valb : ℤ

/-- `Base64Alphabet[x & 0x3F]`. -/
def alphabetChar (x : BitVec 32) : Char := base64Alphabet.getD (x &&& 0x3F#32).toNat 'A'

/-- `while(valb >= 0)` in `encode`. -/
def giveChars (st : Acc Char) : Acc Char :=
  if 0 ≤ st.valb then
    giveChars ⟨st.out ++ [alphabetChar (st.val.sshiftRight st.valb.toNat)], st.val, st.valb - 6⟩
  else st
termination_by (st.valb + 6).toNat
decreasing_by omega

/-- A pass of the loop of `encode`. -/
def encodeByte (st : Acc Char) (c : UInt8) : Acc Char :=
  giveChars ⟨st.out, (st.val <<< 8) + BitVec.ofNat 32 c.toNat, st.valb + 8⟩

/-- `while(out.size() % 4)`: the text is padded to a multiple of four characters. -/
def pad (out : List Char) : List Char :=
  out ++ List.replicate ((4 - out.length % 4) % 4) '='

/-- `Base64Encoder::encode`. -/
def encode (input : List UInt8) : List Char :=
  let st := input.foldl encodeByte ⟨[], 0, -6⟩
  pad (if -6 < st.valb then
    st.out ++ [alphabetChar ((st.val <<< 8).sshiftRight (st.valb + 8).toNat)]
  else st.out)

/-- `T[c]`: the place of a character in the alphabet, if it has one. -/
def sextet (c : Char) : Option ℕ := base64Alphabet.idxOf? c

/-- A pass of the loop of `decode`. -/
def decodeSextet (st : Acc UInt8) (d : ℕ) : Acc UInt8 :=
  let val := (st.val <<< 6) + BitVec.ofNat 32 d
  let valb := st.valb + 6
  if 0 ≤ valb then
    ⟨st.out ++ [UInt8.ofNat (val.sshiftRight valb.toNat &&& 0xFF#32).toNat], val, valb - 8⟩
  else ⟨st.out, val, valb⟩

/-- The loop of `decode`, which ends at a character that is not in the alphabet. -/
def decodeFrom : Acc UInt8 → List Char → Acc UInt8
  | st, [] => st
  | st, c :: cs =>
    match sextet c with
    | none => st
    | some d => decodeFrom (decodeSextet st d) cs

/-- `Base64Encoder::decode`. -/
def decode (input : List Char) : List UInt8 := (decodeFrom ⟨[], 0, -8⟩ input).out

/-! ## The accumulator -/

/-- **Masks of an arithmetic shift** are the bits of the number, as long as they are in the
word. -/
theorem toNat_sshiftRight_and {n m : ℕ} (x : BitVec n) (s : ℕ) (hm : s + m ≤ n) :
    (x.sshiftRight s &&& BitVec.ofNat n (2 ^ m - 1)).toNat = x.toNat / 2 ^ s % 2 ^ m := by
  refine Nat.eq_of_testBit_eq fun i => ?_
  rw [BitVec.toNat_and, Nat.testBit_and, Nat.testBit_mod_two_pow, Nat.testBit_div_two_pow,
    BitVec.toNat_ofNat, Nat.testBit_mod_two_pow, Nat.testBit_two_pow_sub_one,
    BitVec.testBit_toNat, BitVec.testBit_toNat, BitVec.getLsbD_sshiftRight]
  by_cases hi : i < m
  · have hin : i < n := by omega
    have hshift : s + i < n := by omega
    simp [hi, hin, hshift, Nat.add_comm]
  · simp [hi]

/-- The accumulator after a digit. -/
theorem shiftLeft_add_ofNat (n w d N : ℕ) :
    (BitVec.ofNat n N <<< w) + BitVec.ofNat n d = BitVec.ofNat n (N * 2 ^ w + d) := by
  refine BitVec.eq_of_toNat_eq ?_
  simp [BitVec.toNat_add, BitVec.toNat_shiftLeft, Nat.shiftLeft_eq]

/-- The variables of a function that regroups digits of `w` bits in groups of `v` bits and
shows the groups by some elements: what it has read, what it has given away and how many bits
are pending. -/
structure Holds {α : Type} (w v : ℕ) (elem : ℕ → α) (input : List ℕ) (pending : ℕ)
    (groups : List ℕ) (st : Acc α) : Prop where
  regrouped : Regrouped w v input pending groups
  out_eq : st.out = groups.map elem
  val_eq : st.val = BitVec.ofNat 32 (value w input)
  valb_eq : st.valb = (pending : ℤ) - v

section Holds

variable {α : Type} {w v : ℕ} {elem : ℕ → α} {input : List ℕ} {pending : ℕ} {groups : List ℕ}
  {st : Acc α}

theorem Holds.feed (h : Holds w v elem input pending groups st) {d : ℕ} (hd : d < 2 ^ w) :
    Holds w v elem (input ++ [d]) (pending + w) groups
      ⟨st.out, (st.val <<< w) + BitVec.ofNat 32 d, st.valb + w⟩ := by
  refine ⟨h.regrouped.feed hd, h.out_eq, ?_, ?_⟩
  · rw [h.val_eq, shiftLeft_add_ofNat, value_append_singleton]
  · rw [h.valb_eq, Nat.cast_add]
    ring

/-- The group that is given away is one of the whole number, though the accumulator only has
its last 32 bits. -/
theorem Holds.toNat_group (h : Holds w v elem input pending groups st) (hle : v ≤ pending)
    (hword : pending ≤ 32) :
    (st.val.sshiftRight st.valb.toNat &&& BitVec.ofNat 32 (2 ^ v - 1)).toNat =
      value w input / 2 ^ (pending - v) % 2 ^ v := by
  have hvalb : st.valb.toNat = pending - v := by
    rw [h.valb_eq]
    omega
  have hpow : 2 ^ 32 = 2 ^ (pending - v) * 2 ^ (32 - (pending - v)) := by
    rw [← Nat.pow_add, Nat.add_sub_cancel' (by omega)]
  have hdvd : 2 ^ v ∣ 2 ^ (32 - (pending - v)) := Nat.pow_dvd_pow 2 (by omega)
  rw [hvalb, toNat_sshiftRight_and _ _ (by omega), h.val_eq, BitVec.toNat_ofNat, hpow,
    Nat.mod_mul_right_div_self, Nat.mod_mod_of_dvd _ hdvd]

theorem Holds.give (h : Holds w v elem input pending groups st) (hle : v ≤ pending)
    (hword : pending ≤ 32) :
    Holds w v elem input (pending - v)
      (groups ++ [value w input / 2 ^ (pending - v) % 2 ^ v])
      ⟨st.out ++ [elem (st.val.sshiftRight st.valb.toNat &&&
        BitVec.ofNat 32 (2 ^ v - 1)).toNat], st.val, st.valb - v⟩ := by
  refine ⟨h.regrouped.give hle, ?_, h.val_eq, ?_⟩
  · rw [h.toNat_group hle hword, h.out_eq, List.map_append, List.map_singleton]
  · rw [h.valb_eq, Nat.cast_sub hle]

end Holds

/-! ## Encoding -/

/-- The character of a group. -/
def charOf (g : ℕ) : Char := base64Alphabet.getD g 'A'

/-- The bytes as digits. -/
def digits (input : List UInt8) : List ℕ := input.map UInt8.toNat

theorem giveChars_holds {input groups : List ℕ} {pending : ℕ} {st : Acc Char}
    (h : Holds 8 6 charOf input pending groups st) (hword : pending ≤ 32) :
    ∃ pending' groups', pending' < 6 ∧ Holds 8 6 charOf input pending' groups' (giveChars st) := by
  induction pending using Nat.strong_induction_on generalizing groups st with
  | _ pending ih =>
    have hvalb : st.valb = (pending : ℤ) - 6 := h.valb_eq
    rw [giveChars]
    by_cases hle : 6 ≤ pending
    · rw [if_pos (by omega)]
      exact ih (pending - 6) (by omega) (h.give hle hword) (by omega)
    · rw [if_neg (by omega)]
      exact ⟨pending, groups, not_le.mp hle, h⟩

/-- **The loop of the encoder.** -/
theorem encodeLoop_holds (input : List UInt8) :
    ∃ pending groups, pending < 6 ∧
      Holds 8 6 charOf (digits input) pending groups (input.foldl encodeByte ⟨[], 0, -6⟩) := by
  induction input using List.reverseRecOn with
  | nil => exact ⟨0, [], by decide, Regrouped.nil, rfl, rfl, rfl⟩
  | append_singleton input c ih =>
    obtain ⟨pending, groups, hlt, h⟩ := ih
    rw [List.foldl_append, List.foldl_cons, List.foldl_nil, digits, List.map_append,
      List.map_singleton]
    exact giveChars_holds (h.feed c.toNat_lt) (by omega)

/-- **The last character** is the group that comes if a zero byte follows. -/
theorem Holds.toNat_lastGroup {input groups : List ℕ} {pending : ℕ} {st : Acc Char}
    (h : Holds 8 6 charOf input pending groups st) (hlt : pending < 6) :
    ((st.val <<< 8).sshiftRight (st.valb + 8).toNat &&& 0x3F#32).toNat =
      value 8 input * 2 ^ (6 - pending) % 2 ^ 6 := by
  have hgroup := (h.feed (d := 0) (by decide)).toNat_group (by omega) (by omega)
  rw [value_append_singleton, Nat.add_zero, BitVec.add_zero] at hgroup
  refine hgroup.trans ?_
  have hpow : 2 ^ 8 = 2 ^ (6 - pending) * 2 ^ (pending + 8 - 6) := by
    rw [← Nat.pow_add]
    exact congrArg (2 ^ ·) (by omega)
  rw [hpow, ← Nat.mul_assoc, Nat.mul_div_cancel _ (Nat.two_pow_pos _)]

/-- **What the encoder writes**: the groups of the bytes, the last one filled with zeros, and
padding. -/
theorem exists_encode (input : List UInt8) :
    ∃ zeros groups padding, zeros < 6 ∧ Filled 8 6 (digits input) zeros groups ∧
      encode input = groups.map charOf ++ List.replicate padding '=' := by
  obtain ⟨pending, groups, hlt, h⟩ := encodeLoop_holds input
  have hvalb := h.valb_eq
  rw [encode]
  generalize input.foldl encodeByte ⟨[], 0, -6⟩ = st at h hvalb ⊢
  by_cases hzero : pending = 0
  · subst hzero
    rw [if_neg (by omega)]
    exact ⟨0, groups, _, by decide, h.regrouped.filled, by rw [h.out_eq, pad]⟩
  · rw [if_pos (by omega)]
    have hlast : st.out ++ [alphabetChar ((st.val <<< 8).sshiftRight (st.valb + 8).toNat)] =
        (groups ++ [value 8 (digits input) * 2 ^ (6 - pending) % 2 ^ 6]).map charOf := by
      rw [List.map_append, List.map_singleton, h.out_eq, alphabetChar, h.toNat_lastGroup hlt]
      rfl
    exact ⟨6 - pending, _, _, by omega, h.regrouped.fill hlt, by rw [hlast, pad]⟩

/-! ## Decoding -/

theorem sextet_charOf {g : ℕ} (hg : g < 2 ^ 6) : sextet (charOf g) = some g := by
  have hall : ∀ i : Fin (2 ^ 6), sextet (charOf i) = some i.val := by decide
  exact hall ⟨g, hg⟩

/-- **The padding ends the text.** -/
theorem decodeFrom_encoded {groups : List ℕ} (hgroups : ∀ g ∈ groups, g < 2 ^ 6) (padding : ℕ)
    (st : Acc UInt8) :
    decodeFrom st (groups.map charOf ++ List.replicate padding '=') =
      groups.foldl decodeSextet st := by
  induction groups generalizing st with
  | nil =>
    cases padding with
    | zero => rfl
    | succ padding => rfl
  | cons g groups ih =>
    rw [List.map_cons, List.cons_append, decodeFrom, sextet_charOf (hgroups g List.mem_cons_self)]
    exact ih (fun g hg => hgroups g (List.mem_cons_of_mem _ hg)) (decodeSextet st g)

/-- **The loop of the decoder.** -/
theorem decodeLoop_holds {input : List ℕ} (hinput : ∀ d ∈ input, d < 2 ^ 6) :
    ∃ pending groups, pending < 8 ∧
      Holds 6 8 UInt8.ofNat input pending groups (input.foldl decodeSextet ⟨[], 0, -8⟩) := by
  induction input using List.reverseRecOn with
  | nil => exact ⟨0, [], by decide, Regrouped.nil, rfl, rfl, rfl⟩
  | append_singleton input d ih =>
    obtain ⟨pending, groups, hlt, h⟩ := ih fun d hd => hinput d (List.mem_append_left _ hd)
    have hfeed := h.feed (hinput d (List.mem_append_right _ List.mem_cons_self))
    have hvalb := hfeed.valb_eq
    rw [List.foldl_append, List.foldl_cons, List.foldl_nil]
    rw [decodeSextet]
    by_cases hle : 8 ≤ pending + 6
    · rw [if_pos (by simp only at hvalb; omega)]
      exact ⟨_, _, by omega, hfeed.give hle (by omega)⟩
    · rw [if_neg (by simp only at hvalb; omega)]
      exact ⟨_, _, not_le.mp hle, hfeed⟩

/-- **Main statement.**  Decoding undoes encoding, for byte strings of every length. -/
theorem decode_encode (input : List UInt8) : decode (encode input) = input := by
  obtain ⟨zeros, groups, padding, hzeros, hfilled, hencode⟩ := exists_encode input
  obtain ⟨pending, bytes, hpending, h⟩ := decodeLoop_holds hfilled.lt
  have hdigits : ∀ d ∈ digits input, d < 2 ^ 8 := by
    intro d hd
    obtain ⟨c, -, rfl⟩ := List.mem_map.mp hd
    exact c.toNat_lt
  have hbytes : bytes = digits input :=
    h.regrouped.eq_of_filled hfilled hdigits (by omega) hpending
  rw [decode, hencode, decodeFrom_encoded hfilled.lt, h.out_eq, hbytes, digits, List.map_map]
  exact (List.map_congr_left fun c _ => UInt8.ofNat_toNat).trans (List.map_id input)

end Base64Encoder

end Elbencho
