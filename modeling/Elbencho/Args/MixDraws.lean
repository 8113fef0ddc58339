import Mathlib.Algebra.BigOperators.Group.List.Basic
import Mathlib.Order.Interval.Finset.Nat
import Elbencho.Args.BlockSizeText

/-!
# The draws of a block size mix

`getNextSize` takes a random number modulo the sum of the weights and goes through the sums of
the weights of the first entries until one is above it.  As long as the sum of all weights fits
into a word, each entry has an interval of as many numbers as its weight.

* `pick_eq_some_iff`: the numbers that select an entry.
* `card_filter_drawnSize`: there are as many of them as the weight says.
* **`parse_followsWeights_iff`**: a mix that was read from a text follows its weights, and is
  read back from its canonical form, if and only if the sum of the weights fits into a word and
  all sizes are below `2 ^ 63`.
-/

namespace Elbencho
namespace BlockSizeMix

/-- The sum of the weights of some entries, as a number. -/
def weightSum (entries : List (ℕ × ℕ)) : ℕ := (entries.map Prod.snd).sum

/-- The size that is drawn with a random number. -/
def drawnSize (mix : BlockSizeMix) (random : ℕ) : ℕ :=
  (mix.getNextSize (Stream'.const (BitVec.ofNat 64 random))).1

/-- The draws of a mix follow its weights, and the mix can be sent as a text. -/
structure FollowsWeights (mix : BlockSizeMix) : Prop where
  totalWeight_eq : mix.totalWeight = weightSum mix.sizesAndWeights
  totalWeight_ne_zero : mix.totalWeight ≠ 0
  residues : ∀ e ∈ mix.sizesAndWeights,
    ((Finset.range mix.totalWeight).filter fun random => mix.drawnSize random = e.1).card = e.2
  roundTrip : parse mix.toString = .ok mix

/-! ## Sums of weights -/

theorem weightSum_cons (e : ℕ × ℕ) (entries : List (ℕ × ℕ)) :
    weightSum (e :: entries) = e.2 + weightSum entries := List.sum_cons

theorem weightSum_append (entries entries' : List (ℕ × ℕ)) :
    weightSum (entries ++ entries') = weightSum entries + weightSum entries' := by
  simp [weightSum]

/-- The sum of all weights is exact if it fits into a word. -/
theorem foldl_add_eq (entries : List (ℕ × ℕ)) (w : ℕ)
    (hfits : w + weightSum entries < Word64.size) :
    entries.foldl (fun w e => Word64.add w e.2) w = w + weightSum entries := by
  induction entries generalizing w with
  | nil => rfl
  | cons e entries ih =>
    rw [weightSum_cons, ← Nat.add_assoc] at hfits
    have hadd : Word64.add w e.2 = w + e.2 := Word64.add_eq (by omega)
    rw [List.foldl_cons, hadd, ih _ hfits, weightSum_cons, Nat.add_assoc]

theorem totalWeight_lt (mix : BlockSizeMix) : mix.totalWeight < Word64.size := by
  have hlt (entries : List (ℕ × ℕ)) (w : ℕ) (hw : w < Word64.size) :
      entries.foldl (fun w e => Word64.add w e.2) w < Word64.size := by
    induction entries generalizing w with
    | nil => exact hw
    | cons e entries ih => exact ih _ (Word64.add_lt w e.2)
  exact hlt _ 0 Word64.size_pos

theorem totalWeight_eq_weightSum {mix : BlockSizeMix}
    (hfits : weightSum mix.sizesAndWeights < Word64.size) :
    mix.totalWeight = weightSum mix.sizesAndWeights := by
  rw [totalWeight, sumWeights, foldl_add_eq _ 0 (by rwa [Nat.zero_add]), Nat.zero_add]

theorem weightSum_pos (mix : BlockSizeMix) : 0 < weightSum mix.sizesAndWeights := by
  obtain ⟨e, entries, heq⟩ := List.exists_cons_of_ne_nil mix.ne_nil
  have hpos := mix.weight_pos e (by rw [heq]; exact List.mem_cons_self)
  rw [heq, weightSum_cons]
  omega

/-! ## The numbers that select an entry -/

/-- **An entry is selected by an interval of numbers,** which begins after the weights of the
entries before. -/
theorem pick_eq_some_iff {e : ℕ × ℕ} {pre post : List (ℕ × ℕ)} {w random : ℕ}
    (hnodup : ((pre ++ e :: post).map Prod.fst).Nodup)
    (hfits : w + weightSum (pre ++ e :: post) < Word64.size) (hle : w ≤ random) :
    pick random w (pre ++ e :: post) = some e.1 ↔
      w + weightSum pre ≤ random ∧ random < w + weightSum pre + e.2 := by
  induction pre generalizing w with
  | nil =>
    rw [List.nil_append, weightSum_cons] at hfits
    rw [List.nil_append, List.map_cons, List.nodup_cons] at hnodup
    have hadd : Word64.add w e.2 = w + e.2 := Word64.add_eq (by omega)
    rw [List.nil_append, pick, hadd]
    change _ ↔ w + 0 ≤ random ∧ random < w + 0 + e.2
    by_cases hlt : random < w + e.2
    · simp [hlt, hle]
    · rw [if_neg hlt]
      refine iff_of_false ?_ (by omega)
      -- a later entry has another size
      intro hpick
      exact hnodup.1 (pick_mem hpick)
  | cons f pre ih =>
    rw [List.cons_append, weightSum_cons] at hfits
    rw [List.cons_append, List.map_cons, List.nodup_cons] at hnodup
    have hadd : Word64.add w f.2 = w + f.2 := Word64.add_eq (by omega)
    rw [List.cons_append, pick, hadd, weightSum_cons]
    by_cases hlt : random < w + f.2
    · rw [if_pos hlt, Option.some_inj]
      refine iff_of_false ?_ (by omega)
      intro heq
      rw [heq] at hnodup
      exact hnodup.1 (List.mem_map_of_mem (List.mem_append_right _ List.mem_cons_self))
    · rw [if_neg hlt, ih hnodup.2 (by omega) (by omega)]
      omega

/-- Every number below the sum of the weights selects an entry. -/
theorem pick_ne_none {entries : List (ℕ × ℕ)} {w random : ℕ}
    (hfits : w + weightSum entries < Word64.size) (hlt : random < w + weightSum entries)
    (hle : w ≤ random) : pick random w entries ≠ none := by
  induction entries generalizing w with
  | nil =>
    change random < w + 0 at hlt
    omega
  | cons e entries ih =>
    rw [weightSum_cons] at hfits hlt
    have hadd : Word64.add w e.2 = w + e.2 := Word64.add_eq (by omega)
    rw [pick, hadd]
    by_cases hhere : random < w + e.2
    · rw [if_pos hhere]
      exact Option.some_ne_none _
    · rw [if_neg hhere]
      exact ih (by omega) (by omega) (by omega)

variable {mix : BlockSizeMix} (hfits : weightSum mix.sizesAndWeights < Word64.size)

include hfits in
/-- What is drawn with a number below the sum of the weights. -/
theorem drawnSize_eq_iff {random size : ℕ} (hlt : random < mix.totalWeight)
    (hmix : mix.isMix = true) :
    mix.drawnSize random = size ↔ pick random 0 mix.sizesAndWeights = some size := by
  have htotal := totalWeight_eq_weightSum hfits
  have hword : (BitVec.ofNat 64 random).toNat = random :=
    Nat.mod_eq_of_lt (hlt.trans mix.totalWeight_lt)
  have hpick : pick random 0 mix.sizesAndWeights ≠ none :=
    pick_ne_none (by omega) (by omega) (Nat.zero_le _)
  obtain ⟨drawn, hdrawn⟩ := Option.ne_none_iff_exists'.mp hpick
  have hnext : mix.drawnSize random = drawn := by
    rw [drawnSize, getNextSize, if_pos hmix]
    change (pick ((BitVec.ofNat 64 random).toNat % mix.totalWeight) 0
      mix.sizesAndWeights).getD _ = drawn
    rw [hword, Nat.mod_eq_of_lt hlt, hdrawn, Option.getD_some]
  rw [hnext, hdrawn, Option.some_inj]

include hfits in
/-- **As many numbers select an entry as its weight says.** -/
theorem card_filter_drawnSize {e : ℕ × ℕ} (he : e ∈ mix.sizesAndWeights) :
    ((Finset.range mix.totalWeight).filter fun random => mix.drawnSize random = e.1).card =
      e.2 := by
  have htotal := totalWeight_eq_weightSum hfits
  obtain ⟨pre, post, heq⟩ := List.append_of_mem he
  have hsum : mix.totalWeight = weightSum pre + (e.2 + weightSum post) := by
    rw [htotal, heq, weightSum_append, weightSum_cons]
  by_cases hmix : mix.isMix = true
  · have hfilter : ((Finset.range mix.totalWeight).filter fun random =>
        mix.drawnSize random = e.1) = Finset.Ico (weightSum pre) (weightSum pre + e.2) := by
      ext random
      rw [Finset.mem_filter, Finset.mem_range, Finset.mem_Ico]
      constructor
      · rintro ⟨hlt, hdrawn⟩
        rw [drawnSize_eq_iff hfits hlt hmix, heq,
          pick_eq_some_iff (heq ▸ mix.nodup) (by rw [← heq]; omega) (Nat.zero_le _)] at hdrawn
        omega
      · intro hin
        have hlt : random < mix.totalWeight := by omega
        refine ⟨hlt, ?_⟩
        rw [drawnSize_eq_iff hfits hlt hmix, heq,
          pick_eq_some_iff (heq ▸ mix.nodup) (by rw [← heq]; omega) (Nat.zero_le _)]
        omega
    rw [hfilter, Nat.card_Ico, Nat.add_sub_cancel_left]
  · -- a mix of one size draws no number
    have hone : mix.sizesAndWeights = [e] := by
      have hlength : mix.sizesAndWeights.length ≤ 1 := by
        simpa [isMix] using hmix
      rw [heq] at hlength ⊢
      simp only [List.length_append, List.length_cons] at hlength
      have hpre : pre = [] := List.length_eq_zero_iff.mp (by omega)
      have hpost : post = [] := List.length_eq_zero_iff.mp (by omega)
      rw [hpre, hpost, List.nil_append]
    have hmax : mix.getMaxSize = e.1 := by
      have hmem := mix.getMaxSize_mem
      rw [sizes, hone] at hmem
      exact List.mem_singleton.mp hmem
    have hdrawn (random : ℕ) : mix.drawnSize random = e.1 := by
      rw [drawnSize, getNextSize, if_neg hmix, hmax]
    have hweight : mix.totalWeight = e.2 := by
      rw [htotal, hone]
      exact Nat.add_zero e.2
    rw [Finset.filter_true_of_mem fun random _ => hdrawn random, Finset.card_range, hweight]

/-- **A mix that was read follows its weights and is read back if and only if the sum of its
weights fits into a word and its sizes are below `2 ^ 63`.** -/
theorem parse_followsWeights_iff (blockSizeStr : String) (mix : BlockSizeMix) :
    parse blockSizeStr = .ok mix →
      (FollowsWeights mix ↔
        weightSum mix.sizesAndWeights < Word64.size ∧
          ∀ e ∈ mix.sizesAndWeights, e.1 < 2 ^ 63) := by
  intro _
  constructor
  · intro hfollows
    refine ⟨?_, (parse_toString_iff mix).mp hfollows.roundTrip⟩
    rw [← hfollows.totalWeight_eq]
    exact mix.totalWeight_lt
  · rintro ⟨hfits, hsizes⟩
    have htotal := totalWeight_eq_weightSum hfits
    have hpos := mix.weightSum_pos
    refine ⟨htotal, ?_, ?_, (parse_toString_iff mix).mpr hsizes⟩
    · rw [htotal]
      exact hpos.ne'
    · intro e he
      exact card_filter_drawnSize hfits he

/-- Two sizes, the first one three times as often. -/
def threeToOne : BlockSizeMix where
  sizesAndWeights := [(4096, 3), (65536, 1)]
  ne_nil := List.cons_ne_nil _ _
  nodup := by decide
  size_pos := by decide
  size_lt := by decide
  weight_pos := by decide
  weight_lt := by decide

theorem parse_followsWeights_iff_threeToOne :
    parse "4k:3,64k:1" = .ok threeToOne ∧
      (FollowsWeights threeToOne ↔
        weightSum threeToOne.sizesAndWeights < Word64.size ∧
          ∀ e ∈ threeToOne.sizesAndWeights, e.1 < 2 ^ 63) := by
  have hparse : parse "4k:3,64k:1" = .ok threeToOne := by
    have hread : (parse "4k:3,64k:1").toOption.any (fun mix =>
        mix.sizesAndWeights = [(4096, 3), (65536, 1)]) = true := by decide +kernel
    obtain ⟨mix, hmix, hsizes⟩ := Checks.exists_ok_of_any hread
    rw [hmix]
    exact congrArg Except.ok (eq_of_sizesAndWeights (of_decide_eq_true hsizes))
  exact ⟨hparse, parse_followsWeights_iff _ _ hparse⟩

/-- Two accepted texts: with the first one, the sum of the weights is reduced to zero, and the
size of the second one is not read back. -/
theorem totalWeight_zero_and_size_changed :
    (∃ mix, parse "4k:18446744073709551615,8k:1" = .ok mix ∧ mix.totalWeight = 0) ∧
      ∃ mix, parse "8E" = .ok mix ∧ parse mix.toString ≠ .ok mix := by
  have hzero : (parse "4k:18446744073709551615,8k:1").toOption.any (fun mix =>
      mix.totalWeight = 0) = true := by decide +kernel
  have hlarge : (parse "8E").toOption.any (fun mix =>
      (2 ^ 63, 1) ∈ mix.sizesAndWeights) = true := by decide +kernel
  constructor
  · obtain ⟨mix, hmix, htotal⟩ := Checks.exists_ok_of_any hzero
    exact ⟨mix, hmix, of_decide_eq_true htotal⟩
  · obtain ⟨mix, hmix, hmem⟩ := Checks.exists_ok_of_any hlarge
    refine ⟨mix, hmix, fun hround => ?_⟩
    have hlt := (parse_toString_iff mix).mp hround _ (of_decide_eq_true hmem)
    exact absurd hlt (lt_irrefl _)

end BlockSizeMix
end Elbencho
