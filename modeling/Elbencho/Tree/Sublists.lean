import Elbencho.Tree.PathStore

/-!
# The sublists of the ranks

What the three functions of `PathStore` add for one rank, as a count.  For whole files it is
the number of times a file is in the list.  For ranges it is the number of ranges that
contain a byte `x` of a file: the file begins at some block of the whole tree, and the byte
counts for the rank that has its block, which is block `x / blockSize` of the file.

Each loop is followed from an arbitrary file on, with the number of the blocks before; the
list it adds is built together with its count.
-/

namespace Elbencho

open Blocks Numbered

/-- The whole file of an entry. -/
def PathStoreElem.file (e : PathStoreElem) : PathStoreElem :=
  { e with rangeStart := 0, rangeLen := e.totalLen }

/-- A byte of a file lies in the range of an entry. -/
def PathStoreElem.covers (f : PathStoreElem) (x : ℕ) (e : PathStoreElem) : Bool :=
  e.file = f ∧ e.rangeStart ≤ x ∧ x < e.rangeStart + e.rangeLen

theorem PathStoreElem.file_eq_self {e : PathStoreElem} (hstart : e.rangeStart = 0)
    (hlen : e.rangeLen = e.totalLen) : e.file = e := by
  obtain ⟨path, totalLen, rangeStart, rangeLen⟩ := e
  simp only at hstart hlen
  simp only [file, hstart, hlen]

namespace PathStore

/-- A range of one of the files that begins at a block. -/
structure InFile (blockSize : ℕ) (files : List PathStoreElem) (e : PathStoreElem) : Prop where
  file_mem : e.file ∈ files
  dvd_rangeStart : blockSize ∣ e.rangeStart
  rangeLen_pos : 0 < e.rangeLen
  end_le : e.rangeStart + e.rangeLen ≤ e.totalLen

theorem InFile.mono {blockSize : ℕ} {files files' : List PathStoreElem} {e : PathStoreElem}
    (h : InFile blockSize files e) (hsub : ∀ f ∈ files, f ∈ files') : InFile blockSize files' e :=
  ⟨hsub _ h.file_mem, h.dvd_rangeStart, h.rangeLen_pos, h.end_le⟩

/-- The bytes of whole files. -/
theorem sumBytes_sublist {l l' : List PathStoreElem} (h : l.Sublist l') :
    sumBytes l ≤ sumBytes l' := by
  induction h with
  | slnil => exact Nat.le_refl _
  | cons e _ ih =>
    rw [sumBytes_cons]
    omega
  | cons_cons e _ ih =>
    rw [sumBytes_cons, sumBytes_cons]
    omega

variable {s : PathStore}

/-! ## Whole files -/

section NonShared

variable {T : ℕ}

/-- The numbers between two numbers of a rank are those of other ranks. -/
theorem mod_ne_of_between {n i : ℕ} (hlo : i + 1 ≤ n) (hhi : n < i + 1 + (T - 1)) :
    n % T ≠ i % T := by
  intro h
  have hmod := Nat.sub_mod_eq_zero_of_mod_eq h
  rw [Nat.mod_eq_of_lt (by omega)] at hmod
  omega

/-- A file counts for the rank if it has the right remainder. -/
def takes (T rank : ℕ) (f : PathStoreElem) (i : ℕ) (e : PathStoreElem) : Bool :=
  i % T = rank ∧ e = f

/-- The first file of a loop and the one after the next `T - 1` files. -/
theorem countFrom_takes (hT : 0 < T) (f e : PathStoreElem) (i : ℕ) (rest : List PathStoreElem) :
    countFrom (fun _ => 1) (takes T (i % T) f) i (e :: rest) =
      (decide (e = f)).toNat +
        countFrom (fun _ => 1) (takes T ((i + T) % T) f) (i + T) (rest.drop (T - 1)) := by
  have hhead : takes T (i % T) f i e = decide (e = f) := by
    simp only [takes, true_and]
  have hskip : ∀ e ∈ rest, ∀ n, i + 1 ≤ n → n < i + 1 + (T - 1) →
      takes T (i % T) f n e = false := fun e _ n hlo hhi =>
    decide_eq_false fun h => mod_ne_of_between hlo hhi h.1
  rw [countFrom_cons, hhead, countFrom_drop (T - 1) hskip, Nat.add_mod_right,
    show i + 1 + (T - 1) = i + T by omega]

/-- **The loop over whole files** adds a sublist of them that has the files of its rank. -/
theorem exists_nonSharedLoop (hs : s.Global) (hT : 0 < T)
    (hfits : s.numPaths + T < Word64.size) (n : ℕ) {i : ℕ} {l : List PathStoreElem}
    (hn : l.length ≤ n) (hne : l ≠ []) (hlen : i + l.length = s.numPaths)
    (hmem : ∀ e ∈ l, e ∈ s.paths) :
    ∃ new : List PathStoreElem, new.Sublist l ∧
      (∀ f, new.count f = countFrom (fun _ => 1) (takes T (i % T) f) i l) ∧
      Adds (fun throwOnSmaller out => s.nonSharedLoop T throwOnSmaller n i l out) new
        (sumBlocks s.blockSize new) := by
  induction n generalizing i l with
  | zero => exact absurd (List.length_eq_zero_iff.mp (Nat.le_zero.mp hn)) hne
  | succ n ih =>
    obtain ⟨e, rest, rfl⟩ := List.exists_cons_of_ne_nil hne
    rw [List.length_cons] at hn hlen
    obtain ⟨-, -, hlenE⟩ := hs.whole e (hmem e List.mem_cons_self)
    have hadd : Word64.add i T = i + T := Word64.add_eq (by omega)
    have hblocks : numBlocks e.totalLen s.blockSize = sumBlocks s.blockSize [e] := by
      rw [sumBlocks_cons, sumBlocks_nil, hlenE]
      rfl
    have hpush : ∀ out : PathStore, out.push e (if s.blockSize ≠ 0 then
        numBlocks e.totalLen s.blockSize else 0) e.totalLen =
        out.add [e] (sumBlocks s.blockSize [e]) := by
      intro out
      rw [if_pos (Nat.ne_of_gt hs.blockSize_pos), hblocks, ← hlenE, push_eq_add]
    have hdrop : (e :: rest).drop T = rest.drop (T - 1) := by
      rw [show T = T - 1 + 1 by omega, List.drop_succ_cons, Nat.add_sub_cancel]
    have hone : ∀ f, [e].count f = (decide (e = f)).toNat := by
      intro f
      rw [List.count_singleton]
      by_cases h : e = f <;> simp [h]
    by_cases hlast : s.numPaths ≤ i + T
    · refine ⟨[e], List.singleton_sublist.mpr List.mem_cons_self, fun f => ?_,
        fun throwOnSmaller out => ?_⟩
      · rw [countFrom_takes hT, List.drop_eq_nil_of_le (by omega), countFrom_nil, hone, Nat.add_zero]
      · simp only [nonSharedLoop, hadd, hpush, if_pos hlast]
        split_ifs with hsmall
        · exact Or.inr ⟨hsmall.1, _, rfl⟩
        · exact Or.inl rfl
    · obtain ⟨new, hsub, hcount, hadds⟩ := ih (i := i + T) (l := rest.drop (T - 1))
        (by rw [List.length_drop]; omega)
        (List.ne_nil_of_length_pos (by rw [List.length_drop]; omega))
        (by rw [List.length_drop]; omega)
        fun e he => hmem e (List.mem_cons_of_mem _ (List.mem_of_mem_drop he))
      refine ⟨e :: new, (hsub.trans (List.drop_sublist _ _)).cons_cons e, fun f => ?_,
        fun throwOnSmaller out => ?_⟩
      · rw [countFrom_takes hT, ← hcount, ← hone, ← List.count_append]
        rfl
      · simp only [nonSharedLoop, hadd, hpush, if_neg hlast, hdrop]
        split_ifs with hsmall
        · exact Or.inr ⟨hsmall.1, _, rfl⟩
        · rcases hadds throwOnSmaller (out.add [e] (sumBlocks s.blockSize [e])) with hok | herr
          · refine Or.inl (hok.trans ?_)
            rw [add_add, ← sumBlocks_append]
            rfl
          · exact Or.inr herr

/-- **The whole files of a rank.** -/
theorem exists_nonShared (hs : s.Global) (hT : 0 < T) (hfits : s.numPaths + T < Word64.size)
    {rank : ℕ} (hrank : rank < T) :
    ∃ new : List PathStoreElem, new.Sublist s.paths ∧
      (∀ f, new.count f = countFrom (fun _ => 1) (takes T rank f) 0 s.paths) ∧
      Adds (s.getWorkerSublistNonShared rank T s.numPaths) new (sumBlocks s.blockSize new) := by
  have hlen := hs.counted.numPaths_eq
  -- the files before the first one of the rank are those of other ranks
  have hskip : ∀ f, countFrom (fun _ => 1) (takes T rank f) 0 s.paths =
      countFrom (fun _ => 1) (takes T rank f) rank (s.paths.drop rank) := by
    intro f
    rw [countFrom_drop rank, Nat.zero_add]
    intro e _ n _ hlt
    refine decide_eq_false fun h => ?_
    rw [Nat.mod_eq_of_lt (by omega)] at h
    omega
  by_cases hbehind : s.numPaths ≤ rank
  · refine ⟨[], List.nil_sublist _, fun f => ?_, fun throwOnSmaller out => Or.inl ?_⟩
    · rw [hskip, List.drop_eq_nil_of_le (by omega)]
      rfl
    · rw [getWorkerSublistNonShared, if_pos hbehind, sumBlocks_nil, add_nil]
  · obtain ⟨new, hsub, hcount, hadds⟩ := exists_nonSharedLoop hs hT hfits s.numPaths (i := rank)
      (l := s.paths.drop rank) (by rw [List.length_drop]; omega)
      (List.ne_nil_of_length_pos (by rw [List.length_drop]; omega))
      (by rw [List.length_drop]; omega) fun e he => List.mem_of_mem_drop he
    refine ⟨new, hsub.trans (List.drop_sublist _ _), fun f => ?_, fun throwOnSmaller out => ?_⟩
    · rw [hcount, hskip, Nat.mod_eq_of_lt hrank]
    · rw [getWorkerSublistNonShared, if_neg hbehind]
      exact hadds throwOnSmaller out

end NonShared

/-! ## Shared files -/

section Shared

variable {first last : ℕ}

/-- A byte of a file counts for a part of the blocks if its block is in the part. -/
def inPart (blockSize first last : ℕ) (f : PathStoreElem) (x c : ℕ) (e : PathStoreElem) : Bool :=
  e = f ∧ x < e.totalLen ∧ first ≤ c + x / blockSize ∧ c + x / blockSize < last

/-- A part that begins before the end of a file begins in the file or before it. -/
theorem sub_mul_lt (hpos : 0 < s.blockSize) {e : PathStoreElem} {c : ℕ} (hlenPos : 0 < e.totalLen)
    (hfirst : first < c + numBlocks e.totalLen s.blockSize) :
    (first - c) * s.blockSize < e.totalLen :=
  have hblocks := numBlocks_pos hpos hlenPos
  (lt_numBlocks_iff hpos).mp (by omega)

/-- **The range of a file in a part.**  It begins where the part begins, or at the start of
the file, and ends where the part ends, or at the end of the file. -/
theorem sharedRange_eq (hpos : 0 < s.blockSize) {e : PathStoreElem} {c : ℕ}
    (hlenPos : 0 < e.totalLen) (hlt : e.totalLen < Word64.size) (hfirst : first < c + numBlocks e.totalLen s.blockSize)
    (hlast : last < Word64.size) (hle : first ≤ last) :
    s.sharedRange e first c (last - max first c) =
      ((first - c) * s.blockSize,
        min ((last - max first c) * s.blockSize) (e.totalLen - (first - c) * s.blockSize),
        last - (c + numBlocks e.totalLen s.blockSize)) := by
  have hblocks : numBlocks e.totalLen s.blockSize ≤ e.totalLen := numBlocks_le hpos
  have hinner := sub_mul_lt hpos hlenPos hfirst
  have hpair : (if first ≤ c then (0, numBlocks e.totalLen s.blockSize)
      else (Word64.mul (Word64.sub first c) s.blockSize,
        Word64.sub (numBlocks e.totalLen s.blockSize) (Word64.sub first c))) =
      ((first - c) * s.blockSize, numBlocks e.totalLen s.blockSize - (first - c)) := by
    split_ifs with h
    · rw [Nat.sub_eq_zero_of_le h, Nat.zero_mul, Nat.sub_zero]
    · rw [Word64.sub_eq (by omega) (by omega), Word64.mul_eq (by omega),
        Word64.sub_eq (by omega) (by omega)]
  unfold sharedRange
  simp only [hpair]
  split_ifs with hleft
  · -- the part ends in the file
    have hend : (last - max first c + (first - c)) * s.blockSize < e.totalLen :=
      (lt_numBlocks_iff hpos).mp (by omega)
    rw [Nat.add_mul] at hend
    rw [Word64.mul_eq (by omega), min_eq_left (by omega)]
    simp only [Prod.mk.injEq, true_and]
    omega
  · -- the part goes on behind the file
    have hend : e.totalLen ≤ (last - max first c + (first - c)) * s.blockSize :=
      (numBlocks_le_iff hpos).mp (by omega)
    rw [Nat.add_mul] at hend
    rw [Word64.sub_eq (Nat.le_of_lt hinner) hlt, min_eq_right (by omega), Word64.sub_eq (by omega) (by omega)]
    simp only [Prod.mk.injEq, true_and]
    omega

/-- The bytes of this range are those whose block is in the part. -/
theorem covers_sharedRange (hpos : 0 < s.blockSize) {e : PathStoreElem} {c : ℕ}
    (hwhole : e.file = e) (hlenPos : 0 < e.totalLen)
    (hfirst : first < c + numBlocks e.totalLen s.blockSize) (hc : c < last) (hle : first ≤ last) (f : PathStoreElem) (x : ℕ) :
    PathStoreElem.covers f x { e with
        rangeStart := (first - c) * s.blockSize
        rangeLen := min ((last - max first c) * s.blockSize)
          (e.totalLen - (first - c) * s.blockSize) } =
      inPart s.blockSize first last f x c e := by
  have hfile : PathStoreElem.file { e with
        rangeStart := (first - c) * s.blockSize
        rangeLen := min ((last - max first c) * s.blockSize)
          (e.totalLen - (first - c) * s.blockSize) } = e := hwhole
  have hlo : (first - c) * s.blockSize ≤ x ↔ first ≤ c + x / s.blockSize := by
    rw [← Nat.le_div_iff_mul_le hpos]
    generalize x / s.blockSize = q
    omega
  have hhi : x < (first - c) * s.blockSize + (last - max first c) * s.blockSize ↔
      c + x / s.blockSize < last := by
    rw [← div_lt_add_iff hpos]
    generalize x / s.blockSize = q
    omega
  have hinner := sub_mul_lt hpos hlenPos hfirst
  unfold PathStoreElem.covers inPart
  rw [hfile]
  simp only [decide_eq_decide]
  rw [← hlo, ← hhi]
  refine and_congr_right fun _ => ?_
  omega

/-- **The loop over shared files** adds the ranges of its part. -/
theorem exists_sharedLoop (hs : s.Global) (first last : ℕ) (hlast : last < Word64.size)
    (hle : first < last) {l : List PathStoreElem} {c : ℕ} (hmem : ∀ e ∈ l, e ∈ s.paths)
    (hbytes : c + sumBytes l < Word64.size) (hend : last ≤ c + sumBlocks s.blockSize l) :
    ∃ new : List PathStoreElem, (∀ e ∈ new, InFile s.blockSize s.paths e) ∧
      sumBytes new ≤ sumBytes l ∧ sumBlocks s.blockSize new = last - max first c ∧
      (∀ f x, new.countP (PathStoreElem.covers f x) =
        countFrom (fun e => numBlocks e.rangeLen s.blockSize)
          (inPart s.blockSize first last f x) c l) ∧
      Adds (fun throwOnSmaller out => some <$> s.sharedLoop first last throwOnSmaller l c
        (last - max first c) out) new 0 := by
  have hpos := hs.blockSize_pos
  induction l generalizing c with
  | nil =>
    rw [sumBlocks_nil] at hend
    refine ⟨[], fun e he => absurd he List.not_mem_nil, Nat.le_refl _, ?_, fun f x => rfl,
      fun throwOnSmaller out => Or.inl ?_⟩
    · rw [sumBlocks_nil]
      omega
    · rw [add_nil]
      rfl
  | cons e l ih =>
    obtain ⟨hlenPos, hstartE, hlenE⟩ := hs.whole e (hmem e List.mem_cons_self)
    have hwhole := PathStoreElem.file_eq_self hstartE hlenE
    have hmem' : ∀ e ∈ l, e ∈ s.paths := fun e he => hmem e (List.mem_cons_of_mem _ he)
    rw [sumBytes_cons, hlenE] at hbytes
    rw [sumBlocks_cons, hlenE] at hend
    have hblocks : numBlocks e.totalLen s.blockSize ≤ e.totalLen := numBlocks_le hpos
    have hblocksPos := numBlocks_pos hpos hlenPos
    have hnext : Word64.add c (numBlocks e.totalLen s.blockSize) =
        c + numBlocks e.totalLen s.blockSize := Word64.add_eq (by omega)
    have hprev : Word64.sub (c + numBlocks e.totalLen s.blockSize) 1 =
        c + numBlocks e.totalLen s.blockSize - 1 := Word64.sub_eq (by omega) (by omega)
    by_cases hc : c < last
    · obtain ⟨new, hin, hsum, hsumBlocks, hcount, hadds⟩ :=
        ih (c := c + numBlocks e.totalLen s.blockSize) hmem' (by omega) (by omega)
      have hsplit : ∀ f x, countFrom (fun e => numBlocks e.rangeLen s.blockSize)
          (inPart s.blockSize first last f x) c (e :: l) =
          (inPart s.blockSize first last f x c e).toNat +
            new.countP (PathStoreElem.covers f x) := by
        intro f x
        rw [countFrom_cons, hlenE, hcount]
      by_cases hskip : c + numBlocks e.totalLen s.blockSize - 1 < first
      · -- the file is before the part
        refine ⟨new, hin, by rw [sumBytes_cons]; omega, by omega, fun f x => ?_,
          fun throwOnSmaller out => ?_⟩
        · have hout : inPart s.blockSize first last f x c e = false := by
            refine decide_eq_false fun h => ?_
            have hx : x / s.blockSize < numBlocks e.totalLen s.blockSize :=
              (lt_numBlocks_iff hpos).mpr ((Nat.div_mul_le_self _ _).trans_lt h.2.1)
            omega
          rw [hsplit, hout, Bool.toNat_false, Nat.zero_add]
        · have hleft : last - max first c =
              last - max first (c + numBlocks e.totalLen s.blockSize) := by omega
          simp only [sharedLoop, if_pos hc, if_neg (Nat.ne_of_gt hpos), if_neg (Nat.ne_of_gt hlenPos),
            hnext, hprev, if_pos hskip, hleft]
          exact hadds throwOnSmaller out
      · -- the file has blocks of the part
        have hfirst : first < c + numBlocks e.totalLen s.blockSize := by omega
        have hlt : e.totalLen < Word64.size := by omega
        have hrange := sharedRange_eq hpos hlenPos hlt hfirst hlast (Nat.le_of_lt hle)
        have hnum : numBlocks (min ((last - max first c) * s.blockSize)
            (e.totalLen - (first - c) * s.blockSize)) s.blockSize =
            min (last - max first c) (numBlocks e.totalLen s.blockSize - (first - c)) :=
          numBlocks_min_sub hpos
        have hcov := covers_sharedRange hpos hwhole hlenPos hfirst hc (Nat.le_of_lt hle)
        generalize hrangeLen : min ((last - max first c) * s.blockSize)
          (e.totalLen - (first - c) * s.blockSize) = rangeLen at hrange hnum hcov
        have hinner := sub_mul_lt hpos hlenPos hfirst
        have hrangePos : 0 < rangeLen := by
          rw [← hrangeLen]
          exact lt_min (Nat.mul_pos (by omega) hpos) (by omega)
        refine ⟨⟨e.path, e.totalLen, (first - c) * s.blockSize, rangeLen⟩ :: new, ?_, ?_, ?_,
          fun f x => ?_, fun throwOnSmaller out => ?_⟩
        · refine List.forall_mem_cons.mpr ⟨⟨?_, Nat.dvd_mul_left _ _, hrangePos, ?_⟩, hin⟩
          · have hmemE := hmem e List.mem_cons_self
            rwa [← hwhole] at hmemE
          · show (first - c) * s.blockSize + rangeLen ≤ e.totalLen
            omega
        · rw [sumBytes_cons, sumBytes_cons]
          show rangeLen + _ ≤ _
          omega
        · rw [sumBlocks_cons]
          show numBlocks rangeLen s.blockSize + _ = _
          omega
        · rw [hsplit, List.countP_cons, hcov f x]
          cases inPart s.blockSize first last f x c e <;> simp [Nat.add_comm]
        · have hleft : last - (c + numBlocks e.totalLen s.blockSize) =
              last - max first (c + numBlocks e.totalLen s.blockSize) := by omega
          simp only [sharedLoop, if_pos hc, if_neg (Nat.ne_of_gt hpos), if_neg (Nat.ne_of_gt hlenPos),
            hnext, hprev, if_neg hskip, hrange, hleft]
          split_ifs with hsmall
          · exact Or.inr ⟨hsmall.1, _, rfl⟩
          · rcases hadds throwOnSmaller (out.push ⟨e.path, e.totalLen, (first - c) * s.blockSize,
              rangeLen⟩ 0 rangeLen) with hok | herr
            · refine Or.inl (hok.trans ?_)
              rw [push_eq_add out ⟨e.path, e.totalLen, (first - c) * s.blockSize, rangeLen⟩, add_add]
              rfl
            · exact Or.inr herr
    · -- the part ends before the file
      refine ⟨[], fun e he => absurd he List.not_mem_nil, Nat.zero_le _, ?_, fun f x => ?_,
        fun throwOnSmaller out => Or.inl ?_⟩
      · rw [sumBlocks_nil]
        omega
      · rw [countFrom_eq_zero]
        · rfl
        · intro e _ n hn
          refine decide_eq_false fun h => ?_
          have := Nat.zero_le (x / s.blockSize)
          omega
      · simp only [sharedLoop, if_neg hc, add_nil]
        rfl

/-- The blocks of a rank, as the function computes them. -/
theorem part_eq {T rank : ℕ} (hrank : rank < T) :
    s.startBlock rank T = border s.numBlocksTotal T rank ∧
      s.thisWorkerNumBlocks rank T = share s.numBlocksTotal T rank ∧
      Word64.add (s.startBlock rank T) (s.thisWorkerNumBlocks rank T) =
        border s.numBlocksTotal T (rank + 1) := by
  have hlt := s.numBlocksTotal_lt
  have hpred := div_mul_pred_le s.numBlocksTotal T
  have hle := border_le s.numBlocksTotal T rank
  have hnext := border_le s.numBlocksTotal T (rank + 1)
  have hadd := border_add_share hrank s.numBlocksTotal
  have hstart : s.startBlock rank T = border s.numBlocksTotal T rank := by
    unfold border at hle ⊢
    rw [if_pos hrank] at hle ⊢
    exact Word64.mul_eq (lt_of_le_of_lt hle hlt)
  have hshare : s.thisWorkerNumBlocks rank T = share s.numBlocksTotal T rank := by
    rw [thisWorkerNumBlocks, Word64.mul_eq (lt_of_le_of_lt hpred hlt), Word64.sub_eq hpred hlt]
    rfl
  refine ⟨hstart, hshare, ?_⟩
  rw [hstart, hshare, Word64.add_eq (by omega), hadd]

/-- The blocks are counted at the end. -/
theorem Adds.addBlocks {call : Bool → PathStore → Except Stop PathStore}
    {new : List PathStoreElem}
    (h : Adds (fun throwOnSmaller out => some <$> call throwOnSmaller out) new 0) (m : ℕ) :
    Adds (fun throwOnSmaller out =>
      some <$> (fun out' => out'.addBlocks m) <$> call throwOnSmaller out) new m := by
  intro throwOnSmaller out
  have hcall := h throwOnSmaller out
  dsimp only at hcall ⊢
  cases hres : call throwOnSmaller out with
  | error stop =>
    rw [hres] at hcall
    rcases hcall with hok | herr
    · cases hok
    · exact Or.inr herr
  | ok out' =>
    rw [hres] at hcall
    rcases hcall with hok | ⟨-, msg, herr⟩
    · obtain rfl := Option.some.inj (Except.ok.inj hok)
      refine Or.inl ?_
      show Except.ok (some ((out.add new 0).addBlocks m)) = _
      rw [addBlocks_eq_add, add_add, List.append_nil, Nat.zero_add]
    · cases herr

/-- **The shared ranges of a rank.** -/
theorem exists_shared (hs : s.Global) {T rank : ℕ} (hrank : rank < T) :
    ∃ new : List PathStoreElem, (∀ e ∈ new, InFile s.blockSize s.paths e) ∧
      sumBytes new ≤ sumBytes s.paths ∧
      (∀ f x, new.countP (PathStoreElem.covers f x) =
        countFrom (fun e => numBlocks e.rangeLen s.blockSize) (inPart s.blockSize
          (border s.numBlocksTotal T rank) (border s.numBlocksTotal T (rank + 1)) f x) 0 s.paths) ∧
      Adds (fun throwOnSmaller out => some <$> s.getWorkerSublistShared rank T throwOnSmaller out)
        new (sumBlocks s.blockSize new) := by
  obtain ⟨hstart, hshare, hend⟩ := part_eq (s := s) hrank
  have hadd := border_add_share hrank s.numBlocksTotal
  have htotal := hs.counted.numBlocksTotal_eq
  have hlast := border_le s.numBlocksTotal T (rank + 1)
  have hlt := s.numBlocksTotal_lt
  have hbytes := s.numBytesTotal_lt
  rw [hs.counted.numBytesTotal_eq] at hbytes
  by_cases hnone : s.paths = [] ∨ share s.numBlocksTotal T rank = 0
  · -- there is nothing for this rank
    refine ⟨[], fun e he => absurd he List.not_mem_nil, Nat.zero_le _, fun f x => ?_,
      fun throwOnSmaller out => Or.inl ?_⟩
    · rcases hnone with hnil | hzero
      · rw [hnil]
        rfl
      · rw [countFrom_eq_zero]
        · rfl
        · intro e _ n _
          exact decide_eq_false fun h => by omega
    · have hcall : s.getWorkerSublistShared rank T throwOnSmaller out = .ok out := by
        unfold getWorkerSublistShared
        rcases hnone with hnil | hzero
        · rw [if_pos hnil]
        · rw [hshare, if_neg (show ¬ T = 0 by omega), if_pos hzero, ite_self]
      rw [sumBlocks_nil, add_nil]
      exact congrArg (some <$> ·) hcall
  · obtain ⟨hne, hpos⟩ := not_or.mp hnone
    obtain ⟨new, hin, hsum, hblocks, hcount, hadds⟩ :=
      exists_sharedLoop hs (border s.numBlocksTotal T rank) (border s.numBlocksTotal T (rank + 1))
        (l := s.paths) (c := 0) (by omega) (by omega) (fun e he => he) (by omega) (by omega)
    have hleft : border s.numBlocksTotal T (rank + 1) - max (border s.numBlocksTotal T rank) 0 =
        share s.numBlocksTotal T rank := by omega
    rw [hleft] at hblocks hadds
    have hcall : s.getWorkerSublistShared rank T = fun throwOnSmaller out =>
        (fun out' => out'.addBlocks (share s.numBlocksTotal T rank)) <$>
          s.sharedLoop (border s.numBlocksTotal T rank) (border s.numBlocksTotal T (rank + 1))
            throwOnSmaller s.paths 0 (share s.numBlocksTotal T rank) out := by
      funext throwOnSmaller out
      unfold getWorkerSublistShared
      rw [if_neg hne, if_neg (show ¬ T = 0 by omega), hend, hshare, hstart, if_neg hpos]
    refine ⟨new, hin, hsum, hcount, ?_⟩
    rw [hcall, hblocks]
    exact hadds.addBlocks _

end Shared

/-! ## Blocks in turn -/

section RoundRobin

variable {T rank : ℕ}

/-- A byte of a file counts for the rank whose turn its block is. -/
def inTurn (blockSize T rank : ℕ) (f : PathStoreElem) (x c : ℕ) (e : PathStoreElem) : Bool :=
  e = f ∧ x < e.totalLen ∧ (c + x / blockSize) % T = rank

/-- The same for the bytes from some block of the file on. -/
def inTurnFrom (blockSize T rank : ℕ) (f : PathStoreElem) (x c j : ℕ) (e : PathStoreElem) : Bool :=
  e = f ∧ x < e.totalLen ∧ (c + x / blockSize) % T = rank ∧ j ≤ x / blockSize

/-- The bytes of a block and of the blocks behind it. -/
theorem inTurnFrom_eq (blockSize : ℕ) (f : PathStoreElem) (x c j : ℕ) (e : PathStoreElem) :
    (inTurnFrom blockSize T rank f x c j e).toNat =
      (decide (e = f ∧ x < e.totalLen ∧ (c + j) % T = rank ∧ x / blockSize = j)).toNat +
        (inTurnFrom blockSize T rank f x c (j + 1) e).toNat := by
  unfold inTurnFrom
  generalize x / blockSize = q
  by_cases hq : q = j
  · subst hq
    have hlater : ¬ (e = f ∧ x < e.totalLen ∧ (c + q) % T = rank ∧ q + 1 ≤ q) := fun h => by omega
    rw [decide_eq_false hlater, Bool.toNat_false, Nat.add_zero]
    simp only [le_refl]
  · have hother : ¬ (e = f ∧ x < e.totalLen ∧ (c + j) % T = rank ∧ q = j) := fun h => hq h.2.2.2
    rw [decide_eq_false hother, Bool.toNat_false, Nat.zero_add]
    have hlater : j ≤ q ↔ j + 1 ≤ q := by omega
    simp only [hlater]

/-- The range of one block, which may be a short one. -/
theorem covers_block (hpos : 0 < s.blockSize) {e : PathStoreElem} (hwhole : e.file = e) {j : ℕ}
    (hj : j * s.blockSize < e.totalLen) (f : PathStoreElem) (x : ℕ) :
    PathStoreElem.covers f x { e with
        rangeStart := j * s.blockSize
        rangeLen := min (e.totalLen - j * s.blockSize) s.blockSize } =
      decide (e = f ∧ x < e.totalLen ∧ x / s.blockSize = j) := by
  have hfile : PathStoreElem.file { e with
        rangeStart := j * s.blockSize
        rangeLen := min (e.totalLen - j * s.blockSize) s.blockSize } = e := hwhole
  have hblock : x / s.blockSize = j ↔ j * s.blockSize ≤ x ∧ x < j * s.blockSize + s.blockSize := by
    rw [Nat.div_eq_iff hpos, Nat.mul_comm]
    omega
  unfold PathStoreElem.covers
  rw [hfile]
  simp only [decide_eq_decide]
  rw [hblock]
  refine and_congr_right fun _ => ?_
  omega

/-- **The loop over the blocks of a file** adds those of its turns. -/
theorem exists_roundRobinFile (hs : s.Global) (T rank : ℕ) {e : PathStoreElem} (he : e ∈ s.paths)
    (hfits : e.totalLen + s.blockSize < Word64.size) {c : ℕ}
    (hblocks : c + numBlocks e.totalLen s.blockSize < Word64.size) (n : ℕ) {j : ℕ}
    (hj : j ≤ numBlocks e.totalLen s.blockSize)
    (hn : numBlocks e.totalLen s.blockSize - j < n) :
    ∃ new : List PathStoreElem, (∀ r ∈ new, InFile s.blockSize s.paths r) ∧
      sumBytes new ≤ e.totalLen - j * s.blockSize ∧
      (∀ f x, new.countP (PathStoreElem.covers f x) =
        (inTurnFrom s.blockSize T rank f x c j e).toNat) ∧
      ∀ throwOnSmaller out,
        s.roundRobinFile rank T throwOnSmaller e n (j * s.blockSize) (c + j) out =
          .ok (some (c + numBlocks e.totalLen s.blockSize,
            out.add new (sumBlocks s.blockSize new))) ∨
        throwOnSmaller = true ∧ ∃ msg,
          s.roundRobinFile rank T throwOnSmaller e n (j * s.blockSize) (c + j) out =
            .error (.threw msg) := by
  have hpos := hs.blockSize_pos
  obtain ⟨-, hstartE, hlenE⟩ := hs.whole e he
  have hwhole := PathStoreElem.file_eq_self hstartE hlenE
  induction n generalizing j with
  | zero => omega
  | succ n ih =>
    have hlt_iff := lt_numBlocks_iff (n := e.totalLen) hpos (c := j)
    by_cases hend : j * s.blockSize < e.totalLen
    · have hblock := hlt_iff.mpr hend
      have hsucc := Nat.add_one_mul j s.blockSize
      have hnextOffset : Word64.add (j * s.blockSize) s.blockSize = (j + 1) * s.blockSize := by
        rw [Word64.add_eq (by omega), hsucc]
      have hnextBlock : Word64.add (c + j) 1 = c + (j + 1) := Word64.add_eq (by omega)
      have hleft : Word64.sub e.totalLen (j * s.blockSize) = e.totalLen - j * s.blockSize :=
        Word64.sub_eq (by omega) (by omega)
      have hrangeLen : (if e.totalLen - j * s.blockSize < s.blockSize then
          e.totalLen - j * s.blockSize else s.blockSize) =
          min (e.totalLen - j * s.blockSize) s.blockSize := by
        split_ifs <;> omega
      obtain ⟨new, hin, hsum, hcount, hadds⟩ := ih (j := j + 1) (by omega) (by omega)
      have hsplit : ∀ f x, (inTurnFrom s.blockSize T rank f x c j e).toNat =
          (decide (e = f ∧ x < e.totalLen ∧ (c + j) % T = rank ∧ x / s.blockSize = j)).toNat +
            new.countP (PathStoreElem.covers f x) := by
        intro f x
        rw [hcount, inTurnFrom_eq]
      by_cases hturn : rank = (c + j) % T
      · -- the block is taken
        have hcov := covers_block (s := s) hpos hwhole hend
        have hnum : numBlocks (min (e.totalLen - j * s.blockSize) s.blockSize) s.blockSize = 1 := by
          have hmin := numBlocks_min_sub (n := e.totalLen) (m := j) (k := 1) hpos
          rw [Nat.one_mul, min_comm] at hmin
          omega
        generalize hlen : min (e.totalLen - j * s.blockSize) s.blockSize = rangeLen
          at hrangeLen hcov hnum
        refine ⟨⟨e.path, e.totalLen, j * s.blockSize, rangeLen⟩ :: new, ?_, ?_, fun f x => ?_,
          fun throwOnSmaller out => ?_⟩
        · refine List.forall_mem_cons.mpr ⟨⟨?_, Nat.dvd_mul_left _ _, ?_, ?_⟩, hin⟩
          · rwa [← hwhole] at he
          · show 0 < rangeLen
            omega
          · show j * s.blockSize + rangeLen ≤ e.totalLen
            omega
        · rw [sumBytes_cons]
          show rangeLen + _ ≤ _
          omega
        · rw [List.countP_cons, hcov f x, hsplit]
          simp only [← hturn, true_and, decide_eq_true_eq]
          split_ifs with h
          · rw [decide_eq_true h, Bool.toNat_true, Nat.add_comm]
          · rw [decide_eq_false h, Bool.toNat_false, Nat.zero_add, Nat.add_zero]
        · simp only [roundRobinFile, if_pos hend, if_pos hturn, hleft, hrangeLen, hnextOffset,
            hnextBlock]
          split_ifs with hsmall
          · exact Or.inr ⟨hsmall.1, _, rfl⟩
          · rcases hadds throwOnSmaller (out.push ⟨e.path, e.totalLen, j * s.blockSize, rangeLen⟩ 1
              rangeLen) with hok | herr
            · refine Or.inl (hok.trans ?_)
              rw [push_eq_add out ⟨e.path, e.totalLen, j * s.blockSize, rangeLen⟩, add_add,
                sumBlocks_cons]
              show _ = Except.ok (some (_, out.add _ (numBlocks rangeLen s.blockSize + _)))
              rw [hnum]
              rfl
            · exact Or.inr herr
      · -- the block is that of another rank
        refine ⟨new, hin, by omega, fun f x => ?_, fun throwOnSmaller out => ?_⟩
        · rw [hsplit, decide_eq_false fun h => hturn h.2.2.1.symm, Bool.toNat_false, Nat.zero_add]
        · simp only [roundRobinFile, if_pos hend, if_neg hturn, hnextOffset, hnextBlock]
          exact hadds throwOnSmaller out
    · -- the file has no more blocks
      have hdone : j = numBlocks e.totalLen s.blockSize := by omega
      refine ⟨[], fun r hr => absurd hr List.not_mem_nil, Nat.zero_le _, fun f x => ?_,
        fun throwOnSmaller out => Or.inl ?_⟩
      · have hout : inTurnFrom s.blockSize T rank f x c j e = false := by
          refine decide_eq_false fun h => ?_
          have hx := (lt_numBlocks_iff hpos).mpr ((Nat.div_mul_le_self _ _).trans_lt h.2.1)
          omega
        rw [hout]
        rfl
      · simp only [roundRobinFile, if_neg hend, sumBlocks_nil, add_nil, ← hdone]

/-- **The loop over the files** adds the blocks of the turns of its rank. -/
theorem exists_roundRobinLoop (hs : s.Global) (T rank : ℕ) {n : ℕ} {l : List PathStoreElem} {c : ℕ}
    (hmem : ∀ e ∈ l, e ∈ s.paths) (hfits : ∀ e ∈ l, e.totalLen + s.blockSize < Word64.size)
    (hblocks : c + sumBlocks s.blockSize l < Word64.size)
    (hn : ∀ e ∈ l, numBlocks e.totalLen s.blockSize < n) :
    ∃ new : List PathStoreElem, (∀ r ∈ new, InFile s.blockSize s.paths r) ∧
      sumBytes new ≤ sumBytes l ∧
      (∀ f x, new.countP (PathStoreElem.covers f x) =
        countFrom (fun e => numBlocks e.rangeLen s.blockSize) (inTurn s.blockSize T rank f x) c l) ∧
      Adds (fun throwOnSmaller out => s.roundRobinLoop rank T n throwOnSmaller l c out) new
        (sumBlocks s.blockSize new) := by
  induction l generalizing c with
  | nil =>
    exact ⟨[], fun r hr => absurd hr List.not_mem_nil, Nat.le_refl _, fun f x => rfl,
      fun throwOnSmaller out => Or.inl (by rw [sumBlocks_nil, add_nil]; rfl)⟩
  | cons e l ih =>
    have he := hmem e List.mem_cons_self
    obtain ⟨hlenPos, -, hlenE⟩ := hs.whole e he
    rw [sumBlocks_cons, hlenE] at hblocks
    obtain ⟨first, hinFirst, hsumFirst, hcountFirst, haddsFirst⟩ :=
      exists_roundRobinFile hs T rank he (hfits e List.mem_cons_self) (c := c) (by omega) n
        (j := 0) (Nat.zero_le _) (by have := hn e List.mem_cons_self; omega)
    obtain ⟨rest, hin, hsum, hcount, hadds⟩ :=
      ih (c := c + numBlocks e.totalLen s.blockSize) (fun e he => hmem e (List.mem_cons_of_mem _ he))
        (fun e he => hfits e (List.mem_cons_of_mem _ he)) (by omega)
        fun e he => hn e (List.mem_cons_of_mem _ he)
    refine ⟨first ++ rest, ?_, ?_, fun f x => ?_, fun throwOnSmaller out => ?_⟩
    · intro r hr
      rcases List.mem_append.mp hr with hr | hr
      · exact hinFirst r hr
      · exact hin r hr
    · rw [sumBytes_append, sumBytes_cons]
      omega
    · rw [List.countP_append, hcountFirst, hcount, countFrom_cons, hlenE]
      simp only [inTurnFrom, inTurn, Nat.zero_le, and_true]
    · simp only [roundRobinLoop, if_neg (Nat.ne_of_gt hlenPos)]
      have hfile := haddsFirst throwOnSmaller out
      rw [Nat.zero_mul, Nat.add_zero] at hfile
      rcases hfile with hok | ⟨hthrow, msg, herr⟩
      · rw [hok]
        dsimp only
        rcases hadds throwOnSmaller (out.add first (sumBlocks s.blockSize first)) with hok | herr
        · refine Or.inl (hok.trans ?_)
          rw [add_add, ← sumBlocks_append]
        · exact Or.inr herr
      · rw [herr]
        exact Or.inr ⟨hthrow, msg, rfl⟩

/-- The blocks of a file are not more than those of the list. -/
theorem numBlocks_le_sumBlocks {blockSize : ℕ} {l : List PathStoreElem} {e : PathStoreElem}
    (he : e ∈ l) : numBlocks e.rangeLen blockSize ≤ sumBlocks blockSize l := by
  obtain ⟨before, behind, rfl⟩ := List.append_of_mem he
  rw [sumBlocks_append, sumBlocks_cons]
  omega

/-- **The blocks of a rank in turn.** -/
theorem exists_roundRobin (hs : s.Global) (hT : 0 < T) (rank : ℕ)
    (hfits : sumBytes s.paths + s.blockSize < Word64.size) :
    ∃ new : List PathStoreElem, (∀ r ∈ new, InFile s.blockSize s.paths r) ∧
      sumBytes new ≤ sumBytes s.paths ∧
      (∀ f x, new.countP (PathStoreElem.covers f x) =
        countFrom (fun e => numBlocks e.rangeLen s.blockSize) (inTurn s.blockSize T rank f x) 0
          s.paths) ∧
      Adds (s.getWorkerSublistSharedRoundRobin rank T (s.numBlocksTotal + 1)) new
        (sumBlocks s.blockSize new) := by
  have hpos := hs.blockSize_pos
  have htotal := hs.counted.numBlocksTotal_eq
  have hlt := s.numBlocksTotal_lt
  have hle : ∀ e ∈ s.paths, e.totalLen ≤ sumBytes s.paths := by
    intro e he
    have hsub := sumBytes_sublist (List.singleton_sublist.mpr he)
    rw [sumBytes_cons, (hs.whole e he).2.2] at hsub
    omega
  have hblocks : ∀ e ∈ s.paths, numBlocks e.totalLen s.blockSize ≤ s.numBlocksTotal := by
    intro e he
    rw [htotal, ← (hs.whole e he).2.2]
    exact numBlocks_le_sumBlocks he
  obtain ⟨new, hin, hsum, hcount, hadds⟩ :=
    exists_roundRobinLoop hs T rank (n := s.numBlocksTotal + 1) (l := s.paths) (c := 0)
      (fun e he => he) (fun e he => by have := hle e he; omega) (by omega)
      fun e he => Nat.lt_succ_of_le (hblocks e he)
  refine ⟨new, hin, hsum, hcount, fun throwOnSmaller out => ?_⟩
  have hcall := hadds throwOnSmaller out
  unfold getWorkerSublistSharedRoundRobin
  by_cases hnil : s.paths = []
  · rw [if_pos hnil]
    rw [hnil] at hcall
    exact hcall
  · rw [if_neg hnil, if_neg (Nat.ne_of_gt hT)]
    exact hcall

end RoundRobin

end PathStore

end Elbencho
