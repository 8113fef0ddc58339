import Elbencho.S3.UploadLedger

/-!
# Shared objects are completed once

`SharedFile` is a file of which the lists of the workers have all bytes, in ranges that begin at
blocks; `CoversFiles.sharedFile` gives it for the files of a tree.  From the account of the object
follow **`SharedFile.completes_whole`**, for all runs, and **`SharedFile.completed_once`**, for the
runs that no worker ends with an error.
-/

namespace Elbencho

open Transition Parties

section Completion

variable {n : ℕ} {args : UploadArgs} {name : String} {whole : List Part} {s : UploadRun n}
  {w : Fin n} {lists : Fin n → List PathStoreElem}

/-- An object is completed at most once, and with all parts. -/
theorem Ledger.completedLists_eq (h : Ledger args name whole s) (hne : whole ≠ []) :
    completedLists name s.requests = [] ∨ completedLists name s.requests = [whole] := by
  match hlists : completedLists name s.requests with
  | [] => exact Or.inl rfl
  | [list] => exact Or.inr (by rw [h.completed list (hlists ▸ List.mem_cons_self)])
  | list :: list' :: rest =>
    obtain ⟨q, hq⟩ := List.exists_mem_of_ne_nil _ hne
    have hpos := List.count_pos_iff.mpr hq
    have hle := h.sent_le q
    have hle' := h.le_sent q
    rw [keptCount, hlists, h.completed list (hlists ▸ List.mem_cons_self),
      h.completed list' (hlists ▸ List.mem_cons_of_mem _ List.mem_cons_self), List.flatten_cons,
      List.flatten_cons, List.count_append, List.count_append] at hle'
    omega

/-- What was uploaded, if all parts are in a list. -/
theorem Ledger.uploaded_perm (h : Ledger args name whole s)
    (hall : ∀ q, whole.count q ≤ ∑ w, (s.worker w).uploaded name q +
      keptCount name s.map s.requests q) : (uploadedParts name s.requests).Perm whole := by
  refine List.perm_iff_count.mpr fun q => ?_
  have hle := h.sent_le q
  have hle' := h.le_sent q
  have hq := hall q
  omega

/-- A worker that is about to complete the upload has all parts, and is the first one. -/
theorem Ledger.completing_whole (h : Ledger args name whole s) (hne : whole ≠ []) {uploadID : ℕ}
    {parts : List Part} {todo : List PathStoreElem}
    (hw : s.worker w = .completing name uploadID parts todo) :
    parts = whole ∧ (uploadedParts name s.requests).Perm whole ∧
      completedLists name s.requests = [] := by
  obtain rfl := (h.ok hw).2 rfl
  refine ⟨rfl, h.uploaded_perm fun q => ?_,
    (h.completedLists_eq hne).resolve_right fun hlists => ?_⟩
  · have hle := le_sum (fun x => Uploader.uploaded name x q) s.worker w
    have hmine : (s.worker w).uploaded name q = parts.count q := by simp [hw]
    exact (hmine.symm.trans_le hle).trans (Nat.le_add_right _ _)
  · obtain ⟨q, hq⟩ := List.exists_mem_of_ne_nil _ hne
    have hpos := List.count_pos_iff.mpr hq
    have hle := h.count_le w q
    simp [keptCount, hw, hlists] at hle
    omega

/-- At the end all parts are in a completion request: an entry of the map would have all bytes. -/
theorem Ledger.completed_of_terminated (h : Ledger args name whole s) (hne : whole ≠ [])
    (hend : ∀ w, s.worker w = .terminated false) :
    (uploadedParts name s.requests).Perm whole ∧ completedLists name s.requests = [whole] := by
  have hkept (q : Part) : keptCount name s.map s.requests q = whole.count q := by
    have hle := h.sent_le q
    have hle' := h.le_sent q
    have hge := (h.lossless fun w hw => by rw [hend w] at hw; cases hw).2 q
    simp only [hend, Uploader.pending, Uploader.uploaded, Uploader.answered, Uploader.listed,
      Nat.add_zero, Finset.sum_const_zero] at hle hle' hge
    omega
  refine ⟨h.uploaded_perm fun q => (hkept q).ge.trans (Nat.le_add_left _ _),
    (h.completedLists_eq hne).resolve_left fun hnil => ?_⟩
  have hperm : (s.map.parts name).Perm whole := List.perm_iff_count.mpr fun q => by
    rw [← hkept q, keptCount, hnil]
    rfl
  unfold S3UploadMap.parts at hperm
  cases hlookup : s.map.lookup name with
  | none =>
    rw [hlookup] at hperm
    exact hne hperm.nil_eq.symm
  | some elem =>
    rw [hlookup] at hperm
    obtain ⟨hbytes, hlt⟩ := h.entry elem hlookup
    have hsize : totalSize elem.completedParts = totalSize whole := (hperm.map _).sum_eq
    omega

/-! ## Files in ranges -/

/-- **A file that workers share**: their lists have all its bytes in ranges that begin at blocks. -/
structure SharedFile (args : UploadArgs) (lists : Fin n → List PathStoreElem) (f : PathStoreElem) :
    Prop where
  completes : args.s3NoMpuCompletion = false
  fails_on_404 : args.s3IgnoreMultipartUpload404 = false
  totalLen_pos : 0 < f.totalLen
  totalLen_lt : f.totalLen < Word64.size
  covered : Covered args.blockSize f ((List.finRange n).flatMap lists)
  shared : ∀ w, ∀ e ∈ lists w, e.path = f.path → e.file = f ∧ e.Shared

variable {f : PathStoreElem}

theorem SharedFile.assigned (h : SharedFile args lists f) :
    Assigned args f.path (objectParts args.blockSize f.totalLen) lists := by
  obtain ⟨hcons, hsize⟩ := consecutive_objectParts args.blockSize_pos f.totalLen
  refine ⟨h.completes, h.fails_on_404, fun hnil => ?_, hcons, hsize.trans_lt h.totalLen_lt,
    fun q => ?_, fun w e he hname => ?_⟩
  · rw [hnil] at hsize
    exact h.totalLen_pos.ne hsize
  · have hparts : ∀ e ∈ (List.finRange n).flatMap lists, e.file = f → (args.entryParts e).Perm
        ((List.range (Blocks.numBlocks e.rangeLen args.blockSize)).map
          (rangePart args.blockSize e.rangeStart e.rangeLen)) := by
      intro e he hfile
      obtain ⟨parts, hparts, hperm⟩ := exists_rangeParts args.toSharedWriteArgs args.randOffsetAlgo
        (h.covered.rangeLen_pos e he hfile)
        (lt_of_le_of_lt (h.covered.end_le e he hfile) h.totalLen_lt)
      rwa [UploadArgs.entryParts, hparts, Option.getD_some]
    rw [← (h.covered.perm_objectParts h.totalLen_lt hparts).count_eq q, List.count_flatMap,
      List.map_flatMap, List.flatMap, List.sum_flatten, List.map_map, Fin.sum_univ_def]
    refine congrArg List.sum (List.map_congr_left fun w _ => congrArg List.sum
      (List.map_congr_left fun e he => ?_))
    by_cases hname : e.path = f.path
    · rw [if_pos hname, Function.comp_apply, if_pos (h.shared w e he hname).1]
    · rw [if_neg hname, Function.comp_apply, if_neg fun hfile => hname ?_, List.count_nil]
      exact (congrArg PathStoreElem.path hfile :)
  · obtain ⟨hfile, hshared⟩ := h.shared w e he hname
    exact ⟨hshared, (congrArg PathStoreElem.totalLen hfile :).trans hsize.symm⟩

/-! ## Main statements -/

/-- **A completion has all parts.**  In every run, whatever fails: the file is completed at most
once and with all its blocks in their order, and a worker that is about to complete it has them
all, each of them uploaded once. -/
theorem SharedFile.completes_whole (h : SharedFile args lists f)
    (hs : Reach (UploadRun.step args) anyStep (UploadRun.start lists) s) :
    (completedLists f.path s.requests = [] ∨
      completedLists f.path s.requests = [objectParts args.blockSize f.totalLen]) ∧
    ∀ w uploadID parts todo, s.worker w = .completing f.path uploadID parts todo →
      parts = objectParts args.blockSize f.totalLen ∧
      (uploadedParts f.path s.requests).Perm (objectParts args.blockSize f.totalLen) ∧
      completedLists f.path s.requests = [] := by
  have hledger := Ledger.of_reach h.assigned hs
  exact ⟨hledger.completedLists_eq h.assigned.ne_nil,
    fun _ _ _ _ => hledger.completing_whole h.assigned.ne_nil⟩

/-- **Every shared file is completed.**  In every run that all workers end without an error, every
block of the file was uploaded once, and one completion request has them in their order. -/
theorem SharedFile.completed_once (h : SharedFile args lists f)
    (hs : Reach (UploadRun.step args) anyStep (UploadRun.start lists) s)
    (hend : ∀ w, s.worker w = .terminated false) :
    (uploadedParts f.path s.requests).Perm (objectParts args.blockSize f.totalLen) ∧
      completedLists f.path s.requests = [objectParts args.blockSize f.totalLen] :=
  (Ledger.of_reach h.assigned hs).completed_of_terminated h.assigned.ne_nil hend

/-- **The ranks of a tree share its files.**  If a rank gets a range of a file that is not the whole
file, then all ranks get ranges of it, and together they have the file. -/
theorem PathStore.CoversFiles.sharedFile {t : PathStore} (ht : t.Global)
    (hnodup : (t.paths.map PathStoreElem.path).Nodup) (hblock : t.blockSize = args.blockSize)
    (hcompletes : args.s3NoMpuCompletion = false) (h404 : args.s3IgnoreMultipartUpload404 = false)
    {new : ℕ → List PathStoreElem} (hnew : t.CoversFiles n new)
    (hlists : ∀ w, (lists w).Perm (new w)) {e : PathStoreElem} (he : e ∈ lists w)
    (hshared : e.Shared) : SharedFile args lists e.file := by
  have hin : ∀ v, ∀ e ∈ lists v, InFile t.blockSize t.paths e := fun v e he =>
    hnew.inFile v v.isLt e ((hlists v).subset he)
  have hf := (hin w e he).file_mem
  obtain ⟨hpos, -, hlen⟩ := ht.whole _ hf
  have hperm : ((List.range n).flatMap new).Perm ((List.finRange n).flatMap lists) := by
    rw [← List.map_coe_finRange_eq_range, List.flatMap_map]
    exact List.Perm.flatMap_left _ fun v _ => (hlists v).symm
  have hcovered := (hnew.covered (List.count_eq_one_of_mem hnodup.of_map hf)).perm hperm
  have hmem {v : Fin n} {e : PathStoreElem} (he : e ∈ lists v) :
      e ∈ (List.finRange n).flatMap lists := List.mem_flatMap.mpr ⟨v, List.mem_finRange v, he⟩
  refine ⟨hcompletes, h404, hpos, ?_, hblock ▸ hcovered, fun v e' he' hname => ?_⟩
  · refine lt_of_le_of_lt ?_ t.numBytesTotal_lt
    rw [ht.counted.numBytesTotal_eq, ← hlen]
    exact List.le_sum_of_mem (List.mem_map_of_mem hf)
  · have hfile := List.inj_on_of_nodup_map hnodup (hin v e' he').file_mem hf hname
    refine ⟨hfile, by_contra fun hwhole => ?_⟩
    have hlen : e'.totalLen = e.totalLen := (congrArg PathStoreElem.totalLen hfile :)
    have hend := hcovered.end_le e (hmem he) rfl
    have hend' := hcovered.end_le e' (hmem he') hfile
    have hrange := hcovered.rangeLen_pos e (hmem he) rfl
    change e.rangeLen < e.totalLen at hshared
    change ¬e'.rangeLen < e'.totalLen at hwhole
    change _ ≤ e.totalLen at hend hend'
    -- the first byte of the range would be in both
    have heq := hcovered.eq_of_covers (x := e.rangeStart) (lt_of_lt_of_le (by omega) hend)
      (hmem he) (hmem he') (covers_iff.mpr ⟨rfl, le_refl _, by omega⟩)
      (covers_iff.mpr ⟨hfile, by omega, by omega⟩)
    exact hwhole (heq ▸ hshared)

end Completion

/-! ## Two workers -/

/-- The settings of `backwardPairs` for shared objects. -/
def sharedPairs : UploadArgs where
  toS3WriteArgs := backwardPairs
  single := rfl
  s3IgnoreMultipartUpload404 := false
  randOffsetAlgo := Stream'.const 0

/-- Two workers with a block each. -/
def halves (w : Fin 2) : List PathStoreElem := [⟨"a", 8, 4 * w, 4⟩]

theorem sharedFile_halves : SharedFile sharedPairs halves ⟨"a", 8, 0, 8⟩ :=
  ⟨rfl, rfl, by decide, Word64.eight_lt_size, ⟨by decide, by decide, by decide, by decide⟩,
    by decide⟩

/-- The first worker uploads its part and ends, and then the second one. -/
theorem exists_turns : ∃ s, Reach (UploadRun.step sharedPairs) anyStep (UploadRun.start halves) s ∧
    ∀ w, s.worker w = .terminated false := by
  refine ⟨_, reach_of_runTrace _ [.begin 0, .begin 1, .submit 0, .answer 0 0, .handle 0, .leave 0,
    .finishPhase 0, .terminate 0, .submit 1, .answer 1 0, .handle 1, .leave 1,
    .complete 1 .success, .finishPhase 1, .terminate 1] (fun _ _ => trivial) rfl, ?_⟩
  exact Fin.forall_fin_two.mpr ⟨rfl, rfl⟩

theorem SharedFile.completes_whole_turns : ∃ s : UploadRun 2,
    (∀ w, s.worker w = .terminated false) ∧
      (completedLists "a" s.requests = [] ∨ completedLists "a" s.requests = [objectParts 4 8]) :=
  exists_turns.imp fun _ hs => ⟨hs.2, (sharedFile_halves.completes_whole hs.1).1⟩

theorem SharedFile.completed_once_turns : ∃ s : UploadRun 2,
    (∀ w, s.worker w = .terminated false) ∧ completedLists "a" s.requests = [objectParts 4 8] :=
  exists_turns.imp fun _ hs => ⟨hs.2, (sharedFile_halves.completed_once hs.1 hs.2).2⟩

/-- The ranges of `getWorkerSublistShared` for a file of two blocks. -/
theorem PathStore.CoversFiles.sharedFile_twoRanks :
    SharedFile sharedPairs halves ⟨"a", 8, 0, 8⟩ := by
  have ht : PathStore.Global ⟨4, 2, 8, 1, [⟨"a", 8, 0, 8⟩], Word64.two_lt_size,
      Word64.eight_lt_size, by decide⟩ := ⟨by decide, ⟨by decide, by decide, by decide⟩, by decide⟩
  obtain ⟨new, hnew, hcalls⟩ := PathStore.exists_shared_covers ht (by decide : 0 < 2)
  refine CoversFiles.sharedFile (w := 0) (e := ⟨"a", 8, 0, 4⟩) ht (by decide) rfl
    rfl rfl hnew (fun w => .of_eq ?_) (by decide) (by decide)
  obtain hcall | ⟨hfalse, -⟩ := (hcalls w w.isLt).2 false (PathStore.empty 4)
  · have hpaths := congrArg (fun r => r.toOption.elim [] (·.elim [] PathStore.paths)) hcall
    revert hpaths
    match w with
    | 0 => exact id
    | 1 => exact id
  · cases hfalse

end Elbencho
