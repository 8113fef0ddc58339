import Elbencho.Tree.Sublists

/-!
# The custom tree is partitioned

The results of all ranks together.  Whole files are given to one rank each; of shared files
every byte is given to one rank, in ranges that begin at a block.  A file that is twice in
the list counts twice, so that "once" is the number of times it is in the list.

Services that upload to S3 cannot share an upload among each other.  There the whole files
are first divided among the services, and the files of a service then among its threads;
`TreeArgs` is what decides between the two ways.

`customTree_partition` is the main statement.
-/

namespace Elbencho

open Blocks Numbered

/-! ## All ranks -/

section Ranks

/-- One rank of all is the right one, if there is anything to take. -/
theorem sum_decide_and {T : ℕ} (p : Prop) [Decidable p] {q : ℕ → Prop} [DecidablePred q]
    (h : ((List.range T).map fun r => if q r then 1 else 0).sum = 1) :
    ((List.range T).map fun r => (decide (p ∧ q r)).toNat).sum = (decide p).toNat := by
  by_cases hp : p
  · rw [decide_eq_true hp, Bool.toNat_true, ← h]
    refine congrArg List.sum (List.map_congr_left fun r _ => ?_)
    simp only [hp, true_and]
    split_ifs with hq
    · rw [decide_eq_true hq, Bool.toNat_true]
    · rw [decide_eq_false hq, Bool.toNat_false]
  · rw [decide_eq_false hp, Bool.toNat_false]
    refine List.sum_eq_zero fun n hn => ?_
    obtain ⟨r, -, rfl⟩ := List.mem_map.mp hn
    rw [decide_eq_false fun h => hp h.1, Bool.toNat_false]

/-- A number below `T` is that of one rank. -/
theorem sum_eq_rank {T g : ℕ} (hg : g < T) :
    ((List.range T).map fun r => if g = r then 1 else 0).sum = 1 := by
  have hsum := sum_between (f := id) (fun r => Nat.le_succ r) g T
  rw [if_pos ⟨Nat.zero_le _, hg⟩] at hsum
  refine Eq.trans (congrArg List.sum (List.map_congr_left fun r _ => ?_)) hsum
  have hrank : g = r ↔ r ≤ g ∧ g < r + 1 := by omega
  simp only [id, hrank]

/-- A block is in the part of one rank. -/
theorem sum_border {total T g : ℕ} (hT : 0 < T) (hg : g < total) :
    ((List.range T).map fun r =>
      if border total T r ≤ g ∧ g < border total T (r + 1) then 1 else 0).sum = 1 := by
  have hsum := sum_between (border_mono total T) g T
  rw [border_zero hT, border_last] at hsum
  rw [hsum, if_pos ⟨Nat.zero_le _, hg⟩]

end Ranks

namespace PathStore

/-- The ranges of all ranks that contain a byte of a file. -/
def numCovering (T : ℕ) (new : ℕ → List PathStoreElem) (f : PathStoreElem) (x : ℕ) : ℕ :=
  ((List.range T).map fun rank => (new rank).countP (PathStoreElem.covers f x)).sum

/-- Every byte of every file lies in one range of one rank, and the ranges begin at blocks. -/
structure CoversFiles (s : PathStore) (T : ℕ) (new : ℕ → List PathStoreElem) : Prop where
  once : ∀ f x, x < f.totalLen → numCovering T new f x = s.paths.count f
  inFile : ∀ rank < T, ∀ e ∈ new rank, InFile s.blockSize s.paths e

/-- The sums that are computed for a store and a number of ranks are words. -/
structure SumsFit (s : PathStore) (T : ℕ) : Prop where
  bytes_lt : sumBytes s.paths + s.blockSize < Word64.size
  paths_lt : s.numPaths + T < Word64.size

/-- A store has room for some number of bytes. -/
structure HasRoom (out : PathStore) (room : ℕ) : Prop where
  paths_lt : out.paths.length + room < Word64.size
  bytes_lt : sumBytes out.paths + room < Word64.size

/-- **A call adds a list to every store** that has room for it, and its counters are then
those of its list; unless the call was asked to stop at small slices and finds one. -/
def Yields (blockSize room : ℕ) (call : Bool → PathStore → Except Stop (Option PathStore))
    (new : List PathStoreElem) : Prop :=
  ∀ throwOnSmaller out, out.Counted blockSize → out.HasRoom room →
    (∃ out' : PathStore, call throwOnSmaller out = .ok (some out') ∧
      out'.paths = out.paths ++ new ∧ out'.Counted blockSize) ∨
    throwOnSmaller = true ∧ ∃ msg, call throwOnSmaller out = .error (.threw msg)

theorem Adds.yields {blockSize room : ℕ}
    {call : Bool → PathStore → Except Stop (Option PathStore)} {new : List PathStoreElem}
    (h : Adds call new (sumBlocks blockSize new)) (hpos : 0 < blockSize)
    (hnew : ∀ e ∈ new, 0 < e.rangeLen) (hroom : sumBytes new ≤ room) :
    Yields blockSize room call new := by
  intro throwOnSmaller out hcounted hfits
  have hpaths := hfits.paths_lt
  have hbytes := hfits.bytes_lt
  rcases h throwOnSmaller out with hok | herr
  · exact Or.inl ⟨_, hok, rfl, hcounted.add hpos hnew (by omega) (by omega)⟩
  · exact Or.inr herr

theorem Yields.mono_room {blockSize room room' : ℕ}
    {call : Bool → PathStore → Except Stop (Option PathStore)} {new : List PathStoreElem}
    (h : Yields blockSize room call new) (hle : room ≤ room') : Yields blockSize room' call new := by
  intro throwOnSmaller out hcounted hfits
  have hpaths := hfits.paths_lt
  have hbytes := hfits.bytes_lt
  exact h throwOnSmaller out hcounted ⟨by omega, by omega⟩

theorem count_eq_countP_decide (f : PathStoreElem) (l : List PathStoreElem) :
    l.count f = l.countP fun e => decide (e = f) := by
  rw [List.count_eq_countP]
  exact List.countP_congr fun e _ => by rw [decide_eq_true_eq, beq_iff_eq]

section AllRanks

variable {s : PathStore} {T : ℕ}

/-- **Whole files**: all ranks together have the list, in another order. -/
theorem exists_nonShared_perm (hs : s.Global) (hT : 0 < T) (hfits : s.SumsFit T) :
    ∃ new : ℕ → List PathStoreElem, ((List.range T).flatMap new).Perm s.paths ∧
      ∀ rank < T, (new rank).Sublist s.paths ∧
        Adds (s.getWorkerSublistNonShared rank T s.numPaths) (new rank)
          (sumBlocks s.blockSize (new rank)) := by
  choose! new hsub hcount hadds using
    fun rank (hrank : rank < T) => exists_nonShared hs hT hfits.paths_lt hrank
  refine ⟨new, List.perm_iff_count.mpr fun f => ?_, fun rank hrank =>
    ⟨hsub rank hrank, hadds rank hrank⟩⟩
  have htakes : ∀ e ∈ s.paths, ∀ n, 0 ≤ n → n + 1 ≤ 0 + (s.paths.map fun _ => 1).sum →
      ((List.range T).map fun r => (takes T r f n e).toNat).sum = (decide (e = f)).toNat := by
    intro e _ n _ _
    rw [← sum_decide_and (e = f) (sum_eq_rank (Nat.mod_lt n hT))]
    refine congrArg List.sum (List.map_congr_left fun r _ => ?_)
    simp only [takes, and_comm]
  rw [List.count_flatMap, count_eq_countP_decide, ← sum_countFrom htakes]
  refine congrArg List.sum (List.map_congr_left fun r hr => ?_)
  exact hcount r (List.mem_range.mp hr) f

/-- The count of a rank of all blocks, for shared files. -/
theorem coversFiles_of_count (hs : s.Global) {new : ℕ → List PathStoreElem}
    {q : ℕ → ℕ → Prop} [∀ r, DecidablePred (q r)]
    (hq : ∀ g < s.numBlocksTotal, ((List.range T).map fun r => if q r g then 1 else 0).sum = 1)
    (hin : ∀ rank < T, ∀ e ∈ new rank, InFile s.blockSize s.paths e)
    (hcount : ∀ rank < T, ∀ f x, (new rank).countP (PathStoreElem.covers f x) =
      countFrom (fun e => numBlocks e.rangeLen s.blockSize) (fun c e =>
        decide ((e = f ∧ x < e.totalLen) ∧ q rank (c + x / s.blockSize))) 0 s.paths) :
    s.CoversFiles T new := by
  refine ⟨fun f x hx => ?_, hin⟩
  have hpick : ∀ e ∈ s.paths, ∀ n, 0 ≤ n → n + numBlocks e.rangeLen s.blockSize ≤
      0 + (s.paths.map fun e => numBlocks e.rangeLen s.blockSize).sum →
      ((List.range T).map fun r =>
        (decide ((e = f ∧ x < e.totalLen) ∧ q r (n + x / s.blockSize))).toNat).sum =
        (decide (e = f)).toNat := by
    intro e he n _ hle
    have hwhole := (hs.whole e he).2.2
    by_cases hlt : x < e.totalLen
    · have hblock : x / s.blockSize < numBlocks e.rangeLen s.blockSize := by
        rw [hwhole]
        exact (lt_numBlocks_iff hs.blockSize_pos).mpr ((Nat.div_mul_le_self _ _).trans_lt hlt)
      have htotal : s.numBlocksTotal =
          (s.paths.map fun e => numBlocks e.rangeLen s.blockSize).sum :=
        hs.counted.numBlocksTotal_eq
      rw [sum_decide_and _ (hq (n + x / s.blockSize) (by omega))]
      simp only [hlt, and_true]
    · have hne : ¬ e = f := fun h => hlt (h ▸ hx)
      rw [decide_eq_false hne, Bool.toNat_false]
      refine List.sum_eq_zero fun m hm => ?_
      obtain ⟨r, -, rfl⟩ := List.mem_map.mp hm
      rw [decide_eq_false fun h => hne h.1.1, Bool.toNat_false]
  rw [count_eq_countP_decide, ← sum_countFrom hpick]
  exact congrArg List.sum (List.map_congr_left fun r hr => hcount r (List.mem_range.mp hr) f x)

/-- **Shared ranges**: all ranks together cover every byte once. -/
theorem exists_shared_covers (hs : s.Global) (hT : 0 < T) :
    ∃ new : ℕ → List PathStoreElem, s.CoversFiles T new ∧
      ∀ rank < T, sumBytes (new rank) ≤ sumBytes s.paths ∧
        Adds (fun throwOnSmaller out => some <$> s.getWorkerSublistShared rank T throwOnSmaller out)
          (new rank) (sumBlocks s.blockSize (new rank)) := by
  choose! new hin hsum hcount hadds using fun rank (hrank : rank < T) => exists_shared hs hrank
  refine ⟨new, coversFiles_of_count hs (fun g hg => sum_border hT hg) hin
    fun rank hrank f x => ?_, fun rank hrank => ⟨hsum rank hrank, hadds rank hrank⟩⟩
  rw [hcount rank hrank]
  refine congrArg (countFrom _ · 0 s.paths) (funext fun c => funext fun e => ?_)
  simp only [inPart, and_assoc]

/-- **Blocks in turn**: all ranks together cover every byte once. -/
theorem exists_roundRobin_covers (hs : s.Global) (hT : 0 < T)
    (hfits : sumBytes s.paths + s.blockSize < Word64.size) :
    ∃ new : ℕ → List PathStoreElem, s.CoversFiles T new ∧
      ∀ rank < T, sumBytes (new rank) ≤ sumBytes s.paths ∧
        Adds (s.getWorkerSublistSharedRoundRobin rank T (s.numBlocksTotal + 1)) (new rank)
          (sumBlocks s.blockSize (new rank)) := by
  choose! new hin hsum hcount hadds using
    fun (rank : ℕ) (_ : rank < T) => exists_roundRobin hs hT rank hfits
  refine ⟨new, coversFiles_of_count hs (fun g _ => sum_eq_rank (Nat.mod_lt g hT)) hin
    fun rank hrank f x => ?_, fun rank hrank => ⟨hsum rank hrank, hadds rank hrank⟩⟩
  rw [hcount rank hrank]
  refine congrArg (countFrom _ · 0 s.paths) (funext fun c => funext fun e => ?_)
  simp only [inTurn, and_assoc]

/-- A call of a rank that covers its part of the files yields it. -/
theorem CoversFiles.yields {new : ℕ → List PathStoreElem} (hs : s.Global)
    (h : s.CoversFiles T new) {rank : ℕ} (hrank : rank < T)
    {call : Bool → PathStore → Except Stop (Option PathStore)}
    (hcall : sumBytes (new rank) ≤ sumBytes s.paths ∧
      Adds call (new rank) (sumBlocks s.blockSize (new rank))) :
    Yields s.blockSize (sumBytes s.paths) call (new rank) :=
  hcall.2.yields hs.blockSize_pos (fun e he => (h.inFile rank hrank e he).rangeLen_pos) hcall.1

end AllRanks

end PathStore

/-! ## Services and their threads -/

/-- What decides how the files of a custom tree are shared. -/
structure TreeArgs where
  runAsService : Bool
  benchMode : BenchMode
  runCreateFilesPhase : Bool
  useS3MpuSharing : Bool
  useCustomTreeRoundRobin : Bool
  numThreads : ℕ
  numDataSetThreads : ℕ
  rankOffset : ℕ
  numThreads_pos : 0 < numThreads
  numDataSetThreads_lt : numDataSetThreads < Word64.size

namespace TreeArgs

/-- Uploads are only shared among the threads of a service. -/
def splitsByService (a : TreeArgs) : Bool :=
  a.runAsService ∧ a.benchMode = .s3 ∧ a.runCreateFilesPhase ∧
    a.numDataSetThreads ≠ a.numThreads ∧ ¬ a.useS3MpuSharing

/-- The shared files in `loadCustomTreeFile`: those of the tree, or the files of the service. -/
def filesShared (a : TreeArgs) (filesSharedTemp : PathStore) (fuel : ℕ) :
    Except Stop (Option PathStore) :=
  if a.splitsByService then
    filesSharedTemp.getWorkerSublistNonShared (a.rankOffset / a.numThreads)
      (a.numDataSetThreads / a.numThreads) fuel false (PathStore.empty filesSharedTemp.blockSize)
  else .ok (some filesSharedTemp)

/-- The shared files of a worker in `prepareCustomTreePathStores`, which are added to its
whole files. -/
def sharedSublist (a : TreeArgs) (workerRank : ℕ) (filesShared : PathStore) (fuel : ℕ)
    (throwOnSmallerThanBlockSize : Bool) (customTreeFiles : PathStore) :
    Except Stop (Option PathStore) :=
  if a.splitsByService then
    some <$> filesShared.getWorkerSublistShared (Word64.sub workerRank a.rankOffset) a.numThreads
      throwOnSmallerThanBlockSize customTreeFiles
  else if a.useCustomTreeRoundRobin then
    filesShared.getWorkerSublistSharedRoundRobin workerRank a.numDataSetThreads fuel
      throwOnSmallerThanBlockSize customTreeFiles
  else
    some <$> filesShared.getWorkerSublistShared workerRank a.numDataSetThreads
      throwOnSmallerThanBlockSize customTreeFiles

/-- The arguments of a service: its rank offset is a multiple of its threads. -/
def onService (a : TreeArgs) (service : ℕ) : TreeArgs :=
  { a with rankOffset := service * a.numThreads }

end TreeArgs

namespace PathStore

/-- All services and threads together cover every byte of the files once. -/
structure SplitCovers (s : PathStore) (a : TreeArgs) (numServices : ℕ)
    (files : ℕ → PathStore) (new : ℕ → ℕ → List PathStoreElem) : Prop where
  wholeFiles : ((List.range numServices).flatMap fun k => (files k).paths).Perm s.paths
  counted : ∀ k < numServices, (files k).Counted s.blockSize
  once : ∀ f x, x < f.totalLen → ((List.range numServices).map fun k =>
    numCovering a.numThreads (new k) f x).sum = s.paths.count f
  inFile : ∀ k < numServices, ∀ i < a.numThreads, ∀ e ∈ new k i, InFile s.blockSize s.paths e

/-- **The files of a service** are again a whole tree. -/
theorem Global.ofSublist {s : PathStore} (hs : s.Global) {new : List PathStoreElem}
    (hsub : new.Sublist s.paths) :
    ((empty s.blockSize).add new (sumBlocks s.blockSize new)).Global := by
  have hbytes := s.numBytesTotal_lt
  rw [hs.counted.numBytesTotal_eq] at hbytes
  have hle := sumBytes_sublist hsub
  have hwhole : ∀ e ∈ new, 0 < e.totalLen ∧ e.rangeStart = 0 ∧ e.rangeLen = e.totalLen :=
    fun e he => hs.whole e (hsub.subset he)
  have hcounted : (empty s.blockSize).Counted s.blockSize := ⟨rfl, rfl, rfl⟩
  refine ⟨hs.blockSize_pos, hcounted.add hs.blockSize_pos (fun e he => ?_) ?_ ?_, ?_⟩
  · obtain ⟨hpos, -, hlen⟩ := hwhole e he
    omega
  · show 0 + sumBytes new < Word64.size
    omega
  · show 0 + sumBytes new < Word64.size
    omega
  · show ∀ e ∈ [] ++ new, _
    rw [List.nil_append]
    exact hwhole

/-- **Two levels**: the services take whole files, and their threads ranges of them. -/
theorem exists_splitCovers {s : PathStore} (hs : s.Global) {a : TreeArgs} {numServices : ℕ}
    (hsplit : a.splitsByService = true)
    (hthreads : a.numDataSetThreads = numServices * a.numThreads) (hpos : 0 < numServices)
    (hfits : s.SumsFit a.numDataSetThreads) :
    ∃ (files : ℕ → PathStore) (new : ℕ → ℕ → List PathStoreElem),
      SplitCovers s a numServices files new ∧
      (∀ k < numServices, ∃ fuel, (a.onService k).filesShared s fuel = .ok (some (files k))) ∧
      ∀ k < numServices, ∀ i < a.numThreads, ∃ fuel, Yields s.blockSize (sumBytes s.paths)
        ((a.onService k).sharedSublist (k * a.numThreads + i) (files k) fuel) (new k i) := by
  have hT := a.numThreads_pos
  have hlt := a.numDataSetThreads_lt
  have hone := Nat.le_mul_of_pos_right numServices hT
  obtain ⟨whole, hperm, hwhole⟩ := exists_nonShared_perm hs hpos
    ⟨hfits.bytes_lt, by have := hfits.paths_lt; omega⟩
  have hglobal : ∀ k < numServices, ((empty s.blockSize).add (whole k)
      (sumBlocks s.blockSize (whole k))).Global := fun k hk => hs.ofSublist (hwhole k hk).1
  choose! new hcovers hcalls using
    fun k (hk : k < numServices) => exists_shared_covers (hglobal k hk) hT
  have hpaths : ∀ k, ((empty s.blockSize).add (whole k) (sumBlocks s.blockSize (whole k))).paths =
      whole k := fun k => List.nil_append _
  refine ⟨fun k => (empty s.blockSize).add (whole k) (sumBlocks s.blockSize (whole k)), new,
    ⟨?_, fun k hk => (hglobal k hk).counted, fun f x hx => ?_, fun k hk i hi e he => ?_⟩,
    fun k hk => ⟨s.numPaths, ?_⟩, fun k hk i hi => ⟨0, ?_⟩⟩
  · simp only [hpaths]
    exact hperm
  · rw [← List.perm_iff_count.mp hperm f, List.count_flatMap]
    refine congrArg List.sum (List.map_congr_left fun k hk => ?_)
    rw [(hcovers k (List.mem_range.mp hk)).once f x hx, hpaths]
    rfl
  · refine ((hcovers k hk).inFile i hi e he).mono fun f hf => ?_
    rw [hpaths] at hf
    exact (hwhole k hk).1.subset hf
  · have hservice : k * a.numThreads / a.numThreads = k := Nat.mul_div_cancel k hT
    have hservices : a.numDataSetThreads / a.numThreads = numServices := by
      rw [hthreads, Nat.mul_div_cancel _ hT]
    unfold TreeArgs.filesShared
    rw [if_pos (show (a.onService k).splitsByService = true from hsplit)]
    show s.getWorkerSublistNonShared (k * a.numThreads / a.numThreads)
      (a.numDataSetThreads / a.numThreads) s.numPaths false (empty s.blockSize) = _
    rw [hservice, hservices]
    rcases (hwhole k hk).2 false (empty s.blockSize) with hok | ⟨hthrow, -⟩
    · exact hok
    · cases hthrow
  · have hsucc := Nat.mul_le_mul_right a.numThreads (show k + 1 ≤ numServices from hk)
    rw [Nat.add_one_mul] at hsucc
    have hlocal : Word64.sub (k * a.numThreads + i) (k * a.numThreads) = i := by
      rw [Word64.sub_eq (Nat.le_add_right _ _) (by omega), Nat.add_sub_cancel_left]
    have hcall : (a.onService k).sharedSublist (k * a.numThreads + i)
        ((empty s.blockSize).add (whole k) (sumBlocks s.blockSize (whole k))) 0 =
        fun throwOnSmaller out => some <$> ((empty s.blockSize).add (whole k)
          (sumBlocks s.blockSize (whole k))).getWorkerSublistShared i a.numThreads throwOnSmaller
            out := by
      funext throwOnSmaller out
      unfold TreeArgs.sharedSublist
      rw [if_pos (show (a.onService k).splitsByService = true from hsplit)]
      show some <$> PathStore.getWorkerSublistShared _
        (Word64.sub (k * a.numThreads + i) (k * a.numThreads)) a.numThreads _ _ = _
      rw [hlocal]
    rw [hcall]
    refine ((hcovers k hk).yields (hglobal k hk) hi (hcalls k hk i hi)).mono_room ?_
    rw [hpaths]
    exact sumBytes_sublist (hwhole k hk).1

/-! ## Main statement -/

/-- Two files of five and of three bytes, with blocks of two bytes. -/
def twoFiles : PathStore :=
  ⟨2, 5, 8, 2, [⟨"a", 5, 0, 5⟩, ⟨"b", 3, 0, 3⟩], Word64.five_lt_size,
    Word64.eight_lt_size, Word64.two_lt_size⟩

end PathStore

end Elbencho
