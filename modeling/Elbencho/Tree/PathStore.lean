import Mathlib.Data.List.Count
import Elbencho.Args.PathDependent
import Elbencho.Library.Blocks
import Elbencho.Library.Numbered

/-!
# Path stores

A custom tree is a list of files with their sizes.  `PathStore` is such a list with three
counters; a worker gets its own store from the one of the whole tree, by one of three
functions:

* `getWorkerSublistNonShared` takes every `T`-th file,
* `getWorkerSublistShared` divides the blocks of all files into parts of equal length, which
  begin and end inside of files,
* `getWorkerSublistSharedRoundRobin` takes every `T`-th block.

All of them add to a store that may have entries already.  `Adds` says that a call adds a
list that depends neither on this store nor on whether the call was asked to stop at small
slices.  The first three sections model the functions; the others say what is in the list.
-/

namespace Elbencho

open Blocks Numbered

/-! ## Stores -/

/-- `PathStoreElem`: a file, and the range of it to read or write. -/
structure PathStoreElem where
  path : String
  totalLen : ℕ
  rangeStart : ℕ
  rangeLen : ℕ
  deriving DecidableEq

/-- `PathStore`.  The counters are words. -/
structure PathStore where
  blockSize : ℕ
  numBlocksTotal : ℕ
  numBytesTotal : ℕ
  numPaths : ℕ
  paths : List PathStoreElem
  numBlocksTotal_lt : numBlocksTotal < Word64.size
  numBytesTotal_lt : numBytesTotal < Word64.size
  numPaths_lt : numPaths < Word64.size

namespace PathStore

/-- A new store. -/
def empty (blockSize : ℕ) : PathStore :=
  ⟨blockSize, 0, 0, 0, [], Word64.size_pos, Word64.size_pos, Word64.size_pos⟩

/-- An entry is added, and the counters learn about it. -/
def push (out : PathStore) (e : PathStoreElem) (numBlocks numBytes : ℕ) : PathStore where
  blockSize := out.blockSize
  numBlocksTotal := Word64.add out.numBlocksTotal numBlocks
  numBytesTotal := Word64.add out.numBytesTotal numBytes
  numPaths := Word64.add out.numPaths 1
  paths := out.paths ++ [e]
  numBlocksTotal_lt := Word64.add_lt _ _
  numBytesTotal_lt := Word64.add_lt _ _
  numPaths_lt := Word64.add_lt _ _

/-- A line of a tree file that names a file has a size, unless it is broken, and a path. -/
inductive TreeLine where
  | file (size : Option ℕ) (path : String)
  | other

/-- A size rounded up. -/
def roundUp (size roundUpSize : ℕ) : ℕ :=
  if roundUpSize ≠ 0 ∧ size % roundUpSize ≠ 0 then
    Word64.add (Word64.sub size (size % roundUpSize)) roundUpSize
  else size

/-- The lines of `loadFilesFromFile` from some line on. -/
def loadLines (treeFile : String) (minFileSize maxFileSize roundUpSize : ℕ) :
    ℕ → List TreeLine → PathStore → Except Stop PathStore
  | _, [], s => .ok s
  | lineNum, .other :: lines, s =>
    loadLines treeFile minFileSize maxFileSize roundUpSize (lineNum + 1) lines s
  | lineNum, .file none _ :: _, _ =>
    .error (.threw ("Encountered invalid file line without size in input file. File: " ++
      treeFile ++ "; Line number: " ++ toString lineNum))
  | lineNum, .file (some size) path :: lines, s =>
    let totalLen := roundUp size roundUpSize
    if totalLen < minFileSize ∨ maxFileSize < totalLen then
      loadLines treeFile minFileSize maxFileSize roundUpSize (lineNum + 1) lines s
    else if s.blockSize = 0 then .error .crashed
    else if path = "" then
      .error (.threw ("Encountered invalid file line without path in input file. File: " ++
        treeFile ++ "; Line number: " ++ toString lineNum))
    else loadLines treeFile minFileSize maxFileSize roundUpSize (lineNum + 1) lines
      (s.push ⟨path, totalLen, 0, totalLen⟩ (numBlocks totalLen s.blockSize) totalLen)

/-- `loadFilesFromFile`. -/
def loadFilesFromFile (s : PathStore) (treeFile : String) (lines : List TreeLine)
    (minFileSize maxFileSize roundUpSize : ℕ) : Except Stop PathStore :=
  loadLines treeFile minFileSize maxFileSize roundUpSize 0 lines s

/-- `sortByFileSize`: by size, and by path among files of the same size. -/
def sortByFileSize (s : PathStore) : PathStore :=
  { s with
    paths := s.paths.mergeSort fun a b =>
      ¬ (b.totalLen < a.totalLen ∨ b.totalLen = a.totalLen ∧ b.path < a.path) }

/-! ## Whole files -/

/-- The loop of `getWorkerSublistNonShared` from some file on; `none` if it needs more
passes.  A loop that goes past the end of the list reads a file that is not there. -/
def nonSharedLoop (s : PathStore) (numDataSetThreads : ℕ) (throwOnFileSmallerBlock : Bool) :
    ℕ → ℕ → List PathStoreElem → PathStore → Except Stop (Option PathStore)
  | 0, _, _, _ => .ok none
  | _ + 1, _, [], _ => .error .crashed
  | fuel + 1, currentIdx, e :: rest, out =>
    let numFileBlocks := if s.blockSize ≠ 0 then numBlocks e.totalLen s.blockSize else 0
    if throwOnFileSmallerBlock ∧ e.totalLen < s.blockSize then
      .error (.threw ("Found file that is smaller than block size. Consider using " ++
        "\"--treeroundup\". (\"--nodiocheck\" disables this check.) File: " ++ e.path ++
        "; FileSize: " ++ toString e.totalLen ++ "; BlockSize: " ++ toString s.blockSize))
    else if s.numPaths ≤ Word64.add currentIdx numDataSetThreads then
      .ok (some (out.push e numFileBlocks e.totalLen))
    else nonSharedLoop s numDataSetThreads throwOnFileSmallerBlock fuel
      (Word64.add currentIdx numDataSetThreads) ((e :: rest).drop numDataSetThreads)
      (out.push e numFileBlocks e.totalLen)

/-- `getWorkerSublistNonShared`. -/
def getWorkerSublistNonShared (s : PathStore) (workerRank numDataSetThreads fuel : ℕ)
    (throwOnFileSmallerBlock : Bool) (out : PathStore) : Except Stop (Option PathStore) :=
  if s.numPaths ≤ workerRank then .ok (some out)
  else s.nonSharedLoop numDataSetThreads throwOnFileSmallerBlock fuel workerRank
    (s.paths.drop workerRank) out

/-! ## Shared files -/

/-- The range of a file that holds blocks of the part, and the blocks of the part that are
left behind the file. -/
def sharedRange (s : PathStore) (e : PathStoreElem)
    (startBlock firstFileBlock numBlocksLeft : ℕ) : ℕ × ℕ × ℕ :=
  let numFileBlocks := numBlocks e.totalLen s.blockSize
  let (rangeStart, remainingFileBlocks) :=
    if startBlock ≤ firstFileBlock then (0, numFileBlocks)
    else (Word64.mul (Word64.sub startBlock firstFileBlock) s.blockSize,
      Word64.sub numFileBlocks (Word64.sub startBlock firstFileBlock))
  if numBlocksLeft < remainingFileBlocks then
    (rangeStart, Word64.mul numBlocksLeft s.blockSize, 0)
  else
    (rangeStart, Word64.sub e.totalLen rangeStart, Word64.sub numBlocksLeft remainingFileBlocks)

/-- The loop of `getWorkerSublistShared` from some file on. -/
def sharedLoop (s : PathStore) (startBlock endBlock : ℕ) (throwOnSliceSmallerBlock : Bool) :
    List PathStoreElem → ℕ → ℕ → PathStore → Except Stop PathStore
  | [], _, _, out => .ok out
  | e :: rest, currentBlockIdx, numBlocksLeft, out =>
    if currentBlockIdx < endBlock then
      let numFileBlocks := numBlocks e.totalLen s.blockSize
      let (rangeStart, rangeLen, numBlocksLeft') :=
        s.sharedRange e startBlock currentBlockIdx numBlocksLeft
      if s.blockSize = 0 then .error .crashed
      else if e.totalLen = 0 then
        .error (.threw ("getWorkerSublistShared" ++ "Found path with 0 length. Path: " ++ e.path))
      else if Word64.sub (Word64.add currentBlockIdx numFileBlocks) 1 < startBlock then
        sharedLoop s startBlock endBlock throwOnSliceSmallerBlock rest
          (Word64.add currentBlockIdx numFileBlocks) numBlocksLeft out
      else if throwOnSliceSmallerBlock ∧ rangeLen < s.blockSize then
        .error (.threw ("Found file slice that is smaller than block size. Consider using " ++
          "\"--treeroundup\". (\"--nodiocheck\" disables this check.) File: " ++ e.path ++
          "; RangeStart: " ++ toString rangeStart ++ "; RangeLength: " ++ toString rangeLen ++
          "; BlockSize: " ++ toString s.blockSize))
      else sharedLoop s startBlock endBlock throwOnSliceSmallerBlock rest
        (Word64.add currentBlockIdx numFileBlocks) numBlocksLeft'
        (out.push { e with rangeStart := rangeStart, rangeLen := rangeLen } 0 rangeLen)
    else .ok out

/-- `thisWorkerNumBlocks`: the last rank takes the rest. -/
def thisWorkerNumBlocks (s : PathStore) (workerRank numDataSetThreads : ℕ) : ℕ :=
  if workerRank = numDataSetThreads - 1 ∧ s.numBlocksTotal % numDataSetThreads ≠ 0 then
    Word64.sub s.numBlocksTotal
      (Word64.mul (s.numBlocksTotal / numDataSetThreads) (numDataSetThreads - 1))
  else s.numBlocksTotal / numDataSetThreads

/-- `startBlock`. -/
def startBlock (s : PathStore) (workerRank numDataSetThreads : ℕ) : ℕ :=
  Word64.mul workerRank (s.numBlocksTotal / numDataSetThreads)

/-- The blocks of a store grow by some number. -/
def addBlocks (out : PathStore) (numBlocks : ℕ) : PathStore :=
  { out with
    numBlocksTotal := Word64.add out.numBlocksTotal numBlocks
    numBlocksTotal_lt := Word64.add_lt _ _ }

/-- `getWorkerSublistShared`. -/
def getWorkerSublistShared (s : PathStore) (workerRank numDataSetThreads : ℕ)
    (throwOnSliceSmallerBlock : Bool) (out : PathStore) : Except Stop PathStore :=
  if s.paths = [] then .ok out
  else if numDataSetThreads = 0 then .error .crashed
  else if s.thisWorkerNumBlocks workerRank numDataSetThreads = 0 then .ok out
  else
    (fun out' => out'.addBlocks (s.thisWorkerNumBlocks workerRank numDataSetThreads)) <$>
      s.sharedLoop (s.startBlock workerRank numDataSetThreads)
        (Word64.add (s.startBlock workerRank numDataSetThreads)
          (s.thisWorkerNumBlocks workerRank numDataSetThreads))
        throwOnSliceSmallerBlock s.paths 0 (s.thisWorkerNumBlocks workerRank numDataSetThreads) out

/-! ## Blocks in turn -/

/-- The blocks of a file in `getWorkerSublistSharedRoundRobin` from some offset on, with the
number of the next block; `none` if the loop needs more passes. -/
def roundRobinFile (s : PathStore) (workerRank numThreads : ℕ) (throwOnSliceSmallerBlock : Bool)
    (e : PathStoreElem) : ℕ → ℕ → ℕ → PathStore → Except Stop (Option (ℕ × PathStore))
  | 0, _, _, _ => .ok none
  | fuel + 1, offset, currentBlockIdx, out =>
    if offset < e.totalLen then
      if workerRank = currentBlockIdx % numThreads then
        let fileSizeLeft := Word64.sub e.totalLen offset
        let rangeLen := if fileSizeLeft < s.blockSize then fileSizeLeft else s.blockSize
        if throwOnSliceSmallerBlock ∧ fileSizeLeft < s.blockSize then
          .error (.threw ("Found file slice that is smaller than block size. Consider using " ++
            "\"--treeroundup\". (\"--nodiocheck\" disables this check.) File: " ++ e.path ++
            "; FileSize: " ++ toString e.totalLen ++ "; BlockSize: " ++ toString s.blockSize))
        else roundRobinFile s workerRank numThreads throwOnSliceSmallerBlock e fuel
          (Word64.add offset s.blockSize) (Word64.add currentBlockIdx 1)
          (out.push { e with rangeStart := offset, rangeLen := rangeLen } 1 rangeLen)
      else roundRobinFile s workerRank numThreads throwOnSliceSmallerBlock e fuel
        (Word64.add offset s.blockSize) (Word64.add currentBlockIdx 1) out
    else .ok (some (currentBlockIdx, out))

/-- The files of `getWorkerSublistSharedRoundRobin` from some file on. -/
def roundRobinLoop (s : PathStore) (workerRank numThreads fuel : ℕ)
    (throwOnSliceSmallerBlock : Bool) :
    List PathStoreElem → ℕ → PathStore → Except Stop (Option PathStore)
  | [], _, out => .ok (some out)
  | e :: rest, currentBlockIdx, out =>
    if e.totalLen = 0 then
      .error (.threw ("getWorkerSublistSharedRoundRobin" ++ "Found path with 0 length. Path: " ++
        e.path))
    else
      match s.roundRobinFile workerRank numThreads throwOnSliceSmallerBlock e fuel 0
        currentBlockIdx out with
      | .error stop => .error stop
      | .ok none => .ok none
      | .ok (some (currentBlockIdx', out')) =>
        roundRobinLoop s workerRank numThreads fuel throwOnSliceSmallerBlock rest currentBlockIdx'
          out'

/-- `getWorkerSublistSharedRoundRobin`. -/
def getWorkerSublistSharedRoundRobin (s : PathStore) (workerRank numDataSetThreads fuel : ℕ)
    (throwOnSliceSmallerBlock : Bool) (out : PathStore) : Except Stop (Option PathStore) :=
  if s.paths = [] then .ok (some out)
  else if numDataSetThreads = 0 then .error .crashed
  else s.roundRobinLoop workerRank numDataSetThreads fuel throwOnSliceSmallerBlock s.paths 0 out

/-! ## Counters -/

/-- The blocks of a list. -/
def sumBlocks (blockSize : ℕ) (l : List PathStoreElem) : ℕ :=
  (l.map fun e => numBlocks e.rangeLen blockSize).sum

/-- The bytes of a list. -/
def sumBytes (l : List PathStoreElem) : ℕ := (l.map PathStoreElem.rangeLen).sum

/-- The counters are those of the list. -/
structure Counted (blockSize : ℕ) (s : PathStore) : Prop where
  numPaths_eq : s.numPaths = s.paths.length
  numBlocksTotal_eq : s.numBlocksTotal = sumBlocks blockSize s.paths
  numBytesTotal_eq : s.numBytesTotal = sumBytes s.paths

/-- A store with a list of entries and a number of blocks added. -/
def add (out : PathStore) (new : List PathStoreElem) (numBlocks : ℕ) : PathStore where
  blockSize := out.blockSize
  numBlocksTotal := Word64.add out.numBlocksTotal numBlocks
  numBytesTotal := Word64.add out.numBytesTotal (sumBytes new)
  numPaths := Word64.add out.numPaths new.length
  paths := out.paths ++ new
  numBlocksTotal_lt := Word64.add_lt _ _
  numBytesTotal_lt := Word64.add_lt _ _
  numPaths_lt := Word64.add_lt _ _

theorem sumBytes_nil : sumBytes [] = 0 := rfl

theorem sumBytes_cons (e : PathStoreElem) (l : List PathStoreElem) :
    sumBytes (e :: l) = e.rangeLen + sumBytes l := rfl

theorem sumBytes_append (l l' : List PathStoreElem) :
    sumBytes (l ++ l') = sumBytes l + sumBytes l' := by
  rw [sumBytes, List.map_append, List.sum_append]
  rfl

theorem sumBlocks_nil (blockSize : ℕ) : sumBlocks blockSize [] = 0 := rfl

theorem sumBlocks_cons (blockSize : ℕ) (e : PathStoreElem) (l : List PathStoreElem) :
    sumBlocks blockSize (e :: l) = numBlocks e.rangeLen blockSize + sumBlocks blockSize l := rfl

theorem sumBlocks_append (blockSize : ℕ) (l l' : List PathStoreElem) :
    sumBlocks blockSize (l ++ l') = sumBlocks blockSize l + sumBlocks blockSize l' := by
  rw [sumBlocks, List.map_append, List.sum_append]
  rfl

theorem word_add_add (x m n : ℕ) :
    Word64.add (Word64.add x m) n = Word64.add x (m + n) := by
  rw [Word64.add, Word64.add, Nat.mod_add_mod, Nat.add_assoc]
  rfl

theorem word_add_zero {x : ℕ} (h : x < Word64.size) : Word64.add x 0 = x := Nat.mod_eq_of_lt h

variable (out : PathStore)

theorem add_nil : out.add [] 0 = out := by
  obtain ⟨blockSize, numBlocksTotal, numBytesTotal, numPaths, paths, hblocks, hbytes, hpaths⟩ := out
  simp only [add, sumBytes_nil, List.length_nil, List.append_nil, word_add_zero hblocks,
    word_add_zero hbytes, word_add_zero hpaths]

theorem add_add (l l' : List PathStoreElem) (m n : ℕ) :
    (out.add l m).add l' n = out.add (l ++ l') (m + n) := by
  simp only [add, word_add_add, sumBytes_append, List.append_assoc, List.length_append]

theorem push_eq_add (e : PathStoreElem) (m : ℕ) : out.push e m e.rangeLen = out.add [e] m := rfl

theorem addBlocks_eq_add (m : ℕ) : out.addBlocks m = out.add [] m := by
  obtain ⟨blockSize, numBlocksTotal, numBytesTotal, numPaths, paths, hblocks, hbytes, hpaths⟩ := out
  simp only [addBlocks, add, sumBytes_nil, List.length_nil, List.append_nil, word_add_zero hbytes,
    word_add_zero hpaths]

variable {out}

/-- Entries of at least a byte are not more than their bytes, and so are their blocks. -/
theorem length_le_sumBytes {l : List PathStoreElem} (h : ∀ e ∈ l, 0 < e.rangeLen) :
    l.length ≤ sumBytes l := by
  induction l with
  | nil => exact Nat.le_refl 0
  | cons e l ih =>
    have he := h e List.mem_cons_self
    have hl := ih fun e he => h e (List.mem_cons_of_mem _ he)
    rw [sumBytes_cons, List.length_cons]
    omega

theorem sumBlocks_le_sumBytes {blockSize : ℕ} (hpos : 0 < blockSize) (l : List PathStoreElem) :
    sumBlocks blockSize l ≤ sumBytes l := by
  induction l with
  | nil => exact Nat.le_refl 0
  | cons e l ih =>
    have he : numBlocks e.rangeLen blockSize ≤ e.rangeLen := numBlocks_le hpos
    rw [sumBytes_cons, sumBlocks_cons]
    omega

/-- **The counters stay those of the list** if the sums are words. -/
theorem Counted.add {blockSize : ℕ} (h : out.Counted blockSize) (hpos : 0 < blockSize)
    {new : List PathStoreElem} (hnew : ∀ e ∈ new, 0 < e.rangeLen)
    (hpaths : out.paths.length + sumBytes new < Word64.size)
    (hbytes : sumBytes out.paths + sumBytes new < Word64.size) :
    (out.add new (sumBlocks blockSize new)).Counted blockSize := by
  have hlength := length_le_sumBytes hnew
  have hblocks := sumBlocks_le_sumBytes hpos new
  have hblocksOut := sumBlocks_le_sumBytes hpos out.paths
  refine ⟨?_, ?_, ?_⟩
  · show Word64.add out.numPaths new.length = (out.paths ++ new).length
    rw [h.numPaths_eq, List.length_append, Word64.add_eq (by omega)]
  · show Word64.add out.numBlocksTotal _ = sumBlocks blockSize (out.paths ++ new)
    rw [h.numBlocksTotal_eq, sumBlocks_append, Word64.add_eq (by omega)]
  · show Word64.add out.numBytesTotal _ = sumBytes (out.paths ++ new)
    rw [h.numBytesTotal_eq, sumBytes_append, Word64.add_eq hbytes]

/-! ## What calls add -/

/-- A call adds a list and a number of blocks to every store, unless it was asked to stop at
small slices and finds one. -/
def Adds (call : Bool → PathStore → Except Stop (Option PathStore)) (new : List PathStoreElem)
    (numBlocks : ℕ) : Prop :=
  ∀ throwOnSmaller out, call throwOnSmaller out = .ok (some (out.add new numBlocks)) ∨
    throwOnSmaller = true ∧ ∃ msg, call throwOnSmaller out = .error (.threw msg)

/-- The store of a whole tree: every entry is a whole file of at least a byte, and the
counters are those of the list. -/
structure Global (s : PathStore) : Prop where
  blockSize_pos : 0 < s.blockSize
  counted : s.Counted s.blockSize
  whole : ∀ e ∈ s.paths, 0 < e.totalLen ∧ e.rangeStart = 0 ∧ e.rangeLen = e.totalLen

/-- The lines of a tree file add whole files of the right sizes. -/
theorem loadLines_eq_ok {treeFile : String} {minFileSize maxFileSize roundUpSize lineNum : ℕ}
    {lines : List TreeLine} {s s' : PathStore}
    (h : loadLines treeFile minFileSize maxFileSize roundUpSize lineNum lines s = .ok s') :
    ∃ new : List PathStoreElem, s' = s.add new (sumBlocks s.blockSize new) ∧
      ∀ e ∈ new, minFileSize ≤ e.totalLen ∧ e.rangeStart = 0 ∧ e.rangeLen = e.totalLen := by
  induction lines generalizing lineNum s with
  | nil =>
    rw [loadLines] at h
    exact ⟨[], by rw [sumBlocks_nil, add_nil, Except.ok.inj h],
      fun e he => absurd he List.not_mem_nil⟩
  | cons line lines ih =>
    cases line with
    | other => exact ih h
    | file size path =>
      cases size with
      | none => cases h
      | some size =>
        rw [loadLines] at h
        split_ifs at h with hskip hcrash hpath
        · exact ih h
        · obtain ⟨new, rfl, hnew⟩ := ih h
          refine ⟨⟨path, roundUp size roundUpSize, 0, roundUp size roundUpSize⟩ :: new, ?_,
            List.forall_mem_cons.mpr ⟨⟨?_, rfl, rfl⟩, hnew⟩⟩
          · rw [push_eq_add s ⟨path, roundUp size roundUpSize, 0, roundUp size roundUpSize⟩, add_add]
            rfl
          · exact not_lt.mp (not_or.mp hskip).1

/-- **A loaded tree file is a whole tree**, if the sizes of its files add up to a word. -/
theorem global_of_loadFilesFromFile {blockSize : ℕ} (hpos : 0 < blockSize) {treeFile : String}
    {lines : List TreeLine} {minFileSize maxFileSize roundUpSize : ℕ} (hmin : 0 < minFileSize)
    {s : PathStore} (h : (empty blockSize).loadFilesFromFile treeFile lines minFileSize maxFileSize
      roundUpSize = .ok s) (hfits : sumBytes s.paths < Word64.size) : s.Global := by
  obtain ⟨new, rfl, hnew⟩ := loadLines_eq_ok h
  have hcounted : (empty blockSize).Counted blockSize := ⟨rfl, rfl, rfl⟩
  have hpaths : ((empty blockSize).add new (sumBlocks blockSize new)).paths = new :=
    List.nil_append _
  have hwhole : ∀ e ∈ new, 0 < e.totalLen ∧ e.rangeStart = 0 ∧ e.rangeLen = e.totalLen :=
    fun e he => ⟨lt_of_lt_of_le hmin (hnew e he).1, (hnew e he).2⟩
  have hroom : 0 + sumBytes new < Word64.size := by
    rw [Nat.zero_add, ← hpaths]
    exact hfits
  refine ⟨hpos, hcounted.add hpos (fun e he => ?_) hroom hroom, ?_⟩
  · obtain ⟨hlen, -, heq⟩ := hwhole e he
    omega
  · exact hpaths.symm ▸ hwhole

/-- A size is rounded up to blocks. -/
theorem global_of_loadFilesFromFile_oneFile :
    ∃ s : PathStore, s.paths = [⟨"a", 8, 0, 8⟩] ∧ s.Global :=
  ⟨_, rfl, @global_of_loadFilesFromFile 4 (Nat.succ_pos 3) "tree.txt" [.file (some 5) "a"] 1 9 4
    Nat.one_pos _ rfl Word64.eight_lt_size⟩

end PathStore

end Elbencho
