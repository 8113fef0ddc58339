import Elbencho.Args.BlockSizeText
import Elbencho.Tree.Base64
import Elbencho.Tree.Partition

/-!
# Tree files

`scanCustomTree` writes what it finds below a directory to a tree file: a header that says that
paths are in base64, and then a line for each file, with its size, and for each directory.
`PathStore` reads such a file line by line (`loadDirsFromFile`, `loadFilesFromFile`), and
`loadCustomTreeFile` reads it three times, for the directories, for the files below the share
size, which are not shared, and for the other ones.

A text is a list of characters, each of which is a byte.  A path is any list of bytes; the
stores of the model have it as a string (`ofBytes`), which says the same.

* `getLines_flatMap`: lines without line breaks are read back,
* `parseFileLine_entryLine`, `parseDirLine_entryLine`: so is the entry of a line,
* `loadLines_written`: the loader keeps the files whose sizes are in its range, in their order,
* **`loadCustomTreeFile_scanCustomTree`** puts these together.
-/

namespace Elbencho

open UnitTk

/-- A path as a string. -/
def ofBytes (bytes : List UInt8) : String := String.ofList (bytes.map Char.ofUInt8)

theorem ofBytes_injective : Function.Injective ofBytes := by
  intro bytes bytes' h
  have hchars : Function.Injective Char.ofUInt8 := by
    intro b c hbc
    have hnat : b.toUInt32.toNat = c.toUInt32.toNat := congrArg Char.toNat hbc
    rw [UInt8.toNat_toUInt32, UInt8.toNat_toUInt32] at hnat
    exact UInt8.toNat_inj.mp hnat
  exact hchars.list_map (String.ofList_injective h)

theorem ofBytes_ne_empty {bytes : List UInt8} (h : bytes ≠ []) : ofBytes bytes ≠ "" :=
  fun hempty => h (ofBytes_injective (hempty.trans rfl))

/-! ## Writing -/

/-- What the scan knows of a regular file. -/
structure ScannedFile where
  path : List UInt8
  size : ℕ
  path_ne_nil : path ≠ []
  size_lt : size < Word64.size

/-- What the scan finds: neither a file nor a directory is not written. -/
inductive DirEntry where
  | file (f : ScannedFile)
  | directory (path : List UInt8) (path_ne_nil : path ≠ [])
  | other

/-- `TREEFILE_BASE64ENCODING_HEADER`. -/
def treeFileHeader : List Char :=
  ['#', ' ', 'e', 'n', 'c', 'o', 'd', 'i', 'n', 'g', '=', 'b', 'a', 's', 'e', '6', '4']

/-- The line of an entry, after `PATHSTORE_FILE_LINE_PREFIX` or `PATHSTORE_DIR_LINE_PREFIX`. -/
def DirEntry.line : DirEntry → List (List Char)
  | .file f => ['f' :: ' ' :: (Nat.toDigits 10 f.size ++ ' ' :: Base64Encoder.encode f.path)]
  | .directory path _ => ['d' :: ' ' :: Base64Encoder.encode path]
  | .other => []

/-- `scanCustomTree`: every line ends with a line break. -/
def scanCustomTree (entries : List DirEntry) : List Char :=
  (treeFileHeader :: entries.flatMap DirEntry.line).flatMap (· ++ ['\n'])

/-! ## Reading -/

/-- The lines that `std::getline` gives until the stream fails: what follows the last line
break is a line if it is not empty. -/
def getLines (text : List Char) : List (List Char) :=
  let pieces := text.splitOn '\n'
  if pieces.getLast? = some [] then pieces.dropLast else pieces

/-- `stream >> str`: the next word, and the rest. -/
def readWord (cs : List Char) : List Char × List Char :=
  (cs.dropWhile isSpace).span fun c => !isSpace c

/-- What follows a number. -/
def afterNumber (cs : List Char) : List Char :=
  match cs.dropWhile isSpace with
  | '-' :: cs => cs.dropWhile Char.isDigit
  | '+' :: cs => cs.dropWhile Char.isDigit
  | cs => cs.dropWhile Char.isDigit

/-- `boost::trim`. -/
def trim (cs : List Char) : List Char :=
  ((cs.dropWhile isSpace).reverse.dropWhile isSpace).reverse

/-- The rest of a line as a path. -/
def readPath (isBase64Encoding : Bool) (rest : List Char) : String :=
  if isBase64Encoding then ofBytes (Base64Encoder.decode (trim rest))
  else String.ofList (trim rest)

/-- `checkBase64Encoding`: the header is searched up to the first line that is neither empty
nor a comment. -/
def checkBase64Encoding : List (List Char) → Bool
  | [] => false
  | line :: lines =>
    if line = treeFileHeader then true
    else if line ≠ [] ∧ line.head? ≠ some '#' then false
    else checkBase64Encoding lines

/-- A line in `loadFilesFromFile`. -/
def parseFileLine (isBase64Encoding : Bool) (line : List Char) : PathStore.TreeLine :=
  let (linePrefix, rest) := readWord line
  if linePrefix ≠ ['f'] then .other
  else .file ((stoull rest).map UInt64.toNat) (readPath isBase64Encoding (afterNumber rest))

/-- A line in `loadDirsFromFile`: the path, if it is the line of a directory. -/
def parseDirLine (isBase64Encoding : Bool) (line : List Char) : Option String :=
  let (linePrefix, rest) := readWord line
  if linePrefix ≠ ['d'] then none else some (readPath isBase64Encoding rest)

namespace PathStore

/-- The file lines of a tree file. -/
def treeLines (text : List Char) : List TreeLine :=
  (getLines text).map (parseFileLine (checkBase64Encoding (getLines text)))

/-- The lines of `loadDirsFromFile` from some line on. -/
def loadDirLines (treeFile : String) (isBase64Encoding : Bool) :
    ℕ → List (List Char) → PathStore → Except Stop PathStore
  | _, [], s => .ok s
  | lineNum, line :: lines, s =>
    match parseDirLine isBase64Encoding line with
    | none => loadDirLines treeFile isBase64Encoding (lineNum + 1) lines s
    | some path =>
      if path = "" then
        .error (.threw ("Encountered invalid directory line without path in input file. File: " ++
          treeFile ++ "; Line number: " ++ toString lineNum))
      else loadDirLines treeFile isBase64Encoding (lineNum + 1) lines (s.push ⟨path, 0, 0, 0⟩ 0 0)

/-- `loadDirsFromFile`. -/
def loadDirsFromFile (s : PathStore) (treeFile : String) (text : List Char) :
    Except Stop PathStore :=
  loadDirLines treeFile (checkBase64Encoding (getLines text)) 0 (getLines text) s

/-- `sortByPathLen`: by length, and alphabetically among paths of the same length. -/
def sortByPathLen (s : PathStore) : PathStore :=
  { s with
    paths := s.paths.mergeSort fun a b =>
      ¬ (b.path.length < a.path.length ∨ b.path.length = a.path.length ∧ b.path < a.path) }

end PathStore

/-- `CustomTree`. -/
structure CustomTree where
  dirs : PathStore
  filesNonShared : PathStore
  filesShared : PathStore

/-- What `loadCustomTreeFile` depends on.  The share size is not zero. -/
structure TreeLoadArgs where
  tree : TreeArgs
  treeFilePath : String
  runCreateDirsPhase : Bool
  runDeleteDirsPhase : Bool
  runStatFilesPhase : Bool
  runReadPhase : Bool
  runDeleteFilesPhase : Bool
  runS3AclPut : Bool
  runS3AclGet : Bool
  runS3BucketAclPut : Bool
  runS3BucketAclGet : Bool
  blockSizeMix : BlockSizeMix
  fileShareSize : ℕ
  treeRoundUpSize : ℕ
  fileShareSize_pos : 0 < fileShareSize
  fileShareSize_lt : fileShareSize < Word64.size

namespace TreeLoadArgs

def loadsDirs (a : TreeLoadArgs) : Bool := a.runCreateDirsPhase || a.runDeleteDirsPhase

def loadsFiles (a : TreeLoadArgs) : Bool :=
  a.tree.runCreateFilesPhase || a.runStatFilesPhase || a.runReadPhase || a.runDeleteFilesPhase ||
    a.runS3AclPut || a.runS3AclGet || a.runS3BucketAclPut || a.runS3BucketAclGet

/-- The files of the tree file in a range of sizes. -/
def loadFiles (a : TreeLoadArgs) (text : List Char) (minFileSize maxFileSize : ℕ) :
    Except Stop PathStore :=
  (PathStore.empty a.blockSizeMix.getMaxSize).loadFilesFromFile a.treeFilePath
    (PathStore.treeLines text) minFileSize maxFileSize a.treeRoundUpSize

/-- The directories of the tree file, if they are needed. -/
def loadDirs (a : TreeLoadArgs) (text : List Char) : Except Stop PathStore :=
  if a.loadsDirs then
    PathStore.sortByPathLen <$> (PathStore.empty 0).loadDirsFromFile a.treeFilePath text
  else .ok (.empty 0)

/-- `loadCustomTreeFile`; `none` if the loop that selects the files of a service needs more
passes.  In the last case the store of the files that are not shared is sorted twice, and the
other one is not. -/
def loadCustomTreeFile (a : TreeLoadArgs) (text : List Char) (fuel : ℕ) :
    Except Stop (Option CustomTree) := do
  if a.treeFilePath = "" then return some ⟨.empty 0, .empty 0, .empty 0⟩
  let dirs ← a.loadDirs text
  if a.loadsFiles then
    let filesNonShared ← PathStore.sortByFileSize <$>
      a.loadFiles text 0 (Word64.sub a.fileShareSize 1)
    let filesSharedTemp ← a.loadFiles text a.fileShareSize (Word64.size - 1)
    if a.tree.splitsByService then
      let filesShared ← a.tree.filesShared filesSharedTemp.sortByFileSize fuel
      return filesShared.map fun filesShared => ⟨dirs, filesNonShared, filesShared⟩
    else return some ⟨dirs, filesNonShared.sortByFileSize, filesSharedTemp⟩
  else return some ⟨dirs, .empty 0, .empty 0⟩

end TreeLoadArgs

/-! ## Lines -/

theorem flatMap_eq_intercalate (lines : List (List Char)) :
    lines.flatMap (· ++ ['\n']) = ['\n'].intercalate (lines ++ [[]]) := by
  induction lines with
  | nil => rfl
  | cons line lines ih =>
    rw [List.flatMap_cons, ih, List.cons_append, List.intercalate_cons_of_ne_nil (by simp)]

/-- **Lines without line breaks are read back.** -/
theorem getLines_flatMap {lines : List (List Char)} (h : ∀ line ∈ lines, '\n' ∉ line) :
    getLines (lines.flatMap (· ++ ['\n'])) = lines := by
  have hpieces : (lines.flatMap (· ++ ['\n'])).splitOn '\n' = lines ++ [[]] := by
    rw [flatMap_eq_intercalate]
    refine List.splitOn_intercalate '\n' ?_ (by simp)
    intro line hline
    rcases List.mem_append.mp hline with hline | hline
    · exact h line hline
    · rw [List.mem_singleton.mp hline]
      exact List.not_mem_nil
  rw [getLines, hpieces, List.getLast?_concat, if_pos rfl, List.dropLast_concat]

/-- A path in base64 has no spaces, and in particular no line breaks. -/
theorem isSpace_of_mem_encode {path : List UInt8} {c : Char}
    (hc : c ∈ Base64Encoder.encode path) : isSpace c = false := by
  obtain ⟨zeros, groups, padding, -, hfilled, hencode⟩ := Base64Encoder.exists_encode path
  rw [hencode] at hc
  rcases List.mem_append.mp hc with hc | hc
  · obtain ⟨g, hg, rfl⟩ := List.mem_map.mp hc
    have hall : ∀ i : Fin (2 ^ 6), isSpace (Base64Encoder.charOf i) = false := by decide
    exact hall ⟨g, hfilled.lt g hg⟩
  · rw [List.eq_of_mem_replicate hc]
    rfl

theorem trim_of_forall {cs : List Char} (h : ∀ c ∈ cs, isSpace c = false) :
    trim (' ' :: cs) = cs := by
  have hspaces : ∀ {l : List Char}, (∀ c ∈ l, isSpace c = false) → l.dropWhile isSpace = l := by
    intro l hl
    refine List.dropWhile_eq_self_iff.mpr fun hpos => ?_
    simp [hl _ (List.getElem_mem hpos)]
  rw [trim, List.dropWhile_cons_of_pos (by rfl), hspaces h,
    hspaces fun c hc => h c (List.mem_reverse.mp hc), List.reverse_reverse]

theorem readPath_encode (path : List UInt8) :
    readPath true (' ' :: Base64Encoder.encode path) = ofBytes path := by
  rw [readPath, if_pos rfl, trim_of_forall fun c hc => isSpace_of_mem_encode hc,
    Base64Encoder.decode_encode]

/-- A number between two spaces. -/
theorem dropWhile_number (n : ℕ) (rest : List Char) :
    ∃ c cs, (' ' :: (Nat.toDigits 10 n ++ ' ' :: rest)).dropWhile isSpace = c :: cs ∧
      c.isDigit = true ∧ c :: cs = Nat.toDigits 10 n ++ ' ' :: rest := by
  obtain ⟨c, cs, hcs⟩ := List.exists_cons_of_ne_nil (Nat.toDigits_ne_nil (n := n) (b := 10))
  have hc : c.isDigit = true := isDigit_of_mem (n := n) (hcs ▸ List.mem_cons_self)
  refine ⟨c, cs ++ ' ' :: rest, ?_, hc, by rw [hcs, List.cons_append]⟩
  rw [List.dropWhile_cons_of_pos (by rfl), hcs, List.cons_append,
    List.dropWhile_cons_of_neg (by simp [isSpace_of_isDigit hc])]

theorem dropWhile_isDigit_number (n : ℕ) (rest : List Char) :
    (Nat.toDigits 10 n ++ ' ' :: rest).dropWhile Char.isDigit = ' ' :: rest := by
  rw [List.dropWhile_append_of_pos fun c hc => isDigit_of_mem hc]
  rfl

/-- **The size of a file is read back**, and the path follows. -/
theorem stoull_number {n : ℕ} (hn : n < Word64.size) (rest : List Char) :
    (stoull (' ' :: (Nat.toDigits 10 n ++ ' ' :: rest))).map UInt64.toNat = some n := by
  have hspace : ∀ c ∈ (' ' :: rest).head?, c.isDigit = false := by simp
  have hdigits := signAndDigits_append (Nat.toDigits_ne_nil (n := n) (b := 10))
    (fun c hc => isDigit_of_mem hc) hspace
  rw [← signAndDigits_space] at hdigits
  have hword : n < UInt64.size := hn
  have hnot : ¬ (Nat.toDigits 10 n = [] ∨ UInt64.size ≤ n) :=
    not_or.mpr ⟨Nat.toDigits_ne_nil, Nat.not_le.mpr hword⟩
  rw [stoull, hdigits]
  simp only [Nat.ofDigitChars_ten_toDigits, if_neg hnot, if_neg Bool.false_ne_true,
    Option.map_some, UInt64.toNat_ofNat_of_lt' hword]

theorem afterNumber_number (n : ℕ) (rest : List Char) :
    afterNumber (' ' :: (Nat.toDigits 10 n ++ ' ' :: rest)) = ' ' :: rest := by
  obtain ⟨c, cs, hdrop, hc, hcs⟩ := dropWhile_number n rest
  unfold afterNumber
  rw [hdrop]
  split
  · rename_i hminus
    exact absurd hc (by rw [(List.cons.inj hminus).1]; decide)
  · rename_i hplus
    exact absurd hc (by rw [(List.cons.inj hplus).1]; decide)
  · rw [hcs, dropWhile_isDigit_number]

/-! ## Entries -/

namespace DirEntry

/-- The files of an entry. -/
def files : DirEntry → List ScannedFile
  | .file f => [f]
  | _ => []

/-- The directories of an entry. -/
def dirs : DirEntry → List (List UInt8)
  | .directory path _ => [path]
  | _ => []

/-- What the loader of files makes of the line of an entry. -/
def treeLine : DirEntry → List PathStore.TreeLine
  | .file f => [.file (some f.size) (ofBytes f.path)]
  | .directory _ _ => [.other]
  | .other => []

/-- What the loader of directories makes of the line of an entry. -/
def dirLine : DirEntry → List (Option String)
  | .file _ => [none]
  | .directory path _ => [some (ofBytes path)]
  | .other => []

theorem lineBreak_notMem_line (e : DirEntry) : ∀ line ∈ e.line, '\n' ∉ line := by
  have hencode : ∀ path : List UInt8, '\n' ∉ Base64Encoder.encode path :=
    fun path hmem => Bool.false_ne_true (isSpace_of_mem_encode hmem).symm
  intro line hline
  cases e with
  | file f =>
    rw [List.mem_singleton.mp hline]
    simp [notMem_toDigits f.size (c := '\n') (by decide), hencode f.path]
  | directory path _ =>
    rw [List.mem_singleton.mp hline]
    simp [hencode path]
  | other => exact absurd hline List.not_mem_nil

theorem parseFileLine_line (e : DirEntry) : e.line.map (parseFileLine true) = e.treeLine := by
  cases e with
  | file f =>
    have hfile : ∀ rest, parseFileLine true ('f' :: ' ' :: rest) =
        .file ((stoull (' ' :: rest)).map UInt64.toNat)
          (readPath true (afterNumber (' ' :: rest))) := fun _ => rfl
    rw [line, List.map_singleton, hfile, stoull_number f.size_lt, afterNumber_number,
      readPath_encode]
    rfl
  | directory path _ => rfl
  | other => rfl

theorem parseDirLine_line (e : DirEntry) : e.line.map (parseDirLine true) = e.dirLine := by
  cases e with
  | file f => rfl
  | directory path _ =>
    have hdir : ∀ rest, parseDirLine true ('d' :: ' ' :: rest) =
        some (readPath true (' ' :: rest)) := fun _ => rfl
    rw [line, List.map_singleton, hdir, readPath_encode]
    rfl
  | other => rfl

end DirEntry

theorem getLines_scanCustomTree (entries : List DirEntry) :
    getLines (scanCustomTree entries) = treeFileHeader :: entries.flatMap DirEntry.line := by
  refine getLines_flatMap fun line hline => ?_
  rcases List.mem_cons.mp hline with rfl | hline
  · decide
  · obtain ⟨e, -, he⟩ := List.mem_flatMap.mp hline
    exact e.lineBreak_notMem_line line he

theorem checkBase64Encoding_scanCustomTree (entries : List DirEntry) :
    checkBase64Encoding (getLines (scanCustomTree entries)) = true := by
  rw [getLines_scanCustomTree, checkBase64Encoding, if_pos rfl]

/-- **The lines of the files** of a tree file. -/
theorem treeLines_scanCustomTree (entries : List DirEntry) :
    PathStore.treeLines (scanCustomTree entries) =
      .other :: entries.flatMap DirEntry.treeLine := by
  rw [PathStore.treeLines, checkBase64Encoding_scanCustomTree, getLines_scanCustomTree,
    List.map_cons, List.map_flatMap]
  simp only [DirEntry.parseFileLine_line]
  rfl

/-! ## Stores -/

/-- The entry of a store for a file of a tree file. -/
def ScannedFile.elem (f : ScannedFile) (roundUpSize : ℕ) : PathStoreElem :=
  let totalLen := PathStore.roundUp f.size roundUpSize
  ⟨ofBytes f.path, totalLen, 0, totalLen⟩

namespace PathStore

theorem sortByFileSize_perm (s : PathStore) : s.sortByFileSize.paths.Perm s.paths :=
  List.mergeSort_perm _ _

/-- The size of an entry is in a range. -/
def inRange (minFileSize maxFileSize : ℕ) (e : PathStoreElem) : Bool :=
  minFileSize ≤ e.totalLen ∧ e.totalLen ≤ maxFileSize

theorem inRange_elem (minFileSize maxFileSize roundUpSize : ℕ) (f : ScannedFile) :
    inRange minFileSize maxFileSize (f.elem roundUpSize) = true ↔
      ¬ (roundUp f.size roundUpSize < minFileSize ∨ maxFileSize < roundUp f.size roundUpSize) := by
  rw [inRange, decide_eq_true_eq, not_or, not_lt, not_lt]
  rfl

/-- **The files of the entries whose sizes are in the range are loaded**, in their order. -/
theorem loadLines_written (treeFile : String) (minFileSize maxFileSize roundUpSize : ℕ)
    (entries : List DirEntry) (lineNum : ℕ) (s : PathStore) (hs : s.blockSize ≠ 0) :
    ∃ s', loadLines treeFile minFileSize maxFileSize roundUpSize lineNum
        (entries.flatMap DirEntry.treeLine) s = .ok s' ∧
      s'.paths = s.paths ++ ((entries.flatMap DirEntry.files).map
        (ScannedFile.elem · roundUpSize)).filter (inRange minFileSize maxFileSize) := by
  induction entries generalizing lineNum s with
  | nil => exact ⟨s, rfl, (List.append_nil _).symm⟩
  | cons e entries ih =>
    cases e with
    | other => exact ih lineNum s hs
    | directory path _ => exact ih (lineNum + 1) s hs
    | file f =>
      rw [List.flatMap_cons, List.flatMap_cons, List.map_append, List.filter_append]
      show ∃ s', loadLines treeFile minFileSize maxFileSize roundUpSize lineNum
        (.file (some f.size) (ofBytes f.path) :: entries.flatMap DirEntry.treeLine) s = .ok s' ∧
        s'.paths = s.paths ++ ([f.elem roundUpSize].filter (inRange minFileSize maxFileSize) ++ _)
      rw [loadLines]
      by_cases hrange : roundUp f.size roundUpSize < minFileSize ∨
          maxFileSize < roundUp f.size roundUpSize
      · rw [if_pos hrange, List.filter_cons_of_neg ((inRange_elem ..).not.mpr (not_not.mpr hrange)),
          List.filter_nil]
        exact ih (lineNum + 1) s hs
      · rw [if_neg hrange, if_neg hs, if_neg (ofBytes_ne_empty f.path_ne_nil),
          List.filter_cons_of_pos ((inRange_elem ..).mpr hrange), List.filter_nil,
          ← List.append_assoc]
        exact ih (lineNum + 1) (s.push (f.elem roundUpSize) _ _) hs

/-- **The directories of the entries are loaded**, in their order. -/
theorem loadDirLines_written (treeFile : String) (entries : List DirEntry) (lineNum : ℕ)
    (s : PathStore) :
    ∃ s', loadDirLines treeFile true lineNum (entries.flatMap DirEntry.line) s = .ok s' ∧
      s'.paths = s.paths ++
        (entries.flatMap DirEntry.dirs).map fun path => ⟨ofBytes path, 0, 0, 0⟩ := by
  induction entries generalizing lineNum s with
  | nil => exact ⟨s, rfl, (List.append_nil _).symm⟩
  | cons e entries ih =>
    cases e with
    | other => exact ih lineNum s
    | file f => exact ih (lineNum + 1) s
    | directory path hpath =>
      have hline : parseDirLine true ('d' :: ' ' :: Base64Encoder.encode path) =
          some (ofBytes path) :=
        List.head_eq_of_cons_eq (DirEntry.parseDirLine_line (.directory path hpath))
      obtain ⟨s', hload, hpaths⟩ := ih (lineNum + 1) (s.push ⟨ofBytes path, 0, 0, 0⟩ 0 0)
      refine ⟨s', ?_, hpaths.trans (List.append_assoc _ _ _)⟩
      show loadDirLines treeFile true lineNum
        (('d' :: ' ' :: Base64Encoder.encode path) :: entries.flatMap DirEntry.line) s = .ok s'
      rw [loadDirLines, hline]
      simp only [if_neg (ofBytes_ne_empty hpath)]
      exact hload

end PathStore

namespace TreeLoadArgs

variable (a : TreeLoadArgs)

/-- **The files of a tree file in a range of sizes.** -/
theorem loadFiles_scanCustomTree (entries : List DirEntry) (minFileSize maxFileSize : ℕ) :
    ∃ s, a.loadFiles (scanCustomTree entries) minFileSize maxFileSize = .ok s ∧
      s.paths = ((entries.flatMap DirEntry.files).map (ScannedFile.elem · a.treeRoundUpSize)).filter
        (PathStore.inRange minFileSize maxFileSize) := by
  have hpos : (PathStore.empty a.blockSizeMix.getMaxSize).blockSize ≠ 0 :=
    (a.blockSizeMix.pos_of_mem a.blockSizeMix.getMaxSize_mem).ne'
  obtain ⟨s, hload, hpaths⟩ := PathStore.loadLines_written a.treeFilePath minFileSize maxFileSize
    a.treeRoundUpSize entries 1 _ hpos
  refine ⟨s, ?_, hpaths.trans (List.nil_append _)⟩
  rw [loadFiles, treeLines_scanCustomTree]
  exact hload

theorem loadDirs_scanCustomTree (entries : List DirEntry) :
    ∃ s, (PathStore.empty 0).loadDirsFromFile a.treeFilePath (scanCustomTree entries) = .ok s ∧
      s.paths = (entries.flatMap DirEntry.dirs).map fun path => ⟨ofBytes path, 0, 0, 0⟩ := by
  obtain ⟨s, hload, hpaths⟩ := PathStore.loadDirLines_written a.treeFilePath entries 1
    (PathStore.empty 0)
  refine ⟨s, ?_, hpaths.trans (List.nil_append _)⟩
  rw [PathStore.loadDirsFromFile, checkBase64Encoding_scanCustomTree, getLines_scanCustomTree]
  exact hload

/-- Every size is below the share size, or in the range of the shared files. -/
theorem inRange_shared {e : PathStoreElem} (he : e.totalLen < Word64.size) :
    PathStore.inRange a.fileShareSize (Word64.size - 1) e =
      !PathStore.inRange 0 (Word64.sub a.fileShareSize 1) e := by
  have hpos := a.fileShareSize_pos
  rw [Word64.sub_eq hpos a.fileShareSize_lt, Bool.eq_iff_iff, Bool.not_eq_true', PathStore.inRange,
    PathStore.inRange, decide_eq_true_eq, decide_eq_false_iff_not]
  omega

theorem elem_totalLen_lt (f : ScannedFile) (roundUpSize : ℕ) :
    (f.elem roundUpSize).totalLen < Word64.size := by
  show PathStore.roundUp f.size roundUpSize < Word64.size
  rw [PathStore.roundUp]
  split_ifs
  · exact Word64.add_lt _ _
  · exact f.size_lt

/-- **The two loads of the files**: each file is found by one of them. -/
theorem exists_loadFiles (entries : List DirEntry) :
    ∃ nonShared shared,
      a.loadFiles (scanCustomTree entries) 0 (Word64.sub a.fileShareSize 1) = .ok nonShared ∧
      a.loadFiles (scanCustomTree entries) a.fileShareSize (Word64.size - 1) = .ok shared ∧
      (nonShared.paths ++ shared.paths).Perm
        ((entries.flatMap DirEntry.files).map (ScannedFile.elem · a.treeRoundUpSize)) ∧
      (∀ e ∈ nonShared.paths, e.totalLen < a.fileShareSize) ∧
      ∀ e ∈ shared.paths, a.fileShareSize ≤ e.totalLen ∧ e.totalLen ≠ 0 := by
  have hpos := a.fileShareSize_pos
  obtain ⟨nonShared, hnonShared, hsmall⟩ := a.loadFiles_scanCustomTree entries 0
    (Word64.sub a.fileShareSize 1)
  obtain ⟨shared, hshared, hlarge⟩ := a.loadFiles_scanCustomTree entries a.fileShareSize
    (Word64.size - 1)
  refine ⟨nonShared, shared, hnonShared, hshared, ?_, fun e he => ?_, fun e he => ?_⟩
  · rw [hsmall, hlarge, List.filter_congr fun e he => a.inRange_shared (e := e) ?_]
    · exact List.filter_append_perm _ _
    · obtain ⟨f, -, rfl⟩ := List.mem_map.mp he
      exact elem_totalLen_lt f a.treeRoundUpSize
  · rw [hsmall] at he
    have hrange := of_decide_eq_true (List.mem_filter.mp he).2
    rw [Word64.sub_eq hpos a.fileShareSize_lt] at hrange
    omega
  · rw [hlarge] at he
    have hrange := of_decide_eq_true (List.mem_filter.mp he).2
    omega

theorem exists_loadDirs (entries : List DirEntry) :
    ∃ dirs, a.loadDirs (scanCustomTree entries) = .ok dirs := by
  obtain ⟨dirs, hdirs, -⟩ := a.loadDirs_scanCustomTree entries
  rw [loadDirs, hdirs]
  cases a.loadsDirs with
  | false => exact ⟨_, rfl⟩
  | true => exact ⟨_, rfl⟩

/-- `loadCustomTreeFile` once the tree file was read. -/
theorem loadCustomTreeFile_eq {text : List Char} (hfile : a.treeFilePath ≠ "")
    (hloads : a.loadsFiles = true) {dirs nonShared shared : PathStore}
    (hdirs : a.loadDirs text = .ok dirs)
    (hnonShared : a.loadFiles text 0 (Word64.sub a.fileShareSize 1) = .ok nonShared)
    (hshared : a.loadFiles text a.fileShareSize (Word64.size - 1) = .ok shared) (fuel : ℕ) :
    a.loadCustomTreeFile text fuel =
      if a.tree.splitsByService then
        (Option.map fun filesShared => ⟨dirs, nonShared.sortByFileSize, filesShared⟩) <$>
          a.tree.filesShared shared.sortByFileSize fuel
      else .ok (some ⟨dirs, nonShared.sortByFileSize.sortByFileSize, shared⟩) := by
  rw [loadCustomTreeFile, if_neg hfile, hdirs]
  simp only [hloads, if_true, hnonShared, hshared]
  cases a.tree.splitsByService with
  | false => rfl
  | true =>
    rw [if_pos rfl, map_eq_pure_bind]
    rfl

/-- **Main statement.**  Decoding undoes encoding; the directories and the files of a tree file
are those of the scan, with their paths and sizes; and of the two stores that
`loadCustomTreeFile` fills, each file is in one: in the store of the shared files if its size
(rounded up, if so asked) is at least the share size, and in the other one if not.  If services
take whole files, they take them from the former store. -/
theorem loadCustomTreeFile_scanCustomTree (entries : List DirEntry) (hfile : a.treeFilePath ≠ "")
    (hloads : a.loadsFiles = true) :
    (∀ bytes : List UInt8, Base64Encoder.decode (Base64Encoder.encode bytes) = bytes) ∧
    (∃ s, (PathStore.empty 0).loadDirsFromFile a.treeFilePath (scanCustomTree entries) = .ok s ∧
      s.paths = (entries.flatMap DirEntry.dirs).map fun path => ⟨ofBytes path, 0, 0, 0⟩) ∧
    (∃ s, (PathStore.empty a.blockSizeMix.getMaxSize).loadFilesFromFile a.treeFilePath
        (PathStore.treeLines (scanCustomTree entries)) 0 (Word64.size - 1) 0 = .ok s ∧
      s.paths = (entries.flatMap DirEntry.files).map fun f => ⟨ofBytes f.path, f.size, 0, f.size⟩) ∧
    ∃ dirs nonShared shared : PathStore,
      (nonShared.paths ++ shared.paths).Perm
        ((entries.flatMap DirEntry.files).map (ScannedFile.elem · a.treeRoundUpSize)) ∧
      (∀ e ∈ nonShared.paths, e.totalLen < a.fileShareSize) ∧
      (∀ e ∈ shared.paths, a.fileShareSize ≤ e.totalLen ∧ e.totalLen ≠ 0) ∧
      (a.tree.splitsByService = false → ∀ fuel,
        a.loadCustomTreeFile (scanCustomTree entries) fuel = .ok (some ⟨dirs, nonShared, shared⟩)) ∧
      (a.tree.splitsByService = true → ∀ fuel,
        a.loadCustomTreeFile (scanCustomTree entries) fuel =
          (Option.map fun filesShared => ⟨dirs, nonShared, filesShared⟩) <$>
            a.tree.filesShared shared fuel) := by
  refine ⟨Base64Encoder.decode_encode, a.loadDirs_scanCustomTree entries, ?_, ?_⟩
  · obtain ⟨s, hload, hpaths⟩ := loadFiles_scanCustomTree { a with treeRoundUpSize := 0 } entries 0
      (Word64.size - 1)
    refine ⟨s, hload, hpaths.trans ?_⟩
    refine (List.filter_eq_self.mpr fun e he => ?_).trans (List.map_congr_left fun f _ => rfl)
    obtain ⟨f, -, rfl⟩ := List.mem_map.mp he
    rw [PathStore.inRange, decide_eq_true_eq]
    exact ⟨Nat.zero_le _, Nat.le_sub_one_of_lt (elem_totalLen_lt f 0)⟩
  · obtain ⟨nonShared, shared, hnonShared, hshared, hperm, hsmall, hlarge⟩ :=
      a.exists_loadFiles entries
    obtain ⟨dirs, hdirs⟩ := a.exists_loadDirs entries
    have hload := a.loadCustomTreeFile_eq hfile hloads hdirs hnonShared hshared
    have hsort := nonShared.sortByFileSize_perm
    cases hsplit : a.tree.splitsByService with
    | false =>
      have hsort' := nonShared.sortByFileSize.sortByFileSize_perm.trans hsort
      refine ⟨dirs, nonShared.sortByFileSize.sortByFileSize, shared,
        (hsort'.append_right _).trans hperm, fun e he => hsmall e (hsort'.mem_iff.mp he), hlarge,
        fun _ fuel => ?_, fun h => absurd h Bool.false_ne_true⟩
      rw [hload fuel, hsplit]
      rfl
    | true =>
      have hsort' := shared.sortByFileSize_perm
      refine ⟨dirs, nonShared.sortByFileSize, shared.sortByFileSize,
        (hsort.append hsort').trans hperm, fun e he => hsmall e (hsort.mem_iff.mp he),
        fun e he => hlarge e (hsort'.mem_iff.mp he), fun h => absurd h.symm Bool.false_ne_true,
        fun _ fuel => ?_⟩
      rw [hload fuel, hsplit]
      rfl

/-- Every phase, on two threads, with blocks of two bytes, and files of four bytes shared. -/
def fourBytesShared : TreeLoadArgs where
  tree := ⟨false, .posix, true, false, false, 2, 2, 0, Nat.two_pos, Word64.two_lt_size⟩
  treeFilePath := "tree.txt"
  runCreateDirsPhase := true
  runDeleteDirsPhase := true
  runStatFilesPhase := true
  runReadPhase := true
  runDeleteFilesPhase := true
  runS3AclPut := false
  runS3AclGet := false
  runS3BucketAclPut := false
  runS3BucketAclGet := false
  blockSizeMix := .single 2 Nat.two_pos Word64.two_lt_size
  fileShareSize := 4
  treeRoundUpSize := 0
  fileShareSize_pos := Word64.four_pos
  fileShareSize_lt := Word64.four_lt_size

/-- A directory, an empty file in it whose name has a line break and a byte that is not a
character, and a shared file. -/
def oddEntries : List DirEntry :=
  [.directory [100] (by decide), .file ⟨[100, 47, 10, 255, 32], 0, by decide, Word64.size_pos⟩,
    .other, .file ⟨[98], 5, by decide, Word64.five_lt_size⟩]

theorem loadCustomTreeFile_scanCustomTree_oddEntries :
    ∃ dirs nonShared shared : PathStore,
      (nonShared.paths ++ shared.paths).Perm
        [⟨ofBytes [100, 47, 10, 255, 32], 0, 0, 0⟩, ⟨ofBytes [98], 5, 0, 5⟩] ∧
      (∀ e ∈ shared.paths, 4 ≤ e.totalLen) ∧
      fourBytesShared.loadCustomTreeFile (scanCustomTree oddEntries) 0 =
        .ok (some ⟨dirs, nonShared, shared⟩) := by
  obtain ⟨-, -, -, dirs, nonShared, shared, hperm, -, hlarge, hload, -⟩ :=
    fourBytesShared.loadCustomTreeFile_scanCustomTree oddEntries (by decide) (by decide)
  exact ⟨dirs, nonShared, shared, hperm, fun e he => (hlarge e he).1, hload rfl 0⟩

end TreeLoadArgs

end Elbencho
