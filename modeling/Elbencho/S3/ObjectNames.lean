import Mathlib.Data.List.TakeWhile
import Elbencho.Args.PathDependent

/-!
# The names of objects

Outside of a custom tree, a worker makes the names of its objects from numbers: its rank, the index
of a directory and the index of a file.  The name follows an object prefix, in which three or more
marks are replaced by hex digits that depend on the same numbers, and the rank and the directory
select the bucket.  A text that is printed into the buffer of a path must be shorter than the
buffer.

* `listPath_isPrefix_iff`: the path that a listing looks for leads to the objects of one rank and
  one directory only, because its numbers can be read off.
* `not_marks_isPrefix`: a prefix with marks is not the beginning of any name, because the first mark
  is replaced by a digit.
-/

namespace Elbencho

/-- What the names of objects depend on. -/
structure ObjectArgs where
  args : ProgArgs
  doDirSharing : Bool
  s3ObjectPrefix : List Char
  numDirs_lt : args.numDirs < Word64.size
  numFiles_lt : args.numFiles < Word64.size

namespace ObjectArgs

/-! ## Paths -/

/-- The length of the buffer for paths. -/
def PATH_BUF_LEN : ℕ := 64

/-- The digits of a number in a path. -/
def digits (n : ℕ) : List Char := Nat.toDigits 10 n

variable (a : ObjectArgs)

/-- There are directories in the names. -/
def haveSubdirs : Bool := 0 < a.args.numDirs

/-- The number of directories, which is 1 without directories. -/
def numDirs : ℕ := if a.haveSubdirs then a.args.numDirs else 1

theorem numDirs_pos : 0 < a.numDirs := by
  unfold numDirs haveSubdirs
  split_ifs with h
  · exact of_decide_eq_true h
  · exact Nat.one_pos

theorem numDirs_lt_size : a.numDirs < Word64.size := by
  unfold numDirs
  split_ifs
  · exact a.numDirs_lt
  · exact Word64.one_lt_size

/-- The rank in the names of the directories of a worker. -/
def workerDirRank (workerRank : ℕ) : ℕ := if a.doDirSharing then 0 else workerRank

/-- The part of the path that the listing of a directory looks for. -/
def listPath (workerRank dirIndex : ℕ) : List Char :=
  if a.haveSubdirs then
    'r' :: (digits (a.workerDirRank workerRank) ++ '/' :: 'd' :: (digits dirIndex ++
      '/' :: 'r' :: (digits workerRank ++ ['-'])))
  else 'r' :: (digits workerRank ++ ['-'])

/-- The path of an object. -/
def objectPath (workerRank dirIndex fileIndex : ℕ) : List Char :=
  if a.haveSubdirs then
    'r' :: (digits (a.workerDirRank workerRank) ++ '/' :: 'd' :: (digits dirIndex ++
      '/' :: 'r' :: (digits workerRank ++ '-' :: 'f' :: digits fileIndex)))
  else 'r' :: (digits workerRank ++ '-' :: 'f' :: digits fileIndex)

/-- The path is printed into the buffer. -/
def Fits (path : List Char) : Prop := path.length < PATH_BUF_LEN

instance (path : List Char) : Decidable (Fits path) := inferInstanceAs (Decidable (_ < _))

/-! ## Prefixes and buckets -/

/-- The character that marks the random part of an object prefix. -/
def RAND_PREFIX_MARK_CHAR : Char := '%'

/-- `find` for three marks in a row. -/
def findMarks : List Char → Option ℕ
  | [] => none
  | c :: cs =>
    if (List.replicate 3 RAND_PREFIX_MARK_CHAR).isPrefixOf (c :: cs) then some 0
    else (findMarks cs).map (· + 1)

/-- `useS3ObjectPrefixRand`. -/
def useS3ObjectPrefixRand : Bool := (findMarks a.s3ObjectPrefix).isSome

/-- `RandAlgoGoldenPrimes`. -/
def randAlgoGoldenPrimes : List ℕ :=
  [0x9e37fffffffc0001, 0x9e3779b97f4a7c15, 0xbf58476d1ce4e5b9, 0x94d049bb133111eb]

/-- The first number of a `RandAlgoGoldenPrime` with a seed. -/
def randAlgoGoldenPrime (seed : ℕ) : ℕ :=
  Word64.mul seed (randAlgoGoldenPrimes.getD (seed % randAlgoGoldenPrimes.length) 0) / 2 ^ 3

/-- `HEX_ALPHABET`. -/
def hexAlphabet : List Char :=
  ['0', '1', '2', '3', '4', '5', '6', '7', '8', '9', 'A', 'B', 'C', 'D', 'E', 'F']

/-- The marks at the beginning of a text are replaced by the digits of a number. -/
def replaceMarks (randomNum : ℕ) : List Char → List Char
  | [] => []
  | c :: cs =>
    if c = RAND_PREFIX_MARK_CHAR then
      hexAlphabet.getD (randomNum % hexAlphabet.length) '0' ::
        replaceMarks (randomNum / hexAlphabet.length) cs
    else c :: cs

/-- `getS3RandObjectPrefix`. -/
def getS3RandObjectPrefix (workerRank dirIdx fileIdx : ℕ) (objectPrefix : List Char) : List Char :=
  match findMarks objectPrefix with
  | none => objectPrefix
  | some threeMarksPos =>
    let randomNum := randAlgoGoldenPrime (Word64.mul
      (Word64.mul (Word64.add workerRank 1) (Word64.add dirIdx 1)) (Word64.add fileIdx 1))
    objectPrefix.take threeMarksPos ++ replaceMarks randomNum (objectPrefix.drop threeMarksPos)

/-- The prefix of an object. -/
def objectPrefix (workerRank dirIndex fileIndex : ℕ) : List Char :=
  if a.useS3ObjectPrefixRand then
    getS3RandObjectPrefix workerRank dirIndex fileIndex a.s3ObjectPrefix
  else a.s3ObjectPrefix

/-- The name of an object. -/
def objectName (workerRank dirIndex fileIndex : ℕ) : List Char :=
  a.objectPrefix workerRank dirIndex fileIndex ++ a.objectPath workerRank dirIndex fileIndex

/-- The index of a bucket, which is a 32-bit number. -/
def bucketIndex (workerRank dirIndex : ℕ) : ℕ :=
  Word64.add workerRank dirIndex % a.args.benchPathsVec.length % 2 ^ 32

theorem bucketIndex_lt (workerRank dirIndex : ℕ) :
    a.bucketIndex workerRank dirIndex < a.args.benchPathsVec.length :=
  (Nat.mod_le _ _).trans_lt (Nat.mod_lt _ a.args.benchPathsVec_pos)

/-- The bucket for the objects of a directory. -/
def bucketName (workerRank dirIndex : ℕ) : String :=
  a.args.benchPathsVec.get ⟨a.bucketIndex workerRank dirIndex, a.bucketIndex_lt workerRank dirIndex⟩

/-! ## Reading off the numbers -/

/-- A row of characters of one kind ends where the first other character is. -/
theorem eq_of_isPrefix_append_cons {p : Char → Bool} {xs ys us vs : List Char} {c d : Char}
    (hxs : ∀ x ∈ xs, p x = true) (hys : ∀ y ∈ ys, p y = true) (hc : p c = false) (hd : p d = false)
    (h : xs ++ c :: us <+: ys ++ d :: vs) : xs = ys ∧ us <+: vs := by
  obtain ⟨rest, hrest⟩ := h
  rw [List.append_assoc, List.cons_append] at hrest
  have hrow := congrArg (List.takeWhile p) hrest
  have htail := congrArg (List.dropWhile p) hrest
  rw [List.takeWhile_append_of_pos hxs, List.takeWhile_append_of_pos hys,
    List.takeWhile_cons_of_neg (by rw [hc]; exact Bool.false_ne_true),
    List.takeWhile_cons_of_neg (by rw [hd]; exact Bool.false_ne_true), List.append_nil,
    List.append_nil] at hrow
  rw [List.dropWhile_append_of_pos hxs, List.dropWhile_append_of_pos hys,
    List.dropWhile_cons_of_neg (by rw [hc]; exact Bool.false_ne_true),
    List.dropWhile_cons_of_neg (by rw [hd]; exact Bool.false_ne_true)] at htail
  exact ⟨hrow, rest, (List.cons.inj htail).2⟩

theorem isDigit_of_mem_digits {n : ℕ} : ∀ c ∈ digits n, c.isDigit = true := fun _ hc =>
  Nat.isDigit_of_mem_toDigits (by decide) (by decide) hc

theorem digits_injective : Function.Injective digits := by
  intro n m h
  have hread := congrArg (Nat.ofDigitChars 10 · 0) h
  simp only [digits, Nat.ofDigitChars_ten_toDigits] at hread
  exact hread

/-- A number before a character that is no digit can be read off. -/
theorem digits_isPrefix {n m : ℕ} {c d : Char} {us vs : List Char} (hc : c.isDigit = false)
    (hd : d.isDigit = false) (h : digits n ++ c :: us <+: digits m ++ d :: vs) :
    n = m ∧ us <+: vs := by
  obtain ⟨hdigits, hrest⟩ :=
    eq_of_isPrefix_append_cons isDigit_of_mem_digits isDigit_of_mem_digits hc hd h
  exact ⟨digits_injective hdigits, hrest⟩

/-- The path of an object begins with the path that a listing looks for. -/
theorem objectPath_eq (workerRank dirIndex fileIndex : ℕ) :
    a.objectPath workerRank dirIndex fileIndex =
      a.listPath workerRank dirIndex ++ 'f' :: digits fileIndex := by
  unfold objectPath listPath
  split_ifs <;> simp only [List.cons_append, List.append_assoc, List.nil_append]

theorem fits_listPath {workerRank dirIndex fileIndex : ℕ}
    (h : Fits (a.objectPath workerRank dirIndex fileIndex)) :
    Fits (a.listPath workerRank dirIndex) := by
  rw [objectPath_eq, Fits, List.length_append] at h
  exact lt_of_le_of_lt (Nat.le_add_right _ _) h

theorem objectPath_injective (workerRank dirIndex : ℕ) :
    Function.Injective (a.objectPath workerRank dirIndex) := by
  intro f f' h
  rw [objectPath_eq, objectPath_eq] at h
  exact digits_injective (List.cons.inj (List.append_cancel_left h)).2

/-- **A listing finds the objects of its rank and directory only.** -/
theorem listPath_isPrefix_iff {rank rank' dir dir' file : ℕ} (hdir : dir < a.numDirs)
    (hdir' : dir' < a.numDirs) :
    a.listPath rank dir <+: a.objectPath rank' dir' file ↔ rank = rank' ∧ dir = dir' := by
  constructor
  · intro h
    unfold listPath objectPath at h
    split_ifs at h with hsub
    · obtain ⟨-, hafter⟩ := digits_isPrefix (by decide) (by decide) (List.cons_prefix_cons.mp h).2
      obtain ⟨hdirs, hafter⟩ :=
        digits_isPrefix (by decide) (by decide) (List.cons_prefix_cons.mp hafter).2
      obtain ⟨hranks, -⟩ :=
        digits_isPrefix (by decide) (by decide) (List.cons_prefix_cons.mp hafter).2
      exact ⟨hranks, hdirs⟩
    · obtain ⟨hranks, -⟩ := digits_isPrefix (by decide) (by decide) (List.cons_prefix_cons.mp h).2
      -- without directories there is one pass only
      rw [numDirs, if_neg hsub] at hdir hdir'
      exact ⟨hranks, by omega⟩
  · rintro ⟨rfl, rfl⟩
    rw [objectPath_eq]
    exact List.prefix_append _ _

/-! ## Marks -/

/-- The first of three marks is a mark. -/
theorem exists_drop_of_findMarks {text : List Char} {pos : ℕ} (h : findMarks text = some pos) :
    ∃ rest, text.drop pos = RAND_PREFIX_MARK_CHAR :: rest := by
  induction text generalizing pos with
  | nil => cases h
  | cons c cs ih =>
    rw [findMarks] at h
    split_ifs at h with hmarks
    · obtain rfl := Option.some.inj h
      obtain ⟨rest, hrest⟩ := List.isPrefixOf_iff_prefix.mp hmarks
      exact ⟨_, hrest.symm⟩
    · obtain ⟨pos', hpos', rfl⟩ := Option.map_eq_some_iff.mp h
      exact ih hpos'

/-- A mark is not a digit. -/
theorem hexAlphabet_getD_ne (i : ℕ) : hexAlphabet.getD i '0' ≠ RAND_PREFIX_MARK_CHAR := by
  rw [List.getD_eq_getElem?_getD]
  cases hget : hexAlphabet[i]? with
  | none => decide
  | some c =>
    have hall : (hexAlphabet.all fun c => decide (c ≠ RAND_PREFIX_MARK_CHAR)) = true := by decide
    exact of_decide_eq_true (List.all_eq_true.mp hall c (List.mem_of_getElem? hget))

/-- **A prefix with marks is not the beginning of any name.** -/
theorem not_marks_isPrefix (hmarks : a.useS3ObjectPrefixRand = true) (rank dir file : ℕ)
    (rest : List Char) : ¬ a.s3ObjectPrefix ++ rest <+: a.objectName rank dir file := by
  intro h
  obtain ⟨pos, hpos⟩ := Option.isSome_iff_exists.mp hmarks
  obtain ⟨after, hafter⟩ := exists_drop_of_findMarks hpos
  have hraw : a.s3ObjectPrefix = a.s3ObjectPrefix.take pos ++ RAND_PREFIX_MARK_CHAR :: after := by
    rw [← hafter, List.take_append_drop]
  rw [objectName, objectPrefix, if_pos hmarks, getS3RandObjectPrefix, hpos] at h
  simp only [hafter] at h
  rw [replaceMarks, if_pos rfl, List.append_assoc] at h
  nth_rewrite 1 [hraw] at h
  rw [List.append_assoc, List.prefix_append_right_inj, List.cons_append, List.cons_append] at h
  exact hexAlphabet_getD_ne _ (List.cons_prefix_cons.mp h).1.symm

/-- Four objects of 1 MiB in one directory for each rank, with random reads. -/
def fourObjects (mix : BlockSizeMix) (randomAmount : ℕ) (hamount : randomAmount < Word64.size)
    (s3ObjectPrefix : List Char) : ObjectArgs where
  args :=
    { benchMode := .s3
      benchPathType := .dir
      benchPathsVec := ["bucket"]
      treeFilePath := ""
      runCreateFilesPhase := false
      runReadPhase := true
      runStatFilesPhase := false
      hasUserSetRWMixPercent := false
      hasUserSetRWMixReadThreads := false
      runS3ListObjNum := 0
      runS3AclPut := false
      runS3AclGet := false
      runS3BucketAclPut := false
      runS3BucketAclGet := false
      s3EndpointsVec := ["http://localhost"]
      s3MpuSizeVariance := 0
      useS3RandObjSelect := true
      numDirs := 1
      numFiles := 4
      numDataSetThreads := 1
      doReverseSeqOffsets := false
      useRandomOffsets := true
      useRandomUnaligned := false
      useStridedAccess := false
      randOffsetAlgo := ""
      useDirectIo := false
      noDirectIoCheck := false
      doInfiniteIoLoop := false
      ignoreDelErrors := false
      fileSize := 2 ^ 20
      fileOffset := 0
      blockSize := mix.getMaxSize
      blockSizeMix := mix
      randomAmount := randomAmount
      journalDirStr := ""
      journalBlockSize := 4096
      fileSize_lt := Word64.mebi_lt_size
      fileOffset_lt := Word64.size_pos
      randomAmount_lt := hamount
      journalBlockSize_lt := Word64.page_lt_size
      numDataSetThreads_lt := Word64.one_lt_size
      blockSize_eq := ProgArgs.blockSize_eq_getMaxSize mix
      numDataSetThreads_pos := Nat.one_pos
      benchPathsVec_pos := Nat.one_pos
      onePattern := ProgArgs.onePattern_of_random
      noMix := ProgArgs.noMix_of_forward mix }
  doDirSharing := false
  s3ObjectPrefix := s3ObjectPrefix
  numDirs_lt := Word64.one_lt_size
  numFiles_lt := Word64.four_lt_size

end ObjectArgs

end Elbencho
