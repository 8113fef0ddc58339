import Mathlib.Data.Char
import Mathlib.Data.Finset.Prod
import Mathlib.Data.Finset.Sort
import Mathlib.Data.List.Lex
import Elbencho.S3.ObjectNames

/-!
# Parallel listing of objects

Each rank lists the objects that it has written before: for each directory it asks the server for
the keys that begin with the path of the directory, page by page, until it has as many as there are
files or the server has no more.  With verification it compares the listing with the set of the
names it expects, in the order of the set.

A key is a list of characters, each of which is a byte, and keys are ordered like texts of bytes.

* `s3ModeIterateObjects` is the write phase of a rank, and `s3ModeListObjParallel` its listing.
* `receiveListing_eq`: the pages do not matter.
* `s3ModeVerifyListing_eq_ok_iff`: the verification compares two ordered sets.
* **`listing_verified_iff`**: the listing of every rank is verified exactly if the object prefix has
  no three marks in a row.  The prefix of the request is made before the marks are replaced.
-/

namespace Elbencho

open Checks

/-- The objects of a server: the name of the bucket and the key. -/
abbrev StoredObjects := Finset (String × List Char)

/-- The keys of a bucket that begin with some text, in their order. -/
def StoredObjects.keys (stored : StoredObjects) (bucketName : String) (listPrefix : List Char) :
    List (List Char) :=
  ((stored.filter fun o => o.1 = bucketName ∧ listPrefix <+: o.2).image Prod.snd).sort (· ≤ ·)

/-! ## The write phase -/

namespace ObjectArgs

variable (a : ObjectArgs)

/-- A path must be shorter than the buffer. -/
def checkPath (what : String) (workerRank dirIndex fileIndex : ℕ) : Except Stop PUnit :=
  stopIf (¬ Fits (a.objectPath workerRank dirIndex fileIndex))
    (.threw (what ++ " path too long for static buffer. Buffer size: " ++ toString PATH_BUF_LEN ++
      "; workerRank: " ++ toString workerRank ++ "; dirIndex: " ++ toString dirIndex ++
      "; fileIndex: " ++ toString fileIndex))

/-- One pass of the loops of `s3ModeIterateObjects` in the write phase. -/
def writeObject (workerRank dirIndex : ℕ) (stored : StoredObjects) (fileIndex : ℕ) :
    Except Stop StoredObjects := do
  a.checkPath "object" workerRank dirIndex fileIndex
  pure (insert (a.bucketName workerRank dirIndex, a.objectName workerRank dirIndex fileIndex)
    stored)

/-- `s3ModeIterateObjects` in the write phase: all files of a directory before the next one. -/
def s3ModeIterateObjects (stored : StoredObjects) (workerRank : ℕ) : Except Stop StoredObjects :=
  (List.range a.numDirs).foldlM (fun stored dirIndex =>
    (List.range a.args.numFiles).foldlM (a.writeObject workerRank dirIndex) stored) stored

/-- The write phase of some ranks, into empty buckets. -/
def writePhase (numRanks : ℕ) : Except Stop StoredObjects :=
  (List.range numRanks).foldlM a.s3ModeIterateObjects ∅

/-! ## The listing -/

/-- The size of the next page.  At most 1000 keys are requested; the server sends any number of keys
from 1 to the requested one, if it has so many. -/
def keyCount (choice numObjectsLeft numKeys : ℕ) : ℕ :=
  let maxKeys := if numObjectsLeft > 1000 then 1000 else numObjectsLeft
  min (max 1 choice) (min maxKeys numKeys)

theorem keyCount_le (choice numObjectsLeft numKeys : ℕ) :
    keyCount choice numObjectsLeft numKeys ≤ numObjectsLeft ∧
      keyCount choice numObjectsLeft numKeys ≤ numKeys := by
  unfold keyCount
  simp only []
  split_ifs <;> omega

theorem keyCount_pos (choice : ℕ) {numObjectsLeft numKeys : ℕ} (hleft : numObjectsLeft ≠ 0)
    (hkeys : numKeys ≠ 0) : 0 < keyCount choice numObjectsLeft numKeys := by
  unfold keyCount
  simp only []
  split_ifs <;> omega

/-- The loop over the pages of a listing.  `choices` are the sizes of the pages that the server
would like to send, and `keys` are the keys that it has not sent yet. -/
def receiveListing (choices : ℕ → ℕ) (page : ℕ) (keys : List (List Char)) (numObjectsLeft : ℕ) :
    List (List Char) :=
  let count := keyCount (choices page) numObjectsLeft keys.length
  if keys.drop count ≠ [] ∧ Word64.sub numObjectsLeft count ≠ 0 then
    keys.take count ++ receiveListing choices (page + 1) (keys.drop count)
      (Word64.sub numObjectsLeft count)
  else keys.take count
termination_by keys.length
decreasing_by
  next hmore =>
    obtain ⟨hkeys, hleft⟩ := hmore
    have hle := keyCount_le (choices page) numObjectsLeft keys.length
    have hne : keys.length ≠ 0 := fun h => hkeys (List.drop_eq_nil_of_le (by omega))
    have hobjects : numObjectsLeft ≠ 0 := by
      rintro rfl
      have hcount : count = 0 := Nat.le_zero.mp hle.1
      rw [hcount] at hleft
      exact hleft (Nat.mod_self _)
    have hpos := keyCount_pos (choices page) hobjects hne
    rw [List.length_drop]
    omega

/-- The names that a rank expects in a directory, with the last object prefix. -/
def expectObject (workerRank dirIndex : ℕ) (s : List Char × Finset (List Char)) (fileIndex : ℕ) :
    Except Stop (List Char × Finset (List Char)) := do
  a.checkPath "Verification object" workerRank dirIndex fileIndex
  let objectPrefix :=
    if a.useS3ObjectPrefixRand then
      getS3RandObjectPrefix workerRank dirIndex fileIndex a.s3ObjectPrefix
    else s.1
  pure (objectPrefix, insert (objectPrefix ++ a.objectPath workerRank dirIndex fileIndex) s.2)

/-- The comparison of the entries, from some offset on. -/
def verifyEntries (s3EndpointStr bucketName : String) (listPrefix : List Char) :
    ℕ → List (List Char) → List (List Char) → Except Stop PUnit
  | currentOffset, expected :: expectedSet, received :: receivedList =>
    if expected = received then
      verifyEntries s3EndpointStr bucketName listPrefix (currentOffset + 1) expectedSet receivedList
    else
      .error (.threw ("Object listing v2 verification failed. " ++
        "Found object differs from expected object at offset. FoundObject: " ++
        String.ofList received ++ "; ExpectedObject: " ++ String.ofList expected ++
        "; ListingOffset: " ++ toString currentOffset ++ "; Endpoint: " ++ s3EndpointStr ++
        "; Bucket: " ++ bucketName ++ "; Prefix: " ++ String.ofList listPrefix ++
        "; NumObjectsExpected: " ++ toString (expected :: expectedSet).length ++
        "; NumObjectsReceived: " ++ toString (received :: receivedList).length))
  | _, _, _ => .ok ⟨⟩

/-- `s3ModeVerifyListing`. -/
def s3ModeVerifyListing (s3EndpointStr : String) (expectedSet : Finset (List Char))
    (receivedList : List (List Char)) (bucketName : String) (listPrefix : List Char) :
    Except Stop PUnit := do
  stopIf (expectedSet.card ≠ receivedList.length)
    (.threw ("Object listing v2 verification failed. " ++
      "Number of expected and number of received entries differ. Endpoint: " ++ s3EndpointStr ++
      "; Bucket: " ++ bucketName ++ "; Prefix: " ++ String.ofList listPrefix ++
      "; NumObjectsExpected: " ++ toString expectedSet.card ++
      "; NumObjectsReceived: " ++ toString receivedList.length))
  verifyEntries s3EndpointStr bucketName listPrefix 0 (expectedSet.sort (· ≤ ·)) receivedList

/-- A server: the objects, the sizes of the pages that it would like to send for each directory, and
its name in messages. -/
structure ListServer where
  stored : StoredObjects
  choices : ℕ → ℕ → ℕ
  endpoint : String

/-- The pass of `s3ModeListObjParallel` for one directory.  The object prefix is a variable of the
function: the pass begins with that of the last file before. -/
def listDir (server : ListServer) (workerRank : ℕ) (objectPrefix : List Char) (dirIndex : ℕ) :
    Except Stop (List Char) := do
  stopIf (¬ Fits (a.listPath workerRank dirIndex))
    (.threw ("object path too long for static buffer. Buffer size: " ++ toString PATH_BUF_LEN ++
      "; workerRank: " ++ toString workerRank ++ "; dirIndex: " ++ toString dirIndex))
  let bucketName := a.bucketName workerRank dirIndex
  let currentListPrefix := objectPrefix ++ a.listPath workerRank dirIndex
  let expected ← (List.range a.args.numFiles).foldlM (a.expectObject workerRank dirIndex)
    (objectPrefix, ∅)
  let receivedObjs := receiveListing (server.choices dirIndex) 0
    (server.stored.keys bucketName currentListPrefix) a.args.numFiles
  s3ModeVerifyListing server.endpoint expected.2 receivedObjs bucketName currentListPrefix
  pure expected.1

/-- `s3ModeListObjParallel`, with verification. -/
def s3ModeListObjParallel (server : ListServer) (workerRank : ℕ) : Except Stop (List Char) :=
  (List.range a.numDirs).foldlM (a.listDir server workerRank) a.s3ObjectPrefix

/-! ## What is received -/

/-- **The pages do not matter**: the listing has the first keys, as many as there are files. -/
theorem receiveListing_eq (choices : ℕ → ℕ) (page : ℕ) (keys : List (List Char))
    {numObjectsLeft : ℕ} (hlt : numObjectsLeft < Word64.size) :
    receiveListing choices page keys numObjectsLeft = keys.take numObjectsLeft := by
  induction hlen : keys.length using Nat.strongRecOn generalizing page keys numObjectsLeft with
  | _ n ih =>
    obtain ⟨hleft, hkeys⟩ := keyCount_le (choices page) numObjectsLeft keys.length
    have hpos : numObjectsLeft ≠ 0 → keys.length ≠ 0 →
        0 < keyCount (choices page) numObjectsLeft keys.length := keyCount_pos _
    rw [receiveListing]
    generalize keyCount (choices page) numObjectsLeft keys.length = count at *
    rw [Word64.sub_eq hleft hlt]
    split_ifs with hmore
    · have hne : keys.length ≠ 0 := fun h => hmore.1 (List.drop_eq_nil_of_le (by omega))
      have hcount := hpos (by omega) hne
      rw [ih (keys.drop count).length (by rw [List.length_drop]; omega) _ _ (by omega) rfl,
        ← List.take_add, Nat.add_sub_cancel' hleft]
    · rcases not_and_or.mp hmore with hall | hdone
      · have hend := List.drop_eq_nil_iff.mp (not_not.mp hall)
        rw [List.take_of_length_le hend, List.take_of_length_le (hend.trans hleft)]
      · rw [show count = numObjectsLeft by omega]

theorem verifyEntries_eq_ok_iff (s3EndpointStr bucketName : String) (listPrefix : List Char)
    (currentOffset : ℕ) {expected received : List (List Char)}
    (hlen : expected.length = received.length) (u : PUnit) :
    verifyEntries s3EndpointStr bucketName listPrefix currentOffset expected received = .ok u ↔
      expected = received := by
  induction expected generalizing received currentOffset with
  | nil =>
    rw [List.length_eq_zero_iff.mp hlen.symm]
    exact ⟨fun _ => rfl, fun _ => rfl⟩
  | cons e expected ih =>
    cases received with
    | nil => cases hlen
    | cons r received =>
      rw [verifyEntries]
      split_ifs with her
      · rw [ih _ (Nat.succ.inj hlen), her, List.cons_inj_right]
      · exact ⟨(fun h => by cases h), fun h => absurd (List.cons.inj h).1 her⟩

/-- **The verification** compares the expected names, in their order, with the received keys. -/
theorem s3ModeVerifyListing_eq_ok_iff (s3EndpointStr : String) (expectedSet : Finset (List Char))
    (receivedList : List (List Char)) (bucketName : String) (listPrefix : List Char) (u : PUnit) :
    s3ModeVerifyListing s3EndpointStr expectedSet receivedList bucketName listPrefix = .ok u ↔
      expectedSet.sort (· ≤ ·) = receivedList := by
  rw [s3ModeVerifyListing, stopIf_bind_eq_ok, not_not]
  constructor
  · rintro ⟨hcard, hentries⟩
    refine (verifyEntries_eq_ok_iff _ _ _ _ ?_ u).mp hentries
    rw [Finset.length_sort, hcard]
  · intro h
    have hcard : expectedSet.card = receivedList.length := by
      rw [← h, Finset.length_sort]
    refine ⟨hcard, (verifyEntries_eq_ok_iff _ _ _ _ ?_ u).mpr h⟩
    rw [Finset.length_sort, hcard]

/-! ## What is written -/

section Written

variable {a : ObjectArgs} {workerRank dirIndex : ℕ}

/-- The paths of a rank fit into the buffer. -/
def RankFits (a : ObjectArgs) (workerRank : ℕ) : Prop :=
  ∀ dirIndex < a.numDirs, ∀ fileIndex < a.args.numFiles,
    Fits (a.objectPath workerRank dirIndex fileIndex)

instance (a : ObjectArgs) (workerRank : ℕ) : Decidable (a.RankFits workerRank) :=
  inferInstanceAs (Decidable (∀ dirIndex < _, ∀ fileIndex < _, Fits _))

/-- The objects of a rank. -/
def IsObject (a : ObjectArgs) (workerRank : ℕ) (o : String × List Char) : Prop :=
  ∃ dirIndex < a.numDirs, ∃ fileIndex < a.args.numFiles,
    o = (a.bucketName workerRank dirIndex, a.objectName workerRank dirIndex fileIndex)

theorem checkPath_bind {β : Type} (what : String) {fileIndex : ℕ}
    (hfit : Fits (a.objectPath workerRank dirIndex fileIndex)) (f : PUnit → Except Stop β) :
    a.checkPath what workerRank dirIndex fileIndex >>= f = f ⟨⟩ := by
  rw [checkPath, stopIf, if_neg (not_not.mpr hfit)]
  rfl

/-- A loop that adds objects. -/
theorem exists_foldlM_stored {f : StoredObjects → ℕ → Except Stop StoredObjects} {n : ℕ}
    {Q : ℕ → String × List Char → Prop}
    (hstep : ∀ x < n, ∀ stored, ∃ stored', f stored x = .ok stored' ∧
      ∀ o, o ∈ stored' ↔ o ∈ stored ∨ Q x o) (stored : StoredObjects) :
    ∃ stored', (List.range n).foldlM f stored = .ok stored' ∧
      ∀ o, o ∈ stored' ↔ o ∈ stored ∨ ∃ x < n, Q x o := by
  obtain ⟨stored', hok, -, hmem⟩ : ∃ stored', (List.range n).foldlM f stored = .ok stored' ∧
      True ∧ ∀ o, o ∈ stored' ↔ o ∈ stored ∨ ∃ x ∈ List.range n, Q x o := by
    refine exists_foldlM_of_collects (fun x hx s _ => ?_) trivial
    obtain ⟨s', hs', hmem⟩ := hstep x (List.mem_range.mp hx) s
    exact ⟨s', hs', trivial, hmem⟩
  refine ⟨stored', hok, fun o => ?_⟩
  rw [hmem]
  simp only [List.mem_range]

/-- A rank writes its objects. -/
theorem exists_s3ModeIterateObjects (hfit : a.RankFits workerRank) (stored : StoredObjects) :
    ∃ stored', a.s3ModeIterateObjects stored workerRank = .ok stored' ∧
      ∀ o, o ∈ stored' ↔ o ∈ stored ∨ a.IsObject workerRank o := by
  refine exists_foldlM_stored (fun dirIndex hdir stored => ?_) stored
  refine exists_foldlM_stored (fun fileIndex hfile stored => ?_) stored
  refine ⟨_, checkPath_bind "object" (hfit dirIndex hdir fileIndex hfile) _, fun o => ?_⟩
  rw [Finset.mem_insert, or_comm]

/-- **The write phase** leaves the objects of all ranks on the server. -/
theorem exists_writePhase {numRanks : ℕ} (hfit : ∀ rank < numRanks, a.RankFits rank) :
    ∃ stored, a.writePhase numRanks = .ok stored ∧
      ∀ o, o ∈ stored ↔ ∃ rank < numRanks, a.IsObject rank o := by
  obtain ⟨stored, hok, hmem⟩ := exists_foldlM_stored (f := a.s3ModeIterateObjects)
    (fun rank hrank stored => exists_s3ModeIterateObjects (hfit rank hrank) stored) ∅
  refine ⟨stored, hok, fun o => ?_⟩
  rw [hmem]
  simp only [Finset.notMem_empty, false_or]

end Written

/-! ## What is expected -/

section Expected

variable {a : ObjectArgs} {workerRank dirIndex : ℕ}

/-- The names of the objects of a rank in a directory. -/
def expectedNames (a : ObjectArgs) (workerRank dirIndex : ℕ) : Finset (List Char) :=
  (Finset.range a.args.numFiles).image (a.objectName workerRank dirIndex)

/-- Without marks, the object prefix does not change. -/
def PrefixOk (a : ObjectArgs) (objectPrefix : List Char) : Prop :=
  a.useS3ObjectPrefixRand = false → objectPrefix = a.s3ObjectPrefix

/-- The loop over the files of a directory expects the names of its objects. -/
theorem exists_foldlM_expectObject {objectPrefix : List Char} (hbase : a.PrefixOk objectPrefix)
    (hfit : ∀ fileIndex < a.args.numFiles, Fits (a.objectPath workerRank dirIndex fileIndex)) :
    ∃ last, (List.range a.args.numFiles).foldlM (a.expectObject workerRank dirIndex)
        (objectPrefix, ∅) = .ok (last, a.expectedNames workerRank dirIndex) ∧
      a.PrefixOk last := by
  obtain ⟨⟨last, expected⟩, hok, hlast, hmem⟩ : ∃ s,
      (List.range a.args.numFiles).foldlM (a.expectObject workerRank dirIndex) (objectPrefix, ∅) =
        .ok s ∧ a.PrefixOk s.1 ∧ ∀ o, o ∈ s.2 ↔ o ∈ (∅ : Finset (List Char)) ∨
          ∃ fileIndex ∈ List.range a.args.numFiles,
            o = a.objectName workerRank dirIndex fileIndex := by
    refine exists_foldlM_of_collects (fun fileIndex hfile s hs => ?_) hbase
    refine ⟨_, checkPath_bind _ (hfit fileIndex (List.mem_range.mp hfile)) _, ?_, fun o => ?_⟩
    · intro hmarks
      show (if a.useS3ObjectPrefixRand then _ else s.1) = a.s3ObjectPrefix
      rw [if_neg (by rw [hmarks]; exact Bool.false_ne_true), hs hmarks]
    · have hname : (if a.useS3ObjectPrefixRand then
            getS3RandObjectPrefix workerRank dirIndex fileIndex a.s3ObjectPrefix else s.1) =
          a.objectPrefix workerRank dirIndex fileIndex := by
        unfold ObjectArgs.objectPrefix
        split_ifs with hmarks
        · rfl
        · exact hs (Bool.eq_false_iff.mpr hmarks)
      show o ∈ insert _ s.2 ↔ _
      rw [hname, Finset.mem_insert, or_comm]
      rfl
  refine ⟨last, ?_, hlast⟩
  have hset : expected = a.expectedNames workerRank dirIndex := by
    ext o
    rw [hmem, expectedNames, Finset.mem_image]
    simp only [Finset.notMem_empty, false_or, List.mem_range, Finset.mem_range, eq_comm]
  rw [hok, hset]

/-- **The listing of a directory** is verified exactly if the expected names are the first keys that
the server has for the request. -/
theorem exists_listDir_eq_ok_iff {objectPrefix : List Char} (hbase : a.PrefixOk objectPrefix)
    (hfiles : 0 < a.args.numFiles)
    (hfit : ∀ fileIndex < a.args.numFiles, Fits (a.objectPath workerRank dirIndex fileIndex)) :
    ∃ last, a.PrefixOk last ∧ ∀ (server : ListServer) (p : List Char),
      a.listDir server workerRank objectPrefix dirIndex = .ok p ↔
        (a.expectedNames workerRank dirIndex).sort (· ≤ ·) =
            (server.stored.keys (a.bucketName workerRank dirIndex)
              (objectPrefix ++ a.listPath workerRank dirIndex)).take a.args.numFiles ∧
          last = p := by
  obtain ⟨last, hexpect, hlast⟩ := exists_foldlM_expectObject hbase hfit
  refine ⟨last, hlast, fun server p => ?_⟩
  have hpath : ¬ ¬ Fits (a.listPath workerRank dirIndex) :=
    not_not.mpr (a.fits_listPath (hfit 0 hfiles))
  rw [listDir, stopIf_bind_eq_ok, hexpect, ok_bind, bind_eq_ok,
    receiveListing_eq _ _ _ a.numFiles_lt]
  constructor
  · rintro ⟨-, u, hverify, hok⟩
    exact ⟨(s3ModeVerifyListing_eq_ok_iff _ _ _ _ _ u).mp hverify, Except.ok.inj hok⟩
  · rintro ⟨hsame, rfl⟩
    exact ⟨hpath, ⟨⟩, (s3ModeVerifyListing_eq_ok_iff _ _ _ _ _ _).mpr hsame, rfl⟩

end Expected

/-! ## Verified listings -/

theorem mem_keys {stored : StoredObjects} {bucketName : String} {listPrefix key : List Char} :
    key ∈ stored.keys bucketName listPrefix ↔ (bucketName, key) ∈ stored ∧ listPrefix <+: key := by
  rw [StoredObjects.keys, Finset.mem_sort, Finset.mem_image]
  constructor
  · rintro ⟨⟨bucket, key'⟩, ho, rfl⟩
    obtain ⟨hmem, rfl, hpre⟩ := Finset.mem_filter.mp ho
    exact ⟨hmem, hpre⟩
  · rintro ⟨hmem, hpre⟩
    exact ⟨(bucketName, key), Finset.mem_filter.mpr ⟨hmem, rfl, hpre⟩, rfl⟩

section Verified

variable {a : ObjectArgs} {numRanks rank : ℕ} {stored : StoredObjects}

/-- The server has the objects of all ranks, and no others. -/
def HoldsAll (a : ObjectArgs) (numRanks : ℕ) (stored : StoredObjects) : Prop :=
  ∀ o, o ∈ stored ↔ ∃ rank < numRanks, a.IsObject rank o

/-- **Without marks, the keys of a request are the names of its directory.** -/
theorem keys_eq_expectedNames (hall : a.HoldsAll numRanks stored)
    (hmarks : a.useS3ObjectPrefixRand = false) (hrank : rank < numRanks) {dirIndex : ℕ}
    (hdir : dirIndex < a.numDirs) :
    stored.keys (a.bucketName rank dirIndex) (a.s3ObjectPrefix ++ a.listPath rank dirIndex) =
      (a.expectedNames rank dirIndex).sort (· ≤ ·) := by
  have hname : ∀ r d f, a.objectName r d f = a.s3ObjectPrefix ++ a.objectPath r d f := by
    intro r d f
    rw [objectName, objectPrefix, if_neg (by rw [hmarks]; exact Bool.false_ne_true)]
  rw [StoredObjects.keys]
  congr 1
  ext key
  rw [← Finset.mem_sort (· ≤ ·), ← StoredObjects.keys, mem_keys, hall, expectedNames,
    Finset.mem_image]
  constructor
  · rintro ⟨⟨r, -, d, hd, f, hf, ho⟩, hpre⟩
    obtain ⟨-, rfl⟩ := Prod.mk.inj ho
    rw [hname, List.prefix_append_right_inj, a.listPath_isPrefix_iff hdir hd] at hpre
    obtain ⟨rfl, rfl⟩ := hpre
    exact ⟨f, Finset.mem_range.mpr hf, rfl⟩
  · rintro ⟨f, hf, rfl⟩
    refine ⟨⟨rank, hrank, dirIndex, hdir, f, Finset.mem_range.mp hf, rfl⟩, ?_⟩
    rw [hname, List.prefix_append_right_inj, a.listPath_isPrefix_iff hdir hdir]
    exact ⟨rfl, rfl⟩

/-- Without marks, every listing is verified. -/
theorem exists_listObjParallel_eq_ok (hall : a.HoldsAll numRanks stored)
    (hmarks : a.useS3ObjectPrefixRand = false) (hfiles : 0 < a.args.numFiles)
    (hrank : rank < numRanks) (hfit : a.RankFits rank) (choices : ℕ → ℕ → ℕ) (endpoint : String) :
    ∃ p, a.s3ModeListObjParallel ⟨stored, choices, endpoint⟩ rank = .ok p := by
  obtain ⟨p, hok, -⟩ : ∃ p, a.s3ModeListObjParallel ⟨stored, choices, endpoint⟩ rank = .ok p ∧
      a.PrefixOk p := by
    refine exists_foldlM_eq_ok (fun dirIndex hmem objectPrefix hbase => ?_) fun _ => rfl
    have hdir := List.mem_range.mp hmem
    obtain ⟨last, hlast, hiff⟩ := exists_listDir_eq_ok_iff hbase hfiles (hfit dirIndex hdir)
    refine ⟨last, (hiff _ _).mpr ⟨?_, rfl⟩, hlast⟩
    rw [hbase hmarks, keys_eq_expectedNames hall hmarks hrank hdir]
    refine (List.take_of_length_le ?_).symm
    rw [Finset.length_sort]
    exact Finset.card_image_le.trans_eq (Finset.card_range _)
  exact ⟨p, hok⟩

/-- **A missing object is noticed**, whatever else is on the server. -/
theorem exists_error_of_missing (hfiles : 0 < a.args.numFiles) (hfit : a.RankFits rank)
    {server : ListServer} {o : String × List Char} (ho : a.IsObject rank o)
    (hmissing : o ∉ server.stored) :
    ∃ e, a.s3ModeListObjParallel server rank = .error e := by
  cases hrun : a.s3ModeListObjParallel server rank with
  | error e => exact ⟨e, rfl⟩
  | ok p =>
    obtain ⟨dirIndex, hdir, fileIndex, hfile, rfl⟩ := ho
    -- the pass of the directory has gone through, so the server has the expected names
    obtain ⟨objectPrefix, p', hbase, hpass⟩ := exists_pass_of_foldlM_eq_ok
      (fun d hd u u' hu hstep => by
        obtain ⟨last, hlast, hiff⟩ :=
          exists_listDir_eq_ok_iff hu hfiles (hfit d (List.mem_range.mp hd))
        obtain ⟨-, rfl⟩ := (hiff server u').mp hstep
        exact hlast) (fun _ => rfl : a.PrefixOk a.s3ObjectPrefix) hrun (List.mem_range.mpr hdir)
    obtain ⟨last, -, hiff⟩ := exists_listDir_eq_ok_iff hbase hfiles (hfit dirIndex hdir)
    have hsame := ((hiff server p').mp hpass).1
    have hexpected : a.objectName rank dirIndex fileIndex ∈
        (a.expectedNames rank dirIndex).sort (· ≤ ·) :=
      (Finset.mem_sort _).mpr (Finset.mem_image_of_mem _ (Finset.mem_range.mpr hfile))
    rw [hsame] at hexpected
    exact absurd (mem_keys.mp (List.mem_of_mem_take hexpected)).1 hmissing

/-- With marks, the first request of a rank finds nothing. -/
theorem listObjParallel_ne_ok_of_marks (hall : a.HoldsAll numRanks stored)
    (hmarks : a.useS3ObjectPrefixRand = true) (hfiles : 0 < a.args.numFiles)
    (hfit : a.RankFits rank) (choices : ℕ → ℕ → ℕ) (endpoint : String) (p : List Char) :
    a.s3ModeListObjParallel ⟨stored, choices, endpoint⟩ rank ≠ .ok p := by
  intro hrun
  obtain ⟨n, hn⟩ : ∃ n, a.numDirs = n + 1 := Nat.exists_eq_add_one.mpr a.numDirs_pos
  rw [s3ModeListObjParallel, hn, List.range_succ_eq_map, List.foldlM_cons, bind_eq_ok] at hrun
  obtain ⟨p', hfirst, -⟩ := hrun
  obtain ⟨last, -, hiff⟩ := exists_listDir_eq_ok_iff
    (fun _ => rfl : a.PrefixOk a.s3ObjectPrefix) hfiles (hfit 0 a.numDirs_pos)
  obtain ⟨hsame, -⟩ := (hiff _ p').mp hfirst
  have hkeys : stored.keys (a.bucketName rank 0) (a.s3ObjectPrefix ++ a.listPath rank 0) = [] := by
    refine List.eq_nil_iff_forall_not_mem.mpr fun key hkey => ?_
    obtain ⟨hstored, hpre⟩ := mem_keys.mp hkey
    obtain ⟨r, -, d, -, f, -, ho⟩ := (hall _).mp hstored
    rw [(Prod.mk.inj ho).2] at hpre
    exact a.not_marks_isPrefix hmarks r d f _ hpre
  have hexpected : a.objectName rank 0 0 ∈ (a.expectedNames rank 0).sort (· ≤ ·) :=
    (Finset.mem_sort _).mpr (Finset.mem_image_of_mem _ (Finset.mem_range.mpr hfiles))
  rw [hsame, hkeys, List.take_nil] at hexpected
  exact absurd hexpected List.not_mem_nil

end Verified

/-- After the write phase of some ranks, the listing of each of them is verified, for all sizes of
pages; and the verification of a rank fails if one of its objects is missing. -/
structure ListingAgrees (numRanks : ℕ) : Prop where
  verified : ∃ stored, a.writePhase numRanks = .ok stored ∧
    ∀ rank < numRanks, ∀ choices endpoint,
      ∃ p, a.s3ModeListObjParallel ⟨stored, choices, endpoint⟩ rank = .ok p
  noticed : ∀ rank < numRanks, ∀ (server : ListServer) (o : String × List Char),
    a.IsObject rank o → o ∉ server.stored →
      ∃ e, a.s3ModeListObjParallel server rank = .error e

/-- **The listing agrees with the write phase** exactly if the object prefix has no three marks in a
row (or there is no rank). -/
theorem listing_verified_iff {numRanks : ℕ} (hfiles : 1 ≤ a.args.numFiles)
    (hfit : ∀ rank < numRanks, a.RankFits rank) :
    a.ListingAgrees numRanks ↔ numRanks = 0 ∨ a.useS3ObjectPrefixRand = false := by
  obtain ⟨stored, hwritten, hall⟩ := exists_writePhase hfit
  constructor
  · intro h
    by_contra hcond
    obtain ⟨hranks, hmarks⟩ := not_or.mp hcond
    obtain ⟨stored', hwritten', hverified⟩ := h.verified
    obtain rfl := Except.ok.inj (hwritten.symm.trans hwritten')
    have hrank := Nat.pos_of_ne_zero hranks
    obtain ⟨p, hp⟩ := hverified 0 hrank (fun _ _ => 1) ""
    exact listObjParallel_ne_ok_of_marks hall (Bool.eq_true_of_not_eq_false hmarks) hfiles
      (hfit 0 hrank) _ _ p hp
  · intro hcond
    refine ⟨⟨stored, hwritten, fun rank hrank choices endpoint => ?_⟩,
      fun rank hrank server o ho hmissing =>
        exists_error_of_missing hfiles (hfit rank hrank) ho hmissing⟩
    have hmarks : a.useS3ObjectPrefixRand = false := hcond.resolve_left (by omega)
    exact exists_listObjParallel_eq_ok hall hmarks hfiles hrank (hfit rank hrank) choices endpoint

/-- Four objects with some prefix. -/
def listedObjects (s3ObjectPrefix : List Char) : ObjectArgs :=
  fourObjects (.single 65536 Word64.block_pos Word64.block_lt_size) 65536 Word64.block_lt_size
    s3ObjectPrefix

/-- Two ranks without a prefix. -/
theorem listing_verified_iff_noPrefix : (listedObjects []).ListingAgrees 2 :=
  ((listedObjects []).listing_verified_iff (by decide) (by decide)).mpr (Or.inr (by decide))

/-- With three marks the listing of the first rank is not verified after its write phase. -/
theorem marked_listing_not_verified :
    ∃ stored, (listedObjects ['%', '%', '%']).writePhase 1 = .ok stored ∧
      ∀ choices endpoint p, (listedObjects ['%', '%', '%']).s3ModeListObjParallel
        ⟨stored, choices, endpoint⟩ 0 ≠ .ok p := by
  have hfit : ∀ rank < 1, (listedObjects ['%', '%', '%']).RankFits rank := by decide
  obtain ⟨stored, hwritten, hall⟩ := exists_writePhase hfit
  exact ⟨stored, hwritten, listObjParallel_ne_ok_of_marks hall (by decide) (by decide)
    (hfit 0 Nat.one_pos)⟩

end ObjectArgs

end Elbencho
