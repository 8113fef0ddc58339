import Mathlib.Data.List.AList
import Elbencho.Library.Parties
import Elbencho.Library.Transition
import Elbencho.S3.SharedParts

/-!
# Uploads that workers share

The workers of a process share one map of unfinished uploads, `S3UploadStore`.  The first worker
that gets to an object creates the upload; every worker that has uploaded a part adds it to the
map; and whoever adds the last missing bytes takes the list of parts out of the map, sorts it and
completes the upload.  A worker that fails or is interrupted takes what is left in the map, one
entry after the other, and aborts it.

The state of a run is the map, the requests that the server has carried out, and where each worker
is.  The steps are the calls into the map, each under its mutex, and the requests.  A batch of
parts is submitted, the server answers in any order, and the answers are handled in the order of
the batch; with an I/O depth of one, a batch is a part.

Uploads that services share with each other are not in this model.
-/

namespace Elbencho

open Transition Parties

/-! ## The store -/

/-- `S3UploadElem`. -/
structure S3UploadElem where
  numBytesDone : ℕ
  uploadID : ℕ
  completedParts : List Part

/-- The map of `S3UploadStore`.  A custom tree is in one bucket, so the key is the object name. -/
abbrev S3UploadMap := AList fun _ : String => S3UploadElem

namespace S3UploadMap

/-- `getMultipartUploadID`: the ID of the upload of an object.  If the map has none, then the
server gives out the new one. -/
def getMultipartUploadID (map : S3UploadMap) (objectName : String) (newID : ℕ) :
    ℕ × S3UploadMap :=
  match map.lookup objectName with
  | some elem => (elem.uploadID, map)
  | none => (newID, map.insert objectName ⟨0, newID, []⟩)

/-- An entry to which a part was added. -/
def addPart (elem : S3UploadElem) (numProgressBytes : ℕ) (completedPart : Part) : S3UploadElem where
  numBytesDone := Word64.add elem.numBytesDone numProgressBytes
  uploadID := elem.uploadID
  completedParts := elem.completedParts ++ [completedPart]

/-- `addCompletedPart`: all parts of the object if this was the last one, and the map.  A part of an
upload that was aborted is rejected. -/
def addCompletedPart (map : S3UploadMap) (s3NoMpuCompletion : Bool) (objectName : String)
    (numProgressBytes objectTotalSize : ℕ) (completedPart : Part) :
    Option (List Part) × S3UploadMap :=
  match map.lookup objectName with
  | none => (none, map)
  | some elem =>
    let elem := addPart elem numProgressBytes completedPart
    if elem.numBytesDone < objectTotalSize ∨ s3NoMpuCompletion then
      (none, map.insert objectName elem)
    else (some elem.completedParts, map.erase objectName)

end S3UploadMap

/-! ## Workers -/

/-- The settings of a run with shared uploads. -/
structure UploadArgs extends SharedWriteArgs where
  s3IgnoreMultipartUpload404 : Bool
  randOffsetAlgo : RandAlgo

namespace UploadArgs

/-- The number of parts in a batch. -/
def depth (args : UploadArgs) : ℕ := if 1 < args.ioDepth then args.ioDepth else 1

/-- The parts of an entry. -/
def entryParts (args : UploadArgs) (e : PathStoreElem) : List Part :=
  (args.rangeParts args.randOffsetAlgo e).getD []

end UploadArgs

/-- An entry is uploaded together with other workers if it is not the whole object. -/
def PathStoreElem.Shared (e : PathStoreElem) : Prop := e.rangeLen < e.totalLen

instance (e : PathStoreElem) : Decidable e.Shared := Nat.decLt _ _

/-- The variables of `s3ModeUploadObjectMultiPartShared` and of its asynchronous version: the parts
that the offset generator still has, those that are submitted and not handled, each with whether
its answer is there, and whether the batch is still being submitted. -/
structure SharedUpload where
  elem : PathStoreElem
  uploadID : ℕ
  left : List Part
  batch : List (Part × Bool)
  submitting : Bool
  allCompletedParts : Option (List Part)

namespace SharedUpload

/-- The upload of an entry before the first part. -/
def start (e : PathStoreElem) (uploadID : ℕ) (parts : List Part) : SharedUpload :=
  ⟨e, uploadID, parts, [], true, none⟩

/-- A part is submitted. -/
def submit (u : SharedUpload) (depth : ℕ) : Option SharedUpload :=
  match u.submitting, u.left with
  | true, p :: left =>
    some { u with
      left := left
      batch := u.batch ++ [(p, false)]
      submitting := decide (u.batch.length + 1 < depth ∧ left ≠ []) }
  | _, _ => none

/-- The answer for a part of the batch arrives. -/
def answer (u : SharedUpload) (i : ℕ) : Option (Part × SharedUpload) :=
  match u.batch[i]? with
  | some (p, false) => some (p, { u with batch := u.batch.set i (p, true) })
  | _ => none

/-- The first part of the batch is taken, if the batch is submitted and its answer is there. -/
def next (u : SharedUpload) : Option (Part × List (Part × Bool)) :=
  match u.submitting, u.batch with
  | false, (p, true) :: batch => some (p, batch)
  | _, _ => none

/-- The first part of the batch was handled. -/
def handled (u : SharedUpload) (batch : List (Part × Bool))
    (allCompletedParts : Option (List Part)) : SharedUpload :=
  { u with
    batch := batch
    submitting := decide (batch = [] ∧ u.left ≠ [])
    allCompletedParts := allCompletedParts }

end SharedUpload

/-- Where a worker is. -/
inductive Uploader where
  /-- In front of an entry in `s3ModeIterateCustomObjects`. -/
  | iterating (todo : List PathStoreElem)
  | uploading (u : SharedUpload) (todo : List PathStoreElem)
  /-- In front of the completion request, with the sorted list of parts. -/
  | completing (objectName : String) (uploadID : ℕ) (parts : List Part) (todo : List PathStoreElem)
  /-- After `finishPhase`. -/
  | finished
  /-- In `s3ModeAbortUnfinishedSharedUploads`, with an upload that is out of the map and not aborted
  yet. -/
  | cleaning (taken : Option (String × ℕ))
  /-- Terminated, after an exception or without. -/
  | terminated (failed : Bool)

/-- A request that the server has carried out. -/
inductive S3Request where
  | createMultipartUpload (objectName : String) (uploadID : ℕ)
  | uploadPart (objectName : String) (uploadID : ℕ) (part : Part)
  | completeMultipartUpload (objectName : String) (uploadID : ℕ) (parts : List Part)
  | abortMultipartUpload (objectName : String) (uploadID : ℕ)
  deriving DecidableEq

namespace S3Request

/-- The request creates an upload. -/
def creates : S3Request → Bool
  | createMultipartUpload _ _ => true
  | _ => false

/-- The request ends the upload with this ID by completing it. -/
def completes (id : ℕ) : S3Request → Bool
  | completeMultipartUpload _ uploadID _ => uploadID = id
  | _ => false

/-- The request ends the upload with this ID by aborting it. -/
def aborts (id : ℕ) : S3Request → Bool
  | abortMultipartUpload _ uploadID => uploadID = id
  | _ => false

end S3Request

/-- The answer to a completion request. -/
inductive CompletionOutcome where
  | success
  | notFound
  | failed
  deriving DecidableEq

/-! ## Runs -/

/-- A run of `n` workers. -/
structure UploadRun (n : ℕ) where
  map : S3UploadMap
  requests : List S3Request
  worker : Fin n → Uploader

inductive UploadAction (n : ℕ) where
  | begin (w : Fin n)
  | submit (w : Fin n)
  | answer (w : Fin n) (i : ℕ)
  | handle (w : Fin n)
  | leave (w : Fin n)
  | complete (w : Fin n) (outcome : CompletionOutcome)
  | finishPhase (w : Fin n)
  /-- A request fails, or the worker finds that it was interrupted. -/
  | throw (w : Fin n)
  | takeUnfinished (w : Fin n) (objectName : String)
  | abort (w : Fin n)
  | endCleaning (w : Fin n)
  | terminate (w : Fin n)

namespace UploadRun

variable {n : ℕ}

/-- Nothing was uploaded yet. -/
def start (lists : Fin n → List PathStoreElem) : UploadRun n :=
  ⟨∅, [], fun w => .iterating (lists w)⟩

def setWorker (s : UploadRun n) (w : Fin n) (x : Uploader) : UploadRun n :=
  { s with worker := Function.update s.worker w x }

/-- The ID of the next upload that is created. -/
def newID (s : UploadRun n) : ℕ := s.requests.countP S3Request.creates

/-- The server does not know the upload any more. -/
def Ended (s : UploadRun n) (id : ℕ) : Prop :=
  ∃ r ∈ s.requests, S3Request.completes id r = true ∨ S3Request.aborts id r = true

instance (s : UploadRun n) (id : ℕ) : Decidable (s.Ended id) :=
  inferInstanceAs (Decidable (∃ r ∈ s.requests, _))

/-- The call of `getMultipartUploadID` at the begin of a shared upload. -/
def startUpload (s : UploadRun n) (w : Fin n) (e : PathStoreElem) (todo : List PathStoreElem)
    (parts : List Part) : UploadRun n :=
  let (uploadID, map) := s.map.getMultipartUploadID e.path s.newID
  { map := map
    requests := if (s.map.lookup e.path).isSome then s.requests
      else s.requests ++ [.createMultipartUpload e.path uploadID]
    worker := Function.update s.worker w (.uploading (.start e uploadID parts) todo) }

/-- The call of `addCompletedPart` for the first part of the batch. -/
def addPart (args : UploadArgs) (s : UploadRun n) (w : Fin n) (u : SharedUpload)
    (todo : List PathStoreElem) (p : Part) (batch : List (Part × Bool)) : UploadRun n :=
  let (allCompletedParts, map) := s.map.addCompletedPart args.s3NoMpuCompletion u.elem.path
    p.blockSize u.elem.totalLen p
  { s with
    map := map
    -- "Completion returned by upload store, but bytes left to submit" is an exception
    worker := Function.update s.worker w
      (if allCompletedParts.isSome ∧ u.left ≠ [] then .cleaning none
      else .uploading (u.handled batch allCompletedParts) todo) }

/-- After the loop over the parts. -/
def leaveUpload (args : UploadArgs) (u : SharedUpload) (todo : List PathStoreElem) : Uploader :=
  if args.s3NoMpuCompletion then .iterating todo
  else
    match u.allCompletedParts with
    | none => .iterating todo
    | some parts => .completing u.elem.path u.uploadID (parts.mergeSort Part.le) todo

/-- The answer to the completion request. -/
def completed (args : UploadArgs) (s : UploadRun n) (w : Fin n) (objectName : String)
    (uploadID : ℕ) (parts : List Part) (todo : List PathStoreElem) :
    CompletionOutcome → Option (UploadRun n)
  | .success =>
    some { s with
      requests := s.requests ++ [.completeMultipartUpload objectName uploadID parts]
      worker := Function.update s.worker w (.iterating todo) }
  | .notFound =>
    if ¬ s.Ended uploadID then none
    else if args.s3IgnoreMultipartUpload404 then some (s.setWorker w (.iterating todo))
    else some { s with
      requests := s.requests ++ [.abortMultipartUpload objectName uploadID]
      worker := Function.update s.worker w (.cleaning none) }
  | .failed =>
    some { s with
      requests := s.requests ++ [.abortMultipartUpload objectName uploadID]
      worker := Function.update s.worker w (.cleaning none) }

/-- An exception, where there can be one.  The asynchronous version checks for an interruption
after a batch too, when it may have the list of all parts. -/
def thrown (args : UploadArgs) : Uploader → Option Uploader
  | .iterating _ => some (.cleaning none)
  | .uploading u _ =>
    if 1 < args.ioDepth ∨ u.allCompletedParts = none then some (.cleaning none) else none
  | _ => none

/-- One step of a run. -/
def step (args : UploadArgs) (s : UploadRun n) : UploadAction n → Option (UploadRun n)
  | .begin w =>
    match s.worker w with
    | .iterating (e :: todo) =>
      if e.Shared then
        (args.rangeParts args.randOffsetAlgo e).map (s.startUpload w e todo)
      else some (s.setWorker w (.iterating todo))
    | _ => none
  | .submit w =>
    match s.worker w with
    | .uploading u todo => (u.submit args.depth).map fun u => s.setWorker w (.uploading u todo)
    | _ => none
  | .answer w i =>
    match s.worker w with
    | .uploading u todo => (u.answer i).map fun (p, u) =>
      { s with
        requests := s.requests ++ [.uploadPart u.elem.path u.uploadID p]
        worker := Function.update s.worker w (.uploading u todo) }
    | _ => none
  | .handle w =>
    match s.worker w with
    | .uploading u todo => u.next.map fun (p, batch) => s.addPart args w u todo p batch
    | _ => none
  | .leave w =>
    match s.worker w with
    | .uploading u todo =>
      if u.left = [] ∧ u.batch = [] then some (s.setWorker w (leaveUpload args u todo)) else none
    | _ => none
  | .complete w outcome =>
    match s.worker w with
    | .completing objectName uploadID parts todo =>
      s.completed args w objectName uploadID parts todo outcome
    | _ => none
  | .finishPhase w =>
    match s.worker w with
    | .iterating [] => some (s.setWorker w .finished)
    | _ => none
  | .throw w => (thrown args (s.worker w)).map (s.setWorker w)
  | .takeUnfinished w objectName =>
    match s.worker w with
    | .cleaning none => (s.map.lookup objectName).map fun elem =>
      { s with
        map := s.map.erase objectName
        worker := Function.update s.worker w (.cleaning (some (objectName, elem.uploadID))) }
    | _ => none
  | .abort w =>
    match s.worker w with
    | .cleaning (some (objectName, uploadID)) =>
      some { s with
        requests := s.requests ++ [.abortMultipartUpload objectName uploadID]
        worker := Function.update s.worker w (.cleaning none) }
    | _ => none
  | .endCleaning w =>
    match s.worker w with
    | .cleaning none =>
      if s.map.entries = [] then some (s.setWorker w (.terminated true)) else none
    | _ => none
  | .terminate w =>
    match s.worker w with
    | .finished => some (s.setWorker w (.terminated false))
    | _ => none

end UploadRun

end Elbencho
