import Mathlib.Algebra.BigOperators.Group.List.Basic
import Elbencho.Stats.LatencyHistogram

/-!
# Results of a phase

At the end of a phase the program adds up what its workers did.  `WorkerStats` is what the
statistics read of a worker, and `generatePhaseResults` is the sum over a list of workers, local
or remote.

The sums are sums of a commutative monoid (`PhaseTotals`), and the first and the last finish
time depend on the list of all finish times only (`generatePhaseResults_eq`), not on its order
(`generatePhaseResults_perm`).  Stonewall values, the CPU utilization and the rates per second
are not part of the model.
-/

namespace Elbencho

/-! ## Workers -/

/-- `BenchPhase`, all of it. -/
inductive AnyBenchPhase where
  | idle | terminate | createDirs | deleteDirs | createFiles | deleteFiles | readFiles | sync
  | dropCaches | statFiles | statDirs | listObjects | listObjParallel | multiDelObj | putObjAcl
  | getObjAcl | putBucketAcl | getBucketAcl | getS3ObjectMd | putS3ObjectMd | delS3ObjectMd
  | getS3BucketMd | putS3BucketMd | delS3BucketMd | s3MpuComplete
  deriving DecidableEq

/-- The number of a phase. -/
def AnyBenchPhase.code (phase : AnyBenchPhase) : UInt32 := UInt32.ofNat phase.ctorIdx

/-- `LiveOps` -/
@[ext] structure LiveOps where
  numEntriesDone : UInt64
  numBytesDone : UInt64
  numIopsDone : UInt64

namespace LiveOps

/-- `setToZero` -/
instance : Zero LiveOps := ⟨⟨0, 0, 0⟩⟩

/-- `getAndAddOps` and `getAndAddLiveOps` -/
instance : Add LiveOps where
  add a b := ⟨a.numEntriesDone + b.numEntriesDone, a.numBytesDone + b.numBytesDone,
    a.numIopsDone + b.numIopsDone⟩

instance : AddCommMonoid LiveOps where
  add_assoc a b c := LiveOps.ext (add_assoc a.numEntriesDone _ _) (add_assoc a.numBytesDone _ _)
    (add_assoc a.numIopsDone _ _)
  zero_add a := LiveOps.ext (zero_add a.numEntriesDone) (zero_add a.numBytesDone)
    (zero_add a.numIopsDone)
  add_zero a := LiveOps.ext (add_zero a.numEntriesDone) (add_zero a.numBytesDone)
    (add_zero a.numIopsDone)
  add_comm a b := LiveOps.ext (add_comm a.numEntriesDone _) (add_comm a.numBytesDone _)
    (add_comm a.numIopsDone _)
  nsmul := nsmulRec

end LiveOps

/-- What is added up over the workers. -/
@[ext] structure PhaseTotals where
  ops : LiveOps
  opsReadMix : LiveOps
  iopsLatHisto : LatencyHistogram
  iopsLatHistoReadMix : LatencyHistogram
  entriesLatHisto : LatencyHistogram
  entriesLatHistoReadMix : LatencyHistogram

namespace PhaseTotals

instance : Zero PhaseTotals := ⟨⟨0, 0, 0, 0, 0, 0⟩⟩

instance : Add PhaseTotals where
  add a b := ⟨a.ops + b.ops, a.opsReadMix + b.opsReadMix, a.iopsLatHisto + b.iopsLatHisto,
    a.iopsLatHistoReadMix + b.iopsLatHistoReadMix, a.entriesLatHisto + b.entriesLatHisto,
    a.entriesLatHistoReadMix + b.entriesLatHistoReadMix⟩

instance : AddCommMonoid PhaseTotals where
  add_assoc a b c := PhaseTotals.ext (add_assoc a.ops _ _) (add_assoc a.opsReadMix _ _)
    (add_assoc a.iopsLatHisto _ _) (add_assoc a.iopsLatHistoReadMix _ _)
    (add_assoc a.entriesLatHisto _ _) (add_assoc a.entriesLatHistoReadMix _ _)
  zero_add a := PhaseTotals.ext (zero_add a.ops) (zero_add a.opsReadMix)
    (zero_add a.iopsLatHisto) (zero_add a.iopsLatHistoReadMix)
    (zero_add a.entriesLatHisto) (zero_add a.entriesLatHistoReadMix)
  add_zero a := PhaseTotals.ext (add_zero a.ops) (add_zero a.opsReadMix)
    (add_zero a.iopsLatHisto) (add_zero a.iopsLatHistoReadMix)
    (add_zero a.entriesLatHisto) (add_zero a.entriesLatHistoReadMix)
  add_comm a b := PhaseTotals.ext (add_comm a.ops _) (add_comm a.opsReadMix _)
    (add_comm a.iopsLatHisto _) (add_comm a.iopsLatHistoReadMix _)
    (add_comm a.entriesLatHisto _) (add_comm a.entriesLatHistoReadMix _)
  nsmul := nsmulRec

/-- A sum of totals, member by member. -/
theorem sum_eq {ι : Type*} (f : ι → PhaseTotals) (xs : List ι) :
    (xs.map f).sum = ⟨(xs.map fun x => (f x).ops).sum, (xs.map fun x => (f x).opsReadMix).sum,
      (xs.map fun x => (f x).iopsLatHisto).sum, (xs.map fun x => (f x).iopsLatHistoReadMix).sum,
      (xs.map fun x => (f x).entriesLatHisto).sum,
      (xs.map fun x => (f x).entriesLatHistoReadMix).sum⟩ := by
  induction xs with
  | nil => rfl
  | cons x xs ih =>
    simp only [List.map_cons, List.sum_cons, ih]
    rfl

end PhaseTotals

/-- What the statistics read of a worker. -/
structure WorkerStats where
  workerGotPhaseWork : Bool
  elapsedUSecVec : List UInt64
  totals : PhaseTotals

namespace WorkerStats

/-- `resetStats` -/
def reset : WorkerStats := ⟨true, [], 0⟩

/-- `LocalWorker::finishPhase` of a worker whose time is `finishElapsedUSec`. -/
def finishPhase (w : WorkerStats) (finishElapsedUSec : UInt64) : WorkerStats :=
  { w with elapsedUSecVec := if w.workerGotPhaseWork then [finishElapsedUSec] else [] }

/-- A worker without work did nothing. -/
def IdleIsZero (w : WorkerStats) : Prop := w.workerGotPhaseWork = false → w.totals = 0

/-- A worker without finish times had no work and did nothing. -/
def Complete (w : WorkerStats) : Prop :=
  w.elapsedUSecVec = [] → w.workerGotPhaseWork = false ∧ w.totals = 0

end WorkerStats

/-- The results of a phase. -/
@[ext] structure PhaseResults where
  firstFinishUSec : UInt64
  lastFinishUSec : UInt64
  totals : PhaseTotals

/-! ## The sum over the workers -/

/-- The first and the last finish time of a loop over finish times.  There are none before the
first round of the loop. -/
def addElapsed : Option (UInt64 × UInt64) → UInt64 → Option (UInt64 × UInt64)
  | none, elapsedUSec => some (elapsedUSec, elapsedUSec)
  | some (firstFinishUSec, lastFinishUSec), elapsedUSec =>
    some (if elapsedUSec < firstFinishUSec then elapsedUSec else firstFinishUSec,
      if elapsedUSec > lastFinishUSec then elapsedUSec else lastFinishUSec)

/-- One worker is added. -/
def addWorker (acc : Option (UInt64 × UInt64) × PhaseTotals) (w : WorkerStats) :
    Option (Option (UInt64 × UInt64) × PhaseTotals) :=
  if w.elapsedUSecVec = [] then
    if w.workerGotPhaseWork then none else some acc
  else some (w.elapsedUSecVec.foldl addElapsed acc.1, acc.2 + w.totals)

/-- `generatePhaseResults`, without a result if it returns false. -/
def generatePhaseResults (workerVec : List WorkerStats) : Option PhaseResults :=
  if workerVec = [] then none
  else
    (workerVec.foldlM addWorker (none, 0)).bind fun (finish, totals) =>
      finish.map fun (firstFinishUSec, lastFinishUSec) =>
        ⟨firstFinishUSec, lastFinishUSec, totals⟩

/-- A complete worker is added with its finish times and its sums, whether it has any or not. -/
theorem addWorker_of_complete {w : WorkerStats} (hw : w.Complete)
    (acc : Option (UInt64 × UInt64) × PhaseTotals) :
    addWorker acc w = some (w.elapsedUSecVec.foldl addElapsed acc.1, acc.2 + w.totals) := by
  unfold addWorker
  split_ifs with hnil hwork
  · exact absurd hwork (by simp [(hw hnil).1])
  · rw [hnil, (hw hnil).2, add_zero]
    rfl
  · rfl

theorem foldlM_addWorker {ws : List WorkerStats} (hws : ∀ w ∈ ws, w.Complete)
    (acc : Option (UInt64 × UInt64) × PhaseTotals) :
    ws.foldlM addWorker acc =
      some ((ws.flatMap (·.elapsedUSecVec)).foldl addElapsed acc.1,
        acc.2 + (ws.map (·.totals)).sum) := by
  induction ws generalizing acc with
  | nil => simp
  | cons w ws ih =>
    rw [List.forall_mem_cons] at hws
    rw [List.foldlM_cons, addWorker_of_complete hws.1, Option.bind_eq_bind, Option.bind_some,
      ih hws.2, List.flatMap_cons, List.foldl_append, List.map_cons, List.sum_cons, add_assoc]

/-- **The results are those of all finish times and of the sum of all totals.** -/
theorem generatePhaseResults_eq {ws : List WorkerStats} (hws : ∀ w ∈ ws, w.Complete) :
    generatePhaseResults ws = ((ws.flatMap (·.elapsedUSecVec)).foldl addElapsed none).map
      fun (firstFinishUSec, lastFinishUSec) =>
        ⟨firstFinishUSec, lastFinishUSec, (ws.map (·.totals)).sum⟩ := by
  unfold generatePhaseResults
  split_ifs with hnil
  · rw [hnil]
    rfl
  · rw [foldlM_addWorker hws, Option.bind_some, zero_add]

/-- The order of two finish times does not matter. -/
theorem addElapsed_right_comm (finish : Option (UInt64 × UInt64)) (s t : UInt64) :
    addElapsed (addElapsed finish s) t = addElapsed (addElapsed finish t) s := by
  cases finish with
  | none =>
    simp only [addElapsed]
    grind
  | some finish =>
    simp only [addElapsed]
    grind

/-- **The results do not depend on the order of the workers.** -/
theorem generatePhaseResults_perm {ws ws' : List WorkerStats} (hws : ∀ w ∈ ws, w.Complete)
    (hperm : ws.Perm ws') : generatePhaseResults ws = generatePhaseResults ws' := by
  have helapsed : (ws.flatMap (·.elapsedUSecVec)).foldl addElapsed none =
      (ws'.flatMap (·.elapsedUSecVec)).foldl addElapsed none :=
    (hperm.flatMap_right _).foldl_eq' (fun s _ t _ finish => addElapsed_right_comm finish s t) none
  rw [generatePhaseResults_eq hws,
    generatePhaseResults_eq fun w hw => hws w (hperm.mem_iff.mpr hw), helapsed,
    (hperm.map _).sum_eq]

/-- A worker that finished is complete. -/
theorem WorkerStats.complete_finishPhase {w : WorkerStats} (hw : w.IdleIsZero)
    (finishElapsedUSec : UInt64) : (w.finishPhase finishElapsedUSec).Complete := by
  intro hnil
  cases hwork : w.workerGotPhaseWork with
  | false => exact ⟨hwork, hw hwork⟩
  | true => simp [WorkerStats.finishPhase, hwork] at hnil

end Elbencho
