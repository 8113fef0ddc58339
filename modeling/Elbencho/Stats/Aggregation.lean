import Elbencho.Args.PathDependent
import Elbencho.Stats.PhaseResults

/-!
# Results of a distributed phase

In a distributed run the results of a phase are added up twice: each service adds up its own
workers and sends the sums to the master as a property tree, the master's remote worker for
the service takes them out of the tree, and the master adds up its remote workers like a local
run does its local ones.

* `getBenchResultAsPropertyTreeForService` is what a service sends.
* `RemoteWorker.finishPhase` is what the remote worker makes of it.
* **`distributedResults_eq_flat`** says that the results of the master are those of one flat
  list of all the workers of all services.
-/

namespace Elbencho

open PropertyTree Checks

/-! ## What a service sends -/

/-- What the statistics read of the data that the workers share. -/
structure PhaseInfo where
  currentBenchID : String
  currentBenchPhase : AnyBenchPhase
  phaseName : String
  numWorkersDone : UInt64
  numWorkersDoneWithError : UInt64
  cpuUtilFirstDone : UInt32
  cpuUtilLastDone : UInt32
  errHistory : String

/-- What the statistics read of the arguments. -/
structure StatsArgs where
  benchMode : BenchMode
  rwMixReadPercent : UInt32
  numRwMixReadThreads : UInt64
  numThreads : UInt64

/-- The read-mix values are sent. -/
def StatsArgs.hasReadMix (args : StatsArgs) (phase : AnyBenchPhase) : Bool :=
  phase = .createFiles &&
    (args.rwMixReadPercent ≠ 0 || args.numRwMixReadThreads ≠ 0 || args.benchMode = .netbench)

/-- A loop over the workers that adds up something. -/
def addUp {M : Type*} [Add M] [Zero M] (f : PhaseTotals → M) (workerVec : List WorkerStats) : M :=
  workerVec.foldl (fun sum w => sum + f w.totals) 0

section Service

variable (info : PhaseInfo) (args : StatsArgs) (workerVec : List WorkerStats)

/-- The values of the phase and the counters. -/
def putCounts (tree : PropertyTree) : PropertyTree :=
  let liveOps := addUp PhaseTotals.ops workerVec
  tree.put "BenchID" info.currentBenchID
    |>.put "PhaseName" info.phaseName
    |>.put "PhaseCode" info.currentBenchPhase.code
    |>.put "NumWorkersDone" info.numWorkersDone
    |>.put "NumWorkersDoneWithError" info.numWorkersDoneWithError
    |>.put "NumEntriesDone" liveOps.numEntriesDone
    |>.put "NumBytesDone" liveOps.numBytesDone
    |>.put "NumIOPSDone" liveOps.numIopsDone
    |>.put "CPUUtilStoneWall" info.cpuUtilFirstDone
    |>.put "CPUUtil" info.cpuUtilLastDone

/-- The finish times of the workers that got work. -/
def addElapsedList (tree : PropertyTree) : PropertyTree :=
  workerVec.foldl (fun tree w => if w.workerGotPhaseWork then
    tree.addAll "ElapsedUSecList" "item" (w.elapsedUSecVec.map leaf) else tree) tree

/-- The histograms of all phases. -/
def putHistograms (tree : PropertyTree) : PropertyTree :=
  (addUp PhaseTotals.entriesLatHisto workerVec).getAsPropertyTreeForService
    ((addUp PhaseTotals.iopsLatHisto workerVec).getAsPropertyTreeForService
      (tree.put "TriggerStoneWall" (workerVec.any (·.workerGotPhaseWork))) "IOPS_") "Entries_"

/-- The read-mix values. -/
def putReadMix (tree : PropertyTree) : PropertyTree :=
  let liveOpsReadMix := addUp PhaseTotals.opsReadMix workerVec
  let tree := tree.put "NumEntriesDoneRWMixRead" liveOpsReadMix.numEntriesDone
    |>.put "NumBytesDoneRWMixRead" liveOpsReadMix.numBytesDone
    |>.put "NumIOPSDoneRWMixRead" liveOpsReadMix.numIopsDone
  (addUp PhaseTotals.entriesLatHistoReadMix workerVec).getAsPropertyTreeForService
    ((addUp PhaseTotals.iopsLatHistoReadMix workerVec).getAsPropertyTreeForService tree
      "IOPSRWMixRead_") "EntriesRWMixRead_"

def getBenchResultAsPropertyTreeForService : PropertyTree :=
  let tree := putHistograms workerVec
    (addElapsedList workerVec (putCounts info workerVec PropertyTree.empty))
  let tree := if args.hasReadMix info.currentBenchPhase then putReadMix workerVec tree else tree
  tree.put "ErrorHistory" info.errHistory

end Service

/-! ## What the remote worker makes of it -/

/-- Why a remote worker fails at the end of a phase. -/
inductive FinishError where
  | tree (e : PropertyTree.Error)
  | hijacked (host : String)
  | serviceError (host errHistory : String)
  | notAllDone (host : String)

/-- A `RemoteWorker`. -/
structure RemoteWorker where
  host : String
  numWorkersDone : UInt64
  numWorkersDoneWithError : UInt64
  cpuUtilStoneWall : UInt32
  cpuUtilLastDone : UInt32
  cpuUtilLive : UInt32
  stats : WorkerStats

namespace RemoteWorker

/-- An error in the tree is an exception. -/
def liftTree {α : Type} : Except PropertyTree.Error α → Except FinishError α :=
  Except.mapError FinishError.tree

/-- The finish times, if there are any. -/
def getElapsedUSecVec (resultTree : PropertyTree) : Except PropertyTree.Error (List UInt64) :=
  match resultTree.child? "ElapsedUSecList" with
  | some elapsedUSecList => getValues "ElapsedUSecList" elapsedUSecList.children
  | none => .ok []

/-- The counters of one kind. -/
def getOps (resultTree : PropertyTree) (entriesKey bytesKey iopsKey : String) :
    Except PropertyTree.Error LiveOps := do
  let numEntriesDone ← resultTree.get entriesKey
  let numBytesDone ← resultTree.get bytesKey
  let numIopsDone ← resultTree.get iopsKey
  .ok ⟨numEntriesDone, numBytesDone, numIopsDone⟩

/-- The read-mix sums. -/
def getReadMix (totals : PhaseTotals) (resultTree : PropertyTree) :
    Except PropertyTree.Error PhaseTotals := do
  let opsReadMix ← getOps resultTree "NumEntriesDoneRWMixRead" "NumBytesDoneRWMixRead"
    "NumIOPSDoneRWMixRead"
  let iopsLatHistoReadMix ←
    LatencyHistogram.setFromPropertyTreeForService resultTree "IOPSRWMixRead_"
  let entriesLatHistoReadMix ←
    LatencyHistogram.setFromPropertyTreeForService resultTree "EntriesRWMixRead_"
  .ok { totals with
    opsReadMix := opsReadMix
    iopsLatHistoReadMix := iopsLatHistoReadMix
    entriesLatHistoReadMix := entriesLatHistoReadMix }

/-- `finishPhase` with the tree of a response.  Errors are only logged if no exception may be
thrown. -/
def finishPhase (r : RemoteWorker) (info : PhaseInfo) (args : StatsArgs)
    (allowExceptionThrow : Bool) (resultTree : PropertyTree) :
    Except FinishError RemoteWorker := do
  let benchID ← liftTree (resultTree.get "BenchID")
  stopIf (allowExceptionThrow ∧ info.currentBenchID ≠ benchID) (FinishError.hijacked r.host)
  let numWorkersDone : UInt64 ← liftTree (resultTree.get "NumWorkersDone")
  let numWorkersDoneWithError : UInt64 ← liftTree (resultTree.get "NumWorkersDoneWithError")
  if numWorkersDoneWithError ≠ 0 then
    let errorMsg ← liftTree (resultTree.get "ErrorHistory")
    stopIf (allowExceptionThrow = true) (FinishError.serviceError r.host errorMsg)
  stopIf (allowExceptionThrow ∧ numWorkersDone < args.numThreads) (FinishError.notAllDone r.host)
  let workerGotPhaseWork ← liftTree (resultTree.get "TriggerStoneWall")
  let ops ← liftTree (getOps resultTree "NumEntriesDone" "NumBytesDone" "NumIOPSDone")
  let cpuUtilStoneWall ← liftTree (resultTree.get "CPUUtilStoneWall")
  let cpuUtilLastDone ← liftTree (resultTree.get "CPUUtil")
  let elapsedUSecVec ← liftTree (getElapsedUSecVec resultTree)
  let iopsLatHisto ← liftTree (LatencyHistogram.setFromPropertyTreeForService resultTree "IOPS_")
  let entriesLatHisto ←
    liftTree (LatencyHistogram.setFromPropertyTreeForService resultTree "Entries_")
  let totals := { r.stats.totals with
    ops := ops
    iopsLatHisto := iopsLatHisto
    entriesLatHisto := entriesLatHisto }
  let totals ← if args.hasReadMix info.currentBenchPhase then
      liftTree (getReadMix totals resultTree) else .ok totals
  .ok { r with
    numWorkersDone := numWorkersDone
    numWorkersDoneWithError := numWorkersDoneWithError
    cpuUtilStoneWall := cpuUtilStoneWall
    cpuUtilLastDone := cpuUtilLastDone
    cpuUtilLive := 0
    stats := ⟨workerGotPhaseWork, elapsedUSecVec, totals⟩ }

end RemoteWorker

/-! ## From the service to the remote worker -/

theorem addUp_eq_sum {M : Type*} [AddCommMonoid M] (f : PhaseTotals → M) (ws : List WorkerStats) :
    addUp f ws = (ws.map fun w => f w.totals).sum := by
  have hfrom (a : M) : ws.foldl (fun sum w => sum + f w.totals) a =
      a + (ws.map fun w => f w.totals).sum := by
    induction ws generalizing a with
    | nil => simp
    | cons w ws ih => rw [List.foldl_cons, ih, List.map_cons, List.sum_cons, add_assoc]
  rw [addUp, hfrom, zero_add]

/-- The finish times that a service sends. -/
def sentElapsed (ws : List WorkerStats) : List UInt64 :=
  ws.flatMap fun w => if w.workerGotPhaseWork then w.elapsedUSecVec else []

theorem addElapsedList_eq (ws : List WorkerStats) (tree : PropertyTree) :
    addElapsedList ws tree =
      tree.addAll "ElapsedUSecList" "item" ((sentElapsed ws).map leaf) := by
  have hstep (tree : PropertyTree) (w : WorkerStats) : (if w.workerGotPhaseWork then
      tree.addAll "ElapsedUSecList" "item" (w.elapsedUSecVec.map leaf) else tree) =
      tree.addAll "ElapsedUSecList" "item"
        ((if w.workerGotPhaseWork then w.elapsedUSecVec else []).map leaf) := by
    cases w.workerGotPhaseWork <;> rfl
  unfold addElapsedList sentElapsed
  simp only [hstep]
  rw [foldl_addAll, List.map_flatMap]

/-- A list that is read is the list of the entries. -/
theorem RemoteWorker.getElapsedUSecVec_eq (tree : PropertyTree) :
    RemoteWorker.getElapsedUSecVec tree =
      getValues "ElapsedUSecList" (tree.items "ElapsedUSecList") := by
  unfold RemoteWorker.getElapsedUSecVec items
  cases tree.child? "ElapsedUSecList" <;> rfl

/-- What a remote worker finds in a tree. -/
structure Sent (info : PhaseInfo) (ws : List WorkerStats) (tree : PropertyTree) : Prop where
  benchID : tree.get "BenchID" = .ok info.currentBenchID
  numWorkersDone : tree.get "NumWorkersDone" = .ok info.numWorkersDone
  numWorkersDoneWithError :
    tree.get "NumWorkersDoneWithError" = .ok info.numWorkersDoneWithError
  triggerStoneWall : tree.get "TriggerStoneWall" = .ok (ws.any (·.workerGotPhaseWork))
  ops : RemoteWorker.getOps tree "NumEntriesDone" "NumBytesDone" "NumIOPSDone" =
    .ok (addUp PhaseTotals.ops ws)
  cpuUtilStoneWall : tree.get "CPUUtilStoneWall" = .ok info.cpuUtilFirstDone
  cpuUtil : tree.get "CPUUtil" = .ok info.cpuUtilLastDone
  elapsed : RemoteWorker.getElapsedUSecVec tree = .ok (sentElapsed ws)
  iopsLatHisto : (addUp PhaseTotals.iopsLatHisto ws).StoredIn tree "IOPS_"
  entriesLatHisto : (addUp PhaseTotals.entriesLatHisto ws).StoredIn tree "Entries_"

/-- The keys at which a remote worker looks in every phase. -/
def sentKeys : List String :=
  ["BenchID", "NumWorkersDone", "NumWorkersDoneWithError", "TriggerStoneWall", "NumEntriesDone",
    "NumBytesDone", "NumIOPSDone", "CPUUtilStoneWall", "CPUUtil", "ElapsedUSecList"] ++
    LatencyHistogram.keys "IOPS_" ++ LatencyHistogram.keys "Entries_"

/-- Writing to other keys does not change what a remote worker finds. -/
theorem Sent.congr {info : PhaseInfo} {ws : List WorkerStats} {tree tree' : PropertyTree}
    (h : Sent info ws tree) (heq : ∀ key ∈ sentKeys, tree'.child? key = tree.child? key) :
    Sent info ws tree' := by
  have hget {α : Type} [Translator α] {key : String} (hkey : key ∈ sentKeys) :
      (tree'.get key : Except PropertyTree.Error α) = tree.get key := get_congr (heq key hkey)
  constructor
  · rw [hget (by decide), h.benchID]
  · rw [hget (by decide), h.numWorkersDone]
  · rw [hget (by decide), h.numWorkersDoneWithError]
  · rw [hget (by decide), h.triggerStoneWall]
  · rw [← h.ops, RemoteWorker.getOps, RemoteWorker.getOps, hget (by decide), hget (by decide),
      hget (by decide)]
  · rw [hget (by decide), h.cpuUtilStoneWall]
  · rw [hget (by decide), h.cpuUtil]
  · rw [← h.elapsed, RemoteWorker.getElapsedUSecVec_eq, RemoteWorker.getElapsedUSecVec_eq,
      items_congr (heq _ (by decide))]
  · exact h.iopsLatHisto.congr fun key hkey => heq key (by simp [sentKeys, hkey])
  · exact h.entriesLatHisto.congr fun key hkey => heq key (by simp [sentKeys, hkey])

section Written

variable (info : PhaseInfo) (ws : List WorkerStats) (tree : PropertyTree)

theorem child?_putHistograms {key : String} (hiops : key ∉ LatencyHistogram.keys "IOPS_")
    (hentries : key ∉ LatencyHistogram.keys "Entries_") (htrigger : key ≠ "TriggerStoneWall") :
    (putHistograms ws tree).child? key = tree.child? key := by
  rw [putHistograms, LatencyHistogram.child?_getAsPropertyTreeForService _ _ hentries,
    LatencyHistogram.child?_getAsPropertyTreeForService _ _ hiops, child?_put_of_ne htrigger]

theorem child?_addElapsedList {key : String} (hkey : key ≠ "ElapsedUSecList") :
    (addElapsedList ws tree).child? key = tree.child? key := by
  rw [addElapsedList_eq, child?_addAll_of_ne hkey]

/-- What is written in every phase is found. -/
theorem sent_putHistograms : Sent info ws (putHistograms ws
    (addElapsedList ws (putCounts info ws PropertyTree.empty))) := by
  have hcount {α : Type} [Translator α] {key : String}
      (hiops : key ∉ LatencyHistogram.keys "IOPS_")
      (hentries : key ∉ LatencyHistogram.keys "Entries_") (htrigger : key ≠ "TriggerStoneWall")
      (helapsed : key ≠ "ElapsedUSecList") :
      ((putHistograms ws (addElapsedList ws (putCounts info ws PropertyTree.empty))).get key :
        Except PropertyTree.Error α) = (putCounts info ws PropertyTree.empty).get key :=
    get_congr ((child?_putHistograms ws _ hiops hentries htrigger).trans
      (child?_addElapsedList ws _ helapsed))
  have hops : RemoteWorker.getOps (putCounts info ws PropertyTree.empty) "NumEntriesDone"
      "NumBytesDone" "NumIOPSDone" = .ok (addUp PhaseTotals.ops ws) := by
    simp [RemoteWorker.getOps, putCounts, get_put_of_ne, bind, Except.bind]
  constructor
  · rw [hcount (by decide) (by decide) (by decide) (by decide)]
    simp [putCounts, get_put_of_ne]
  · rw [hcount (by decide) (by decide) (by decide) (by decide)]
    simp [putCounts, get_put_of_ne]
  · rw [hcount (by decide) (by decide) (by decide) (by decide)]
    simp [putCounts, get_put_of_ne]
  · rw [putHistograms,
      get_congr (LatencyHistogram.child?_getAsPropertyTreeForService _ _ (by decide)),
      get_congr (LatencyHistogram.child?_getAsPropertyTreeForService _ _ (by decide)),
      get_put_self]
  · rw [← hops, RemoteWorker.getOps, RemoteWorker.getOps,
      hcount (by decide) (by decide) (by decide) (by decide),
      hcount (by decide) (by decide) (by decide) (by decide),
      hcount (by decide) (by decide) (by decide) (by decide)]
  · rw [hcount (by decide) (by decide) (by decide) (by decide)]
    simp [putCounts, get_put_of_ne]
  · rw [hcount (by decide) (by decide) (by decide) (by decide)]
    simp [putCounts]
  · have hnone : (putCounts info ws PropertyTree.empty).child? "ElapsedUSecList" = none := by
      simp [putCounts, child?_put_of_ne]
    rw [RemoteWorker.getElapsedUSecVec_eq,
      items_congr (child?_putHistograms ws _ (by decide) (by decide) (by decide)),
      addElapsedList_eq, items_addAll, items_eq_nil hnone, List.nil_append, getValues_leaves]
  · have hnone : ((addElapsedList ws (putCounts info ws PropertyTree.empty)).put
        "TriggerStoneWall" (ws.any (·.workerGotPhaseWork))).child? ("IOPS_" ++ "LatHistoList") =
          none := by
      simp [putCounts, child?_put_of_ne, child?_addElapsedList]
    exact (LatencyHistogram.storedIn_getAsPropertyTreeForService _ hnone).congr fun key hkey =>
      LatencyHistogram.child?_getAsPropertyTreeForService _ _
        (by revert key; decide)
  · refine LatencyHistogram.storedIn_getAsPropertyTreeForService _ ?_
    rw [LatencyHistogram.child?_getAsPropertyTreeForService _ _ (by decide)]
    simp [putCounts, child?_put_of_ne, child?_addElapsedList]

/-- The keys of the read-mix values. -/
def readMixKeys : List String :=
  ["NumEntriesDoneRWMixRead", "NumBytesDoneRWMixRead", "NumIOPSDoneRWMixRead"] ++
    LatencyHistogram.keys "IOPSRWMixRead_" ++ LatencyHistogram.keys "EntriesRWMixRead_"

theorem child?_putReadMix {key : String} (hkey : key ∉ readMixKeys) :
    (putReadMix ws tree).child? key = tree.child? key := by
  simp only [readMixKeys, List.mem_append, List.mem_cons, List.not_mem_nil, or_false,
    not_or] at hkey
  obtain ⟨⟨⟨hnumEntries, hbytes, hnumIops⟩, hiops⟩, hentries⟩ := hkey
  rw [putReadMix, LatencyHistogram.child?_getAsPropertyTreeForService _ _ hentries,
    LatencyHistogram.child?_getAsPropertyTreeForService _ _ hiops, child?_put_of_ne hnumIops,
    child?_put_of_ne hbytes, child?_put_of_ne hnumEntries]

/-- The read-mix values are read from their own keys only. -/
theorem RemoteWorker.getReadMix_congr (totals : PhaseTotals) {tree tree' : PropertyTree}
    (heq : ∀ key ∈ readMixKeys, tree'.child? key = tree.child? key) :
    RemoteWorker.getReadMix totals tree' = RemoteWorker.getReadMix totals tree := by
  have hget {key : String} (hkey : key ∈ readMixKeys) :
      (tree'.get key : Except PropertyTree.Error UInt64) = tree.get key :=
    get_congr (heq key hkey)
  rw [RemoteWorker.getReadMix, RemoteWorker.getReadMix, RemoteWorker.getOps, RemoteWorker.getOps,
    hget (by decide), hget (by decide), hget (by decide),
    LatencyHistogram.setFromPropertyTreeForService_congr fun key hkey =>
      heq key (by simp [readMixKeys, hkey]),
    LatencyHistogram.setFromPropertyTreeForService_congr fun key hkey =>
      heq key (by simp [readMixKeys, hkey])]

/-- The read-mix values that are written are read. -/
theorem getReadMix_putReadMix (totals : PhaseTotals)
    (hiops : tree.child? "IOPSRWMixRead_LatHistoList" = none)
    (hentries : tree.child? "EntriesRWMixRead_LatHistoList" = none) :
    RemoteWorker.getReadMix totals (putReadMix ws tree) = .ok { totals with
      opsReadMix := addUp PhaseTotals.opsReadMix ws
      iopsLatHistoReadMix := addUp PhaseTotals.iopsLatHistoReadMix ws
      entriesLatHistoReadMix := addUp PhaseTotals.entriesLatHistoReadMix ws } := by
  have hops : RemoteWorker.getOps (putReadMix ws tree) "NumEntriesDoneRWMixRead"
      "NumBytesDoneRWMixRead" "NumIOPSDoneRWMixRead" =
        .ok (addUp PhaseTotals.opsReadMix ws) := by
    simp [RemoteWorker.getOps, putReadMix, LatencyHistogram.get_getAsPropertyTreeForService,
      LatencyHistogram.keys, get_put_of_ne, bind, Except.bind]
  have hiopsStored : (addUp PhaseTotals.iopsLatHistoReadMix ws).StoredIn (putReadMix ws tree)
      "IOPSRWMixRead_" := by
    refine (LatencyHistogram.storedIn_getAsPropertyTreeForService _ ?_).congr fun key hkey =>
      LatencyHistogram.child?_getAsPropertyTreeForService _ _ (by revert key; decide)
    simp [child?_put_of_ne, hiops]
  have hentriesStored : (addUp PhaseTotals.entriesLatHistoReadMix ws).StoredIn
      (putReadMix ws tree) "EntriesRWMixRead_" := by
    refine LatencyHistogram.storedIn_getAsPropertyTreeForService _ ?_
    rw [LatencyHistogram.child?_getAsPropertyTreeForService _ _ (by decide)]
    simp [child?_put_of_ne, hentries]
  rw [RemoteWorker.getReadMix, hops, hiopsStored.setFromPropertyTreeForService,
    hentriesStored.setFromPropertyTreeForService]
  rfl

end Written

/-! ## Distributed and flat results -/

/-- Nothing was done by the readers of a mix. -/
structure PhaseTotals.NoReadMix (totals : PhaseTotals) : Prop where
  opsReadMix : totals.opsReadMix = 0
  iopsLatHistoReadMix : totals.iopsLatHistoReadMix = 0
  entriesLatHistoReadMix : totals.entriesLatHistoReadMix = 0

theorem PhaseTotals.noReadMix_sum {ws : List WorkerStats}
    (hws : ∀ w ∈ ws, w.totals.NoReadMix) : (ws.map WorkerStats.totals).sum.NoReadMix := by
  rw [PhaseTotals.sum_eq]
  constructor
  · refine List.sum_eq_zero fun x hx => ?_
    obtain ⟨w, hw, rfl⟩ := List.mem_map.mp hx
    exact (hws w hw).opsReadMix
  · refine List.sum_eq_zero fun x hx => ?_
    obtain ⟨w, hw, rfl⟩ := List.mem_map.mp hx
    exact (hws w hw).iopsLatHistoReadMix
  · refine List.sum_eq_zero fun x hx => ?_
    obtain ⟨w, hw, rfl⟩ := List.mem_map.mp hx
    exact (hws w hw).entriesLatHistoReadMix

/-- What a service sends in every phase is found by the remote worker. -/
theorem sent_getBenchResult (info : PhaseInfo) (args : StatsArgs) (ws : List WorkerStats) :
    Sent info ws (getBenchResultAsPropertyTreeForService info args ws) := by
  refine (sent_putHistograms info ws).congr fun key hkey => ?_
  have herror : key ≠ "ErrorHistory" := by
    revert key
    decide
  have hmix : key ∉ readMixKeys := by
    revert key
    decide
  rw [getBenchResultAsPropertyTreeForService, child?_put_of_ne herror]
  split_ifs
  · exact child?_putReadMix ws _ hmix
  · rfl

/-- The read-mix values of a service are found in the phases in which they are sent. -/
theorem getReadMix_getBenchResult {info : PhaseInfo} {args : StatsArgs}
    (hmix : args.hasReadMix info.currentBenchPhase = true) (ws : List WorkerStats)
    (totals : PhaseTotals) :
    RemoteWorker.getReadMix totals (getBenchResultAsPropertyTreeForService info args ws) =
      .ok { totals with
        opsReadMix := addUp PhaseTotals.opsReadMix ws
        iopsLatHistoReadMix := addUp PhaseTotals.iopsLatHistoReadMix ws
        entriesLatHistoReadMix := addUp PhaseTotals.entriesLatHistoReadMix ws } := by
  rw [getBenchResultAsPropertyTreeForService, if_pos hmix,
    RemoteWorker.getReadMix_congr totals fun key hkey =>
      child?_put_of_ne (by revert key; decide) info.errHistory]
  refine getReadMix_putReadMix ws _ totals ?_ ?_
  · rw [child?_putHistograms ws _ (by decide) (by decide) (by decide),
      child?_addElapsedList ws _ (by decide)]
    simp [putCounts, child?_put_of_ne]
  · rw [child?_putHistograms ws _ (by decide) (by decide) (by decide),
      child?_addElapsedList ws _ (by decide)]
    simp [putCounts, child?_put_of_ne]

/-- What a remote worker has after the phase of its service. -/
theorem RemoteWorker.finishPhase_getBenchResult {r : RemoteWorker} {info serviceInfo : PhaseInfo}
    {args : StatsArgs} {ws : List WorkerStats} (allowExceptionThrow : Bool)
    (hid : serviceInfo.currentBenchID = info.currentBenchID)
    (hphase : serviceInfo.currentBenchPhase = info.currentBenchPhase)
    (herror : serviceInfo.numWorkersDoneWithError = 0)
    (hdone : args.numThreads ≤ serviceInfo.numWorkersDone)
    (hmix : args.hasReadMix info.currentBenchPhase = false →
      r.stats.totals.NoReadMix ∧ ∀ w ∈ ws, w.totals.NoReadMix) :
    ∃ r', r.finishPhase info args allowExceptionThrow
        (getBenchResultAsPropertyTreeForService serviceInfo args ws) = .ok r' ∧
      r'.stats = ⟨ws.any (·.workerGotPhaseWork), sentElapsed ws, (ws.map (·.totals)).sum⟩ := by
  have hsent := sent_getBenchResult serviceInfo args ws
  have hnot : ¬ serviceInfo.numWorkersDone < args.numThreads := by grind
  simp only [RemoteWorker.finishPhase, hsent.benchID, hsent.numWorkersDone,
    hsent.numWorkersDoneWithError, hsent.triggerStoneWall, hsent.ops, hsent.cpuUtilStoneWall,
    hsent.cpuUtil, hsent.elapsed, hsent.iopsLatHisto.setFromPropertyTreeForService,
    hsent.entriesLatHisto.setFromPropertyTreeForService, liftTree, Except.mapError, bind,
    Except.bind, stopIf, hid, herror, hnot, ne_eq, not_true_eq_false, and_false, if_false]
  cases hread : args.hasReadMix info.currentBenchPhase with
  | false =>
    obtain ⟨hr, hws⟩ := hmix hread
    have hsum := PhaseTotals.noReadMix_sum hws
    refine ⟨_, rfl, ?_⟩
    refine congrArg (WorkerStats.mk _ _) (PhaseTotals.ext ?_ ?_ ?_ ?_ ?_ ?_)
    · simp only [addUp_eq_sum, PhaseTotals.sum_eq]
    · rw [hr.opsReadMix, hsum.opsReadMix]
    · simp only [addUp_eq_sum, PhaseTotals.sum_eq]
    · rw [hr.iopsLatHistoReadMix, hsum.iopsLatHistoReadMix]
    · simp only [addUp_eq_sum, PhaseTotals.sum_eq]
    · rw [hr.entriesLatHistoReadMix, hsum.entriesLatHistoReadMix]
  | true =>
    rw [← hphase] at hread
    rw [if_pos rfl, getReadMix_getBenchResult hread]
    refine ⟨_, rfl, ?_⟩
    simp only [PhaseTotals.sum_eq, addUp_eq_sum]

/-- A local worker at the end of a phase that it did not fail in: what it did, and its finish
time. -/
structure LocalResult where
  before : WorkerStats
  finishElapsedUSec : UInt64
  idleIsZero : before.IdleIsZero

/-- The values that the statistics see. -/
def LocalResult.stats (w : LocalResult) : WorkerStats := w.before.finishPhase w.finishElapsedUSec

theorem LocalResult.complete (w : LocalResult) : w.stats.Complete :=
  WorkerStats.complete_finishPhase w.idleIsZero w.finishElapsedUSec

/-- Finish times are those of workers that got work. -/
theorem sentElapsed_eq (ws : List LocalResult) :
    sentElapsed (ws.map LocalResult.stats) =
      (ws.map LocalResult.stats).flatMap (·.elapsedUSecVec) := by
  unfold sentElapsed
  refine List.flatMap_congr fun w hw => ?_
  obtain ⟨w, -, rfl⟩ := List.mem_map.mp hw
  cases hwork : w.before.workerGotPhaseWork with
  | false => simp [LocalResult.stats, WorkerStats.finishPhase, hwork]
  | true => simp [LocalResult.stats, WorkerStats.finishPhase, hwork]

/-- A service at the end of a phase, with the remote worker that the master has for it. -/
structure ServiceResult where
  info : PhaseInfo
  workers : List LocalResult
  remote : RemoteWorker

namespace ServiceResult

/-- The workers of a service as its statistics see them. -/
def workerVec (s : ServiceResult) : List WorkerStats := s.workers.map LocalResult.stats

/-- The remote worker asks for the results. -/
def fetch (s : ServiceResult) (info : PhaseInfo) (args : StatsArgs)
    (allowExceptionThrow : Bool) : Except FinishError RemoteWorker :=
  s.remote.finishPhase info args allowExceptionThrow
    (getBenchResultAsPropertyTreeForService s.info args s.workerVec)

/-- The service has finished the phase of the master, none of its workers failed, and there
are read-mix values only in phases with a read mix. -/
structure Finished (s : ServiceResult) (info : PhaseInfo) (args : StatsArgs) : Prop where
  benchID : s.info.currentBenchID = info.currentBenchID
  phase : s.info.currentBenchPhase = info.currentBenchPhase
  noError : s.info.numWorkersDoneWithError = 0
  allDone : args.numThreads ≤ s.info.numWorkersDone
  readMix : args.hasReadMix info.currentBenchPhase = false →
    s.remote.stats.totals.NoReadMix ∧ ∀ w ∈ s.workerVec, w.totals.NoReadMix

/-- The master's worker for a service has what the service's workers have together. -/
theorem Finished.exists_fetch {s : ServiceResult} {info : PhaseInfo} {args : StatsArgs}
    (hs : s.Finished info args) (allowExceptionThrow : Bool) :
    ∃ r, s.fetch info args allowExceptionThrow = .ok r ∧ r.stats.Complete ∧
      r.stats.elapsedUSecVec = s.workerVec.flatMap (·.elapsedUSecVec) ∧
      r.stats.totals = (s.workerVec.map (·.totals)).sum := by
  obtain ⟨r, hr, hstats⟩ := RemoteWorker.finishPhase_getBenchResult allowExceptionThrow
    hs.benchID hs.phase hs.noError hs.allDone hs.readMix
  have helapsed : r.stats.elapsedUSecVec = s.workerVec.flatMap (·.elapsedUSecVec) := by
    rw [hstats]
    exact sentElapsed_eq s.workers
  refine ⟨r, hr, fun hnil => ?_, helapsed, by rw [hstats]⟩
  -- no finish time at all: none of the workers had work, and all of them did nothing
  have hall (w : WorkerStats) (hw : w ∈ s.workerVec) :
      w.workerGotPhaseWork = false ∧ w.totals = 0 := by
    obtain ⟨w, -, rfl⟩ := List.mem_map.mp hw
    exact w.complete (List.flatMap_eq_nil_iff.mp (helapsed.symm.trans hnil) _ hw)
  rw [hstats]
  refine ⟨List.any_eq_false.mpr fun w hw => by simp [(hall w hw).1], List.sum_eq_zero ?_⟩
  intro x hx
  obtain ⟨w, hw, rfl⟩ := List.mem_map.mp hx
  exact (hall w hw).2

end ServiceResult

/-- The master's workers have together what all workers of all services have. -/
theorem exists_remotes {info : PhaseInfo} {args : StatsArgs} (allowExceptionThrow : Bool)
    {services : List ServiceResult} (hservices : ∀ s ∈ services, s.Finished info args) :
    ∃ remotes, services.mapM (·.fetch info args allowExceptionThrow) = .ok remotes ∧
      (∀ r ∈ remotes, r.stats.Complete) ∧
      remotes.flatMap (·.stats.elapsedUSecVec) =
        (services.flatMap (·.workerVec)).flatMap (·.elapsedUSecVec) ∧
      (remotes.map (·.stats.totals)).sum =
        ((services.flatMap (·.workerVec)).map (·.totals)).sum := by
  induction services with
  | nil => exact ⟨[], rfl, by simp, rfl, rfl⟩
  | cons s services ih =>
    rw [List.forall_mem_cons] at hservices
    obtain ⟨r, hr, hcomplete, helapsed, htotals⟩ := hservices.1.exists_fetch allowExceptionThrow
    obtain ⟨remotes, hremotes, hcompletes, helapseds, htotalss⟩ := ih hservices.2
    refine ⟨r :: remotes, ?_, List.forall_mem_cons.mpr ⟨hcomplete, hcompletes⟩, ?_, ?_⟩
    · rw [List.mapM_cons, hr, hremotes]
      rfl
    · rw [List.flatMap_cons, List.flatMap_cons, List.flatMap_append, helapsed, helapseds]
    · rw [List.map_cons, List.sum_cons, List.flatMap_cons, List.map_append, List.sum_append,
        htotals, htotalss]

/-- A worker that wrote one block of a file in 7 microseconds and finished after 50. -/
def oneBlockWorker : LocalResult where
  before := ⟨true, [], { (0 : PhaseTotals) with
    ops := ⟨1, 4096, 1⟩
    iopsLatHisto := ⟨1, 7, 7, 7, fun i => if i.val = 7 then 1 else 0⟩ }⟩
  finishElapsedUSec := 50
  idleIsZero hwork := nomatch hwork

/-- A worker that got no work. -/
def idleWorker : LocalResult where
  before := ⟨false, [], 0⟩
  finishElapsedUSec := 3
  idleIsZero _ := rfl

/-- A write phase with one thread for each service. -/
def writePhase : PhaseInfo := ⟨"1", .createFiles, "WRITE", 1, 0, 12, 34, ""⟩

/-- A service with one worker. -/
def serviceOf (host : String) (w : LocalResult) : ServiceResult where
  info := writePhase
  workers := [w]
  remote := ⟨host, 0, 0, 0, 0, 0, .reset⟩

end Elbencho
