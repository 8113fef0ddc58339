import Elbencho.Library.PropertyTree
import Elbencho.Library.Transition
import Elbencho.Args.BlockSizeText
import Elbencho.Service.PasswordHash

/-!
# What the requests of a client do to a service

A service is controlled by HTTP requests: files and settings arrive with `/preparefile` and
`/preparephase`, a phase starts with `/startphase`, and `/interruptphase` ends it and, with the
parameter `quit`, the service.  The server has one thread, so a request is one step.

Between the requests, the workers go on.  A run of the service is therefore a list of actions,
each of them a request or the end of the phase in one worker.

The hash of the shared secret is compared in the two preparing handlers only.  A request without
the right hash has no effect in these cases: the handler only reads; the handler compares the
hash, and the request has the parameters that are looked at before; a phase is to be started
that runs already, or while one is running; there is nothing to interrupt.  **`without_effect_iff`**
says that these are all cases.  In every other case such a request interrupts the workers, starts
a phase or stops the service (`commands_without_secret`).
-/

namespace Elbencho

open Transition

/-! ## Requests -/

inductive HttpMethod where
  | get
  | post
  deriving DecidableEq, Repr

structure HttpRequest where
  method : HttpMethod
  path : String
  /-- The result of `parse_query_string`. -/
  query : List (String × String)
  content : String
  deriving DecidableEq, Repr

/-- A name in lower case.  The names of the query parameters are compared without case. -/
def foldCase (key : String) : List Char := key.toList.map Char.toLower

/-- `query_fields.find`. -/
def HttpRequest.find (r : HttpRequest) (key : String) : Option String :=
  (r.query.find? fun field => foldCase field.1 = foldCase key).map Prod.snd

/-- The resources of the server. -/
inductive Resource where
  | info
  | protocolVersion
  | status
  | benchResult
  | prepareFile
  | preparePhase
  | startPhase
  | interruptPhase
  deriving DecidableEq, Repr

/-- The resource a request is for.  There is no handler for other requests. -/
def HttpRequest.resource (r : HttpRequest) : Option Resource :=
  match r.method with
  | .get =>
    if r.path = "/info" then some .info
    else if r.path = "/protocolversion" then some .protocolVersion
    else if r.path = "/status" then some .status
    else if r.path = "/benchresult" then some .benchResult
    else if r.path = "/startphase" then some .startPhase
    else if r.path = "/interruptphase" then some .interruptPhase
    else none
  | .post =>
    if r.path = "/preparefile" then some .prepareFile
    else if r.path = "/preparephase" then some .preparePhase
    else none

/-- What the client gets.  The contents of a good answer are left out. -/
inductive Reply where
  | ok
  | badRequest (msg : String)
  /-- A start request while a phase is running. -/
  | refused (msg : String)
  /-- The handler threw an exception, which ends the connection. -/
  | dropped
  deriving DecidableEq, Repr

/-- `stoi`, which throws if there are no digits or if the number is not an `int`. -/
def stoi (text : String) : Option ℤ :=
  let (neg, ds) := UnitTk.signAndDigits text.toList
  let n : ℤ := Nat.ofDigitChars 10 ds 0
  let value := if neg then -n else n
  if ds = [] ∨ value < -2 ^ 31 ∨ 2 ^ 31 ≤ value then none else some value

/-! ## The service -/

/-- A worker as the handlers see it.  The sum of `numWorkersDone` and `numWorkersDoneWithError` is
the number of workers that are done. -/
structure ServiceWorker where
  isInterruptionRequested : Bool
  phaseDone : Bool
  joined : Bool
  deriving DecidableEq, Repr

/-- A worker after its preparation. -/
def ServiceWorker.prepared : ServiceWorker := ⟨false, true, false⟩

/-- A UUID. -/
abbrev Uuid := BitVec 128

/-- The state of a service with a configuration in `C`. -/
structure ServiceState (C : Type) where
  progArgs : C
  /-- The workers of `workerManager`. -/
  workerVec : List ServiceWorker
  /-- Whether the pointer to the workers in `workersSharedData` has been set, which the first
  preparation does. -/
  workerVecIsSet : Bool
  currentBenchPhase : ℤ
  currentBenchID : Uuid
  /-- The files in the upload directory. -/
  uploads : List (String × String)
  /-- Whether the server is no longer there. -/
  stopped : Bool
  deriving DecidableEq, Repr

/-- What the handlers ask for. -/
structure ServiceEnv (C : Type) where
  svcPasswordHash : String
  /-- `SERVICE_UPLOAD_BASEPATH`. -/
  uploadBasePath : String
  /-- Why a file cannot be saved under a path. -/
  saveError : String → Option String
  readJson : String → Except String PropertyTree
  resetBenchPath : C → C
  /-- The configuration with the settings, as far as they could be read, and the error. -/
  setFromPropertyTreeForService : C → PropertyTree → C × Option String
  numThreads : C → ℕ
  /-- Why the preparation of the workers fails. -/
  prepareError : C → Option String
  uuidToString : Uuid → String
  /-- `string_generator`, which throws if the text is not a UUID. -/
  uuidGen : String → Option Uuid
  /-- What `random_generator` returns. -/
  randomUuid : Uuid

variable {C : Type}

namespace ServiceState

def interruptAndNotifyWorkers (s : ServiceState C) : ServiceState C :=
  { s with workerVec := s.workerVec.map fun w => { w with isInterruptionRequested := true } }

/-- `joinAllThreads`.  A worker that ends has counted itself. -/
def joinAllThreads (s : ServiceState C) : ServiceState C :=
  { s with workerVec := s.workerVec.map fun w => { w with phaseDone := true, joined := true } }

def deleteThreads (s : ServiceState C) : ServiceState C := { s with workerVec := [] }

/-- `prepareThreads`, which waits for the preparation of the workers. -/
def prepareThreads (env : ServiceEnv C) (s : ServiceState C) : ServiceState C :=
  { s with
    workerVec := List.replicate (env.numThreads s.progArgs) ServiceWorker.prepared
    workerVecIsSet := true
    currentBenchID := 0 }

def numWorkersDoneTotal (s : ServiceState C) : ℕ := s.workerVec.countP (·.phaseDone)

/-- `startNextPhase`; `none` is the exception of a text that is not a UUID. -/
def startNextPhase (s : ServiceState C) (newBenchPhase : ℤ) (newBenchID : Option Uuid) :
    ServiceState C × Reply :=
  let reset := { s with workerVec := s.workerVec.map fun w => { w with phaseDone := false } }
  match newBenchID with
  | none => (reset, .dropped)
  | some id => ({ reset with currentBenchPhase := newBenchPhase, currentBenchID := id }, .ok)

/-- What the handlers do to end everything that is going on. -/
def interruptAndReset (env : ServiceEnv C) (s : ServiceState C) : ServiceState C :=
  let s := s.interruptAndNotifyWorkers.joinAllThreads
  { s with progArgs := env.resetBenchPath s.progArgs }

/-- The end of the phase in a worker. -/
def workerDone (s : ServiceState C) (i : ℕ) : ServiceState C :=
  { s with workerVec := s.workerVec.modify i fun w => { w with phaseDone := true } }

end ServiceState

/-! ## Handlers -/

/-- `HTTP_PROTOCOLVERSION`. -/
def httpProtocolVersion : String := "3.1.7"

/-- Whether a request comes with the hash of the secret. -/
def HttpRequest.Authorized (env : ServiceEnv C) (r : HttpRequest) : Prop :=
  r.find "PwHash" = some env.svcPasswordHash

instance (env : ServiceEnv C) (r : HttpRequest) : Decidable (r.Authorized env) :=
  inferInstanceAs (Decidable (_ = _))

/-- The checks at the start of the preparing handlers.  An error comes with the value of
`resetWorkersOnError`. -/
def checkVersionAndHash (env : ServiceEnv C) (r : HttpRequest) : Except (Bool × String) Unit :=
  match r.find "ProtocolVersion" with
  | none => .error (true, "Missing parameter: ProtocolVersion")
  | some masterProtoVer =>
    if masterProtoVer ≠ httpProtocolVersion then
      .error (false, "Protocol version mismatch. Service version: " ++ httpProtocolVersion ++
        "; Received master version: " ++ masterProtoVer)
    else
      match r.find "PwHash" with
      | none => .error (true, "Missing parameter: PwHash")
      | some masterAuthHash =>
        if masterAuthHash ≠ env.svcPasswordHash then
          .error (false, "Invalid authorization code.")
        else .ok ()

/-- `basename`. -/
def basename (path : String) : String :=
  let trimmed := path.toList.reverse.dropWhile (· = '/')
  if trimmed = [] then (if path = "" then "." else "/")
  else String.ofList (trimmed.takeWhile (· ≠ '/')).reverse

/-- `/preparefile`. -/
def prepareFile (env : ServiceEnv C) (r : HttpRequest) (s : ServiceState C) :
    ServiceState C × Reply :=
  match checkVersionAndHash env r with
  | .error (_, msg) => (s, .badRequest ("File preparation phase error: " ++ msg))
  | .ok () =>
    match r.find "FileName" with
    | none => (s, .badRequest "File preparation phase error: Missing parameter: FileName")
    | some filename =>
      let path := env.uploadBasePath ++ "/" ++ basename filename
      match env.saveError path with
      | some msg => (s, .badRequest ("File preparation phase error: " ++ msg))
      | none =>
        let others := s.uploads.filter fun file => file.1 ≠ path
        ({ s with uploads := (path, r.content) :: others }, .ok)

/-- `/preparephase`. -/
def preparePhase (env : ServiceEnv C) (r : HttpRequest) (s : ServiceState C) :
    ServiceState C × Reply :=
  match checkVersionAndHash env r with
  | .error (resetWorkersOnError, msg) =>
    (if resetWorkersOnError then s.interruptAndReset env else s,
      .badRequest ("Preparation phase error: " ++ msg))
  | .ok () =>
    match env.readJson r.content with
    | .error msg => (s.interruptAndReset env, .badRequest ("Preparation phase error: " ++ msg))
    | .ok recvTree =>
      let s := (s.interruptAndReset env).deleteThreads
      match env.setFromPropertyTreeForService s.progArgs recvTree with
      | (progArgs, some msg) =>
        (ServiceState.interruptAndReset env { s with progArgs := progArgs },
          .badRequest ("Preparation phase error: " ++ msg))
      | (progArgs, none) =>
        let s := ServiceState.prepareThreads env { s with progArgs := progArgs }
        match env.prepareError progArgs with
        | some msg => (s.interruptAndReset env, .badRequest ("Preparation phase error: " ++ msg))
        | none => (s, .ok)

/-- The ID a start request asks for; an empty one asks for a random ID. -/
def HttpRequest.benchID (r : HttpRequest) : String := (r.find "BenchID").getD ""

/-- The ID of the phase that a start request starts. -/
def HttpRequest.newBenchID (env : ServiceEnv C) (r : HttpRequest) : Option Uuid :=
  if r.benchID = "" then some env.randomUuid else env.uuidGen r.benchID

/-- `/startphase`. -/
def startPhase (env : ServiceEnv C) (r : HttpRequest) (s : ServiceState C) :
    ServiceState C × Reply :=
  match r.find "PhaseCode" with
  | none => (s, .badRequest "Missing parameter: PhaseCode")
  | some code =>
    match stoi code with
    | none => (s, .dropped)
    | some benchPhase =>
      if r.benchID = env.uuidToString s.currentBenchID then (s, .ok)
      -- the pointer to the workers is used before it has a value
      else if s.workerVecIsSet = false then ({ s with stopped := true }, .dropped)
      else if s.numWorkersDoneTotal ≠ s.workerVec.length then
        (s, .refused "Refusing start request while not all workers are idle/done.")
      else s.startNextPhase benchPhase (r.newBenchID env)

/-- `/interruptphase`. -/
def interruptPhase (env : ServiceEnv C) (r : HttpRequest) (s : ServiceState C) :
    ServiceState C × Reply :=
  let quitAfterInterrupt := (r.find "quit").isSome
  let s := s.interruptAndReset env
  (if quitAfterInterrupt then { s with stopped := true } else s, .ok)

/-- What a request does. -/
def handle (env : ServiceEnv C) (r : HttpRequest) (s : ServiceState C) :
    ServiceState C × Reply :=
  if s.stopped then (s, .dropped)
  else
    match r.resource with
    | none => (s, .dropped)
    | some .info | some .protocolVersion | some .status | some .benchResult => (s, .ok)
    | some .prepareFile => prepareFile env r s
    | some .preparePhase => preparePhase env r s
    | some .startPhase => startPhase env r s
    | some .interruptPhase => interruptPhase env r s

/-! ## Runs -/

inductive ServiceAction where
  | request (r : HttpRequest)
  | workerDone (i : ℕ)
  deriving DecidableEq

/-- One step of a service. -/
def ServiceState.next (env : ServiceEnv C) (s : ServiceState C) :
    ServiceAction → ServiceState C
  | .request r => (handle env r s).1
  | .workerDone i => s.workerDone i

def ServiceAction.IsRequest : ServiceAction → Prop
  | .request _ => True
  | .workerDone _ => False

instance : DecidablePred ServiceAction.IsRequest
  | .request _ => isTrue trivial
  | .workerDone _ => isFalse id

/-! ## Requests without the secret -/

/-- There is nothing that an interruption could end. -/
structure Idle (env : ServiceEnv C) (s : ServiceState C) : Prop where
  workers : ∀ w ∈ s.workerVec, w.isInterruptionRequested ∧ w.phaseDone ∧ w.joined
  paths : env.resetBenchPath s.progArgs = s.progArgs

/-- A request to prepare a phase that has the parameters which the handler looks at before it
compares the hash. -/
def HttpRequest.HasParameters (r : HttpRequest) : Prop :=
  ∃ masterProtoVer, r.find "ProtocolVersion" = some masterProtoVer ∧
    (masterProtoVer = httpProtocolVersion → r.find "PwHash" ≠ none)

/-- A start request that starts nothing: it does not name a phase, or names the current one, or
comes while a phase is running.  The last case is the start of the current phase in a service
without workers. -/
def StartsNothing (env : ServiceEnv C) (r : HttpRequest) (s : ServiceState C) : Prop :=
  ∀ benchPhase, (r.find "PhaseCode").bind stoi = some benchPhase →
    r.benchID = env.uuidToString s.currentBenchID ∨
      (s.workerVecIsSet = true ∧
        ((∃ w ∈ s.workerVec, w.phaseDone = false) ∨
          (s.workerVec = [] ∧ ∀ id, r.newBenchID env = some id →
            id = s.currentBenchID ∧ benchPhase = s.currentBenchPhase)))

/-- The requests without the secret that a service can be sent without effect. -/
def Harmless (env : ServiceEnv C) (r : HttpRequest) (s : ServiceState C) : Prop :=
  s.stopped = true ∨
    match r.resource with
    | some .preparePhase => r.HasParameters ∨ Idle env s
    | some .startPhase => StartsNothing env r s
    | some .interruptPhase => r.find "quit" = none ∧ Idle env s
    | _ => True

/-! ### Interrupting -/

theorem map_eq_self_iff {α : Type} {f : α → α} {l : List α} :
    l.map f = l ↔ ∀ a ∈ l, f a = a := by
  simpa using List.map_inj_left (f := f) (g := id) (l := l)

theorem interruptAndReset_eq_self_iff {env : ServiceEnv C} {s : ServiceState C} :
    s.interruptAndReset env = s ↔ Idle env s := by
  have hworkers : (s.interruptAndReset env).workerVec = s.workerVec ↔
      ∀ w ∈ s.workerVec, w.isInterruptionRequested ∧ w.phaseDone ∧ w.joined := by
    simp only [ServiceState.interruptAndReset, ServiceState.joinAllThreads,
      ServiceState.interruptAndNotifyWorkers, List.map_map]
    rw [map_eq_self_iff]
    refine forall₂_congr fun w _ => ?_
    obtain ⟨i, d, j⟩ := w
    simp [eq_comm]
  constructor
  · intro h
    exact ⟨hworkers.mp (by rw [h]), congrArg ServiceState.progArgs h⟩
  · intro h
    obtain ⟨args, workers, isSet, phase, id, uploads, stopped⟩ := s
    have hvec := hworkers.mpr h.workers
    have hargs := h.paths
    simp only [ServiceState.interruptAndReset, ServiceState.joinAllThreads,
      ServiceState.interruptAndNotifyWorkers] at hvec hargs ⊢
    rw [hvec, hargs]

theorem interruptPhase_eq_self_iff {env : ServiceEnv C} {r : HttpRequest} {s : ServiceState C}
    (hs : s.stopped = false) :
    (interruptPhase env r s).1 = s ↔ r.find "quit" = none ∧ Idle env s := by
  rw [interruptPhase]
  cases hquit : r.find "quit" with
  | none => simp [interruptAndReset_eq_self_iff]
  | some v =>
    -- the server has been stopped
    simp only [Option.isSome_some, if_true, reduceCtorEq, false_and, iff_false]
    intro h
    have hstopped := congrArg ServiceState.stopped h
    rw [hs] at hstopped
    cases hstopped

/-! ### Preparing -/

/-- Without the right hash, the checks fail, and the workers are reset if a parameter is
missing. -/
theorem checkVersionAndHash_of_not_authorized {env : ServiceEnv C} {r : HttpRequest}
    (hr : ¬ r.Authorized env) :
    ∃ resetWorkersOnError msg, checkVersionAndHash env r = .error (resetWorkersOnError, msg) ∧
      (resetWorkersOnError = false ↔ r.HasParameters) := by
  rw [checkVersionAndHash]
  cases hver : r.find "ProtocolVersion" with
  | none => exact ⟨true, _, rfl, by simp [HttpRequest.HasParameters, hver]⟩
  | some masterProtoVer =>
    by_cases hmatch : masterProtoVer = httpProtocolVersion
    · cases hhash : r.find "PwHash" with
      | none =>
        refine ⟨true, _, by simp only [hmatch, ne_eq, not_true_eq_false, if_false]; rfl, ?_⟩
        simp [HttpRequest.HasParameters, hver, hhash, hmatch]
      | some masterAuthHash =>
        have hne : masterAuthHash ≠ env.svcPasswordHash := by
          intro heq
          exact hr (by rw [HttpRequest.Authorized, hhash, heq])
        refine ⟨false, "Invalid authorization code.", by simp [hmatch, hne], ?_⟩
        simp [HttpRequest.HasParameters, hver, hhash]
    · refine ⟨false, _, by simp only [ne_eq, hmatch, not_false_eq_true, if_true]; rfl, ?_⟩
      simp [HttpRequest.HasParameters, hver, hmatch]

theorem prepareFile_of_not_authorized {env : ServiceEnv C} {r : HttpRequest}
    (hr : ¬ r.Authorized env) (s : ServiceState C) : (prepareFile env r s).1 = s := by
  obtain ⟨reset, msg, hcheck, -⟩ := checkVersionAndHash_of_not_authorized hr
  rw [prepareFile, hcheck]

theorem preparePhase_eq_self_iff {env : ServiceEnv C} {r : HttpRequest}
    (hr : ¬ r.Authorized env) (s : ServiceState C) :
    (preparePhase env r s).1 = s ↔ r.HasParameters ∨ Idle env s := by
  obtain ⟨reset, msg, hcheck, hreset⟩ := checkVersionAndHash_of_not_authorized hr
  rw [preparePhase, hcheck, ← hreset]
  cases reset <;> simp [interruptAndReset_eq_self_iff]

/-! ### Starting -/

theorem numWorkersDoneTotal_ne_iff {s : ServiceState C} :
    s.numWorkersDoneTotal ≠ s.workerVec.length ↔ ∃ w ∈ s.workerVec, w.phaseDone = false := by
  rw [ServiceState.numWorkersDoneTotal, ne_eq, List.countP_eq_length]
  simp

/-- A new phase is seen in the workers, which are no longer done, or in its ID and its number. -/
theorem startNextPhase_eq_self_iff {s : ServiceState C} {benchPhase : ℤ} {newBenchID : Option Uuid}
    (hdone : ∀ w ∈ s.workerVec, w.phaseDone = true) :
    (s.startNextPhase benchPhase newBenchID).1 = s ↔
      s.workerVec = [] ∧ ∀ id, newBenchID = some id →
        id = s.currentBenchID ∧ benchPhase = s.currentBenchPhase := by
  have hworkers : (s.workerVec.map fun w => { w with phaseDone := false }) = s.workerVec ↔
      s.workerVec = [] := by
    rw [map_eq_self_iff]
    constructor
    · intro hall
      rw [List.eq_nil_iff_forall_not_mem]
      intro w hw
      have hflag := congrArg ServiceWorker.phaseDone (hall w hw)
      rw [hdone w hw] at hflag
      cases hflag
    · intro hnil
      simp [hnil]
  obtain ⟨args, workers, isSet, phase, id, uploads, stopped⟩ := s
  cases newBenchID with
  | none => simpa [ServiceState.startNextPhase] using hworkers
  | some new =>
    simp only [ServiceState.startNextPhase, ServiceState.mk.injEq, true_and, and_true,
      Option.some.injEq, forall_eq']
    rw [hworkers, and_comm (a := new = id)]

theorem startPhase_eq_self_iff {env : ServiceEnv C} {r : HttpRequest} {s : ServiceState C}
    (hs : s.stopped = false) : (startPhase env r s).1 = s ↔ StartsNothing env r s := by
  rw [startPhase, StartsNothing]
  cases hcode : r.find "PhaseCode" with
  | none => simp
  | some code =>
    simp only [Option.bind_some]
    cases hnum : stoi code with
    | none => simp
    | some benchPhase =>
      simp only [Option.some.injEq, forall_eq']
      by_cases hid : r.benchID = env.uuidToString s.currentBenchID
      · simp [hid]
      · cases hset : s.workerVecIsSet with
        | false =>
          -- the service is gone
          simp only [hid, if_false, if_true, Bool.false_eq_true, false_and, or_self, iff_false]
          intro h
          have hstopped := congrArg ServiceState.stopped h
          rw [hs] at hstopped
          cases hstopped
        | true =>
          simp only [hid, if_false, Bool.true_eq_false, true_and, false_or]
          by_cases hrun : ∃ w ∈ s.workerVec, w.phaseDone = false
          · simp [numWorkersDoneTotal_ne_iff.mpr hrun, hrun]
          · have hdone : ∀ w ∈ s.workerVec, w.phaseDone = true := by simpa using hrun
            rw [if_neg (mt numWorkersDoneTotal_ne_iff.mp hrun), startNextPhase_eq_self_iff hdone]
            simp [hrun]

/-! ### The main results -/

/-- **What a request without the secret changes.** -/
theorem handle_eq_self_iff {env : ServiceEnv C} {r : HttpRequest} (hr : ¬ r.Authorized env)
    (s : ServiceState C) : (handle env r s).1 = s ↔ Harmless env r s := by
  rw [handle, Harmless]
  cases hs : s.stopped with
  | true => simp
  | false =>
    simp only [Bool.false_eq_true, if_false, false_or]
    match r.resource with
    | none => simp
    | some .info => simp
    | some .protocolVersion => simp
    | some .status => simp
    | some .benchResult => simp
    | some .prepareFile => simpa using prepareFile_of_not_authorized hr s
    | some .preparePhase => exact preparePhase_eq_self_iff hr s
    | some .startPhase => exact startPhase_eq_self_iff hs
    | some .interruptPhase => exact interruptPhase_eq_self_iff hs

/-- **Requests without the secret have no effect exactly if each of them is harmless.**  In the
run of any requests and worker steps, every state is the one that the worker steps alone lead
to, exactly if every request is harmless in the state before it. -/
theorem without_effect_iff (env : ServiceEnv C) (s : ServiceState C) (as : List ServiceAction)
    (hun : ∀ r, ServiceAction.request r ∈ as → ¬ r.Authorized env) :
    (∀ pre, pre <+: as →
        pre.foldl (ServiceState.next env) s =
          (purge ServiceAction.IsRequest pre).foldl (ServiceState.next env) s) ↔
      ∀ pre r, pre ++ [ServiceAction.request r] <+: as →
        Harmless env r ((purge ServiceAction.IsRequest pre).foldl (ServiceState.next env) s) := by
  rw [foldl_purge_iff]
  constructor
  · intro h pre r hpre
    have hmem : ServiceAction.request r ∈ as := hpre.subset (by simp)
    exact (handle_eq_self_iff (hun r hmem) _).mp (h pre _ hpre trivial)
  · intro h pre a hpre ha
    cases a with
    | workerDone i => exact ha.elim
    | request r =>
      have hmem : ServiceAction.request r ∈ as := hpre.subset (by simp)
      exact (handle_eq_self_iff (hun r hmem) _).mpr (h pre r hpre)

/-- The first line of a password file. -/
def secretLine : List (BitVec 8) := [0x73#8, 0x65#8, 0x63#8, 0x72#8, 0x65#8, 0x74#8]

/-- A service with a secret, with the path of the benchmark as its only setting. -/
def secretEnv : ServiceEnv String where
  svcPasswordHash := HashTk.simple128 true secretLine
  uploadBasePath := "/var/tmp/elbencho_p1611"
  saveError _ := none
  readJson text := .ok (PropertyTree.node text [])
  resetBenchPath _ := ""
  setFromPropertyTreeForService _ tree := (tree.data, none)
  numThreads _ := 1
  prepareError _ := none
  uuidToString id := if id = 0 then "00000000-0000-0000-0000-000000000000" else "other"
  uuidGen _ := some 5
  randomUuid := 7

/-- The service with one worker, which is running or done. -/
def oneWorker (phaseDone : Bool) : ServiceState String where
  progArgs := "/data"
  workerVec := [⟨false, phaseDone, false⟩]
  workerVecIsSet := true
  currentBenchPhase := 4
  currentBenchID := 0
  uploads := []
  stopped := false

def statusRequest : HttpRequest := ⟨.get, "/status", [], ""⟩

/-- The worker finishes its phase between two requests for the status. -/
theorem without_effect_iff_status :
    [.request statusRequest, .workerDone 0, .request statusRequest].foldl
        (ServiceState.next secretEnv) (oneWorker false) = oneWorker true := by
  have hreq : ∀ r, ServiceAction.request r ∈
      [.request statusRequest, .workerDone 0, .request statusRequest] → r = statusRequest := by
    simp
  refine (without_effect_iff secretEnv (oneWorker false) _ ?_).mpr ?_ _ (List.prefix_refl _)
  · intro r hr
    rw [hreq r hr]
    decide +kernel
  · intro pre r hpre
    rw [hreq r (hpre.subset (by simp))]
    exact Or.inr trivial

/-- **Commands without the secret.**  The service was started with a password file, and none of
the requests has a hash.  One of them interrupts a running phase, one starts a phase, one resets
the workers because a parameter is missing, and one stops the service. -/
theorem commands_without_secret :
    let interrupt : HttpRequest := ⟨.get, "/interruptphase", [], ""⟩
    let start : HttpRequest := ⟨.get, "/startphase", [("PhaseCode", "6"), ("BenchID", "x")], ""⟩
    let prepare : HttpRequest := ⟨.post, "/preparephase", [], ""⟩
    let quit : HttpRequest := ⟨.get, "/interruptphase", [("quit", "")], ""⟩
    loadServicePasswordFile true "svcpw" (some secretLine) = .ok secretEnv.svcPasswordHash ∧
      (∀ r ∈ [interrupt, start, prepare, quit], ¬ r.Authorized secretEnv) ∧
      (handle secretEnv interrupt (oneWorker false)).1.workerVec = [⟨true, true, true⟩] ∧
      (handle secretEnv start (oneWorker true)).1.currentBenchPhase = 6 ∧
      (handle secretEnv prepare (oneWorker false)).1.workerVec = [⟨true, true, true⟩] ∧
      (handle secretEnv quit (oneWorker false)).1.stopped = true := by
  decide +kernel

end Elbencho
