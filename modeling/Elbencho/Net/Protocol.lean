import Elbencho.Library.Parties
import Elbencho.Net.Connection
import Elbencho.Net.Connections

/-!
# The network benchmark

All services of a network benchmark together.  First the clients connect and the servers accept;
the phase starts when every client is connected and every server has the connections it waits for.
Then each client thread runs its connection, and each server thread polls its sockets.  After
`poll` it scans the entries in order, receives from those with an event and sends the response to a
complete block before it goes on.  A connection that is done is erased from the vectors in the
middle of the scan, and the index moves on all the same, so the entry behind it is passed over until
the next `poll`.

`NetRun` is this system, with one step for each piece of data that moves and each entry that is
scanned.  A scan is kept as the entries before and after the index.  `Moves` lists what a step can
do, and `WorkerOk` is what a server thread knows of its own connections.
-/

namespace Elbencho

open Transition Blocks

/-! ## The system -/

/-- A benchmark, and what the streams hold. -/
structure NetBench where
  hosts : NetBenchHosts
  args : NetBenchArgs
  capacity : ℕ
  capacity_pos : 0 < capacity

/-- A server thread: before the phase, in `poll`, at an entry of the vectors, in the event of the
connection `c`, or done.  Entries have their `revents`. -/
inductive ServerPc (Client : Type) where
  | preparing
  | polling (sockets : List Client)
  | scanning (front back : List (Client × Bool)) (numEventsProcessed pollRes : ℕ)
  | serving (front : List (Client × Bool)) (c : Client) (back : List (Client × Bool))
      (numEventsProcessed pollRes : ℕ)
  | finished
  deriving DecidableEq

namespace ServerPc

variable {Client : Type}

/-- `workerSocketVec`. -/
def sockets : ServerPc Client → List Client
  | .preparing => []
  | .polling sockets => sockets
  | .scanning front back _ _ => front.map Prod.fst ++ back.map Prod.fst
  | .serving front c back _ _ => front.map Prod.fst ++ c :: back.map Prod.fst
  | .finished => []

/-- The sockets that are not in an event. -/
def idle : ServerPc Client → List Client
  | .preparing => []
  | .polling sockets => sockets
  | .scanning front back _ _ => front.map Prod.fst ++ back.map Prod.fst
  | .serving front _ back _ _ => front.map Prod.fst ++ back.map Prod.fst
  | .finished => []

/-- The entries that the scan has not come to. -/
def pending : ServerPc Client → List (Client × Bool)
  | .scanning _ back _ _ => back
  | .serving _ _ back _ _ => back
  | _ => []

end ServerPc

namespace NetBench

variable (b : NetBench)

abbrev Client : Type := b.hosts.Client

/-- A server host. -/
abbrev Host : Type := Fin b.hosts.numNetBenchServers

/-- A server thread, by its host and its local rank. -/
abbrev Worker : Type := b.Host × Fin b.hosts.numThreads

end NetBench

/-- The state of a benchmark.  `backlog` has the connections that are not accepted yet. -/
structure NetRun (b : NetBench) where
  started : Bool
  backlog : b.Host → List b.Client
  serverSocketVec : b.Host → List b.Client
  conn : b.Client → Conn
  worker : b.Worker → ServerPc b.Client

/-- Steps of the services. -/
inductive NetAction (b : NetBench) where
  | connect (c : b.Client)
  | accept (h : b.Host)
  | startPhase
  | clientSend (c : b.Client) (k : ℕ)
  | clientRecv (c : b.Client) (k : ℕ)
  | poll (w : b.Worker)
  | scan (w : b.Worker)
  | serverRecv (w : b.Worker) (k : ℕ)
  | serverSend (w : b.Worker) (k : ℕ)
  | endEvent (w : b.Worker)
  | finish (w : b.Worker)

namespace NetRun

variable {b : NetBench}

/-- Before anybody is connected. -/
def start : NetRun b :=
  ⟨false, fun _ => [], fun _ => [], fun _ => .fresh .unconnected, fun _ => .preparing⟩

def setConn (s : NetRun b) (c : b.Client) (x : Conn) : NetRun b :=
  { s with conn := Function.update s.conn c x }

def setWorker (s : NetRun b) (w : b.Worker) (pc : ServerPc b.Client) : NetRun b :=
  { s with worker := Function.update s.worker w pc }

/-- What `poll` reports. -/
def revents (s : NetRun b) (sockets : List b.Client) : List (b.Client × Bool) :=
  sockets.map fun c => (c, decide (0 < (s.conn c).toServer))

/-- The preparations are done. -/
def Prepared (s : NetRun b) : Prop :=
  (∀ c, (s.conn c).client = .connected) ∧
    ∀ h : b.Host, b.hosts.numConnsToWaitFor h ≤ (s.serverSocketVec h).length

instance (s : NetRun b) : Decidable s.Prepared := inferInstanceAs (Decidable (_ ∧ _))

/-- All threads are through. -/
def Finished (s : NetRun b) : Prop :=
  s.started = true ∧ (∀ c, (s.conn c).client = .finished) ∧ ∀ w, s.worker w = .finished

/-- The phase starts: the clients send their first block, and the server threads take their
sockets. -/
def begin (s : NetRun b) : NetRun b :=
  { s with
    started := true
    conn := fun c => (s.conn c).begin b.args
    worker := fun w =>
      .polling (everyNth b.hosts.numThreads w.2 (s.serverSocketVec w.1)) }

/-- Where a thread goes after it has received for the connection `c`. -/
def afterRecv (x : Conn) (front : List (b.Client × Bool)) (c : b.Client)
    (back : List (b.Client × Bool)) (numEventsProcessed pollRes : ℕ) : ServerPc b.Client :=
  if x.server = .waiting then .scanning (front ++ [(c, true)]) back numEventsProcessed pollRes
  else .serving front c back numEventsProcessed pollRes

/-- Where a thread goes after the event of the connection `c`.  If the entry is erased, the index
passes over the one behind it. -/
def afterEvent (x : Conn) (front : List (b.Client × Bool)) (c : b.Client)
    (back : List (b.Client × Bool)) (numEventsProcessed pollRes : ℕ) : ServerPc b.Client :=
  if x.received = b.args.transferBytesPerConn then
    .scanning (front ++ back.take 1) (back.drop 1) numEventsProcessed pollRes
  else .scanning (front ++ [(c, true)]) back numEventsProcessed pollRes

def step (s : NetRun b) : NetAction b → Option (NetRun b)
  | .connect c =>
    if s.started = false ∧ (s.conn c).client = .unconnected then
      some { s.setConn c (.fresh .connected) with
        backlog := Function.update s.backlog (b.hosts.serverOf c)
          (s.backlog (b.hosts.serverOf c) ++ [c]) }
    else none
  | .accept h =>
    match s.backlog h with
    | [] => none
    | c :: rest =>
      if s.started = false ∧ (s.serverSocketVec h).length < b.hosts.numConnsToWaitFor h then
        some { s with
          backlog := Function.update s.backlog h rest
          serverSocketVec := Function.update s.serverSocketVec h (s.serverSocketVec h ++ [c]) }
      else none
  | .startPhase => if s.started = false ∧ s.Prepared then some s.begin else none
  | .clientSend c k => ((s.conn c).clientSend b.args b.capacity k).map (s.setConn c)
  | .clientRecv c k => ((s.conn c).clientRecv b.args k).map (s.setConn c)
  | .poll w =>
    match s.worker w with
    | .polling sockets =>
      if 0 < (s.revents sockets).countP Prod.snd then
        some (s.setWorker w (.scanning [] (s.revents sockets) 0
          ((s.revents sockets).countP Prod.snd)))
      else none
    | _ => none
  | .scan w =>
    match s.worker w with
    | .scanning front back numEventsProcessed pollRes =>
      if numEventsProcessed < pollRes then
        match back with
        | [] => some (s.setWorker w (.polling (front.map Prod.fst)))
        | (c, false) :: rest =>
          some (s.setWorker w (.scanning (front ++ [(c, false)]) rest numEventsProcessed pollRes))
        | (_, true) :: _ => none
      else some (s.setWorker w (.polling (front.map Prod.fst ++ back.map Prod.fst)))
    | _ => none
  | .serverRecv w k =>
    match s.worker w with
    | .scanning front ((c, true) :: rest) numEventsProcessed pollRes =>
      if numEventsProcessed < pollRes then
        ((s.conn c).serverRecv b.args k).map fun x =>
          (s.setConn c x).setWorker w (afterRecv x front c rest (numEventsProcessed + 1) pollRes)
      else none
    | _ => none
  | .serverSend w k =>
    match s.worker w with
    | .serving _ c _ _ _ => ((s.conn c).serverSend b.capacity k).map (s.setConn c)
    | _ => none
  | .endEvent w =>
    match s.worker w with
    | .serving front c back numEventsProcessed pollRes =>
      if (s.conn c).server = .answered then
        some ((s.setConn c ((s.conn c).endEvent b.args)).setWorker w
          (afterEvent (s.conn c) front c back numEventsProcessed pollRes))
      else none
    | _ => none
  | .finish w => if s.worker w = .polling [] then some (s.setWorker w .finished) else none

/-! ## What a step does -/

/-- **Everything that a step can do.** -/
inductive Moves (s : NetRun b) : NetRun b → Prop
  | connect (c : b.Client) (hprep : s.started = false)
    (hclient : (s.conn c).client = .unconnected) :
    Moves s { s.setConn c (.fresh .connected) with
      backlog := Function.update s.backlog (b.hosts.serverOf c)
        (s.backlog (b.hosts.serverOf c) ++ [c]) }
  | accept (h : b.Host) (c : b.Client) (rest : List b.Client) (hprep : s.started = false)
    (hbacklog : s.backlog h = c :: rest) :
    Moves s { s with
      backlog := Function.update s.backlog h rest
      serverSocketVec := Function.update s.serverSocketVec h (s.serverSocketVec h ++ [c]) }
  | begin (hprep : s.started = false) (hprepared : s.Prepared) : Moves s s.begin
  | clientSend (c : b.Client) (k : ℕ) (x : Conn)
    (hx : (s.conn c).clientSend b.args b.capacity k = some x) : Moves s (s.setConn c x)
  | clientRecv (c : b.Client) (k : ℕ) (x : Conn)
    (hx : (s.conn c).clientRecv b.args k = some x) : Moves s (s.setConn c x)
  | poll (w : b.Worker) (sockets : List b.Client) (hw : s.worker w = .polling sockets)
    (hevents : 0 < (s.revents sockets).countP Prod.snd) :
    Moves s (s.setWorker w
      (.scanning [] (s.revents sockets) 0 ((s.revents sockets).countP Prod.snd)))
  | scanEnd (w : b.Worker) (front back : List (b.Client × Bool)) (p r : ℕ)
    (hw : s.worker w = .scanning front back p r) (hend : back = [] ∨ r ≤ p) :
    Moves s (s.setWorker w (.polling (front.map Prod.fst ++ back.map Prod.fst)))
  | skip (w : b.Worker) (front rest : List (b.Client × Bool)) (c : b.Client) (p r : ℕ)
    (hw : s.worker w = .scanning front ((c, false) :: rest) p r) :
    Moves s (s.setWorker w (.scanning (front ++ [(c, false)]) rest p r))
  | serverRecv (w : b.Worker) (front rest : List (b.Client × Bool)) (c : b.Client) (p r k : ℕ)
    (x : Conn) (hw : s.worker w = .scanning front ((c, true) :: rest) p r)
    (hx : (s.conn c).serverRecv b.args k = some x) :
    Moves s ((s.setConn c x).setWorker w (afterRecv x front c rest (p + 1) r))
  | serverSend (w : b.Worker) (front back : List (b.Client × Bool)) (c : b.Client) (p r k : ℕ)
    (x : Conn) (hw : s.worker w = .serving front c back p r)
    (hx : (s.conn c).serverSend b.capacity k = some x) : Moves s (s.setConn c x)
  | endEvent (w : b.Worker) (front back : List (b.Client × Bool)) (c : b.Client) (p r : ℕ)
    (hw : s.worker w = .serving front c back p r) (hanswered : (s.conn c).server = .answered) :
    Moves s ((s.setConn c ((s.conn c).endEvent b.args)).setWorker w
      (afterEvent (s.conn c) front c back p r))
  | finish (w : b.Worker) (hw : s.worker w = .polling []) : Moves s (s.setWorker w .finished)

theorem moves_of_step {s s' : NetRun b} {action : NetAction b} (h : s.step action = some s') :
    Moves s s' := by
  cases action with
  | connect c =>
    rw [step] at h
    split_ifs at h with hcond
    obtain rfl := Option.some.inj h
    exact .connect c hcond.1 hcond.2
  | accept host =>
    rw [step] at h
    split at h
    · exact absurd h (by simp)
    · rename_i c rest hbacklog
      split_ifs at h with hcond
      obtain rfl := Option.some.inj h
      exact .accept host c rest hcond.1 hbacklog
  | startPhase =>
    rw [step] at h
    split_ifs at h with hcond
    obtain rfl := Option.some.inj h
    exact .begin hcond.1 hcond.2
  | clientSend c k =>
    obtain ⟨x, hx, rfl⟩ := Option.map_eq_some_iff.mp h
    exact .clientSend c k x hx
  | clientRecv c k =>
    obtain ⟨x, hx, rfl⟩ := Option.map_eq_some_iff.mp h
    exact .clientRecv c k x hx
  | poll w =>
    rw [step] at h
    split at h
    · rename_i sockets hw
      split_ifs at h with hevents
      obtain rfl := Option.some.inj h
      exact .poll w sockets hw hevents
    · exact absurd h (by simp)
  | scan w =>
    rw [step] at h
    split at h
    · rename_i front back p r hw
      split_ifs at h with hlt
      · split at h
        · obtain rfl := Option.some.inj h
          have hmove := Moves.scanEnd w front [] p r hw (Or.inl rfl)
          rwa [List.map_nil, List.append_nil] at hmove
        · obtain rfl := Option.some.inj h
          exact .skip w front _ _ p r hw
        · exact absurd h (by simp)
      · obtain rfl := Option.some.inj h
        exact .scanEnd w front back p r hw (Or.inr (not_lt.mp hlt))
    · exact absurd h (by simp)
  | serverRecv w k =>
    rw [step] at h
    split at h
    · rename_i front c rest p r hw
      split_ifs at h with hlt
      obtain ⟨x, hx, rfl⟩ := Option.map_eq_some_iff.mp h
      exact .serverRecv w front rest c p r k x hw hx
    · exact absurd h (by simp)
  | serverSend w k =>
    rw [step] at h
    split at h
    · rename_i front c back p r hw
      obtain ⟨x, hx, rfl⟩ := Option.map_eq_some_iff.mp h
      exact .serverSend w front back c p r k x hw hx
    · exact absurd h (by simp)
  | endEvent w =>
    rw [step] at h
    split at h
    · rename_i front c back p r hw
      split_ifs at h with hanswered
      obtain rfl := Option.some.inj h
      exact .endEvent w front back c p r hw hanswered
    · exact absurd h (by simp)
  | finish w =>
    rw [step] at h
    split_ifs at h with hw
    obtain rfl := Option.some.inj h
    exact .finish w hw

/-! ## A server thread -/

/-- What holds of a server thread and its connections.  Only the connection of the current event is
not waiting, entries with an event that are still to come have data, and a scan has an event to
come before it has processed one. -/
structure WorkerOk (conn : b.Client → Conn) (pc : ServerPc b.Client) : Prop where
  started : pc ≠ .preparing
  nodup : pc.sockets.Nodup
  waiting : ∀ c ∈ pc.idle, (conn c).server = .waiting
  data : ∀ e ∈ pc.pending, e.2 = true → 0 < (conn e.1).toServer
  serving : ∀ front c back p r, pc = .serving front c back p r →
    0 < p ∧ ((conn c).server = .answered ∨ ∃ left, (conn c).server = .responding left)
  first : ∀ front back r, pc = .scanning front back 0 r → 0 < r ∧ back.countP Prod.snd = r

variable {conn conn' : b.Client → Conn} {pc : ServerPc b.Client}

theorem mem_sockets_of_mem_idle {c : b.Client} (h : c ∈ pc.idle) : c ∈ pc.sockets := by
  cases pc with
  | serving front d back p r =>
    rcases List.mem_append.mp h with hfront | hback
    · exact List.mem_append_left _ hfront
    · exact List.mem_append_right _ (List.mem_cons_of_mem d hback)
  | preparing | polling | scanning | finished => exact h

theorem mem_idle_of_mem_pending {e : b.Client × Bool} (h : e ∈ pc.pending) : e.1 ∈ pc.idle := by
  cases pc with
  | scanning front back p r => exact List.mem_append_right _ (List.mem_map_of_mem h)
  | serving front d back p r => exact List.mem_append_right _ (List.mem_map_of_mem h)
  | preparing | polling | finished => exact absurd h (by simp [ServerPc.pending])

/-- **The frame of a thread**: it does not notice what happens elsewhere, nor that more data
arrives. -/
theorem WorkerOk.congr (h : WorkerOk conn pc)
    (hconn : ∀ c ∈ pc.sockets, (conn' c).server = (conn c).server ∧
      (conn c).toServer ≤ (conn' c).toServer) : WorkerOk conn' pc := by
  refine ⟨h.started, h.nodup, fun c hc => ?_, fun e he hevent => ?_, ?_, h.first⟩
  · rw [(hconn c (mem_sockets_of_mem_idle hc)).1]
    exact h.waiting c hc
  · exact lt_of_lt_of_le (h.data e he hevent)
      (hconn e.1 (mem_sockets_of_mem_idle (mem_idle_of_mem_pending he))).2
  · intro front c back p r hpc
    have hmem : c ∈ pc.sockets := by
      rw [hpc]
      exact List.mem_append_right _ List.mem_cons_self
    rw [(hconn c hmem).1]
    exact h.serving front c back p r hpc

/-- The connection of the current event is in no other entry. -/
theorem not_mem_idle_of_nodup {front back : List (b.Client × Bool)} {c : b.Client}
    (hnodup : (front.map Prod.fst ++ c :: back.map Prod.fst).Nodup) :
    c ∉ front.map Prod.fst ++ back.map Prod.fst := by
  rw [List.perm_middle.nodup_iff, List.nodup_cons] at hnodup
  exact hnodup.1

/-- A thread that polls. -/
theorem workerOk_polling {sockets : List b.Client} (hnodup : sockets.Nodup)
    (hwaiting : ∀ c ∈ sockets, (conn c).server = .waiting) :
    WorkerOk conn (.polling sockets) where
  started := by simp
  nodup := hnodup
  waiting := hwaiting
  data := fun e he => absurd he (by simp [ServerPc.pending])
  serving := fun _ _ _ _ _ h => absurd h (by simp)
  first := fun _ _ _ h => absurd h (by simp)

/-- A thread in a scan that has processed an event. -/
theorem workerOk_scanning {front back : List (b.Client × Bool)} {p r : ℕ} (hp : 0 < p)
    (hnodup : (front.map Prod.fst ++ back.map Prod.fst).Nodup)
    (hwaiting : ∀ c ∈ front.map Prod.fst ++ back.map Prod.fst, (conn c).server = .waiting)
    (hdata : ∀ e ∈ back, e.2 = true → 0 < (conn e.1).toServer) :
    WorkerOk conn (.scanning front back p r) where
  started := by simp
  nodup := hnodup
  waiting := hwaiting
  data := hdata
  serving := fun _ _ _ _ _ h => absurd h (by simp)
  first := by
    intro front' back' r' h
    have hzero : p = 0 := (ServerPc.scanning.inj h).2.2.1
    omega

/-- A thread in an event. -/
theorem workerOk_serving {front back : List (b.Client × Bool)} {c : b.Client} {p r : ℕ}
    (hp : 0 < p) (hnodup : (front.map Prod.fst ++ c :: back.map Prod.fst).Nodup)
    (hwaiting : ∀ d ∈ front.map Prod.fst ++ back.map Prod.fst, (conn d).server = .waiting)
    (hdata : ∀ e ∈ back, e.2 = true → 0 < (conn e.1).toServer)
    (hserver : (conn c).server = .answered ∨ ∃ left, (conn c).server = .responding left) :
    WorkerOk conn (.serving front c back p r) where
  started := by simp
  nodup := hnodup
  waiting := hwaiting
  data := hdata
  serving := by
    intro front' c' back' p' r' h
    obtain ⟨-, rfl, -, rfl, -⟩ := ServerPc.serving.inj h
    exact ⟨hp, hserver⟩
  first := fun _ _ _ h => absurd h (by simp)

theorem workerOk_finished : WorkerOk conn .finished where
  started := by simp
  nodup := List.nodup_nil
  waiting := fun _ h => absurd h (by simp [ServerPc.idle])
  data := fun _ h => absurd h (by simp [ServerPc.pending])
  serving := fun _ _ _ _ _ h => absurd h (by simp)
  first := fun _ _ _ h => absurd h (by simp)

theorem map_fst_revents (s : NetRun b) (sockets : List b.Client) :
    (s.revents sockets).map Prod.fst = sockets := by
  rw [revents, List.map_map]
  exact List.map_id sockets

/-- **`poll` reports the sockets that have data.** -/
theorem WorkerOk.poll {s : NetRun b} {sockets : List b.Client}
    (h : WorkerOk s.conn (.polling sockets))
    (hevents : 0 < (s.revents sockets).countP Prod.snd) :
    WorkerOk s.conn
      (.scanning [] (s.revents sockets) 0 ((s.revents sockets).countP Prod.snd)) where
  started := by simp
  nodup := by
    show (([] : List b.Client) ++ (s.revents sockets).map Prod.fst).Nodup
    rw [List.nil_append, map_fst_revents]
    exact h.nodup
  waiting := by
    intro c hc
    have hmem : c ∈ ([] : List b.Client) ++ (s.revents sockets).map Prod.fst := hc
    rw [List.nil_append, map_fst_revents] at hmem
    exact h.waiting c hmem
  data := by
    intro e he hevent
    obtain ⟨c, -, rfl⟩ := List.mem_map.mp he
    exact of_decide_eq_true hevent
  serving := fun _ _ _ _ _ hpc => absurd hpc (by simp)
  first := by
    intro front back r hpc
    obtain ⟨-, rfl, -, rfl⟩ := ServerPc.scanning.inj hpc
    exact ⟨hevents, rfl⟩

theorem WorkerOk.scanEnd {front back : List (b.Client × Bool)} {p r : ℕ}
    (h : WorkerOk conn (.scanning front back p r)) :
    WorkerOk conn (.polling (front.map Prod.fst ++ back.map Prod.fst)) :=
  workerOk_polling h.nodup h.waiting

/-- A scan cannot end before it has processed an event. -/
theorem WorkerOk.processed_pos {front back : List (b.Client × Bool)} {p r : ℕ}
    (h : WorkerOk conn (.scanning front back p r)) (hend : back = [] ∨ r ≤ p) : 0 < p := by
  by_contra hzero
  obtain rfl : p = 0 := by omega
  obtain ⟨hpos, hcount⟩ := h.first front back r rfl
  rcases hend with rfl | hle
  · rw [List.countP_nil] at hcount
    omega
  · omega

theorem sockets_append_cons (front rest : List (b.Client × Bool)) (e : b.Client × Bool) :
    (front ++ [e]).map Prod.fst ++ rest.map Prod.fst =
      front.map Prod.fst ++ e.1 :: rest.map Prod.fst := by
  simp

theorem WorkerOk.skip {front rest : List (b.Client × Bool)} {c : b.Client} {p r : ℕ}
    (h : WorkerOk conn (.scanning front ((c, false) :: rest) p r)) :
    WorkerOk conn (.scanning (front ++ [(c, false)]) rest p r) where
  started := by simp
  nodup := by
    show ((front ++ [(c, false)]).map Prod.fst ++ rest.map Prod.fst).Nodup
    rw [sockets_append_cons]
    exact h.nodup
  waiting := by
    intro d hd
    have hmem : d ∈ (front ++ [(c, false)]).map Prod.fst ++ rest.map Prod.fst := hd
    rw [sockets_append_cons] at hmem
    exact h.waiting d hmem
  data := fun e he => h.data e (List.mem_cons_of_mem _ he)
  serving := fun _ _ _ _ _ hpc => absurd hpc (by simp)
  first := by
    intro front' back' r' hpc
    obtain ⟨-, rfl, rfl, rfl⟩ := ServerPc.scanning.inj hpc
    have hfirst := h.first front _ r rfl
    rwa [List.countP_cons_of_neg (by simp)] at hfirst

/-- The other entries do not notice a step of the connection `c`. -/
theorem update_conn_of_ne {c d : b.Client} {x : Conn} (hne : d ≠ c) :
    Function.update conn c x d = conn d := Function.update_of_ne hne x conn

theorem WorkerOk.serverRecv {front rest : List (b.Client × Bool)} {c : b.Client} {p r : ℕ}
    {x : Conn} (h : WorkerOk conn (.scanning front ((c, true) :: rest) p r))
    (hserver : x.server = .waiting ∨ ∃ left, x.server = .responding left) :
    WorkerOk (Function.update conn c x) (afterRecv x front c rest (p + 1) r) := by
  have hnodup : (front.map Prod.fst ++ c :: rest.map Prod.fst).Nodup := h.nodup
  have hother := not_mem_idle_of_nodup hnodup
  have hwaiting : ∀ d ∈ front.map Prod.fst ++ rest.map Prod.fst,
      (Function.update conn c x d).server = .waiting := by
    intro d hd
    rw [update_conn_of_ne (by rintro rfl; exact hother hd)]
    refine h.waiting d (List.mem_append.mpr ?_)
    exact (List.mem_append.mp hd).imp id (List.mem_cons_of_mem c)
  have hdata : ∀ e ∈ rest, e.2 = true → 0 < (Function.update conn c x e.1).toServer := by
    intro e he hevent
    have hmem : e.1 ∈ rest.map Prod.fst := List.mem_map_of_mem he
    rw [update_conn_of_ne (by rintro rfl; exact hother (List.mem_append_right _ hmem))]
    exact h.data e (List.mem_cons_of_mem _ he) hevent
  unfold afterRecv
  split_ifs with hidle
  · refine workerOk_scanning p.succ_pos ?_ ?_ hdata
    · rw [sockets_append_cons]
      exact hnodup
    · intro d hd
      rw [sockets_append_cons] at hd
      by_cases heq : d = c
      · rw [heq, Function.update_self]
        exact hidle
      · refine hwaiting d (List.mem_append.mpr ?_)
        exact (List.mem_append.mp hd).imp id fun htail =>
          (List.mem_cons.mp htail).resolve_left heq
  · refine workerOk_serving p.succ_pos hnodup hwaiting hdata ?_
    rw [Function.update_self]
    exact Or.inr (hserver.resolve_left hidle)

theorem WorkerOk.serverSend {front back : List (b.Client × Bool)} {c : b.Client} {p r : ℕ}
    {x : Conn} (h : WorkerOk conn (.serving front c back p r))
    (hserver : x.server = .answered ∨ ∃ left, x.server = .responding left) :
    WorkerOk (Function.update conn c x) (.serving front c back p r) := by
  have hother := not_mem_idle_of_nodup h.nodup
  refine workerOk_serving (h.serving _ _ _ _ _ rfl).1 h.nodup (fun d hd => ?_)
    (fun e he hevent => ?_) ?_
  · rw [update_conn_of_ne (by rintro rfl; exact hother hd)]
    exact h.waiting d hd
  · have hmem : e.1 ∈ back.map Prod.fst := List.mem_map_of_mem he
    rw [update_conn_of_ne (by rintro rfl; exact hother (List.mem_append_right _ hmem))]
    exact h.data e he hevent
  · rw [Function.update_self]
    exact hserver

theorem WorkerOk.endEvent {front back : List (b.Client × Bool)} {c : b.Client} {p r : ℕ}
    (h : WorkerOk conn (.serving front c back p r)) :
    WorkerOk (Function.update conn c ((conn c).endEvent b.args))
      (afterEvent (conn c) front c back p r) := by
  have hother := not_mem_idle_of_nodup h.nodup
  have hp := (h.serving _ _ _ _ _ rfl).1
  have hwaiting : ∀ d ∈ front.map Prod.fst ++ back.map Prod.fst,
      (Function.update conn c ((conn c).endEvent b.args) d).server = .waiting := by
    intro d hd
    rw [update_conn_of_ne (by rintro rfl; exact hother hd)]
    exact h.waiting d hd
  have hdata : ∀ e ∈ back, e.2 = true →
      0 < (Function.update conn c ((conn c).endEvent b.args) e.1).toServer := by
    intro e he hevent
    have hmem : e.1 ∈ back.map Prod.fst := List.mem_map_of_mem he
    rw [update_conn_of_ne (by rintro rfl; exact hother (List.mem_append_right _ hmem))]
    exact h.data e he hevent
  unfold afterEvent
  split_ifs with htotal
  · -- the entry is erased, and the one behind it is passed over
    have hsockets : (front ++ back.take 1).map Prod.fst ++ (back.drop 1).map Prod.fst =
        front.map Prod.fst ++ back.map Prod.fst := by
      rw [List.map_append, List.append_assoc, ← List.map_append, List.take_append_drop]
    refine workerOk_scanning hp ?_ ?_ fun e he => hdata e (List.mem_of_mem_drop he)
    · rw [hsockets]
      have hnodup : (front.map Prod.fst ++ c :: back.map Prod.fst).Nodup := h.nodup
      rw [List.perm_middle.nodup_iff, List.nodup_cons] at hnodup
      exact hnodup.2
    · rw [hsockets]
      exact hwaiting
  · refine workerOk_scanning hp ?_ ?_ hdata
    · rw [sockets_append_cons]
      exact h.nodup
    · intro d hd
      rw [sockets_append_cons] at hd
      by_cases heq : d = c
      · rw [heq, Function.update_self]
        show (if (conn c).received = b.args.transferBytesPerConn then ConnServer.closed
          else .waiting) = .waiting
        rw [if_neg htotal]
      · refine hwaiting d (List.mem_append.mpr ?_)
        exact (List.mem_append.mp hd).imp id fun htail =>
          (List.mem_cons.mp htail).resolve_left heq

end NetRun

end Elbencho
