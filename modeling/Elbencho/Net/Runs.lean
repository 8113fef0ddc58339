import Elbencho.Net.Protocol

/-!
# Runs of the network benchmark

Two invariants carry a run, one for each half.  While the services prepare, the connections of a
server are in its backlog or accepted, each once (`Prepares`).  From the start of the phase on, each
connection has one server thread, which keeps its socket until the connection is closed, every
connection is in one of its phases and every server thread is in order (`Transfers`).  The start of
the phase leads from one to the other only if each server waits for all connections that are made
to it.

A run that is not finished has a next step, because a client that cannot go on has left data for
its server thread, or waits for a response that is on its way.  And every run ends: bytes weigh less
the closer they are to their destination, and a scan of the sockets is paid for by the bytes that it
receives.

* **`exact_iff`**: a configuration is exact, that is, the counts agree, each connection has one
  server thread, there is one response for each block, nobody is stuck and every run ends, if and
  only if the number of connections fits into an `unsigned` and the response size is not zero as an
  `int`.
* `netBench_stuck`: a client that has received a response of 4 GiB and still waits for it.
-/

namespace Elbencho

open Transition Blocks Parties

namespace NetRun

variable {b : NetBench} {s s' : NetRun b}

/-! ## Preparations -/

/-- The connections of a server are in its backlog or accepted, each once. -/
structure Prepares (s : NetRun b) : Prop where
  conns : ∀ c, s.conn c = .fresh .unconnected ∨ s.conn c = .fresh .connected
  mem_iff : ∀ h c, c ∈ s.backlog h ++ s.serverSocketVec h ↔
    s.conn c = .fresh .connected ∧ b.hosts.serverOf c = h
  nodup : ∀ h, (s.backlog h ++ s.serverSocketVec h).Nodup
  workers : ∀ w, s.worker w = .preparing

theorem fresh_connected_ne : Conn.fresh .unconnected ≠ Conn.fresh .connected := by decide

theorem prepares_start : (start : NetRun b).Prepares where
  conns := fun _ => Or.inl rfl
  mem_iff := by
    intro h c
    refine iff_of_false (by simp [start]) ?_
    rintro ⟨hconn, -⟩
    exact fresh_connected_ne hconn
  nodup := fun _ => List.nodup_nil
  workers := fun _ => rfl

/-- A client that connects is new in the backlog. -/
theorem Prepares.connect (h : s.Prepares) {c : b.Client}
    (hclient : (s.conn c).client = .unconnected) :
    Prepares { s.setConn c (.fresh .connected) with
      backlog := Function.update s.backlog (b.hosts.serverOf c)
        (s.backlog (b.hosts.serverOf c) ++ [c]) } := by
  have hconn : s.conn c = .fresh .unconnected := by
    rcases h.conns c with hconn | hconn
    · exact hconn
    · rw [hconn] at hclient
      exact absurd hclient (by simp [Conn.fresh])
  have hnew : ∀ host, c ∉ s.backlog host ++ s.serverSocketVec host := by
    intro host hmem
    have hconnected := ((h.mem_iff host c).mp hmem).1
    rw [hconn] at hconnected
    exact fresh_connected_ne hconnected
  -- the lists of the server of `c` have `c` in addition
  have hperm : (s.backlog (b.hosts.serverOf c) ++ [c] ++
      s.serverSocketVec (b.hosts.serverOf c)).Perm
        (c :: (s.backlog (b.hosts.serverOf c) ++ s.serverSocketVec (b.hosts.serverOf c))) := by
    rw [List.append_assoc]
    exact List.perm_middle
  refine ⟨fun d => ?_, fun host d => ?_, fun host => ?_, h.workers⟩
  · show Function.update s.conn c _ d = _ ∨ Function.update s.conn c _ d = _
    by_cases hd : d = c
    · rw [hd, Function.update_self]
      exact Or.inr rfl
    · rw [Function.update_of_ne hd]
      exact h.conns d
  · show d ∈ Function.update s.backlog _ _ host ++ s.serverSocketVec host ↔
      Function.update s.conn c _ d = _ ∧ _
    by_cases hd : d = c
    · subst hd
      rw [Function.update_self]
      by_cases hhost : host = b.hosts.serverOf d
      · subst hhost
        rw [Function.update_self]
        exact iff_of_true (by simp) ⟨rfl, rfl⟩
      · rw [Function.update_of_ne hhost]
        exact iff_of_false (hnew host) fun heq => hhost heq.2.symm
    · rw [Function.update_of_ne hd, ← h.mem_iff host d]
      by_cases hhost : host = b.hosts.serverOf c
      · subst hhost
        rw [Function.update_self, hperm.mem_iff, List.mem_cons]
        exact or_iff_right hd
      · rw [Function.update_of_ne hhost]
  · show (Function.update s.backlog _ _ host ++ s.serverSocketVec host).Nodup
    by_cases hhost : host = b.hosts.serverOf c
    · subst hhost
      rw [Function.update_self, hperm.nodup_iff, List.nodup_cons]
      exact ⟨hnew _, h.nodup _⟩
    · rw [Function.update_of_ne hhost]
      exact h.nodup host

/-- A connection that is accepted leaves the backlog. -/
theorem Prepares.accept (h : s.Prepares) {host : b.Host} {c : b.Client} {rest : List b.Client}
    (hbacklog : s.backlog host = c :: rest) :
    Prepares { s with
      backlog := Function.update s.backlog host rest
      serverSocketVec :=
        Function.update s.serverSocketVec host (s.serverSocketVec host ++ [c]) } := by
  have hperm : ∀ d, (Function.update s.backlog host rest d ++
      Function.update s.serverSocketVec host (s.serverSocketVec host ++ [c]) d).Perm
        (s.backlog d ++ s.serverSocketVec d) := by
    intro d
    by_cases hd : d = host
    · subst hd
      rw [Function.update_self, Function.update_self, hbacklog, ← List.append_assoc]
      exact List.perm_append_singleton c _
    · rw [Function.update_of_ne hd, Function.update_of_ne hd]
  refine ⟨h.conns, fun d x => ?_, fun d => ?_, h.workers⟩
  · exact (hperm d).mem_iff.trans (h.mem_iff d x)
  · exact (hperm d).nodup_iff.mpr (h.nodup d)

/-- A server that has as many connections as are made to it has all of them. -/
theorem Prepares.mem_serverSocketVec (h : s.Prepares) {host : b.Host}
    (hlen : b.hosts.numConnsTo host ≤ (s.serverSocketVec host).length) {c : b.Client}
    (hc : b.hosts.serverOf c = host) : c ∈ s.serverSocketVec host := by
  have hnodup := (h.nodup host).of_append_right
  have hsub : (s.serverSocketVec host).toFinset ⊆
      Finset.univ.filter fun c : b.Client => b.hosts.serverOf c = host := by
    intro d hd
    rw [List.mem_toFinset] at hd
    rw [Finset.mem_filter]
    exact ⟨Finset.mem_univ d, ((h.mem_iff host d).mp (List.mem_append_right _ hd)).2⟩
  have heq := Finset.eq_of_subset_of_card_le hsub (by rwa [List.toFinset_card_of_nodup hnodup])
  rw [← List.mem_toFinset, heq, Finset.mem_filter]
  exact ⟨Finset.mem_univ c, hc⟩

/-- **Preparations do not get stuck**: with all clients connected, a server that waits has a
connection to accept. -/
theorem Prepares.backlog_ne_nil (h : s.Prepares)
    (hconnected : ∀ c, (s.conn c).client = .connected) {host : b.Host}
    (hlen : (s.serverSocketVec host).length < b.hosts.numConnsTo host) :
    s.backlog host ≠ [] := by
  intro hnil
  have hall : (Finset.univ.filter fun c : b.Client => b.hosts.serverOf c = host) ⊆
      (s.serverSocketVec host).toFinset := by
    intro c hc
    rw [Finset.mem_filter] at hc
    have hconn : s.conn c = .fresh .connected := by
      rcases h.conns c with hconn | hconn
      · have hclient := hconnected c
        rw [hconn] at hclient
        exact absurd hclient (by simp [Conn.fresh])
      · exact hconn
    have hmem := (h.mem_iff host c).mpr ⟨hconn, hc.2⟩
    rw [hnil, List.nil_append] at hmem
    exact List.mem_toFinset.mpr hmem
  have hle := le_trans (Finset.card_le_card hall) (s.serverSocketVec host).toFinset_card_le
  exact absurd hlen (not_lt.mpr hle)

/-! ## The phase -/

/-- Each connection has one server thread, which keeps the socket until the connection is
closed. -/
structure Transfers (s : NetRun b) (owner : b.Client → b.Worker) : Prop where
  phase : ∀ c, (s.conn c).Phase b.args
  running : ∀ c, (s.conn c).client ≠ .unconnected ∧ (s.conn c).client ≠ .connected
  owned : ∀ w c, c ∈ (s.worker w).sockets → owner c = w
  live : ∀ c, (s.conn c).server ≠ .closed → c ∈ (s.worker (owner c)).sockets
  workers : ∀ w, WorkerOk s.conn (s.worker w)

variable {owner : b.Client → b.Worker}

/-- **The start of the phase.** -/
theorem Prepares.begin (h : s.Prepares) (hcount : b.hosts.numConns < 2 ^ 32)
    (hprepared : s.Prepared) : ∃ owner, s.begin.Transfers owner := by
  have hwait := NetBenchHosts.numConnsToWaitFor_eq_iff.mpr hcount
  have hconn : ∀ c, s.conn c = .fresh .connected := by
    intro c
    rcases h.conns c with hconn | hconn
    · have hclient := hprepared.1 c
      rw [hconn] at hclient
      exact absurd hclient (by simp [Conn.fresh])
    · exact hconn
  have hmem : ∀ c, c ∈ s.serverSocketVec (b.hosts.serverOf c) := by
    intro c
    refine h.mem_serverSocketVec ?_ rfl
    rw [← hwait]
    exact hprepared.2 _
  have hnodup : ∀ host, (s.serverSocketVec host).Nodup := fun host =>
    (h.nodup host).of_append_right
  have hunique : ∀ c, ∃! k, k < b.hosts.numThreads ∧
      c ∈ everyNth b.hosts.numThreads k (s.serverSocketVec (b.hosts.serverOf c)) := fun c =>
    existsUnique_mem_everyNth b.hosts.numThreads_pos (hnodup _) (hmem c)
  choose k hk hkunique using hunique
  refine ⟨fun c => (b.hosts.serverOf c, ⟨k c, (hk c).1⟩), fun c => ?_, fun c => ?_, ?_,
    fun c _ => (hk c).2, fun w => ?_⟩
  · refine Conn.Phase.begin ?_ (hprepared.1 c)
    rw [hconn c]
    exact .fresh (Or.inr rfl)
  · have hpos := b.args.transferBytesPerConn_pos
    show Conn.nextBlock b.args 0 ≠ _ ∧ Conn.nextBlock b.args 0 ≠ _
    rw [Conn.nextBlock, if_neg (by omega)]
    simp
  · rintro ⟨host, thread⟩ c hc
    have hc' : c ∈ everyNth b.hosts.numThreads thread (s.serverSocketVec host) := hc
    have hsocket := (everyNth_sublist _ _).subset hc'
    obtain rfl := ((h.mem_iff host c).mp (List.mem_append_right _ hsocket)).2
    exact Prod.ext rfl (Fin.ext (hkunique c thread ⟨thread.isLt, hc'⟩).symm)
  · refine workerOk_polling ((everyNth_sublist _ _).nodup (hnodup _)) fun c _ => ?_
    show (s.conn c).server = .waiting
    rw [hconn c]
    rfl

/-- A step of a client, which the servers see as more data at most. -/
theorem Transfers.setClient (h : s.Transfers owner) {c : b.Client} {x : Conn}
    (hphase : x.Phase b.args) (hrunning : x.client ≠ .unconnected ∧ x.client ≠ .connected)
    (hserver : x.server = (s.conn c).server) (hdata : (s.conn c).toServer ≤ x.toServer) :
    (s.setConn c x).Transfers owner := by
  have hsame : ∀ d, (Function.update s.conn c x d).server = (s.conn d).server ∧
      (s.conn d).toServer ≤ (Function.update s.conn c x d).toServer := by
    intro d
    by_cases hd : d = c
    · rw [hd, Function.update_self]
      exact ⟨hserver, hdata⟩
    · rw [Function.update_of_ne hd]
      exact ⟨rfl, le_rfl⟩
  refine ⟨fun d => ?_, fun d => ?_, h.owned, fun d hd => ?_, fun w => ?_⟩
  · show (Function.update s.conn c x d).Phase b.args
    by_cases hd : d = c
    · rw [hd, Function.update_self]
      exact hphase
    · rw [Function.update_of_ne hd]
      exact h.phase d
  · show (Function.update s.conn c x d).client ≠ _ ∧ (Function.update s.conn c x d).client ≠ _
    by_cases hd : d = c
    · rw [hd, Function.update_self]
      exact hrunning
    · rw [Function.update_of_ne hd]
      exact h.running d
  · refine h.live d ?_
    rw [← (hsame d).1]
    exact hd
  · exact (h.workers w).congr fun d _ => hsame d

/-- A step of a server thread that only looks at its sockets. -/
theorem Transfers.setWorker (h : s.Transfers owner) {w : b.Worker} {pc : ServerPc b.Client}
    (hsockets : pc.sockets = (s.worker w).sockets) (hok : WorkerOk s.conn pc) :
    (s.setWorker w pc).Transfers owner := by
  have hsame : ∀ v, (Function.update s.worker w pc v).sockets = (s.worker v).sockets := by
    intro v
    by_cases hv : v = w
    · rw [hv, Function.update_self, hsockets]
    · rw [Function.update_of_ne hv]
  refine ⟨h.phase, h.running, fun v c hc => h.owned v c ?_, fun c hc => ?_, fun v => ?_⟩
  · rw [← hsame v]
    exact hc
  · show c ∈ (Function.update s.worker w pc (owner c)).sockets
    rw [hsame]
    exact h.live c hc
  · show WorkerOk s.conn (Function.update s.worker w pc v)
    by_cases hv : v = w
    · rw [hv, Function.update_self]
      exact hok
    · rw [Function.update_of_ne hv]
      exact h.workers v

/-- A step of a server thread in the connection `c`, which may close it. -/
theorem Transfers.setServer (h : s.Transfers owner) {w : b.Worker} {c : b.Client} {x : Conn}
    {pc : ServerPc b.Client} (hc : c ∈ (s.worker w).sockets) (hphase : x.Phase b.args)
    (hclient : x.client = (s.conn c).client)
    (hsub : ∀ d ∈ pc.sockets, d ∈ (s.worker w).sockets)
    (hkept : ∀ d ∈ (s.worker w).sockets, d ∈ pc.sockets ∨ (d = c ∧ x.server = .closed))
    (hok : WorkerOk (Function.update s.conn c x) pc) :
    ((s.setConn c x).setWorker w pc).Transfers owner := by
  refine ⟨fun d => ?_, fun d => ?_, fun v d hd => ?_, fun d hd => ?_, fun v => ?_⟩
  · show (Function.update s.conn c x d).Phase b.args
    by_cases heq : d = c
    · rw [heq, Function.update_self]
      exact hphase
    · rw [Function.update_of_ne heq]
      exact h.phase d
  · show (Function.update s.conn c x d).client ≠ _ ∧ (Function.update s.conn c x d).client ≠ _
    by_cases heq : d = c
    · rw [heq, Function.update_self, hclient]
      exact h.running c
    · rw [Function.update_of_ne heq]
      exact h.running d
  · have hd' : d ∈ (Function.update s.worker w pc v).sockets := hd
    by_cases hv : v = w
    · rw [hv, Function.update_self] at hd'
      rw [hv]
      exact h.owned w d (hsub d hd')
    · rw [Function.update_of_ne hv] at hd'
      exact h.owned v d hd'
  · have hd' : (Function.update s.conn c x d).server ≠ .closed := hd
    show d ∈ (Function.update s.worker w pc (owner d)).sockets
    have hlive : d ∈ (s.worker (owner d)).sockets := by
      by_cases heq : d = c
      · rw [heq, h.owned w c hc]
        exact hc
      · rw [Function.update_of_ne heq] at hd'
        exact h.live d hd'
    by_cases hv : owner d = w
    · rw [hv, Function.update_self]
      rw [hv] at hlive
      refine (hkept d hlive).resolve_right ?_
      rintro ⟨rfl, hclosed⟩
      rw [Function.update_self] at hd'
      exact hd' hclosed
    · rw [Function.update_of_ne hv]
      exact hlive
  · show WorkerOk (Function.update s.conn c x) (Function.update s.worker w pc v)
    by_cases hv : v = w
    · rw [hv, Function.update_self]
      exact hok
    · rw [Function.update_of_ne hv]
      -- the connection belongs to another thread
      refine (h.workers v).congr fun d hd => ?_
      have hne : d ≠ c := by
        rintro rfl
        exact hv ((h.owned v d hd).symm.trans (h.owned w d hc))
      rw [Function.update_of_ne hne]
      exact ⟨rfl, le_rfl⟩

/-- **Every step of the phase.** -/
theorem Transfers.moves (h : s.Transfers owner) (hstarted : s.started = true)
    (hmove : Moves s s') : s'.started = true ∧ s'.Transfers owner := by
  cases hmove with
  | connect c hprep _ | accept _ c _ hprep _ | begin hprep _ =>
    rw [hstarted] at hprep
    exact absurd hprep (by simp)
  | clientSend c k x hx =>
    have hphase := (h.phase c).clientSend hx
    obtain ⟨t, left, -, -, -, -, rfl⟩ := Conn.clientSend_eq_some hx
    refine ⟨hstarted, h.setClient hphase ?_ rfl (Nat.le_add_right _ _)⟩
    split_ifs <;> simp
  | clientRecv c k x hx =>
    have hphase := (h.phase c).clientRecv hx
    obtain ⟨t, missing, -, -, -, -, rfl⟩ := Conn.clientRecv_eq_some hx
    refine ⟨hstarted, h.setClient hphase ?_ rfl le_rfl⟩
    unfold Conn.nextBlock
    split_ifs <;> simp
  | poll w sockets hw hevents =>
    have hok := h.workers w
    rw [hw] at hok
    refine ⟨hstarted, h.setWorker ?_ (hok.poll hevents)⟩
    rw [hw]
    show ([] : List b.Client) ++ (s.revents sockets).map Prod.fst = sockets
    rw [List.nil_append, map_fst_revents]
  | scanEnd w front back p r hw hend =>
    have hok := h.workers w
    rw [hw] at hok
    refine ⟨hstarted, h.setWorker ?_ hok.scanEnd⟩
    rw [hw]
    rfl
  | skip w front rest c p r hw =>
    have hok := h.workers w
    rw [hw] at hok
    refine ⟨hstarted, h.setWorker ?_ hok.skip⟩
    rw [hw]
    exact sockets_append_cons front rest (c, false)
  | serverRecv w front rest c p r k x hw hx =>
    have hok := h.workers w
    rw [hw] at hok
    have hphase := (h.phase c).serverRecv hx
    obtain ⟨hclient, hserver⟩ := Conn.serverRecv_server hx
    have hsockets : (afterRecv x front c rest (p + 1) r).sockets = (s.worker w).sockets := by
      rw [hw]
      unfold afterRecv
      split_ifs
      · exact sockets_append_cons front rest (c, true)
      · rfl
    refine ⟨hstarted, h.setServer ?_ hphase hclient ?_ ?_ (hok.serverRecv hserver)⟩
    · rw [hw]
      exact List.mem_append_right _ List.mem_cons_self
    · rw [hsockets]
      exact fun d hd => hd
    · rw [hsockets]
      exact fun d hd => Or.inl hd
  | serverSend w front back c p r k x hw hx =>
    have hok := h.workers w
    rw [hw] at hok
    have hphase := (h.phase c).serverSend hx
    obtain ⟨hclient, hserver⟩ := Conn.serverSend_server hx
    -- the thread stays in the event
    have hsame : (s.setConn c x).setWorker w (s.worker w) = s.setConn c x := by
      show { s.setConn c x with worker := Function.update s.worker w (s.worker w) } = _
      rw [Function.update_eq_self]
      rfl
    have hset : ((s.setConn c x).setWorker w (s.worker w)).Transfers owner := by
      refine h.setServer ?_ hphase hclient (fun d hd => hd) (fun d hd => Or.inl hd) ?_
      · rw [hw]
        exact List.mem_append_right _ List.mem_cons_self
      · rw [hw]
        exact hok.serverSend hserver
    rw [hsame] at hset
    exact ⟨hstarted, hset⟩
  | endEvent w front back c p r hw hanswered =>
    have hok := h.workers w
    rw [hw] at hok
    have hsockets : (s.worker w).sockets = front.map Prod.fst ++ c :: back.map Prod.fst := by
      rw [hw]
      rfl
    refine ⟨hstarted, h.setServer ?_ ((h.phase c).endEvent hanswered) rfl ?_ ?_ hok.endEvent⟩
    · rw [hsockets]
      exact List.mem_append_right _ List.mem_cons_self
    · intro d hd
      rw [hsockets]
      unfold afterEvent at hd
      split_ifs at hd
      · rcases List.mem_append.mp hd with hmem | hmem
        · rw [List.map_append] at hmem
          rcases List.mem_append.mp hmem with hfront | hback
          · exact List.mem_append_left _ hfront
          · refine List.mem_append_right _ (List.mem_cons_of_mem c ?_)
            exact List.map_subset _ (List.take_subset 1 back) hback
        · refine List.mem_append_right _ (List.mem_cons_of_mem c ?_)
          exact List.map_subset _ (List.drop_subset 1 back) hmem
      · have hd' : d ∈ (front ++ [(c, true)]).map Prod.fst ++ back.map Prod.fst := hd
        rwa [sockets_append_cons] at hd'
    · intro d hd
      rw [hsockets] at hd
      unfold afterEvent
      split_ifs with htotal
      · by_cases heq : d = c
        · refine Or.inr ⟨heq, ?_⟩
          show (if (s.conn c).received = _ then ConnServer.closed else .waiting) = .closed
          rw [if_pos htotal]
        · refine Or.inl ?_
          show d ∈ (front ++ back.take 1).map Prod.fst ++ (back.drop 1).map Prod.fst
          rw [List.map_append, List.append_assoc, ← List.map_append, List.take_append_drop]
          refine List.mem_append.mpr ((List.mem_append.mp hd).imp id fun htail => ?_)
          exact (List.mem_cons.mp htail).resolve_left heq
      · refine Or.inl ?_
        show d ∈ (front ++ [(c, true)]).map Prod.fst ++ back.map Prod.fst
        rw [sockets_append_cons]
        exact hd
  | finish w hw =>
    refine ⟨hstarted, h.setWorker ?_ workerOk_finished⟩
    rw [hw]
    rfl

/-- **What holds in every state.** -/
def Inv (s : NetRun b) : Prop :=
  (s.started = false ∧ s.Prepares) ∨ (s.started = true ∧ ∃ owner, s.Transfers owner)

theorem inv_start : (start : NetRun b).Inv := Or.inl ⟨rfl, prepares_start⟩

/-- Nothing moves in a connection before the phase. -/
theorem Prepares.not_sending (h : s.Prepares) (c : b.Client) :
    (∀ t left, (s.conn c).client ≠ .sending t left) ∧
      ∀ t missing, (s.conn c).client ≠ .receiving t missing := by
  rcases h.conns c with hconn | hconn
  · rw [hconn]
    exact ⟨fun _ _ => by simp [Conn.fresh], fun _ _ => by simp [Conn.fresh]⟩
  · rw [hconn]
    exact ⟨fun _ _ => by simp [Conn.fresh], fun _ _ => by simp [Conn.fresh]⟩

theorem Inv.moves (h : s.Inv) (hcount : b.hosts.numConns < 2 ^ 32) (hmove : Moves s s') :
    s'.Inv := by
  rcases h with ⟨hprep, h⟩ | ⟨hstarted, owner, h⟩
  · cases hmove with
    | connect c _ hclient => exact Or.inl ⟨hprep, h.connect hclient⟩
    | accept host c rest _ hbacklog => exact Or.inl ⟨hprep, h.accept hbacklog⟩
    | begin _ hprepared => exact Or.inr ⟨rfl, h.begin hcount hprepared⟩
    | clientSend c k x hx =>
      obtain ⟨t, left, hclient, -⟩ := Conn.clientSend_eq_some hx
      exact absurd hclient ((h.not_sending c).1 t left)
    | clientRecv c k x hx =>
      obtain ⟨t, missing, hclient, -⟩ := Conn.clientRecv_eq_some hx
      exact absurd hclient ((h.not_sending c).2 t missing)
    | poll w _ hw _ | scanEnd w _ _ _ _ hw _ | skip w _ _ _ _ _ hw
    | serverRecv w _ _ _ _ _ _ _ hw _ | serverSend w _ _ _ _ _ _ _ hw _
    | endEvent w _ _ _ _ _ hw _ | finish w hw =>
      rw [h.workers w] at hw
      exact absurd hw (by simp)
  · obtain ⟨hstarted', h'⟩ := h.moves hstarted hmove
    exact Or.inr ⟨hstarted', owner, h'⟩

theorem inv_of_reach (hcount : b.hosts.numConns < 2 ^ 32)
    (h : Reach (NetRun.step (b := b)) anyStep start s) : s.Inv :=
  h.invariant inv_start fun _ _ _ hu _ hstep => hu.moves hcount (moves_of_step hstep)

/-! ## Nobody is stuck -/

/-- Somebody has a next step. -/
def Enabled (s : NetRun b) : Prop := ∃ action s', s.step action = some s'

theorem enabled_of_clientRecv {c : b.Client} {k : ℕ} {x : Conn}
    (hx : (s.conn c).clientRecv b.args k = some x) : s.Enabled := by
  refine ⟨.clientRecv c k, s.setConn c x, ?_⟩
  rw [step, hx]
  rfl

/-- **A server thread in a scan goes on**, and one in an event goes on or its client does. -/
theorem Transfers.enabled_of_busy (h : s.Transfers owner) {w : b.Worker}
    (hbusy : ∀ sockets, s.worker w ≠ .polling sockets) (hunfinished : s.worker w ≠ .finished) :
    s.Enabled := by
  have hok := h.workers w
  cases hw : s.worker w with
  | preparing => exact absurd hw hok.started
  | polling sockets => exact absurd hw (hbusy sockets)
  | finished => exact absurd hw hunfinished
  | scanning front back p r =>
    rw [hw] at hok
    by_cases hlt : p < r
    · cases back with
      | nil =>
        refine ⟨.scan w, s.setWorker w (.polling (front.map Prod.fst)), ?_⟩
        simp only [step, hw, if_pos hlt]
      | cons e rest =>
        obtain ⟨c, event⟩ := e
        cases event with
        | false =>
          refine ⟨.scan w, s.setWorker w (.scanning (front ++ [(c, false)]) rest p r), ?_⟩
          simp only [step, hw, if_pos hlt]
        | true =>
          have hwaiting := hok.waiting c (List.mem_append_right _ List.mem_cons_self)
          have hdata := hok.data (c, true) List.mem_cons_self rfl
          obtain ⟨x, hx⟩ := (h.phase c).exists_serverRecv hwaiting hdata
          refine ⟨.serverRecv w 1,
            (s.setConn c x).setWorker w (afterRecv x front c rest (p + 1) r), ?_⟩
          simp only [step, hw, if_pos hlt, hx, Option.map_some]
    · refine ⟨.scan w, s.setWorker w (.polling (front.map Prod.fst ++ back.map Prod.fst)), ?_⟩
      simp only [step, hw, if_neg hlt]
  | serving front c back p r =>
    rw [hw] at hok
    rcases (hok.serving front c back p r rfl).2 with hanswered | ⟨left, hresponding⟩
    · refine ⟨.endEvent w, (s.setConn c ((s.conn c).endEvent b.args)).setWorker w
        (afterEvent (s.conn c) front c back p r), ?_⟩
      simp only [step, hw, if_pos hanswered]
    · rcases (h.phase c).exists_of_responding b.capacity_pos hresponding with
        ⟨x, hx⟩ | ⟨x, hx⟩
      · refine ⟨.serverSend w 1, s.setConn c x, ?_⟩
        simp only [step, hw, hx, Option.map_some]
      · exact enabled_of_clientRecv hx

/-- A thread that polls a socket with data gets an event. -/
theorem enabled_of_poll {w : b.Worker} {sockets : List b.Client}
    (hw : s.worker w = .polling sockets) {c : b.Client} (hc : c ∈ sockets)
    (hdata : 0 < (s.conn c).toServer) : s.Enabled := by
  have hevents : 0 < (s.revents sockets).countP Prod.snd := by
    rw [List.countP_pos_iff]
    exact ⟨(c, _), List.mem_map_of_mem hc, decide_eq_true hdata⟩
  refine ⟨.poll w, s.setWorker w
    (.scanning [] (s.revents sockets) 0 ((s.revents sockets).countP Prod.snd)), ?_⟩
  simp only [step, hw, if_pos hevents]

/-- A connection that the server has to deal with gets dealt with. -/
theorem Transfers.enabled_of_server (h : s.Transfers owner) {c : b.Client}
    (hserver : (∃ left, (s.conn c).server = .responding left) ∨
      (0 < (s.conn c).toServer ∧
        ((s.conn c).server = .waiting ∨ (s.conn c).server = .answered))) : s.Enabled := by
  have hopen : (s.conn c).server ≠ .closed := by
    rcases hserver with ⟨left, hserver⟩ | ⟨-, hserver | hserver⟩
    · rw [hserver]
      simp
    · rw [hserver]
      simp
    · rw [hserver]
      simp
  have hlive := h.live c hopen
  cases hw : s.worker (owner c) with
  | polling sockets =>
    have hok := h.workers (owner c)
    rw [hw] at hlive hok
    have hwaiting : (s.conn c).server = .waiting := hok.waiting c hlive
    refine enabled_of_poll hw hlive ?_
    rcases hserver with ⟨left, hresponding⟩ | ⟨hdata, -⟩
    · rw [hwaiting] at hresponding
      exact absurd hresponding (by simp)
    · exact hdata
  | finished =>
    rw [hw] at hlive
    exact absurd hlive (by simp [ServerPc.sockets])
  | preparing => exact absurd hw (h.workers (owner c)).started
  | scanning front back p r =>
    exact h.enabled_of_busy (w := owner c) (by rw [hw]; simp) (by rw [hw]; simp)
  | serving front d back p r =>
    exact h.enabled_of_busy (w := owner c) (by rw [hw]; simp) (by rw [hw]; simp)

theorem Transfers.progress (h : s.Transfers owner) (hstarted : s.started = true)
    (hint : IntNonzero b.args.respSize) (hunfinished : ¬ s.Finished) : s.Enabled := by
  by_cases hclients : ∀ c, (s.conn c).client = .finished
  · -- only server threads are left, and none of them waits for data
    obtain ⟨w, hw⟩ : ∃ w, s.worker w ≠ .finished := by
      by_contra hall
      push Not at hall
      exact hunfinished ⟨hstarted, hclients, hall⟩
    by_cases hpolling : ∃ sockets, s.worker w = .polling sockets
    · obtain ⟨sockets, hpoll⟩ := hpolling
      cases sockets with
      | nil =>
        refine ⟨.finish w, s.setWorker w .finished, ?_⟩
        rw [step, if_pos hpoll]
      | cons c rest =>
        have hok := h.workers w
        rw [hpoll] at hok
        have hwaiting : (s.conn c).server = .waiting := hok.waiting c List.mem_cons_self
        rcases (h.phase c).server_of_finished (hclients c) with hserver | hserver
        · exact absurd (hwaiting.symm.trans hserver) (by simp)
        · exact absurd (hwaiting.symm.trans hserver) (by simp)
    · push Not at hpolling
      exact h.enabled_of_busy hpolling hw
  · push Not at hclients
    obtain ⟨c, hc⟩ := hclients
    rcases (h.phase c).progress b.capacity_pos hint (h.running c) hc with
      ⟨x, hx⟩ | ⟨x, hx⟩ | hserver | hserver
    · refine ⟨.clientSend c 1, s.setConn c x, ?_⟩
      rw [step, hx]
      rfl
    · exact enabled_of_clientRecv hx
    · exact h.enabled_of_server (Or.inl hserver)
    · exact h.enabled_of_server (Or.inr hserver)

theorem Prepares.progress (h : s.Prepares) (hprep : s.started = false)
    (hcount : b.hosts.numConns < 2 ^ 32) : s.Enabled := by
  have hwait := NetBenchHosts.numConnsToWaitFor_eq_iff.mpr hcount
  by_cases hconnected : ∀ c, (s.conn c).client = .connected
  · by_cases haccepted : ∀ h : b.Host, b.hosts.numConnsToWaitFor h ≤ (s.serverSocketVec h).length
    · refine ⟨.startPhase, s.begin, ?_⟩
      rw [step, if_pos ⟨hprep, hconnected, haccepted⟩]
    · push Not at haccepted
      obtain ⟨host, hlen⟩ := haccepted
      have hne := h.backlog_ne_nil hconnected (lt_of_lt_of_eq hlen (hwait host))
      obtain ⟨c, rest, hbacklog⟩ := List.exists_cons_of_ne_nil hne
      refine ⟨.accept host, { s with
        backlog := Function.update s.backlog host rest
        serverSocketVec :=
          Function.update s.serverSocketVec host (s.serverSocketVec host ++ [c]) }, ?_⟩
      simp only [step, hbacklog, if_pos (And.intro hprep hlen)]
  · push Not at hconnected
    obtain ⟨c, hc⟩ := hconnected
    have hclient : (s.conn c).client = .unconnected := by
      rcases h.conns c with hconn | hconn
      · rw [hconn]
        rfl
      · rw [hconn] at hc
        exact absurd rfl hc
    refine ⟨.connect c, { s.setConn c (.fresh .connected) with
      backlog := Function.update s.backlog (b.hosts.serverOf c)
        (s.backlog (b.hosts.serverOf c) ++ [c]) }, ?_⟩
    rw [step, if_pos ⟨hprep, hclient⟩]

/-- **A run that is not finished goes on.** -/
theorem Inv.progress (h : s.Inv) (hcount : b.hosts.numConns < 2 ^ 32)
    (hint : IntNonzero b.args.respSize) (hunfinished : ¬ s.Finished) : s.Enabled := by
  rcases h with ⟨hprep, h⟩ | ⟨hstarted, owner, h⟩
  · exact h.progress hprep hcount
  · exact h.progress hstarted hint hunfinished

/-! ## Every run ends -/

variable (b) in
/-- The weight of a byte that the server has to receive: more than the response and a scan of all
sockets can add. -/
def weight : ℕ := 2 * b.args.respSize + 2 * b.hosts.numConns + 6

/-- What is left to do in a connection. -/
def connShare (x : Conn) : ℕ :=
  x.work b.args (weight b) + if x.client = .unconnected then 2 else 0

/-- What is left to do in a scan before the next byte is received. -/
def scanShare : ServerPc b.Client → ℕ
  | .preparing => 0
  | .polling sockets => sockets.length + 2
  | .scanning front back p _ =>
    if p = 0 then back.length + 1 else front.length + 2 * back.length + 3
  | .serving front _ back _ _ => front.length + 2 * back.length + 5
  | .finished => 0

variable (b) in
/-- More than the server threads have to do at the start of the phase. -/
def startShare : ℕ := Fintype.card b.Worker * (b.hosts.numConns + 2) + 1

/-- All that is left to do. -/
def measure (s : NetRun b) : ℕ :=
  (∑ c, connShare (b := b) (s.conn c)) + (∑ w, scanShare (s.worker w)) +
    (∑ h, (s.backlog h).length) + if s.started = true then 0 else startShare b

theorem connShare_eq {x : Conn} (h : x.client ≠ .unconnected) :
    connShare (b := b) x = x.work b.args (weight b) := by
  rw [connShare, if_neg h, Nat.add_zero]

theorem length_le_numConns {sockets : List b.Client} (h : sockets.Nodup) :
    sockets.length ≤ b.hosts.numConns := by
  have hle := h.length_le_card
  rwa [Fintype.card_fin] at hle

theorem sum_conn_setConn (s : NetRun b) (c : b.Client) (x : Conn) :
    (∑ d, connShare (b := b) (Function.update s.conn c x d)) + connShare (b := b) (s.conn c) =
      (∑ d, connShare (b := b) (s.conn d)) + connShare (b := b) x :=
  sum_update_add (fun _ => connShare (b := b)) s.conn c x

theorem sum_scan_setWorker (s : NetRun b) (w : b.Worker) (pc : ServerPc b.Client) :
    (∑ v, scanShare (Function.update s.worker w pc v)) + scanShare (s.worker w) =
      (∑ v, scanShare (s.worker v)) + scanShare pc :=
  sum_update_add (fun _ => scanShare) s.worker w pc

theorem measure_setConn {c : b.Client} {x : Conn}
    (hlt : connShare (b := b) x < connShare (b := b) (s.conn c)) :
    (s.setConn c x).measure < s.measure := by
  have hsum := sum_conn_setConn s c x
  unfold measure
  show (∑ d, connShare (Function.update s.conn c x d)) + (∑ w, scanShare (s.worker w)) +
    (∑ h, (s.backlog h).length) + (if s.started = true then 0 else startShare b) < _
  omega

theorem measure_setWorker {w : b.Worker} {pc : ServerPc b.Client}
    (hlt : scanShare pc < scanShare (s.worker w)) : (s.setWorker w pc).measure < s.measure := by
  have hsum := sum_scan_setWorker s w pc
  unfold measure
  show (∑ c, connShare (s.conn c)) + (∑ v, scanShare (Function.update s.worker w pc v)) +
    (∑ h, (s.backlog h).length) + (if s.started = true then 0 else startShare b) < _
  omega

theorem measure_setServer {w : b.Worker} {pc : ServerPc b.Client} {c : b.Client} {x : Conn}
    (hlt : connShare (b := b) x + scanShare pc <
      connShare (b := b) (s.conn c) + scanShare (s.worker w)) :
    ((s.setConn c x).setWorker w pc).measure < s.measure := by
  have hconn := sum_conn_setConn s c x
  have hscan := sum_scan_setWorker s w pc
  unfold measure
  show (∑ d, connShare (Function.update s.conn c x d)) +
    (∑ v, scanShare (Function.update s.worker w pc v)) +
    (∑ h, (s.backlog h).length) + (if s.started = true then 0 else startShare b) < _
  omega

theorem measure_connect {c : b.Client} (hconn : s.conn c = .fresh .unconnected) :
    measure { s.setConn c (.fresh .connected) with
      backlog := Function.update s.backlog (b.hosts.serverOf c)
        (s.backlog (b.hosts.serverOf c) ++ [c]) } < s.measure := by
  have hsum := sum_conn_setConn s c (.fresh .connected)
  have hbacklog := sum_update_add (fun _ => List.length) s.backlog (b.hosts.serverOf c)
    (s.backlog (b.hosts.serverOf c) ++ [c])
  rw [List.length_append, List.length_singleton] at hbacklog
  have hshare : connShare (b := b) (.fresh .connected) + 2 = connShare (b := b) (s.conn c) := by
    rw [hconn]
    rfl
  unfold measure
  show (∑ d, connShare (Function.update s.conn c _ d)) + (∑ w, scanShare (s.worker w)) +
    (∑ h, (Function.update s.backlog _ _ h).length) +
    (if s.started = true then 0 else startShare b) < _
  omega

theorem measure_accept {host : b.Host} {c : b.Client} {rest : List b.Client}
    (hbacklog : s.backlog host = c :: rest) :
    measure { s with
      backlog := Function.update s.backlog host rest
      serverSocketVec :=
        Function.update s.serverSocketVec host (s.serverSocketVec host ++ [c]) } < s.measure := by
  have hsum := sum_update_add (fun _ => List.length) s.backlog host rest
  rw [hbacklog, List.length_cons] at hsum
  unfold measure
  show (∑ d, connShare (s.conn d)) + (∑ w, scanShare (s.worker w)) +
    (∑ h, (Function.update s.backlog host rest h).length) +
    (if s.started = true then 0 else startShare b) < _
  omega

/-- The start of the phase gives the server threads their sockets to scan. -/
theorem Prepares.measure_begin (h : s.Prepares) (hprep : s.started = false)
    (hconnected : ∀ c, (s.conn c).client = .connected) : s.begin.measure < s.measure := by
  have hconns : (∑ c, connShare (b := b) (s.begin.conn c)) =
      ∑ c, connShare (b := b) (s.conn c) := by
    refine Finset.sum_congr rfl fun c _ => ?_
    have hpos := b.args.transferBytesPerConn_pos
    have hafter : (s.begin.conn c).client ≠ .unconnected := by
      show Conn.nextBlock b.args 0 ≠ _
      rw [Conn.nextBlock, if_neg (by omega)]
      simp
    rw [connShare_eq hafter, connShare_eq (by rw [hconnected c]; simp)]
    exact Conn.work_begin (hconnected c)
  have hscans : (∑ w, scanShare (s.begin.worker w)) ≤
      Fintype.card b.Worker * (b.hosts.numConns + 2) := by
    rw [← smul_eq_mul, ← Finset.card_univ]
    refine Finset.sum_le_card_nsmul _ _ _ fun w _ => ?_
    have hnodup : (everyNth b.hosts.numThreads w.2 (s.serverSocketVec w.1)).Nodup :=
      (everyNth_sublist _ _).nodup (h.nodup w.1).of_append_right
    exact Nat.add_le_add_right (length_le_numConns hnodup) 2
  have hbefore : (if s.started = true then 0 else startShare b) =
      Fintype.card b.Worker * (b.hosts.numConns + 2) + 1 := if_neg (by rw [hprep]; simp)
  unfold measure
  rw [hconns, hbefore]
  show (∑ c, connShare (s.conn c)) + (∑ w, scanShare (s.begin.worker w)) +
    (∑ h, (s.backlog h).length) + 0 < _
  omega

/-- **Every step lowers the measure.** -/
theorem Transfers.measure_lt (h : s.Transfers owner) (hstarted : s.started = true)
    (hmove : Moves s s') : s'.measure < s.measure := by
  have hweight : 0 < weight b := by
    unfold weight
    omega
  have hshare : ∀ c, connShare (b := b) (s.conn c) = (s.conn c).work b.args (weight b) :=
    fun c => connShare_eq (h.running c).1
  cases hmove with
  | connect c hprep _ | accept _ c _ hprep _ | begin hprep _ =>
    rw [hstarted] at hprep
    exact absurd hprep (by simp)
  | clientSend c k x hx =>
    refine measure_setConn ?_
    have hwork := Conn.work_clientSend hweight hx
    obtain ⟨t, left, -, -, -, -, rfl⟩ := Conn.clientSend_eq_some hx
    rw [hshare, connShare_eq]
    · exact hwork
    · show (if left - k = 0 then _ else _) ≠ ClientPc.unconnected
      split_ifs <;> simp
  | clientRecv c k x hx =>
    refine measure_setConn ?_
    have hwork : x.work b.args (weight b) < (s.conn c).work b.args (weight b) :=
      Conn.work_clientRecv hx
    obtain ⟨t, missing, -, -, -, -, rfl⟩ := Conn.clientRecv_eq_some hx
    rw [hshare, connShare_eq]
    · exact hwork
    · show (if missing - k = 0 then if _ then _ else _ else _) ≠ ClientPc.unconnected
      unfold Conn.nextBlock
      split_ifs <;> simp
  | poll w sockets hw hevents =>
    refine measure_setWorker ?_
    have hscan : scanShare (.scanning [] (s.revents sockets) 0
        ((s.revents sockets).countP Prod.snd)) = (s.revents sockets).length + 1 := by
      rw [scanShare, if_pos rfl]
    rw [hw, hscan, revents, List.length_map]
    exact Nat.lt_succ_self _
  | scanEnd w front back p r hw hend =>
    have hok := h.workers w
    rw [hw] at hok
    have hp := hok.processed_pos hend
    refine measure_setWorker ?_
    rw [hw]
    rw [scanShare, scanShare, if_neg (Nat.ne_of_gt hp), List.length_append, List.length_map,
      List.length_map]
    omega
  | skip w front rest c p r hw =>
    refine measure_setWorker ?_
    rw [hw]
    show (if p = 0 then rest.length + 1 else (front ++ [(c, false)]).length + 2 * rest.length + 3) <
      if p = 0 then rest.length + 1 + 1 else front.length + 2 * (rest.length + 1) + 3
    rw [List.length_append, List.length_singleton]
    split_ifs <;> omega
  | serverRecv w front rest c p r k x hw hx =>
    have hok := h.workers w
    rw [hw] at hok
    have hlen : front.length + (rest.length + 1) ≤ b.hosts.numConns := by
      have hle := length_le_numConns hok.nodup
      have hsockets : (front.map Prod.fst ++ c :: rest.map Prod.fst).length =
          front.length + (rest.length + 1) := by
        rw [List.length_append, List.length_cons, List.length_map, List.length_map]
      exact hsockets ▸ hle
    have hwork : x.work b.args (weight b) + weight b ≤
        (s.conn c).work b.args (weight b) + 2 * b.args.respSize := Conn.work_serverRecv hx
    have hclient := (Conn.serverRecv_server hx).1
    refine measure_setServer ?_
    rw [hshare, connShare_eq (by rw [hclient]; exact (h.running c).1)]
    have hscan : scanShare (afterRecv x front c rest (p + 1) r) ≤
        front.length + 2 * rest.length + 5 := by
      unfold afterRecv
      split_ifs
      · rw [scanShare, if_neg (Nat.succ_ne_zero p), List.length_append, List.length_singleton]
        omega
      · exact le_rfl
    -- the byte that was received pays for the response and the rest of the scan
    have hdef : weight b = 2 * b.args.respSize + 2 * b.hosts.numConns + 6 := rfl
    omega
  | serverSend w front back c p r k x hw hx =>
    refine measure_setConn ?_
    have hclient := (Conn.serverSend_server hx).1
    rw [hshare, connShare_eq (by rw [hclient]; exact (h.running c).1)]
    exact Conn.work_serverSend hx
  | endEvent w front back c p r hw hanswered =>
    have hok := h.workers w
    rw [hw] at hok
    have hp := (hok.serving _ _ _ _ _ rfl).1
    refine measure_setServer ?_
    have hafter : ((s.conn c).endEvent b.args).client ≠ .unconnected := (h.running c).1
    rw [hshare, connShare_eq hafter, Conn.work_endEvent hanswered, hw]
    have hscan : scanShare (afterEvent (s.conn c) front c back p r) <
        front.length + 2 * back.length + 5 := by
      unfold afterEvent
      split_ifs
      · rw [scanShare, if_neg (Nat.ne_of_gt hp), List.length_append, List.length_take,
          List.length_drop]
        omega
      · rw [scanShare, if_neg (Nat.ne_of_gt hp), List.length_append, List.length_singleton]
        omega
    exact Nat.add_lt_add_left hscan _
  | finish w hw =>
    refine measure_setWorker ?_
    rw [hw]
    exact Nat.succ_pos _

theorem Inv.measure_lt (h : s.Inv) (hmove : Moves s s') : s'.measure < s.measure := by
  rcases h with ⟨hprep, h⟩ | ⟨hstarted, owner, h⟩
  · cases hmove with
    | connect c _ hclient =>
      refine measure_connect ?_
      rcases h.conns c with hconn | hconn
      · exact hconn
      · rw [hconn] at hclient
        exact absurd hclient (by simp [Conn.fresh])
    | accept host c rest _ hbacklog => exact measure_accept hbacklog
    | begin _ hprepared => exact h.measure_begin hprep hprepared.1
    | clientSend c k x hx =>
      obtain ⟨t, left, hclient, -⟩ := Conn.clientSend_eq_some hx
      exact absurd hclient ((h.not_sending c).1 t left)
    | clientRecv c k x hx =>
      obtain ⟨t, missing, hclient, -⟩ := Conn.clientRecv_eq_some hx
      exact absurd hclient ((h.not_sending c).2 t missing)
    | poll w _ hw _ | scanEnd w _ _ _ _ hw _ | skip w _ _ _ _ _ hw
    | serverRecv w _ _ _ _ _ _ _ hw _ | serverSend w _ _ _ _ _ _ _ hw _
    | endEvent w _ _ _ _ _ hw _ | finish w hw =>
      rw [h.workers w] at hw
      exact absurd hw (by simp)
  · exact h.measure_lt hstarted hmove

/-! ## Exact benchmarks -/

/-- **An exact benchmark.**  The servers wait for the connections that are made to them, an open
connection is served by one thread, the server responds once to each block, nobody is stuck before
the end and every run ends. -/
structure Exact (b : NetBench) : Prop where
  counts : ∀ h : b.Host, b.hosts.numConnsToWaitFor h = b.hosts.numConnsTo h
  served : ∀ s, Reach (step (b := b)) anyStep start s → s.started = true →
    ∀ c, (s.conn c).server ≠ .closed → ∃! w, c ∈ (s.worker w).sockets
  responses : ∀ s, Reach (step (b := b)) anyStep start s →
    ∀ c, (∀ left, (s.conn c).server ≠ .responding left) →
      (s.conn c).responses = if (s.conn c).received = b.args.transferBytesPerConn then
        numBlocks b.args.transferBytesPerConn b.args.blockSize
      else (s.conn c).received / b.args.blockSize
  complete : ∀ s, Reach (step (b := b)) anyStep start s → s.Finished →
    ∀ c, (s.conn c).responses = numBlocks b.args.transferBytesPerConn b.args.blockSize
  progress : ∀ s, Reach (step (b := b)) anyStep start s → ¬ s.Finished → s.Enabled
  ends : ∃ n, ∀ actions s, runTrace (step (b := b)) start actions = some s → actions.length ≤ n

theorem Inv.phase (h : s.Inv) (c : b.Client) : (s.conn c).Phase b.args := by
  rcases h with ⟨-, h⟩ | ⟨-, owner, h⟩
  · rcases h.conns c with hconn | hconn
    · rw [hconn]
      exact .fresh (Or.inl rfl)
    · rw [hconn]
      exact .fresh (Or.inr rfl)
  · exact h.phase c

theorem exact_of_bounds (hcount : b.hosts.numConns < 2 ^ 32)
    (hint : IntNonzero b.args.respSize) : Exact b where
  counts := NetBenchHosts.numConnsToWaitFor_eq_iff.mpr hcount
  served := by
    intro s hs hstarted c hopen
    rcases inv_of_reach hcount hs with ⟨hprep, -⟩ | ⟨-, owner, h⟩
    · rw [hstarted] at hprep
      exact absurd hprep (by simp)
    · exact ⟨owner c, h.live c hopen, fun w hw => (h.owned w c hw).symm⟩
  responses := fun s hs c hidle => ((inv_of_reach hcount hs).phase c).responses_eq hidle
  complete := by
    intro s hs hfinished c
    have hphase := (inv_of_reach hcount hs).phase c
    have hclient := hfinished.2.1 c
    cases hx : s.conn c with
    | mk client toServer toClient received responses server =>
      rw [hx] at hphase hclient
      obtain rfl : client = .finished := hclient
      cases hphase with
      | finished => rfl
      | fresh hfresh => exact absurd hfresh (by simp)
  progress := fun s hs hunfinished => (inv_of_reach hcount hs).progress hcount hint hunfinished
  ends := by
    refine ⟨(start : NetRun b).measure, fun actions s hs => ?_⟩
    have hle := length_le_of_measure (fun u action v hu hstep =>
      ⟨Inv.moves hu hcount (moves_of_step hstep), Inv.measure_lt hu (moves_of_step hstep)⟩)
      actions inv_start hs
    omega

/-- **Main statement.**  A benchmark is exact if and only if the number of connections fits into an
`unsigned` and the response size is not zero as an `int`. -/
theorem exact_iff (b : NetBench) :
    Exact b ↔ b.hosts.numConns < 2 ^ 32 ∧ IntNonzero b.args.respSize := by
  constructor
  · intro h
    have hcount := NetBenchHosts.numConnsToWaitFor_eq_iff.mp h.counts
    refine ⟨hcount, ?_⟩
    -- a run that is never stuck gets to the end, where the clients have finished
    have hreach : ∃ t, Reach (step (b := b)) anyStep start t ∧ t.Finished := by
      refine @exists_reach_of_measure _ _ _
        (fun u => Reach (step (b := b)) anyStep start u) measure _ _ (Reach.refl _) ?_ h.progress
      intro u action v hu hstep
      exact ⟨hu.tail trivial hstep,
        (inv_of_reach hcount hu).measure_lt (moves_of_step hstep)⟩
    obtain ⟨t, ht, hfinished⟩ := hreach
    have hclient := hfinished.2.1 ⟨0, NetBenchHosts.numConns_pos⟩
    exact ((inv_of_reach hcount ht).phase _).intNonzero_of_finished hclient
  · rintro ⟨hcount, hint⟩
    exact exact_of_bounds hcount hint

end NetRun

/-! ### A response that nobody counts -/

theorem hugeSize_pos : 0 < 2 ^ 32 := by decide

/-- One server and one client with one thread each, one block of one byte and a response of
4 GiB. -/
def hugeResponse : NetBench where
  hosts :=
    { numNetBenchServers := 1
      numClientHosts := 1
      numThreads := 1
      numNetBenchServers_pos := Nat.one_pos
      numClientHosts_pos := Nat.one_pos
      numThreads_pos := Nat.one_pos
      numWorkers_lt := by decide }
  args :=
    { transferBytesPerConn := 1
      blockSize := 1
      respSize := 2 ^ 32
      transferBytesPerConn_pos := Nat.one_pos
      blockSize_pos := Nat.one_pos
      respSize_pos := hugeSize_pos
      transferBytesPerConn_lt := Word64.one_lt_size }
  capacity := 2 ^ 32
  capacity_pos := hugeSize_pos

/-- The connection after the client has received the response. -/
def hugeResponseConn : Conn := ⟨.receiving 1 (2 ^ 32), 0, 0, 1, 1, .closed⟩

/-- Nothing moves when the server thread is done and the client waits for more. -/
theorem hugeResponse_stuck {s : NetRun hugeResponse} (hstarted : s.started = true)
    (hconn : ∀ c, s.conn c = hugeResponseConn) (hworker : ∀ w, s.worker w = .finished)
    (action : NetAction hugeResponse) : s.step action = none := by
  cases haction : s.step action with
  | none => rfl
  | some s' =>
    exfalso
    cases NetRun.moves_of_step haction with
    | connect c hprep _ | accept _ c _ hprep _ | begin hprep _ =>
      rw [hstarted] at hprep
      exact absurd hprep (by simp)
    | clientSend c k x hx =>
      obtain ⟨t, left, hclient, -⟩ := Conn.clientSend_eq_some hx
      rw [hconn c] at hclient
      exact absurd hclient (by simp [hugeResponseConn])
    | clientRecv c k x hx =>
      obtain ⟨t, missing, -, hk, -, harrived, -⟩ := Conn.clientRecv_eq_some hx
      rw [hconn c] at harrived
      have hzero : k ≤ 0 := harrived
      omega
    | poll w _ hw _ | scanEnd w _ _ _ _ hw _ | skip w _ _ _ _ _ hw
    | serverRecv w _ _ _ _ _ _ _ hw _ | serverSend w _ _ _ _ _ _ _ hw _
    | endEvent w _ _ _ _ _ hw _ | finish w hw =>
      rw [hworker w] at hw
      exact absurd hw (by simp)

/-- The run in which everything is sent and received at once. -/
def hugeResponseRun : List (NetAction hugeResponse) :=
  let c : hugeResponse.Client := ⟨0, by decide⟩
  let w : hugeResponse.Worker := (⟨0, by decide⟩, ⟨0, by decide⟩)
  [.connect c, .accept w.1, .startPhase, .clientSend c 1, .poll w, .serverRecv w 1,
    .serverSend w (2 ^ 32), .endEvent w, .scan w, .finish w, .clientRecv c (2 ^ 32)]

/-- **A client that has received its response and waits for it**, while its server is done. -/
theorem netBench_stuck :
    ∃ s : NetRun hugeResponse, Reach NetRun.step anyStep .start s ∧ ¬ s.Finished ∧
      (∀ w, s.worker w = .finished) ∧ (∀ c, (s.conn c).responses = 1) ∧
      ∀ action, s.step action = none := by
  have hrun : (runTrace NetRun.step .start hugeResponseRun).any (fun s =>
      decide (s.started = true ∧ (∀ c, s.conn c = hugeResponseConn) ∧
        ∀ w, s.worker w = .finished)) = true := by
    decide +kernel
  cases hs : runTrace NetRun.step (.start : NetRun hugeResponse) hugeResponseRun with
  | none =>
    rw [hs] at hrun
    exact absurd hrun (by simp)
  | some s =>
    rw [hs, Option.any_some, decide_eq_true_iff] at hrun
    obtain ⟨hstarted, hconn, hworker⟩ := hrun
    refine ⟨s, (reach_of_runTrace (p := fun _ => True) _ _ (fun _ _ => trivial) hs).weaken
      fun _ _ _ => trivial, ?_, hworker, fun c => ?_, hugeResponse_stuck hstarted hconn hworker⟩
    · rintro ⟨-, hclients, -⟩
      have hclient := hclients ⟨0, by decide⟩
      rw [hconn] at hclient
      exact absurd hclient (by simp [hugeResponseConn])
    · rw [hconn c]
      rfl

end Elbencho
