import Elbencho.Library.Blocks
import Elbencho.Net.ClientTransfer

/-!
# One connection of the network benchmark

A connection is a client thread, two byte streams and the entry that the server keeps for it.  The
streams deliver bytes in order and in pieces of any size, and hold at most `capacity` bytes, at
which a sender blocks.  Sends are complete here and nobody times out.

The client sends a block, waits for the response and sends the next one.  The server receives up to
a whole block from where it stands, without regard to where the block of the client ends, and
responds when what it has received is a multiple of the block size or everything.  It is right only
because the client never sends ahead.  `Conn.Phase` has the phases that a connection goes through,
with all that is in flight in each, and is kept by every step of either side.

The one way out of the usual order is the `int` in the client's loop: with a response size that is
zero as an `int` the client waits for a second response (`Phase.again`).
-/

namespace Elbencho

open Blocks

/-! ## The two sides -/

/-- A client thread: before the phase, in `send`, in the receive loop, or done. -/
inductive ClientPc where
  | unconnected
  | connected
  | sending (transferredBytes left : ℕ)
  | receiving (transferredBytes missing : ℕ)
  | finished
  deriving DecidableEq

/-- What the server is doing with a connection: waiting for data, sending a response, at the end
of an event with a response, or done with it. -/
inductive ConnServer where
  | waiting
  | responding (left : ℕ)
  | answered
  | closed
  deriving DecidableEq

/-- A connection.  `received` is the entry of `transferredBytesVec`, `responses` counts the
responses that were sent completely. -/
structure Conn where
  client : ClientPc
  toServer : ℕ
  toClient : ℕ
  received : ℕ
  responses : ℕ
  server : ConnServer
  deriving DecidableEq

namespace Conn

variable (a : NetBenchArgs) (capacity : ℕ)

/-- Nothing has happened yet. -/
def fresh (client : ClientPc) : Conn := ⟨client, 0, 0, 0, 0, .waiting⟩

/-- The next block of a client, or the end. -/
def nextBlock (transferredBytes : ℕ) : ClientPc :=
  if transferredBytes = a.transferBytesPerConn then .finished
  else .sending transferredBytes (a.currentBlockSize transferredBytes)

/-- The phase starts for the client. -/
def begin (x : Conn) : Conn := { x with client := nextBlock a 0 }

/-- `send` hands some bytes to the connection; with the last one it returns. -/
def clientSend (x : Conn) (k : ℕ) : Option Conn :=
  match x.client with
  | .sending t left =>
    if 0 < k ∧ k ≤ left ∧ x.toServer + k ≤ capacity then
      some { x with
        client :=
          if left - k = 0 then .receiving (t + a.currentBlockSize t) a.respSize
          else .sending t (left - k)
        toServer := x.toServer + k }
    else none
  | _ => none

/-- The client receives some bytes of the response; with the last one it goes on, if the size of
the response is not zero as an `int`. -/
def clientRecv (x : Conn) (k : ℕ) : Option Conn :=
  match x.client with
  | .receiving t missing =>
    if 0 < k ∧ k ≤ missing ∧ k ≤ x.toClient then
      some { x with
        client :=
          if missing - k = 0 then
            if IntNonzero a.respSize then nextBlock a t else .receiving t a.respSize
          else .receiving t (missing - k)
        toClient := x.toClient - k }
    else none
  | _ => none

/-- A block is complete, or the last one. -/
def BlockEnd (received : ℕ) : Prop :=
  received % a.blockSize = 0 ∨ received = a.transferBytesPerConn

instance (received : ℕ) : Decidable (BlockEnd a received) := inferInstanceAs (Decidable (_ ∨ _))

/-- The server receives up to a block, and starts a response at the end of a block. -/
def serverRecv (x : Conn) (k : ℕ) : Option Conn :=
  if x.server = .waiting ∧ 0 < k ∧ k ≤ a.currentBlockSize x.received ∧ k ≤ x.toServer then
    some { x with
      toServer := x.toServer - k
      received := x.received + k
      server := if BlockEnd a (x.received + k) then .responding a.respSize else .waiting }
  else none

/-- The server hands some bytes of a response to the connection; with the last one it counts. -/
def serverSend (x : Conn) (k : ℕ) : Option Conn :=
  match x.server with
  | .responding left =>
    if 0 < k ∧ k ≤ left ∧ x.toClient + k ≤ capacity then
      some { x with
        toClient := x.toClient + k
        responses := if left - k = 0 then x.responses + 1 else x.responses
        server := if left - k = 0 then .answered else .responding (left - k) }
    else none
  | _ => none

/-- The event is over, and so is the connection if everything is received. -/
def endEvent (x : Conn) : Conn :=
  { x with server := if x.received = a.transferBytesPerConn then .closed else .waiting }

/-! ## The phases -/

/-- The server is through with the response to everything that it has received. -/
def Settled (received : ℕ) (server : ConnServer) : Prop :=
  server = .answered ∨ (server = .waiting ∧ received ≠ a.transferBytesPerConn) ∨
    (server = .closed ∧ received = a.transferBytesPerConn)

/-- The server is at the start of block `j`, or already in it. -/
def Receiving (start received : ℕ) (server : ConnServer) : Prop :=
  start ≤ received ∧ (server = .waiting ∨ (server = .answered ∧ received = start))

/-- Where block `j` ends. -/
def blockEnd (j : ℕ) : ℕ := j * a.blockSize + a.currentBlockSize (j * a.blockSize)

/-- **The phases of a connection.**  Block `j` starts at `j * blockSize`. -/
inductive Phase : Conn → Prop
  | fresh {client : ClientPc} (hclient : client = .unconnected ∨ client = .connected) :
    Phase (fresh client)
  | sending {j left toServer received : ℕ} {server : ConnServer}
    (hj : j * a.blockSize < a.transferBytesPerConn) (hleft : 0 < left)
    (hsum : received + toServer + left = blockEnd a j)
    (hserver : Receiving (j * a.blockSize) received server) :
    Phase ⟨.sending (j * a.blockSize) left, toServer, 0, received, j, server⟩
  | underway {j toServer received : ℕ} {server : ConnServer}
    (hj : j * a.blockSize < a.transferBytesPerConn) (hpos : 0 < toServer)
    (hsum : received + toServer = blockEnd a j)
    (hserver : Receiving (j * a.blockSize) received server) :
    Phase ⟨.receiving (blockEnd a j) a.respSize, toServer, 0, received, j, server⟩
  | responding {j toClient left missing : ℕ}
    (hj : j * a.blockSize < a.transferBytesPerConn) (hleft : 0 < left)
    (hsum : toClient + left = missing) :
    Phase ⟨.receiving (blockEnd a j) missing, 0, toClient, blockEnd a j, j, .responding left⟩
  | responded {j missing : ℕ} {server : ConnServer}
    (hj : j * a.blockSize < a.transferBytesPerConn) (hmissing : 0 < missing)
    (hserver : Settled a (blockEnd a j) server) :
    Phase ⟨.receiving (blockEnd a j) missing, 0, missing, blockEnd a j, j + 1, server⟩
  | again {j : ℕ} {server : ConnServer}
    (hj : j * a.blockSize < a.transferBytesPerConn) (hint : ¬ IntNonzero a.respSize)
    (hserver : Settled a (blockEnd a j) server) :
    Phase ⟨.receiving (blockEnd a j) a.respSize, 0, 0, blockEnd a j, j + 1, server⟩
  | finished {server : ConnServer} (hint : IntNonzero a.respSize)
    (hserver : Settled a a.transferBytesPerConn server) :
    Phase ⟨.finished, 0, 0, a.transferBytesPerConn,
      numBlocks a.transferBytesPerConn a.blockSize, server⟩

variable {a} {capacity} {x x' : Conn} {j k : ℕ}

/-! ### What a step does -/

theorem clientSend_eq_some (h : x.clientSend a capacity k = some x') :
    ∃ t left, x.client = .sending t left ∧ 0 < k ∧ k ≤ left ∧ x.toServer + k ≤ capacity ∧
      x' = ⟨if left - k = 0 then .receiving (t + a.currentBlockSize t) a.respSize
        else .sending t (left - k), x.toServer + k, x.toClient, x.received, x.responses,
        x.server⟩ := by
  unfold clientSend at h
  split at h
  · rename_i t left hclient
    by_cases hcond : 0 < k ∧ k ≤ left ∧ x.toServer + k ≤ capacity
    · rw [if_pos hcond] at h
      exact ⟨t, left, hclient, hcond.1, hcond.2.1, hcond.2.2, (Option.some.inj h).symm⟩
    · rw [if_neg hcond] at h
      exact absurd h (by simp)
  · exact absurd h (by simp)

theorem clientRecv_eq_some (h : x.clientRecv a k = some x') :
    ∃ t missing, x.client = .receiving t missing ∧ 0 < k ∧ k ≤ missing ∧ k ≤ x.toClient ∧
      x' = ⟨if missing - k = 0 then
          if IntNonzero a.respSize then nextBlock a t else .receiving t a.respSize
        else .receiving t (missing - k), x.toServer, x.toClient - k, x.received, x.responses,
        x.server⟩ := by
  unfold clientRecv at h
  split at h
  · rename_i t missing hclient
    by_cases hcond : 0 < k ∧ k ≤ missing ∧ k ≤ x.toClient
    · rw [if_pos hcond] at h
      exact ⟨t, missing, hclient, hcond.1, hcond.2.1, hcond.2.2, (Option.some.inj h).symm⟩
    · rw [if_neg hcond] at h
      exact absurd h (by simp)
  · exact absurd h (by simp)

theorem serverRecv_eq_some (h : x.serverRecv a k = some x') :
    x.server = .waiting ∧ 0 < k ∧ k ≤ x.toServer ∧
      x' = ⟨x.client, x.toServer - k, x.toClient, x.received + k, x.responses,
        if BlockEnd a (x.received + k) then .responding a.respSize else .waiting⟩ := by
  unfold serverRecv at h
  by_cases hcond : x.server = .waiting ∧ 0 < k ∧ k ≤ a.currentBlockSize x.received ∧
      k ≤ x.toServer
  · rw [if_pos hcond] at h
    exact ⟨hcond.1, hcond.2.1, hcond.2.2.2, (Option.some.inj h).symm⟩
  · rw [if_neg hcond] at h
    exact absurd h (by simp)

theorem serverSend_eq_some (h : x.serverSend capacity k = some x') :
    ∃ left, x.server = .responding left ∧ 0 < k ∧ k ≤ left ∧ x.toClient + k ≤ capacity ∧
      x' = ⟨x.client, x.toServer, x.toClient + k, x.received,
        if left - k = 0 then x.responses + 1 else x.responses,
        if left - k = 0 then .answered else .responding (left - k)⟩ := by
  unfold serverSend at h
  split at h
  · rename_i left hserver
    by_cases hcond : 0 < k ∧ k ≤ left ∧ x.toClient + k ≤ capacity
    · rw [if_pos hcond] at h
      exact ⟨left, hserver, hcond.1, hcond.2.1, hcond.2.2, (Option.some.inj h).symm⟩
    · rw [if_neg hcond] at h
      exact absurd h (by simp)
  · exact absurd h (by simp)

/-- Receiving leaves the client alone, and the server waits or has a response to send. -/
theorem serverRecv_server (h : x.serverRecv a k = some x') :
    x'.client = x.client ∧ (x'.server = .waiting ∨ ∃ left, x'.server = .responding left) := by
  obtain ⟨-, -, -, rfl⟩ := serverRecv_eq_some h
  refine ⟨rfl, ?_⟩
  by_cases hend : BlockEnd a (x.received + k)
  · exact Or.inr ⟨a.respSize, if_pos hend⟩
  · exact Or.inl (if_neg hend)

/-- Sending leaves the client alone, and the server is through with the response or not. -/
theorem serverSend_server (h : x.serverSend capacity k = some x') :
    x'.client = x.client ∧ (x'.server = .answered ∨ ∃ left, x'.server = .responding left) := by
  obtain ⟨left, -, -, -, -, rfl⟩ := serverSend_eq_some h
  refine ⟨rfl, ?_⟩
  by_cases hlast : left - k = 0
  · exact Or.inl (if_pos hlast)
  · exact Or.inr ⟨left - k, if_neg hlast⟩

/-! ### Where blocks end -/

theorem currentBlockSize_pos {n : ℕ} (h : n < a.transferBytesPerConn) :
    0 < a.currentBlockSize n := by
  have hpos := a.blockSize_pos
  unfold NetBenchArgs.currentBlockSize
  split_ifs <;> omega

/-- A block ends where the next one starts, or with everything. -/
theorem blockEnd_cases (hj : j * a.blockSize < a.transferBytesPerConn) :
    (blockEnd a j = a.transferBytesPerConn ∧
      numBlocks a.transferBytesPerConn a.blockSize = j + 1) ∨
    (blockEnd a j = (j + 1) * a.blockSize ∧ blockEnd a j < a.transferBytesPerConn) := by
  have hpos := a.blockSize_pos
  have hnext := Nat.add_one_mul j a.blockSize
  have hend : blockEnd a j = min ((j + 1) * a.blockSize) a.transferBytesPerConn := by
    unfold blockEnd NetBenchArgs.currentBlockSize
    split_ifs <;> omega
  rcases Nat.lt_or_ge ((j + 1) * a.blockSize) a.transferBytesPerConn with hlt | hge
  · exact Or.inr ⟨by omega, by omega⟩
  · refine Or.inl ⟨by omega, le_antisymm ?_ ?_⟩
    · exact (numBlocks_le_iff hpos).mpr hge
    · exact (lt_numBlocks_iff hpos).mpr hj

theorem blockEnd_le : blockEnd a j ≤ (j + 1) * a.blockSize := by
  have hnext := Nat.add_one_mul j a.blockSize
  unfold blockEnd NetBenchArgs.currentBlockSize
  split_ifs <;> omega

theorem blockEnd_le_total (hj : j * a.blockSize < a.transferBytesPerConn) :
    blockEnd a j ≤ a.transferBytesPerConn := NetClient.currentBlockSize_le hj.le

theorem isBlockEnd_blockEnd (hj : j * a.blockSize < a.transferBytesPerConn) :
    BlockEnd a (blockEnd a j) := by
  rcases blockEnd_cases hj with ⟨hend, -⟩ | ⟨hend, -⟩
  · exact Or.inr hend
  · refine Or.inl ?_
    rw [hend]
    exact Nat.mul_mod_left _ _

/-- The bytes within a block, in whole blocks. -/
theorem div_blockSize {received : ℕ} (hstart : j * a.blockSize ≤ received)
    (hend : received < blockEnd a j) : received / a.blockSize = j := by
  have hle : blockEnd a j ≤ (j + 1) * a.blockSize := blockEnd_le
  exact Nat.div_eq_of_lt_le hstart (by omega)

/-- The server does not respond within a block. -/
theorem not_isBlockEnd {received : ℕ} (hj : j * a.blockSize < a.transferBytesPerConn)
    (hstart : j * a.blockSize < received) (hend : received < blockEnd a j) :
    ¬ BlockEnd a received := by
  have hle := blockEnd_le_total hj
  rintro (hmod | htotal)
  · have hdiv := div_blockSize hstart.le hend
    have hsplit := Nat.div_add_mod received a.blockSize
    rw [hdiv, hmod, Nat.mul_comm] at hsplit
    omega
  · omega

/-- The next block of the client, after a response. -/
theorem Phase.nextBlock {server : ConnServer} (hj : j * a.blockSize < a.transferBytesPerConn)
    (hint : IntNonzero a.respSize) (hserver : Settled a (blockEnd a j) server) :
    Phase a ⟨nextBlock a (blockEnd a j), 0, 0, blockEnd a j, j + 1, server⟩ := by
  rcases blockEnd_cases hj with ⟨hend, hnum⟩ | ⟨hend, hlt⟩
  · rw [hend] at hserver
    rw [Conn.nextBlock, if_pos hend, hend, ← hnum]
    exact .finished hint hserver
  · rw [Conn.nextBlock, if_neg hlt.ne, hend]
    rw [hend] at hlt hserver
    refine .sending hlt (currentBlockSize_pos hlt) rfl ⟨le_rfl, ?_⟩
    rcases hserver with hanswered | ⟨hwaiting, -⟩ | ⟨-, htotal⟩
    · exact Or.inr ⟨hanswered, rfl⟩
    · exact Or.inl hwaiting
    · exact absurd htotal hlt.ne

/-! ### Every step keeps the phases -/

theorem Phase.begin (h : Phase a x) (hclient : x.client = .connected) : Phase a (x.begin a) := by
  have hpos := a.transferBytesPerConn_pos
  cases h with
  | fresh _ =>
    have hzero : 0 * a.blockSize = 0 := Nat.zero_mul _
    have hlt : 0 * a.blockSize < a.transferBytesPerConn := by omega
    have hphase : Phase a ⟨.sending (0 * a.blockSize) (a.currentBlockSize (0 * a.blockSize)), 0, 0,
        0, 0, .waiting⟩ := by
      refine .sending hlt (currentBlockSize_pos hlt) ?_ ⟨by omega, Or.inl rfl⟩
      rw [blockEnd]
      omega
    rw [hzero] at hphase
    rw [Conn.begin, Conn.nextBlock, if_neg (by omega)]
    exact hphase
  | sending | underway | responding | responded | again | finished => exact absurd hclient (by simp)

theorem Phase.clientSend (h : Phase a x) (hstep : x.clientSend a capacity k = some x') :
    Phase a x' := by
  obtain ⟨t, left, hclient, hk, hle, -, rfl⟩ := clientSend_eq_some hstep
  cases h with
  | @sending j left' toServer received server hj hleft hsum hserver =>
    obtain ⟨rfl, rfl⟩ := ClientPc.sending.inj hclient
    show Phase a ⟨_, toServer + k, 0, received, j, server⟩
    by_cases hlast : left' - k = 0
    · rw [if_pos hlast]
      exact .underway hj (by omega) (by omega) hserver
    · rw [if_neg hlast]
      exact .sending hj (by omega) (by omega) hserver
  | fresh hfresh =>
    rcases hfresh with rfl | rfl
    · exact absurd hclient (by simp [Conn.fresh])
    · exact absurd hclient (by simp [Conn.fresh])
  | underway | responding | responded | again | finished => exact absurd hclient (by simp)

theorem Phase.clientRecv (h : Phase a x) (hstep : x.clientRecv a k = some x') : Phase a x' := by
  obtain ⟨t, missing, hclient, hk, hle, harrived, rfl⟩ := clientRecv_eq_some hstep
  cases h with
  | @responding j toClient left missing' hj hleft hsum =>
    obtain ⟨rfl, rfl⟩ := ClientPc.receiving.inj hclient
    have harrived' : k ≤ toClient := harrived
    -- the server has not sent all of the response
    rw [if_neg (by omega)]
    exact .responding hj hleft (show toClient - k + left = missing' - k by omega)
  | @responded j missing' server hj hmissing hserver =>
    obtain ⟨rfl, rfl⟩ := ClientPc.receiving.inj hclient
    by_cases hlast : missing' - k = 0
    · rw [if_pos hlast]
      show Phase a ⟨_, 0, missing' - k, _, _, _⟩
      rw [hlast]
      by_cases hint : IntNonzero a.respSize
      · rw [if_pos hint]
        exact .nextBlock hj hint hserver
      · rw [if_neg hint]
        exact .again hj hint hserver
    · rw [if_neg hlast]
      exact .responded hj (by omega) hserver
  | fresh | sending | underway | again | finished =>
    have hzero : k ≤ 0 := harrived
    omega

theorem Phase.serverRecv (h : Phase a x) (hstep : x.serverRecv a k = some x') : Phase a x' := by
  obtain ⟨hwaiting, hk, hle, rfl⟩ := serverRecv_eq_some hstep
  cases h with
  | @sending j left toServer received server hj hleft hsum hserver =>
    have hstart := hserver.1
    have hle' : k ≤ toServer := hle
    have hnot : ¬ BlockEnd a (received + k) := not_isBlockEnd hj (by omega) (by omega)
    show Phase a ⟨_, toServer - k, 0, received + k, j, if BlockEnd a (received + k) then _ else _⟩
    rw [if_neg hnot]
    exact .sending hj hleft (by omega) ⟨by omega, Or.inl rfl⟩
  | @underway j toServer received server hj hpos hsum hserver =>
    have hstart := hserver.1
    have hle' : k ≤ toServer := hle
    show Phase a ⟨_, toServer - k, 0, received + k, j, if BlockEnd a (received + k) then _ else _⟩
    by_cases hlast : k = toServer
    · -- the block is complete
      have hend : received + k = blockEnd a j := by omega
      rw [hend, if_pos (isBlockEnd_blockEnd hj), hlast, Nat.sub_self]
      exact .responding hj a.respSize_pos (Nat.zero_add _)
    · rw [if_neg (not_isBlockEnd hj (by omega) (by omega))]
      exact .underway hj (by omega) (by omega) ⟨by omega, Or.inl rfl⟩
  | fresh | responded | again | finished =>
    have hzero : k ≤ 0 := hle
    omega
  | responding => exact absurd hwaiting (by simp)

theorem Phase.serverSend (h : Phase a x) (hstep : x.serverSend capacity k = some x') :
    Phase a x' := by
  obtain ⟨left, hresponding, hk, hle, -, rfl⟩ := serverSend_eq_some hstep
  cases h with
  | @responding j toClient left' missing hj hleft hsum =>
    obtain rfl := ConnServer.responding.inj hresponding
    show Phase a ⟨_, 0, toClient + k, _, if left' - k = 0 then j + 1 else j, _⟩
    by_cases hlast : left' - k = 0
    · have hall : toClient + k = missing := by omega
      rw [if_pos hlast, if_pos hlast, hall]
      exact .responded hj (by omega) (Or.inl rfl)
    · rw [if_neg hlast, if_neg hlast]
      exact .responding hj (by omega) (by omega)
  | fresh => exact absurd hresponding (by simp [Conn.fresh])
  | sending _ _ _ hserver | underway _ _ _ hserver =>
    rcases hserver.2 with hserver | ⟨hserver, -⟩
    · exact absurd (hserver.symm.trans hresponding) (by simp)
    · exact absurd (hserver.symm.trans hresponding) (by simp)
  | responded _ _ hserver | again _ _ hserver | finished _ hserver =>
    rcases hserver with hserver | ⟨hserver, -⟩ | ⟨hserver, -⟩
    · exact absurd (hserver.symm.trans hresponding) (by simp)
    · exact absurd (hserver.symm.trans hresponding) (by simp)
    · exact absurd (hserver.symm.trans hresponding) (by simp)

/-- A server that has just responded goes on with the connection, or is done with it. -/
theorem settled_endEvent (received : ℕ) :
    Settled a received (if received = a.transferBytesPerConn then .closed else .waiting) := by
  by_cases htotal : received = a.transferBytesPerConn
  · rw [if_pos htotal]
    exact Or.inr (Or.inr ⟨rfl, htotal⟩)
  · rw [if_neg htotal]
    exact Or.inr (Or.inl ⟨rfl, htotal⟩)

theorem Phase.endEvent (h : Phase a x) (hanswered : x.server = .answered) :
    Phase a (x.endEvent a) := by
  cases h with
  | @sending j left toServer received server hj hleft hsum hserver =>
    have hstart := hserver.1
    have hle := blockEnd_le_total hj
    show Phase a ⟨_, _, _, _, _, if received = a.transferBytesPerConn then _ else _⟩
    rw [if_neg (by omega)]
    exact .sending hj hleft hsum ⟨hstart, Or.inl rfl⟩
  | @underway j toServer received server hj hpos hsum hserver =>
    have hstart := hserver.1
    have hle := blockEnd_le_total hj
    show Phase a ⟨_, _, _, _, _, if received = a.transferBytesPerConn then _ else _⟩
    rw [if_neg (by omega)]
    exact .underway hj hpos hsum ⟨hstart, Or.inl rfl⟩
  | responded hj hmissing hserver => exact .responded hj hmissing (settled_endEvent _)
  | again hj hint hserver => exact .again hj hint (settled_endEvent _)
  | finished hint hserver => exact .finished hint (settled_endEvent _)
  | fresh => exact absurd hanswered (by simp [Conn.fresh])
  | responding => exact absurd hanswered (by simp)

/-! ## What the phases say -/

/-- **One response for each block**: while the server is not sending one, it has responded to all
blocks that it has received. -/
theorem Phase.responses_eq (h : Phase a x) (hidle : ∀ left, x.server ≠ .responding left) :
    x.responses = if x.received = a.transferBytesPerConn then
      numBlocks a.transferBytesPerConn a.blockSize else x.received / a.blockSize := by
  have hpos := a.transferBytesPerConn_pos
  cases h with
  | fresh =>
    show 0 = if 0 = a.transferBytesPerConn then _ else 0 / a.blockSize
    rw [if_neg (by omega), Nat.zero_div]
  | @sending j left toServer received server hj hleft hsum hserver =>
    have hle := blockEnd_le_total hj
    show j = if received = a.transferBytesPerConn then _ else received / a.blockSize
    rw [if_neg (by omega), div_blockSize hserver.1 (by omega)]
  | @underway j toServer received server hj hpos' hsum hserver =>
    have hle := blockEnd_le_total hj
    show j = if received = a.transferBytesPerConn then _ else received / a.blockSize
    rw [if_neg (by omega), div_blockSize hserver.1 (by omega)]
  | @responding j toClient left missing hj hleft hsum => exact absurd rfl (hidle left)
  | @responded j missing server hj _ _ | @again j server hj _ _ =>
    show j + 1 = if blockEnd a j = a.transferBytesPerConn then _ else blockEnd a j / a.blockSize
    rcases blockEnd_cases hj with ⟨hend, hnum⟩ | ⟨hend, hlt⟩
    · rw [if_pos hend, hnum]
    · rw [if_neg hlt.ne, hend, Nat.mul_div_cancel _ a.blockSize_pos]
  | finished =>
    show _ = if a.transferBytesPerConn = a.transferBytesPerConn then _ else _
    rw [if_pos rfl]

/-- A client whose responses are zero as an `int` never finishes. -/
theorem Phase.intNonzero_of_finished (h : Phase a x) (hfinished : x.client = .finished) :
    IntNonzero a.respSize := by
  cases h with
  | finished hint _ => exact hint
  | fresh hfresh =>
    rcases hfresh with rfl | rfl
    · exact absurd hfinished (by simp [Conn.fresh])
    · exact absurd hfinished (by simp [Conn.fresh])
  | sending | underway | responding | responded | again => exact absurd hfinished (by simp)

/-- The server does not wait for a client that has finished. -/
theorem Phase.server_of_finished (h : Phase a x) (hfinished : x.client = .finished) :
    x.server = .answered ∨ x.server = .closed := by
  cases h with
  | finished _ hserver =>
    rcases hserver with hanswered | ⟨-, hne⟩ | ⟨hclosed, -⟩
    · exact Or.inl hanswered
    · exact absurd rfl hne
    · exact Or.inr hclosed
  | fresh hfresh =>
    rcases hfresh with rfl | rfl
    · exact absurd hfinished (by simp [Conn.fresh])
    · exact absurd hfinished (by simp [Conn.fresh])
  | sending | underway | responding | responded | again => exact absurd hfinished (by simp)

/-- Data that has arrived can be received. -/
theorem Phase.exists_serverRecv (h : Phase a x) (hwaiting : x.server = .waiting)
    (hdata : 0 < x.toServer) : ∃ x', x.serverRecv a 1 = some x' := by
  have hreceived : x.received < a.transferBytesPerConn := by
    cases h with
    | @sending j left toServer received server hj hleft hsum _ =>
      have hle := blockEnd_le_total hj
      show received < a.transferBytesPerConn
      omega
    | @underway j toServer received server hj hpos hsum _ =>
      have hle := blockEnd_le_total hj
      show received < a.transferBytesPerConn
      omega
    | fresh | responding | responded | again | finished => exact absurd hdata (lt_irrefl 0)
  rw [Conn.serverRecv]
  exact ⟨_, if_pos ⟨hwaiting, Nat.one_pos, currentBlockSize_pos hreceived, hdata⟩⟩

theorem exists_clientSend {t left : ℕ} (hclient : x.client = .sending t left) (hleft : 0 < left)
    (hroom : x.toServer < capacity) : ∃ x', x.clientSend a capacity 1 = some x' := by
  rw [clientSend, hclient]
  exact ⟨_, if_pos ⟨Nat.one_pos, hleft, hroom⟩⟩

theorem exists_clientRecv {t missing : ℕ} (hclient : x.client = .receiving t missing)
    (hmissing : 0 < missing) (harrived : 0 < x.toClient) : ∃ x', x.clientRecv a 1 = some x' := by
  rw [clientRecv, hclient]
  exact ⟨_, if_pos ⟨Nat.one_pos, hmissing, harrived⟩⟩

/-- A response that is being sent goes on, on one side or the other. -/
theorem Phase.exists_of_responding {left : ℕ} (h : Phase a x) (hcapacity : 0 < capacity)
    (hresponding : x.server = .responding left) :
    (∃ x', x.serverSend capacity 1 = some x') ∨ ∃ x', x.clientRecv a 1 = some x' := by
  cases h with
  | @responding j toClient left' missing hj hleft hsum =>
    rcases Nat.lt_or_ge toClient capacity with hroom | hfull
    · rw [Conn.serverSend]
      exact Or.inl ⟨_, if_pos ⟨Nat.one_pos, hleft, hroom⟩⟩
    · exact Or.inr (exists_clientRecv rfl (by omega) (show 0 < toClient by omega))
  | fresh => exact absurd hresponding (by simp [Conn.fresh])
  | sending _ _ _ hserver | underway _ _ _ hserver =>
    rcases hserver.2 with hserver | ⟨hserver, -⟩
    · exact absurd (hserver.symm.trans hresponding) (by simp)
    · exact absurd (hserver.symm.trans hresponding) (by simp)
  | responded _ _ hserver | again _ _ hserver | finished _ hserver =>
    rcases hserver with hserver | ⟨hserver, -⟩ | ⟨hserver, -⟩
    · exact absurd (hserver.symm.trans hresponding) (by simp)
    · exact absurd (hserver.symm.trans hresponding) (by simp)
    · exact absurd (hserver.symm.trans hresponding) (by simp)

/-- **A client that has not finished can go on, or the server can.**  Either one of them has a step
in the connection, or data waits for the server. -/
theorem Phase.progress (h : Phase a x) (hcapacity : 0 < capacity) (hint : IntNonzero a.respSize)
    (hstarted : x.client ≠ .unconnected ∧ x.client ≠ .connected)
    (hunfinished : x.client ≠ .finished) :
    (∃ x', x.clientSend a capacity 1 = some x') ∨ (∃ x', x.clientRecv a 1 = some x') ∨
      (∃ left, x.server = .responding left) ∨
      (0 < x.toServer ∧ (x.server = .waiting ∨ x.server = .answered)) := by
  have hdata {start received toServer : ℕ} {server : ConnServer} (hpos : 0 < toServer)
      (hserver : Receiving start received server) :
      0 < toServer ∧ (server = .waiting ∨ server = .answered) :=
    ⟨hpos, hserver.2.imp id And.left⟩
  cases h with
  | @sending j left toServer received server hj hleft hsum hserver =>
    rcases Nat.lt_or_ge toServer capacity with hroom | hfull
    · exact Or.inl (exists_clientSend rfl hleft hroom)
    · exact Or.inr (Or.inr (Or.inr (hdata (show 0 < toServer by omega) hserver)))
  | underway hj hpos hsum hserver => exact Or.inr (Or.inr (Or.inr (hdata hpos hserver)))
  | @responding j toClient left missing hj hleft hsum =>
    exact Or.inr (Or.inr (Or.inl ⟨left, rfl⟩))
  | responded hj hmissing hserver =>
    exact Or.inr (Or.inl (exists_clientRecv rfl hmissing hmissing))
  | fresh hfresh =>
    rcases hfresh with hfresh | hfresh
    · exact absurd hfresh hstarted.1
    · exact absurd hfresh hstarted.2
  | again _ hzero _ => exact absurd hint hzero
  | finished => exact absurd rfl hunfinished

/-! ## What is left to do -/

variable (a) in
/-- The bytes that the client has not handed to the connection. -/
def toHand (x : Conn) : ℕ :=
  match x.client with
  | .sending t left => a.transferBytesPerConn - (t + a.currentBlockSize t) + left
  | .receiving t _ => a.transferBytesPerConn - t
  | .finished => 0
  | _ => a.transferBytesPerConn

/-- The bytes of a response that the server has not handed to the connection. -/
def toRespond (x : Conn) : ℕ :=
  match x.server with
  | .responding left => left
  | _ => 0

variable (a) in
/-- A byte weighs less with each hop; what the server receives has weight `weight`. -/
def work (weight : ℕ) (x : Conn) : ℕ :=
  2 * weight * x.toHand a + weight * x.toServer + 2 * x.toRespond + x.toClient

variable {weight : ℕ}

theorem toHand_nextBlock (t : ℕ) :
    toHand a ⟨nextBlock a t, x.toServer, x.toClient, x.received, x.responses, x.server⟩ =
      a.transferBytesPerConn - t := by
  unfold nextBlock
  split_ifs with htotal
  · rw [htotal, Nat.sub_self]
    rfl
  · show a.transferBytesPerConn - (t + a.currentBlockSize t) + a.currentBlockSize t = _
    unfold NetBenchArgs.currentBlockSize
    split_ifs <;> omega

theorem work_begin (hclient : x.client = .connected) :
    (x.begin a).work a weight = x.work a weight := by
  have hhand : x.toHand a = a.transferBytesPerConn := by rw [toHand, hclient]
  have hnext : (x.begin a).toHand a = a.transferBytesPerConn := toHand_nextBlock (x := x) 0
  unfold work
  rw [hhand, hnext]
  rfl

theorem work_clientSend (hweight : 0 < weight) (hstep : x.clientSend a capacity k = some x') :
    x'.work a weight < x.work a weight := by
  obtain ⟨t, left, hclient, hk, hle, -, rfl⟩ := clientSend_eq_some hstep
  have hhand : x.toHand a = a.transferBytesPerConn - (t + a.currentBlockSize t) + left := by
    rw [toHand, hclient]
  have hafter : toHand a ⟨if left - k = 0 then .receiving (t + a.currentBlockSize t) a.respSize
      else .sending t (left - k), x.toServer + k, x.toClient, x.received, x.responses,
      x.server⟩ + k = x.toHand a := by
    rw [hhand]
    split_ifs with hlast
    · show a.transferBytesPerConn - (t + a.currentBlockSize t) + k = _
      omega
    · show a.transferBytesPerConn - (t + a.currentBlockSize t) + (left - k) + k = _
      omega
  unfold work
  rw [← hafter, Nat.mul_add, Nat.mul_add]
  have hless : weight * k < 2 * weight * k := by
    rw [Nat.mul_assoc, Nat.two_mul]
    have := Nat.mul_pos hweight hk
    omega
  show _ + (weight * x.toServer + weight * k) + 2 * x.toRespond + x.toClient < _
  omega

theorem work_clientRecv (hstep : x.clientRecv a k = some x') :
    x'.work a weight < x.work a weight := by
  obtain ⟨t, missing, hclient, hk, hle, harrived, rfl⟩ := clientRecv_eq_some hstep
  have hhand : x.toHand a = a.transferBytesPerConn - t := by rw [toHand, hclient]
  have hafter : toHand a ⟨if missing - k = 0 then
        if IntNonzero a.respSize then nextBlock a t else .receiving t a.respSize
      else .receiving t (missing - k), x.toServer, x.toClient - k, x.received, x.responses,
      x.server⟩ = x.toHand a := by
    rw [hhand]
    split_ifs with hlast hint
    · exact toHand_nextBlock (x := ⟨x.client, x.toServer, x.toClient - k, x.received, x.responses,
        x.server⟩) t
    · rfl
    · rfl
  unfold work
  rw [hafter]
  show _ + weight * x.toServer + 2 * x.toRespond + (x.toClient - k) < _
  omega

theorem work_serverRecv (hstep : x.serverRecv a k = some x') :
    x'.work a weight + weight ≤ x.work a weight + 2 * a.respSize := by
  obtain ⟨hwaiting, hk, hle, rfl⟩ := serverRecv_eq_some hstep
  have hbefore : x.toRespond = 0 := by rw [toRespond, hwaiting]
  have hafter : toRespond ⟨x.client, x.toServer - k, x.toClient, x.received + k, x.responses,
      if BlockEnd a (x.received + k) then .responding a.respSize else .waiting⟩ ≤ a.respSize := by
    split_ifs with hend
    · exact le_rfl
    · exact Nat.zero_le _
  have htaken : weight * (x.toServer - k) + weight ≤ weight * x.toServer := by
    rw [← Nat.mul_succ]
    exact Nat.mul_le_mul_left _ (by omega)
  unfold work
  rw [hbefore]
  show 2 * weight * x.toHand a + weight * (x.toServer - k) + 2 * _ + x.toClient + weight ≤ _
  omega

theorem work_serverSend (hstep : x.serverSend capacity k = some x') :
    x'.work a weight < x.work a weight := by
  obtain ⟨left, hresponding, hk, hle, -, rfl⟩ := serverSend_eq_some hstep
  have hbefore : x.toRespond = left := by rw [toRespond, hresponding]
  have hafter : toRespond ⟨x.client, x.toServer, x.toClient + k, x.received,
      if left - k = 0 then x.responses + 1 else x.responses,
      if left - k = 0 then .answered else .responding (left - k)⟩ = left - k := by
    by_cases hlast : left - k = 0
    · rw [if_pos hlast, if_pos hlast, hlast]
      rfl
    · rw [if_neg hlast, if_neg hlast]
      rfl
  unfold work
  rw [hbefore, hafter]
  show 2 * weight * x.toHand a + weight * x.toServer + 2 * (left - k) + (x.toClient + k) < _
  omega

theorem work_endEvent (hanswered : x.server = .answered) :
    (x.endEvent a).work a weight = x.work a weight := by
  have hbefore : x.toRespond = 0 := by rw [toRespond, hanswered]
  have hafter : (x.endEvent a).toRespond = 0 := by
    unfold endEvent toRespond
    split_ifs <;> rfl
  unfold work
  rw [hbefore, hafter]
  rfl

end Conn

end Elbencho
