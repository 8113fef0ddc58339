import Mathlib.Algebra.BigOperators.Group.List.Basic
import Mathlib.Algebra.GroupWithZero.Nat
import Elbencho.Library.Transition
import Elbencho.Library.Word64

/-!
# The client of the network benchmark

A client thread owns one connection.  For each block it calls `send` once and then waits for the
response of the server.  `recvExactT` collects a response from what `recvT` returns, with a soft
timeout of two seconds that starts anew after each chunk, and the client calls it in a loop that
gives up after twenty seconds.

Three things go wrong in this loop.  The result of `send` is not looked at, so a short send is
accounted as a whole block.  If the soft timeout strikes between two chunks of a response, then
`recvExactT` is left by an exception and the number of bytes it already had is lost: the next call
waits for a whole response again.  And the loop keeps the number of received bytes in an `int`,
which is zero for every multiple of 4 GiB.

`NetClient` is the client with its connection; a step is one block.  The environment chooses the
result of `send` and the chunks of the response, each with the pause before it.  A state is
`Exact` if the client has gone on after every block, nothing of the responses so far is left in
the connection, and the statistics have the bytes that were handed over.

* **`exact_iff_complete`**: a block keeps the client exact if and only if `send` took all of it,
  no pause within the response reaches two seconds and the response size is not a multiple of
  4 GiB.
* `client_notExact`: a short send that is accounted as a whole block, and a response that arrives
  in full and that the client gives up.
-/

namespace Elbencho

open Transition

/-! ## Receiving -/

/-- Bytes that arrive together, and the pause before them. -/
structure Arrival where
  pauseMs : ℕ
  numBytes : ℕ
  numBytes_pos : 0 < numBytes

namespace Arrival

/-- All bytes that are going to arrive. -/
def total (incoming : List Arrival) : ℕ := (incoming.map numBytes).sum

@[simp] theorem total_nil : total [] = 0 := rfl

@[simp] theorem total_cons (x : Arrival) (incoming : List Arrival) :
    total (x :: incoming) = x.numBytes + total incoming := by
  simp [total]

theorem eq_nil_of_total {incoming : List Arrival} (h : total incoming = 0) : incoming = [] := by
  cases incoming with
  | nil => rfl
  | cons x rest =>
    rw [total_cons] at h
    have := x.numBytes_pos
    omega

/-- The client has waited for a while. -/
def waited (x : Arrival) (ms : ℕ) : Arrival := ⟨x.pauseMs - ms, x.numBytes, x.numBytes_pos⟩

@[simp] theorem waited_numBytes (x : Arrival) (ms : ℕ) : (x.waited ms).numBytes = x.numBytes :=
  rfl

@[simp] theorem total_waited (x : Arrival) (ms : ℕ) (incoming : List Arrival) :
    total (x.waited ms :: incoming) = total (x :: incoming) := by
  rw [total_cons, total_cons, waited_numBytes]

end Arrival

open Arrival

/-- `recvT`: the number of bytes it returns, or `none` for the exception of a timeout. -/
def recvT (len timeoutMs : ℕ) : List Arrival → Option ℕ × List Arrival
  | [] => (none, [])
  | x :: rest =>
    if x.pauseMs < timeoutMs then
      if h : x.numBytes ≤ len then (some x.numBytes, rest)
      else (some len, ⟨0, x.numBytes - len, by omega⟩ :: rest)
    else (none, x.waited timeoutMs :: rest)

/-- The loop of `recvExactT`: `true` if the bytes are complete, `false` for the exception. -/
def recvExactLoop (timeoutMs : ℕ) : ℕ → ℕ → List Arrival → Bool × List Arrival
  | 0, _, incoming => (false, incoming)
  | fuel + 1, missing, incoming =>
    match recvT missing timeoutMs incoming with
    | (none, rest) => (false, rest)
    | (some recvRes, rest) =>
      if missing - recvRes = 0 then (true, rest)
      else recvExactLoop timeoutMs fuel (missing - recvRes) rest

/-- `recvExactT`.  Each chunk has at least one byte, so there are at most `len` rounds. -/
def recvExactT (len timeoutMs : ℕ) (incoming : List Arrival) : Bool × List Arrival :=
  recvExactLoop timeoutMs len len incoming

variable {timeoutMs : ℕ}

/-- Bytes that are received are no longer in the connection. -/
theorem total_of_recvT {len recvRes : ℕ} {incoming rest : List Arrival}
    (h : recvT len timeoutMs incoming = (some recvRes, rest)) :
    total incoming = recvRes + total rest ∧ recvRes ≤ len := by
  cases incoming with
  | nil => simp [recvT] at h
  | cons x tail =>
    rw [recvT] at h
    split_ifs at h with hpause hfits
    · obtain ⟨hres, rfl⟩ := Prod.mk.inj h
      obtain rfl := Option.some.inj hres
      exact ⟨total_cons x tail, hfits⟩
    · obtain ⟨hres, rfl⟩ := Prod.mk.inj h
      obtain rfl := Option.some.inj hres
      refine ⟨?_, le_rfl⟩
      rw [total_cons, total_cons]
      show x.numBytes + total tail = len + (x.numBytes - len + total tail)
      omega
    · exact absurd (Prod.mk.inj h).1 (by simp)

/-- A timeout leaves all bytes in the connection. -/
theorem total_of_recvT_timeout {len : ℕ} {incoming rest : List Arrival}
    (h : recvT len timeoutMs incoming = (none, rest)) : total rest = total incoming := by
  cases incoming with
  | nil =>
    rw [recvT] at h
    rw [← (Prod.mk.inj h).2]
  | cons x tail =>
    rw [recvT] at h
    split_ifs at h with hpause hfits
    · exact absurd (Prod.mk.inj h).1 (by simp)
    · exact absurd (Prod.mk.inj h).1 (by simp)
    · rw [← (Prod.mk.inj h).2, total_waited]

theorem recvExactLoop_of_timeout {fuel missing : ℕ} {incoming rest : List Arrival}
    (h : recvT missing timeoutMs incoming = (none, rest)) :
    recvExactLoop timeoutMs (fuel + 1) missing incoming = (false, rest) := by
  rw [recvExactLoop, h]

theorem recvExactLoop_of_recvT {fuel missing recvRes : ℕ} {incoming rest : List Arrival}
    (h : recvT missing timeoutMs incoming = (some recvRes, rest)) :
    recvExactLoop timeoutMs (fuel + 1) missing incoming =
      if missing - recvRes = 0 then (true, rest)
      else recvExactLoop timeoutMs fuel (missing - recvRes) rest := by
  rw [recvExactLoop, h]

/-- **A complete receive takes exactly what was asked for**, and an exception does not add
anything to the connection. -/
theorem total_of_recvExactLoop (timeoutMs fuel missing : ℕ) (incoming : List Arrival) :
    total (recvExactLoop timeoutMs fuel missing incoming).2 ≤ total incoming ∧
      ((recvExactLoop timeoutMs fuel missing incoming).1 = true →
        total incoming = missing + total (recvExactLoop timeoutMs fuel missing incoming).2) := by
  induction fuel generalizing missing incoming with
  | zero => exact ⟨le_rfl, fun h => absurd h (by simp [recvExactLoop])⟩
  | succ fuel ih =>
    rcases hrecv : recvT missing timeoutMs incoming with ⟨_ | recvRes, rest⟩
    · rw [recvExactLoop_of_timeout hrecv]
      exact ⟨le_of_eq (total_of_recvT_timeout hrecv), fun h => absurd h (by simp)⟩
    · obtain ⟨hsum, hle⟩ := total_of_recvT hrecv
      rw [recvExactLoop_of_recvT hrecv]
      split_ifs with hdone
      · refine ⟨?_, fun _ => ?_⟩
        · show total rest ≤ total incoming
          omega
        · show total incoming = missing + total rest
          omega
      · obtain ⟨hrest, hok⟩ := ih (missing - recvRes) rest
        refine ⟨by omega, fun h => ?_⟩
        have := hok h
        omega

/-- A receive starts with the first arrival, if that is in time and not all there is to come. -/
theorem recvExactLoop_cons {fuel missing : ℕ} {x : Arrival} {rest : List Arrival}
    (hpause : x.pauseMs < timeoutMs) (hlt : x.numBytes < missing) :
    recvExactLoop timeoutMs (fuel + 1) missing (x :: rest) =
      recvExactLoop timeoutMs fuel (missing - x.numBytes) rest := by
  have hrecv : recvT missing timeoutMs (x :: rest) = (some x.numBytes, rest) := by
    rw [recvT, if_pos hpause, dif_pos hlt.le]
  rw [recvExactLoop_of_recvT hrecv, if_neg (by omega)]

/-- Without a pause of the length of the timeout, all bytes are received. -/
theorem recvExactLoop_prompt {fuel missing : ℕ} {incoming : List Arrival}
    (hprompt : ∀ x ∈ incoming, x.pauseMs < timeoutMs) (htotal : total incoming = missing)
    (hpos : 0 < missing) (hfuel : missing ≤ fuel) :
    recvExactLoop timeoutMs fuel missing incoming = (true, []) := by
  induction incoming generalizing fuel missing with
  | nil =>
    rw [total_nil] at htotal
    omega
  | cons x rest ih =>
    rw [total_cons] at htotal
    have hx := x.numBytes_pos
    have hpause := hprompt x List.mem_cons_self
    obtain ⟨fuel, rfl⟩ := Nat.exists_eq_add_one_of_ne_zero (show fuel ≠ 0 by omega)
    by_cases hlast : total rest = 0
    · obtain rfl := eq_nil_of_total hlast
      have hrecv : recvT missing timeoutMs [x] = (some x.numBytes, []) := by
        rw [recvT, if_pos hpause, dif_pos (by omega)]
      rw [recvExactLoop_of_recvT hrecv, if_pos (by omega)]
    · rw [recvExactLoop_cons hpause (by omega)]
      exact ih (fun y hy => hprompt y (List.mem_cons_of_mem x hy)) (by omega) (by omega) (by omega)

/-- A pause of the length of the timeout ends the receive. -/
theorem recvExactLoop_late {fuel missing : ℕ} {incoming : List Arrival}
    (hlate : ∃ x ∈ incoming, timeoutMs ≤ x.pauseMs) (htotal : total incoming = missing) :
    (recvExactLoop timeoutMs fuel missing incoming).1 = false := by
  induction incoming generalizing fuel missing with
  | nil =>
    obtain ⟨x, hx, -⟩ := hlate
    exact absurd hx (by simp)
  | cons y rest ih =>
    cases fuel with
    | zero => rfl
    | succ fuel =>
      rw [total_cons] at htotal
      by_cases hpause : y.pauseMs < timeoutMs
      · -- the late arrival is a later one
        obtain ⟨x, hx, hxlate⟩ := hlate
        have hmem : x ∈ rest := by
          rcases List.mem_cons.mp hx with rfl | hmem
          · omega
          · exact hmem
        have hrest : total rest ≠ 0 := by
          intro hzero
          rw [eq_nil_of_total hzero] at hmem
          exact absurd hmem (by simp)
        rw [recvExactLoop_cons hpause (by omega)]
        exact ih ⟨x, hmem, hxlate⟩ (by omega)
      · have hrecv : recvT missing timeoutMs (y :: rest) =
            (none, y.waited timeoutMs :: rest) := by
          rw [recvT, if_neg hpause]
        rw [recvExactLoop_of_timeout hrecv]

/-! ## Waiting for a response -/

/-- `NETBENCH_RECEIVE_TIMEOUT_SEC`. -/
def netbenchReceiveTimeoutSec : ℕ := 20

/-- `NETBENCH_SHORT_POLL_TIMEOUT_SEC`. -/
def netbenchShortPollTimeoutSec : ℕ := 2

/-- The timeout that is given to `recvExactT`. -/
def shortTimeoutMs : ℕ := netbenchShortPollTimeoutSec * 1000

/-- The rounds of the loop over `elapsedSecs`. -/
def numShortPolls : ℕ :=
  (netbenchReceiveTimeoutSec + netbenchShortPollTimeoutSec - 1) / netbenchShortPollTimeoutSec

/-- A `ssize_t` in an `int` is not zero. -/
def IntNonzero (n : ℕ) : Prop := n % 2 ^ 32 ≠ 0

instance (n : ℕ) : Decidable (IntNonzero n) := inferInstanceAs (Decidable (_ ≠ _))

/-- An `int` that is added to a 64-bit counter: the sign is extended. -/
def intToWord (n : ℕ) : ℕ :=
  if n % 2 ^ 32 < 2 ^ 31 then n % 2 ^ 32 else Word64.size - 2 ^ 32 + n % 2 ^ 32

/-- The loop around `recvExactT`, with the counter of received bytes: whether `recvRes` is set in
the end, the counter, and what is left in the connection. -/
def awaitResponse (respSize : ℕ) : ℕ → ℕ → List Arrival → Bool × ℕ × List Arrival
  | 0, numBytesDone, incoming => (false, numBytesDone, incoming)
  | rounds + 1, numBytesDone, incoming =>
    match recvExactT respSize shortTimeoutMs incoming with
    | (false, rest) => awaitResponse respSize rounds numBytesDone rest
    | (true, rest) =>
      if IntNonzero respSize then (true, Word64.add numBytesDone (intToWord respSize), rest)
      else awaitResponse respSize rounds (Word64.add numBytesDone (intToWord respSize)) rest

section Await

variable {respSize rounds numBytesDone : ℕ} {incoming rest : List Arrival}

theorem awaitResponse_of_timeout
    (h : recvExactT respSize shortTimeoutMs incoming = (false, rest)) :
    awaitResponse respSize (rounds + 1) numBytesDone incoming =
      awaitResponse respSize rounds numBytesDone rest := by
  rw [awaitResponse, h]

theorem awaitResponse_of_recvExactT
    (h : recvExactT respSize shortTimeoutMs incoming = (true, rest)) :
    awaitResponse respSize (rounds + 1) numBytesDone incoming =
      if IntNonzero respSize then (true, Word64.add numBytesDone (intToWord respSize), rest)
      else awaitResponse respSize rounds (Word64.add numBytesDone (intToWord respSize)) rest := by
  rw [awaitResponse, h]

/-- **Less than a response never ends the wait.** -/
theorem awaitResponse_of_total_lt (hlt : total incoming < respSize) :
    (awaitResponse respSize rounds numBytesDone incoming).1 = false := by
  induction rounds generalizing numBytesDone incoming with
  | zero => rfl
  | succ rounds ih =>
    obtain ⟨hle, hok⟩ :=
      total_of_recvExactLoop shortTimeoutMs respSize respSize incoming
    rcases hrecv : recvExactT respSize shortTimeoutMs incoming with ⟨done, rest⟩
    rw [recvExactT] at hrecv
    rw [hrecv] at hle hok
    cases done with
    | false =>
      rw [awaitResponse_of_timeout hrecv]
      exact ih (lt_of_le_of_lt hle hlt)
    | true =>
      have := hok rfl
      omega

/-- A response whose later arrivals are in time is received, in the round in which the first one
arrives. -/
theorem awaitResponse_prompt {x : Arrival} {later : List Arrival} (hint : IntNonzero respSize)
    (hfirst : x.pauseMs < rounds * shortTimeoutMs)
    (hlater : ∀ y ∈ later, y.pauseMs < shortTimeoutMs)
    (htotal : total (x :: later) = respSize) :
    (awaitResponse respSize rounds numBytesDone (x :: later)).1 = true ∧
      (awaitResponse respSize rounds numBytesDone (x :: later)).2.2 = [] := by
  have hpos : 0 < respSize := by
    rw [total_cons] at htotal
    have := x.numBytes_pos
    omega
  induction rounds generalizing x with
  | zero => omega
  | succ rounds ih =>
    by_cases hpause : x.pauseMs < shortTimeoutMs
    · have hrecv : recvExactT respSize shortTimeoutMs (x :: later) = (true, []) := by
        refine recvExactLoop_prompt (fun y hy => ?_) htotal hpos le_rfl
        rcases List.mem_cons.mp hy with rfl | hmem
        · exact hpause
        · exact hlater y hmem
      rw [awaitResponse_of_recvExactT hrecv, if_pos hint]
      exact ⟨rfl, rfl⟩
    · -- the soft timeout, with nothing received
      have hrecv : recvExactT respSize shortTimeoutMs (x :: later) =
          (false, x.waited shortTimeoutMs :: later) := by
        obtain ⟨fuel, hfuel⟩ := Nat.exists_eq_add_one_of_ne_zero (Nat.ne_of_gt hpos)
        have hpoll : recvT respSize shortTimeoutMs (x :: later) =
            (none, x.waited shortTimeoutMs :: later) := by
          rw [recvT, if_neg hpause]
        rw [recvExactT]
        nth_rewrite 1 [hfuel]
        exact recvExactLoop_of_timeout hpoll
      rw [awaitResponse_of_timeout hrecv]
      have hlate : (x.waited shortTimeoutMs).pauseMs < rounds * shortTimeoutMs := by
        rw [Nat.add_mul, Nat.one_mul] at hfirst
        show x.pauseMs - shortTimeoutMs < rounds * shortTimeoutMs
        omega
      exact ih hlate ((total_waited x shortTimeoutMs later).trans htotal)

/-- A pause within the response loses the bytes before it, and the wait does not end. -/
theorem awaitResponse_late {x : Arrival} {later : List Arrival}
    (hlate : ∃ y ∈ later, shortTimeoutMs ≤ y.pauseMs) (htotal : total (x :: later) = respSize) :
    (awaitResponse respSize rounds numBytesDone (x :: later)).1 = false := by
  induction rounds generalizing x with
  | zero => rfl
  | succ rounds ih =>
    obtain ⟨fuel, hfuel⟩ : ∃ fuel, respSize = fuel + 1 := by
      refine Nat.exists_eq_add_one_of_ne_zero ?_
      rw [total_cons] at htotal
      have := x.numBytes_pos
      omega
    have hresult : (recvExactT respSize shortTimeoutMs (x :: later)).1 = false := by
      obtain ⟨y, hy, hylate⟩ := hlate
      exact recvExactLoop_late ⟨y, List.mem_cons_of_mem x hy, hylate⟩ htotal
    rcases hrecv : recvExactT respSize shortTimeoutMs (x :: later) with ⟨done, rest⟩
    rw [hrecv] at hresult
    obtain rfl : done = false := hresult
    rw [awaitResponse_of_timeout hrecv]
    rw [recvExactT] at hrecv
    nth_rewrite 1 [hfuel] at hrecv
    by_cases hpause : x.pauseMs < shortTimeoutMs
    · -- the first arrival is taken, and what is left is less than a response
      have hlt : x.numBytes < respSize := by
        obtain ⟨y, hy, -⟩ := hlate
        have hne : total later ≠ 0 := by
          intro hzero
          rw [eq_nil_of_total hzero] at hy
          exact absurd hy (by simp)
        rw [total_cons] at htotal
        omega
      rw [recvExactLoop_cons hpause hlt] at hrecv
      have hle := (total_of_recvExactLoop shortTimeoutMs fuel (respSize - x.numBytes) later).1
      rw [hrecv] at hle
      rw [total_cons] at htotal
      refine awaitResponse_of_total_lt ?_
      have := x.numBytes_pos
      have hrest : total rest ≤ total later := hle
      omega
    · have hpoll : recvT respSize shortTimeoutMs (x :: later) =
          (none, x.waited shortTimeoutMs :: later) := by
        rw [recvT, if_neg hpause]
      rw [recvExactLoop_of_timeout hpoll] at hrecv
      obtain rfl := (Prod.mk.inj hrecv).2
      exact ih ((total_waited x shortTimeoutMs later).trans htotal)

/-- A response size that is zero as an `int` is received over and over. -/
theorem awaitResponse_intZero (hint : ¬ IntNonzero respSize) (hpos : 0 < respSize)
    (htotal : total incoming = respSize) :
    (awaitResponse respSize rounds numBytesDone incoming).1 = false := by
  induction rounds generalizing numBytesDone incoming with
  | zero => rfl
  | succ rounds ih =>
    have hspec := total_of_recvExactLoop shortTimeoutMs respSize respSize incoming
    rcases hrecv : recvExactT respSize shortTimeoutMs incoming with ⟨done, rest⟩
    rw [recvExactT] at hrecv
    rw [hrecv] at hspec
    cases done with
    | false =>
      rw [awaitResponse_of_timeout hrecv]
      rcases Nat.lt_or_eq_of_le hspec.1 with hlt | heq
      · exact awaitResponse_of_total_lt (lt_of_lt_of_eq hlt htotal)
      · exact ih (heq.trans htotal)
    | true =>
      have hrest := hspec.2 rfl
      rw [awaitResponse_of_recvExactT hrecv, if_neg hint]
      refine awaitResponse_of_total_lt ?_
      have : total incoming = respSize + total rest := hrest
      omega

end Await

/-! ## Blocks -/

/-- What the transfer reads of the program's arguments, which are checked not to be zero. -/
structure NetBenchArgs where
  transferBytesPerConn : ℕ
  blockSize : ℕ
  respSize : ℕ
  transferBytesPerConn_pos : 0 < transferBytesPerConn
  blockSize_pos : 0 < blockSize
  respSize_pos : 0 < respSize
  transferBytesPerConn_lt : transferBytesPerConn < Word64.size

/-- `currentBlockSize`, from the bytes that were transferred so far. -/
def NetBenchArgs.currentBlockSize (a : NetBenchArgs) (transferredBytes : ℕ) : ℕ :=
  if a.transferBytesPerConn - transferredBytes < a.blockSize then
    a.transferBytesPerConn - transferredBytes
  else a.blockSize

/-- A client thread and its connection.  `handedBytes` is the sum of the results of `send`;
`failed` is the exception after the receive timeout. -/
structure NetClient where
  transferredBytes : ℕ
  incoming : List Arrival
  numBytesDone : ℕ
  numIopsDone : ℕ
  numReadMixBytesDone : ℕ
  handedBytes : ℕ
  failed : Bool

/-- What the environment does with a block: what `send` returns, and how the response arrives. -/
structure BlockTransfer where
  sendRes : ℕ
  first : Arrival
  later : List Arrival

namespace BlockTransfer

/-- The response to the block. -/
def response (b : BlockTransfer) : List Arrival := b.first :: b.later

/-- `send` takes some of the block, the response has its size, and all pauses stay below the
overall timeout. -/
def Possible (b : BlockTransfer) (currentBlockSize respSize : ℕ) : Prop :=
  0 < b.sendRes ∧ b.sendRes ≤ currentBlockSize ∧ total b.response = respSize ∧
    ∀ x ∈ b.response, x.pauseMs < netbenchReceiveTimeoutSec * 1000

instance (b : BlockTransfer) (currentBlockSize respSize : ℕ) :
    Decidable (b.Possible currentBlockSize respSize) := inferInstanceAs (Decidable (_ ∧ _))

end BlockTransfer

namespace NetClient

variable (a : NetBenchArgs)

/-- Before the first block. -/
def start : NetClient := ⟨0, [], 0, 0, 0, 0, false⟩

/-- One round of the loop in `netbenchDoTransferClient`. -/
def transferBlock (s : NetClient) (b : BlockTransfer) : NetClient :=
  match awaitResponse a.respSize numShortPolls s.numReadMixBytesDone
      (s.incoming ++ b.response) with
  | (true, numReadMixBytesDone, rest) =>
    { transferredBytes := s.transferredBytes + a.currentBlockSize s.transferredBytes
      incoming := rest
      numBytesDone := Word64.add s.numBytesDone (a.currentBlockSize s.transferredBytes)
      numIopsDone := s.numIopsDone + 1
      numReadMixBytesDone := numReadMixBytesDone
      handedBytes := s.handedBytes + b.sendRes
      failed := false }
  | (false, numReadMixBytesDone, rest) =>
    { s with
      transferredBytes := s.transferredBytes + a.currentBlockSize s.transferredBytes
      incoming := rest
      numReadMixBytesDone := numReadMixBytesDone
      handedBytes := s.handedBytes + b.sendRes
      failed := true }

/-- The loop goes on until all bytes are transferred or an exception ends it. -/
def step (s : NetClient) (b : BlockTransfer) : Option NetClient :=
  if s.failed = false ∧ s.transferredBytes ≠ a.transferBytesPerConn ∧
      b.Possible (a.currentBlockSize s.transferredBytes) a.respSize then
    some (s.transferBlock a b)
  else none

/-- The client has gone on after every block with its response and nothing else received, and has
accounted what it has handed to the connection. -/
structure Exact (s : NetClient) : Prop where
  not_failed : s.failed = false
  consumed : s.incoming = []
  accounted : s.numBytesDone = s.handedBytes

/-- `send` takes the whole block, the response has no long pause in it and its size is not zero
as an `int`. -/
def Complete (s : NetClient) (b : BlockTransfer) : Prop :=
  b.sendRes = a.currentBlockSize s.transferredBytes ∧
    (∀ x ∈ b.later, x.pauseMs < shortTimeoutMs) ∧ IntNonzero a.respSize

instance (s : NetClient) (b : BlockTransfer) : Decidable (s.Complete a b) :=
  inferInstanceAs (Decidable (_ ∧ _))

/-- A client that has not failed has accounted what it takes for transferred. -/
def Inv (s : NetClient) : Prop :=
  s.failed = true ∨
    (s.numBytesDone = s.transferredBytes ∧ s.transferredBytes ≤ a.transferBytesPerConn)

variable {a} {s s' : NetClient} {b : BlockTransfer}

theorem transferBlock_of_response {n : ℕ} {rest : List Arrival}
    (h : awaitResponse a.respSize numShortPolls s.numReadMixBytesDone
      (s.incoming ++ b.response) = (true, n, rest)) :
    s.transferBlock a b =
      ⟨s.transferredBytes + a.currentBlockSize s.transferredBytes, rest,
        Word64.add s.numBytesDone (a.currentBlockSize s.transferredBytes), s.numIopsDone + 1, n,
        s.handedBytes + b.sendRes, false⟩ := by
  rw [transferBlock, h]

theorem transferBlock_failed
    (h : (awaitResponse a.respSize numShortPolls s.numReadMixBytesDone
      (s.incoming ++ b.response)).1 = false) : (s.transferBlock a b).failed = true := by
  rcases hawait : awaitResponse a.respSize numShortPolls s.numReadMixBytesDone
      (s.incoming ++ b.response) with ⟨done, n, rest⟩
  rw [hawait] at h
  obtain rfl : done = false := h
  rw [transferBlock, hawait]

theorem currentBlockSize_le {n : ℕ} (h : n ≤ a.transferBytesPerConn) :
    n + a.currentBlockSize n ≤ a.transferBytesPerConn := by
  unfold NetBenchArgs.currentBlockSize
  split_ifs <;> omega

/-- A block that gets its response is added to the counter without overflow. -/
theorem accounted_of_inv (hinv : s.Inv a) (hfailed : s.failed = false) :
    Word64.add s.numBytesDone (a.currentBlockSize s.transferredBytes) =
      s.transferredBytes + a.currentBlockSize s.transferredBytes ∧
    s.transferredBytes + a.currentBlockSize s.transferredBytes ≤ a.transferBytesPerConn := by
  rcases hinv with hbad | ⟨hdone, hle⟩
  · rw [hfailed] at hbad
    exact absurd hbad (by simp)
  · have hbound := currentBlockSize_le hle
    have hlt := a.transferBytesPerConn_lt
    exact ⟨by rw [hdone, Word64.add_eq (by omega)], hbound⟩

theorem Inv.step (hinv : s.Inv a) (hstep : s.step a b = some s') : s'.Inv a := by
  rw [NetClient.step] at hstep
  split_ifs at hstep with hcond
  obtain rfl := Option.some.inj hstep
  obtain ⟨hadd, hle⟩ := accounted_of_inv hinv hcond.1
  rcases hawait : awaitResponse a.respSize numShortPolls s.numReadMixBytesDone
      (s.incoming ++ b.response) with ⟨done, n, rest⟩
  cases done with
  | false => exact Or.inl (transferBlock_failed (by rw [hawait]))
  | true =>
    rw [transferBlock_of_response hawait]
    exact Or.inr ⟨hadd, hle⟩

theorem inv_of_reach (h : Reach (NetClient.step a) anyStep start s) : s.Inv a :=
  h.invariant (Or.inr ⟨rfl, Nat.zero_le _⟩) fun _ _ _ hu _ hstep => hu.step hstep

/-- **One block.** -/
theorem exact_step_iff (hinv : s.Inv a) (hexact : s.Exact) (hstep : s.step a b = some s') :
    s'.Exact ↔ s.Complete a b := by
  rw [NetClient.step] at hstep
  split_ifs at hstep with hcond
  obtain rfl := Option.some.inj hstep
  obtain ⟨hfailed, -, -, -, htotal, hpauses⟩ := hcond
  obtain ⟨hadd, -⟩ := accounted_of_inv hinv hfailed
  have hdone : s.numBytesDone = s.transferredBytes := by
    rcases hinv with hbad | ⟨hdone, -⟩
    · rw [hfailed] at hbad
      exact absurd hbad (by simp)
    · exact hdone
  have hincoming : s.incoming ++ b.response = b.first :: b.later := by
    rw [hexact.consumed]
    rfl
  constructor
  · intro hafter
    -- a wait that fails makes the client fail
    have hended : (awaitResponse a.respSize numShortPolls s.numReadMixBytesDone
        (b.first :: b.later)).1 = true := by
      by_contra hnot
      rw [Bool.not_eq_true, ← hincoming] at hnot
      have hbad := transferBlock_failed hnot
      rw [hafter.not_failed] at hbad
      exact absurd hbad (by simp)
    refine ⟨?_, ?_, ?_⟩
    · rcases hawait : awaitResponse a.respSize numShortPolls s.numReadMixBytesDone
          (s.incoming ++ b.response) with ⟨done, n, rest⟩
      rw [← hincoming, hawait] at hended
      obtain rfl : done = true := hended
      have haccounted := hafter.accounted
      rw [transferBlock_of_response hawait] at haccounted
      have hsum : Word64.add s.numBytesDone (a.currentBlockSize s.transferredBytes) =
        s.handedBytes + b.sendRes := haccounted
      have hbefore := hexact.accounted
      omega
    · by_contra hlate
      push Not at hlate
      obtain ⟨x, hx, hxlate⟩ := hlate
      rw [awaitResponse_late ⟨x, hx, hxlate⟩ htotal] at hended
      exact absurd hended (by simp)
    · by_contra hint
      have hbad : (awaitResponse a.respSize numShortPolls s.numReadMixBytesDone
        (b.first :: b.later)).1 = false := awaitResponse_intZero hint a.respSize_pos htotal
      rw [hended] at hbad
      exact absurd hbad (by simp)
  · rintro ⟨hsend, hlater, hint⟩
    have hfirst : b.first.pauseMs < numShortPolls * shortTimeoutMs :=
      hpauses b.first List.mem_cons_self
    rcases hawait : awaitResponse a.respSize numShortPolls s.numReadMixBytesDone
        (s.incoming ++ b.response) with ⟨done, n, rest⟩
    have hprompt : (awaitResponse a.respSize numShortPolls s.numReadMixBytesDone
          (b.first :: b.later)).1 = true ∧
        (awaitResponse a.respSize numShortPolls s.numReadMixBytesDone
          (b.first :: b.later)).2.2 = [] := awaitResponse_prompt hint hfirst hlater htotal
    rw [← hincoming, hawait] at hprompt
    obtain ⟨hended, hrest⟩ := hprompt
    obtain rfl : done = true := hended
    rw [transferBlock_of_response hawait]
    refine ⟨rfl, hrest, ?_⟩
    show Word64.add s.numBytesDone (a.currentBlockSize s.transferredBytes) =
      s.handedBytes + b.sendRes
    have hbefore := hexact.accounted
    omega

variable (a) in
/-- **Main statement.**  The client is exact in every state of a run whose blocks are complete,
and a block after which it is still exact was complete. -/
theorem exact_iff_complete :
    (∀ s, Reach (NetClient.step a) (Complete a) start s → s.Exact) ∧
    ∀ s b s', Reach (NetClient.step a) anyStep start s → s.Exact → s.step a b = some s' →
      (s'.Exact ↔ s.Complete a b) := by
  refine ⟨fun s hs => ?_, fun s b s' hs hexact hstep => ?_⟩
  · have hstart : start.Inv a ∧ start.Exact := ⟨Or.inr ⟨rfl, Nat.zero_le _⟩, rfl, rfl, rfl⟩
    have hboth : s.Inv a ∧ s.Exact := by
      refine @Reach.invariant _ _ _ _ (fun u => u.Inv a ∧ u.Exact) _ _ hs hstart ?_
      rintro u b v ⟨hinv, hexact⟩ hcomplete hstep
      exact ⟨hinv.step hstep, (exact_step_iff hinv hexact hstep).mpr hcomplete⟩
    exact hboth.2
  · exact exact_step_iff (inv_of_reach hs) hexact hstep

end NetClient

/-! ### Blocks that are not exact -/

/-- One block of 4 bytes with a response of 2 bytes. -/
def oneBlockTransfer : NetBenchArgs where
  transferBytesPerConn := 4
  blockSize := 4
  respSize := 2
  transferBytesPerConn_pos := Word64.four_pos
  blockSize_pos := Word64.four_pos
  respSize_pos := Nat.two_pos
  transferBytesPerConn_lt := Word64.four_lt_size

/-- The response starts after three seconds, and its second byte comes just in time. -/
def slowResponse : BlockTransfer := ⟨4, ⟨3000, 1, Nat.one_pos⟩, [⟨1999, 1, Nat.one_pos⟩]⟩

theorem exact_iff_complete_slowResponse :
    ∃ s, Reach (NetClient.step oneBlockTransfer) (NetClient.Complete oneBlockTransfer) .start s ∧
      s.transferredBytes = 4 ∧ s.Exact := by
  have hs : Reach (NetClient.step oneBlockTransfer) (NetClient.Complete oneBlockTransfer) .start
      (NetClient.start.transferBlock oneBlockTransfer slowResponse) :=
    (Reach.refl _).tail (a := slowResponse) (by decide +kernel) rfl
  exact ⟨_, hs, by decide +kernel, (NetClient.exact_iff_complete oneBlockTransfer).1 _ hs⟩

/-- `send` takes 3 of the 4 bytes, and the response comes at once. -/
def shortSend : BlockTransfer := ⟨3, ⟨0, 2, Nat.two_pos⟩, []⟩

/-- The second byte of the response comes two seconds after the first one. -/
def pausedResponse : BlockTransfer := ⟨4, ⟨0, 1, Nat.one_pos⟩, [⟨2000, 1, Nat.one_pos⟩]⟩

/-- **A short send is accounted as a whole block, and a pause of two seconds makes the client give
up a response that arrives in full.** -/
theorem client_notExact :
    (∃ s, Reach (NetClient.step oneBlockTransfer) anyStep .start s ∧ s.failed = false ∧
      s.numBytesDone = 4 ∧ s.handedBytes = 3) ∧
    ∃ s, Reach (NetClient.step oneBlockTransfer) anyStep .start s ∧ s.failed = true ∧
      s.incoming = [] ∧ s.numBytesDone = 0 ∧ s.handedBytes = 4 := by
  constructor
  · exact ⟨_, (reach_of_runTrace (p := fun _ => True) _ [shortSend] (fun _ _ => trivial) rfl).weaken
      fun _ _ _ => trivial, by decide +kernel, by decide +kernel, by decide +kernel⟩
  · exact ⟨_, (reach_of_runTrace (p := fun _ => True) _ [pausedResponse]
      (fun _ _ => trivial) rfl).weaken fun _ _ _ => trivial, by decide +kernel, by decide +kernel,
      by decide +kernel, by decide +kernel⟩

end Elbencho
