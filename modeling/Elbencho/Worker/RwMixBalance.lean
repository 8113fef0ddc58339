import Mathlib.Data.Fintype.Fin
import Elbencho.Library.Parties
import Elbencho.Library.Transition
import Elbencho.Library.Word64

/-!
# The balance between readers and writers

With `--rwmixthr` some threads of a write phase read, and `RateLimiterRWMixThreads` keeps the
bytes that are read at a given percentage of all bytes.  Before each block a thread computes how
many bytes its side may have done by now, counts the other side one block ahead for each of its
threads, and waits as long as its own side has done more.  The two byte counters are shared by
all threads of the process.  They are atomic, but a thread loads them one after the other, and it
adds its block after the comparison, so several threads of a side may pass before one of them
has added.

`RwMixBalance` is this machine, with every access to a counter a step of its own.  A thread
enters a phase with `initStart`, which zeroes both counters.

* `not_both_refused`: readers and writers are never refused in the same state.
* **`admitted_bounded`**: while nobody zeroes the counters, a side is at most one block for each
  of its threads above what it is allowed.
* **`counters_cover_phase`**: when the counters are zeroed only as long as nothing was admitted
  in the phase, they are the sums of the blocks that were admitted in it.
-/

namespace Elbencho

open Transition Parties

/-! ## The check -/

/-- Readers and writers. -/
inductive RwSide where
  | read
  | write
  deriving DecidableEq

instance RwSide.decidableForall (p : RwSide → Prop) [DecidablePred p] : Decidable (∀ side, p side) :=
  decidable_of_iff (p .read ∧ p .write)
    ⟨fun h side => by cases side with | read => exact h.1 | write => exact h.2,
      fun h => ⟨h .read, h .write⟩⟩

/-- The other side. -/
def RwSide.other : RwSide → RwSide
  | .read => .write
  | .write => .read

/-- What `initStart` is given. -/
structure RateLimiterRwMixThreads where
  readRatioPercent : ℕ
  numReaderThreads : ℕ
  numWriterThreads : ℕ
  maxBlockSize : ℕ
  readRatioPercent_le : readRatioPercent ≤ 100

namespace RateLimiterRwMixThreads

variable (c : RateLimiterRwMixThreads)

/-- The percentage of a side. -/
def percent : RwSide → ℕ
  | .read => c.readRatioPercent
  | .write => 100 - c.readRatioPercent

/-- The threads of a side. -/
def numThreads : RwSide → ℕ
  | .read => c.numReaderThreads
  | .write => c.numWriterThreads

/-- `headRoomBytes`: the other side is one block ahead. -/
def headRoomBytes (side : RwSide) : ℕ := Word64.mul c.maxBlockSize (c.numThreads side.other)

/-- `numBytesAllowedRead` and `numBytesAllowedWrite`, from the counters of the other side and of
the own one. -/
def numBytesAllowed (side : RwSide) (numBytesOther numBytesOwn : ℕ) : ℕ :=
  Word64.mul (Word64.add (Word64.add numBytesOther (c.headRoomBytes side)) numBytesOwn)
    (c.percent side) / 100

/-- What a side is allowed when the counters stay as they are. -/
def allowed (numBytes : RwSide → ℕ) (side : RwSide) : ℕ :=
  c.numBytesAllowed side (numBytes side.other) (numBytes side)

/-- The check refuses a side. -/
def Refused (numBytes : RwSide → ℕ) (side : RwSide) : Prop :=
  c.allowed numBytes side < numBytes side

/-- No operation of the check overflows. -/
structure CheckFits (numBytes : RwSide → ℕ) (side : RwSide) : Prop where
  headRoom_lt : c.maxBlockSize * c.numThreads side.other < Word64.size
  sum_lt : numBytes side.other + c.maxBlockSize * c.numThreads side.other + numBytes side <
    Word64.size
  product_lt : (numBytes side.other + c.maxBlockSize * c.numThreads side.other + numBytes side) *
    c.percent side < Word64.size

instance (numBytes : RwSide → ℕ) (side : RwSide) : Decidable (c.CheckFits numBytes side) :=
  decidable_of_iff
    (c.maxBlockSize * c.numThreads side.other < Word64.size ∧
      numBytes side.other + c.maxBlockSize * c.numThreads side.other + numBytes side <
        Word64.size ∧
      (numBytes side.other + c.maxBlockSize * c.numThreads side.other + numBytes side) *
        c.percent side < Word64.size)
    ⟨fun h => ⟨h.1, h.2.1, h.2.2⟩, fun h => ⟨h.1, h.2, h.3⟩⟩

variable {c} {numBytes : RwSide → ℕ} {side : RwSide}

/-- The allowed bytes without overflow, also from counters that were loaded earlier. -/
theorem CheckFits.numBytesAllowed_eq (h : c.CheckFits numBytes side) {other own : ℕ}
    (hother : other ≤ numBytes side.other) (hown : own ≤ numBytes side) :
    c.numBytesAllowed side other own =
      (other + c.maxBlockSize * c.numThreads side.other + own) * c.percent side / 100 := by
  have hsum := h.sum_lt
  have hproduct : (other + c.maxBlockSize * c.numThreads side.other + own) * c.percent side ≤
      (numBytes side.other + c.maxBlockSize * c.numThreads side.other + numBytes side) *
        c.percent side := Nat.mul_le_mul_right _ (by omega)
  have hhead : Word64.add other (c.maxBlockSize * c.numThreads side.other) =
      other + c.maxBlockSize * c.numThreads side.other := Word64.add_eq (by omega)
  rw [numBytesAllowed, headRoomBytes, Word64.mul_eq h.headRoom_lt, hhead,
    Word64.add_eq (by omega), Word64.mul_eq (lt_of_le_of_lt hproduct h.product_lt)]

/-- More bytes on either side allow more. -/
theorem CheckFits.numBytesAllowed_le (h : c.CheckFits numBytes side) {other own : ℕ}
    (hother : other ≤ numBytes side.other) (hown : own ≤ numBytes side) :
    c.numBytesAllowed side other own ≤ c.allowed numBytes side := by
  rw [allowed, h.numBytesAllowed_eq hother hown, h.numBytesAllowed_eq le_rfl le_rfl]
  exact Nat.div_le_div_right (Nat.mul_le_mul_right _ (by omega))

theorem CheckFits.allowed_mono {numBytes' : RwSide → ℕ} (h : c.CheckFits numBytes' side)
    (hle : ∀ side, numBytes side ≤ numBytes' side) :
    c.allowed numBytes side ≤ c.allowed numBytes' side :=
  h.numBytesAllowed_le (hle _) (hle _)

/-- A refused side has more than its percentage of all bytes. -/
theorem Refused.lt_percent (h : c.Refused numBytes side) (hfits : c.CheckFits numBytes side) :
    (numBytes side.other + numBytes side) * c.percent side < numBytes side * 100 := by
  rw [Refused, allowed, hfits.numBytesAllowed_eq le_rfl le_rfl,
    Nat.div_lt_iff_lt_mul (by decide)] at h
  refine lt_of_le_of_lt (Nat.mul_le_mul_right _ ?_) h
  omega

variable (c) in
/-- **The two sides are never refused together.** -/
theorem not_both_refused (numBytes : RwSide → ℕ) (hread : c.CheckFits numBytes .read)
    (hwrite : c.CheckFits numBytes .write) :
    ¬ (c.Refused numBytes .read ∧ c.Refused numBytes .write) := by
  rintro ⟨hr, hw⟩
  have hreads := hr.lt_percent hread
  have hwrites := hw.lt_percent hwrite
  have hpercent : c.percent .read + c.percent .write = 100 := by
    have hle := c.readRatioPercent_le
    change c.readRatioPercent + (100 - c.readRatioPercent) = 100
    omega
  -- the two percentages make up all bytes
  have hall : (numBytes .write + numBytes .read) * c.percent .read +
      (numBytes .read + numBytes .write) * c.percent .write =
      numBytes .read * 100 + numBytes .write * 100 := by
    rw [Nat.add_comm (numBytes .write), ← Nat.mul_add, hpercent, Nat.add_mul]
  change (numBytes .write + numBytes .read) * c.percent .read < _ at hreads
  change (numBytes .read + numBytes .write) * c.percent .write < _ at hwrites
  omega

end RateLimiterRwMixThreads

/-! ## The machine -/

/-- Where a thread is. -/
inductive BalancePc where
  /-- Between two phases, or between two passes of an infinite loop. -/
  | outside
  /-- In `initStart`, before it zeroes the counter of the writers. -/
  | zeroing
  /-- Between two blocks. -/
  | idle
  /-- At the head of the loop of `waitRead` or `waitWrite`. -/
  | entered (nextBlockSize : ℕ)
  /-- It has loaded the counter of the other side. -/
  | loadedOther (nextBlockSize numBytesOther : ℕ)
  /-- It has loaded the own counter as well, and knows what is allowed. -/
  | loadedBoth (nextBlockSize numBytesAllowed : ℕ)
  /-- It has to wait. -/
  | refused (nextBlockSize : ℕ)
  /-- It has passed, and is going to add its block. -/
  | admitted (nextBlockSize : ℕ)
  deriving DecidableEq

/-- The block of a thread that has passed the check and has not added it. -/
def BalancePc.pending : BalancePc → ℕ
  | .admitted nextBlockSize => nextBlockSize
  | _ => 0

/-- The shared counters, and where the threads are.  The readers are the first threads. -/
structure RwMixBalance (c : RateLimiterRwMixThreads) where
  numBytes : RwSide → ℕ
  /-- The blocks that were added since the phase started. -/
  admittedInPhase : RwSide → ℕ
  pc : Fin (c.numReaderThreads + c.numWriterThreads) → BalancePc

/-- Steps of the manager and of the threads. -/
inductive BalanceAction (c : RateLimiterRwMixThreads) where
  | startPhase
  | zeroRead (t : Fin (c.numReaderThreads + c.numWriterThreads))
  | zeroWrite (t : Fin (c.numReaderThreads + c.numWriterThreads))
  | endPass (t : Fin (c.numReaderThreads + c.numWriterThreads))
  | enter (t : Fin (c.numReaderThreads + c.numWriterThreads)) (nextBlockSize : ℕ)
  | loadOther (t : Fin (c.numReaderThreads + c.numWriterThreads))
  | loadOwn (t : Fin (c.numReaderThreads + c.numWriterThreads))
  | check (t : Fin (c.numReaderThreads + c.numWriterThreads))
  | retry (t : Fin (c.numReaderThreads + c.numWriterThreads))
  | giveUp (t : Fin (c.numReaderThreads + c.numWriterThreads))
  | add (t : Fin (c.numReaderThreads + c.numWriterThreads))

/-- The counters are zeroed. -/
def BalanceAction.resets {c : RateLimiterRwMixThreads} : BalanceAction c → Bool
  | .zeroRead _ => true
  | .zeroWrite _ => true
  | _ => false

namespace RwMixBalance

variable {c : RateLimiterRwMixThreads}

/-- Readers are the ranks below `numReaderThreads`. -/
def sideOf (t : Fin (c.numReaderThreads + c.numWriterThreads)) : RwSide :=
  if t.val < c.numReaderThreads then .read else .write

/-- Zeroed counters, and no thread in the balancer. -/
def start : RwMixBalance c := ⟨fun _ => 0, fun _ => 0, fun _ => .idle⟩

/-- A thread goes on at `pc`. -/
def goto (s : RwMixBalance c) (t : Fin (c.numReaderThreads + c.numWriterThreads))
    (pc : BalancePc) : RwMixBalance c :=
  { s with pc := Function.update s.pc t pc }

/-- `numBytesRead = 0` or `numBytesWrite = 0`. -/
def zero (s : RwMixBalance c) (side : RwSide) : RwMixBalance c :=
  { s with numBytes := Function.update s.numBytes side 0 }

/-- The counter of a side grows by a block. -/
def addBlock (s : RwMixBalance c) (side : RwSide) (nextBlockSize : ℕ) : RwMixBalance c :=
  { s with
    numBytes := Function.update s.numBytes side (Word64.add (s.numBytes side) nextBlockSize)
    admittedInPhase :=
      Function.update s.admittedInPhase side (s.admittedInPhase side + nextBlockSize) }

def step (s : RwMixBalance c) : BalanceAction c → Option (RwMixBalance c)
  | .startPhase =>
    if ∀ t, s.pc t = .outside then some { s with admittedInPhase := fun _ => 0 } else none
  | .zeroRead t =>
    if s.pc t = .outside then some ((s.zero .read).goto t .zeroing) else none
  | .zeroWrite t =>
    if s.pc t = .zeroing then some ((s.zero .write).goto t .idle) else none
  | .endPass t => if s.pc t = .idle then some (s.goto t .outside) else none
  | .enter t nextBlockSize =>
    if s.pc t = .idle ∧ nextBlockSize ≤ c.maxBlockSize then
      some (s.goto t (.entered nextBlockSize))
    else none
  | .loadOther t =>
    match s.pc t with
    | .entered nextBlockSize =>
      some (s.goto t (.loadedOther nextBlockSize (s.numBytes (sideOf t).other)))
    | _ => none
  | .loadOwn t =>
    match s.pc t with
    | .loadedOther nextBlockSize numBytesOther =>
      some (s.goto t (.loadedBoth nextBlockSize
        (c.numBytesAllowed (sideOf t) numBytesOther (s.numBytes (sideOf t)))))
    | _ => none
  | .check t =>
    match s.pc t with
    | .loadedBoth nextBlockSize numBytesAllowed =>
      if s.numBytes (sideOf t) ≤ numBytesAllowed then some (s.goto t (.admitted nextBlockSize))
      else some (s.goto t (.refused nextBlockSize))
    | _ => none
  | .retry t =>
    match s.pc t with
    | .refused nextBlockSize => some (s.goto t (.entered nextBlockSize))
    | _ => none
  | .giveUp t =>
    match s.pc t with
    -- an interruption, or the maximum time to wait is over
    | .refused _ => some (s.goto t .outside)
    | _ => none
  | .add t =>
    match s.pc t with
    | .admitted nextBlockSize => some ((s.addBlock (sideOf t) nextBlockSize).goto t .idle)
    | _ => none

/-- The bytes of a side that were admitted: the counter, and the blocks that are still to be
added to it. -/
def admittedBytes (s : RwMixBalance c) (side : RwSide) : ℕ :=
  s.numBytes side + ∑ t, if sideOf t = side then (s.pc t).pending else 0

/-- No operation of the threads overflows. -/
structure NoOverflow (s : RwMixBalance c) : Prop where
  check : ∀ side, c.CheckFits s.numBytes side
  add : ∀ side, s.admittedBytes side < Word64.size

instance (s : RwMixBalance c) : Decidable s.NoOverflow :=
  decidable_of_iff
    ((∀ side, c.CheckFits s.numBytes side) ∧ ∀ side, s.admittedBytes side < Word64.size)
    ⟨fun h => ⟨h.1, h.2⟩, fun h => ⟨h.1, h.2⟩⟩

/-! ## The bound -/

section Bound

variable {s s' : RwMixBalance c} {t : Fin (c.numReaderThreads + c.numWriterThreads)}
  {pc : BalancePc} {side : RwSide} {nextBlockSize : ℕ}

theorem admittedBytes_goto (s : RwMixBalance c) (t : Fin (c.numReaderThreads + c.numWriterThreads))
    (pc : BalancePc) (side : RwSide) :
    (s.goto t pc).admittedBytes side + (if sideOf t = side then (s.pc t).pending else 0) =
      s.admittedBytes side + if sideOf t = side then pc.pending else 0 := by
  have hsum := sum_update_add (fun u (p : BalancePc) => if sideOf u = side then p.pending else 0)
    s.pc t pc
  change s.numBytes side + (∑ u, if sideOf u = side then (Function.update s.pc t pc u).pending
    else 0) + _ = s.numBytes side + (∑ u, if sideOf u = side then (s.pc u).pending else 0) + _
  rw [Nat.add_assoc, hsum, Nat.add_assoc]

/-- A thread that neither passes nor adds changes no admitted bytes. -/
theorem admittedBytes_goto_of_pending (h : pc.pending = (s.pc t).pending) (side : RwSide) :
    (s.goto t pc).admittedBytes side = s.admittedBytes side := by
  have hsum := admittedBytes_goto s t pc side
  rw [h] at hsum
  exact Nat.add_right_cancel hsum

theorem sideOf_castAdd (t : Fin c.numReaderThreads) :
    sideOf (t.castAdd c.numWriterThreads) = .read := if_pos t.isLt

theorem sideOf_natAdd (t : Fin c.numWriterThreads) :
    sideOf (t.natAdd c.numReaderThreads) = .write :=
  if_neg (Nat.not_lt.mpr (Nat.le_add_right _ _))

/-- A side has as many blocks pending as it has threads. -/
theorem sum_sideOf_le {f : Fin (c.numReaderThreads + c.numWriterThreads) → ℕ} {bound : ℕ}
    (hf : ∀ t, f t ≤ bound) (side : RwSide) :
    (∑ t, if sideOf t = side then f t else 0) ≤ c.numThreads side * bound := by
  rw [Fin.sum_univ_add]
  simp only [sideOf_castAdd, sideOf_natAdd]
  have hcard : ∀ {n : ℕ} (g : Fin n → ℕ), (∀ t, g t ≤ bound) → ∑ t, g t ≤ n * bound := by
    intro n g hg
    simpa using Finset.sum_le_card_nsmul Finset.univ g bound fun t _ => hg t
  cases side with
  | read =>
    simpa [RateLimiterRwMixThreads.numThreads] using
      hcard _ fun t => hf (t.castAdd c.numWriterThreads)
  | write =>
    simpa [RateLimiterRwMixThreads.numThreads] using
      hcard _ fun t => hf (t.natAdd c.numReaderThreads)

/-- What a thread knows, and how large its block is. -/
def Knows (s : RwMixBalance c) (side : RwSide) : BalancePc → Prop
  | .entered nextBlockSize => nextBlockSize ≤ c.maxBlockSize
  | .loadedOther nextBlockSize numBytesOther =>
    nextBlockSize ≤ c.maxBlockSize ∧ numBytesOther ≤ s.numBytes side.other
  | .loadedBoth nextBlockSize numBytesAllowed =>
    nextBlockSize ≤ c.maxBlockSize ∧ numBytesAllowed ≤ c.allowed s.numBytes side
  | .refused nextBlockSize => nextBlockSize ≤ c.maxBlockSize
  | .admitted nextBlockSize => nextBlockSize ≤ c.maxBlockSize
  | _ => True

/-- The invariant. -/
structure Bounded (s : RwMixBalance c) : Prop where
  knows : ∀ t, s.Knows (sideOf t) (s.pc t)
  admitted_le : ∀ side,
    s.admittedBytes side ≤ c.allowed s.numBytes side + c.numThreads side * c.maxBlockSize

theorem Knows.pending_le (h : s.Knows side pc) : pc.pending ≤ c.maxBlockSize := by
  cases pc with
  | admitted nextBlockSize => exact h
  | _ => exact Nat.zero_le _

/-- What a thread knows stays true when the counters grow. -/
theorem Knows.mono (h : s.Knows side pc) (hle : ∀ side, s.numBytes side ≤ s'.numBytes side)
    (hfits : c.CheckFits s'.numBytes side) : s'.Knows side pc := by
  cases pc with
  | loadedOther nextBlockSize numBytesOther => exact ⟨h.1, h.2.trans (hle _)⟩
  | loadedBoth nextBlockSize numBytesAllowed => exact ⟨h.1, h.2.trans (hfits.allowed_mono hle)⟩
  | _ => exact h

/-- A thread moves and adds nothing. -/
theorem Bounded.goto (hs : s.Bounded) (hknows : s.Knows (sideOf t) pc)
    (hle : ∀ side, (s.goto t pc).admittedBytes side ≤
      c.allowed s.numBytes side + c.numThreads side * c.maxBlockSize) : (s.goto t pc).Bounded where
  knows u := by
    change s.Knows (sideOf u) (Function.update s.pc t pc u)
    by_cases hu : u = t
    · rw [hu, Function.update_self]
      exact hknows
    · rw [Function.update_of_ne hu]
      exact hs.knows u
  admitted_le := hle

/-- A thread moves and does not pass the check. -/
theorem Bounded.goto_same (hs : s.Bounded) (hknows : s.Knows (sideOf t) pc)
    (hpending : pc.pending = (s.pc t).pending) : (s.goto t pc).Bounded :=
  hs.goto hknows fun side => by
    rw [admittedBytes_goto_of_pending hpending]
    exact hs.admitted_le side

/-- **A thread passes the check.**  Its side has not more than it is allowed, and of every thread
of the side at most one block is still to be added. -/
theorem Bounded.admit (hs : s.Bounded) {numBytesAllowed : ℕ}
    (hpc : s.pc t = .loadedBoth nextBlockSize numBytesAllowed)
    (hcheck : s.numBytes (sideOf t) ≤ numBytesAllowed) :
    (s.goto t (.admitted nextBlockSize)).Bounded := by
  have hknows := hs.knows t
  rw [hpc] at hknows
  have hsize : s.Knows (sideOf t) (.admitted nextBlockSize) := hknows.1
  refine hs.goto hsize fun side => ?_
  by_cases hside : sideOf t = side
  · subst hside
    refine Nat.add_le_add (hcheck.trans hknows.2) (sum_sideOf_le (fun u => ?_) _)
    change (Function.update s.pc t (.admitted nextBlockSize) u).pending ≤ _
    by_cases hu : u = t
    · rw [hu, Function.update_self]
      exact hknows.1
    · rw [Function.update_of_ne hu]
      exact (hs.knows u).pending_le
  · have hsame := admittedBytes_goto s t (.admitted nextBlockSize) side
    rw [if_neg hside, if_neg hside] at hsame
    rw [Nat.add_right_cancel hsame]
    exact hs.admitted_le side

/-- The block of a thread that passed is below the admitted bytes. -/
theorem add_pending_le (hpc : s.pc t = .admitted nextBlockSize) :
    s.numBytes (sideOf t) + nextBlockSize ≤ s.admittedBytes (sideOf t) := by
  have hpending := admittedBytes_goto s t .idle (sideOf t)
  rw [if_pos rfl, if_pos rfl, hpc] at hpending
  change _ + nextBlockSize = _ + 0 at hpending
  have hge : s.numBytes (sideOf t) ≤ (s.goto t .idle).admittedBytes (sideOf t) :=
    Nat.le_add_right _ _
  omega

/-- Adding a block moves it from the pending ones to the counter. -/
theorem admittedBytes_add (hpc : s.pc t = .admitted nextBlockSize)
    (hlt : s.admittedBytes (sideOf t) < Word64.size) (side : RwSide) :
    ((s.addBlock (sideOf t) nextBlockSize).goto t .idle).admittedBytes side =
      s.admittedBytes side := by
  have hle := add_pending_le hpc
  have hpending := admittedBytes_goto (s.addBlock (sideOf t) nextBlockSize) t .idle side
  have hadd : Word64.add (s.numBytes (sideOf t)) nextBlockSize =
      s.numBytes (sideOf t) + nextBlockSize := Word64.add_eq (by omega)
  change _ + (if sideOf t = side then (s.pc t).pending else 0) =
    Function.update s.numBytes _ _ side +
      (∑ u, if sideOf u = side then (s.pc u).pending else 0) + _ at hpending
  rw [hpc] at hpending
  by_cases hside : sideOf t = side
  · subst hside
    rw [if_pos rfl, if_pos rfl, Function.update_self, hadd] at hpending
    change _ + nextBlockSize = _ + 0 at hpending
    change _ = s.numBytes (sideOf t) + _
    omega
  · rw [if_neg hside, if_neg hside, Function.update_of_ne (Ne.symm hside)] at hpending
    exact Nat.add_right_cancel hpending

/-- **A thread adds its block.**  The admitted bytes stay, and more is allowed. -/
theorem Bounded.add (hs : s.Bounded) (hpc : s.pc t = .admitted nextBlockSize)
    (hlt : s.admittedBytes (sideOf t) < Word64.size)
    (hfits : ∀ side, c.CheckFits (s.addBlock (sideOf t) nextBlockSize).numBytes side) :
    ((s.addBlock (sideOf t) nextBlockSize).goto t .idle).Bounded := by
  have hle : ∀ side, s.numBytes side ≤ (s.addBlock (sideOf t) nextBlockSize).numBytes side := by
    intro side
    have hblock := add_pending_le hpc
    change s.numBytes side ≤ Function.update s.numBytes _ _ side
    by_cases hside : side = sideOf t
    · rw [hside, Function.update_self, Word64.add_eq (by omega)]
      exact Nat.le_add_right _ _
    · rw [Function.update_of_ne hside]
  refine ⟨fun u => ?_, fun side => ?_⟩
  · change Knows _ (sideOf u) (Function.update s.pc t .idle u)
    by_cases hu : u = t
    · rw [hu, Function.update_self]
      trivial
    · rw [Function.update_of_ne hu]
      exact (hs.knows u).mono hle (hfits _)
  · rw [admittedBytes_add hpc hlt side]
    exact (hs.admitted_le side).trans (Nat.add_le_add_right ((hfits side).allowed_mono hle) _)

/-- Nobody zeroes a counter, and nothing overflows. -/
def Undisturbed (s : RwMixBalance c) (a : BalanceAction c) : Prop :=
  a.resets = false ∧ s.NoOverflow ∧ ∀ s' ∈ step s a, s'.NoOverflow

instance (s : RwMixBalance c) (a : BalanceAction c) : Decidable (Undisturbed s a) :=
  inferInstanceAs (Decidable (_ ∧ _ ∧ _))

theorem bounded_start : (start : RwMixBalance c).Bounded where
  knows _ := trivial
  admitted_le side := by
    have hzero : (start : RwMixBalance c).admittedBytes side = 0 := by
      simp [admittedBytes, start, BalancePc.pending]
    rw [hzero]
    exact Nat.zero_le _

theorem Bounded.step (hs : s.Bounded) {a : BalanceAction c} (hok : Undisturbed s a)
    (h : step s a = some s') : s'.Bounded := by
  obtain ⟨hresets, hfits, hfits'⟩ := hok
  replace hfits' := hfits' s' h
  cases a with
  | startPhase =>
    obtain ⟨-, hs'⟩ := Option.ite_none_right_eq_some.mp h
    cases hs'
    exact ⟨hs.knows, hs.admitted_le⟩
  | zeroRead t => cases hresets
  | zeroWrite t => cases hresets
  | endPass t =>
    obtain ⟨hpc, hs'⟩ := Option.ite_none_right_eq_some.mp h
    cases hs'
    exact hs.goto_same trivial (by rw [hpc]; rfl)
  | enter t nextBlockSize =>
    obtain ⟨⟨hpc, hsize⟩, hs'⟩ := Option.ite_none_right_eq_some.mp h
    cases hs'
    exact hs.goto_same hsize (by rw [hpc]; rfl)
  | loadOther t =>
    simp only [RwMixBalance.step] at h
    split at h
    next nextBlockSize hpc =>
      cases h
      have hknows := hs.knows t
      rw [hpc] at hknows
      exact hs.goto_same ⟨hknows, le_rfl⟩ (by rw [hpc]; rfl)
    next => cases h
  | loadOwn t =>
    simp only [RwMixBalance.step] at h
    split at h
    next nextBlockSize numBytesOther hpc =>
      cases h
      have hknows := hs.knows t
      rw [hpc] at hknows
      exact hs.goto_same ⟨hknows.1, (hfits.check _).numBytesAllowed_le hknows.2 le_rfl⟩
        (by rw [hpc]; rfl)
    next => cases h
  | check t =>
    simp only [RwMixBalance.step] at h
    split at h
    next nextBlockSize numBytesAllowed hpc =>
      split at h
      next hcheck =>
        cases h
        exact hs.admit hpc hcheck
      next =>
        cases h
        have hknows := hs.knows t
        rw [hpc] at hknows
        exact hs.goto_same hknows.1 (by rw [hpc]; rfl)
    next => cases h
  | retry t =>
    simp only [RwMixBalance.step] at h
    split at h
    next nextBlockSize hpc =>
      cases h
      have hknows := hs.knows t
      rw [hpc] at hknows
      exact hs.goto_same hknows (by rw [hpc]; rfl)
    next => cases h
  | giveUp t =>
    simp only [RwMixBalance.step] at h
    split at h
    next nextBlockSize hpc =>
      cases h
      exact hs.goto_same trivial (by rw [hpc]; rfl)
    next => cases h
  | add t =>
    simp only [RwMixBalance.step] at h
    split at h
    next nextBlockSize hpc =>
      cases h
      exact hs.add hpc (hfits.add _) hfits'.check
    next => cases h

/-- **Readers and writers do not block each other, and do not run ahead.**  For all counters one of
the two checks passes; and in all runs in which the counters are not zeroed and nothing overflows,
the bytes that were admitted for a side are at most what it is allowed and one block for each of
its threads. -/
theorem balance_bounded (c : RateLimiterRwMixThreads) :
    (∀ numBytes, c.CheckFits numBytes .read → c.CheckFits numBytes .write →
      ¬ (c.Refused numBytes .read ∧ c.Refused numBytes .write)) ∧
    ∀ s : RwMixBalance c, Reach step Undisturbed start s → ∀ side,
      s.admittedBytes side ≤ c.allowed s.numBytes side + c.numThreads side * c.maxBlockSize := by
  refine ⟨c.not_both_refused, fun s h => ?_⟩
  have hs : s.Bounded := h.invariant bounded_start fun _ _ _ hs hok hstep => hs.step hok hstep
  exact hs.admitted_le

end Bound

/-- Two readers and one writer, half of the bytes each. -/
def twoReaders : RateLimiterRwMixThreads := ⟨50, 2, 1, 4096, by decide⟩

/-- Both readers pass the check before one of them adds its block. -/
def bothPass : List (BalanceAction twoReaders) :=
  [.enter (0 : Fin 3) 4096, .loadOther (0 : Fin 3), .loadOwn (0 : Fin 3), .enter (1 : Fin 3) 4096,
    .loadOther (1 : Fin 3), .loadOwn (1 : Fin 3), .check (0 : Fin 3), .check (1 : Fin 3),
    .add (0 : Fin 3)]

theorem balance_bounded_bothPass :
    ∃ s : RwMixBalance twoReaders, Reach step Undisturbed start s ∧
      s.admittedBytes .read = 8192 ∧
      s.admittedBytes .read ≤ twoReaders.allowed s.numBytes .read + 8192 := by
  have hrun : (runTrace (checkedStep step Undisturbed) start bothPass).map
      (fun s => s.admittedBytes .read) = some 8192 := by decide +kernel
  obtain ⟨s, hs, hadmitted⟩ := Option.map_eq_some_iff.mp hrun
  have hreach := reach_of_runTrace_checked step Undisturbed bothPass hs
  exact ⟨s, hreach, hadmitted, (balance_bounded twoReaders).2 s hreach .read⟩

/-! ## The counters of a phase -/

/-- The counters are the sums of the blocks that were admitted in the phase. -/
def CoversPhase (s : RwMixBalance c) : Prop := ∀ side, s.numBytes side = s.admittedInPhase side

/-- A phase starts with counters at 0, a counter is zeroed only while no block of its side was
admitted in the phase, and the sums do not overflow. -/
def ZeroedBefore (s : RwMixBalance c) : BalanceAction c → Prop
  | .startPhase => ∀ side, s.numBytes side = 0
  | .zeroRead _ => s.admittedInPhase .read = 0
  | .zeroWrite _ => s.admittedInPhase .write = 0
  | .add t => s.numBytes (sideOf t) + (s.pc t).pending < Word64.size
  | _ => True

/-- A new process: the counters are 0, and no phase has started. -/
def begin : RwMixBalance c := ⟨fun _ => 0, fun _ => 0, fun _ => .outside⟩

section Phase

variable {s s' : RwMixBalance c} {a : BalanceAction c} {side : RwSide}

theorem coversPhase_zero_iff (hs : s.CoversPhase) :
    (s.zero side).CoversPhase ↔ s.admittedInPhase side = 0 := by
  constructor
  · intro h
    have hside := h side
    change Function.update s.numBytes side 0 side = s.admittedInPhase side at hside
    rw [Function.update_self] at hside
    exact hside.symm
  · intro hzero other
    change Function.update s.numBytes side 0 other = s.admittedInPhase other
    by_cases hother : other = side
    · rw [hother, Function.update_self, hzero]
    · rw [Function.update_of_ne hother]
      exact hs other

theorem CoversPhase.addBlock (hs : s.CoversPhase) {nextBlockSize : ℕ}
    (hlt : s.numBytes side + nextBlockSize < Word64.size) :
    (s.addBlock side nextBlockSize).CoversPhase := by
  intro other
  change Function.update s.numBytes side _ other = Function.update s.admittedInPhase side _ other
  by_cases hother : other = side
  · rw [hother, Function.update_self, Function.update_self, Word64.add_eq hlt, hs side]
  · rw [Function.update_of_ne hother, Function.update_of_ne hother]
    exact hs other

/-- The places of the threads do not matter. -/
theorem CoversPhase.goto (hs : s.CoversPhase)
    (t : Fin (c.numReaderThreads + c.numWriterThreads)) (pc : BalancePc) :
    (s.goto t pc).CoversPhase := hs

theorem CoversPhase.step (hs : s.CoversPhase) (hok : ZeroedBefore s a)
    (h : step s a = some s') : s'.CoversPhase := by
  cases a with
  | startPhase =>
    obtain ⟨-, hs'⟩ := Option.ite_none_right_eq_some.mp h
    cases hs'
    exact hok
  | zeroRead t =>
    obtain ⟨-, hs'⟩ := Option.ite_none_right_eq_some.mp h
    cases hs'
    exact ((coversPhase_zero_iff hs).mpr hok).goto t _
  | zeroWrite t =>
    obtain ⟨-, hs'⟩ := Option.ite_none_right_eq_some.mp h
    cases hs'
    exact ((coversPhase_zero_iff hs).mpr hok).goto t _
  | endPass t =>
    obtain ⟨-, hs'⟩ := Option.ite_none_right_eq_some.mp h
    cases hs'
    exact hs.goto t _
  | enter t nextBlockSize =>
    obtain ⟨-, hs'⟩ := Option.ite_none_right_eq_some.mp h
    cases hs'
    exact hs.goto t _
  | add t =>
    simp only [RwMixBalance.step] at h
    split at h
    next nextBlockSize hpc =>
      cases h
      rw [ZeroedBefore, hpc] at hok
      exact (hs.addBlock hok).goto t _
    next => cases h
  | check t =>
    simp only [RwMixBalance.step] at h
    split at h
    next =>
      split at h
      next => cases h; exact hs.goto t _
      next => cases h; exact hs.goto t _
    next => cases h
  | loadOther t =>
    simp only [RwMixBalance.step] at h
    split at h
    next => cases h; exact hs.goto t _
    next => cases h
  | loadOwn t =>
    simp only [RwMixBalance.step] at h
    split at h
    next => cases h; exact hs.goto t _
    next => cases h
  | retry t =>
    simp only [RwMixBalance.step] at h
    split at h
    next => cases h; exact hs.goto t _
    next => cases h
  | giveUp t =>
    simp only [RwMixBalance.step] at h
    split at h
    next => cases h; exact hs.goto t _
    next => cases h

/-- **The counters cover the phase** in every state of every run in which they are zeroed only
before the first block of a phase. -/
theorem counters_cover_phase (c : RateLimiterRwMixThreads) (s : RwMixBalance c)
    (h : Reach step ZeroedBefore begin s) (side : RwSide) :
    s.numBytes side = s.admittedInPhase side := by
  have hs : s.CoversPhase := by
    refine h.invariant (fun _ => rfl) fun u a v hu hok hv => ?_
    exact CoversPhase.step hu hok hv
  exact hs side

end Phase

/-- A thread enters the phase. -/
def enterPhase (t : Fin 3) : List (BalanceAction twoReaders) := [.zeroRead t, .zeroWrite t]

/-- A thread gets a block admitted. -/
def admitBlock (t : Fin 3) (nextBlockSize : ℕ) : List (BalanceAction twoReaders) :=
  [.enter t nextBlockSize, .loadOther t, .loadOwn t, .check t, .add t]

instance (s : RwMixBalance c) (a : BalanceAction c) : Decidable (ZeroedBefore s a) := by
  cases a <;> unfold ZeroedBefore <;> infer_instance

theorem counters_cover_phase_allEntered :
    ∃ s : RwMixBalance twoReaders, Reach step ZeroedBefore begin s ∧ s.numBytes .read = 4096 ∧
      s.admittedInPhase .read = 4096 := by
  have hrun : (runTrace (checkedStep step ZeroedBefore) begin
      ([.startPhase] ++ enterPhase 0 ++ enterPhase 1 ++ enterPhase 2 ++ admitBlock 0 4096)).map
      (fun s => s.numBytes .read) = some 4096 := by decide +kernel
  obtain ⟨s, hs, hbytes⟩ := Option.map_eq_some_iff.mp hrun
  have hreach := reach_of_runTrace_checked step ZeroedBefore _ hs
  exact ⟨s, hreach, hbytes, (counters_cover_phase twoReaders s hreach .read).symm.trans hbytes⟩

/-- A thread that enters late zeroes what was counted before. -/
theorem late_thread_zeroes :
    ∃ s : RwMixBalance twoReaders,
      runTrace step begin ([.startPhase] ++ enterPhase 0 ++ admitBlock 0 4096 ++ enterPhase 2) =
        some s ∧ s.admittedInPhase .read = 4096 ∧ s.numBytes .read = 0 :=
  ⟨_, rfl, rfl, rfl⟩

end RwMixBalance

end Elbencho
