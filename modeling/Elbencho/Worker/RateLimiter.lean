import Mathlib.Algebra.Order.Archimedean.Real.Basic
import Mathlib.Algebra.Order.BigOperators.Group.List
import Mathlib.Algebra.Order.Floor.Semifield
import Elbencho.Library.Transition
import Elbencho.Library.Word64
import Elbencho.Worker.RwBlockSized

/-!
# The rate limit of a thread

With `--limitread` and `--limitwrite` a worker asks a `RateLimiter` before each I/O.  The limiter
counts the bytes of the current second.  If the next I/O would exceed the limit, it sleeps until
the second is over, and a second that is over makes room for a new one.  Nothing ties the seconds
of the limiter to those of the clock: the next one starts when the first I/O after the last one
asks.

`LimiterRun` is one phase of one worker.  Clock readings come with the steps, and all that is
known of them is that they do not decrease and that a sleep is over at its deadline.  With
`--infloop` the worker goes through its work again and again, and each pass calls
`initPhaseFunctionPointers`, which starts the limiter anew.

A run is `Limited` if in the first `t` seconds of the phase the limiter has admitted at most
`⌊t⌋ + 1` times the limit.  The seconds of the limiter that have ended carry the proof: there are
`k` of them only if the current one started `k` seconds after the phase, and each has admitted at
most the limit.

* **`limited_iff`**: a run is limited if each further pass starts after the second of the limiter
  is over, or before anything was admitted in it, and if the counter does not overflow.  All runs
  of a configuration are limited exactly if it does not loop and twice the limit is a word.
* `notLimited_passes`: two passes of 1 MiB within a millisecond, at a limit of 1 MiB.
-/

namespace Elbencho

open Transition

/-! ## The limiter -/

/-- A second of the steady clock, which counts nanoseconds. -/
def nanosPerSec : ℕ := 1000000000

theorem nanosPerSec_pos : 0 < nanosPerSec := by decide

/-- The fields of `RateLimiter`. -/
structure RateLimiter where
  limitPerSec : ℕ
  numDoneThisSec : ℕ
  startT : ℕ
  deriving DecidableEq

namespace RateLimiter

/-- `initStart`, which reads the clock once. -/
def initStart (limitPerSec nowT : ℕ) : RateLimiter := ⟨limitPerSec, 0, nowT⟩

/-- The cast to microseconds truncates. -/
def elapsedMicroSec (l : RateLimiter) (nowT : ℕ) : ℕ := (nowT - l.startT) / 1000

/-- A whole second has passed. -/
def SecElapsed (l : RateLimiter) (nowT : ℕ) : Prop := 1000000 ≤ l.elapsedMicroSec nowT

/-- The next I/O would exceed the limit. -/
def Exceeds (l : RateLimiter) (nextSize : ℕ) : Prop :=
  l.limitPerSec < Word64.add l.numDoneThisSec nextSize

instance (l : RateLimiter) (nowT : ℕ) : Decidable (l.SecElapsed nowT) :=
  inferInstanceAs (Decidable (_ ≤ _))

instance (l : RateLimiter) (nextSize : ℕ) : Decidable (l.Exceeds nextSize) :=
  inferInstanceAs (Decidable (_ < _))

/-- `wait`: the limiter afterwards, and whether it had to wait.  The call reads the clock at `nowT`
and returns at `returnT`; where a new second starts, that is the second reading. -/
def wait (l : RateLimiter) (nextSize nowT returnT : ℕ) : RateLimiter × Bool :=
  if l.SecElapsed nowT then ({ l with numDoneThisSec := nextSize, startT := returnT }, false)
  else if l.Exceeds nextSize then
    -- `sleep_until` the end of the second
    ({ l with numDoneThisSec := nextSize, startT := returnT }, true)
  else ({ l with numDoneThisSec := Word64.add l.numDoneThisSec nextSize }, false)

/-- What the clock can show during a call: it does not go back, and a sleep ends at or after its
deadline. -/
def Readings (l : RateLimiter) (nextSize nowT returnT : ℕ) : Prop :=
  nowT ≤ returnT ∧
    (¬ l.SecElapsed nowT → l.Exceeds nextSize → l.startT + nanosPerSec ≤ returnT)

instance (l : RateLimiter) (nextSize nowT returnT : ℕ) :
    Decidable (l.Readings nextSize nowT returnT) := inferInstanceAs (Decidable (_ ∧ _))

theorem secElapsed_iff (l : RateLimiter) {nowT : ℕ} (h : l.startT ≤ nowT) :
    l.SecElapsed nowT ↔ l.startT + nanosPerSec ≤ nowT := by
  rw [SecElapsed, elapsedMicroSec, nanosPerSec, Nat.le_div_iff_mul_le (by decide)]
  omega

/-- No second has passed at its start. -/
theorem not_secElapsed_startT (limitPerSec numDoneThisSec time : ℕ) :
    ¬ (⟨limitPerSec, numDoneThisSec, time⟩ : RateLimiter).SecElapsed time := by
  rw [secElapsed_iff _ (le_refl time)]
  show ¬ time + nanosPerSec ≤ time
  have := nanosPerSec_pos
  omega

/-- **The two ways through `wait`**: a new second starts, a whole one after the last, or the I/O
still fits into the current one. -/
theorem wait_cases (l : RateLimiter) {nextSize nowT returnT : ℕ} (hstart : l.startT ≤ nowT)
    (hclock : l.Readings nextSize nowT returnT) :
    (l.startT + nanosPerSec ≤ returnT ∧
      (l.wait nextSize nowT returnT).1 = ⟨l.limitPerSec, nextSize, returnT⟩) ∨
    (Word64.add l.numDoneThisSec nextSize ≤ l.limitPerSec ∧
      (l.wait nextSize nowT returnT).1 =
        ⟨l.limitPerSec, Word64.add l.numDoneThisSec nextSize, l.startT⟩) := by
  obtain ⟨hle, hsleep⟩ := hclock
  unfold wait
  split_ifs with hsec hexceeds
  · exact Or.inl ⟨le_trans ((l.secElapsed_iff hstart).mp hsec) hle, rfl⟩
  · exact Or.inl ⟨hsleep hsec hexceeds, rfl⟩
  · exact Or.inr ⟨not_lt.mp hexceeds, rfl⟩

end RateLimiter

/-! ## Which limiter a worker uses -/

/-- What `funcRWRateLimiter` points to. -/
inductive RwRateLimiter where
  | preRwRateBalanceLimiterForWriters
  | preRwRateBalanceLimiterForReaders
  | preRwRateLimiter (limitPerSec : ℕ)
  | noOpRateLimiter
  deriving DecidableEq

/-- What the choice of the limiter and the loop over the passes read of the arguments. -/
structure RateLimitArgs where
  limitWriteBps : ℕ
  limitReadBps : ℕ
  numRwMixReadThreads : ℕ
  rwMixThreadsReadPercent : ℕ
  doInfiniteIoLoop : Bool
  limitWriteBps_lt : limitWriteBps < Word64.size
  limitReadBps_lt : limitReadBps < Word64.size

namespace RateLimitArgs

variable (a : RateLimitArgs)

/-- The limiter that `initPhaseFunctionPointers` chooses for a worker in `benchPhase`. -/
def initRwRateLimiter (benchPhase globalBenchPhase : BenchPhase) : RwRateLimiter :=
  if benchPhase = .createFiles then
    if a.numRwMixReadThreads ≠ 0 ∧ a.rwMixThreadsReadPercent ≠ 0 then
      .preRwRateBalanceLimiterForWriters
    else if a.limitWriteBps ≠ 0 then .preRwRateLimiter a.limitWriteBps
    else .noOpRateLimiter
  else
    if a.numRwMixReadThreads ≠ 0 ∧ a.rwMixThreadsReadPercent ≠ 0 ∧
        globalBenchPhase = .createFiles then
      .preRwRateBalanceLimiterForReaders
    else if a.limitReadBps ≠ 0 then .preRwRateLimiter a.limitReadBps
    else .noOpRateLimiter

variable {a} {benchPhase globalBenchPhase : BenchPhase} {limit : ℕ}

/-- A limit that is in force is a positive word. -/
theorem limit_bounds
    (h : a.initRwRateLimiter benchPhase globalBenchPhase = .preRwRateLimiter limit) :
    0 < limit ∧ limit < Word64.size := by
  have hwrite := a.limitWriteBps_lt
  have hread := a.limitReadBps_lt
  unfold initRwRateLimiter at h
  split_ifs at h with _ _ hne _ hne
  · obtain rfl := RwRateLimiter.preRwRateLimiter.inj h
    exact ⟨Nat.pos_of_ne_zero hne, hwrite⟩
  · obtain rfl := RwRateLimiter.preRwRateLimiter.inj h
    exact ⟨Nat.pos_of_ne_zero hne, hread⟩

end RateLimitArgs

/-! ## A phase -/

/-- A worker in a phase: its limiter, the last clock reading, and the time and size of each I/O
that was admitted, the last one first. -/
structure LimiterRun where
  limiter : RateLimiter
  clock : ℕ
  admitted : List (ℕ × ℕ)
  deriving DecidableEq

/-- An I/O asks the limiter, or the next pass of the infinite loop starts. -/
inductive LimiterAction where
  | io (nextSize nowT returnT : ℕ)
  | nextPass (nowT : ℕ)

namespace LimiterRun

/-- The first pass has set up its limiter. -/
def start (limit firstT : ℕ) : LimiterRun := ⟨.initStart limit firstT, firstT, []⟩

/-- I/Os have at most the limit, and there is a further pass only in the infinite loop. -/
def step (doInfiniteIoLoop : Bool) (limit : ℕ) (s : LimiterRun) :
    LimiterAction → Option LimiterRun
  | .io nextSize nowT returnT =>
    if nextSize ≤ limit ∧ s.clock ≤ nowT ∧ s.limiter.Readings nextSize nowT returnT then
      some ⟨(s.limiter.wait nextSize nowT returnT).1, returnT, (returnT, nextSize) :: s.admitted⟩
    else none
  | .nextPass nowT =>
    if doInfiniteIoLoop = true ∧ s.clock ≤ nowT then
      some ⟨.initStart limit nowT, nowT, s.admitted⟩
    else none

/-- The bytes that were admitted until a time. -/
def bytesUntil (s : LimiterRun) (time : ℕ) : ℕ :=
  ((s.admitted.filter fun io => io.1 ≤ time).map Prod.snd).sum

/-- All bytes that were admitted. -/
def bytes (s : LimiterRun) : ℕ := (s.admitted.map Prod.snd).sum

/-- **The rate limit**, over the first `t` seconds for every `t`. -/
def Limited (s : LimiterRun) (limit firstT : ℕ) : Prop :=
  ∀ t : ℝ, 0 ≤ t → s.bytesUntil (firstT + ⌊t * nanosPerSec⌋₊) ≤ limit * (⌊t⌋₊ + 1)

/-- The counter does not overflow, and a pass starts after the second of the limiter is over or
before anything was admitted in it. -/
def KeepsLimit (s : LimiterRun) : LimiterAction → Prop
  | .io nextSize _ _ => s.limiter.numDoneThisSec + nextSize < Word64.size
  | .nextPass nowT =>
    s.limiter.numDoneThisSec = 0 ∨ s.limiter.startT + nanosPerSec ≤ nowT

instance (s : LimiterRun) (action : LimiterAction) : Decidable (s.KeepsLimit action) :=
  match action with
  | .io _ _ _ => inferInstanceAs (Decidable (_ < _))
  | .nextPass _ => inferInstanceAs (Decidable (_ ∨ _))

theorem bytesUntil_le_bytes (s : LimiterRun) (time : ℕ) : s.bytesUntil time ≤ s.bytes :=
  (List.filter_sublist.map Prod.snd).sum_le_sum fun _ _ => Nat.zero_le _

/-- Limits in seconds are limits in nanoseconds. -/
theorem limited_iff_nanos {s : LimiterRun} {limit firstT : ℕ} :
    s.Limited limit firstT ↔
      ∀ n, s.bytesUntil (firstT + n) ≤ limit * (n / nanosPerSec + 1) := by
  have hpos : (0 : ℝ) < (nanosPerSec : ℝ) := Nat.cast_pos.mpr nanosPerSec_pos
  constructor
  · intro h n
    have hn := h ((n : ℝ) / (nanosPerSec : ℝ)) (by positivity)
    rwa [div_mul_cancel₀ _ hpos.ne', Nat.floor_natCast, Nat.floor_div_eq_div] at hn
  · intro h t _
    have hfloor : ⌊t * (nanosPerSec : ℝ)⌋₊ / nanosPerSec = ⌊t⌋₊ := by
      rw [← Nat.floor_div_natCast, mul_div_cancel_right₀ _ hpos.ne']
    have ht := h ⌊t * (nanosPerSec : ℝ)⌋₊
    rwa [hfloor] at ht

/-! ### The invariant -/

/-- `k` seconds of the limiter have ended, and each has admitted at most the limit. -/
structure Seconds (limit firstT : ℕ) (s : LimiterRun) (k : ℕ) : Prop where
  limitPerSec : s.limiter.limitPerSec = limit
  started : firstT + k * nanosPerSec ≤ s.limiter.startT
  startT_le : s.limiter.startT ≤ s.clock
  numDone_le : s.limiter.numDoneThisSec ≤ limit
  bytes_le : s.bytes ≤ k * limit + s.limiter.numDoneThisSec

/-- What holds in every state of a run that keeps the limit. -/
def Inv (limit firstT : ℕ) (s : LimiterRun) : Prop :=
  (∃ k, s.Seconds limit firstT k) ∧
    ∀ n, s.bytesUntil (firstT + n) ≤ limit * (n / nanosPerSec + 1)

theorem inv_start (limit firstT : ℕ) : (start limit firstT).Inv limit firstT := by
  refine ⟨⟨0, rfl, ?_, le_rfl, Nat.zero_le _, Nat.zero_le _⟩, fun n => Nat.zero_le _⟩
  show firstT + 0 * nanosPerSec ≤ firstT
  omega

variable {doInfiniteIoLoop : Bool} {limit firstT : ℕ} {s s' : LimiterRun}

/-- All bytes together keep the limit of every time from the current second on. -/
theorem Seconds.bytes_le_of_startT_le {k n : ℕ} (h : s.Seconds limit firstT k)
    (hn : s.limiter.startT ≤ firstT + n) : s.bytes ≤ limit * (n / nanosPerSec + 1) := by
  have hk : k ≤ n / nanosPerSec := by
    rw [Nat.le_div_iff_mul_le nanosPerSec_pos]
    have := h.started
    omega
  calc s.bytes ≤ k * limit + s.limiter.numDoneThisSec := h.bytes_le
    _ ≤ k * limit + limit := Nat.add_le_add_left h.numDone_le _
    _ = limit * (k + 1) := by rw [Nat.mul_add, Nat.mul_one, Nat.mul_comm]
    _ ≤ limit * (n / nanosPerSec + 1) := Nat.mul_le_mul_left _ (Nat.add_le_add_right hk 1)

/-- An admitted I/O belongs to the current second or starts the next one. -/
theorem Seconds.io {k nextSize nowT returnT : ℕ} (h : s.Seconds limit firstT k)
    (hsize : nextSize ≤ limit) (hnow : s.clock ≤ nowT)
    (hclock : s.limiter.Readings nextSize nowT returnT)
    (hfits : s.limiter.numDoneThisSec + nextSize < Word64.size) :
    ∃ k', Seconds limit firstT ⟨(s.limiter.wait nextSize nowT returnT).1, returnT,
      (returnT, nextSize) :: s.admitted⟩ k' := by
  have hbytes := h.bytes_le
  have hdone := h.numDone_le
  have hstarted := h.started
  have hstart := le_trans h.startT_le hnow
  have hreturn := hclock.1
  have hsum : LimiterRun.bytes ⟨(s.limiter.wait nextSize nowT returnT).1, returnT,
      (returnT, nextSize) :: s.admitted⟩ = nextSize + s.bytes := by
    simp only [LimiterRun.bytes, List.map_cons, List.sum_cons]
  rcases s.limiter.wait_cases hstart hclock with ⟨hover, hwait⟩ | ⟨hadd, hwait⟩
  · -- the second has ended with at most the limit, and the I/O is alone in the next one
    refine ⟨k + 1, ?_, ?_, ?_, ?_, ?_⟩
    · rw [hwait]
      exact h.limitPerSec
    · rw [hwait]
      show firstT + (k + 1) * nanosPerSec ≤ returnT
      rw [Nat.add_mul, Nat.one_mul]
      omega
    · rw [hwait]
    · rw [hwait]
      exact hsize
    · rw [hsum, hwait, Nat.add_mul, Nat.one_mul]
      show nextSize + s.bytes ≤ k * limit + limit + nextSize
      omega
  · rw [Word64.add_eq hfits] at hadd hwait
    refine ⟨k, ?_, ?_, ?_, ?_, ?_⟩
    · rw [hwait]
      exact h.limitPerSec
    · rw [hwait]
      exact hstarted
    · rw [hwait]
      exact le_trans hstart hreturn
    · rw [hwait, ← h.limitPerSec]
      exact hadd
    · rw [hsum, hwait]
      show nextSize + s.bytes ≤ k * limit + (s.limiter.numDoneThisSec + nextSize)
      omega

/-- A pass that starts in time only moves the current second, or ends it. -/
theorem Seconds.nextPass {k nowT : ℕ} (h : s.Seconds limit firstT k) (hnow : s.clock ≤ nowT)
    (hkeeps : s.limiter.numDoneThisSec = 0 ∨ s.limiter.startT + nanosPerSec ≤ nowT) :
    ∃ k', Seconds limit firstT ⟨.initStart limit nowT, nowT, s.admitted⟩ k' := by
  have hbytes := h.bytes_le
  have hdone := h.numDone_le
  have hstarted := h.started
  have hstart := h.startT_le
  rcases hkeeps with hzero | hover
  · refine ⟨k, rfl, ?_, le_rfl, Nat.zero_le _, ?_⟩
    · show firstT + k * nanosPerSec ≤ nowT
      omega
    · show s.bytes ≤ k * limit + 0
      omega
  · refine ⟨k + 1, rfl, ?_, le_rfl, Nat.zero_le _, ?_⟩
    · show firstT + (k + 1) * nanosPerSec ≤ nowT
      rw [Nat.add_mul, Nat.one_mul]
      omega
    · show s.bytes ≤ (k + 1) * limit + 0
      rw [Nat.add_mul, Nat.one_mul]
      omega

/-- **One step.** -/
theorem Inv.step {action : LimiterAction} (h : s.Inv limit firstT) (hkeeps : s.KeepsLimit action)
    (hstep : s.step doInfiniteIoLoop limit action = some s') : s'.Inv limit firstT := by
  obtain ⟨⟨k, hsec⟩, hlimited⟩ := h
  cases action with
  | io nextSize nowT returnT =>
    rw [LimiterRun.step] at hstep
    split_ifs at hstep with hcond
    obtain ⟨hsize, hnow, hclock⟩ := hcond
    obtain rfl := Option.some.inj hstep
    obtain ⟨k', hsec'⟩ := hsec.io hsize hnow hclock hkeeps
    refine ⟨⟨k', hsec'⟩, fun n => ?_⟩
    by_cases hlate : returnT ≤ firstT + n
    · exact le_trans (bytesUntil_le_bytes _ _)
        (hsec'.bytes_le_of_startT_le (le_trans hsec'.startT_le hlate))
    · -- the I/O comes later
      rw [bytesUntil, List.filter_cons_of_neg (by simpa using hlate)]
      exact hlimited n
  | nextPass nowT =>
    rw [LimiterRun.step] at hstep
    split_ifs at hstep with hcond
    obtain rfl := Option.some.inj hstep
    exact ⟨hsec.nextPass hcond.2 hkeeps, hlimited⟩

/-- Without further passes, and with room for twice the limit, every step keeps the limit. -/
theorem Inv.keepsLimit {action : LimiterAction} (h : s.Inv limit firstT)
    (hloop : doInfiniteIoLoop = false) (htwice : 2 * limit < Word64.size)
    (hstep : s.step doInfiniteIoLoop limit action = some s') : s.KeepsLimit action := by
  obtain ⟨⟨k, hsec⟩, -⟩ := h
  cases action with
  | io nextSize nowT returnT =>
    rw [LimiterRun.step] at hstep
    split_ifs at hstep with hcond
    have hdone := hsec.numDone_le
    show s.limiter.numDoneThisSec + nextSize < Word64.size
    omega
  | nextPass nowT =>
    rw [LimiterRun.step, hloop] at hstep
    simp at hstep

/-! ### Runs that exceed the limit -/

/-- The first I/O of the limit's size, without delay. -/
theorem step_first (doInfiniteIoLoop : Bool) {limit : ℕ} (hlt : limit < Word64.size)
    (time : ℕ) (admitted : List (ℕ × ℕ)) :
    (⟨.initStart limit time, time, admitted⟩ : LimiterRun).step doInfiniteIoLoop limit
        (.io limit time time) =
      some ⟨⟨limit, limit, time⟩, time, (time, limit) :: admitted⟩ := by
  have hsec : ¬ (RateLimiter.initStart limit time).SecElapsed time :=
    RateLimiter.not_secElapsed_startT limit 0 time
  have hadd : Word64.add 0 limit = limit := by rw [Word64.add_eq (by omega), Nat.zero_add]
  have hexceeds : ¬ (RateLimiter.initStart limit time).Exceeds limit := by
    show ¬ limit < Word64.add 0 limit
    rw [hadd]
    exact lt_irrefl limit
  rw [step, if_pos ⟨le_rfl, le_rfl, le_rfl, fun _ h => absurd h hexceeds⟩, RateLimiter.wait,
    if_neg hsec, if_neg hexceeds]
  show some (LimiterRun.mk ⟨limit, Word64.add 0 limit, time⟩ _ _) = _
  rw [hadd]

/-- Twice the limit at the start is too much. -/
theorem not_limited_of_twice (limiter : RateLimiter) (clock : ℕ) (hpos : 0 < limit) :
    ¬ (⟨limiter, clock, [(firstT, limit), (firstT, limit)]⟩ : LimiterRun).Limited limit firstT := by
  intro h
  have hzero := limited_iff_nanos.mp h 0
  have hbytes : (⟨limiter, clock, [(firstT, limit), (firstT, limit)]⟩ : LimiterRun).bytesUntil
      (firstT + 0) = limit + limit := by
    simp [bytesUntil]
  rw [hbytes, Nat.zero_div, Nat.zero_add, Nat.mul_one] at hzero
  omega

/-- A second pass admits the limit again. -/
theorem exists_not_limited_of_loop (hpos : 0 < limit) (hlt : limit < Word64.size) (firstT : ℕ) :
    ∃ s, Reach (LimiterRun.step true limit) anyStep (start limit firstT) s ∧
      ¬ s.Limited limit firstT := by
  refine ⟨_, ?_, not_limited_of_twice ⟨limit, limit, firstT⟩ firstT hpos⟩
  have hfirst : Reach (LimiterRun.step true limit) anyStep (start limit firstT) _ :=
    (Reach.refl _).tail trivial (step_first true hlt firstT [])
  have hpass : LimiterRun.step true limit ⟨⟨limit, limit, firstT⟩, firstT, [(firstT, limit)]⟩
      (.nextPass firstT) = some ⟨.initStart limit firstT, firstT, [(firstT, limit)]⟩ := by
    rw [step, if_pos ⟨rfl, le_rfl⟩]
  exact (hfirst.tail trivial hpass).tail trivial
    (step_first true hlt firstT [(firstT, limit)])

/-- A counter that overflows admits the limit again. -/
theorem exists_not_limited_of_overflow (doInfiniteIoLoop : Bool) (hlt : limit < Word64.size)
    (htwice : Word64.size ≤ 2 * limit) (firstT : ℕ) :
    ∃ s, Reach (LimiterRun.step doInfiniteIoLoop limit) anyStep (start limit firstT) s ∧
      ¬ s.Limited limit firstT := by
  have hpos : 0 < limit := by
    have := Word64.size_pos
    omega
  have hadd : Word64.add limit limit = limit + limit - Word64.size :=
    Word64.add_eq_sub (by omega) hlt hlt
  have hsec := RateLimiter.not_secElapsed_startT limit limit firstT
  have hexceeds : ¬ (RateLimiter.mk limit limit firstT).Exceeds limit := by
    show ¬ limit < Word64.add limit limit
    rw [hadd]
    omega
  refine ⟨_, ?_, not_limited_of_twice ⟨limit, Word64.add limit limit, firstT⟩ firstT hpos⟩
  refine ((Reach.refl _).tail trivial
    (step_first doInfiniteIoLoop hlt firstT [])).tail trivial
      (a := .io limit firstT firstT) ?_
  rw [step, if_pos ⟨le_rfl, le_rfl, le_rfl, fun _ h => absurd h hexceeds⟩, RateLimiter.wait,
    if_neg hsec, if_neg hexceeds]

/-! ### The rate limit -/

/-- **Main statement.**  Whatever limit is in force, a run keeps it if the counter does not
overflow and each further pass starts after the second of the limiter is over, or before anything
was admitted in it.  All runs keep it exactly if there is no infinite loop and twice the limit is
a word. -/
theorem limited_iff (a : RateLimitArgs) (benchPhase globalBenchPhase : BenchPhase)
    (limit firstT : ℕ)
    (hlimit : a.initRwRateLimiter benchPhase globalBenchPhase = .preRwRateLimiter limit) :
    (∀ s, Reach (LimiterRun.step a.doInfiniteIoLoop limit) KeepsLimit (start limit firstT) s →
      s.Limited limit firstT) ∧
    ((∀ s, Reach (LimiterRun.step a.doInfiniteIoLoop limit) anyStep (start limit firstT) s →
      s.Limited limit firstT) ↔ a.doInfiniteIoLoop = false ∧ 2 * limit < Word64.size) := by
  obtain ⟨hpos, hlt⟩ := RateLimitArgs.limit_bounds hlimit
  refine ⟨fun s hs => ?_, fun hall => ?_, fun hcond s hs => ?_⟩
  · exact limited_iff_nanos.mpr (hs.invariant (inv_start limit firstT)
      fun u i v hu hkeeps hstep => hu.step hkeeps hstep).2
  · constructor
    · by_contra hloop
      rw [Bool.not_eq_false] at hloop
      obtain ⟨s, hs, hnot⟩ := exists_not_limited_of_loop hpos hlt firstT
      rw [hloop] at hall
      exact hnot (hall s hs)
    · by_contra htwice
      obtain ⟨s, hs, hnot⟩ := exists_not_limited_of_overflow a.doInfiniteIoLoop hlt
        (not_lt.mp htwice) firstT
      exact hnot (hall s hs)
  · exact limited_iff_nanos.mpr (hs.invariant (inv_start limit firstT)
      fun u i v hu _ hstep => hu.step (hu.keepsLimit hcond.1 hcond.2 hstep) hstep).2

end LimiterRun

/-! ### Passes within one second -/

/-- A write limit of 1 MiB per second in an infinite loop. -/
def loopingWriter : RateLimitArgs where
  limitWriteBps := 1048576
  limitReadBps := 0
  numRwMixReadThreads := 0
  rwMixThreadsReadPercent := 0
  doInfiniteIoLoop := true
  limitWriteBps_lt := by decide
  limitReadBps_lt := Word64.size_pos

/-- Two passes of 1 MiB, the second one a second later. -/
theorem limited_iff_slowPasses :
    ∃ s, Reach (LimiterRun.step true 1048576) LimiterRun.KeepsLimit
      (LimiterRun.start 1048576 0) s ∧
      s.admitted = [(1000000000, 1048576), (0, 1048576)] ∧ s.Limited 1048576 0 := by
  have hs : Reach (LimiterRun.step true 1048576) LimiterRun.KeepsLimit
      (LimiterRun.start 1048576 0)
      ⟨⟨1048576, 1048576, 1000000000⟩, 1000000000, [(1000000000, 1048576), (0, 1048576)]⟩ :=
    reach_of_runTrace_checked _ _
      [.io 1048576 0 0, .nextPass 1000000000, .io 1048576 1000000000 1000000000]
      (by decide +kernel)
  exact ⟨_, hs, rfl,
    (LimiterRun.limited_iff loopingWriter .createFiles .createFiles 1048576 0 rfl).1 _ hs⟩

/-- **Two passes of 1 MiB within a millisecond**, at a limit of 1 MiB per second. -/
theorem notLimited_passes :
    loopingWriter.initRwRateLimiter .createFiles .createFiles = .preRwRateLimiter 1048576 ∧
    ∃ s, Reach (LimiterRun.step loopingWriter.doInfiniteIoLoop 1048576) anyStep
      (LimiterRun.start 1048576 0) s ∧
      s.admitted = [(1000000, 1048576), (0, 1048576)] ∧ ¬ s.Limited 1048576 0 := by
  have hs : Reach (LimiterRun.step true 1048576) _ (LimiterRun.start 1048576 0)
      ⟨⟨1048576, 1048576, 1000000⟩, 1000000, [(1000000, 1048576), (0, 1048576)]⟩ :=
    reach_of_runTrace (p := fun _ => True) _
      [.io 1048576 0 0, .nextPass 1000000, .io 1048576 1000000 1000000] (fun _ _ => trivial)
      (by decide +kernel)
  refine ⟨rfl, _, hs.weaken fun _ _ _ => trivial, rfl, fun h => ?_⟩
  -- 2 MiB within the first millisecond
  have hbytes := LimiterRun.limited_iff_nanos.mp h 1000000
  revert hbytes
  decide +kernel

end Elbencho
