import Mathlib.Algebra.BigOperators.Group.List.Basic
import Elbencho.Library.Transition
import Elbencho.Stats.LatencyHistogram

/-!
# The live latency of a histogram

Besides its buckets a histogram has two counters for the live statistics: the number of
latencies and their sum since the last live read.  `addLatency` of the worker increases one and
then the other, and `addAndResetAverageLiveMicroSec` of the thread that shows the statistics
loads both and then sets both to zero.  All six accesses are atomic, but nothing keeps the two
threads from taking turns in between.  The statistics of a worker are reset when a phase starts,
by `LatencyHistogram::reset`, which leaves these two counters as they are.

The machine has a step for each of the accesses.  Each latency that is added is recorded with
its phase, and each counter and each live read with the latencies that it contains.

* `numbers_of_reach`: the numbers in counters and live reads are those of these latencies.
* **`liveExact_of_reach`**: each latency is reported once and in its phase in all runs in which
  the accesses do not overlap and no phase starts before the latencies of the last one were
  read.
* `carriedOver_and_lost`: otherwise a latency of the phase before can be reported, and a latency
  can get lost.
-/

namespace Elbencho

open Transition

/-! ## The machine -/

/-- A latency that was added: its number, and the phase it was added in. -/
structure LiveValue where
  index : ℕ
  latencyMicroSec : UInt64
  phase : ℕ
  deriving DecidableEq

/-- A live read: what it found, and the latencies that are contained in that.  The latencies
`before` had been added when it began. -/
structure LiveRead where
  phase : ℕ
  numStoredValues : UInt64
  numMicroSecsTotal : UInt64
  before : List LiveValue
  counted : List LiveValue
  summed : List LiveValue
  deriving DecidableEq

/-- How far `addAndResetAverageLiveMicroSec` is. -/
inductive LiveReadPc where
  | idle
  | countLoaded (read : LiveRead)
  | totalLoaded (read : LiveRead)
  | countCleared (read : LiveRead)
  deriving DecidableEq

/-- The count was loaded and is not cleared yet. -/
def LiveReadPc.countPending : LiveReadPc → Bool
  | .countLoaded _ | .totalLoaded _ => true
  | _ => false

/-- The sum was loaded and is not cleared yet. -/
def LiveReadPc.totalPending : LiveReadPc → Bool
  | .totalLoaded _ | .countCleared _ => true
  | _ => false

/-- A histogram of a worker with its two live counters, the latencies that they contain, and
what has happened so far. -/
structure LiveRun where
  phase : ℕ
  numStoredValuesLive : UInt64
  numMicroSecsTotalLive : UInt64
  countLive : List LiveValue
  totalLive : List LiveValue
  /-- The latency that is counted but not yet in the sum. -/
  adding : Option LiveValue
  reader : LiveReadPc
  added : List LiveValue
  /-- The latencies that are completely added. -/
  finished : List LiveValue
  reads : List LiveRead
  deriving DecidableEq

inductive LiveAction where
  | incCount (latencyMicroSec : UInt64)
  | addTotal
  | loadCount
  | loadTotal
  | clearCount
  | clearTotal
  | startPhase
  deriving DecidableEq

namespace LiveRun

/-- A new histogram. -/
def start : LiveRun where
  phase := 0
  numStoredValuesLive := 0
  numMicroSecsTotalLive := 0
  countLive := []
  totalLive := []
  adding := none
  reader := .idle
  added := []
  finished := []
  reads := []

/-- The next latency. -/
def next (s : LiveRun) (latencyMicroSec : UInt64) : LiveValue :=
  ⟨s.added.length, latencyMicroSec, s.phase⟩

/-- `numStoredValuesLive++` -/
def incCount (s : LiveRun) (v : UInt64) : LiveRun :=
  { s with
    numStoredValuesLive := s.numStoredValuesLive + 1
    countLive := s.countLive ++ [s.next v]
    added := s.added ++ [s.next v]
    adding := some (s.next v) }

/-- `numMicroSecsTotalLive += latencyMicroSec` -/
def addTotal (s : LiveRun) (value : LiveValue) : LiveRun :=
  { s with
    numMicroSecsTotalLive := s.numMicroSecsTotalLive + value.latencyMicroSec
    totalLive := s.totalLive ++ [value]
    finished := s.finished ++ [value]
    adding := none }

/-- `outNumStoredValues += numStoredValuesLive` -/
def loadCount (s : LiveRun) : LiveRun :=
  { s with
    reader := .countLoaded ⟨s.phase, s.numStoredValuesLive, 0, s.finished, s.countLive, []⟩ }

/-- `outNumMicroSecsTotal += numMicroSecsTotalLive` -/
def loadTotal (s : LiveRun) (read : LiveRead) : LiveRun :=
  { s with
    reader := .totalLoaded { read with
      numMicroSecsTotal := s.numMicroSecsTotalLive
      summed := s.totalLive } }

/-- `numStoredValuesLive = 0` -/
def clearCount (s : LiveRun) (read : LiveRead) : LiveRun :=
  { s with
    numStoredValuesLive := 0
    countLive := []
    reader := .countCleared read }

/-- `numMicroSecsTotalLive = 0`, which ends the live read. -/
def clearTotal (s : LiveRun) (read : LiveRead) : LiveRun :=
  { s with
    numMicroSecsTotalLive := 0
    totalLive := []
    reader := .idle
    reads := s.reads ++ [read] }

/-- The reset of the statistics leaves the counters as they are. -/
def startPhase (s : LiveRun) : LiveRun := { s with phase := s.phase + 1 }

/-- A phase starts when the worker waits for it.  Live reads are made by the thread that starts
the phases, so none is going on then. -/
def step (s : LiveRun) : LiveAction → Option LiveRun
  | .incCount v => if s.adding = none then some (s.incCount v) else none
  | .addTotal => s.adding.map s.addTotal
  | .loadCount => if s.reader = .idle then some s.loadCount else none
  | .loadTotal => match s.reader with
    | .countLoaded read => some (s.loadTotal read)
    | _ => none
  | .clearCount => match s.reader with
    | .totalLoaded read => some (s.clearCount read)
    | _ => none
  | .clearTotal => match s.reader with
    | .countCleared read => some (s.clearTotal read)
    | _ => none
  | .startPhase => if s.adding = none ∧ s.reader = .idle then some s.startPhase else none

/-- What a step can do. -/
inductive Moves (s : LiveRun) : LiveAction → LiveRun → Prop
  | incCount (v : UInt64) (hidle : s.adding = none) : Moves s (.incCount v) (s.incCount v)
  | addTotal (value : LiveValue) (hadding : s.adding = some value) :
    Moves s .addTotal (s.addTotal value)
  | loadCount (hidle : s.reader = .idle) : Moves s .loadCount s.loadCount
  | loadTotal (read : LiveRead) (hread : s.reader = .countLoaded read) :
    Moves s .loadTotal (s.loadTotal read)
  | clearCount (read : LiveRead) (hread : s.reader = .totalLoaded read) :
    Moves s .clearCount (s.clearCount read)
  | clearTotal (read : LiveRead) (hread : s.reader = .countCleared read) :
    Moves s .clearTotal (s.clearTotal read)
  | startPhase (hadding : s.adding = none) (hidle : s.reader = .idle) :
    Moves s .startPhase s.startPhase

theorem moves_of_step {s t : LiveRun} {a : LiveAction} (hstep : s.step a = some t) :
    s.Moves a t := by
  cases a with
  | incCount v =>
    simp only [step] at hstep
    split_ifs at hstep with hidle
    cases hstep
    exact .incCount v hidle
  | addTotal =>
    obtain ⟨value, hadding, rfl⟩ := Option.map_eq_some_iff.mp hstep
    exact .addTotal value hadding
  | loadCount =>
    simp only [step] at hstep
    split_ifs at hstep with hidle
    cases hstep
    exact .loadCount hidle
  | loadTotal =>
    simp only [step] at hstep
    split at hstep <;> cases hstep
    exact .loadTotal _ ‹_›
  | clearCount =>
    simp only [step] at hstep
    split at hstep <;> cases hstep
    exact .clearCount _ ‹_›
  | clearTotal =>
    simp only [step] at hstep
    split at hstep <;> cases hstep
    exact .clearTotal _ ‹_›
  | startPhase =>
    simp only [step] at hstep
    split_ifs at hstep with hidle
    cases hstep
    exact .startPhase hidle.1 hidle.2

end LiveRun

/-! ## What a live read should report -/

/-- A latency is contained in the count and in the sum of one live read, and in no other. -/
def ContainedOnce (reads : List LiveRead) (value : LiveValue) : Prop :=
  ∃ pre read post, reads = pre ++ read :: post ∧
    read.counted.count value = 1 ∧ read.summed.count value = 1 ∧
    ∀ other ∈ pre ++ post, value ∉ other.counted ∧ value ∉ other.summed

/-- The numbers of a live read are those of the latencies that it contains. -/
def LiveRead.Numbers (read : LiveRead) : Prop :=
  read.numStoredValues = UInt64.ofNat read.counted.length ∧
    read.numMicroSecsTotal = (read.summed.map (·.latencyMicroSec)).sum

/-- Each latency is reported once, in its own phase. -/
structure LiveExact (s : LiveRun) : Prop where
  numbers : ∀ read ∈ s.reads, read.Numbers
  once : ∀ value ∈ s.added, ∀ read ∈ s.reads, read.phase = value.phase →
    value ∈ read.before → ContainedOnce s.reads value
  notLater : ∀ value ∈ s.added, ∀ read ∈ s.reads, value.phase < read.phase →
    value ∉ read.counted ∧ value ∉ read.summed

namespace LiveRun

/-- The accesses of the two threads do not overlap: the count is not increased between the load
of the count and its reset, nor the sum between the load of the sum and its reset; and the sum is
not loaded while a latency is in the count only.  When a phase starts, no latency was added
since the last live read. -/
def Undisturbed (s : LiveRun) : LiveAction → Prop
  | .incCount _ => s.reader.countPending = false
  | .addTotal => s.reader.totalPending = false
  | .loadTotal => s.adding = none
  | .startPhase => s.countLive = []
  | _ => True

instance (s : LiveRun) : (a : LiveAction) → Decidable (s.Undisturbed a)
  | .incCount _ => inferInstanceAs (Decidable (_ = _))
  | .addTotal => inferInstanceAs (Decidable (_ = _))
  | .loadTotal => inferInstanceAs (Decidable (_ = _))
  | .startPhase => inferInstanceAs (Decidable (_ = _))
  | .loadCount | .clearCount | .clearTotal => isTrue trivial

/-! ## The numbers -/

/-- The counters and all live reads have the numbers of the latencies that they contain. -/
structure Counters (s : LiveRun) : Prop where
  count : s.numStoredValuesLive = UInt64.ofNat s.countLive.length
  total : s.numMicroSecsTotalLive = (s.totalLive.map (·.latencyMicroSec)).sum
  reads : ∀ read ∈ s.reads, read.Numbers
  reader : match s.reader with
    | .idle => True
    | .countLoaded read => read.numStoredValues = UInt64.ofNat read.counted.length
    | .totalLoaded read | .countCleared read => read.Numbers

theorem counters_start : start.Counters := by
  refine ⟨rfl, rfl, ?_, trivial⟩
  intro read hread
  exact absurd hread List.not_mem_nil

theorem Counters.step {s t : LiveRun} {a : LiveAction} (h : s.Counters)
    (hstep : s.step a = some t) : t.Counters := by
  obtain ⟨hcount, htotal, hreads, hreader⟩ := h
  cases moves_of_step hstep with
  | incCount v hidle =>
    refine ⟨?_, htotal, hreads, hreader⟩
    rw [incCount, List.length_append, UInt64.ofNat_add, ← hcount]
    rfl
  | addTotal value hadding =>
    refine ⟨hcount, ?_, hreads, hreader⟩
    rw [addTotal, List.map_append, List.sum_append, ← htotal, List.map_singleton,
      List.sum_singleton]
  | loadCount hidle => exact ⟨hcount, htotal, hreads, hcount⟩
  | loadTotal read hread =>
    rw [hread] at hreader
    exact ⟨hcount, htotal, hreads, hreader, htotal⟩
  | clearCount read hread =>
    rw [hread] at hreader
    exact ⟨rfl, htotal, hreads, hreader⟩
  | clearTotal read hread =>
    rw [hread] at hreader
    refine ⟨hcount, rfl, ?_, trivial⟩
    intro other hother
    rcases List.mem_append.mp hother with hother | hother
    · exact hreads other hother
    · rw [List.mem_singleton.mp hother]
      exact hreader
  | startPhase hadding hidle => exact ⟨hcount, htotal, hreads, hreader⟩

/-- The numbers in counters and live reads are those of the latencies in them, in every run. -/
theorem numbers_of_reach {ok : LiveRun → LiveAction → Prop} {s : LiveRun}
    (h : Reach LiveRun.step ok start s) : s.Counters :=
  h.invariant counters_start fun _ _ _ hinv _ hstep => hinv.step hstep

/-! ## Undisturbed runs -/

/-- What the latencies in the counters have to do with all latencies.  The latencies that were
reported and those in the count are all that were added, and the sum has those that are not
still being added. -/
structure Accounted (s : LiveRun) : Prop where
  indices : s.added.map (·.index) = List.range s.added.length
  added : s.added = s.finished ++ s.adding.toList
  summed : ∀ read ∈ s.reads, read.summed = read.counted
  before : ∀ read ∈ s.reads, ∀ value ∈ read.before, value ∈ s.reads.flatMap (·.counted)
  phases : ∀ read ∈ s.reads, ∀ value ∈ read.counted, value.phase = read.phase
  current : ∀ value ∈ s.countLive, value.phase = s.phase
  reader : match s.reader with
    | .idle =>
      s.added = s.reads.flatMap (·.counted) ++ s.countLive ∧
        s.countLive = s.totalLive ++ s.adding.toList
    | .countLoaded read =>
      s.added = s.reads.flatMap (·.counted) ++ s.countLive ∧
        s.countLive = s.totalLive ++ s.adding.toList ∧
        read.counted = s.countLive ∧ read.phase = s.phase ∧
        ∀ value ∈ read.before, value ∈ s.added
    | .totalLoaded read =>
      s.added = s.reads.flatMap (·.counted) ++ s.countLive ∧
        s.countLive = s.totalLive ∧ s.adding = none ∧
        read.counted = s.countLive ∧ read.summed = s.countLive ∧ read.phase = s.phase ∧
        ∀ value ∈ read.before, value ∈ s.added
    | .countCleared read =>
      s.added = s.reads.flatMap (·.counted) ++ read.counted ++ s.adding.toList ∧
        s.countLive = s.adding.toList ∧
        read.summed = read.counted ∧ read.phase = s.phase ∧
        (∀ value ∈ read.counted, value.phase = s.phase) ∧
        ∀ value ∈ read.before, value ∈ s.reads.flatMap (·.counted) ++ read.counted

theorem accounted_start : start.Accounted := by
  constructor <;> simp [start]

theorem Accounted.incCount {s : LiveRun} (h : s.Accounted) {v : UInt64} (hadding : s.adding = none)
    (hpending : s.reader.countPending = false) : (s.incCount v).Accounted := by
  obtain ⟨hindices, hadded, hsummed, hbefore, hphases, hcurrent, hreader⟩ := h
  rw [hadding] at hadded hreader
  refine ⟨?_, ?_, hsummed, hbefore, hphases, ?_, ?_⟩
  · simp [LiveRun.incCount, hindices, List.range_succ, next]
  · simpa [LiveRun.incCount] using hadded
  · intro value hvalue
    rcases List.mem_append.mp hvalue with hvalue | hvalue
    · exact hcurrent value hvalue
    · rw [List.mem_singleton.mp hvalue]
      rfl
  · cases hpc : s.reader with
    | idle =>
      rw [hpc] at hreader
      obtain ⟨hall, hcount⟩ := hreader
      simp only [LiveRun.incCount, hpc]
      simp only [Option.toList_none, List.append_nil] at hcount
      exact ⟨by rw [← List.append_assoc, ← hall], by rw [hcount, Option.toList_some]⟩
    | countLoaded read => simp [hpc, LiveReadPc.countPending] at hpending
    | totalLoaded read => simp [hpc, LiveReadPc.countPending] at hpending
    | countCleared read =>
      rw [hpc] at hreader
      obtain ⟨hall, hcount, hrest⟩ := hreader
      simp only [LiveRun.incCount, hpc]
      simp only [Option.toList_none, List.append_nil] at hall hcount
      refine ⟨?_, ?_, hrest⟩
      · rw [← hall, Option.toList_some]
      · rw [hcount, Option.toList_some, List.nil_append]

theorem Accounted.addTotal {s : LiveRun} (h : s.Accounted) {value : LiveValue}
    (hadding : s.adding = some value) (hpending : s.reader.totalPending = false) :
    (s.addTotal value).Accounted := by
  obtain ⟨hindices, hadded, hsummed, hbefore, hphases, hcurrent, hreader⟩ := h
  rw [hadding] at hadded hreader
  refine ⟨hindices, ?_, hsummed, hbefore, hphases, hcurrent, ?_⟩
  · simpa [LiveRun.addTotal] using hadded
  · cases hpc : s.reader with
    | idle =>
      rw [hpc] at hreader
      simp only [LiveRun.addTotal, hpc]
      simpa using hreader
    | countLoaded read =>
      rw [hpc] at hreader
      simp only [LiveRun.addTotal, hpc]
      simpa using hreader
    | totalLoaded read => simp [hpc, LiveReadPc.totalPending] at hpending
    | countCleared read => simp [hpc, LiveReadPc.totalPending] at hpending

theorem Accounted.step {s t : LiveRun} {a : LiveAction} (h : s.Accounted) (ha : s.Undisturbed a)
    (hstep : s.step a = some t) : t.Accounted := by
  cases moves_of_step hstep with
  | incCount v hadding => exact h.incCount hadding ha
  | addTotal value hadding => exact h.addTotal hadding ha
  | loadCount hidle =>
    obtain ⟨hindices, hadded, hsummed, hbefore, hphases, hcurrent, hreader⟩ := h
    rw [hidle] at hreader
    refine ⟨hindices, hadded, hsummed, hbefore, hphases, hcurrent,
      hreader.1, hreader.2, rfl, rfl, ?_⟩
    intro value hvalue
    rw [LiveRun.loadCount, hadded]
    exact List.mem_append_left _ hvalue
  | loadTotal read hread =>
    obtain ⟨hindices, hadded, hsummed, hbefore, hphases, hcurrent, hreader⟩ := h
    have hadding : s.adding = none := ha
    rw [hread, hadding] at hreader
    obtain ⟨hall, hcount, hcounted, hphase, hbef⟩ := hreader
    simp only [Option.toList_none, List.append_nil] at hcount
    exact ⟨hindices, hadded, hsummed, hbefore, hphases, hcurrent,
      hall, hcount, hadding, hcounted, hcount.symm, hphase, hbef⟩
  | clearCount read hread =>
    obtain ⟨hindices, hadded, hsummed, hbefore, hphases, hcurrent, hreader⟩ := h
    rw [hread] at hreader
    obtain ⟨hall, hcount, hadding, hcounted, hsum, hphase, hbef⟩ := hreader
    refine ⟨hindices, hadded, hsummed, hbefore, hphases, ?_, ?_, ?_, ?_, hphase, ?_, ?_⟩
    · intro value hvalue
      exact absurd hvalue List.not_mem_nil
    · simp only [LiveRun.clearCount, hadding, Option.toList_none, List.append_nil]
      rw [hcounted, ← hall]
    · simp [LiveRun.clearCount, hadding]
    · rw [hsum, hcounted]
    · rw [hcounted]
      exact hcurrent
    · simp only [LiveRun.clearCount]
      rw [hcounted, ← hall]
      exact hbef
  | clearTotal read hread =>
    obtain ⟨hindices, hadded, hsummed, hbefore, hphases, hcurrent, hreader⟩ := h
    rw [hread] at hreader
    obtain ⟨hall, hcount, hsum, hphase, hcur, hbef⟩ := hreader
    have hflat : (s.clearTotal read).reads.flatMap (·.counted) =
        s.reads.flatMap (·.counted) ++ read.counted := by
      simp [LiveRun.clearTotal]
    refine ⟨hindices, hadded, ?_, ?_, ?_, hcurrent, ?_, ?_⟩
    · intro other hother
      rcases List.mem_append.mp hother with hother | hother
      · exact hsummed other hother
      · rw [List.mem_singleton.mp hother, hsum]
    · intro other hother value hvalue
      rw [hflat]
      rcases List.mem_append.mp hother with hother | hother
      · exact List.mem_append_left _ (hbefore other hother value hvalue)
      · rw [List.mem_singleton.mp hother] at hvalue
        exact hbef value hvalue
    · intro other hother value hvalue
      rcases List.mem_append.mp hother with hother | hother
      · exact hphases other hother value hvalue
      · rw [List.mem_singleton.mp hother] at hvalue ⊢
        rw [hphase]
        exact hcur value hvalue
    · rw [hflat]
      simp only [LiveRun.clearTotal]
      rw [hall, hcount]
    · simp only [LiveRun.clearTotal]
      rw [hcount, List.nil_append]
  | startPhase hadding hidle =>
    obtain ⟨hindices, hadded, hsummed, hbefore, hphases, hcurrent, hreader⟩ := h
    have hempty : s.countLive = [] := ha
    rw [hidle] at hreader
    refine ⟨hindices, hadded, hsummed, hbefore, hphases, ?_, ?_⟩
    · intro value hvalue
      simp only [LiveRun.startPhase, hempty] at hvalue
      exact absurd hvalue List.not_mem_nil
    · simp only [LiveRun.startPhase, hidle]
      exact hreader

theorem Accounted.nodup_added {s : LiveRun} (h : s.Accounted) : s.added.Nodup := by
  refine List.Nodup.of_map (·.index) ?_
  rw [h.indices]
  exact List.nodup_range

/-- What was reported is a part of what was added. -/
theorem Accounted.flatMap_sublist {s : LiveRun} (h : s.Accounted) :
    (s.reads.flatMap (·.counted)).Sublist s.added := by
  have hreader := h.reader
  cases hpc : s.reader with
  | idle =>
    rw [hpc] at hreader
    rw [hreader.1]
    exact List.sublist_append_left _ _
  | countLoaded read =>
    rw [hpc] at hreader
    rw [hreader.1]
    exact List.sublist_append_left _ _
  | totalLoaded read =>
    rw [hpc] at hreader
    rw [hreader.1]
    exact List.sublist_append_left _ _
  | countCleared read =>
    rw [hpc] at hreader
    rw [hreader.1, List.append_assoc]
    exact List.sublist_append_left _ _

end LiveRun

/-- A latency that is in one live read is in no other one. -/
theorem containedOnce_of_mem {reads : List LiveRead} {value : LiveValue}
    (hnodup : (reads.flatMap (·.counted)).Nodup)
    (hsummed : ∀ read ∈ reads, read.summed = read.counted)
    (hmem : value ∈ reads.flatMap (·.counted)) : ContainedOnce reads value := by
  obtain ⟨read, hread, hvalue⟩ := List.mem_flatMap.mp hmem
  obtain ⟨pre, post, rfl⟩ := List.append_of_mem hread
  rw [List.flatMap_append, List.flatMap_cons] at hnodup
  obtain ⟨-, hrest, hpre⟩ := List.nodup_append'.mp hnodup
  obtain ⟨hone, -, hpost⟩ := List.nodup_append'.mp hrest
  refine ⟨pre, read, post, rfl, List.count_eq_one_of_mem hone hvalue, ?_, ?_⟩
  · rw [hsummed read hread]
    exact List.count_eq_one_of_mem hone hvalue
  · intro other hother
    have hnot : value ∉ other.counted := by
      intro hin
      rcases List.mem_append.mp hother with hother | hother
      · exact hpre (List.mem_flatMap.mpr ⟨other, hother, hin⟩) (List.mem_append_left _ hvalue)
      · exact hpost hvalue (List.mem_flatMap.mpr ⟨other, hother, hin⟩)
    have hin : other ∈ pre ++ read :: post := by
      rcases List.mem_append.mp hother with hother | hother
      · exact List.mem_append_left _ hother
      · exact List.mem_append_right _ (List.mem_cons_of_mem _ hother)
    exact ⟨hnot, by rwa [hsummed other hin]⟩

open LiveRun in
/-- **In an undisturbed run each latency is reported once and in its own phase.** -/
theorem liveExact_of_reach {s : LiveRun} (h : Reach LiveRun.step Undisturbed start s) :
    LiveExact s := by
  have haccounted : s.Accounted :=
    h.invariant accounted_start fun _ _ _ hinv ha hstep => hinv.step ha hstep
  refine ⟨(numbers_of_reach h).reads, ?_, ?_⟩
  · intro value _ read hread _ hbefore
    exact containedOnce_of_mem (haccounted.nodup_added.sublist haccounted.flatMap_sublist)
      haccounted.summed (haccounted.before read hread value hbefore)
  · intro value _ read hread hlt
    have hnot : value ∉ read.counted := by
      intro hin
      have hphase := haccounted.phases read hread value hin
      omega
    exact ⟨hnot, by rwa [haccounted.summed read hread]⟩

/-- The accesses of a live read. -/
def liveReadActions : List LiveAction := [.loadCount, .loadTotal, .clearCount, .clearTotal]

/-- A latency, a live read and the next phase. -/
theorem liveExact_of_reach_readBeforePhase :
    ∃ s, Reach LiveRun.step LiveRun.Undisturbed LiveRun.start s ∧ s.phase = 1 ∧
      s.reads.map (·.counted) = [[⟨0, 5, 0⟩]] ∧ LiveExact s := by
  have hrun : (runTrace (checkedStep LiveRun.step LiveRun.Undisturbed) LiveRun.start
      ([.incCount 5, .addTotal] ++ liveReadActions ++ [.startPhase])).any (fun s =>
        s.phase = 1 ∧ s.reads.map (·.counted) = [[⟨0, 5, 0⟩]]) = true := by decide +kernel
  obtain ⟨s, hs, hreads⟩ := (Option.any_eq_true _ _).mp hrun
  have hreach := reach_of_runTrace_checked LiveRun.step LiveRun.Undisturbed _ hs
  obtain ⟨hphase, hcounted⟩ := of_decide_eq_true hreads
  exact ⟨s, hreach, hphase, hcounted, liveExact_of_reach hreach⟩

/-- A latency of phase 0 without a live read after it is reported in phase 1, and a latency that
is added between the loads and the resets of a live read is not in the next live read either. -/
theorem carriedOver_and_lost :
    (∃ s, runTrace LiveRun.step LiveRun.start
        ([.incCount 5, .addTotal, .startPhase] ++ liveReadActions) = some s ∧ ¬ LiveExact s) ∧
      ∃ s, runTrace LiveRun.step LiveRun.start
        ([.loadCount, .loadTotal, .incCount 5, .addTotal, .clearCount, .clearTotal] ++
          liveReadActions) = some s ∧ ¬ LiveExact s := by
  have hcarried : (runTrace LiveRun.step LiveRun.start
      ([.incCount 5, .addTotal, .startPhase] ++ liveReadActions)).any (fun s =>
        ⟨0, 5, 0⟩ ∈ s.added ∧ s.reads.any fun read => read.phase = 1 ∧ ⟨0, 5, 0⟩ ∈ read.counted) =
      true := by decide +kernel
  have hlost : (runTrace LiveRun.step LiveRun.start
      ([.loadCount, .loadTotal, .incCount 5, .addTotal, .clearCount, .clearTotal] ++
        liveReadActions)).any (fun s =>
        ⟨0, 5, 0⟩ ∈ s.added ∧ (s.reads.any fun read => read.phase = 0 ∧ ⟨0, 5, 0⟩ ∈ read.before) ∧
          s.reads.all fun read => ⟨0, 5, 0⟩ ∉ read.counted) = true := by decide +kernel
  constructor
  · obtain ⟨s, hs, hread⟩ := (Option.any_eq_true _ _).mp hcarried
    obtain ⟨hadded, hany⟩ := of_decide_eq_true hread
    obtain ⟨read, hmem, hread⟩ := List.any_eq_true.mp hany
    obtain ⟨hphase, hcounted⟩ := of_decide_eq_true hread
    refine ⟨s, hs, fun hexact => ?_⟩
    have hlater : (⟨0, 5, 0⟩ : LiveValue).phase < read.phase := by
      rw [hphase]
      exact Nat.one_pos
    exact (hexact.notLater _ hadded read hmem hlater).1 hcounted
  · obtain ⟨s, hs, hread⟩ := (Option.any_eq_true _ _).mp hlost
    obtain ⟨hadded, hany, hall⟩ := of_decide_eq_true hread
    obtain ⟨read, hmem, hread⟩ := List.any_eq_true.mp hany
    obtain ⟨hphase, hbefore⟩ := of_decide_eq_true hread
    refine ⟨s, hs, fun hexact => ?_⟩
    obtain ⟨pre, found, post, hreads, hcount, -⟩ :=
      hexact.once _ hadded read hmem hphase hbefore
    have hfound : found ∈ s.reads := by
      rw [hreads]
      exact List.mem_append_right _ List.mem_cons_self
    have hnot := of_decide_eq_true (List.all_eq_true.mp hall found hfound)
    rw [List.count_eq_zero.mpr hnot] at hcount
    exact absurd hcount (by decide)

end Elbencho
