import Elbencho.Journal.BlockIO

/-!
# Guards and stages

In which state the lock guard of a holder is, is determined by the stage of its I/O:
`GuardOk`.  The guard of a holder without an I/O is free, and so is that of an I/O
between the release of its shared guard and the acquisition of the exclusive one.

`World.Guarded` says so for every holder.  It is kept by every step of the system, for
any requests, aligned or not.  The lemmas about the lock steps say at the same time
where the holder is afterwards; those about the calls `begin` and `commit` follow:
`Guarded.begin_move` and `Guarded.finish_move` say which stages a call goes through
and how it ends.
-/

namespace Elbencho

open SharedLock Transition

/-- The state of a guard that belongs to a stage. -/
def GuardOk (g : Guard Stripe) : Stage → Prop
  | .lockShared _ mayBlock => ∃ got x todo, g = .acquiring got (x :: todo) false mayBlock
  | .lockExclusive mayBlock => ∃ got x todo, g = .acquiring got (x :: todo) true mayBlock
  | .upgrade _ => g = .free
  | .release _ => ∃ x rest e, g = .releasing (x :: rest) e
  | .scan _ _ _ _ _ => ∃ locks, g = .held locks false
  | .dataRead => ∃ locks, g = .held locks false
  | .claimLoad _ _ => ∃ locks, g = .held locks true
  | .claimMark _ _ => ∃ locks, g = .held locks true
  | .claimSync _ => ∃ locks, g = .held locks true
  | .dataWrite => ∃ locks, g = .held locks true
  | .commitCell _ => ∃ locks, g = .held locks true
  | .commitSync _ => ∃ locks, g = .held locks true

/-- The stages in which the guard is held. -/
def Stage.Holding : Stage → Prop
  | .lockShared _ _ => False
  | .lockExclusive _ => False
  | .upgrade _ => False
  | .release _ => False
  | _ => True

theorem GuardOk.held {g : Guard Stripe} {stage : Stage} (hg : GuardOk g stage)
    (hh : stage.Holding) : ∃ locks e, g = .held locks e := by
  cases stage with
  | lockShared => exact absurd hh id
  | lockExclusive => exact absurd hh id
  | upgrade => exact absurd hh id
  | release => exact absurd hh id
  | scan => obtain ⟨locks, rfl⟩ := hg; exact ⟨locks, false, rfl⟩
  | dataRead => obtain ⟨locks, rfl⟩ := hg; exact ⟨locks, false, rfl⟩
  | _ => obtain ⟨locks, rfl⟩ := hg; exact ⟨locks, true, rfl⟩

/-! ## Calls -/

/-- The stages of `begin`, for a caller that may or may not block. -/
def Stage.Beginning (b : Bool) : Stage → Prop
  | .lockShared _ mayBlock => mayBlock = b
  | .scan _ mayBlock _ _ _ => mayBlock = b
  | .upgrade mayBlock => mayBlock = b
  | .lockExclusive mayBlock => mayBlock = b
  | .claimLoad _ _ => True
  | .claimMark _ _ => True
  | .claimSync _ => True
  | .release (.upgrade mayBlock) => mayBlock = b
  | .release (.finish .skip) => True
  | .release (.finish .defer) => b = false
  | _ => False

/-- The stages in which the data I/O is in flight. -/
def Stage.Transferring : Stage → Prop
  | .dataRead => True
  | .dataWrite => True
  | _ => False

/-- The stages of `commit` and of the release of a guard. -/
def Stage.Finishing : Stage → Prop
  | .commitCell _ => True
  | .commitSync _ => True
  | .release (.finish _) => True
  | _ => False

/-- What `begin` returns. -/
inductive Action where
  | read
  | write
  | skip
  | defer
  deriving DecidableEq

/-- What `begin` has returned when the holder is in this state. -/
def HolderState.begun {J : Type*} : HolderState J → Option Action
  | .idle .skip => some .skip
  | .idle .defer => some .defer
  | .busy _ .dataRead => some .read
  | .busy _ .dataWrite => some .write
  | _ => none

namespace World

variable {J H : Type*} {S : Setup J} [DecidableEq J] [DecidableEq H] {s s' : World J H} {h : H}
  {io : JournalBlockIO J} {stage : Stage} {m : Move}

/-- The guard of a holder fits its state. -/
def GuardFits (s : World J H) (h : H) : HolderState J → Prop
  | .idle _ => s.locks.table.guard h = .free
  | .busy _ stage => GuardOk (s.locks.table.guard h) stage

variable (S) in
/-- Every guard fits, and the range locks are in order. -/
structure Guarded (s : World J H) : Prop where
  locks : RangeLocks.Inv (S.opts s.run) (fun _ => True) s.locks
  fits : ∀ h, s.GuardFits h (s.holder h)

omit [DecidableEq J] [DecidableEq H] in
omit [DecidableEq J] [DecidableEq H] in
/-- A change of the data alone keeps the guards. -/
theorem Guarded.of_same (hg : Guarded S s) (hrun : s'.run = s.run) (hlocks : s'.locks = s.locks)
    (hholder : s'.holder = s.holder) : Guarded S s' := by
  refine ⟨?_, fun i => ?_⟩
  · rw [hrun, hlocks]
    exact hg.locks
  · rw [hholder]
    have hfits := hg.fits i
    unfold GuardFits at hfits ⊢
    rw [hlocks]
    exact hfits

omit [DecidableEq J] in
/-- A private step of a holder whose guard fits the new state as well. -/
theorem Guarded.setHolder (hg : Guarded S s) {x : HolderState J} (hx : s.GuardFits h x) :
    Guarded S (s.setHolder h x) := by
  refine ⟨hg.locks, fun i => ?_⟩
  rcases eq_or_ne i h with rfl | hne
  · rw [setHolder_holder_self]
    exact hx
  · rw [setHolder_holder_of_ne s hne]
    exact hg.fits i

omit [DecidableEq J] in
/-- A lock step of a holder whose guard fits afterwards. -/
theorem Guarded.lockStep (hg : Guarded S s) {op : RangeOp J H} {s₁ : World J H}
    {x : HolderState J} (hstep : s.lockStep S op = some s₁)
    (hx : s₁.GuardFits (RangeLocks.holderOf op) x) :
    Guarded S (s₁.setHolder (RangeLocks.holderOf op) x) := by
  obtain ⟨l, hl, rfl⟩ := lockStep_eq_some hstep
  have hallowed : RangeLocks.Allowed (fun _ => True) op := by
    cases op <;> exact trivial
  refine ⟨hg.locks.step hallowed hl, fun i => ?_⟩
  rcases eq_or_ne i (RangeLocks.holderOf op) with rfl | hne
  · rw [setHolder_holder_self]
    exact hx
  · rw [setHolder_holder_of_ne _ hne]
    have hfits := hg.fits i
    unfold GuardFits at hfits ⊢
    rw [show (({ s with locks := l } : World J H).setHolder (RangeLocks.holderOf op) x).locks = l
      from rfl, (RangeLocks.step_of_ne hl hne).1]
    exact hfits

/-! ## Lock steps -/

omit [DecidableEq J] [DecidableEq H] in
/-- A held guard has at least one stripe. -/
theorem Guarded.held_ne_nil (hg : Guarded S s) {locks : List Stripe} {e : Bool}
    (hheld : s.locks.table.guard h = .held locks e) : locks ≠ [] := by
  obtain ⟨r, -, -, rfl⟩ := hg.locks.planned h locks (by rw [hheld]; rfl)
  exact rangeStripes_ne_nil _ _ _

omit [DecidableEq J] [DecidableEq H] in
theorem Guarded.guardOk (hg : Guarded S s) (hbusy : s.holder h = .busy io stage) :
    GuardOk (s.locks.table.guard h) stage := by
  have hfits := hg.fits h
  rw [hbusy] at hfits
  exact hfits

omit [DecidableEq J] [DecidableEq H] in
/-- Only a holder inside of `acquireRange` has a guard that acquires. -/
theorem Guarded.acquiring (hg : Guarded S s) {got todo : List Stripe} {e b : Bool}
    (hguard : s.locks.table.guard h = .acquiring got todo e b) :
    ∃ io stage, s.holder h = .busy io stage ∧
      ((∃ intent, stage = .lockShared intent b) ∨ stage = .lockExclusive b) := by
  have hfits := hg.fits h
  cases hh : s.holder h with
  | idle o =>
    rw [hh] at hfits
    exact absurd (hguard.symm.trans hfits) (by simp)
  | busy io stage =>
    rw [hh] at hfits
    have hok : GuardOk (.acquiring got todo e b) stage := hguard ▸ hfits
    refine ⟨io, stage, rfl, ?_⟩
    cases stage with
    | lockShared intent mayBlock =>
      obtain ⟨_, _, _, heq⟩ := hok
      cases heq
      exact Or.inl ⟨intent, rfl⟩
    | lockExclusive mayBlock =>
      obtain ⟨_, _, _, heq⟩ := hok
      cases heq
      exact Or.inr rfl
    | upgrade => exact absurd hok (by simp [GuardOk])
    | _ => exact absurd hok (by simp [GuardOk])

omit [DecidableEq J] in
/-- The start of a release. -/
theorem Guarded.startRelease (hg : Guarded S s) {next : AfterRelease}
    (hbusy : s.holder h = .busy io stage) (hhold : stage.Holding)
    (hm : s.startRelease S h io next = some s') :
    Guarded S s' ∧ s'.holder h = .busy io (.release next) := by
  obtain ⟨locks, e, hheld⟩ := (hg.guardOk hbusy).held hhold
  obtain ⟨s₁, hs₁, rfl⟩ := Option.map_eq_some_iff.mp hm
  refine ⟨hg.lockStep hs₁ ?_, setHolder_holder_self _ _ _⟩
  obtain ⟨l, hl, rfl⟩ := lockStep_eq_some hs₁
  obtain ⟨-, hguard⟩ := RangeLocks.step_release hl hheld
  obtain ⟨x, rest, rfl⟩ := List.exists_cons_of_ne_nil (hg.held_ne_nil hheld)
  exact ⟨x, rest, e, hguard⟩

omit [DecidableEq J] in
/-- The next lock of an acquisition: there are more to come, or the guard is held. -/
theorem Guarded.lockNext (hg : Guarded S s) {got todo : List Stripe} {x : Stripe} {e b : Bool}
    (hbusy : s.holder h = .busy io stage)
    (hguard : s.locks.table.guard h = .acquiring got (x :: todo) e b)
    (hstay : ∀ got x todo, GuardOk (.acquiring got (x :: todo) e b) stage)
    (hgranted : ∀ locks, GuardOk (.held locks e) (granted stage))
    (hm : s.lockNext S h io stage = some s') :
    Guarded S s' ∧
      (s'.holder h = .busy io stage ∨ s'.holder h = .busy io (granted stage)) := by
  obtain ⟨s₁, hs₁, hs'⟩ := Option.map_eq_some_iff.mp hm
  obtain ⟨l, hl, rfl⟩ := lockStep_eq_some hs₁
  obtain ⟨-, hguard'⟩ := RangeLocks.step_lock hl hguard
  cases todo with
  | nil =>
    have hheld : l.table.guard h = .held (got ++ [x]) e := hguard'
    simp only [hheld] at hs'
    rw [← hs']
    refine ⟨hg.lockStep hs₁ ?_, Or.inr (setHolder_holder_self _ _ _)⟩
    show GuardOk (l.table.guard h) (granted stage)
    rw [hheld]
    exact hgranted _
  | cons y todo =>
    have hacq : l.table.guard h = .acquiring (got ++ [x]) (y :: todo) e b := hguard'
    simp only [hacq] at hs'
    rw [← hs', ← setHolder_eq_self { s with locks := l } hbusy]
    refine ⟨hg.lockStep hs₁ ?_, Or.inl (setHolder_holder_self _ _ _)⟩
    show GuardOk (l.table.guard h) stage
    rw [hacq]
    exact hstay _ _ _

omit [DecidableEq J] in
/-- The failed try of a lock, which only a caller gets that must not block. -/
theorem Guarded.refuseNext (hg : Guarded S s) {got todo : List Stripe} {e b : Bool}
    (hguard : s.locks.table.guard h = .acquiring got todo e b)
    (hm : s.refuseNext S h io = some s') :
    b = false ∧ Guarded S s' ∧
      (s'.holder h = .idle .defer ∨ s'.holder h = .busy io (.release (.finish .defer))) := by
  obtain ⟨s₁, hs₁, hs'⟩ := Option.map_eq_some_iff.mp hm
  obtain ⟨l, hl, rfl⟩ := lockStep_eq_some hs₁
  obtain ⟨hb, -, hguard'⟩ := RangeLocks.step_refuse hl hguard
  refine ⟨hb, ?_⟩
  cases got with
  | nil =>
    have hfree : l.table.guard h = .free := hguard'
    simp only [hfree] at hs'
    rw [← hs']
    exact ⟨hg.lockStep hs₁ hfree, Or.inl (setHolder_holder_self _ _ _)⟩
  | cons x rest =>
    have hrel : l.table.guard h = .releasing (x :: rest) e := hguard'
    simp only [hrel] at hs'
    rw [← hs']
    exact ⟨hg.lockStep hs₁ ⟨x, rest, e, hrel⟩, Or.inr (setHolder_holder_self _ _ _)⟩

omit [DecidableEq J] in
/-- The next unlock of a release: there are more to come, or the guard is free. -/
theorem Guarded.unlockNext (hg : Guarded S s) {next : AfterRelease}
    (hbusy : s.holder h = .busy io (.release next))
    (hm : s.unlockNext S h io next = some s') :
    Guarded S s' ∧
      (s'.holder h = .busy io (.release next) ∨ s'.holder h = .released io next) := by
  obtain ⟨x, rest, e, hguard⟩ := hg.guardOk hbusy
  obtain ⟨s₁, hs₁, hs'⟩ := Option.map_eq_some_iff.mp hm
  obtain ⟨l, hl, rfl⟩ := lockStep_eq_some hs₁
  obtain ⟨-, hguard'⟩ := RangeLocks.step_unlock hl hguard
  cases rest with
  | nil =>
    have hfree : l.table.guard h = .free := hguard'
    simp only [hfree] at hs'
    rw [← hs']
    refine ⟨hg.lockStep hs₁ ?_, Or.inr (setHolder_holder_self _ _ _)⟩
    cases next with
    | finish o => exact hfree
    | upgrade mayBlock => exact hfree
  | cons y rest =>
    have hrel : l.table.guard h = .releasing (y :: rest) e := hguard'
    simp only [hrel] at hs'
    rw [← hs', ← setHolder_eq_self { s with locks := l } hbusy]
    exact ⟨hg.lockStep hs₁ ⟨y, rest, e, hrel⟩, Or.inl (setHolder_holder_self _ _ _)⟩

omit [DecidableEq J] in
/-- A call of `acquireRange`. -/
theorem Guarded.acquire (hg : Guarded S s) {r : BlockRange J} {e b : Bool} {s₁ : World J H}
    (hstay : ∀ got x todo, GuardOk (.acquiring got (x :: todo) e b) stage)
    (hs₁ : s.lockStep S (.acquireRange h r e b) = some s₁) :
    Guarded S (s₁.setHolder h (.busy io stage)) := by
  refine hg.lockStep hs₁ ?_
  obtain ⟨l, hl, rfl⟩ := lockStep_eq_some hs₁
  obtain ⟨-, -, hguard⟩ := RangeLocks.step_acquireRange hl
  obtain ⟨x, todo, hcons⟩ := List.exists_cons_of_ne_nil
    (rangeStripes_ne_nil (S.opts s.run r.journal) r.firstBlockIdx r.numBlocks)
  rw [hcons] at hguard
  show GuardOk (l.table.guard h) stage
  rw [show l.table.guard h = .acquiring [] (x :: todo) e b from hguard]
  exact hstay _ _ _

/-! ## Moves -/

/-- A move of a holder leaves the others where they are. -/
theorem holder_move_of_ne (hm : s.move S h io stage m = some s') {i : H} (hi : i ≠ h) :
    s'.holder i = s.holder i := by
  cases stage with
  | lockShared =>
    rcases move_lockShared hm with hm | hm
    · exact (sameData_lockNext hm).holder i hi
    · exact (sameData_refuseNext hm).holder i hi
  | scan =>
    rcases move_scan hm with ⟨-, _, _, rfl⟩ | ⟨-, rfl | hm | hm⟩
    · exact setHolder_holder_of_ne _ hi _
    · exact setHolder_holder_of_ne _ hi _
    · exact (sameData_startRelease hm).holder i hi
    · exact (sameData_startRelease hm).holder i hi
  | upgrade =>
    obtain ⟨s₁, hs₁, rfl⟩ := move_upgrade hm
    obtain ⟨l, -, rfl⟩ := lockStep_eq_some hs₁
    exact setHolder_holder_of_ne _ hi _
  | lockExclusive =>
    rcases move_lockExclusive hm with hm | hm
    · exact (sameData_lockNext hm).holder i hi
    · exact (sameData_refuseNext hm).holder i hi
  | claimLoad =>
    rcases move_claimLoad hm with ⟨-, rfl⟩ | ⟨-, -, -, rfl⟩ | ⟨-, -, rfl⟩ <;>
      exact setHolder_holder_of_ne _ hi _
  | claimMark =>
    rw [move_claimMark hm]
    exact setHolder_holder_of_ne _ hi _
  | claimSync =>
    rcases move_claimSync hm with ⟨-, rfl⟩ | ⟨_, _, -, rfl⟩ | ⟨-, hm⟩
    · exact setHolder_holder_of_ne _ hi _
    · exact setHolder_holder_of_ne _ hi _
    · exact (sameData_startRelease hm).holder i hi
  | dataRead =>
    rcases move_dataRead hm with ⟨_, -, rfl⟩ | ⟨-, hm⟩ | hm
    · exact setHolder_holder_of_ne _ hi _
    · exact (sameData_startRelease hm).holder i hi
    · exact (sameData_startRelease hm).holder i hi
  | dataWrite =>
    rcases move_dataWrite hm with ⟨_, _, -, -, rfl⟩ | rfl | hm
    · rfl
    · exact setHolder_holder_of_ne _ hi _
    · exact (sameData_startRelease hm).holder i hi
  | commitCell =>
    rcases move_commitCell hm with ⟨-, rfl⟩ | rfl | hm
    · exact setHolder_holder_of_ne _ hi _
    · exact setHolder_holder_of_ne _ hi _
    · exact (sameData_startRelease hm).holder i hi
  | commitSync =>
    rcases move_commitSync hm with ⟨_, _, -, rfl⟩ | hm
    · exact setHolder_holder_of_ne _ hi _
    · exact (sameData_startRelease hm).holder i hi
  | release => exact (sameData_unlockNext (move_release hm)).holder i hi

omit [DecidableEq J] in
/-- A step to another stage with the same guard. -/
theorem Guarded.stay (hg : Guarded S s) {io' : JournalBlockIO J} {stage' : Stage}
    {s₁ : World J H} (hrun : s₁.run = s.run) (hlocks : s₁.locks = s.locks)
    (hholder : s₁.holder = s.holder) (hok : GuardOk (s.locks.table.guard h) stage') :
    Guarded S (s₁.setHolder h (.busy io' stage')) := by
  refine (hg.of_same hrun hlocks hholder).setHolder ?_
  show GuardOk (s₁.locks.table.guard h) stage'
  rw [hlocks]
  exact hok

/-- **The failure of an `msync`**: its exception releases the guard. -/
theorem Guarded.syncFail_move (hg : Guarded S s) (hbusy : s.holder h = .busy io stage)
    (hm : s.move S h io stage .syncFail = some s') :
    Guarded S s' ∧ s'.holder h = .busy io (.release (.finish .done)) := by
  cases stage with
  | claimSync pages =>
    rw [show s.move S h io (.claimSync pages) .syncFail = s.startRelease S h io (.finish .done) by
      cases pages <;> rfl] at hm
    exact hg.startRelease hbusy trivial hm
  | commitSync pages =>
    rw [show s.move S h io (.commitSync pages) .syncFail = s.startRelease S h io (.finish .done) by
      cases pages <;> rfl] at hm
    exact hg.startRelease hbusy trivial hm
  | _ => exact absurd hm (by simp [move])

/-- **The moves of `begin`.**  The call goes on, or it returns; it returns `ACTION_DEFER`
only to a caller that must not block. -/
theorem Guarded.begin_move (hg : Guarded S s) {b : Bool} (hbusy : s.holder h = .busy io stage)
    (hb : stage.Beginning b) (hfail : m ≠ .syncFail) (hm : s.move S h io stage m = some s') :
    Guarded S s' ∧
      ((∃ io' stage', s'.holder h = .busy io' stage' ∧ stage'.Beginning b) ∨
      ∃ a, (s'.holder h).begun = some a ∧ (a = .defer → b = false)) := by
  have hok := hg.guardOk hbusy
  cases stage with
  | lockShared intent mayBlock =>
    obtain ⟨got, x, todo, hguard⟩ := hok
    rcases move_lockShared hm with hm | hm
    · obtain ⟨hg', hh | hh⟩ := hg.lockNext hbusy hguard (fun got x todo => ⟨got, x, todo, rfl⟩)
        (fun locks => ⟨locks, rfl⟩) hm
      · exact ⟨hg', Or.inl ⟨_, _, hh, hb⟩⟩
      · exact ⟨hg', Or.inl ⟨_, _, hh, hb⟩⟩
    · obtain ⟨hfalse, hg', hh | hh⟩ := hg.refuseNext hguard hm
      · exact ⟨hg', Or.inr ⟨.defer, by rw [hh]; rfl, fun _ => hb.symm.trans hfalse⟩⟩
      · exact ⟨hg', Or.inl ⟨_, _, hh, (hb.symm.trans hfalse : b = false)⟩⟩
  | scan intent mayBlock i anyUninit allUninit =>
    rcases move_scan hm with ⟨-, _, _, rfl⟩ | ⟨-, rfl | hm | hm⟩
    · exact ⟨hg.stay rfl rfl rfl hok, Or.inl ⟨_, _, setHolder_holder_self _ _ _, hb⟩⟩
    · exact ⟨hg.stay rfl rfl rfl hok,
        Or.inr ⟨.read, by rw [setHolder_holder_self]; rfl, fun hne => absurd hne (by decide)⟩⟩
    · obtain ⟨hg', hh⟩ := hg.startRelease hbusy trivial hm
      exact ⟨hg', Or.inl ⟨_, _, hh, trivial⟩⟩
    · obtain ⟨hg', hh⟩ := hg.startRelease hbusy trivial hm
      exact ⟨hg', Or.inl ⟨_, _, hh, hb⟩⟩
  | upgrade mayBlock =>
    obtain ⟨s₁, hs₁, rfl⟩ := move_upgrade hm
    exact ⟨hg.acquire (fun got x todo => ⟨got, x, todo, rfl⟩) hs₁,
      Or.inl ⟨_, _, setHolder_holder_self _ _ _, hb⟩⟩
  | lockExclusive mayBlock =>
    obtain ⟨got, x, todo, hguard⟩ := hok
    rcases move_lockExclusive hm with hm | hm
    · obtain ⟨hg', hh | hh⟩ := hg.lockNext hbusy hguard (fun got x todo => ⟨got, x, todo, rfl⟩)
        (fun locks => ⟨locks, rfl⟩) hm
      · exact ⟨hg', Or.inl ⟨_, _, hh, hb⟩⟩
      · exact ⟨hg', Or.inl ⟨_, _, hh, trivial⟩⟩
    · obtain ⟨hfalse, hg', hh | hh⟩ := hg.refuseNext hguard hm
      · exact ⟨hg', Or.inr ⟨.defer, by rw [hh]; rfl, fun _ => hb.symm.trans hfalse⟩⟩
      · exact ⟨hg', Or.inl ⟨_, _, hh, (hb.symm.trans hfalse : b = false)⟩⟩
  | claimLoad i anyWasVerifiable =>
    rcases move_claimLoad hm with ⟨-, rfl⟩ | ⟨-, -, -, rfl⟩ | ⟨-, -, rfl⟩
    · exact ⟨hg.stay rfl rfl rfl hok, Or.inl ⟨_, _, setHolder_holder_self _ _ _, trivial⟩⟩
    · exact ⟨hg.stay rfl rfl rfl hok, Or.inl ⟨_, _, setHolder_holder_self _ _ _, trivial⟩⟩
    · exact ⟨hg.stay rfl rfl rfl hok,
        Or.inr ⟨.write, by rw [setHolder_holder_self]; rfl, fun hne => absurd hne (by decide)⟩⟩
  | claimMark i anyWasVerifiable =>
    rw [move_claimMark hm]
    exact ⟨hg.stay rfl rfl rfl hok, Or.inl ⟨_, _, setHolder_holder_self _ _ _, trivial⟩⟩
  | claimSync pages =>
    rcases move_claimSync hm with ⟨-, rfl⟩ | ⟨_, _, -, rfl⟩ | ⟨hfail', -⟩
    · exact ⟨hg.stay rfl rfl rfl hok,
        Or.inr ⟨.write, by rw [setHolder_holder_self]; rfl, fun hne => absurd hne (by decide)⟩⟩
    · exact ⟨hg.stay rfl rfl rfl hok, Or.inl ⟨_, _, setHolder_holder_self _ _ _, trivial⟩⟩
    · exact absurd hfail' hfail
  | release next =>
    obtain ⟨hg', hh | hh⟩ := hg.unlockNext hbusy (move_release hm)
    · exact ⟨hg', Or.inl ⟨_, _, hh, hb⟩⟩
    · refine ⟨hg', ?_⟩
      rw [hh]
      cases next with
      | upgrade mayBlock => exact Or.inl ⟨_, _, rfl, hb⟩
      | finish o =>
        cases o with
        | skip => exact Or.inr ⟨.skip, rfl, fun hne => absurd hne (by decide)⟩
        | defer => exact Or.inr ⟨.defer, rfl, fun _ => hb⟩
        | done => exact absurd hb id
        | verifyFailed => exact absurd hb id
  | dataRead => exact absurd hb id
  | dataWrite => exact absurd hb id
  | commitCell => exact absurd hb id
  | commitSync => exact absurd hb id

/-- **The moves while the data I/O is in flight**: bytes are transferred, or the I/O
ends. -/
theorem Guarded.transfer_move (hg : Guarded S s) (hbusy : s.holder h = .busy io stage)
    (hb : stage.Transferring) (hm : s.move S h io stage m = some s') :
    Guarded S s' ∧ ∃ io' stage', s'.holder h = .busy io' stage' ∧
      ((stage' = stage ∧ m ≠ .ioDone ∧ m ≠ .ioFail) ∨
        (stage'.Finishing ∧ (m = .ioDone ∨ m = .ioFail))) := by
  have hok := hg.guardOk hbusy
  have hends : m = .ioDone ∨ m = .ioFail → ∀ next, s.startRelease S h io (.finish next) = some s' →
      Guarded S s' ∧ ∃ io' stage', s'.holder h = .busy io' stage' ∧
        ((stage' = stage ∧ m ≠ .ioDone ∧ m ≠ .ioFail) ∨
          (stage'.Finishing ∧ (m = .ioDone ∨ m = .ioFail))) := by
    intro hend next hm
    have hhold : stage.Holding := by
      cases stage with
      | dataRead => trivial
      | dataWrite => trivial
      | _ => exact absurd hb id
    obtain ⟨hg', hh⟩ := hg.startRelease hbusy hhold hm
    exact ⟨hg', _, _, hh, Or.inr ⟨trivial, hend⟩⟩
  cases stage with
  | dataRead =>
    cases m with
    | readByte i =>
      rw [move] at hm
      split_ifs at hm
      cases hm
      exact ⟨hg.stay rfl rfl rfl hok, _, _, setHolder_holder_self _ _ _,
        Or.inl ⟨rfl, by simp, by simp⟩⟩
    | ioDone =>
      rw [move] at hm
      split_ifs at hm
      exact hends (Or.inl rfl) _ hm
    | ioFail => exact hends (Or.inr rfl) _ hm
    | _ => exact absurd hm (by simp [move])
  | dataWrite =>
    cases m with
    | scribble addr v =>
      rw [move] at hm
      split_ifs at hm
      cases hm
      exact ⟨hg.of_same rfl rfl rfl, _, _, hbusy, Or.inl ⟨rfl, by simp, by simp⟩⟩
    | ioDone =>
      cases hm
      exact ⟨hg.stay rfl rfl rfl hok, _, _, setHolder_holder_self _ _ _,
        Or.inr ⟨trivial, Or.inl rfl⟩⟩
    | ioFail => exact hends (Or.inr rfl) _ hm
    | _ => exact absurd hm (by simp [move])
  | _ => exact absurd hb id

/-- **The moves of `commit` and of a release**: the call goes on, or the guard is free
again. -/
theorem Guarded.finish_move (hg : Guarded S s) (hbusy : s.holder h = .busy io stage)
    (hb : stage.Finishing) (hm : s.move S h io stage m = some s') :
    Guarded S s' ∧ ((∃ io' stage', s'.holder h = .busy io' stage' ∧ stage'.Finishing) ∨
      ∃ o, s'.holder h = .idle o) := by
  have hok := hg.guardOk hbusy
  cases stage with
  | commitCell i =>
    rcases move_commitCell hm with ⟨-, rfl⟩ | rfl | hm
    · exact ⟨hg.stay rfl rfl rfl hok, Or.inl ⟨_, _, setHolder_holder_self _ _ _, trivial⟩⟩
    · exact ⟨hg.stay rfl rfl rfl hok, Or.inl ⟨_, _, setHolder_holder_self _ _ _, trivial⟩⟩
    · obtain ⟨hg', hh⟩ := hg.startRelease hbusy trivial hm
      exact ⟨hg', Or.inl ⟨_, _, hh, trivial⟩⟩
  | commitSync pages =>
    rcases move_commitSync hm with ⟨_, rest, -, rfl⟩ | hm
    · exact ⟨hg.stay rfl rfl rfl hok, Or.inl ⟨_, _, setHolder_holder_self _ _ _, trivial⟩⟩
    · obtain ⟨hg', hh⟩ := hg.startRelease hbusy trivial hm
      exact ⟨hg', Or.inl ⟨_, _, hh, trivial⟩⟩
  | release next =>
    obtain ⟨hg', hh | hh⟩ := hg.unlockNext hbusy (move_release hm)
    · exact ⟨hg', Or.inl ⟨_, _, hh, hb⟩⟩
    · refine ⟨hg', Or.inr ?_⟩
      cases next with
      | upgrade mayBlock => exact absurd hb id
      | finish o => exact ⟨o, hh⟩
  | _ => exact absurd hb id

omit [DecidableEq J] in
/-- **The call of `begin`.** -/
theorem Guarded.beginRequest (hg : Guarded S s) {intent : Intent} {b : Bool}
    (hm : s.beginRequest S h io intent b = some s') :
    Guarded S s' ∧ ∃ stage, s'.holder h = .busy io stage ∧ stage.Beginning b := by
  rw [World.beginRequest] at hm
  split_ifs at hm
  · obtain ⟨s₁, hs₁, rfl⟩ := Option.map_eq_some_iff.mp hm
    exact ⟨hg.acquire (fun got x todo => ⟨got, x, todo, rfl⟩) hs₁, _,
      setHolder_holder_self _ _ _, rfl⟩
  · obtain ⟨s₁, hs₁, rfl⟩ := Option.map_eq_some_iff.mp hm
    exact ⟨hg.acquire (fun got x todo => ⟨got, x, todo, rfl⟩) hs₁, _,
      setHolder_holder_self _ _ _, rfl⟩

end World

end Elbencho
