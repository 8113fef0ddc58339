import Elbencho.Journal.Guards

/-!
# The invariant of journaled block I/O

What holds in every state of the concurrent system.  The invariant has three
parts (`World.Inv`).

* The range locks are coherent and every guard covers the blocks of its range.
* Each holder is in order (`HolderOk`): its guard is in the state that belongs to
  its stage (`GuardOk`), and the cells and the content of its blocks are as far as
  its stage says (`DataOk`).  A writer has cleared its cells before its data write
  begins, and sets them only after the content is in place; a reader's generations
  are those of the cells.
* Every non-zero cell describes its block (`sound`).  This part needs no exception
  for blocks that are being written: their cells are 0.

A step changes cells and content only in the range of a holder with an exclusive
guard (`Inv.write`), so by mutual exclusion it changes nothing that another holder
relies on.
-/

namespace Elbencho

open SharedLock Transition

/-! ## Blocks and bytes -/

/-- The block holds the content of a generation. -/
def HoldsTile (j : Journal) (content : ℕ → BitVec 8) (b g : ℕ) : Prop :=
  ∀ i < j.journalBlockSize, content (j.blockOffset b + i) = tileAt j (j.blockOffset b) g i

/-- The two contents agree on a block. -/
def SameBlock (j : Journal) (content content' : ℕ → BitVec 8) (b : ℕ) : Prop :=
  ∀ i < j.journalBlockSize, content' (j.blockOffset b + i) = content (j.blockOffset b + i)

theorem HoldsTile.congr {j : Journal} {content content' : ℕ → BitVec 8} {b g : ℕ}
    (h : HoldsTile j content b g) (hsame : SameBlock j content content' b) :
    HoldsTile j content' b g :=
  fun i hi => (hsame i hi).trans (h i hi)

/-- An I/O as the callers of `begin` make it: inside the journal's mapping, aligned
to journal blocks, and no larger than the run's largest I/O. -/
structure AlignedRequest (j : Journal) (maxIOSize off len : ℕ) : Prop where
  offset_ge : j.targetOffset ≤ off
  offset_aligned : j.journalBlockSize ∣ off - j.targetOffset
  len_aligned : j.journalBlockSize ∣ len
  len_le : len ≤ maxIOSize
  end_lt : off + len < Word64.size
  mapped : j.offsetToBlockIndex off + j.numBlocksOf len ≤ 4 * j.mapLength

instance (j : Journal) (maxIOSize off len : ℕ) : Decidable (AlignedRequest j maxIOSize off len) :=
  decidable_of_iff
    (j.targetOffset ≤ off ∧ j.journalBlockSize ∣ off - j.targetOffset ∧
      j.journalBlockSize ∣ len ∧ len ≤ maxIOSize ∧ off + len < Word64.size ∧
      j.offsetToBlockIndex off + j.numBlocksOf len ≤ 4 * j.mapLength)
    ⟨fun ⟨h₁, h₂, h₃, h₄, h₅, h₆⟩ => ⟨h₁, h₂, h₃, h₄, h₅, h₆⟩,
      fun ⟨h₁, h₂, h₃, h₄, h₅, h₆⟩ => ⟨h₁, h₂, h₃, h₄, h₅, h₆⟩⟩

variable {J H : Type*} (S : Setup J)

/-- What holds of the I/O of a busy holder: its blocks are its bytes. -/
structure IOOk (run : RunConfig) (io : JournalBlockIO J) : Prop where
  base_eq : (S.journal io.journal).blockOffset io.baseBlockIdx = io.absoluteOffset
  len_eq : io.numBlocks * (S.journal io.journal).journalBlockSize = io.ioLen
  len_le : io.ioLen ≤ run.maxIOSize
  end_lt : io.absoluteOffset + io.ioLen < Word64.size
  mapped : io.baseBlockIdx + io.numBlocks ≤ 4 * (S.journal io.journal).mapLength

variable {S}

theorem ioOk_start {run : RunConfig} {k : J} {off len : ℕ}
    (h : AlignedRequest (S.journal k) run.maxIOSize off len) :
    IOOk S run ( JournalBlockIO.start S k off len) where
  base_eq := Journal.blockOffset_offsetToBlockIndex h.offset_ge
    (by have := h.end_lt; omega) h.offset_aligned
  len_eq := Journal.numBlocksOf_mul_eq h.len_aligned (h.len_le.trans_lt run.maxIOSize_lt)
  len_le := h.len_le
  end_lt := h.end_lt
  mapped := h.mapped

namespace IOOk

variable {run : RunConfig} {io : JournalBlockIO J}

/-- The number of blocks of an I/O is at most that of the bytes before its end. -/
theorem blocks_lt (h : IOOk S run io) : io.baseBlockIdx + io.numBlocks < Word64.size := by
  have hpos := (S.journal io.journal).journalBlockSize_pos
  have hbase := h.base_eq
  have hlen := h.len_eq
  have hend := h.end_lt
  rw [Journal.blockOffset] at hbase
  have h₁ := Nat.le_mul_of_pos_right io.baseBlockIdx hpos
  have h₂ := Nat.le_mul_of_pos_right io.numBlocks hpos
  omega

/-- **The guard of an I/O covers its blocks.** -/
theorem covers (h : IOOk S run io) :
    Covers (S.opts run io.journal) io.baseBlockIdx io.numBlocks := by
  have hfit := h.blocks_lt
  rcases Nat.eq_zero_or_pos io.numBlocks with hzero | hpos
  · intro b hfirst hlast
    omega
  · refine covers_of_le ?_ hfit.le
    obtain ⟨-, -, hloop⟩ := initRunOptions_eq_some_iff.mp (S.initRunOptions_opts run io.journal)
    have hbs := (S.journal io.journal).journalBlockSize_pos
    have hmax := run.maxIOSize_lt
    have hlen := h.len_eq
    have hle := h.len_le
    have hone : (S.journal io.journal).journalBlockSize ≤
        io.numBlocks * (S.journal io.journal).journalBlockSize := Nat.le_mul_of_pos_left _ hpos
    have hsize : Word64.size = 2 ^ 64 := rfl
    have hnum : (S.journal io.journal).numBlocksOf run.maxIOSize =
        maxBlocks (S.journal io.journal) run.maxIOSize := numBlocksOf_eq (by omega)
    refine le_trans ?_ (regionShiftLoop_eq_some hloop).1
    rw [hnum, maxBlocks, Nat.le_div_iff_mul_le hbs]
    omega

/-- A byte of the I/O lies in a block of the I/O. -/
theorem contains_of_byte (h : IOOk S run io) {b i : ℕ}
    (hi : i < (S.journal io.journal).journalBlockSize)
    (hle : io.absoluteOffset ≤ (S.journal io.journal).blockOffset b + i)
    (hlt : (S.journal io.journal).blockOffset b + i < io.absoluteOffset + io.ioLen) :
    io.range.Contains b := by
  rw [← h.base_eq, Journal.blockOffset, Journal.blockOffset] at hle
  rw [← h.base_eq, Journal.blockOffset, Journal.blockOffset, ← h.len_eq] at hlt
  constructor
  · show io.baseBlockIdx ≤ b
    by_contra hb
    have hmul := Nat.mul_le_mul_right (S.journal io.journal).journalBlockSize
      (by omega : b + 1 ≤ io.baseBlockIdx)
    rw [Nat.add_mul, Nat.one_mul] at hmul
    omega
  · show b < io.baseBlockIdx + io.numBlocks
    by_contra hb
    have hmul := Nat.mul_le_mul_right (S.journal io.journal).journalBlockSize
      (by omega : io.baseBlockIdx + io.numBlocks ≤ b)
    rw [Nat.add_mul] at hmul
    omega

/-- A block of the I/O starts inside the I/O. -/
theorem blockOffset_eq (h : IOOk S run io) (t : ℕ) :
    (S.journal io.journal).blockOffset (io.baseBlockIdx + t) =
      io.absoluteOffset + t * (S.journal io.journal).journalBlockSize := by
  rw [← h.base_eq, Journal.blockOffset, Journal.blockOffset]
  ring

/-- The bytes of a block of the I/O are bytes of the I/O. -/
theorem byte_lt (h : IOOk S run io) {t i : ℕ} (ht : t < io.numBlocks)
    (hi : i < (S.journal io.journal).journalBlockSize) :
    t * (S.journal io.journal).journalBlockSize + i < io.ioLen := by
  rw [← h.len_eq]
  have hmul := Nat.mul_le_mul_right (S.journal io.journal).journalBlockSize
    (by omega : t + 1 ≤ io.numBlocks)
  rw [Nat.add_mul, Nat.one_mul] at hmul
  omega

/-- The content expected at a byte of the I/O is that of its block. -/
theorem expectedByte_eq (h : IOOk S run io) (t : ℕ) {i : ℕ}
    (hi : i < (S.journal io.journal).journalBlockSize) :
    expectedByte (S.journal io.journal) io.gens io.absoluteOffset
        (t * (S.journal io.journal).journalBlockSize + i) =
      tileAt (S.journal io.journal)
        ((S.journal io.journal).blockOffset (io.baseBlockIdx + t)) (io.gens t) i := by
  rw [expectedByte_of_mem (k := t) (by omega) (by rw [Nat.add_mul, Nat.one_mul]; omega),
    Nat.add_sub_cancel_left, h.blockOffset_eq t]

theorem setGen (h : IOOk S run io) (i g : ℕ) : IOOk S run (io.setGen i g) :=
  ⟨h.base_eq, h.len_eq, h.len_le, h.end_lt, h.mapped⟩

theorem deliver (h : IOOk S run io) (i : ℕ) (v : BitVec 8) : IOOk S run (io.deliver i v) :=
  ⟨h.base_eq, h.len_eq, h.len_le, h.end_lt, h.mapped⟩

end IOOk

/-! ## The invariant -/

/-- The generation of a block that is being written: one of 1, 2, 3. -/
def IsNewGen (g : ℕ) : Prop := g ≠ 0 ∧ g < 4

theorem isNewGen_nextGen (g : ℕ) : IsNewGen (nextGen g) :=
  ⟨(nextGen_pos g).ne', nextGen_lt g⟩

variable (S) in
/-- How far the cells and the content of an I/O's blocks are in a stage. -/
def DataOk (cell : ℕ → ℕ) (content : ℕ → BitVec 8) (io : JournalBlockIO J) : Stage → Prop
  | .lockShared _ _ => io.readBuf = fun _ => none
  | .lockExclusive _ => True
  | .upgrade _ => True
  | .release next => ∀ msg, next ≠ .finish (.verifyFailed msg)
  | .scan _ _ i _ _ => i ≤ io.numBlocks ∧ (∀ t < i, cell (io.baseBlockIdx + t) = io.gens t) ∧
      io.readBuf = fun _ => none
  | .dataRead => (∀ t < io.numBlocks, cell (io.baseBlockIdx + t) = io.gens t) ∧
      ∀ i < io.ioLen, ∀ v, io.readBuf i = some v →
        io.gens (i / (S.journal io.journal).journalBlockSize) ≠ 0 →
          v = expectedByte (S.journal io.journal) io.gens io.absoluteOffset i
  | .claimLoad i _ => i ≤ io.numBlocks ∧
      ∀ t < i, cell (io.baseBlockIdx + t) = 0 ∧ IsNewGen (io.gens t)
  | .claimMark i anyWasVerifiable => i < io.numBlocks ∧ IsNewGen (io.gens i) ∧
      (∀ t < i, cell (io.baseBlockIdx + t) = 0 ∧ IsNewGen (io.gens t)) ∧
      (cell (io.baseBlockIdx + i) ≠ 0 → anyWasVerifiable = true)
  | .claimSync _ => ∀ t < io.numBlocks, cell (io.baseBlockIdx + t) = 0 ∧ IsNewGen (io.gens t)
  | .dataWrite => ∀ t < io.numBlocks, cell (io.baseBlockIdx + t) = 0 ∧ IsNewGen (io.gens t)
  | .commitCell i => (∀ t < io.numBlocks, IsNewGen (io.gens t) ∧
        HoldsTile (S.journal io.journal) content (io.baseBlockIdx + t) (io.gens t)) ∧
      ∀ t < io.numBlocks, i ≤ t → cell (io.baseBlockIdx + t) = 0
  | .commitSync _ => True

/-- What a stage says about cells and content survives a change outside the I/O's
blocks. -/
theorem DataOk.congr {cell cell' : ℕ → ℕ} {content content' : ℕ → BitVec 8}
    {io : JournalBlockIO J} {stage : Stage} (hd : DataOk S cell content io stage)
    (hsame : stage.Holding → ∀ t < io.numBlocks,
      cell' (io.baseBlockIdx + t) = cell (io.baseBlockIdx + t) ∧
      SameBlock (S.journal io.journal) content content' (io.baseBlockIdx + t)) :
    DataOk S cell' content' io stage := by
  cases stage with
  | lockShared => exact hd
  | lockExclusive => exact hd
  | upgrade => exact hd
  | release => exact hd
  | scan =>
    refine ⟨hd.1, fun t ht => ?_, hd.2.2⟩
    rw [(hsame trivial t (ht.trans_le hd.1)).1]
    exact hd.2.1 t ht
  | dataRead =>
    refine ⟨fun t ht => ?_, hd.2⟩
    rw [(hsame trivial t ht).1]
    exact hd.1 t ht
  | claimLoad =>
    refine ⟨hd.1, fun t ht => ?_⟩
    rw [(hsame trivial t (ht.trans_le hd.1)).1]
    exact hd.2 t ht
  | claimMark =>
    refine ⟨hd.1, hd.2.1, fun t ht => ?_, fun hne => ?_⟩
    · rw [(hsame trivial t (ht.trans hd.1)).1]
      exact hd.2.2.1 t ht
    · rw [(hsame trivial _ hd.1).1] at hne
      exact hd.2.2.2 hne
  | claimSync =>
    intro t ht
    rw [(hsame trivial t ht).1]
    exact hd t ht
  | dataWrite =>
    intro t ht
    rw [(hsame trivial t ht).1]
    exact hd t ht
  | commitCell =>
    refine ⟨fun t ht => ⟨(hd.1 t ht).1, (hd.1 t ht).2.congr (hsame trivial t ht).2⟩,
      fun t ht hle => ?_⟩
    rw [(hsame trivial t ht).1]
    exact hd.2 t ht hle
  | commitSync => exact hd

namespace World

variable (S) in
/-- A holder is in order. -/
def HolderOk (s : World J H) (h : H) : HolderState J → Prop
  | .idle o => s.locks.table.guard h = .free ∧ ∀ msg, o ≠ .verifyFailed msg
  | .busy io stage => IOOk S s.run io ∧ s.locks.range h = some io.range ∧
      GuardOk (s.locks.table.guard h) stage ∧
      DataOk S (s.cell io.journal) (s.target io.journal) io stage

variable (S) in
/-- The ranges that the stripes of a run cover. -/
def Covered (run : RunConfig) (r : BlockRange J) : Prop :=
  Covers (S.opts run r.journal) r.firstBlockIdx r.numBlocks

variable (S) in
/-- The invariant of the system. -/
structure Inv [DecidableEq H] (s : World J H) : Prop where
  locks : RangeLocks.Inv (S.opts s.run) (Covered S s.run) s.locks
  holders : ∀ h, HolderOk S s h (s.holder h)
  sound : ∀ k b, s.cell k b ≠ 0 → HoldsTile (S.journal k) (s.target k) b (s.cell k b)

variable [DecidableEq J] [DecidableEq H] {s s' : World J H} {h : H}

omit [DecidableEq J] in
theorem inv_init (run : RunConfig) (target : J → ℕ → BitVec 8) :
    Inv S (init run target : World J H) where
  locks := RangeLocks.inv_empty
  holders := fun h => ⟨rfl, by simp⟩
  sound := by
    intro k b hne
    exact absurd (by simp [cell, init, loadBlockGen, cellLocation]) hne

omit [DecidableEq J] in
/-- A private step of a holder keeps the invariant when the holder stays in
order. -/
theorem Inv.setHolder (hs : Inv S s) {x : HolderState J} (hok : HolderOk S s h x) :
    Inv S (s.setHolder h x) where
  locks := hs.locks
  holders := by
    intro i
    rcases eq_or_ne i h with rfl | hne
    · rw [setHolder_holder_self]
      exact hok
    · rw [setHolder_holder_of_ne s hne]
      exact hs.holders i
  sound := hs.sound

omit [DecidableEq J] [DecidableEq H] in
/-- A holder stays in order when its guard is not touched and the blocks that it
holds do not change. -/
theorem HolderOk.of_same {i : H} {x : HolderState J} (hx : HolderOk S s i x)
    (hrun : s'.run = s.run) (hguard : s'.locks.table.guard i = s.locks.table.guard i)
    (hrange : s'.locks.range i = s.locks.range i)
    (hsame : ∀ io stage, x = .busy io stage → stage.Holding → ∀ t < io.numBlocks,
      s'.cell io.journal (io.baseBlockIdx + t) = s.cell io.journal (io.baseBlockIdx + t) ∧
      SameBlock (S.journal io.journal) (s.target io.journal) (s'.target io.journal)
        (io.baseBlockIdx + t)) :
    HolderOk S s' i x := by
  cases x with
  | idle o => exact ⟨hguard.trans hx.1, hx.2⟩
  | busy io stage =>
    obtain ⟨hio, hr, hg, hd⟩ := hx
    exact ⟨hrun ▸ hio, hrange.trans hr, hguard ▸ hg, hd.congr (hsame io stage rfl)⟩

omit [DecidableEq J] in
/-- A lock step of a holder keeps the invariant when the holder stays in order. -/
theorem Inv.lockStep (hs : Inv S s) {op : RangeOp J H} {s₁ : World J H} {x : HolderState J}
    (hstep : s.lockStep S op = some s₁) (hallowed : RangeLocks.Allowed (Covered S s.run) op)
    (hok : HolderOk S s₁ (RangeLocks.holderOf op) x) :
    Inv S (s₁.setHolder (RangeLocks.holderOf op) x) := by
  obtain ⟨l, hl, rfl⟩ := lockStep_eq_some hstep
  refine ⟨hs.locks.step hallowed hl, fun i => ?_, hs.sound⟩
  rcases eq_or_ne i (RangeLocks.holderOf op) with rfl | hne
  · rw [setHolder_holder_self]
    exact hok
  · rw [setHolder_holder_of_ne _ hne]
    obtain ⟨hguard, hrange⟩ := RangeLocks.step_of_ne hl hne
    exact (hs.holders i).of_same rfl hguard hrange fun _ _ _ _ _ _ => ⟨rfl, fun _ _ => rfl⟩

omit [DecidableEq J] in
/-- The blocks of a holder's I/O that its guard is held for. -/
theorem Inv.holds (hs : Inv S s) {i : H} {io : JournalBlockIO J} {stage : Stage} {e : Bool}
    (hbusy : s.holder i = .busy io stage) (hheld : ∃ locks, s.locks.table.guard i = .held locks e) :
    s.locks.Holds i io.range e := by
  have hok := hs.holders i
  rw [hbusy] at hok
  exact ⟨hok.2.1, hheld⟩

omit [DecidableEq J] in
/-- **Exclusion in the system.**  A block in the range of a holder with an exclusive
guard is in the range of no other holder with a guard. -/
theorem Inv.exclusive (hs : Inv S s) {io io' : JournalBlockIO J} {stage stage' : Stage} {i : H}
    (hbusy : s.holder h = .busy io stage)
    (hexcl : ∃ locks, s.locks.table.guard h = .held locks true)
    (hbusy' : s.holder i = .busy io' stage') (hhold : stage'.Holding) (hne : i ≠ h) {b : ℕ}
    (hb : io.range.Contains b) (hb' : io'.range.Contains b) : io'.journal ≠ io.journal := by
  intro hk
  have hok := hs.holders i
  rw [hbusy'] at hok
  obtain ⟨locks, e, hheld⟩ := hok.2.2.1.held hhold
  have hfalse := hs.locks.exclusion (k := io.journal)
    (fun r hr hrk => by rw [← hrk]; exact hr) hne.symm (hs.holds hbusy hexcl)
    (hs.holds hbusy' ⟨locks, hheld⟩) rfl hk hb hb'
  exact absurd hfalse (by simp)

/-- **A writer's step keeps the invariant**, when it only changes cells and content
of its own blocks, those of its blocks with a non-zero cell hold the content of
it, and the writer stays in order. -/
theorem Inv.write (hs : Inv S s) {io : JournalBlockIO J} {stage : Stage} {x : HolderState J}
    (hbusy : s.holder h = .busy io stage)
    (hexcl : ∃ locks, s.locks.table.guard h = .held locks true)
    (hrun : s'.run = s.run) (hlocks : s'.locks = s.locks) (hholder : s'.holder = s.holder)
    (hout : ∀ k b, ¬ (k = io.journal ∧ io.range.Contains b) → s'.cell k b = s.cell k b ∧
      SameBlock (S.journal k) (s.target k) (s'.target k) b)
    (hin : ∀ b, io.range.Contains b → s'.cell io.journal b ≠ 0 →
      HoldsTile (S.journal io.journal) (s'.target io.journal) b (s'.cell io.journal b))
    (hok : HolderOk S s' h x) : Inv S (s'.setHolder h x) := by
  refine ⟨?_, fun i => ?_, fun k b hne => ?_⟩
  · show RangeLocks.Inv (S.opts s'.run) (Covered S s'.run) s'.locks
    rw [hrun, hlocks]
    exact hs.locks
  · rcases eq_or_ne i h with rfl | hne
    · rw [setHolder_holder_self]
      exact hok
    · rw [setHolder_holder_of_ne _ hne, hholder]
      refine (hs.holders i).of_same hrun (congrArg (fun l => l.table.guard i) hlocks)
        (congrArg (fun l => l.range i) hlocks) ?_
      intro io' stage' hbusy' hhold t ht
      refine hout _ _ ?_
      rintro ⟨hk, hb⟩
      exact hs.exclusive hbusy hexcl hbusy' hhold hne hb
        ⟨Nat.le_add_right _ _, Nat.add_lt_add_left ht _⟩ hk
  · by_cases hmine : k = io.journal ∧ io.range.Contains b
    · obtain ⟨rfl, hb⟩ := hmine
      exact hin b hb hne
    · obtain ⟨hcell, hsame⟩ := hout k b hmine
      have hne' : s.cell k b ≠ 0 := hcell ▸ hne
      show HoldsTile (S.journal k) (s'.target k) b (s'.cell k b)
      rw [hcell]
      exact (hs.sound k b hne').congr hsame

end World

end Elbencho
