import Elbencho.Journal.Soundness

/-!
# What survives a power failure

With `--journalsync` the cleared cells of a claim are brought to disk before the
data write, and the committed ones after it, so that a journal file that survives
a power failure should never describe content that the target does not have.
`claimForWrite` saves one of these `msync` calls: when no covered cell held a
generation in memory, it takes the file to hold zeros as well.

That is true in a run that started from agreement of file and memory, and the
first part of this module proves it: if every run with `--journalsync` starts in a
state in which each non-zero cell on disk equals the cell in memory, then in every
state of such a run each non-zero cell on disk describes its block
(`durable_of_synced_resume`).

It is not true in general.  A process that dies after the clear and before the
`msync` leaves a zero in memory and the old generation on disk, and the next run
takes the shortcut.  `resume_loses_durability` is such a history, with
`--journalsync` in all its runs.
-/

namespace Elbencho

open SharedLock Transition

variable {J H : Type*} (S : Setup J)

/-! ## Cells on disk -/

/-- The blocks whose cleared cell a claim has not brought to disk yet. -/
def PendingClear (io : JournalBlockIO J) : Stage → ℕ → Prop
  | .claimLoad i anyWasVerifiable, b =>
    anyWasVerifiable = true ∧ io.baseBlockIdx ≤ b ∧ b < io.baseBlockIdx + i
  | .claimMark i anyWasVerifiable, b =>
    anyWasVerifiable = true ∧ io.baseBlockIdx ≤ b ∧ b < io.baseBlockIdx + i
  | .claimSync pages, b => io.range.Contains b ∧ b / 4 / S.pageSize ∈ pages
  | _, _ => False

variable {S}

theorem PendingClear.holding {io : JournalBlockIO J} {stage : Stage} {b : ℕ}
    (h : PendingClear S io stage b) : stage.Holding := by
  cases stage with
  | claimLoad => exact trivial
  | claimMark => exact trivial
  | claimSync => exact trivial
  | _ => exact absurd h id

/-- A pending clear is one of the I/O's blocks. -/
theorem PendingClear.contains {cell : ℕ → ℕ} {content : ℕ → BitVec 8}
    {io : JournalBlockIO J} {stage : Stage} {b : ℕ} (h : PendingClear S io stage b)
    (hd : DataOk S cell content io stage) : io.range.Contains b := by
  cases stage with
  | claimLoad i =>
    have hi : i ≤ io.numBlocks := hd.1
    exact ⟨h.2.1, show b < io.baseBlockIdx + io.numBlocks by have := h.2.2; omega⟩
  | claimMark i =>
    have hi : i < io.numBlocks := hd.1
    exact ⟨h.2.1, show b < io.baseBlockIdx + io.numBlocks by have := h.2.2; omega⟩
  | claimSync => exact h.1
  | _ => exact absurd h id

namespace World

variable (S) in
/-- A non-zero cell on disk is the cell in memory, or a claim has cleared the cell in
memory, will bring it to disk before the data write, and the target still holds
the content. -/
def DiskOk (s : World J H) (k : J) (b : ℕ) : Prop :=
  s.diskCell k b ≠ 0 → s.diskCell k b = s.cell k b ∨
    ((∃ h io stage, s.holder h = .busy io stage ∧ io.journal = k ∧ PendingClear S io stage b) ∧
      HoldsTile (S.journal k) (s.target k) b (s.diskCell k b))

variable [DecidableEq J] [DecidableEq H] {s s' : World J H} {h : H} {k : J} {b : ℕ}

omit [DecidableEq J] in
/-- A non-zero cell on disk describes its block. -/
theorem DiskOk.holdsTile (hd : DiskOk S s k b) (hs : Inv S s) (hne : s.diskCell k b ≠ 0) :
    HoldsTile (S.journal k) (s.target k) b (s.diskCell k b) := by
  rcases hd hne with heq | ⟨-, htile⟩
  · rw [heq] at hne ⊢
    exact hs.sound k b hne
  · exact htile

omit [DecidableEq J] [DecidableEq H] in
/-- What a step has to respect at a block to keep its cell on disk in order. -/
theorem DiskOk.frame (hd : DiskOk S s k b) (hdisk : s'.diskCell k b = s.diskCell k b)
    (hcell : s'.cell k b = s.cell k b)
    (hpend : ∀ i io stage, s.holder i = .busy io stage → io.journal = k →
      PendingClear S io stage b →
      (∃ io' stage', s'.holder i = .busy io' stage' ∧ io'.journal = k ∧
        PendingClear S io' stage' b) ∧
      SameBlock (S.journal k) (s.target k) (s'.target k) b) :
    DiskOk S s' k b := by
  intro hne
  rw [hdisk] at hne ⊢
  rw [hcell]
  rcases hd hne with heq | ⟨⟨i, io, stage, hbusy, hk, hp⟩, htile⟩
  · exact Or.inl heq
  · obtain ⟨⟨io', stage', hbusy', hk', hp'⟩, hsame⟩ := hpend i io stage hbusy hk hp
    exact Or.inr ⟨⟨i, io', stage', hbusy', hk', hp'⟩, htile.congr hsame⟩

omit [DecidableEq J] [DecidableEq H] in
/-- A step that only changes locks and the state of one holder: the holder's pending
clears must stay pending. -/
theorem DiskOk.of_sameData (hd : DiskOk S s k b) (hsame : SameData h s s')
    (hpend : ∀ io stage, s.holder h = .busy io stage → PendingClear S io stage b →
      ∃ io' stage', s'.holder h = .busy io' stage' ∧ io'.journal = io.journal ∧
        PendingClear S io' stage' b) :
    DiskOk S s' k b := by
  refine hd.frame (by rw [diskCell, diskCell, hsame.disk]) (by rw [cell, cell, hsame.mem]) ?_
  intro i io stage hbusy hk hp
  refine ⟨?_, fun _ _ => by rw [hsame.target]⟩
  rcases eq_or_ne i h with rfl | hne
  · obtain ⟨io', stage', hx, hk', hp'⟩ := hpend io stage hbusy hp
    exact ⟨io', stage', hx, hk'.trans hk, hp'⟩
  · exact ⟨io, stage, (hsame.holder i hne).trans hbusy, hk, hp⟩

omit [DecidableEq J] [DecidableEq H] in
/-- The same for a holder that has no pending clear. -/
theorem DiskOk.of_not_pending {io : JournalBlockIO J} {stage : Stage} (hd : DiskOk S s k b)
    (hbusy : s.holder h = .busy io stage) (hnone : ¬ PendingClear S io stage b)
    (hsame : SameData h s s') : DiskOk S s' k b := by
  refine hd.of_sameData hsame fun io' stage' hbusy' hp => ?_
  rw [hbusy] at hbusy'
  injection hbusy' with h₁ h₂
  subst h₁ h₂
  exact absurd hp hnone

omit [DecidableEq J] in
/-- A pending clear of another holder is not a block of a holder with an exclusive
guard. -/
theorem Inv.not_pendingClear (hs : Inv S s) {io io' : JournalBlockIO J} {stage stage' : Stage}
    {i : H} (hbusy : s.holder h = .busy io stage)
    (hexcl : ∃ locks, s.locks.table.guard h = .held locks true)
    (hbusy' : s.holder i = .busy io' stage') (hp : PendingClear S io' stage' b) (hne : i ≠ h)
    (hb : io.range.Contains b) : io'.journal ≠ io.journal := by
  have hok := hs.holders i
  rw [hbusy'] at hok
  exact hs.exclusive hbusy hexcl hbusy' hp.holding hne hb (hp.contains hok.2.2.2)

/-- A step that changes the cell of one of an exclusive holder's blocks.  The new
cell and stage decide what becomes of the block itself. -/
theorem DiskOk.setMem (hd : DiskOk S s k b) (hs : Inv S s) {io : JournalBlockIO J}
    {stage : Stage} {i : ℕ} {map : CellMap} {x : HolderState J} (hbusy : s.holder h = .busy io stage)
    (hexcl : ∃ locks, s.locks.table.guard h = .held locks true) (hi : i < io.numBlocks)
    (hmap : ∀ b, b ≠ io.baseBlockIdx + i →
      loadBlockGen map b = loadBlockGen (s.mem io.journal) b)
    (hold : ¬ PendingClear S io stage (io.baseBlockIdx + i))
    (hpend : ∀ b, PendingClear S io stage b → ∃ io' stage', x = .busy io' stage' ∧
      io'.journal = io.journal ∧ PendingClear S io' stage' b)
    (hblock : s.diskCell io.journal (io.baseBlockIdx + i) ≠ 0 →
      s.diskCell io.journal (io.baseBlockIdx + i) = s.cell io.journal (io.baseBlockIdx + i) →
      DiskOk S ((s.setMem io.journal map).setHolder h x) io.journal (io.baseBlockIdx + i)) :
    DiskOk S ((s.setMem io.journal map).setHolder h x) k b := by
  by_cases hkb : k = io.journal ∧ b = io.baseBlockIdx + i
  · obtain ⟨rfl, rfl⟩ := hkb
    intro hne
    have hne' : s.diskCell io.journal (io.baseBlockIdx + i) ≠ 0 := hne
    rcases hd hne' with heq | ⟨⟨i', io', stage', hbusy', hk', hp'⟩, -⟩
    · exact hblock hne' heq hne
    · rcases eq_or_ne i' h with rfl | hih
      · rw [hbusy] at hbusy'
        injection hbusy' with h₁ h₂
        subst h₁ h₂
        exact absurd hp' hold
      · exact absurd hk' (hs.not_pendingClear hbusy hexcl hbusy' hp' hih (contains_add hi))
  · refine hd.frame rfl ?_ ?_
    · show (s.setMem io.journal map).cell k b = s.cell k b
      by_cases hk : k = io.journal
      · rw [hk, cell_setMem_self, hmap b fun hb => hkb ⟨hk, hb⟩, cell]
      · rw [cell_setMem_of_ne s hk]
    · intro i' io' stage' hbusy' hk' hp'
      refine ⟨?_, fun _ _ => rfl⟩
      rcases eq_or_ne i' h with rfl | hih
      · rw [hbusy] at hbusy'
        injection hbusy' with h₁ h₂
        subst h₁ h₂
        obtain ⟨io₁, stage₁, hx, hk₁, hp₁⟩ := hpend b hp'
        exact ⟨io₁, stage₁, by rw [setHolder_holder_self]; exact hx, hk₁.trans hk', hp₁⟩
      · exact ⟨io', stage', by rw [setHolder_holder_of_ne _ hih]; exact hbusy', hk', hp'⟩

omit [DecidableEq H] in
/-- A page that is written back leaves the cells on disk in order.  The clears of
the page are not pending any more. -/
theorem DiskOk.flushPage {page : ℕ} {k' : J} (hd : DiskOk S s k b) :
    DiskOk S (s.flushPage S k' page) k b := by
  by_cases hpage : k = k' ∧ b / 4 / S.pageSize = page
  · intro _
    left
    rw [diskCell_flushPage, if_pos hpage]
    rfl
  · refine hd.frame ?_ rfl ?_
    · rw [diskCell_flushPage, if_neg hpage]
    · exact fun i io stage hbusy hk hp => ⟨⟨io, stage, hbusy, hk, hp⟩, fun _ _ => rfl⟩

/-! ## Every step keeps the cells on disk in order -/

section Steps

variable {io : JournalBlockIO J} {m : Move}

/-- A step of a holder with the target's content: no claim's block is touched. -/
theorem DiskOk.setTarget (hd : DiskOk S s k b) (hs : Inv S s) {content : ℕ → BitVec 8}
    {x : HolderState J} (hbusy : s.holder h = .busy io .dataWrite)
    (hbytes : ∀ y, ¬ (io.absoluteOffset ≤ y ∧ y < io.absoluteOffset + io.ioLen) →
      content y = s.target io.journal y) :
    DiskOk S ((s.setTarget io.journal content).setHolder h x) k b := by
  have hok := hs.holders h
  rw [hbusy] at hok
  obtain ⟨hio, -, hexcl, -⟩ := hok
  refine hd.frame rfl rfl ?_
  intro i io' stage' hbusy' hk hp
  have hih : i ≠ h := by
    rintro rfl
    rw [hbusy] at hbusy'
    injection hbusy' with h₁ h₂
    subst h₁ h₂
    exact hp
  refine ⟨⟨io', stage', by rw [setHolder_holder_of_ne _ hih]; exact hbusy', hk, hp⟩, ?_⟩
  show SameBlock (S.journal k) (s.target k) ((s.setTarget io.journal content).target k) b
  by_cases hkio : k = io.journal
  · subst hkio
    rw [target_setTarget_self]
    intro j hj
    refine hbytes _ ?_
    rintro ⟨hle, hlt⟩
    exact hs.not_pendingClear hbusy hexcl hbusy' hp hih (hio.contains_of_byte hj hle hlt) hk
  · rw [target_setTarget_of_ne s hkio]
    exact fun _ _ => rfl

/-- The end of the loads of a claim: either the clears go to disk next, or there are
none to go. -/
theorem DiskOk.move_claimLoad (hd : DiskOk S s k b) (hs : Inv S s)
    (hsync : s.run.journalSyncEnabled = true) {i : ℕ}
    {anyWasVerifiable : Bool} (hbusy : s.holder h = .busy io (.claimLoad i anyWasVerifiable))
    (hm : s.move S h io (.claimLoad i anyWasVerifiable) m = some s') :
    DiskOk S s' k b := by
  have hok := hs.holders h
  rw [hbusy] at hok
  obtain ⟨hio, -, -, hle, -⟩ := hok
  rcases World.move_claimLoad hm with ⟨hi, rfl⟩ | ⟨hi, -, -, rfl⟩ | ⟨hi, hno, rfl⟩
  · refine hd.of_sameData (sameData_setHolder s s.locks h _) fun io' stage' hbusy' hp => ?_
    rw [hbusy] at hbusy'
    injection hbusy' with h₁ h₂
    subst h₁ h₂
    refine ⟨_, _, setHolder_holder_self _ _ _, rfl, ?_, hp.2⟩
    rw [hp.1, Bool.true_or]
  · refine hd.of_sameData (sameData_setHolder s s.locks h _) fun io' stage' hbusy' hp => ?_
    rw [hbusy] at hbusy'
    injection hbusy' with h₁ h₂
    subst h₁ h₂
    have hb : io.baseBlockIdx ≤ b ∧ b < io.baseBlockIdx + io.numBlocks :=
      ⟨hp.2.1, by have := hp.2.2; omega⟩
    have hmap : (S.journal io.journal).mapLength ≤ Word64.size / 8 := by
      rw [Journal.mapLength]
      exact Nat.div_le_div_right (Word64.add_lt _ _).le
    have hsize : Word64.size = 2 ^ 64 := rfl
    have hmapped := hio.mapped
    exact ⟨_, _, setHolder_holder_self _ _ _, rfl, hb,
      mem_syncPages S.pageSize_pos hmapped (by omega) hb⟩
  · refine hd.of_not_pending hbusy ?_ (sameData_setHolder s s.locks h _)
    exact fun hp => hno ⟨hp.1, hsync⟩

/-- A claim's clear of a cell that is not yet clear on disk is pending from then
on. -/
theorem DiskOk.move_claimMark (hd : DiskOk S s k b) (hs : Inv S s) {i : ℕ} {anyWasVerifiable : Bool}
    (hbusy : s.holder h = .busy io (.claimMark i anyWasVerifiable))
    (hm : s.move S h io (.claimMark i anyWasVerifiable) m = some s') :
    DiskOk S s' k b := by
  have hok := hs.holders h
  rw [hbusy] at hok
  obtain ⟨-, -, hexcl, hi, -, -, hany⟩ := hok
  rw [World.move_claimMark hm]
  refine hd.setMem hs hbusy hexcl hi (fun b hb => loadBlockGen_markBlockBusy_of_ne _ hb) ?_ ?_ ?_
  · exact fun hp => absurd hp.2.2 (by omega)
  · exact fun b hp => ⟨_, _, rfl, rfl, hp.1, hp.2.1, by have := hp.2.2; omega⟩
  · intro hne heq _
    rw [heq] at hne
    refine Or.inr ⟨⟨h, _, _, setHolder_holder_self _ _ _, rfl, hany hne, by omega, by omega⟩, ?_⟩
    have htile := hs.sound io.journal (io.baseBlockIdx + i) hne
    rw [← heq] at htile
    exact htile

/-- The commit of a cell: the cell on disk is still clear. -/
theorem DiskOk.move_commitCell (hd : DiskOk S s k b) (hs : Inv S s) {i : ℕ}
    (hbusy : s.holder h = .busy io (.commitCell i))
    (hm : s.move S h io (.commitCell i) m = some s') :
    DiskOk S s' k b := by
  have hok := hs.holders h
  rw [hbusy] at hok
  obtain ⟨-, -, hexcl, -, hcells⟩ := hok
  rcases World.move_commitCell hm with ⟨hi, rfl⟩ | rfl | hrel
  · refine hd.setMem hs hbusy hexcl hi (fun b hb => loadBlockGen_commitBlockGen_of_ne _ _ hb)
      id (fun _ hp => absurd hp id) ?_
    intro hne heq
    rw [heq, hcells i hi le_rfl] at hne
    exact absurd rfl hne
  · exact hd.of_not_pending hbusy id (sameData_setHolder s s.locks h _)
  · exact hd.of_not_pending hbusy id (sameData_startRelease hrel)

/-- One page of a claim's `msync`. -/
theorem DiskOk.claimSync_page (hd : DiskOk S s k b) {page : ℕ} {rest : List ℕ}
    (hbusy : s.holder h = .busy io (.claimSync (page :: rest))) :
    DiskOk S ((s.flushPage S io.journal page).setHolder h (.busy io (.claimSync rest))) k b := by
  by_cases hpage : k = io.journal ∧ b / 4 / S.pageSize = page
  · intro _
    left
    show (s.flushPage S io.journal page).diskCell k b = s.cell k b
    rw [diskCell_flushPage, if_pos hpage]
  · refine hd.frame ?_ rfl ?_
    · show (s.flushPage S io.journal page).diskCell k b = s.diskCell k b
      rw [diskCell_flushPage, if_neg hpage]
    · intro i io' stage' hbusy' hk hp
      refine ⟨?_, fun _ _ => rfl⟩
      rcases eq_or_ne i h with rfl | hih
      · rw [hbusy] at hbusy'
        injection hbusy' with h₁ h₂
        subst h₁ h₂
        refine ⟨_, _, setHolder_holder_self _ _ _, hk, hp.1, ?_⟩
        rcases List.mem_cons.mp hp.2 with heq | hmem
        · exact absurd ⟨hk.symm, heq⟩ hpage
        · exact hmem
      · exact ⟨io', stage', by rw [setHolder_holder_of_ne _ hih]; exact hbusy', hk, hp⟩

/-- **Every move of a run with `--journalsync` keeps the cells on disk in order**, as
long as `msync` does what it promises. -/
theorem DiskOk.move (hd : DiskOk S s k b) (hs : Inv S s)
    (hsync : s.run.journalSyncEnabled = true) {stage : Stage}
    (hbusy : s.holder h = .busy io stage) (hnofail : m ≠ .syncFail)
    (hm : s.move S h io stage m = some s') : DiskOk S s' k b := by
  cases stage with
  | lockShared intent mayBlock =>
    rcases World.move_lockShared hm with hlock | hrefuse
    · exact hd.of_not_pending hbusy id (sameData_lockNext hlock)
    · exact hd.of_not_pending hbusy id (sameData_refuseNext hrefuse)
  | scan =>
    rcases World.move_scan hm with ⟨-, _, _, rfl⟩ | ⟨-, rfl | hrel | hrel⟩
    · exact hd.of_not_pending hbusy id (sameData_setHolder s s.locks h _)
    · exact hd.of_not_pending hbusy id (sameData_setHolder s s.locks h _)
    · exact hd.of_not_pending hbusy id (sameData_startRelease hrel)
    · exact hd.of_not_pending hbusy id (sameData_startRelease hrel)
  | upgrade mayBlock =>
    obtain ⟨s₁, hs₁, rfl⟩ := World.move_upgrade hm
    exact hd.of_not_pending hbusy id (sameData_of_lockStep hs₁).2
  | lockExclusive mayBlock =>
    rcases World.move_lockExclusive hm with hlock | hrefuse
    · exact hd.of_not_pending hbusy id (sameData_lockNext hlock)
    · exact hd.of_not_pending hbusy id (sameData_refuseNext hrefuse)
  | claimLoad => exact hd.move_claimLoad hs hsync hbusy hm
  | claimMark => exact hd.move_claimMark hs hbusy hm
  | claimSync pages =>
    rcases World.move_claimSync hm with ⟨rfl, rfl⟩ | ⟨page, rest, rfl, rfl⟩ | ⟨hfail, -⟩
    · refine hd.of_not_pending hbusy ?_ (sameData_setHolder s s.locks h _)
      exact fun hp => absurd hp.2 (by simp)
    · exact hd.claimSync_page hbusy
    · exact absurd hfail hnofail
  | dataRead =>
    rcases World.move_dataRead hm with ⟨i, -, rfl⟩ | ⟨-, hrel⟩ | hrel
    · exact hd.of_not_pending hbusy id (sameData_setHolder s s.locks h _)
    · exact hd.of_not_pending hbusy id (sameData_startRelease hrel)
    · exact hd.of_not_pending hbusy id (sameData_startRelease hrel)
  | dataWrite =>
    rcases World.move_dataWrite hm with ⟨addr, v, hle, hlt, rfl⟩ | rfl | hrel
    · have hself : (s.setTarget io.journal
          (Function.update (s.target io.journal) addr v)).setHolder h (.busy io .dataWrite) =
          s.setTarget io.journal (Function.update (s.target io.journal) addr v) :=
        setHolder_eq_self _ hbusy
      rw [← hself]
      refine hd.setTarget hs hbusy fun y hy => Function.update_of_ne ?_ _ _
      rintro rfl
      exact hy ⟨hle, hlt⟩
    · exact hd.setTarget hs hbusy fun y hy => if_neg hy
    · exact hd.of_not_pending hbusy id (sameData_startRelease hrel)
  | commitCell => exact hd.move_commitCell hs hbusy hm
  | commitSync pages =>
    rcases World.move_commitSync hm with ⟨page, rest, -, rfl⟩ | hrel
    · exact hd.flushPage.of_not_pending hbusy id (sameData_setHolder _ s.locks h _)
    · exact hd.of_not_pending hbusy id (sameData_startRelease hrel)
  | release next =>
    exact hd.of_not_pending hbusy id (sameData_unlockNext (World.move_release hm))

end Steps

/-! ## Histories of runs -/

variable (S) in
/-- What is assumed of a history: the I/Os are aligned, and an `msync` returns once
its pages are on disk. -/
def DurableRequest (s : World J H) : WorldAction J H → Prop
  | .beginRequest _ k off len _ _ => AlignedRequest (S.journal k) s.run.maxIOSize off len
  | .move _ m => m ≠ .syncFail
  | _ => True

/-- A run with `--journalsync` starts where each non-zero cell on disk is the cell in
memory. -/
def ResumesSynced (s : World J H) : WorldAction J H → Prop
  | .restart run => run.journalSyncEnabled = true →
      ∀ k b, s.diskCell k b ≠ 0 → s.diskCell k b = s.cell k b
  | _ => True

instance (s : World J H) : ∀ a, Decidable (DurableRequest S s a)
  | .beginRequest _ k off len _ _ =>
    inferInstanceAs (Decidable (AlignedRequest (S.journal k) s.run.maxIOSize off len))
  | .move _ m => inferInstanceAs (Decidable (m ≠ .syncFail))
  | .writeBack _ _ => isTrue trivial
  | .restart _ => isTrue trivial

omit [DecidableEq J] [DecidableEq H] in
theorem DurableRequest.admissible {a : WorldAction J H} (ha : DurableRequest S s a) :
    Admissible S s a := by
  cases a with
  | beginRequest h k off len intent mayBlock => exact ha
  | _ => exact trivial

variable (S) in
/-- The invariant together with the order of the cells on disk in runs with
`--journalsync`. -/
def DurableInv (s : World J H) : Prop :=
  Inv S s ∧ (s.run.journalSyncEnabled = true → ∀ k b, DiskOk S s k b)

omit [DecidableEq J] in
theorem durableInv_init (run : RunConfig) (target : J → ℕ → BitVec 8) :
    DurableInv S (init run target : World J H) := by
  refine ⟨inv_init run target, fun _ k b hne => absurd ?_ hne⟩
  simp [diskCell, init, loadBlockGen, cellLocation]

/-- **Every step of a history that resumes in agreement keeps it durable.** -/
theorem DurableInv.step (hs : DurableInv S s) {a : WorldAction J H} (hio : DurableRequest S s a)
    (hresume : ResumesSynced s a) (hstep : s.step S a = some s') : DurableInv S s' := by
  refine ⟨hs.1.step hio.admissible hstep, ?_⟩
  intro hsync k b
  cases a with
  | beginRequest h k' off len intent mayBlock =>
    rw [World.step] at hstep
    split at hstep
    · next last hidle =>
      have hsame := sameData_beginRequest hstep
      refine (hs.2 (by rw [← hsame.run]; exact hsync) k b).of_sameData hsame ?_
      intro io stage hbusy
      rw [hidle] at hbusy
      exact absurd hbusy (by simp)
    · exact absurd hstep (by simp)
  | move h m =>
    rw [World.step] at hstep
    split at hstep
    · exact absurd hstep (by simp)
    · next io stage hbusy =>
      have hsync' : s.run.journalSyncEnabled = true := by rw [← run_move hstep]; exact hsync
      exact (hs.2 hsync' k b).move hs.1 hsync' hbusy hio hstep
  | writeBack k' page =>
    obtain rfl := Option.some.inj hstep
    exact (hs.2 hsync k b).flushPage
  | restart run =>
    obtain rfl := Option.some.inj hstep
    exact fun hne => Or.inl (hresume hsync k b hne)

end World

open World in
/-- **Durability of synced resumes.**  Take any history of runs, with and without
`--journalsync`, with crashes at any step and any background write-back, in which
each run with `--journalsync` starts in a state in which every non-zero cell on disk
equals the cell in memory.  Then in every state of a run with `--journalsync` each
block with a non-zero cell on disk holds the content of that cell: a power failure
leaves a journal file that is right about the target. -/
theorem durable_of_synced_resume {J H : Type} [DecidableEq J] [DecidableEq H] (S : Setup J)
    (run : RunConfig) (target : J → ℕ → BitVec 8) (s : World J H)
    (hreach : Reach (step S) (fun s a => DurableRequest S s a ∧ ResumesSynced s a)
      (init run target) s) (hsync : s.run.journalSyncEnabled = true) :
    ∀ k b, s.diskCell k b ≠ 0 → HoldsTile (S.journal k) (s.target k) b (s.diskCell k b) := by
  have hinv : DurableInv S s :=
    hreach.invariant (durableInv_init run target) fun _ _ _ hu ha hstep =>
      hu.step ha.1 ha.2 hstep
  intro k b hne
  exact (hinv.2 hsync k b).holdsTile hinv.1 hne

/-- A write of block 0 by the only holder, from the start to the end of the I/O, in a
run with `--journalsync`. -/
def syncedWrite : List (WorldAction Unit Unit) :=
  [.beginRequest () () 0 8 .write true, .move () .lock, .move () .advance, .move () .advance,
    .move () .advance, .move () .ioDone, .move () .advance, .move () .advance, .move () .advance,
    .move () .advance, .move () .unlock]

/-- The steps that keep a run going. -/
def WithinRun : WorldAction Unit Unit → Bool
  | .restart _ => false
  | _ => true

open World in
/-- The statement is not empty: after one write the file has generation 1 of block 0,
and the target has its content. -/
theorem durable_after_syncedWrite :
    ∃ s : World Unit Unit,
      Reach (step tinySetup) (fun s a => DurableRequest tinySetup s a ∧ ResumesSynced s a)
        (init (tinyRun true) fun _ _ => 0#8) s ∧
      s.diskCell () 0 = 1 ∧
      HoldsTile (tinySetup.journal ()) (s.target ()) 0 (s.diskCell () 0) := by
  obtain ⟨s, hs, hsync, hdisk⟩ : ∃ s, runTrace (checkedStep (step tinySetup)
      fun s a => DurableRequest tinySetup s a ∧ WithinRun a = true)
      (init (tinyRun true) fun _ _ => 0#8) syncedWrite = some s ∧
      s.run.journalSyncEnabled = true ∧ s.diskCell () 0 = 1 :=
    ⟨_, rfl, rfl, by decide⟩
  have hreach : Reach (step tinySetup) (fun s a => DurableRequest tinySetup s a ∧ ResumesSynced s a)
      (init (tinyRun true) fun _ _ => 0#8) s := by
    refine (reach_of_runTrace_checked _ _ syncedWrite hs).weaken fun u a ha => ⟨ha.1, ?_⟩
    cases a with
    | restart run => exact absurd ha.2 (by simp [WithinRun])
    | _ => exact trivial
  exact ⟨s, hreach, hdisk,
    durable_of_synced_resume tinySetup (tinyRun true) _ s hreach hsync () 0 (by rw [hdisk]; decide)⟩

/-- After a complete write, a second one dies between the clear of the cell and the
`msync`, and the next run starts to write the block. -/
def lostClear : List (WorldAction Unit Unit) :=
  syncedWrite ++
    [.beginRequest () () 0 8 .write true, .move () .lock, .move () .advance, .move () .advance,
      .restart (tinyRun true),
      .beginRequest () () 0 8 .write true, .move () .lock, .move () .advance, .move () .advance,
      .move () .advance, .move () (.scribble 0 0#8)]

open World in
/-- **A power failure that the journal does not survive.**  In a history with
`--journalsync` in all its runs the file says generation 1 of a block whose content
is being overwritten. -/
theorem resume_loses_durability :
    ∃ s : World Unit Unit,
      Reach (step tinySetup) (DurableRequest tinySetup) (init (tinyRun true) fun _ _ => 0#8) s ∧
      s.run.journalSyncEnabled = true ∧ s.diskCell () 0 = 1 ∧
      ¬ HoldsTile (tinySetup.journal ()) (s.target ()) 0 (s.diskCell () 0) := by
  obtain ⟨s, hs, hsync, hdisk, hbyte⟩ : ∃ s, runTrace (checkedStep (step tinySetup)
      (DurableRequest tinySetup)) (init (tinyRun true) fun _ _ => 0#8) lostClear = some s ∧
      s.run.journalSyncEnabled = true ∧ s.diskCell () 0 = 1 ∧
      s.target () 0 ≠ tileAt (tinySetup.journal ()) 0 1 0 :=
    ⟨_, rfl, rfl, by decide, by decide⟩
  refine ⟨s, reach_of_runTrace_checked _ _ lostClear hs, hsync, hdisk, fun htile => hbyte ?_⟩
  rw [hdisk] at htile
  exact htile 0 (by decide)

end Elbencho
