import Elbencho.Journal.Invariant

/-!
# Journal soundness

**Main statement** (`journal_sound`).  In every reachable state of the concurrent
system, a block whose cell is a non-zero generation holds exactly the content of
that generation, and a data read that the journal admitted and that completed
under its guard passes verification.

The proof goes through the stages of a holder: each move keeps the invariant
(`World.Inv.move`), because the lock steps keep the guard in the state of the
stage, a claim clears a cell before the content changes, and a commit sets a cell
after the content is in place.
-/

namespace Elbencho

open SharedLock Transition

namespace World

variable {J H : Type*} {S : Setup J} [DecidableEq J] [DecidableEq H] {s s' : World J H} {h : H}

/-! ## Lock steps of a holder -/

section LockSteps

variable {io : JournalBlockIO J} {stage : Stage}

omit [DecidableEq J] in
/-- The stripes of a held guard are those of the I/O, so there is at least one. -/
theorem Inv.held_ne_nil (hs : Inv S s) {locks : List Stripe} {e : Bool}
    (hheld : s.locks.table.guard h = .held locks e) : locks ≠ [] := by
  obtain ⟨r, -, -, rfl⟩ := hs.locks.planned h locks (by rw [hheld]; rfl)
  exact rangeStripes_ne_nil _ _ _

omit [DecidableEq J] in
/-- Starting the release of a held guard. -/
theorem Inv.startRelease (hs : Inv S s) {next : AfterRelease}
    (hbusy : s.holder h = .busy io stage) (hhold : stage.Holding)
    (hnext : ∀ msg, next ≠ .finish (.verifyFailed msg))
    (hm : s.startRelease S h io next = some s') : Inv S s' := by
  have hok := hs.holders h
  rw [hbusy] at hok
  obtain ⟨hio, hrange, hguard, -⟩ := hok
  obtain ⟨locks, e, hheld⟩ := hguard.held hhold
  obtain ⟨s₁, hs₁, rfl⟩ := Option.map_eq_some_iff.mp hm
  refine hs.lockStep hs₁ trivial ?_
  obtain ⟨l, hl, rfl⟩ := lockStep_eq_some hs₁
  obtain ⟨hr, hg⟩ := RangeLocks.step_release hl hheld
  refine ⟨hio, (congrFun hr h).trans hrange, ?_, hnext⟩
  obtain ⟨x, rest, rfl⟩ := List.exists_cons_of_ne_nil (hs.held_ne_nil hheld)
  exact ⟨x, rest, e, hg⟩

omit [DecidableEq J] in
/-- The next lock of an acquisition. -/
theorem Inv.lockNext (hs : Inv S s) {got todo : List Stripe} {x : Stripe} {e b : Bool}
    (hbusy : s.holder h = .busy io stage)
    (hguard : s.locks.table.guard h = .acquiring got (x :: todo) e b)
    (hstay : ∀ got x todo, GuardOk (.acquiring got (x :: todo) e b) stage)
    (hgranted : ∀ locks, GuardOk (.held locks e) (granted stage))
    (hdata : DataOk S (s.cell io.journal) (s.target io.journal) io (granted stage))
    (hm : s.lockNext S h io stage = some s') : Inv S s' := by
  have hok := hs.holders h
  rw [hbusy] at hok
  obtain ⟨hio, hrange, -, hdata'⟩ := hok
  obtain ⟨s₁, hs₁, hs'⟩ := Option.map_eq_some_iff.mp hm
  obtain ⟨l, hl, rfl⟩ := lockStep_eq_some hs₁
  obtain ⟨hr, hg⟩ := RangeLocks.step_lock hl hguard
  have hr' : l.range h = some io.range := (congrFun hr h).trans hrange
  cases todo with
  | nil =>
    have hheld : l.table.guard h = .held (got ++ [x]) e := hg
    simp only [hheld] at hs'
    rw [← hs']
    exact hs.lockStep hs₁ trivial ⟨hio, hr', hheld ▸ hgranted _, hdata⟩
  | cons y todo =>
    have hacq : l.table.guard h = .acquiring (got ++ [x]) (y :: todo) e b := hg
    simp only [hacq] at hs'
    rw [← hs', ← setHolder_eq_self { s with locks := l } hbusy]
    exact hs.lockStep hs₁ trivial ⟨hio, hr', hacq ▸ hstay _ _ _, hdata'⟩

omit [DecidableEq J] in
/-- The failed try of a lock. -/
theorem Inv.refuseNext (hs : Inv S s) {got todo : List Stripe} {e b : Bool}
    (hbusy : s.holder h = .busy io stage)
    (hguard : s.locks.table.guard h = .acquiring got todo e b)
    (hm : s.refuseNext S h io = some s') : Inv S s' := by
  have hok := hs.holders h
  rw [hbusy] at hok
  obtain ⟨hio, hrange, -, -⟩ := hok
  obtain ⟨s₁, hs₁, hs'⟩ := Option.map_eq_some_iff.mp hm
  obtain ⟨l, hl, rfl⟩ := lockStep_eq_some hs₁
  obtain ⟨-, hr, hg⟩ := RangeLocks.step_refuse hl hguard
  cases got with
  | nil =>
    have hfree : l.table.guard h = .free := hg
    simp only [hfree] at hs'
    rw [← hs']
    exact hs.lockStep hs₁ trivial ⟨hfree, by simp⟩
  | cons x rest =>
    have hrel : l.table.guard h = .releasing (x :: rest) e := hg
    simp only [hrel] at hs'
    rw [← hs']
    exact hs.lockStep hs₁ trivial
      ⟨hio, (congrFun hr h).trans hrange, ⟨x, rest, e, hrel⟩, fun msg => by simp⟩

omit [DecidableEq J] in
/-- The next unlock of a release. -/
theorem Inv.unlockNext (hs : Inv S s) {next : AfterRelease}
    (hbusy : s.holder h = .busy io (.release next))
    (hm : s.unlockNext S h io next = some s') : Inv S s' := by
  have hok := hs.holders h
  rw [hbusy] at hok
  obtain ⟨hio, hrange, ⟨x, rest, e, hguard⟩, hnext⟩ := hok
  obtain ⟨s₁, hs₁, hs'⟩ := Option.map_eq_some_iff.mp hm
  obtain ⟨l, hl, rfl⟩ := lockStep_eq_some hs₁
  obtain ⟨hr, hg⟩ := RangeLocks.step_unlock hl hguard
  have hr' : l.range h = some io.range := (congrFun hr h).trans hrange
  cases rest with
  | nil =>
    have hfree : l.table.guard h = .free := hg
    simp only [hfree] at hs'
    rw [← hs']
    refine hs.lockStep hs₁ trivial ?_
    cases next with
    | finish o => exact ⟨hfree, fun msg ho => hnext msg (by rw [ho])⟩
    | upgrade mayBlock => exact ⟨hio, hr', hfree, trivial⟩
  | cons y rest =>
    have hrel : l.table.guard h = .releasing (y :: rest) e := hg
    simp only [hrel] at hs'
    rw [← hs', ← setHolder_eq_self { s with locks := l } hbusy]
    exact hs.lockStep hs₁ trivial ⟨hio, hr', ⟨y, rest, e, hrel⟩, hnext⟩

omit [DecidableEq J] in
/-- A call of `acquireRange` for the range of an I/O that is in order. -/
theorem Inv.acquire (hs : Inv S s) {e b : Bool} {s₁ : World J H} (hio : IOOk S s.run io)
    (hstay : ∀ got x todo, GuardOk (.acquiring got (x :: todo) e b) stage)
    (hdata : DataOk S (s.cell io.journal) (s.target io.journal) io stage)
    (hs₁ : s.lockStep S (.acquireRange h io.range e b) = some s₁) :
    Inv S (s₁.setHolder h (.busy io stage)) := by
  refine hs.lockStep hs₁ hio.covers ?_
  obtain ⟨l, hl, rfl⟩ := lockStep_eq_some hs₁
  obtain ⟨-, hr, hg⟩ := RangeLocks.step_acquireRange hl
  obtain ⟨x, todo, hcons⟩ := List.exists_cons_of_ne_nil
    (rangeStripes_ne_nil (S.opts s.run io.range.journal) io.range.firstBlockIdx io.range.numBlocks)
  rw [hcons] at hg
  have hacq : l.table.guard h = .acquiring [] (x :: todo) e b := hg
  exact ⟨hio, hr, hacq ▸ hstay _ _ _, hdata⟩

end LockSteps

/-! ## Data steps of a holder -/

section DataSteps

variable {io : JournalBlockIO J}

omit [DecidableEq J] [DecidableEq H] in
/-- A block of the I/O is one of its blocks by number. -/
theorem exists_of_contains {b : ℕ} (hb : io.range.Contains b) :
    ∃ t < io.numBlocks, b = io.baseBlockIdx + t := by
  obtain ⟨hle, hlt⟩ := hb
  have hle' : io.baseBlockIdx ≤ b := hle
  have hlt' : b < io.baseBlockIdx + io.numBlocks := hlt
  exact ⟨b - io.baseBlockIdx, by omega, by omega⟩

omit [DecidableEq J] [DecidableEq H] in
theorem contains_add {t : ℕ} (ht : t < io.numBlocks) :
    io.range.Contains (io.baseBlockIdx + t) :=
  ⟨Nat.le_add_right _ _, Nat.add_lt_add_left ht _⟩

/-- A step of a writer that changes one cell of its blocks. -/
theorem Inv.setMem (hs : Inv S s) {stage : Stage} {x : HolderState J} {i : ℕ} {map : CellMap}
    (hbusy : s.holder h = .busy io stage)
    (hexcl : ∃ locks, s.locks.table.guard h = .held locks true) (hi : i < io.numBlocks)
    (hmap : ∀ b, b ≠ io.baseBlockIdx + i →
      loadBlockGen map b = loadBlockGen (s.mem io.journal) b)
    (htile : loadBlockGen map (io.baseBlockIdx + i) ≠ 0 →
      HoldsTile (S.journal io.journal) (s.target io.journal) (io.baseBlockIdx + i)
        (loadBlockGen map (io.baseBlockIdx + i)))
    (hok : HolderOk S (s.setMem io.journal map) h x) :
    Inv S ((s.setMem io.journal map).setHolder h x) := by
  refine hs.write hbusy hexcl rfl rfl rfl ?_ ?_ hok
  · intro k b hout
    refine ⟨?_, fun _ _ => rfl⟩
    by_cases hk : k = io.journal
    · subst hk
      rw [cell_setMem_self, hmap b fun hb => hout ⟨rfl, hb ▸ contains_add hi⟩, cell]
    · rw [cell_setMem_of_ne s hk]
  · intro b hb hne
    rw [cell_setMem_self] at hne ⊢
    by_cases hbi : b = io.baseBlockIdx + i
    · rw [hbi] at hne ⊢
      exact htile hne
    · rw [hmap b hbi] at hne ⊢
      exact hs.sound io.journal b hne

/-- A step of a writer that changes content of its blocks while their cells are
0. -/
theorem Inv.setTarget (hs : Inv S s) {x : HolderState J} {content : ℕ → BitVec 8}
    (hbusy : s.holder h = .busy io .dataWrite)
    (hbytes : ∀ y, ¬ (io.absoluteOffset ≤ y ∧ y < io.absoluteOffset + io.ioLen) →
      content y = s.target io.journal y)
    (hok : HolderOk S (s.setTarget io.journal content) h x) :
    Inv S ((s.setTarget io.journal content).setHolder h x) := by
  have hold := hs.holders h
  rw [hbusy] at hold
  obtain ⟨hio, -, hexcl, hdata⟩ := hold
  refine hs.write hbusy hexcl rfl rfl rfl ?_ ?_ hok
  · intro k b hout
    refine ⟨rfl, ?_⟩
    by_cases hk : k = io.journal
    · subst hk
      rw [target_setTarget_self]
      intro i hi
      refine hbytes _ ?_
      rintro ⟨hle, hlt⟩
      exact hout ⟨rfl, hio.contains_of_byte hi hle hlt⟩
    · rw [target_setTarget_of_ne s hk]
      exact fun _ _ => rfl
  · intro b hb hne
    obtain ⟨t, ht, rfl⟩ := exists_of_contains hb
    exact absurd (hdata t ht).1 hne

omit [DecidableEq J] [DecidableEq H] in
/-- A complete write puts the content of its generations into its blocks. -/
theorem holdsTile_written {run : RunConfig} (hio : IOOk S run io) (content : ℕ → BitVec 8)
    {t : ℕ} (ht : t < io.numBlocks) :
    HoldsTile (S.journal io.journal) (written S io content) (io.baseBlockIdx + t)
      (io.gens t) := by
  intro i hi
  have hlt := hio.byte_lt ht hi
  have hpos : io.absoluteOffset ≤ (S.journal io.journal).blockOffset (io.baseBlockIdx + t) + i ∧
      (S.journal io.journal).blockOffset (io.baseBlockIdx + t) + i <
        io.absoluteOffset + io.ioLen := by
    rw [hio.blockOffset_eq t]
    omega
  have hsub : (S.journal io.journal).blockOffset (io.baseBlockIdx + t) + i - io.absoluteOffset =
      t * (S.journal io.journal).journalBlockSize + i := by
    rw [hio.blockOffset_eq t]
    omega
  rw [written, if_pos hpos, hsub, preWriteJournalFillBuf_apply _ _ _ _ hlt,
    hio.expectedByte_eq t hi]

omit [DecidableEq J] [DecidableEq H] in
/-- A complete read of a reader that is in order passes verification. -/
theorem verify_of_complete {cell : ℕ → ℕ} {content : ℕ → BitVec 8}
    (hdata : DataOk S cell content io .dataRead) (hc : ReadComplete io) (verifyBuf : Buf) :
    postReadJournalVerifyBuf (S.journal io.journal) io.gens (hostIOBuf io) verifyBuf io.ioLen
      io.absoluteOffset = .ok () := by
  rw [postReadJournalVerifyBuf_eq_ok_iff]
  intro i hi hgen
  obtain ⟨v, hv⟩ := Option.isSome_iff_exists.mp (hc i hi)
  rw [hostIOBuf, hv, Option.getD_some]
  exact hdata.2 i hi v hv hgen

omit [DecidableEq J] [DecidableEq H] in
theorem readOutcome_eq_done {cell : ℕ → ℕ} {content : ℕ → BitVec 8}
    (hdata : DataOk S cell content io .dataRead) (hc : ReadComplete io) :
    readOutcome S io = .done := by
  rw [readOutcome, verify_of_complete hdata hc]

omit [DecidableEq J] in
/-- The byte that a reader gets from a block with a generation is the expected
one. -/
theorem Inv.target_eq_expectedByte (hs : Inv S s) (hio : IOOk S s.run io)
    (hgens : ∀ t < io.numBlocks, s.cell io.journal (io.baseBlockIdx + t) = io.gens t) {i : ℕ}
    (hi : i < io.ioLen) (hgen : io.gens (i / (S.journal io.journal).journalBlockSize) ≠ 0) :
    s.target io.journal (io.absoluteOffset + i) =
      expectedByte (S.journal io.journal) io.gens io.absoluteOffset i := by
  have hbs := (S.journal io.journal).journalBlockSize_pos
  have ht : i / (S.journal io.journal).journalBlockSize < io.numBlocks := by
    rw [Nat.div_lt_iff_lt_mul hbs, hio.len_eq]
    exact hi
  have hmod := Nat.mod_lt i hbs
  have hsplit := Nat.div_add_mod' i (S.journal io.journal).journalBlockSize
  have hcell := hgens _ ht
  have htile := hs.sound io.journal _ (hcell ▸ hgen) _ hmod
  rw [hcell, hio.blockOffset_eq, Nat.add_assoc, hsplit] at htile
  rw [htile, ← hio.blockOffset_eq, ← hio.expectedByte_eq _ hmod, hsplit]

end DataSteps

/-! ## Every step keeps the invariant -/

section Steps

variable {io : JournalBlockIO J} {m : Move}

/-- The loads of a reader. -/
theorem Inv.move_scan (hs : Inv S s) {intent : Intent} {mayBlock anyUninit allUninit : Bool}
    {i : ℕ} (hbusy : s.holder h = .busy io (.scan intent mayBlock i anyUninit allUninit))
    (hm : s.move S h io (.scan intent mayBlock i anyUninit allUninit) m = some s') :
    Inv S s' := by
  have hok := hs.holders h
  rw [hbusy] at hok
  obtain ⟨hio, hrange, hguard, hle, hgens, hbuf⟩ := hok
  rcases World.move_scan hm with ⟨hi, anyUninit', allUninit', rfl⟩ | ⟨hi, rfl | hrel | hrel⟩
  · refine hs.setHolder ⟨hio.setGen i _, hrange, hguard, hi, ?_, hbuf⟩
    intro t ht
    show s.cell io.journal (io.baseBlockIdx + t) = Function.update io.gens i _ t
    by_cases hti : t = i
    · rw [hti, Function.update_self]
    · rw [Function.update_of_ne hti]
      exact hgens t (by omega)
  · refine hs.setHolder ⟨hio, hrange, hguard, fun t ht => hgens t (by omega), ?_⟩
    intro x _ v hv
    rw [hbuf] at hv
    exact absurd hv (by simp)
  · exact hs.startRelease hbusy trivial (by simp) hrel
  · exact hs.startRelease hbusy trivial (by simp) hrel

/-- A claim's load of an old generation. -/
theorem Inv.move_claimLoad (hs : Inv S s) {i : ℕ} {anyWasVerifiable : Bool}
    (hbusy : s.holder h = .busy io (.claimLoad i anyWasVerifiable))
    (hm : s.move S h io (.claimLoad i anyWasVerifiable) m = some s') : Inv S s' := by
  have hok := hs.holders h
  rw [hbusy] at hok
  obtain ⟨hio, hrange, hguard, hle, hcells⟩ := hok
  rcases World.move_claimLoad hm with ⟨hi, rfl⟩ | ⟨hi, -, -, rfl⟩ | ⟨hi, -, rfl⟩
  · have hgens : ∀ t, (io.setGen i (nextGen (s.cell io.journal (io.baseBlockIdx + i)))).gens t =
        if t = i then nextGen (s.cell io.journal (io.baseBlockIdx + i)) else io.gens t :=
      fun t => Function.update_apply _ _ _ _
    refine hs.setHolder ⟨hio.setGen i _, hrange, hguard, hi, ?_, ?_, ?_⟩
    · rw [hgens, if_pos rfl]
      exact isNewGen_nextGen _
    · intro t ht
      rw [hgens, if_neg (by omega)]
      exact hcells t ht
    · intro hne
      rw [Bool.or_eq_true, bne_iff_ne]
      exact Or.inr hne
  · exact hs.setHolder ⟨hio, hrange, hguard, fun t ht => hcells t (by omega)⟩
  · exact hs.setHolder ⟨hio, hrange, hguard, fun t ht => hcells t (by omega)⟩

/-- A claim's clear of a cell. -/
theorem Inv.move_claimMark (hs : Inv S s) {i : ℕ} {anyWasVerifiable : Bool}
    (hbusy : s.holder h = .busy io (.claimMark i anyWasVerifiable))
    (hm : s.move S h io (.claimMark i anyWasVerifiable) m = some s') : Inv S s' := by
  have hok := hs.holders h
  rw [hbusy] at hok
  obtain ⟨hio, hrange, hguard, hi, hgen, hcells, -⟩ := hok
  rw [World.move_claimMark hm]
  refine hs.setMem hbusy hguard hi (fun b hb => loadBlockGen_markBlockBusy_of_ne _ hb) ?_ ?_
  · exact fun hne => absurd (loadBlockGen_markBlockBusy_self _ _) hne
  · refine ⟨hio, hrange, hguard, hi, fun t ht => ?_⟩
    rw [cell_setMem_self]
    by_cases hti : t = i
    · rw [hti]
      exact ⟨loadBlockGen_markBlockBusy_self _ _, hgen⟩
    · rw [loadBlockGen_markBlockBusy_of_ne _ (by omega)]
      exact hcells t (by omega)

/-- Bytes that reach a reader's buffer, and the end of the read. -/
theorem Inv.move_dataRead (hs : Inv S s) (hbusy : s.holder h = .busy io .dataRead)
    (hm : s.move S h io .dataRead m = some s') : Inv S s' := by
  have hok := hs.holders h
  rw [hbusy] at hok
  obtain ⟨hio, hrange, hguard, hdata⟩ := hok
  rcases World.move_dataRead hm with ⟨i, hi, rfl⟩ | ⟨hc, hrel⟩ | hrel
  · refine hs.setHolder ⟨hio.deliver i _, hrange, hguard, hdata.1, ?_⟩
    intro x hx v hv hgen
    have hbuf : Function.update io.readBuf i
        (some (s.target io.journal (io.absoluteOffset + i))) x = some v := hv
    by_cases hxi : x = i
    · rw [hxi, Function.update_self] at hbuf
      rw [← Option.some.inj hbuf, hxi]
      rw [hxi] at hgen
      exact hs.target_eq_expectedByte hio hdata.1 hi hgen
    · rw [Function.update_of_ne hxi] at hbuf
      exact hdata.2 x hx v hbuf hgen
  · rw [readOutcome_eq_done hdata hc] at hrel
    exact hs.startRelease hbusy trivial (by simp) hrel
  · exact hs.startRelease hbusy trivial (by simp) hrel

/-- Bytes that a write puts on the target, and the end of the write. -/
theorem Inv.move_dataWrite (hs : Inv S s) (hbusy : s.holder h = .busy io .dataWrite)
    (hm : s.move S h io .dataWrite m = some s') : Inv S s' := by
  have hok := hs.holders h
  rw [hbusy] at hok
  obtain ⟨hio, hrange, hguard, hdata⟩ := hok
  rcases World.move_dataWrite hm with ⟨addr, v, hle, hlt, rfl⟩ | rfl | hrel
  · have hself : (s.setTarget io.journal (Function.update (s.target io.journal) addr v)).setHolder h
        (.busy io .dataWrite) =
        s.setTarget io.journal (Function.update (s.target io.journal) addr v) :=
      setHolder_eq_self _ hbusy
    rw [← hself]
    refine hs.setTarget hbusy ?_ ⟨hio, hrange, hguard, hdata⟩
    intro y hy
    refine Function.update_of_ne ?_ _ _
    rintro rfl
    exact hy ⟨hle, hlt⟩
  · refine hs.setTarget hbusy ?_ ⟨hio, hrange, hguard, ?_, fun t ht _ => (hdata t ht).1⟩
    · exact fun y hy => if_neg hy
    · intro t ht
      rw [target_setTarget_self]
      exact ⟨(hdata t ht).2, holdsTile_written hio _ ht⟩
  · exact hs.startRelease hbusy trivial (by simp) hrel

/-- The commit of a cell. -/
theorem Inv.move_commitCell (hs : Inv S s) {i : ℕ}
    (hbusy : s.holder h = .busy io (.commitCell i))
    (hm : s.move S h io (.commitCell i) m = some s') : Inv S s' := by
  have hok := hs.holders h
  rw [hbusy] at hok
  obtain ⟨hio, hrange, hguard, htiles, hcells⟩ := hok
  rcases World.move_commitCell hm with ⟨hi, rfl⟩ | rfl | hrel
  · have hself : loadBlockGen (commitBlockGen (s.mem io.journal) (io.baseBlockIdx + i)
        (io.gens i)) (io.baseBlockIdx + i) = io.gens i :=
      loadBlockGen_commitBlockGen_self (hcells i hi le_rfl) (htiles i hi).1.2
    refine hs.setMem hbusy hguard hi
      (fun b hb => loadBlockGen_commitBlockGen_of_ne _ _ hb) ?_ ?_
    · intro _
      rw [hself]
      exact (htiles i hi).2
    · refine ⟨hio, hrange, hguard, htiles, fun t ht hit => ?_⟩
      rw [cell_setMem_self, loadBlockGen_commitBlockGen_of_ne _ _ (by omega)]
      exact hcells t ht (by omega)
  · exact hs.setHolder ⟨hio, hrange, hguard, trivial⟩
  · exact hs.startRelease hbusy trivial (by simp) hrel

/-- Disk writes do not matter to the invariant. -/
theorem Inv.flushPage (hs : Inv S s) (k : J) (page : ℕ) : Inv S (s.flushPage S k page) :=
  ⟨hs.locks, hs.holders, hs.sound⟩

/-- **Every move of a holder keeps the invariant.** -/
theorem Inv.move (hs : Inv S s) {stage : Stage} (hbusy : s.holder h = .busy io stage)
    (hm : s.move S h io stage m = some s') : Inv S s' := by
  have hok := hs.holders h
  rw [hbusy] at hok
  obtain ⟨hio, hrange, hguard, hdata⟩ := hok
  cases stage with
  | lockShared intent mayBlock =>
    obtain ⟨got, x, todo, hacq⟩ := hguard
    rcases World.move_lockShared hm with hlock | hrefuse
    · exact hs.lockNext hbusy hacq (fun got x todo => ⟨got, x, todo, rfl⟩)
        (fun locks => ⟨locks, rfl⟩) ⟨Nat.zero_le _, fun t ht => absurd ht (by omega), hdata⟩ hlock
    · exact hs.refuseNext hbusy hacq hrefuse
  | scan => exact hs.move_scan hbusy hm
  | upgrade mayBlock =>
    obtain ⟨s₁, hs₁, rfl⟩ := World.move_upgrade hm
    exact hs.acquire hio (fun got x todo => ⟨got, x, todo, rfl⟩) trivial hs₁
  | lockExclusive mayBlock =>
    obtain ⟨got, x, todo, hacq⟩ := hguard
    rcases World.move_lockExclusive hm with hlock | hrefuse
    · exact hs.lockNext hbusy hacq (fun got x todo => ⟨got, x, todo, rfl⟩)
        (fun locks => ⟨locks, rfl⟩) ⟨Nat.zero_le _, fun t ht => absurd ht (by omega)⟩ hlock
    · exact hs.refuseNext hbusy hacq hrefuse
  | claimLoad => exact hs.move_claimLoad hbusy hm
  | claimMark => exact hs.move_claimMark hbusy hm
  | claimSync pages =>
    rcases World.move_claimSync hm with ⟨-, rfl⟩ | ⟨page, rest, -, rfl⟩ | ⟨-, hrel⟩
    · exact hs.setHolder ⟨hio, hrange, hguard, hdata⟩
    · exact (hs.flushPage io.journal page).setHolder ⟨hio, hrange, hguard, hdata⟩
    · exact hs.startRelease hbusy trivial (by simp) hrel
  | dataRead => exact hs.move_dataRead hbusy hm
  | dataWrite => exact hs.move_dataWrite hbusy hm
  | commitCell => exact hs.move_commitCell hbusy hm
  | commitSync pages =>
    rcases World.move_commitSync hm with ⟨page, rest, -, rfl⟩ | hrel
    · exact (hs.flushPage io.journal page).setHolder ⟨hio, hrange, hguard, trivial⟩
    · exact hs.startRelease hbusy trivial (by simp) hrel
  | release next => exact hs.unlockNext hbusy (World.move_release hm)

end Steps

/-! ## Reachable states -/

variable (S) in
/-- The I/Os of a run are aligned ones of at most its largest size. -/
def Admissible (s : World J H) : WorldAction J H → Prop
  | .beginRequest _ k off len _ _ => AlignedRequest (S.journal k) s.run.maxIOSize off len
  | _ => True

instance (s : World J H) : ∀ a, Decidable (Admissible S s a)
  | .beginRequest _ k off len _ _ =>
    inferInstanceAs (Decidable (AlignedRequest (S.journal k) s.run.maxIOSize off len))
  | .move _ _ => isTrue trivial
  | .writeBack _ _ => isTrue trivial
  | .restart _ => isTrue trivial

omit [DecidableEq J] in
/-- The start of an I/O keeps the invariant. -/
theorem Inv.beginRequest (hs : Inv S s) {k : J} {off len : ℕ} {intent : Intent} {mayBlock : Bool}
    (ha : AlignedRequest (S.journal k) s.run.maxIOSize off len)
    (hm : s.beginRequest S h (.start S k off len) intent mayBlock = some s') : Inv S s' := by
  have hio := ioOk_start ha
  rw [World.beginRequest] at hm
  split_ifs at hm
  · obtain ⟨s₁, hs₁, rfl⟩ := Option.map_eq_some_iff.mp hm
    exact hs.acquire hio (fun got x todo => ⟨got, x, todo, rfl⟩) trivial hs₁
  · obtain ⟨s₁, hs₁, rfl⟩ := Option.map_eq_some_iff.mp hm
    exact hs.acquire hio (fun got x todo => ⟨got, x, todo, rfl⟩) rfl hs₁

/-- **Every step of the world keeps the invariant.** -/
theorem Inv.step (hs : Inv S s) {a : WorldAction J H} (ha : Admissible S s a)
    (hstep : s.step S a = some s') : Inv S s' := by
  cases a with
  | beginRequest h k off len intent mayBlock =>
    rw [World.step] at hstep
    split at hstep
    · exact hs.beginRequest ha hstep
    · exact absurd hstep (by simp)
  | move h m =>
    rw [World.step] at hstep
    split at hstep
    · exact absurd hstep (by simp)
    · next io stage hbusy => exact hs.move hbusy hstep
  | writeBack k page =>
    obtain rfl := Option.some.inj hstep
    exact hs.flushPage k page
  | restart run =>
    obtain rfl := Option.some.inj hstep
    exact ⟨RangeLocks.inv_empty, fun h => ⟨rfl, by simp⟩, hs.sound⟩

/-- The invariant holds in every reachable state. -/
theorem inv_of_reach {run : RunConfig} {target : J → ℕ → BitVec 8}
    (hreach : Reach (step S) (Admissible S) (init run target) s) : Inv S s :=
  hreach.invariant (inv_init run target) fun _ _ _ hu ha hstep => hu.step ha hstep

end World

open World in
/-- **Journal soundness.**  Take any journals, any holders and any interleaving of
their steps, with crashes and resumed runs of other block sizes, from a fresh
journal on.  Then every block whose cell is a non-zero generation holds the content
of that generation, and every data read that the journal admitted and that got all
its bytes under its guard passes verification. -/
theorem journal_sound {J H : Type} [DecidableEq J] [DecidableEq H] (S : Setup J)
    (run : RunConfig) (target : J → ℕ → BitVec 8) (s : World J H)
    (hreach : Reach (step S) (Admissible S) (init run target) s) :
    (∀ k b, s.cell k b ≠ 0 → HoldsTile (S.journal k) (s.target k) b (s.cell k b)) ∧
    (∀ h io, s.holder h = .busy io .dataRead → ReadComplete io → ∀ verifyBuf,
      postReadJournalVerifyBuf (S.journal io.journal) io.gens (hostIOBuf io) verifyBuf io.ioLen
        io.absoluteOffset = .ok ()) := by
  have hinv := inv_of_reach hreach
  refine ⟨hinv.sound, ?_⟩
  intro h io hbusy hc verifyBuf
  have hok := hinv.holders h
  rw [hbusy] at hok
  exact verify_of_complete hok.2.2.2 hc verifyBuf

/-- One small journal with blocks of eight bytes. -/
def tinySetup : Setup Unit where
  journal := fun _ =>
    { journalBlockSize := 8
      targetOffset := 0
      targetSize := 64
      journalSeed := 7#64
      journalBlockSize_pos := Word64.bytes_pos
      journalBlockSize_lt := Word64.eight_lt_size
      targetOffset_lt := Word64.size_pos
      targetSize_lt := by decide }
  pageSize := 4096
  pageSize_pos := Word64.page_pos

/-- A run with I/Os of at most two of these blocks. -/
def tinyRun (sync : Bool) : RunConfig where
  maxIOSize := 16
  journalSyncEnabled := sync
  maxIOSize_lt := by decide

/-- The first holder writes block 0, the second one then reads it. -/
def writeThenRead : List (WorldAction Unit Bool) :=
  [.beginRequest false () 0 8 .write true, .move false .lock, .move false .advance,
    .move false .advance, .move false .advance, .move false (.scribble 3 255#8),
    .move false .ioDone, .move false .advance, .move false .advance, .move false .unlock,
    .beginRequest true () 0 8 .readSkipUninit true, .move true .lock, .move true .advance,
    .move true .advance, .move true (.readByte 0), .move true (.readByte 1),
    .move true (.readByte 2), .move true (.readByte 3), .move true (.readByte 4),
    .move true (.readByte 5), .move true (.readByte 6), .move true (.readByte 7)]

open World in
/-- The statement is not empty: after a write by one holder, block 0 has generation
1, and the read by another holder completes and passes. -/
theorem journal_sound_writeThenRead :
    ∃ s : World Unit Bool,
      Reach (step tinySetup) (Admissible tinySetup)
        (init (tinyRun false) fun _ _ => 0#8) s ∧
      s.cell () 0 = 1 ∧ HoldsTile (tinySetup.journal ()) (s.target ()) 0 (s.cell () 0) ∧
      ∃ io, s.holder true = .busy io .dataRead ∧
        postReadJournalVerifyBuf (tinySetup.journal io.journal) io.gens (hostIOBuf io)
          (fun _ => 0#8) io.ioLen io.absoluteOffset = .ok () := by
  have hreach : ∀ s, runTrace (checkedStep (step tinySetup) (Admissible tinySetup))
      (init (tinyRun false) fun _ _ => 0#8) writeThenRead = some s →
      Reach (step tinySetup) (Admissible tinySetup) (init (tinyRun false) fun _ _ => 0#8) s :=
    fun s hs => reach_of_runTrace_checked _ _ writeThenRead hs
  obtain ⟨s, hs, hcell, io, hio, hc⟩ : ∃ s, runTrace (checkedStep (step tinySetup)
      (Admissible tinySetup)) (init (tinyRun false) fun _ _ => 0#8) writeThenRead = some s ∧
      s.cell () 0 = 1 ∧ ∃ io, s.holder true = .busy io .dataRead ∧ ReadComplete io :=
    ⟨_, rfl, by decide, _, rfl, by decide⟩
  have hsound := journal_sound tinySetup (tinyRun false) _ s (hreach s hs)
  exact ⟨s, hreach s hs, hcell, hsound.1 () 0 (by rw [hcell]; decide), io, hio,
    hsound.2 true io hio hc _⟩

end Elbencho
