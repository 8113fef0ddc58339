import Elbencho.Journal.Sequential

/-!
# Generations over the history of a block

A rewrite of a block gets the next of three generations, "so rewriting a block
changes its expected content and stale content becomes detectable": if the storage
drops a write that it reported as done, the block still holds the content of the
last committed write, and the next journaled read should fail.

The rotation is remembered in the cell only, and a failed write clears the cell.
This module follows one block through a history of committed and failed writes.

* `cell_replay` computes the cell: it counts the committed writes since the last
  failure, modulo three.
* `staleContent_detected_iff` is the exact answer.  The next write gets a generation
  other than that of the last committed content unless a write has failed since that
  commit and the unbroken row of commits that ended there has a length of `1` modulo
  `3`; the length of a block decides whether different generations can be told
  apart.
* `staleContent_accepted` is the shortest history in which stale content passes: a
  commit, a failure, and a dropped write.
-/

namespace Elbencho

/-! ## One block's writes -/

/-- The generation that a journaled write of a block gets. -/
def assignedGen (map : CellMap) (b : ℕ) : ℕ := (claimCells map (fun _ => 0) b 1).gens 0

/-- A journaled write of a block: the claim, and the commit if the data write
succeeded. -/
def journaledWrite (map : CellMap) (b : ℕ) (committed : Bool) : CellMap :=
  let c := claimCells map (fun _ => 0) b 1
  if committed then commitCells c.map b c.gens 1 else c.map

/-- What a history leaves behind: the cells, and the generation of the content that
the last committed write put on the target. -/
structure BlockHistory where
  map : CellMap
  lastCommitted : Option ℕ

/-- The history of a block from a fresh journal on, the latest write first; `true` is
a committed write, `false` a failed one. -/
def replay (b : ℕ) : List Bool → BlockHistory
  | [] => ⟨fun _ => 0#8, none⟩
  | committed :: earlier =>
    let s := replay b earlier
    { map := journaledWrite s.map b committed
      lastCommitted := if committed then some (assignedGen s.map b) else s.lastCommitted }

theorem assignedGen_eq (map : CellMap) (b : ℕ) :
    assignedGen map b = nextGen (loadBlockGen map b) :=
  gens_claimCells map _ b (by omega)

/-- The cell after a write: the assigned generation, or 0. -/
theorem loadBlockGen_journaledWrite (map : CellMap) (b : ℕ) (committed : Bool) :
    loadBlockGen (journaledWrite map b committed) b =
      if committed then assignedGen map b else 0 := by
  have hclear : ∀ i < 1, loadBlockGen (claimCells map (fun _ => 0) b 1).map (b + i) = 0 := by
    intro i hi
    rw [loadBlockGen_claimCells, if_pos (by omega)]
  have hgens : ∀ i < 1, (claimCells map (fun _ => 0) b 1).gens i < 4 := by
    intro i hi
    rw [gens_claimCells _ _ _ hi]
    exact nextGen_lt _
  rw [journaledWrite]
  by_cases hc : committed = true
  · rw [if_pos hc, if_pos hc, loadBlockGen_commitCells hclear hgens, if_pos (by omega),
      Nat.sub_self, assignedGen]
  · rw [if_neg hc, if_neg hc]
    exact hclear 0 (by omega)

/-! ## The rotation -/

/-- The number of committed writes since the last failure. -/
def streak (hist : List Bool) : ℕ := (hist.takeWhile id).length

/-- The number of committed writes in an unbroken row that end at the last commit. -/
def lastStreak (hist : List Bool) : ℕ := streak (hist.dropWhile (! ·))

/-- The generation at the end of a row of `n` commits that starts from a cleared
cell. -/
def rowGen (n : ℕ) : ℕ := if n = 0 then 0 else (n - 1) % 3 + 1

theorem nextGen_rowGen (n : ℕ) : nextGen (rowGen n) = rowGen (n + 1) := by
  rw [nextGen, rowGen, rowGen]
  split_ifs <;> omega

/-- **The cell counts the commits since the last failure**, modulo three. -/
theorem cell_replay (b : ℕ) (hist : List Bool) :
    loadBlockGen (replay b hist).map b = rowGen (streak hist) := by
  induction hist with
  | nil => simp [replay, loadBlockGen, cellLocation, streak, rowGen]
  | cons committed earlier ih =>
    have hwrite := loadBlockGen_journaledWrite (replay b earlier).map b committed
    show loadBlockGen (journaledWrite (replay b earlier).map b committed) b = _
    rw [hwrite, assignedGen_eq, ih, nextGen_rowGen]
    cases committed with
    | true => rfl
    | false => rfl

/-- The generation of the last committed content is that of its row. -/
theorem lastCommitted_replay (b : ℕ) (hist : List Bool) :
    (replay b hist).lastCommitted =
      if lastStreak hist = 0 then none else some (rowGen (lastStreak hist)) := by
  induction hist with
  | nil => rfl
  | cons committed earlier ih =>
    cases committed with
    | true =>
      show some (assignedGen (replay b earlier).map b) = _
      rw [assignedGen_eq, cell_replay, nextGen_rowGen]
      rfl
    | false => exact ih

/-! ## Stale content -/

/-- A write has failed since the last commit, and the row of commits that ended there
has a length of 1 modulo 3. -/
def StaleCollision (hist : List Bool) : Prop :=
  hist.head? = some false ∧ lastStreak hist % 3 = 1

instance (hist : List Bool) : Decidable (StaleCollision hist) :=
  inferInstanceAs (Decidable (_ ∧ _))

/-- The next write gets a generation other than that of the last committed content,
exactly when the history is not a colliding one. -/
theorem assignedGen_ne_iff (b : ℕ) (hist : List Bool) :
    (∀ g, (replay b hist).lastCommitted = some g → assignedGen (replay b hist).map b ≠ g) ↔
      ¬ StaleCollision hist := by
  rw [lastCommitted_replay, assignedGen_eq, cell_replay, nextGen_rowGen]
  cases hist with
  | nil => simp [StaleCollision, lastStreak, streak]
  | cons committed earlier =>
    cases committed with
    | true =>
      have hlast : lastStreak (true :: earlier) = streak (true :: earlier) := rfl
      have hpos : streak (true :: earlier) ≠ 0 := by simp [streak]
      rw [hlast, if_neg hpos]
      refine iff_of_true ?_ (by simp [StaleCollision])
      intro g hg
      rw [← Option.some.inj hg, ← nextGen_rowGen]
      exact nextGen_ne _
    | false =>
      have hzero : streak (false :: earlier) = 0 := rfl
      rw [hzero, StaleCollision, List.head?_cons]
      by_cases hlast : lastStreak (false :: earlier) = 0
      · rw [if_pos hlast]
        exact iff_of_true (by simp) (by omega)
      · rw [if_neg hlast]
        have hrow : rowGen (lastStreak (false :: earlier)) =
            (lastStreak (false :: earlier) - 1) % 3 + 1 := if_neg hlast
        have hone : rowGen (0 + 1) = 1 := rfl
        constructor
        · rintro h ⟨-, hmod⟩
          exact h _ rfl (by omega)
        · intro h g hg heq
          refine h ⟨rfl, ?_⟩
          rw [← Option.some.inj hg, hone, hrow] at heq
          omega

/-- A journaled read of the whole block: the generation is that of the cell, the
buffer is what the target holds. -/
def verifyBlock (j : Journal) (map : CellMap) (content : ℕ → BitVec 8) (b : ℕ) :
    Except String Unit :=
  postReadJournalVerifyBuf j (fun _ => loadBlockGen map b)
    (fun i => content (j.blockOffset b + i)) (fun _ => 0#8) j.journalBlockSize (j.blockOffset b)

/-- The content of two generations of a block differs somewhere in the block. -/
def TilesDiffer (j : Journal) (b g g' : ℕ) : Prop :=
  ∃ i < j.journalBlockSize, tileAt j (j.blockOffset b) g i ≠ tileAt j (j.blockOffset b) g' i

/-- **A block of at least eight bytes tells its generations apart.** -/
theorem tilesDiffer_of_ne {j : Journal} {b g g' : ℕ} (hsize : 8 ≤ j.journalBlockSize)
    (hg : g < 256) (hg' : g' < 256) (hne : g ≠ g') : TilesDiffer j b g g' := by
  by_contra hsame
  refine hne (computeExpectedTileValue_injective (BitVec.ofNat 64 (j.blockOffset b))
    j.journalSeed hg hg' (eq_of_tileByte_eq fun i hi => ?_))
  by_contra hbyte
  refine hsame ⟨i, by omega, ?_⟩
  rw [tileAt, tileAt, Nat.mod_eq_of_lt hi]
  exact hbyte

/-- A read of content of generation `g` under another generation fails exactly when
the two contents differ. -/
theorem verifyBlock_ne_ok_iff {j : Journal} {map : CellMap} {content : ℕ → BitVec 8} {b g : ℕ}
    (hcontent : HoldsTile j content b g) (hcell : loadBlockGen map b ≠ 0) :
    verifyBlock j map content b ≠ .ok () ↔ TilesDiffer j b g (loadBlockGen map b) := by
  have hpass : ∀ i < j.journalBlockSize,
      (BytePasses j (fun _ => loadBlockGen map b) (fun i => content (j.blockOffset b + i))
        (j.blockOffset b) i ↔
      tileAt j (j.blockOffset b) g i = tileAt j (j.blockOffset b) (loadBlockGen map b) i) := by
    intro i hi
    have hexp : expectedByte j (fun _ => loadBlockGen map b) (j.blockOffset b) i =
        tileAt j (j.blockOffset b) (loadBlockGen map b) i := by
      rw [expectedByte_of_mem (k := 0) (by omega) (by omega), Nat.zero_mul, Nat.add_zero,
        Nat.sub_zero]
    rw [BytePasses, hexp, hcontent i hi]
    exact ⟨fun h => h hcell, fun h _ => h⟩
  rw [ne_eq, verifyBlock, postReadJournalVerifyBuf_eq_ok_iff, TilesDiffer]
  push Not
  exact exists_congr fun i => and_congr_right fun hi => not_congr (hpass i hi)

/-- What the journal promises about a history: the next write gets another generation
than the last committed content has; and if the storage reports this write as done
but leaves the old content in place, the next journaled read fails. -/
def StaleContentDetected (j : Journal) (b : ℕ) (hist : List Bool) : Prop :=
  ∀ g, (replay b hist).lastCommitted = some g →
    assignedGen (replay b hist).map b ≠ g ∧
    ∀ content, HoldsTile j content b g →
      verifyBlock j (replay b (true :: hist)).map content b ≠ .ok ()

/-- **When stale content is detected.**  For every block and every history: exactly
when the history does not collide, and the block has eight bytes or the contents of
the two generations differ in the fewer bytes that it has. -/
theorem staleContent_detected_iff (j : Journal) (b : ℕ) (hist : List Bool) :
    StaleContentDetected j b hist ↔
      ¬ StaleCollision hist ∧
        (8 ≤ j.journalBlockSize ∨ ∀ g, (replay b hist).lastCommitted = some g →
          TilesDiffer j b g (assignedGen (replay b hist).map b)) := by
  have hcell : loadBlockGen (replay b (true :: hist)).map b =
      assignedGen (replay b hist).map b :=
    loadBlockGen_journaledWrite (replay b hist).map b true
  have hpos : assignedGen (replay b hist).map b ≠ 0 := by
    rw [assignedGen_eq]
    exact (nextGen_pos _).ne'
  have hread : ∀ g content, HoldsTile j content b g →
      (verifyBlock j (replay b (true :: hist)).map content b ≠ .ok () ↔
        TilesDiffer j b g (assignedGen (replay b hist).map b)) := by
    intro g content hcontent
    rw [← hcell]
    exact verifyBlock_ne_ok_iff hcontent (hcell ▸ hpos)
  rw [← assignedGen_ne_iff b hist]
  constructor
  · intro h
    refine ⟨fun g hg => (h g hg).1, Or.inr fun g hg => ?_⟩
    -- the content of the last committed write, still on the target
    have htile : HoldsTile j (fun x => tileAt j (j.blockOffset b) g (x - j.blockOffset b)) b g := by
      intro i _
      exact congrArg (tileAt j (j.blockOffset b) g) (Nat.add_sub_cancel_left _ _)
    exact (hread g _ htile).mp ((h g hg).2 _ htile)
  · rintro ⟨hne, hdiffer⟩ g hg
    refine ⟨hne g hg, fun content hcontent => (hread g content hcontent).mpr ?_⟩
    rcases hdiffer with hsize | hdiffer
    · have hg4 : g < 4 := by
        rw [lastCommitted_replay] at hg
        split_ifs at hg with hlast
        rw [← Option.some.inj hg, rowGen, if_neg hlast]
        omega
      have hgen4 : assignedGen (replay b hist).map b < 4 := by
        rw [assignedGen_eq]
        exact nextGen_lt _
      exact tilesDiffer_of_ne hsize (by omega) (by omega) (hne g hg).symm
    · exact hdiffer g hg

/-- A journal with blocks of 4 KiB. -/
def pageJournal : Journal where
  journalBlockSize := 4096
  targetOffset := 0
  targetSize := 2 ^ 20
  journalSeed := 7#64
  journalBlockSize_pos := Word64.page_pos
  journalBlockSize_lt := Word64.page_lt_size
  targetOffset_lt := Word64.size_pos
  targetSize_lt := by decide

/-- **Stale content that passes.**  After a committed and a failed write, the next write
of the block gets generation 1 again; when the storage drops it, the content of the
first write passes verification. -/
theorem staleContent_accepted :
    (replay 0 [false, true]).lastCommitted = some 1 ∧
      assignedGen (replay 0 [false, true]).map 0 = 1 ∧
      ∀ content, HoldsTile pageJournal content 0 1 →
        verifyBlock pageJournal (replay 0 [true, false, true]).map content 0 = .ok () := by
  refine ⟨by decide, by decide, fun content hcontent => ?_⟩
  have hcell : loadBlockGen (replay 0 [true, false, true]).map 0 = 1 := by decide
  by_contra hfail
  obtain ⟨i, -, hdiffer⟩ := (verifyBlock_ne_ok_iff hcontent (by rw [hcell]; decide)).mp hfail
  rw [hcell] at hdiffer
  exact hdiffer rfl

end Elbencho
