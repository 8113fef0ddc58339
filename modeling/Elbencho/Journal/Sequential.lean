import Elbencho.Journal.Invariant

/-!
# Begin, claim and commit without interruption

The loops of `begin`, `claimForWrite` and `commit` over the cells of an I/O, run from
start to end: `scanCells` loads the cells, `claimCells` loads, rotates and clears one
cell after the other, `commitCells` sets them.  A holder with a guard sees exactly
these loops, since no other holder changes its cells; `reach_scanCells`,
`reach_claimCells` and `reach_commitCells` say that the system of
`Elbencho.Journal.BlockIO` runs them when the holder is not interrupted.

`beginCells` is `begin` as a caller sees it that always gets its locks.
`loadBlockGen_claimCells`, `gens_claimCells` and `loadBlockGen_commitCells` say what
the loops do, cell by cell.
-/

namespace Elbencho

open SharedLock Transition

/-! ## The loops -/

/-- What `claimForWrite` has computed after some blocks: the cells, the generations to
write, and whether a cell held a generation. -/
structure Claim where
  map : CellMap
  gens : ℕ → ℕ
  anyWasVerifiable : Bool

/-- The loop of `claimForWrite` over the first blocks of an I/O, with the generations
that the reused vector held before. -/
def claimCells (map : CellMap) (gens : ℕ → ℕ) (baseBlockIdx : ℕ) : ℕ → Claim
  | 0 => ⟨map, gens, false⟩
  | i + 1 =>
    let c := claimCells map gens baseBlockIdx i
    let oldGen := loadBlockGen c.map (baseBlockIdx + i)
    { map := markBlockBusy c.map (baseBlockIdx + i)
      gens := Function.update c.gens i (nextGen oldGen)
      anyWasVerifiable := c.anyWasVerifiable || oldGen != 0 }

/-- What the loop of `begin` has seen after some blocks. -/
structure Scan where
  gens : ℕ → ℕ
  anyUninit : Bool
  allUninit : Bool

/-- The loop of `begin` over the first blocks of a read. -/
def scanCells (map : CellMap) (gens : ℕ → ℕ) (baseBlockIdx : ℕ) : ℕ → Scan
  | 0 => ⟨gens, false, true⟩
  | i + 1 =>
    let c := scanCells map gens baseBlockIdx i
    let gen := loadBlockGen map (baseBlockIdx + i)
    { gens := Function.update c.gens i gen
      anyUninit := c.anyUninit || gen == 0
      allUninit := c.allUninit && gen == 0 }

/-- What `begin` decided and left behind. -/
structure Begun where
  action : Action
  map : CellMap
  gens : ℕ → ℕ

/-- `claimForWrite` with its locks granted. -/
def claimForWrite (map : CellMap) (gens : ℕ → ℕ) (baseBlockIdx numBlocks : ℕ) : Begun :=
  let c := claimCells map gens baseBlockIdx numBlocks
  ⟨.write, c.map, c.gens⟩

/-- `begin` with its locks granted. -/
def beginCells (map : CellMap) (baseBlockIdx numBlocks : ℕ) (intent : Intent) : Begun :=
  if intent = .write then claimForWrite map (fun _ => 0) baseBlockIdx numBlocks
  else
    let scan := scanCells map (fun _ => 0) baseBlockIdx numBlocks
    if scan.anyUninit = false then ⟨.read, map, scan.gens⟩
    else if intent = .readSkipUninit then
      if scan.allUninit then ⟨.skip, map, scan.gens⟩ else ⟨.read, map, scan.gens⟩
    else claimForWrite map scan.gens baseBlockIdx numBlocks

/-- The loop of `commit` over the first blocks of an I/O. -/
def commitCells (map : CellMap) (baseBlockIdx : ℕ) (gens : ℕ → ℕ) : ℕ → CellMap
  | 0 => map
  | i + 1 => commitBlockGen (commitCells map baseBlockIdx gens i) (baseBlockIdx + i) (gens i)

/-- The cells after the loop of `claimForWrite`: those of the I/O are 0, the others
are as before. -/
theorem loadBlockGen_claimCells (map : CellMap) (gens : ℕ → ℕ) (base n b : ℕ) :
    loadBlockGen (claimCells map gens base n).map b =
      if base ≤ b ∧ b < base + n then 0 else loadBlockGen map b := by
  induction n with
  | zero =>
    rw [if_neg (by omega)]
    rfl
  | succ n ih =>
    by_cases hb : b = base + n
    · rw [if_pos (by omega), hb]
      exact loadBlockGen_markBlockBusy_self _ _
    · have hstep : loadBlockGen (claimCells map gens base (n + 1)).map b =
          loadBlockGen (claimCells map gens base n).map b := loadBlockGen_markBlockBusy_of_ne _ hb
      rw [hstep, ih]
      exact if_congr (by omega) rfl rfl

/-- The generations after the loop of `claimForWrite`: each old generation rotated. -/
theorem gens_claimCells (map : CellMap) (gens : ℕ → ℕ) (base : ℕ) {n i : ℕ} (hi : i < n) :
    (claimCells map gens base n).gens i = nextGen (loadBlockGen map (base + i)) := by
  induction n with
  | zero => exact absurd hi (by omega)
  | succ n ih =>
    have hupdate : (claimCells map gens base (n + 1)).gens i =
        Function.update (claimCells map gens base n).gens n
          (nextGen (loadBlockGen (claimCells map gens base n).map (base + n))) i := rfl
    rw [hupdate]
    by_cases hin : i = n
    · rw [hin, Function.update_self, loadBlockGen_claimCells, if_neg (by omega)]
    · rw [Function.update_of_ne hin]
      exact ih (by omega)

/-- The cells after the loop of `commit` on cleared cells: those of the I/O have the
generations of the I/O. -/
theorem loadBlockGen_commitCells {map : CellMap} {base n : ℕ} {gens : ℕ → ℕ}
    (hclear : ∀ i < n, loadBlockGen map (base + i) = 0) (hgens : ∀ i < n, gens i < 4) (b : ℕ) :
    loadBlockGen (commitCells map base gens n) b =
      if base ≤ b ∧ b < base + n then gens (b - base) else loadBlockGen map b := by
  induction n generalizing b with
  | zero =>
    rw [if_neg (by omega)]
    rfl
  | succ n ih =>
    have ih' := ih (fun i hi => hclear i (by omega)) (fun i hi => hgens i (by omega))
    rw [commitCells]
    by_cases hb : b = base + n
    · rw [hb, if_pos (by omega), Nat.add_sub_cancel_left]
      refine loadBlockGen_commitBlockGen_self ?_ (hgens n (by omega))
      rw [ih', if_neg (by omega)]
      exact hclear n (by omega)
    · rw [loadBlockGen_commitBlockGen_of_ne _ _ hb, ih']
      exact if_congr (by omega) rfl rfl

/-- A write that `begin` starts has claimed its cells. -/
theorem beginCells_write {map : CellMap} {base n : ℕ} {intent : Intent}
    (hwrite : (beginCells map base n intent).action = .write) :
    ∃ gens, (beginCells map base n intent).map = (claimCells map gens base n).map ∧
      (beginCells map base n intent).gens = (claimCells map gens base n).gens := by
  unfold beginCells at hwrite ⊢
  dsimp only at hwrite ⊢
  split_ifs at hwrite ⊢
  · exact ⟨_, rfl, rfl⟩
  · exact ⟨_, rfl, rfl⟩

/-- **The cells after a committed write.**  Every cell of the I/O holds the successor
of its old generation, every other cell is as before. -/
theorem loadBlockGen_commit_beginCells {map : CellMap} {base n : ℕ} {intent : Intent}
    (hwrite : (beginCells map base n intent).action = .write) (b : ℕ) :
    loadBlockGen (commitCells (beginCells map base n intent).map base
        (beginCells map base n intent).gens n) b =
      if base ≤ b ∧ b < base + n then nextGen (loadBlockGen map b) else loadBlockGen map b := by
  obtain ⟨gens, hmap, hgens⟩ := beginCells_write hwrite
  have hgen : ∀ i < n, (claimCells map gens base n).gens i = nextGen (loadBlockGen map (base + i)) :=
    fun i hi => gens_claimCells map gens base hi
  rw [hmap, hgens, loadBlockGen_commitCells]
  · by_cases hb : base ≤ b ∧ b < base + n
    · rw [if_pos hb, if_pos hb, hgen _ (by omega), Nat.add_sub_cancel' hb.1]
    · rw [if_neg hb, if_neg hb, loadBlockGen_claimCells, if_neg hb]
  · intro i hi
    rw [loadBlockGen_claimCells, if_pos (by omega)]
  · intro i hi
    rw [hgen i hi]
    exact nextGen_lt _

/-! ## The loops as runs of the system -/

namespace World

variable {J H : Type*} [DecidableEq J] [DecidableEq H] {S : Setup J} {s : World J H} {h : H}
  {io : JournalBlockIO J}

/-- The next step of a busy holder's method is a step of the world. -/
theorem reach_advance {s₁ s₂ : World J H} {stage : Stage}
    (hreach : Reach (step S) anyStep s s₁) (hbusy : s₁.holder h = .busy io stage)
    (hm : s₁.move S h io stage .advance = some s₂) : Reach (step S) anyStep s s₂ := by
  refine hreach.tail (a := .move h .advance) trivial ?_
  rw [step, hbusy]
  exact hm

/-- **A scan that is not interrupted runs the loop of `begin`.** -/
theorem reach_scanCells {intent : Intent} {mayBlock : Bool}
    (hbusy : s.holder h = .busy io (.scan intent mayBlock 0 false true)) {n : ℕ}
    (hn : n ≤ io.numBlocks) :
    Reach (step S) anyStep s
      (s.setHolder h (.busy
        { io with gens := (scanCells (s.mem io.journal) io.gens io.baseBlockIdx n).gens }
        (.scan intent mayBlock n
          (scanCells (s.mem io.journal) io.gens io.baseBlockIdx n).anyUninit
          (scanCells (s.mem io.journal) io.gens io.baseBlockIdx n).allUninit))) := by
  induction n with
  | zero =>
    show Reach (step S) anyStep s (s.setHolder h (.busy io (.scan intent mayBlock 0 false true)))
    rw [setHolder_eq_self s hbusy]
    exact Reach.refl s
  | succ n ih =>
    have hload := reach_advance (ih (by omega)) (setHolder_holder_self _ _ _)
      (if_pos (show n < io.numBlocks by omega))
    convert hload using 1
    simp only [setHolder, JournalBlockIO.setGen, Function.update_idem, cell]
    rfl

/-- **A claim that is not interrupted runs the loop of `claimForWrite`.** -/
theorem reach_claimCells (hbusy : s.holder h = .busy io (.claimLoad 0 false)) {n : ℕ}
    (hn : n ≤ io.numBlocks) :
    Reach (step S) anyStep s
      ((s.setMem io.journal (claimCells (s.mem io.journal) io.gens io.baseBlockIdx n).map).setHolder
        h (.busy { io with gens := (claimCells (s.mem io.journal) io.gens io.baseBlockIdx n).gens }
          (.claimLoad n
            (claimCells (s.mem io.journal) io.gens io.baseBlockIdx n).anyWasVerifiable))) := by
  induction n with
  | zero =>
    have hself : (s.setMem io.journal (s.mem io.journal)).setHolder h
        (.busy io (.claimLoad 0 false)) = s := by
      rw [setMem, Function.update_eq_self]
      exact setHolder_eq_self s hbusy
    show Reach (step S) anyStep s ((s.setMem io.journal (s.mem io.journal)).setHolder h
      (.busy io (.claimLoad 0 false)))
    rw [hself]
    exact Reach.refl s
  | succ n ih =>
    have hload := reach_advance (ih (by omega)) (setHolder_holder_self _ _ _)
      (if_pos (show n < io.numBlocks by omega))
    have hmark := reach_advance hload (setHolder_holder_self _ _ _) rfl
    convert hmark using 1
    simp only [setMem, setHolder, JournalBlockIO.setGen, Function.update_idem,
      Function.update_self, cell]
    rfl

/-- **A commit that is not interrupted runs the loop of `commit`.** -/
theorem reach_commitCells (hbusy : s.holder h = .busy io (.commitCell 0)) {n : ℕ}
    (hn : n ≤ io.numBlocks) :
    Reach (step S) anyStep s
      ((s.setMem io.journal (commitCells (s.mem io.journal) io.baseBlockIdx io.gens n)).setHolder
        h (.busy io (.commitCell n))) := by
  induction n with
  | zero =>
    have hself : (s.setMem io.journal (s.mem io.journal)).setHolder h
        (.busy io (.commitCell 0)) = s := by
      rw [setMem, Function.update_eq_self]
      exact setHolder_eq_self s hbusy
    show Reach (step S) anyStep s ((s.setMem io.journal (s.mem io.journal)).setHolder h
      (.busy io (.commitCell 0)))
    rw [hself]
    exact Reach.refl s
  | succ n ih =>
    have hcommit := reach_advance (ih (by omega)) (setHolder_holder_self _ _ _)
      (if_pos (show n < io.numBlocks by omega))
    convert hcommit using 1
    simp only [setMem, setHolder, Function.update_idem, Function.update_self]
    rfl

end World

end Elbencho
