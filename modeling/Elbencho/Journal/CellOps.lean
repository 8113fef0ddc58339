import Mathlib.Data.List.Induction
import Elbencho.Journal.Cells

/-!
# Interleaved cell operations

The threads of a run access the mapped bytes of a journal with three atomic operations.  Four blocks
share a byte, so two threads that work on different blocks may access the same byte, in any order.
An interleaving is a list of operations, each with the thread that does it.

A commit does not overwrite a cell, it only adds bits to it.  So the threads have to take turns:
`InTurn` says that a thread which commits a block has marked it before, and that nobody has modified
the block in between.  Loads need no turn, and a mark is allowed at any time.

**Main statement** (`load_returns_last_modification`).  Under this rule, every load returns what the
last modification of the block has left, whatever happens to the other blocks of the byte.

The abstract side are registers, one for each block, with a store for each modification.
`Represents` relates the bytes to the registers and is kept by every operation in its turn.
-/

namespace Elbencho

/-! ## Operations -/

/-- The operations on the cell of a block. -/
inductive CellOp where
  | loadBlockGen (b : ℕ)
  | markBlockBusy (b : ℕ)
  | commitBlockGen (b newGen : ℕ)
  deriving DecidableEq

namespace CellOp

/-- The block of an operation. -/
def block : CellOp → ℕ
  | loadBlockGen b => b
  | markBlockBusy b => b
  | commitBlockGen b _ => b

/-- The operation modifies the cell of a block. -/
def modifies (b : ℕ) : CellOp → Bool
  | loadBlockGen _ => false
  | markBlockBusy b' => b' = b
  | commitBlockGen b' _ => b' = b

/-- One operation on the mapped bytes, with the generation that a load returns. -/
def onCells (map : CellMap) : CellOp → CellMap × Option ℕ
  | loadBlockGen b => (map, some (Elbencho.loadBlockGen map b))
  | markBlockBusy b => (Elbencho.markBlockBusy map b, none)
  | commitBlockGen b newGen => (Elbencho.commitBlockGen map b newGen, none)

/-- One operation on registers, with the value that a load returns. -/
def onRegisters (reg : ℕ → ℕ) : CellOp → (ℕ → ℕ) × Option ℕ
  | loadBlockGen b => (reg, some (reg b))
  | markBlockBusy b => (Function.update reg b 0, none)
  | commitBlockGen b newGen => (Function.update reg b newGen, none)

end CellOp

/-! ## Interleavings -/

section Run

variable {σ T : Type*} (execute : σ → CellOp → σ × Option ℕ)

/-- The state after the operations of an interleaving. -/
def runOps (s : σ) (events : List (T × CellOp)) : σ :=
  events.foldl (fun s e => (execute s e.2).1) s

/-- What the operations of an interleaving return. -/
def opResults : σ → List (T × CellOp) → List (Option ℕ)
  | _, [] => []
  | s, e :: events => (execute s e.2).2 :: opResults (execute s e.2).1 events

theorem runOps_concat (s : σ) (events : List (T × CellOp)) (e : T × CellOp) :
    runOps execute s (events ++ [e]) = (execute (runOps execute s events) e.2).1 :=
  List.foldl_concat _ _ _ _

/-- An operation returns what it finds after the operations before it. -/
theorem opResults_getElem? (s : σ) (before after : List (T × CellOp)) (e : T × CellOp) :
    (opResults execute s (before ++ e :: after))[before.length]? =
      some (execute (runOps execute s before) e.2).2 := by
  induction before generalizing s with
  | nil => rfl
  | cons first before ih =>
    rw [List.cons_append, opResults, List.length_cons, List.getElem?_cons_succ, ih]
    rfl

end Run

section Turns

variable {T : Type*}

/-- The last modification of a block, and who did it. -/
def lastModification (b : ℕ) (events : List (T × CellOp)) : Option (T × CellOp) :=
  (events.filter fun e => e.2.modifies b).getLast?

/-- What a modification leaves in a cell: a mark 0, and a commit its generation.  Without a
modification the cell has its initial value. -/
def leftBy (initial : ℕ) : Option (T × CellOp) → ℕ
  | some (_, .commitBlockGen _ newGen) => newGen
  | some _ => 0
  | none => initial

/-- A commit has its turn if the last modification of the block is a mark of the same thread. -/
def HasTurn (before : List (T × CellOp)) (e : T × CellOp) : Prop :=
  match e.2 with
  | .commitBlockGen b newGen =>
    (1 ≤ newGen ∧ newGen ≤ 3) ∧ lastModification b before = some (e.1, .markBlockBusy b)
  | _ => True

/-- Every operation has its turn, after some others. -/
def InTurnAfter : List (T × CellOp) → List (T × CellOp) → Prop
  | _, [] => True
  | before, e :: events => HasTurn before e ∧ InTurnAfter (before ++ [e]) events

/-- Every operation of an interleaving has its turn. -/
def InTurn (events : List (T × CellOp)) : Prop := InTurnAfter [] events

instance [DecidableEq T] (before : List (T × CellOp)) (e : T × CellOp) :
    Decidable (HasTurn before e) :=
  match e with
  | (_, .loadBlockGen _) => isTrue trivial
  | (_, .markBlockBusy _) => isTrue trivial
  | (_, .commitBlockGen _ _) => inferInstanceAs (Decidable (_ ∧ _))

instance decidableInTurnAfter [DecidableEq T] :
    ∀ before events : List (T × CellOp), Decidable (InTurnAfter before events)
  | _, [] => isTrue trivial
  | before, e :: events =>
    haveI := decidableInTurnAfter (before ++ [e]) events
    inferInstanceAs (Decidable (_ ∧ _))

instance [DecidableEq T] (events : List (T × CellOp)) : Decidable (InTurn events) :=
  inferInstanceAs (Decidable (InTurnAfter [] events))

theorem InTurnAfter.append_left {before events rest : List (T × CellOp)}
    (h : InTurnAfter before (events ++ rest)) : InTurnAfter before events := by
  induction events generalizing before with
  | nil => trivial
  | cons e events ih => exact ⟨h.1, ih h.2⟩

theorem InTurnAfter.hasTurn {before events : List (T × CellOp)} {e : T × CellOp}
    (h : InTurnAfter before (events ++ [e])) : HasTurn (before ++ events) e := by
  induction events generalizing before with
  | nil =>
    rw [List.append_nil]
    exact h.1
  | cons first events ih =>
    rw [List.append_cons]
    exact ih h.2

theorem lastModification_concat_of_modifies {b : ℕ} {e : T × CellOp} (he : e.2.modifies b)
    (events : List (T × CellOp)) : lastModification b (events ++ [e]) = some e := by
  rw [lastModification, List.filter_append, List.filter_cons, if_pos he, List.filter_nil,
    List.getLast?_concat]

theorem lastModification_concat_of_not {b : ℕ} {e : T × CellOp} (he : ¬ e.2.modifies b)
    (events : List (T × CellOp)) :
    lastModification b (events ++ [e]) = lastModification b events := by
  rw [lastModification, List.filter_append, List.filter_cons, if_neg he, List.filter_nil,
    List.append_nil]
  rfl

/-! ## Registers -/

/-- **A register holds what its last modification has left.** -/
theorem runOps_onRegisters (reg : ℕ → ℕ) (events : List (T × CellOp)) (b : ℕ) :
    runOps CellOp.onRegisters reg events b = leftBy (reg b) (lastModification b events) := by
  induction events using List.reverseRecOn with
  | nil => rfl
  | append_singleton events e ih =>
    rw [runOps_concat]
    obtain ⟨t, op⟩ := e
    by_cases hmod : op.modifies b
    · rw [lastModification_concat_of_modifies (e := (t, op)) hmod]
      cases op with
      | loadBlockGen b' => cases hmod
      | markBlockBusy b' =>
        obtain rfl : b' = b := of_decide_eq_true hmod
        exact Function.update_self _ _ _
      | commitBlockGen b' newGen =>
        obtain rfl : b' = b := of_decide_eq_true hmod
        exact Function.update_self _ _ _
    · rw [lastModification_concat_of_not (e := (t, op)) hmod, ← ih]
      cases op with
      | loadBlockGen b' => rfl
      | markBlockBusy b' => exact Function.update_of_ne (fun h => hmod (decide_eq_true h.symm)) _ _
      | commitBlockGen b' newGen =>
        exact Function.update_of_ne (fun h => hmod (decide_eq_true h.symm)) _ _

/-! ## The bytes represent registers -/

/-- Every cell holds the value of its register. -/
def Represents (map : CellMap) (reg : ℕ → ℕ) : Prop := ∀ b, loadBlockGen map b = reg b

theorem Represents.markBlockBusy {map : CellMap} {reg : ℕ → ℕ} (h : Represents map reg) (b : ℕ) :
    Represents (markBlockBusy map b) (Function.update reg b 0) := by
  intro b'
  by_cases hb : b' = b
  · subst hb
    rw [loadBlockGen_markBlockBusy_self, Function.update_self]
  · rw [loadBlockGen_markBlockBusy_of_ne map hb, Function.update_of_ne hb, h b']

/-- A commit needs a register that is 0: it is not a store otherwise. -/
theorem Represents.commitBlockGen {map : CellMap} {reg : ℕ → ℕ} (h : Represents map reg) {b g : ℕ}
    (hzero : reg b = 0) (hg : g < 4) :
    Represents (commitBlockGen map b g) (Function.update reg b g) := by
  intro b'
  by_cases hb : b' = b
  · subst hb
    rw [loadBlockGen_commitBlockGen_self ((h b').trans hzero) hg, Function.update_self]
  · rw [loadBlockGen_commitBlockGen_of_ne map g hb, Function.update_of_ne hb, h b']

/-- **The bytes simulate the registers** in every interleaving in which the threads take turns. -/
theorem represents_runOps (map : CellMap) {events : List (T × CellOp)} (hturn : InTurn events) :
    Represents (runOps CellOp.onCells map events)
      (runOps CellOp.onRegisters (loadBlockGen map) events) := by
  induction events using List.reverseRecOn with
  | nil => exact fun _ => rfl
  | append_singleton events e ih =>
    have hrep := ih hturn.append_left
    have hlast : HasTurn events e := hturn.hasTurn
    rw [runOps_concat, runOps_concat]
    obtain ⟨t, op⟩ := e
    cases op with
    | loadBlockGen b => exact hrep
    | markBlockBusy b => exact hrep.markBlockBusy b
    | commitBlockGen b newGen =>
      obtain ⟨⟨-, hle⟩, hmark⟩ := hlast
      -- the mark of the thread is the last modification, so the register is 0
      have hzero : runOps CellOp.onRegisters (loadBlockGen map) events b = 0 := by
        rw [runOps_onRegisters, hmark]
        rfl
      exact hrep.commitBlockGen hzero (by omega)

/-- **Packed cells are independent registers.**  In every interleaving of cell operations of any
threads in which the threads take turns at each block, a load returns 0 if the last modification of
its block was a mark, the committed generation if it was a commit, and the initial value of the cell
if there was none. -/
theorem load_returns_last_modification (map : CellMap) (before after : List (T × CellOp)) (t : T)
    (b : ℕ) (hturn : InTurn (before ++ (t, .loadBlockGen b) :: after)) :
    (opResults CellOp.onCells map (before ++ (t, .loadBlockGen b) :: after))[before.length]? =
      some (some (leftBy (loadBlockGen map b) (lastModification b before))) := by
  have hrep := represents_runOps map (InTurnAfter.append_left hturn) b
  rw [opResults_getElem?]
  show some (some (loadBlockGen (runOps CellOp.onCells map before) b)) = _
  rw [hrep, runOps_onRegisters]

end Turns

/-- Two threads commit two blocks of one byte, one between the mark and the commit of the other. -/
theorem load_returns_last_modification_shared_byte :
    InTurn [(0, .markBlockBusy 1), (1, .markBlockBusy 2), (0, .commitBlockGen 1 3),
      ((1 : ℕ), .loadBlockGen 1), (1, CellOp.commitBlockGen 2 1)] ∧
    (opResults CellOp.onCells (fun _ => 0xff#8) [(0, .markBlockBusy 1), (1, .markBlockBusy 2),
      (0, .commitBlockGen 1 3), ((1 : ℕ), .loadBlockGen 1), (1, CellOp.commitBlockGen 2 1)])[3]? =
      some (some 3) :=
  ⟨by decide, load_returns_last_modification (fun _ => 0xff#8)
    [(0, .markBlockBusy 1), (1, .markBlockBusy 2), (0, .commitBlockGen 1 3)]
    [(1, CellOp.commitBlockGen 2 1)] 1 1 (by decide)⟩

end Elbencho
