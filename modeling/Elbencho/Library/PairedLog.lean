import Mathlib.Algebra.BigOperators.Group.List.Basic
import Mathlib.Algebra.GroupWithZero.Nat
import Mathlib.Algebra.Order.BigOperators.Group.List
import Mathlib.Algebra.Order.Ring.Nat

/-!
# Logs of starts and ends

A log has entries for the start and for the end of operations.  It is *paired* if the operations
that were started are those that have ended, each as often.  `Tracks` relates a log to the
operations that are done and to those that are pending, where the end of an operation may have been
logged for another one: `f` is what was logged.

* `Tracks.start` and `Tracks.finish`: one more entry.
* `Tracks.paired_iff`: if `f` only makes operations smaller, a log is paired exactly if nothing is
  pending and every operation that is done was logged as it is.
-/

namespace Elbencho
namespace PairedLog

variable {ε κ : Type*} (isFinished : ε → Bool) (key : ε → κ)

/-- The operations that were started. -/
def started (log : List ε) : List κ := (log.filter fun x => !isFinished x).map key

/-- The operations that have ended. -/
def finished (log : List ε) : List κ := (log.filter isFinished).map key

/-- Every start has exactly one end, and there is no other end. -/
def Paired (log : List ε) : Prop := (started isFinished key log).Perm (finished isFinished key log)

instance [DecidableEq κ] (log : List ε) : Decidable (Paired isFinished key log) :=
  inferInstanceAs (Decidable (List.Perm _ _))

/-- The log has the starts of what is done and of what is pending, and the ends of what is done,
as `f` has them. -/
structure Tracks (f : κ → κ) (log : List ε) (done pending : List κ) : Prop where
  started : (started isFinished key log).Perm (done ++ pending)
  finished : finished isFinished key log = done.map f

variable {isFinished key} {f : κ → κ} {log : List ε} {done pending : List κ}

theorem Tracks.nil : Tracks isFinished key f [] [] [] := ⟨List.Perm.refl _, rfl⟩

/-- An operation is started. -/
theorem Tracks.start (h : Tracks isFinished key f log done pending) {x : ε}
    (hx : isFinished x = false) : Tracks isFinished key f (log ++ [x]) done (key x :: pending) where
  started := by
    have hlog : PairedLog.started isFinished key (log ++ [x]) =
        PairedLog.started isFinished key log ++ [key x] := by
      simp [PairedLog.started, hx]
    rw [hlog]
    refine (List.perm_append_singleton _ _).trans ?_
    exact (h.started.cons (key x)).trans List.perm_middle.symm
  finished := by
    rw [← h.finished]
    simp [PairedLog.finished, hx]

/-- An operation that is pending has ended. -/
theorem Tracks.finish (h : Tracks isFinished key f log done pending) {x : ε} {k : κ}
    {rest : List κ} (hx : isFinished x = true) (hkey : key x = f k)
    (hpending : pending.Perm (k :: rest)) :
    Tracks isFinished key f (log ++ [x]) (done ++ [k]) rest where
  started := by
    have hlog : PairedLog.started isFinished key (log ++ [x]) =
        PairedLog.started isFinished key log := by
      simp [PairedLog.started, hx]
    rw [hlog, List.append_assoc]
    exact h.started.trans (hpending.append_left done)
  finished := by
    rw [List.map_append, ← h.finished]
    simp [PairedLog.finished, hx, hkey]

/-- **A log is paired if and only if nothing is pending and all ends were logged as they are,**
provided that `f` does not make an operation larger and changes its size if it changes it. -/
theorem Tracks.paired_iff (h : Tracks isFinished key f log done pending) (size : κ → ℕ)
    (hle : ∀ k, size (f k) ≤ size k) (heq : ∀ k, size (f k) = size k → f k = k) :
    Paired isFinished key log ↔ pending = [] ∧ ∀ k ∈ done, f k = k := by
  have hpaired : Paired isFinished key log ↔ (done ++ pending).Perm (done.map f) := by
    rw [Paired, h.finished]
    exact ⟨h.started.symm.trans, h.started.trans⟩
  rw [hpaired]
  constructor
  · intro hperm
    have hlength := hperm.length_eq
    rw [List.length_append, List.length_map] at hlength
    have hnil : pending = [] := List.length_eq_zero_iff.mp (by omega)
    subst hnil
    rw [List.append_nil] at hperm
    refine ⟨rfl, fun k hk => heq k ?_⟩
    -- the sums of the sizes agree, and no summand has grown
    have hsum : (done.map size).sum = (done.map (size ∘ f)).sum := by
      rw [← List.map_map]
      exact (hperm.map size).sum_eq
    by_contra hne
    have hlt : (done.map (size ∘ f)).sum < (done.map size).sum :=
      List.sum_lt_sum _ _ (fun k _ => hle k) ⟨k, hk, lt_of_le_of_ne (hle k) hne⟩
    exact hlt.ne hsum.symm
  · rintro ⟨rfl, hsame⟩
    rw [List.append_nil]
    have hmap : done.map f = done.map id := List.map_congr_left hsame
    rw [hmap, List.map_id]

end PairedLog
end Elbencho
