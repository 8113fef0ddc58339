import Mathlib.Data.List.Induction
import Mathlib.Logic.Relation
import Mathlib.Tactic.SplitIfs

/-!
# Runs of a system with labelled steps

A system is given by a partial step function `step : σ → α → Option σ`: in state
`s` the action `a` either is not enabled (`none`) or leads to one next state.
Everything nondeterministic --- which party moves, what a device answers --- is
in the choice of the action, so "every interleaving" is "every list of actions".

Two notions of run are used.

* `Reach step ok s t`: some finite sequence of enabled actions leads from `s` to
  `t`, and each of them meets the side condition `ok` in the state before it.
  This is the form invariants are proved for; `ok := fun _ _ => True` gives all
  runs.
* `runTrace step s as`: the run of one explicit list of actions.  This is the
  form a concrete scenario is evaluated in, and `reach_of_runTrace` turns it
  into the other one.

`Reach.invariant` is the induction every safety statement of the development
goes through: what holds at the start and survives one step holds in every
reachable state.

A system whose steps lower a measure has no infinite run; if it is not stuck before it is done
either, then it gets done: `exists_reach_of_measure`.

For a system whose steps are total, the last section compares a run with the run
of only those actions that are allowed to have an effect.
-/

namespace Elbencho
namespace Transition

variable {σ α : Type*}

/-- One enabled step that meets the side condition. -/
def StepOn (step : σ → α → Option σ) (ok : σ → α → Prop) (s t : σ) : Prop :=
  ∃ a, ok s a ∧ step s a = some t

/-- Finitely many enabled steps, each of which meets the side condition in the
state before it. -/
def Reach (step : σ → α → Option σ) (ok : σ → α → Prop) : σ → σ → Prop :=
  Relation.ReflTransGen (StepOn step ok)

/-- The side condition that admits every step. -/
def anyStep : σ → α → Prop := fun _ _ => True

variable {step : σ → α → Option σ} {ok : σ → α → Prop}

theorem Reach.refl (s : σ) : Reach step ok s s := Relation.ReflTransGen.refl

theorem Reach.tail {s t u : σ} (h : Reach step ok s t) {a : α} (ha : ok t a)
    (hstep : step t a = some u) : Reach step ok s u :=
  Relation.ReflTransGen.tail h ⟨a, ha, hstep⟩

/-- **The invariant rule.**  What holds at the start and is kept by every
admitted step holds in every reachable state. -/
theorem Reach.invariant {Inv : σ → Prop} {s t : σ} (h : Reach step ok s t)
    (hs : Inv s)
    (hstep : ∀ u a v, Inv u → ok u a → step u a = some v → Inv v) : Inv t := by
  induction h with
  | refl => exact hs
  | tail _ hst ih =>
    obtain ⟨a, ha, hv⟩ := hst
    exact hstep _ a _ ih ha hv

/-- A run under a side condition is a run. -/
theorem Reach.weaken {ok' : σ → α → Prop} (himp : ∀ s a, ok s a → ok' s a)
    {s t : σ} (h : Reach step ok s t) : Reach step ok' s t := by
  induction h with
  | refl => exact Reach.refl s
  | tail _ hst ih =>
    obtain ⟨a, ha, hv⟩ := hst
    exact ih.tail (himp _ a ha) hv

/-! ## Explicit runs -/

/-- The run of an explicit list of actions; `none` as soon as one of them is not
enabled. -/
def runTrace (step : σ → α → Option σ) : σ → List α → Option σ
  | s, [] => some s
  | s, a :: as => (step s a).bind fun t => runTrace step t as

/-- **An explicit run is a run**, under any side condition that all its actions
meet. -/
theorem reach_of_runTrace (step : σ → α → Option σ) {p : α → Prop} :
    ∀ (as : List α) {s t : σ}, (∀ a ∈ as, p a) → runTrace step s as = some t →
      Reach step (fun _ a => p a) s t
  | [], s, t, _, h => by
    have hst : s = t := Option.some.inj h
    rw [hst]
    exact Reach.refl t
  | a :: as, s, t, hp, h => by
    rw [runTrace] at h
    obtain ⟨u, hu, hut⟩ := Option.bind_eq_some_iff.mp h
    refine Relation.ReflTransGen.head ⟨a, hp a List.mem_cons_self, hu⟩ ?_
    exact reach_of_runTrace step as (fun b hb => hp b (List.mem_cons_of_mem a hb)) hut

/-- The step function that refuses what does not meet the side condition. -/
def checkedStep (step : σ → α → Option σ) (ok : σ → α → Prop) [∀ s a, Decidable (ok s a)] :
    σ → α → Option σ :=
  fun s a => if ok s a then step s a else none

/-- An explicit run of the checked steps is a run under the side condition. -/
theorem reach_of_runTrace_checked (step : σ → α → Option σ) (ok : σ → α → Prop)
    [∀ s a, Decidable (ok s a)] :
    ∀ (as : List α) {s t : σ}, runTrace (checkedStep step ok) s as = some t →
      Reach step ok s t
  | [], s, t, h => by
    have hst : s = t := Option.some.inj h
    rw [hst]
    exact Reach.refl t
  | a :: as, s, t, h => by
    rw [runTrace] at h
    obtain ⟨u, hu, hut⟩ := Option.bind_eq_some_iff.mp h
    rw [checkedStep] at hu
    split_ifs at hu with hok
    exact Relation.ReflTransGen.head ⟨a, hok, hu⟩ (reach_of_runTrace_checked step ok as hut)

/-! ## Runs that end -/

section Measure

variable {Inv : σ → Prop} {measure : σ → ℕ}

/-- **A measure that every step lowers bounds the length of a run.** -/
theorem length_le_of_measure
    (hstep : ∀ u a v, Inv u → step u a = some v → Inv v ∧ measure v < measure u) :
    ∀ (as : List α) {s t : σ}, Inv s → runTrace step s as = some t →
      as.length + measure t ≤ measure s
  | [], s, t, _, h => by
    rw [Option.some.inj h]
    simp
  | a :: as, s, t, hs, h => by
    rw [runTrace] at h
    obtain ⟨u, hu, hut⟩ := Option.bind_eq_some_iff.mp h
    obtain ⟨hinv, hlt⟩ := hstep s a u hs hu
    have hrest := length_le_of_measure hstep as hinv hut
    rw [List.length_cons]
    omega

/-- **A system that is never stuck before it is done, and whose steps lower a measure, gets
done.** -/
theorem exists_reach_of_measure {Done : σ → Prop} {s : σ} (hs : Inv s)
    (hstep : ∀ u a v, Inv u → step u a = some v → Inv v ∧ measure v < measure u)
    (hprogress : ∀ u, Inv u → ¬ Done u → ∃ a v, step u a = some v) :
    ∃ t, Reach step anyStep s t ∧ Done t := by
  induction hn : measure s using Nat.strongRecOn generalizing s with
  | _ n ih =>
    by_cases hdone : Done s
    · exact ⟨s, Reach.refl s, hdone⟩
    · obtain ⟨a, u, hu⟩ := hprogress s hs hdone
      obtain ⟨hinv, hlt⟩ := hstep s a u hs hu
      obtain ⟨t, hreach, ht⟩ := ih (measure u) (by omega) hinv rfl
      exact ⟨t, Relation.ReflTransGen.head ⟨a, trivial, hu⟩ hreach, ht⟩

end Measure

/-! ## Actions without effect -/

section Purge

variable (next : σ → α → σ) (p : α → Prop) [DecidablePred p]

/-- A list of actions without those that meet `p`. -/
def purge (as : List α) : List α := as.filter fun a => ¬ p a

theorem purge_append_pos {a : α} (ha : p a) (as : List α) : purge p (as ++ [a]) = purge p as := by
  simp [purge, ha]

theorem purge_append_neg {a : α} (ha : ¬ p a) (as : List α) :
    purge p (as ++ [a]) = purge p as ++ [a] := by
  simp [purge, ha]

/-- **The actions that meet `p` have no effect in a run exactly if each of them leaves the state
alone that the others lead to.** -/
theorem foldl_purge_iff (s : σ) (as : List α) :
    (∀ pre, pre <+: as → pre.foldl next s = (purge p pre).foldl next s) ↔
      ∀ pre a, pre ++ [a] <+: as → p a →
        next ((purge p pre).foldl next s) a = (purge p pre).foldl next s := by
  constructor
  · intro h pre a hpre ha
    have hwith := h (pre ++ [a]) hpre
    have hwithout := h pre ((List.prefix_append pre [a]).trans hpre)
    rw [List.foldl_append, hwithout, purge_append_pos p ha] at hwith
    exact hwith
  · intro h pre
    induction pre using List.reverseRecOn with
    | nil => intro _; rfl
    | append_singleton pre a ih =>
      intro hpre
      have hrun := ih ((List.prefix_append pre [a]).trans hpre)
      rw [List.foldl_append, hrun]
      by_cases ha : p a
      · rw [purge_append_pos p ha]
        exact h pre a hpre ha
      · rw [purge_append_neg p ha, List.foldl_append]

end Purge

end Transition
end Elbencho
