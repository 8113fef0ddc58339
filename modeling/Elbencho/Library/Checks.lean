import Mathlib.Data.Nat.Basic

/-!
# Sequences of checks

Code that validates its input stops at the first check that fails.  `stopIf` is one
check and `stopAt` is a check of every element of a list, both in `Except`; the lemmas
say what is known once such a sequence has gone through.  The same is said of loops whose
passes may stop.
-/

namespace Elbencho
namespace Checks

universe u

variable {ε ι : Type*} {α β : Type u}

/-- Stop with an error if a condition holds. -/
def stopIf (c : Prop) [Decidable c] (e : ε) : Except ε PUnit := if c then .error e else .ok ⟨⟩

/-- Stop at the first element of a list for which a condition holds. -/
def stopAt (c : ι → Prop) [DecidablePred c] (e : ι → ε) : List ι → Except ε PUnit
  | [] => .ok ⟨⟩
  | x :: xs => if c x then .error (e x) else stopAt c e xs

/-- A sequence goes through if its first part does and the rest does with its value. -/
theorem bind_eq_ok {x : Except ε α} {f : α → Except ε β} {b : β} :
    x >>= f = .ok b ↔ ∃ a, x = .ok a ∧ f a = .ok b := by
  constructor
  · intro h
    cases x with
    | error e => cases h
    | ok a => exact ⟨a, rfl, h⟩
  · rintro ⟨a, rfl, h⟩
    exact h

theorem ok_bind (a : α) (f : α → Except ε β) : (.ok a >>= f : Except ε β) = f a := rfl

/-- The value of a part is only wrapped. -/
theorem map_eq_ok {x : Except ε α} {f : α → β} {b : β} :
    f <$> x = .ok b ↔ ∃ a, x = .ok a ∧ f a = b := by
  constructor
  · intro h
    cases x with
    | error e => cases h
    | ok a => exact ⟨a, rfl, Except.ok.inj h⟩
  · rintro ⟨a, rfl, rfl⟩
    rfl

theorem stopIf_eq_ok {c : Prop} [Decidable c] {e : ε} {u : PUnit} :
    stopIf c e = .ok u ↔ ¬ c := by
  unfold stopIf
  split_ifs with h
  · exact ⟨(fun hok => nomatch hok), fun hc => absurd h hc⟩
  · exact ⟨fun _ => h, fun _ => rfl⟩

theorem stopAt_eq_ok {c : ι → Prop} [DecidablePred c] {e : ι → ε} {xs : List ι} {u : PUnit} :
    stopAt c e xs = .ok u ↔ ∀ x ∈ xs, ¬ c x := by
  induction xs with
  | nil => exact ⟨fun _ x hx => absurd hx List.not_mem_nil, fun _ => rfl⟩
  | cons x xs ih =>
    rw [stopAt, List.forall_mem_cons, ← ih]
    split_ifs with h
    · exact ⟨(fun hok => nomatch hok), fun hc => absurd h hc.1⟩
    · exact ⟨fun hrest => ⟨h, hrest⟩, fun hrest => hrest.2⟩

/-- After a check, its condition is known not to hold. -/
theorem stopIf_bind_eq_ok {c : Prop} [Decidable c] {e : ε} {f : PUnit → Except ε β} {b : β} :
    stopIf c e >>= f = .ok b ↔ ¬ c ∧ f ⟨⟩ = .ok b := by
  rw [bind_eq_ok]
  exact ⟨fun ⟨_, hc, h⟩ => ⟨stopIf_eq_ok.mp hc, h⟩, fun ⟨hc, h⟩ => ⟨⟨⟩, stopIf_eq_ok.mpr hc, h⟩⟩

/-- After a check of a list, its condition is known to hold for none of its elements. -/
theorem stopAt_bind_eq_ok {c : ι → Prop} [DecidablePred c] {e : ι → ε} {xs : List ι}
    {f : PUnit → Except ε β} {b : β} :
    stopAt c e xs >>= f = .ok b ↔ (∀ x ∈ xs, ¬ c x) ∧ f ⟨⟩ = .ok b := by
  rw [bind_eq_ok]
  exact ⟨fun ⟨_, hc, h⟩ => ⟨stopAt_eq_ok.mp hc, h⟩, fun ⟨hc, h⟩ => ⟨⟨⟩, stopAt_eq_ok.mpr hc, h⟩⟩

/-- Every result of a sequence over a list is the result for one of its elements. -/
theorem exists_of_mapM_eq_ok {f : ι → Except ε α} {xs : List ι} {ys : List α}
    (h : xs.mapM f = .ok ys) {y : α} (hy : y ∈ ys) : ∃ x ∈ xs, f x = .ok y := by
  induction xs generalizing ys with
  | nil =>
    obtain rfl := Except.ok.inj h
    exact absurd hy List.not_mem_nil
  | cons x xs ih =>
    rw [List.mapM_cons] at h
    obtain ⟨z, hz, hrest⟩ := bind_eq_ok.mp h
    obtain ⟨zs, hzs, hok⟩ := bind_eq_ok.mp hrest
    obtain rfl := Except.ok.inj hok
    rcases List.mem_cons.mp hy with rfl | hy
    · exact ⟨x, List.mem_cons_self, hz⟩
    · obtain ⟨x', hx', hfx'⟩ := ih hzs hy
      exact ⟨x', List.mem_cons_of_mem _ hx', hfx'⟩

section Loops

variable {σ : Type u} {f : σ → ι → Except ε σ} {P : σ → Prop} {xs : List ι}

/-- **A loop that collects.**  If every pass goes through and adds what belongs to its element, the
loop goes through and has added what belongs to its elements. -/
theorem exists_foldlM_of_collects {κ : Type*} {M : σ → κ → Prop} {Q : ι → κ → Prop}
    (hstep : ∀ x ∈ xs, ∀ s, P s → ∃ s', f s x = .ok s' ∧ P s' ∧ ∀ o, M s' o ↔ M s o ∨ Q x o)
    {s : σ} (hs : P s) :
    ∃ s', xs.foldlM f s = .ok s' ∧ P s' ∧ ∀ o, M s' o ↔ M s o ∨ ∃ x ∈ xs, Q x o := by
  induction xs generalizing s with
  | nil => exact ⟨s, rfl, hs, fun o => by simp⟩
  | cons x xs ih =>
    obtain ⟨s₁, hx, hs₁, hmem₁⟩ := hstep x List.mem_cons_self s hs
    obtain ⟨s₂, hrest, hs₂, hmem₂⟩ := ih (fun y hy => hstep y (List.mem_cons_of_mem x hy)) hs₁
    refine ⟨s₂, ?_, hs₂, fun o => ?_⟩
    · rw [List.foldlM_cons, hx]
      exact hrest
    · rw [hmem₂, hmem₁, or_assoc]
      simp only [List.mem_cons, exists_eq_or_imp]

/-- Every pass of a loop that has gone through has gone through. -/
theorem exists_pass_of_foldlM_eq_ok (hstep : ∀ x ∈ xs, ∀ s s', P s → f s x = .ok s' → P s')
    {s t : σ} (hs : P s) (h : xs.foldlM f s = .ok t) {x : ι} (hx : x ∈ xs) :
    ∃ u u', P u ∧ f u x = .ok u' := by
  induction xs generalizing s with
  | nil => exact absurd hx List.not_mem_nil
  | cons y xs ih =>
    rw [List.foldlM_cons] at h
    obtain ⟨s', hy, hrest⟩ := bind_eq_ok.mp h
    rcases List.mem_cons.mp hx with rfl | hx
    · exact ⟨s, s', hs, hy⟩
    · exact ih (fun z hz => hstep z (List.mem_cons_of_mem y hz))
        (hstep y List.mem_cons_self s s' hs hy) hrest hx

/-- A loop goes through if every pass does. -/
theorem exists_foldlM_eq_ok (hstep : ∀ x ∈ xs, ∀ s, P s → ∃ s', f s x = .ok s' ∧ P s') {s : σ}
    (hs : P s) : ∃ s', xs.foldlM f s = .ok s' ∧ P s' := by
  induction xs generalizing s with
  | nil => exact ⟨s, rfl, hs⟩
  | cons x xs ih =>
    obtain ⟨s₁, hx, hs₁⟩ := hstep x List.mem_cons_self s hs
    obtain ⟨s₂, hrest, hs₂⟩ := ih (fun y hy => hstep y (List.mem_cons_of_mem x hy)) hs₁
    refine ⟨s₂, ?_, hs₂⟩
    rw [List.foldlM_cons, hx]
    exact hrest

end Loops

/-- A result that is found by evaluation. -/
theorem exists_ok_of_any {x : Except ε α} {p : α → Bool} (h : x.toOption.any p = true) :
    ∃ a, x = .ok a ∧ p a = true := by
  cases x with
  | error e => cases h
  | ok a => exact ⟨a, rfl, h⟩

end Checks
end Elbencho
