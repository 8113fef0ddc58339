import Mathlib.Data.List.Basic

/-!
# Expanding a list in place

A program goes through a list by index.  An element that can be expanded is replaced by its
children, at the same position, and the program looks at the first of them next; another element
is left as it is, and the index is increased.  The index is an unsigned number of fixed width, so
it becomes zero when it reaches `size`.

What an element is expanded to is told by `expand`: it need not return, it can fail, and it
returns no children for an element that is left as it is.  The elements are described by nodes
of a tree: `Unfolds` says that every node is a leaf or has children that are nodes again.

* `run_sound`: what is left at the end are the leaves of the trees, in order, and their number
  is below `size`.
* `exists_fuel_run`: if there are fewer leaves than `size` and all expansions return, the
  program ends.
* `exists_mem_of_run`: an element of a kind that is always left or has a child of the same kind
  does not vanish.
* `run_ne_error`: the program does not fail if no element that can come up does.
-/

namespace Elbencho
namespace InPlace

variable {α β ε : Type*} (expand : α → Option (Except ε (List α))) (size : ℕ)

/-- The loop over the list, with fuel, and with a flag for an element that was expanded. -/
def run : ℕ → Bool → ℕ → List α → Option (Except ε (Bool × List α))
  | 0, _, _, _ => none
  | fuel + 1, didExpand, i, xs =>
    match xs[i]? with
    | none => some (.ok (didExpand, xs))
    | some x =>
      match expand x with
      | none => none
      | some (.error e) => some (.error e)
      | some (.ok []) => run fuel didExpand ((i + 1) % size) xs
      | some (.ok (y :: ys)) =>
        run fuel true i (xs.take i ++ (y :: ys) ++ xs.drop (i + 1))

/-- Every node whose expansion returns is a leaf or has children, which are less deep. -/
structure Unfolds (render : β → α) (leaves : β → List α) (depth : β → ℕ) (Node : β → Prop) :
    Prop where
  cases : ∀ b r, Node b → expand (render b) = some r →
    (r = .ok [] ∧ leaves b = [render b]) ∨
      ∃ c cs, r = .ok ((c :: cs).map render) ∧
        (∀ d ∈ c :: cs, Node d ∧ depth d < depth b) ∧ leaves b = (c :: cs).flatMap leaves

variable {expand size}

/-- The elements before the index are leaves, and stay. -/
theorem flatMap_of_leaves {render : β → α} {leaves : β → List α} {bs : List β}
    (hdone : ∀ b ∈ bs, leaves b = [render b]) : bs.flatMap leaves = bs.map render := by
  induction bs with
  | nil => rfl
  | cons b bs ih =>
    rw [List.forall_mem_cons] at hdone
    rw [List.flatMap_cons, hdone.1, ih hdone.2, List.map_cons, List.singleton_append]

section Nodes

variable {render : β → α} {leaves : β → List α} {depth : β → ℕ} {Node : β → Prop}
  (hunfolds : Unfolds expand render leaves depth Node)

include hunfolds in
/-- **At the end there are the leaves, and fewer than `size`.**  The index never passes an
element that is not a leaf, so it stands after the last leaf when the program ends. -/
theorem run_sound (hsize : 0 < size) {fuel : ℕ} {didExpand : Bool} {done left : List β}
    (hlt : done.length < size) (hdone : ∀ b ∈ done, leaves b = [render b])
    (hnodes : ∀ b ∈ done ++ left, Node b) {r : Except ε (Bool × List α)}
    (hrun : run expand size fuel didExpand done.length ((done ++ left).map render) = some r) :
    ∃ flag, r = .ok (flag, (done ++ left).flatMap leaves) ∧
      ((done ++ left).flatMap leaves).length < size := by
  induction fuel generalizing didExpand done left with
  | zero => cases hrun
  | succ fuel ih =>
    cases left with
    | nil =>
      rw [List.append_nil] at hrun ⊢
      have hget : (done.map render)[done.length]? = none := by
        simp
      rw [run, hget] at hrun
      rw [flatMap_of_leaves hdone]
      exact ⟨didExpand, (Option.some.inj hrun).symm, by rwa [List.length_map]⟩
    | cons b left =>
      have hget : ((done ++ b :: left).map render)[done.length]? = some (render b) := by
        simp
      rw [run, hget] at hrun
      have hreturns : ∃ result, expand (render b) = some result := by
        cases hnone : expand (render b) with
        | none =>
          simp only [hnone] at hrun
          cases hrun
        | some result => exact ⟨result, rfl⟩
      obtain ⟨result, hexpand⟩ := hreturns
      obtain ⟨rfl, hleaves⟩ | ⟨c, cs, rfl, hcs, hleaves⟩ :=
        hunfolds.cases b result (hnodes b (by simp)) hexpand
      · -- the index goes on, possibly back to the beginning
        simp only [hexpand] at hrun
        have happend : done ++ b :: left = (done ++ [b]) ++ left := by simp
        have hdone' : ∀ d ∈ done ++ [b], leaves d = [render d] := by
          intro d hd
          rcases List.mem_append.mp hd with hd | hd
          · exact hdone d hd
          · rw [List.mem_singleton.mp hd, hleaves]
        by_cases hnext : done.length + 1 < size
        · rw [Nat.mod_eq_of_lt hnext, happend] at hrun
          have hlength : (done ++ [b]).length = done.length + 1 := by simp
          rw [happend] at hnodes ⊢
          exact ih (hlength ▸ hnext) hdone' hnodes (hlength ▸ hrun)
        · have hwrap : (done.length + 1) % size = 0 := by
            rw [show done.length + 1 = size by omega, Nat.mod_self]
          rw [hwrap] at hrun
          exact @ih didExpand [] (done ++ b :: left) hsize (by simp) hnodes hrun
      · -- the element is replaced by its children
        simp only [hexpand, List.map_cons] at hrun
        have hvec : ((done ++ b :: left).map render).take done.length ++
            (render c :: cs.map render) ++
              ((done ++ b :: left).map render).drop (done.length + 1) =
            (done ++ ((c :: cs) ++ left)).map render := by
          rw [← List.map_take, ← List.map_drop, List.take_left, List.drop_append]
          simp
        rw [hvec] at hrun
        have hflat : (done ++ b :: left).flatMap leaves =
            (done ++ ((c :: cs) ++ left)).flatMap leaves := by
          simp only [List.flatMap_append, List.flatMap_cons, hleaves, List.append_assoc]
        rw [hflat]
        refine ih hlt hdone ?_ hrun
        intro d hd
        rcases List.mem_append.mp hd with hd | hd
        · exact hnodes d (List.mem_append_left _ hd)
        · rcases List.mem_append.mp hd with hd | hd
          · exact (hcs d hd).1
          · exact hnodes d (List.mem_append_right _ (List.mem_cons_of_mem _ hd))

end Nodes

/-! ## The program ends -/

variable (expand size) in
/-- The program goes over some elements and leaves others, whatever is before and after them. -/
def Passes (before after : List α) : Prop :=
  ∃ k, ∀ fuel didExpand done rest, done.length + after.length < size →
    ∃ flag, run expand size (fuel + k) didExpand done.length (done ++ before ++ rest) =
      run expand size fuel flag (done.length + after.length) (done ++ after ++ rest)

theorem Passes.nil : Passes expand size [] [] :=
  ⟨0, fun _ didExpand _ _ _ => ⟨didExpand, rfl⟩⟩

theorem Passes.append {before after before' after' : List α} (h : Passes expand size before after)
    (h' : Passes expand size before' after') :
    Passes expand size (before ++ before') (after ++ after') := by
  obtain ⟨k, hk⟩ := h
  obtain ⟨k', hk'⟩ := h'
  refine ⟨k' + k, fun fuel didExpand done rest hlt => ?_⟩
  rw [List.length_append] at hlt
  obtain ⟨flag, hfirst⟩ := hk (fuel + k') didExpand done (before' ++ rest) (by omega)
  obtain ⟨flag', hsecond⟩ := hk' fuel flag (done ++ after) rest
    (by rw [List.length_append]; omega)
  refine ⟨flag', ?_⟩
  rw [← Nat.add_assoc, List.append_assoc, List.append_assoc, ← List.append_assoc done, hfirst,
    ← List.append_assoc, ← List.length_append, hsecond]
  simp only [List.length_append, List.append_assoc, Nat.add_assoc]

/-- An element that is left as it is. -/
theorem Passes.leaf {x : α} (hleaf : expand x = some (.ok [])) : Passes expand size [x] [x] := by
  refine ⟨1, fun fuel didExpand done rest hlt => ⟨didExpand, ?_⟩⟩
  have hget : (done ++ [x] ++ rest)[done.length]? = some x := by simp
  have hnext : (done.length + 1) % size = done.length + 1 := Nat.mod_eq_of_lt hlt
  rw [run, hget]
  simp only [hleaf, hnext, List.length_singleton]

/-- An element that is replaced by its children. -/
theorem Passes.replace {x y : α} {ys after : List α} (hx : expand x = some (.ok (y :: ys)))
    (h : Passes expand size (y :: ys) after) : Passes expand size [x] after := by
  obtain ⟨k, hk⟩ := h
  refine ⟨k + 1, fun fuel didExpand done rest hlt => ?_⟩
  obtain ⟨flag, hrun⟩ := hk fuel true done rest hlt
  have hget : (done ++ [x] ++ rest)[done.length]? = some x := by simp
  have htake : (done ++ [x] ++ rest).take done.length = done := by simp
  have hdrop : (done ++ [x] ++ rest).drop (done.length + 1) = rest := by
    rw [List.drop_append_of_le_length (by simp), List.drop_of_length_le (by simp),
      List.nil_append]
  refine ⟨flag, ?_⟩
  rw [← Nat.add_assoc, run, hget]
  simp only [hx, htake, hdrop]
  exact hrun

section Ends

variable {render : β → α} {leaves : β → List α} {depth : β → ℕ} {Node : β → Prop}
  (hunfolds : Unfolds expand render leaves depth Node)
  (hreturns : ∀ b, Node b → ∃ r, expand (render b) = some r)

include hunfolds hreturns in
/-- A node becomes its leaves; the induction is on its depth. -/
theorem passes_leaves {b : β} (hb : Node b) : Passes expand size [render b] (leaves b) := by
  induction hn : depth b using Nat.strongRecOn generalizing b with
  | ind n ih =>
    obtain ⟨r, hr⟩ := hreturns b hb
    obtain ⟨rfl, hleaves⟩ | ⟨c, cs, rfl, hcs, hleaves⟩ := hunfolds.cases b r hb hr
    · rw [hleaves]
      exact Passes.leaf hr
    · have hlist (ds : List β) (hds : ∀ d ∈ ds, Node d ∧ depth d < depth b) :
          Passes expand size (ds.map render) (ds.flatMap leaves) := by
        induction ds with
        | nil => exact Passes.nil
        | cons d ds ihds =>
          rw [List.forall_mem_cons] at hds
          have hfirst := ih (depth d) (hn ▸ hds.1.2) hds.1.1 rfl
          exact hfirst.append (ihds hds.2)
      rw [hleaves]
      exact Passes.replace hr (hlist (c :: cs) hcs)

include hunfolds hreturns in
/-- **The program ends if there are fewer leaves than `size`.** -/
theorem exists_fuel_run {b : β} (hb : Node b) (hlt : (leaves b).length < size) :
    ∃ fuel r, run expand size fuel false 0 [render b] = some r := by
  have hpasses : Passes expand size [render b] (leaves b) := passes_leaves hunfolds hreturns hb
  obtain ⟨k, hk⟩ := hpasses
  obtain ⟨flag, hrun⟩ := hk 1 false [] [] (by simpa using hlt)
  simp only [List.nil_append, List.append_nil, List.length_nil, Nat.zero_add] at hrun
  have hend : (leaves b)[(leaves b).length]? = none := List.getElem?_eq_none (Nat.le_refl _)
  refine ⟨1 + k, .ok (flag, leaves b), ?_⟩
  rw [hrun, run, hend]

end Ends

/-! ## Elements that do not vanish -/

/-- **Some elements are always left, or have a child of the same kind.** -/
theorem exists_mem_of_run {Kind : α → Prop}
    (hkind : ∀ x ys, Kind x → expand x = some (.ok ys) → ys = [] ∨ ∃ y ∈ ys, Kind y)
    {fuel i : ℕ} {didExpand flag : Bool} {xs ys : List α} (hxs : ∃ x ∈ xs, Kind x)
    (hrun : run expand size fuel didExpand i xs = some (.ok (flag, ys))) : ∃ y ∈ ys, Kind y := by
  induction fuel generalizing didExpand i xs with
  | zero => cases hrun
  | succ fuel ih =>
    rw [run] at hrun
    cases hget : xs[i]? with
    | none =>
      simp only [hget, Option.some.injEq, Except.ok.injEq, Prod.mk.injEq] at hrun
      rwa [← hrun.2]
    | some x =>
      simp only [hget] at hrun
      split at hrun
      · cases hrun
      · cases hrun
      · exact ih hxs hrun
      · rename_i z zs hexpand
        refine ih ?_ hrun
        obtain ⟨w, hw, hwkind⟩ := hxs
        have hi : i < xs.length := (List.getElem?_eq_some_iff.mp hget).1
        have hx : xs = xs.take i ++ x :: xs.drop (i + 1) := by
          have hdrop : xs.drop i = x :: xs.drop (i + 1) := by
            rw [List.drop_eq_getElem_cons hi, (List.getElem?_eq_some_iff.mp hget).2]
          rw [← hdrop, List.take_append_drop]
        rw [hx, List.mem_append, List.mem_cons] at hw
        rcases hw with hw | rfl | hw
        · exact ⟨w, by simp [hw], hwkind⟩
        · obtain hnil | ⟨y, hy, hykind⟩ := hkind w (z :: zs) hwkind hexpand
          · cases hnil
          · exact ⟨y, List.mem_append_left _ (List.mem_append_right _ hy), hykind⟩
        · exact ⟨w, List.mem_append_right _ hw, hwkind⟩

/-- **No failure comes from elements that do not fail and have only such children.** -/
theorem run_ne_error {Kind : α → Prop}
    (hkind : ∀ x r, Kind x → expand x = some r → ∃ ys, r = .ok ys ∧ ∀ y ∈ ys, Kind y)
    {fuel i : ℕ} {didExpand : Bool} {xs : List α} {e : ε} (hxs : ∀ x ∈ xs, Kind x) :
    run expand size fuel didExpand i xs ≠ some (.error e) := by
  intro hrun
  induction fuel generalizing didExpand i xs with
  | zero => cases hrun
  | succ fuel ih =>
    rw [run] at hrun
    cases hget : xs[i]? with
    | none =>
      simp only [hget] at hrun
      cases hrun
    | some x =>
      simp only [hget] at hrun
      have hx : Kind x := hxs x (List.mem_of_getElem? hget)
      split at hrun
      · cases hrun
      · rename_i e' hexpand
        obtain ⟨ys, hys, -⟩ := hkind x _ hx hexpand
        cases hys
      · exact ih hxs hrun
      · rename_i z zs hexpand
        obtain ⟨ys, hys, hchildren⟩ := hkind x _ hx hexpand
        cases hys
        refine ih ?_ hrun
        intro y hy
        rcases List.mem_append.mp hy with hy | hy
        · rcases List.mem_append.mp hy with hy | hy
          · exact hxs y (List.mem_of_mem_take hy)
          · exact hchildren y hy
        · exact hxs y (List.mem_of_mem_drop hy)

end InPlace
end Elbencho
