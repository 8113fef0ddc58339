import Elbencho.Args.BracketStep

/-!
# Lists in square brackets are expanded to their product

Each step of `expandSquareBrackets` replaces a text by the texts with the numbers of its first
list, so the texts form a tree, and the vector ends with its leaves (`InPlace`).  Four things come
in the way:

* a range that ends with the greatest `int` is counted for ever,
* a range whose first number is greater than its last one has no numbers, and a text whose first
  list has no numbers is left as it is,
* a list of one digit before a colon is not found by the regular expression,
* the index of the vector has 32 bits.

**`expandSquareBrackets_product_iff`** says that the result is the product of the lists if and
only if none of them is the case.
-/

namespace Elbencho
namespace TranslatorTk

/-! ## The tree of a text -/

/-- A property of all lists of a text, with the pieces after them. -/
def AllLists (Q : BracketList → List Piece → Prop) : List Piece → Prop
  | [] => True
  | .text _ :: pieces => AllLists Q pieces
  | .list l :: pieces => Q l pieces ∧ AllLists Q pieces

theorem AllLists.mono {Q Q' : BracketList → List Piece → Prop}
    (himp : ∀ l post, Q l post → Q' l post) {pieces : List Piece} (h : AllLists Q pieces) :
    AllLists Q' pieces := by
  induction pieces with
  | nil => exact trivial
  | cons piece pieces ih =>
    cases piece with
    | text plain => exact ih h
    | list l => exact ⟨himp l pieces h.1, ih h.2⟩

/-- A list that is found, whose ranges end, and that has numbers. -/
def Regular (l : BracketList) (post : List Piece) : Prop :=
  ¬ Blocked l post ∧ l.Ends ∧ l.ascending ≠ []

/-- Whether a list is blocked does not change when a later list is replaced by a number. -/
theorem blocked_child_iff (l l' : BracketList) (pre post : List Piece) (n : Digits) :
    Blocked l (pre ++ .list l' :: post) ↔ Blocked l (child pre post n) := by
  have hhead : (render (pre ++ .list l' :: post)).head? = some ':' ↔
      (render (child pre post n)).head? = some ':' := by
    rw [render_child, render_append]
    cases render pre with
    | nil =>
      obtain ⟨c, cs, hchars⟩ := List.exists_cons_of_ne_nil n.ne_nil
      have hc : c ≠ ':' := by
        rintro rfl
        exact n.notMem (c := ':') (by decide) (by rw [hchars]; exact List.mem_cons_self)
      rw [hchars]
      simp [render, hc]
    | cons c cs => simp
  rw [Blocked, Blocked, hhead]

/-- The lists of a text are those of the text with a number instead of one list, and this
list. -/
theorem allLists_child_iff {Q : BracketList → List Piece → Prop} {pre post : List Piece}
    {l : BracketList} {n : Digits}
    (hQ : ∀ l' pre', Q l' (pre' ++ .list l :: post) ↔ Q l' (child pre' post n)) :
    AllLists Q (pre ++ .list l :: post) ↔ Q l post ∧ AllLists Q (child pre post n) := by
  induction pre with
  | nil => exact Iff.rfl
  | cons piece pre ih =>
    cases piece with
    | text plain => exact ih
    | list l' =>
      change Q l' (pre ++ .list l :: post) ∧ AllLists Q (pre ++ .list l :: post) ↔
        Q l post ∧ Q l' (child pre post n) ∧ AllLists Q (child pre post n)
      rw [ih, hQ]
      exact and_left_comm

theorem allLists_regular_child_iff {pre post : List Piece} {l : BracketList} {n : Digits} :
    AllLists Regular (pre ++ .list l :: post) ↔
      Regular l post ∧ AllLists Regular (child pre post n) := by
  refine allLists_child_iff fun l' pre' => ?_
  rw [Regular, Regular, blocked_child_iff l' l pre' post n]

/-- The product of the numbers that are made from the lists. -/
def leaves : List Piece → List (List Char)
  | [] => [[]]
  | .text plain :: pieces => (leaves pieces).map (plain.chars ++ ·)
  | .list l :: pieces => l.ascending.flatMap fun n => (leaves pieces).map (n.chars ++ ·)

/-- The number of lists. -/
def numLists : List Piece → ℕ
  | [] => 0
  | .text _ :: pieces => numLists pieces
  | .list _ :: pieces => numLists pieces + 1

theorem numLists_child (pre post : List Piece) (l : BracketList) (n : Digits) :
    numLists (child pre post n) < numLists (pre ++ .list l :: post) := by
  induction pre with
  | nil => exact Nat.lt_succ_self _
  | cons piece pre ih =>
    cases piece with
    | text plain => exact ih
    | list l' => exact Nat.succ_lt_succ ih

/-- If no list is blocked, there is text only before the first list. -/
theorem leaves_cases {pieces : List Piece} (h : AllLists Regular pieces) :
    (firstList pieces = none ∧ leaves pieces = [render pieces]) ∨
      ∃ pre l post, firstList pieces = some (pre, l, post) ∧
        leaves pieces = (l.ascending.map (child pre post)).flatMap leaves := by
  induction pieces with
  | nil => exact Or.inl ⟨rfl, rfl⟩
  | cons piece pieces ih =>
    cases piece with
    | text plain =>
      obtain ⟨hnone, hleaves⟩ | ⟨pre, l, post, hsome, hleaves⟩ := ih h
      · refine Or.inl ⟨?_, ?_⟩
        · rw [firstList, hnone]
          rfl
        · rw [leaves, hleaves]
          rfl
      · refine Or.inr ⟨.text plain :: pre, l, post, ?_, ?_⟩
        · rw [firstList, hsome]
          rfl
        · rw [leaves, hleaves, List.map_flatMap, List.flatMap_map, List.flatMap_map]
          rfl
    | list l =>
      refine Or.inr ⟨[], l, pieces, if_neg h.1.1, ?_⟩
      rw [leaves, List.flatMap_map]
      rfl

/-- **Texts with regular lists form a tree,** and other properties of their lists are kept. -/
theorem unfolds (fuel : ℕ) (F : BracketList → Prop) :
    InPlace.Unfolds (expandSquareBracketsStr fuel) render leaves numLists
      fun pieces => AllLists Regular pieces ∧ AllLists (fun l _ => F l) pieces := by
  refine ⟨fun pieces r hnode hr => ?_⟩
  obtain ⟨hregular, hF⟩ := hnode
  obtain ⟨hnone, hleaves⟩ | ⟨pre, l, post, hsome, hleaves⟩ := leaves_cases hregular
  · rw [expandSquareBracketsStr_of_none hnone] at hr
    exact Or.inl ⟨(Option.some.inj hr).symm, hleaves⟩
  · obtain ⟨hnone, -⟩ | ⟨pre', l', post', hsome', -, rfl⟩ := of_expandSquareBracketsStr_eq_some hr
    · cases hnone.symm.trans hsome
    cases hsome.symm.trans hsome'
    obtain ⟨rfl, -⟩ := of_firstList_eq_some hsome
    have hchild (n : Digits) : Regular l post ∧ AllLists Regular (child pre post n) :=
      allLists_regular_child_iff.mp hregular
    have hF' (n : Digits) : F l ∧ AllLists (fun l _ => F l) (child pre post n) :=
      (allLists_child_iff fun _ _ => Iff.rfl).mp hF
    obtain ⟨n, ns, hns⟩ := List.exists_cons_of_ne_nil (hchild (.padded 0 0)).1.2.2
    refine Or.inr ⟨child pre post n, ns.map (child pre post), ?_, ?_, ?_⟩
    · rw [hns]
      rfl
    · intro d hd
      obtain ⟨m, -, rfl⟩ := List.mem_map.mp (show d ∈ (n :: ns).map (child pre post) from hd)
      exact ⟨⟨(hchild m).2, (hF' m).2⟩, numLists_child pre post l m⟩
    · rw [hleaves, hns]
      rfl

theorem expandSquareBracketsStr_returns {pieces : List Piece} {fuel : ℕ}
    (hregular : AllLists Regular pieces) (hfueled : AllLists (fun l _ => l.Fueled fuel) pieces) :
    ∃ r, expandSquareBracketsStr fuel (render pieces) = some r := by
  cases hfirst : firstList pieces with
  | none => exact ⟨_, expandSquareBracketsStr_of_none hfirst fuel⟩
  | some found =>
    obtain ⟨pre, l, post⟩ := found
    obtain ⟨rfl, -⟩ := of_firstList_eq_some hfirst
    have hl : Regular l post ∧ _ :=
      (allLists_regular_child_iff (n := .padded 0 0)).mp hregular
    have hfuel : l.Fueled fuel ∧
        AllLists (fun l _ => l.Fueled fuel) (child pre post (.padded 0 0)) :=
      (allLists_child_iff fun _ _ => Iff.rfl).mp hfueled
    exact ⟨_, expandSquareBracketsStr_of_fueled hfirst hl.1.2.1 hfuel.1⟩

/-! ## Ranges in the wrong order -/

/-- No range of the list is descending. -/
def BracketList.Ordered (l : BracketList) : Prop := ∀ e ∈ l.elements, ¬ e.Descending

theorem Element.numbers_eq {e : Element} (hordered : ¬ e.Descending) :
    e.numbers = e.ascending.map Digits.chars := by
  cases e with
  | number digits => rfl
  | range first last _ _ =>
    have hle : first.value ≤ last.value := Nat.not_lt.mp hordered
    rw [numbers, ascending, if_pos hle, List.map_map]
    rfl

/-- A descending range has numbers, but none are made from it. -/
theorem Element.length_ascending_lt {e : Element} (hdescending : e.Descending) :
    e.ascending.length < e.numbers.length := by
  cases e with
  | number digits => exact absurd hdescending not_false
  | range first last _ _ =>
    have hlt : last.value < first.value := hdescending
    rw [numbers, ascending, if_neg (Nat.not_le.mpr hlt)]
    simp only [List.length_map, List.length_reverse, List.length_range']
    omega

theorem Element.length_ascending_le (e : Element) : e.ascending.length ≤ e.numbers.length := by
  by_cases hordered : e.Descending
  · exact (e.length_ascending_lt hordered).le
  · rw [e.numbers_eq hordered, List.length_map]

namespace BracketList

theorem numbers_eq {l : BracketList} (hordered : l.Ordered) :
    l.numbers = l.ascending.map Digits.chars := by
  rw [numbers, ascending, List.map_flatMap]
  exact List.flatMap_congr fun e he => e.numbers_eq (hordered e he)

/-- As many numbers are made as there are, only if no range is descending. -/
theorem length_ascending (l : BracketList) :
    l.ascending.length ≤ l.numbers.length ∧
      (l.ascending.length = l.numbers.length → l.Ordered) := by
  have hall (es : List Element) :
      (es.flatMap Element.ascending).length ≤ (es.flatMap Element.numbers).length ∧
        ((es.flatMap Element.ascending).length = (es.flatMap Element.numbers).length →
          ∀ e ∈ es, ¬ e.Descending) := by
    induction es with
    | nil => simp
    | cons e es ih =>
      obtain ⟨hle, hordered⟩ := ih
      have hfirst := e.length_ascending_le
      simp only [List.flatMap_cons, List.length_append]
      refine ⟨Nat.add_le_add hfirst hle, fun heq => ?_⟩
      refine List.forall_mem_cons.mpr ⟨fun hdescending => ?_, hordered (by omega)⟩
      have hlt := e.length_ascending_lt hdescending
      omega
  exact hall l.elements

theorem ascending_ne_nil {l : BracketList} (hordered : l.Ordered) : l.ascending ≠ [] := by
  obtain ⟨e, es, hes⟩ := List.exists_cons_of_ne_nil l.ne_nil
  have he : ¬ e.Descending := hordered e (by rw [hes]; exact List.mem_cons_self)
  have hne : e.ascending ≠ [] := by
    cases e with
    | number digits => exact List.cons_ne_nil _ _
    | range first last _ _ =>
      have hle : first.value ≤ last.value := Nat.not_lt.mp he
      simp only [Element.ascending, ne_eq, List.map_eq_nil_iff, List.range'_eq_nil_iff]
      omega
  rw [ascending, hes, List.flatMap_cons]
  exact List.append_ne_nil_of_left_ne_nil hne _

/-- There is fuel for all ranges of an `int`. -/
theorem fueled (l : BracketList) : l.Fueled (2 ^ 31 + 1) := by
  intro e _
  cases e with
  | number digits => exact Nat.succ_pos _
  | range first last _ hlast =>
    change last.value + 1 - first.value < _
    omega

end BracketList

theorem allLists_of_forall {Q : BracketList → List Piece → Prop} (hQ : ∀ l post, Q l post)
    (pieces : List Piece) : AllLists Q pieces := by
  induction pieces with
  | nil => exact trivial
  | cons piece pieces ih =>
    cases piece with
    | text plain => exact ih
    | list l => exact ⟨hQ l pieces, ih⟩

theorem AllLists.and {Q Q' : BracketList → List Piece → Prop} {pieces : List Piece}
    (h : AllLists Q pieces) (h' : AllLists Q' pieces) :
    AllLists (fun l post => Q l post ∧ Q' l post) pieces := by
  induction pieces with
  | nil => exact trivial
  | cons piece pieces ih =>
    cases piece with
    | text plain => exact ih h h'
    | list l => exact ⟨⟨h.1, h'.1⟩, ih h.2 h'.2⟩

theorem leaves_eq_product {pieces : List Piece} (h : AllLists (fun l _ => l.Ordered) pieces) :
    leaves pieces = product pieces := by
  induction pieces with
  | nil => rfl
  | cons piece pieces ih =>
    cases piece with
    | text plain => rw [leaves, product, ih h]
    | list l => rw [leaves, product, ih h.2, l.numbers_eq h.1, List.flatMap_map]

/-- There are fewer leaves than the product has elements, if a range is descending. -/
theorem length_leaves {pieces : List Piece} (h : AllLists Regular pieces) :
    0 < (leaves pieces).length ∧ (leaves pieces).length ≤ (product pieces).length ∧
      ((leaves pieces).length = (product pieces).length →
        AllLists (fun l _ => l.Ordered) pieces) := by
  induction pieces with
  | nil => exact ⟨Nat.one_pos, le_rfl, fun _ => trivial⟩
  | cons piece pieces ih =>
    cases piece with
    | text plain =>
      simp only [leaves, product, List.length_map]
      exact ih h
    | list l =>
      obtain ⟨hpos, hle, hordered⟩ := ih h.2
      obtain ⟨hlist, hlistOrdered⟩ := l.length_ascending
      have hnonempty : 0 < l.ascending.length := List.length_pos_iff.mpr h.1.2.2
      have hleaves : (leaves (.list l :: pieces)).length =
          l.ascending.length * (leaves pieces).length := by
        simp [leaves, List.length_flatMap]
      have hproduct : (product (.list l :: pieces)).length =
          l.numbers.length * (product pieces).length := by
        simp [product, List.length_flatMap]
      rw [hleaves, hproduct]
      refine ⟨Nat.mul_pos hnonempty hpos, Nat.mul_le_mul hlist hle, fun heq => ?_⟩
      have hfirst : l.ascending.length = l.numbers.length := by
        by_contra hne
        have hlt : l.ascending.length < l.numbers.length := by omega
        have hless := Nat.mul_lt_mul_of_lt_of_le hlt hle (hpos.trans_le hle)
        omega
      have hrest : (leaves pieces).length = (product pieces).length := by
        rw [hfirst] at heq
        exact Nat.eq_of_mul_eq_mul_left (hfirst ▸ hnonempty) heq
      exact ⟨hlistOrdered hfirst, hordered hrest⟩

/-! ## The vector -/

/-- The numbers of a list have no brackets. -/
theorem open_notMem_numbers (l : BracketList) : ∀ n ∈ l.numbers, '[' ∉ n := by
  intro n hn
  obtain ⟨e, -, hn⟩ := List.mem_flatMap.mp hn
  cases e with
  | number digits =>
    rw [List.mem_singleton.mp hn]
    exact digits.notMem (by decide)
  | range first last _ _ =>
    obtain ⟨m, -, rfl⟩ := List.mem_map.mp hn
    exact (Digits.padded first.chars.length m).notMem (by decide)

theorem open_notMem_product (pieces : List Piece) : ∀ s ∈ product pieces, '[' ∉ s := by
  induction pieces with
  | nil =>
    intro s hs
    rw [List.mem_singleton.mp hs]
    exact List.not_mem_nil
  | cons piece pieces ih =>
    intro s hs hopen
    cases piece with
    | text plain =>
      obtain ⟨t, ht, rfl⟩ := List.mem_map.mp hs
      rcases List.mem_append.mp hopen with hopen | hopen
      · exact plain.noOpen hopen
      · exact ih t ht hopen
    | list l =>
      obtain ⟨n, hn, hs⟩ := List.mem_flatMap.mp hs
      obtain ⟨t, ht, rfl⟩ := List.mem_map.mp hs
      rcases List.mem_append.mp hopen with hopen | hopen
      · exact open_notMem_numbers l n hn hopen
      · exact ih t ht hopen

/-- A text without an opening bracket has no list. -/
theorem allLists_of_open_notMem {Q : BracketList → List Piece → Prop} {pieces : List Piece}
    (h : '[' ∉ render pieces) : AllLists Q pieces := by
  induction pieces with
  | nil => exact trivial
  | cons piece pieces ih =>
    cases piece with
    | text plain => exact ih fun hopen => h (List.mem_append_right _ hopen)
    | list l => exact absurd List.mem_cons_self h

/-- A text that has an irregular list is left as it is, or has a child with such a list. -/
theorem irregular_child {fuel : ℕ} {s : List Char} {ys : List (List Char)}
    (hs : ∃ pieces, s = render pieces ∧ ¬ AllLists Regular pieces)
    (h : expandSquareBracketsStr fuel s = some (.ok ys)) :
    ys = [] ∨ ∃ y ∈ ys, ∃ pieces, y = render pieces ∧ ¬ AllLists Regular pieces := by
  obtain ⟨pieces, rfl, hirregular⟩ := hs
  obtain ⟨-, hys⟩ | ⟨pre, l, post, hfirst, hends, hys⟩ := of_expandSquareBracketsStr_eq_some h
  · exact Or.inl (Except.ok.inj hys)
  · cases hys
    cases hascending : l.ascending with
    | nil => exact Or.inl rfl
    | cons n ns =>
      obtain ⟨rfl, hblocked⟩ := of_firstList_eq_some hfirst
      refine Or.inr ⟨render (child pre post n), ?_, child pre post n, rfl, fun hregular => ?_⟩
      · exact List.mem_map_of_mem (List.mem_map_of_mem List.mem_cons_self)
      · have hl : Regular l post := ⟨hblocked, hends, by simp [hascending]⟩
        exact hirregular (allLists_regular_child_iff.mpr ⟨hl, hregular⟩)

theorem expandSquareBrackets_ne_error (pieces : List Piece) (rangeFuel fuel : ℕ) (msg : String) :
    expandSquareBrackets rangeFuel fuel [render pieces] ≠ some (.error msg) := by
  have hkind (s : List Char) (r : Except String (List (List Char)))
      (hs : ∃ pieces, s = render pieces) (hr : expandSquareBracketsStr rangeFuel s = some r) :
      ∃ ys, r = .ok ys ∧ ∀ y ∈ ys, ∃ pieces, y = render pieces := by
    obtain ⟨pieces, rfl⟩ := hs
    obtain ⟨-, rfl⟩ | ⟨pre, l, post, -, -, rfl⟩ := of_expandSquareBracketsStr_eq_some hr
    · exact ⟨[], rfl, by simp⟩
    · refine ⟨_, rfl, fun y hy => ?_⟩
      obtain ⟨child, -, rfl⟩ := List.mem_map.mp hy
      exact ⟨child, rfl⟩
  refine InPlace.run_ne_error hkind fun s hs => ?_
  exact ⟨pieces, List.mem_singleton.mp hs⟩

/-- The result is the product of the lists; a text with a descending range may also be rejected. -/
def ProductOrRejected (pieces : List Piece) : Prop :=
  ∃ rangeFuel fuel,
    (∃ didExpand, expandSquareBrackets rangeFuel fuel [render pieces] =
      some (.ok (didExpand, product pieces))) ∨
    ¬ AllLists (fun l _ => l.Ordered) pieces ∧
      ∃ msg, expandSquareBrackets rangeFuel fuel [render pieces] = some (.error msg)

/-- A product is only the result if all lists are regular. -/
theorem allLists_regular_of_eq_product {pieces : List Piece} {rangeFuel fuel : ℕ}
    {didExpand : Bool} (hrun : expandSquareBrackets rangeFuel fuel [render pieces] =
      some (.ok (didExpand, product pieces))) : AllLists Regular pieces := by
  by_contra hirregular
  obtain ⟨y, hy, pieces', rfl, hpieces'⟩ := InPlace.exists_mem_of_run
    (fun _ _ hs h => irregular_child hs h)
    ⟨render pieces, List.mem_singleton_self _, pieces, rfl, hirregular⟩ hrun
  exact hpieces' (allLists_of_open_notMem (open_notMem_product pieces _ hy))

/-- The result for regular lists. -/
theorem leaves_of_run {pieces : List Piece} (hregular : AllLists Regular pieces)
    {rangeFuel fuel : ℕ} {r : Except String (Bool × List (List Char))}
    (hrun : expandSquareBrackets rangeFuel fuel [render pieces] = some r) :
    ∃ didExpand, r = .ok (didExpand, leaves pieces) ∧ (leaves pieces).length < unsignedSize := by
  have hnodes : ∀ b ∈ [] ++ [pieces], AllLists Regular b ∧ AllLists (fun _ _ => True) b := by
    intro b hb
    rw [List.mem_singleton.mp hb]
    exact ⟨hregular, allLists_of_forall (fun _ _ => trivial) pieces⟩
  obtain ⟨didExpand, hresult, hlt⟩ := InPlace.run_sound (unfolds rangeFuel fun _ => True)
    (by decide) (by decide) (by simp) hnodes hrun
  rw [List.nil_append, List.flatMap_singleton] at hresult hlt
  exact ⟨didExpand, hresult, hlt⟩

/-- A list that is expanded to all its numbers. -/
def Expandable (l : BracketList) (post : List Piece) : Prop :=
  ¬ Blocked l post ∧ ∀ e ∈ l.elements, ¬ e.Descending ∧ ¬ e.Endless

theorem ProductOrRejected.expandable {pieces : List Piece} (h : ProductOrRejected pieces) :
    AllLists Expandable pieces ∧ (product pieces).length < unsignedSize := by
  obtain ⟨rangeFuel, fuel, ⟨didExpand, hrun⟩ | ⟨-, msg, hrun⟩⟩ := h
  · have hregular := allLists_regular_of_eq_product hrun
    obtain ⟨flag, hresult, hlt⟩ := leaves_of_run hregular hrun
    have hleaves : product pieces = leaves pieces := (Prod.mk.inj (Except.ok.inj hresult)).2
    have hordered := (length_leaves hregular).2.2 (by rw [hleaves])
    refine ⟨(hregular.and hordered).mono fun l post hl => ?_, by rwa [hleaves]⟩
    exact ⟨hl.1.1, fun e he => ⟨hl.2 e he, hl.1.2.1 e he⟩⟩
  · exact absurd hrun (expandSquareBrackets_ne_error pieces rangeFuel fuel msg)

/-- **The lists of a text are expanded to their product if and only if** none of them is a single
digit before a colon, no range is descending or ends with the greatest `int`, and there are fewer
than `2 ^ 32` texts. -/
theorem expandSquareBrackets_product_iff (pieces : List Piece) :
    ProductOrRejected pieces ↔
      AllLists Expandable pieces ∧ (product pieces).length < unsignedSize := by
  constructor
  · exact ProductOrRejected.expandable
  · rintro ⟨hlists, hlt⟩
    have hordered : AllLists (fun l _ => l.Ordered) pieces :=
      hlists.mono fun l post hl e he => (hl.2 e he).1
    have hregular : AllLists Regular pieces := hlists.mono fun l post hl =>
      ⟨hl.1, fun e he => (hl.2 e he).2, l.ascending_ne_nil fun e he => (hl.2 e he).1⟩
    have hfueled := allLists_of_forall (fun l _ => l.fueled) pieces
    have hleaves := leaves_eq_product hordered
    obtain ⟨fuel, r, hrun⟩ := InPlace.exists_fuel_run
      (unfolds (2 ^ 31 + 1) fun l => l.Fueled (2 ^ 31 + 1))
      (fun b hb => expandSquareBracketsStr_returns hb.1 hb.2) ⟨hregular, hfueled⟩ (hleaves ▸ hlt)
    obtain ⟨flag, rfl, -⟩ := leaves_of_run hregular hrun
    exact ⟨2 ^ 31 + 1, fuel, Or.inl ⟨flag, hleaves ▸ hrun⟩⟩

/-! ## Texts that are not expanded to the product -/

/-- `h` -/
def hostText : PlainText := ⟨['h'], by simp, by simp⟩

/-- `:80` -/
def portText : PlainText := ⟨[':', '8', '0'], by simp, by simp⟩

/-- `5-3` -/
def fiveToThree : Element :=
  .range (.padded 0 5) (.padded 0 3) (by decide +kernel) (by decide +kernel)

theorem fiveToThree_descending : fiveToThree.Descending := by
  change (Digits.padded 0 3).value < (Digits.padded 0 5).value
  decide +kernel

/-- `1` -/
def justOne : Element := .number (.padded 0 1)

/-- `h[1,5-3]` -/
def partlyDescending : List Piece :=
  [.text hostText, .list ⟨[justOne, fiveToThree], List.cons_ne_nil _ _⟩]

/-- `h[5-3]` -/
def onlyDescending : List Piece := [.text hostText, .list ⟨[fiveToThree], List.cons_ne_nil _ _⟩]

/-- `h[1]:80` -/
def oneHostWithPort : List Piece :=
  [.text hostText, .list ⟨[justOne], List.cons_ne_nil _ _⟩, .text portText]

/-- A descending range is left out, or the text with it is left as it is; a list of one digit
before a colon is left as it is. -/
theorem descending_and_port_not_expanded :
    (render partlyDescending = "h[1,5-3]".toList ∧
      expandSquareBrackets 9 9 ["h[1,5-3]".toList] = some (.ok (true, ["h1".toList])) ∧
      ¬ ProductOrRejected partlyDescending) ∧
    (render onlyDescending = "h[5-3]".toList ∧
      expandSquareBrackets 9 9 ["h[5-3]".toList] = some (.ok (false, ["h[5-3]".toList])) ∧
      ¬ ProductOrRejected onlyDescending) ∧
    (render oneHostWithPort = "h[1]:80".toList ∧
      expandSquareBrackets 9 9 ["h[1]:80".toList] = some (.ok (false, ["h[1]:80".toList])) ∧
      ¬ ProductOrRejected oneHostWithPort) := by
  refine ⟨⟨by decide +kernel, by decide +kernel, ?_⟩, ⟨by decide +kernel, by decide +kernel, ?_⟩,
    ⟨by decide +kernel, by decide +kernel, ?_⟩⟩
  · intro h
    exact (h.expandable.1.1.2 fiveToThree (by simp)).1 fiveToThree_descending
  · intro h
    exact (h.expandable.1.1.2 fiveToThree (by simp)).1 fiveToThree_descending
  · intro h
    exact h.expandable.1.1.1 (by decide +kernel)

end TranslatorTk
end Elbencho
