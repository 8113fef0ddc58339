import Mathlib.Data.List.TakeWhile
import Elbencho.Args.SquareBrackets

/-!
# One list in square brackets

A text is put together from pieces of plain text and lists.  What `expandSquareBracketsStr` makes
of it is a matter of its first list that the regular expression finds, which is `firstList`: for
each number of this list there is a text with one list less.

* `rangeLoop_eq`, `rangeLoop_endless`: the numbers of a range; one that ends with the greatest
  `int` is counted for ever.
* `regexSearch_render`: what the regular expression finds.  A list of one digit before a colon is
  passed over.
* **`expandSquareBracketsStr_of_fueled`**, **`of_expandSquareBracketsStr_eq_some`**: the result
  for a text, and that there is no other one.
-/

namespace Elbencho
namespace TranslatorTk

open UnitTk

/-! ## Ranges -/

/-- A range that ends with the greatest `int` has no end. -/
theorem rangeLoop_endless (fuel : ℕ) {i : ℤ} (hi : i ≤ 2 ^ 31 - 1) :
    rangeLoop (2 ^ 31 - 1) fuel i = none := by
  induction fuel generalizing i with
  | zero => rfl
  | succ fuel ih =>
    have hnext : intSucc i ≤ 2 ^ 31 - 1 := by
      unfold intSucc
      split_ifs <;> omega
    rw [rangeLoop, if_pos hi, ih hnext, Option.map_none]

/-- Other ranges are counted as long as there is fuel. -/
theorem rangeLoop_eq {last : ℕ} (hlast : last < 2 ^ 31 - 1) (fuel first : ℕ) :
    rangeLoop last fuel first =
      if last + 1 - first < fuel then
        some ((List.range' first (last + 1 - first)).map Int.ofNat)
      else none := by
  induction fuel generalizing first with
  | zero => rfl
  | succ fuel ih =>
    rw [rangeLoop]
    by_cases hle : (first : ℤ) ≤ last
    · have hsucc : intSucc first = (first + 1 : ℕ) := by
        rw [intSucc, if_neg (by omega)]
        rfl
      have hlength : last + 1 - first = last + 1 - (first + 1) + 1 := by omega
      rw [if_pos hle, hsucc, ih, hlength, List.range'_succ]
      split_ifs with hfuel hfuel' hfuel'
      · rfl
      · omega
      · omega
      · rfl
    · have hzero : last + 1 - first = 0 := by omega
      rw [if_neg hle, hzero, if_pos (Nat.succ_pos fuel)]
      rfl

/-! ## Numbers as they are written -/

namespace Digits

theorem notMem {c : Char} (digits : Digits) (hc : c.isDigit = false) : c ∉ digits.chars :=
  fun hmem => Bool.false_ne_true (hc.symm.trans (digits.isDigit c hmem))

/-- A number as text of its own. -/
def plain (digits : Digits) : PlainText where
  chars := digits.chars
  noOpen := digits.notMem (by decide)
  noClose := digits.notMem (by decide)

/-- A number with leading zeros. -/
def padded (width n : ℕ) : Digits where
  chars := (Nat.toDigits 10 n).leftpad width '0'
  ne_nil := by
    rw [List.leftpad]
    exact List.append_ne_nil_of_right_ne_nil _ Nat.toDigits_ne_nil
  isDigit := by
    intro c hc
    rcases List.mem_append.mp hc with hc | hc
    · rw [List.eq_of_mem_replicate hc]
      rfl
    · exact isDigit_of_mem hc

/-- Leading zeros do not count. -/
theorem ofDigitChars_dropWhile (cs : List Char) :
    Nat.ofDigitChars 10 (cs.dropWhile (· = '0')) 0 = Nat.ofDigitChars 10 cs 0 := by
  induction cs with
  | nil => rfl
  | cons c cs ih =>
    by_cases hc : c = '0'
    · subst hc
      rw [List.dropWhile_cons_of_pos (by simp), ih]
      rfl
    · rw [List.dropWhile_cons_of_neg (by simpa using hc)]

theorem rangeNumber_dropWhile (digits : Digits) (hlt : digits.value < 2 ^ 31) :
    rangeNumber (digits.chars.dropWhile (· = '0')) = some (digits.value : ℤ) := by
  have hvalue := ofDigitChars_dropWhile digits.chars
  rw [rangeNumber]
  by_cases hnil : digits.chars.dropWhile (· = '0') = []
  · rw [hnil] at hvalue
    rw [if_pos hnil, value, ← hvalue]
    rfl
  · have hdigits : ∀ c ∈ digits.chars.dropWhile (· = '0'), c.isDigit = true := fun c hc =>
      digits.isDigit c (List.dropWhile_subset _ hc)
    have hnone : ∀ c ∈ ([] : List Char).head?, c.isDigit = false := by simp
    have hsign := signAndDigits_append hnil hdigits hnone
    rw [List.append_nil] at hsign
    rw [if_neg hnil, stoi, hsign]
    simp only [if_neg hnil, if_neg Bool.false_ne_true, hvalue]
    exact if_pos hlt

end Digits

theorem filledNum_eq (width n : ℕ) :
    filledNum width (intText n) = (Digits.padded width n).chars := by
  have hlength : width - min width (Nat.toDigits 10 n).length =
      width - (Nat.toDigits 10 n).length := by omega
  change List.replicate (width - min width (Nat.toDigits 10 n).length) '0' ++ _ = _
  rw [hlength]
  rfl

namespace Element

/-- The numbers that are made from an element: none for a descending range. -/
def ascending : Element → List Digits
  | .number digits => [digits]
  | .range first last _ _ =>
    (List.range' first.value (last.value + 1 - first.value)).map (.padded first.chars.length)

/-- The rounds of the loop over the numbers of a range. -/
def rounds : Element → ℕ
  | .number _ => 0
  | .range first last _ _ => last.value + 1 - first.value

theorem chars_ne_nil (e : Element) : e.chars ≠ [] := by
  cases e with
  | number digits => exact digits.ne_nil
  | range first last _ _ => simp [chars]

theorem isListChar_of_mem (e : Element) : ∀ c ∈ e.chars, isListChar c = true := by
  intro c hc
  cases e with
  | number digits => simp [isListChar, digits.isDigit c hc]
  | range first last _ _ =>
    rcases List.mem_append.mp hc with hc | hc
    · simp [isListChar, first.isDigit c hc]
    · rcases List.mem_cons.mp hc with rfl | hc
      · rfl
      · simp [isListChar, last.isDigit c hc]

theorem comma_notMem (e : Element) : ',' ∉ e.chars := by
  cases e with
  | number digits => exact digits.notMem (by decide)
  | range first last _ _ =>
    simp [chars, first.notMem (c := ',') (by decide), last.notMem (c := ',') (by decide)]

theorem splitCompress_range (first last : Digits) :
    splitCompress '-' (first.chars ++ '-' :: last.chars) = [first.chars, last.chars] := by
  have htext : first.chars ++ '-' :: last.chars = ['-'].intercalate [first.chars, last.chars] := by
    simp [List.intercalate]
  rw [htext]
  refine splitCompress_intercalate (List.cons_ne_nil _ _) ?_ ?_
  · intro piece hpiece
    simp only [List.mem_cons, List.not_mem_nil, or_false] at hpiece
    rcases hpiece with rfl | rfl
    · exact first.notMem (by decide)
    · exact last.notMem (by decide)
  · intro piece hpiece
    simp only [List.mem_cons, List.not_mem_nil, or_false] at hpiece
    rcases hpiece with rfl | rfl
    · exact first.ne_nil
    · exact last.ne_nil

/-- The numbers of a range are counted. -/
theorem expandElem_range (first last : Digits) (hfirst : first.value < 2 ^ 31)
    (hlast : last.value < 2 ^ 31) (fuel : ℕ) (inputStr pre post : List Char) :
    expandElem fuel inputStr pre post (first.chars ++ '-' :: last.chars) =
      (rangeLoop last.value fuel first.value).map fun numbers =>
        .ok (numbers.map fun i => pre ++ filledNum first.chars.length (intText i) ++ post) := by
  have hdash : ¬ '-' ∉ first.chars ++ '-' :: last.chars := by simp
  rw [expandElem, if_neg hdash, splitCompress_range]
  simp only [Digits.rangeNumber_dropWhile first hfirst, Digits.rangeNumber_dropWhile last hlast]

/-- The texts for the numbers of an element. -/
def texts (e : Element) (pre post : List Char) : List (List Char) :=
  e.ascending.map fun n => pre ++ n.chars ++ post

theorem expandElem_number (digits : Digits) (fuel : ℕ) (inputStr pre post : List Char) :
    expandElem fuel inputStr pre post digits.chars = some (.ok [pre ++ digits.chars ++ post]) :=
  if_pos (digits.notMem (by decide))

theorem map_filledNum (width first n : ℕ) (pre post : List Char) :
    (((List.range' first n).map Int.ofNat).map fun i =>
      pre ++ filledNum width (intText i) ++ post) =
      ((List.range' first n).map (Digits.padded width)).map fun n => pre ++ n.chars ++ post := by
  rw [List.map_map, List.map_map]
  refine List.map_congr_left fun n _ => ?_
  change pre ++ filledNum width (intText (n : ℤ)) ++ post = _
  rw [filledNum_eq]
  rfl

/-- **An element is expanded to its numbers,** if there is fuel for them. -/
theorem expandElem_of_rounds_lt {e : Element} (hend : ¬ e.Endless) {fuel : ℕ}
    (hfuel : e.rounds < fuel) (inputStr pre post : List Char) :
    expandElem fuel inputStr pre post e.chars = some (.ok (e.texts pre post)) := by
  cases e with
  | number digits => exact expandElem_number digits fuel inputStr pre post
  | range first last hfirst hlast =>
    have hlt : last.value < 2 ^ 31 - 1 := by
      have hne : last.value ≠ 2 ^ 31 - 1 := hend
      omega
    have hrounds : last.value + 1 - first.value < fuel := hfuel
    rw [chars, expandElem_range first last hfirst hlast, rangeLoop_eq hlt, if_pos hrounds,
      Option.map_some, map_filledNum]
    rfl

/-- There is no other result. -/
theorem of_expandElem_eq_some {e : Element} {fuel : ℕ} {inputStr pre post : List Char}
    {r : Except String (List (List Char))}
    (h : expandElem fuel inputStr pre post e.chars = some r) :
    ¬ e.Endless ∧ r = .ok (e.texts pre post) := by
  cases e with
  | number digits =>
    rw [chars, expandElem_number] at h
    exact ⟨not_false, (Option.some.inj h).symm⟩
  | range first last hfirst hlast =>
    rw [chars, expandElem_range first last hfirst hlast] at h
    obtain ⟨numbers, hnumbers, hr⟩ := Option.map_eq_some_iff.mp h
    have hend : last.value ≠ 2 ^ 31 - 1 := by
      intro hmax
      have hcast : ((2 ^ 31 - 1 : ℕ) : ℤ) = 2 ^ 31 - 1 := rfl
      rw [hmax, hcast, rangeLoop_endless fuel (by omega)] at hnumbers
      cases hnumbers
    refine ⟨hend, ?_⟩
    rw [rangeLoop_eq (by omega)] at hnumbers
    split_ifs at hnumbers
    rw [← hr, ← Option.some.inj hnumbers, map_filledNum]
    rfl

end Element

/-! ## Lists -/

/-- The texts for the numbers of some elements. -/
theorem expandElems_of_rounds_lt {es : List Element} {fuel : ℕ}
    (hes : ∀ e ∈ es, ¬ e.Endless ∧ e.rounds < fuel) (inputStr pre post : List Char) :
    expandElems fuel inputStr pre post (es.map Element.chars) =
      some (.ok (es.flatMap fun e => e.texts pre post)) := by
  induction es with
  | nil => rfl
  | cons e es ih =>
    rw [List.forall_mem_cons] at hes
    rw [List.map_cons, expandElems, Element.expandElem_of_rounds_lt hes.1.1 hes.1.2]
    simp only [ih hes.2]
    rfl

theorem of_expandElems_eq_some {es : List Element} {fuel : ℕ} {inputStr pre post : List Char}
    {r : Except String (List (List Char))}
    (h : expandElems fuel inputStr pre post (es.map Element.chars) = some r) :
    (∀ e ∈ es, ¬ e.Endless) ∧ r = .ok (es.flatMap fun e => e.texts pre post) := by
  induction es generalizing r with
  | nil => exact ⟨by simp, (Option.some.inj h).symm⟩
  | cons e es ih =>
    rw [List.map_cons, expandElems] at h
    cases helem : expandElem fuel inputStr pre post e.chars with
    | none =>
      rw [helem] at h
      cases h
    | some result =>
      obtain ⟨hend, rfl⟩ := Element.of_expandElem_eq_some helem
      simp only [helem] at h
      obtain ⟨rest, hrest, hr⟩ := Option.map_eq_some_iff.mp h
      obtain ⟨hends, rfl⟩ := ih hrest
      exact ⟨List.forall_mem_cons.mpr ⟨hend, hends⟩, hr.symm⟩

namespace BracketList

/-- The numbers that are made from a list. -/
def ascending (l : BracketList) : List Digits := l.elements.flatMap Element.ascending

/-- No range of the list ends with the greatest `int`. -/
def Ends (l : BracketList) : Prop := ∀ e ∈ l.elements, ¬ e.Endless

/-- There is fuel for all ranges of the list. -/
def Fueled (fuel : ℕ) (l : BracketList) : Prop := ∀ e ∈ l.elements, e.rounds < fuel

theorem chars_ne_nil (l : BracketList) : l.chars ≠ [] := by
  obtain ⟨e, es, hes⟩ := List.exists_cons_of_ne_nil l.ne_nil
  intro hnil
  rw [chars, hes] at hnil
  cases es with
  | nil => exact e.chars_ne_nil (by simpa [List.intercalate] using hnil)
  | cons e' es => simp [List.intercalate] at hnil

theorem isListChar_of_mem (l : BracketList) : ∀ c ∈ l.chars, isListChar c = true := by
  have hall (es : List Element) :
      ∀ c ∈ [','].intercalate (es.map Element.chars), isListChar c = true := by
    induction es with
    | nil => simp
    | cons e es ih =>
      cases es with
      | nil =>
        rw [List.map_singleton, List.intercalate_singleton]
        exact e.isListChar_of_mem
      | cons e' es =>
        rw [List.map_cons, List.map_cons, List.intercalate_cons_cons]
        intro c hc
        rcases List.mem_append.mp hc with hc | hc
        · rcases List.mem_append.mp hc with hc | hc
          · exact e.isListChar_of_mem c hc
          · rw [List.mem_singleton.mp hc]
            rfl
        · exact ih c hc
  exact hall l.elements

/-- The elements of a list are found again. -/
theorem elements_of_chars (l : BracketList) :
    (splitCompress ',' l.chars).filter (· ≠ []) = l.elements.map Element.chars := by
  have hne : ∀ piece ∈ l.elements.map Element.chars, piece ≠ [] := by
    intro piece hpiece
    obtain ⟨e, -, rfl⟩ := List.mem_map.mp hpiece
    exact e.chars_ne_nil
  rw [chars, splitCompress_intercalate (by simpa using l.ne_nil) ?_ hne]
  · exact List.filter_eq_self.mpr fun piece hpiece => decide_eq_true (hne piece hpiece)
  · intro piece hpiece
    obtain ⟨e, -, rfl⟩ := List.mem_map.mp hpiece
    exact e.comma_notMem

theorem flatMap_texts (l : BracketList) (pre post : List Char) :
    (l.elements.flatMap fun e => e.texts pre post) =
      l.ascending.map fun n => pre ++ n.chars ++ post := by
  rw [ascending, List.map_flatMap]
  rfl

end BracketList

/-! ## The first list of a text -/

instance (l : BracketList) (pieces : List Piece) : Decidable (Blocked l pieces) :=
  inferInstanceAs (Decidable (_ ∧ _))

theorem render_append (pieces pieces' : List Piece) :
    render (pieces ++ pieces') = render pieces ++ render pieces' := by
  induction pieces with
  | nil => rfl
  | cons piece pieces ih =>
    cases piece with
    | text plain => rw [List.cons_append, render, render, ih, List.append_assoc]
    | list l =>
      rw [List.cons_append, render, render, ih]
      simp

/-- No text begins with a closing bracket. -/
theorem head?_render_ne (pieces : List Piece) : (render pieces).head? ≠ some ']' := by
  induction pieces with
  | nil => simp [render]
  | cons piece pieces ih =>
    cases piece with
    | text plain =>
      rw [render]
      cases hchars : plain.chars with
      | nil => rwa [List.nil_append]
      | cons c cs =>
        rw [List.cons_append, List.head?_cons]
        intro hc
        have hnot := plain.noClose
        rw [hchars, Option.some.inj hc] at hnot
        exact hnot List.mem_cons_self
    | list l => simp [render]

/-- The lookahead finds a list of one character before a colon. -/
theorem lookahead_list (l : BracketList) (pieces : List Piece) :
    lookahead (l.chars ++ ']' :: render pieces) = true ↔ Blocked l pieces := by
  obtain ⟨c, cs, hchars⟩ := List.exists_cons_of_ne_nil l.chars_ne_nil
  rw [Blocked, hchars, List.cons_append, lookahead, decide_eq_true_iff]
  cases cs with
  | nil =>
    have hdrop : (render pieces).dropWhile (· = ']') = render pieces := by
      cases hrender : render pieces with
      | nil => rfl
      | cons d ds =>
        have hd := head?_render_ne pieces
        rw [hrender, List.head?_cons] at hd
        exact List.dropWhile_cons_of_neg (by simpa using hd)
    rw [List.nil_append, List.dropWhile_cons_of_pos (by simp), hdrop]
    simp
  | cons d ds =>
    have hd : isListChar d = true := l.isListChar_of_mem d (by simp [hchars])
    have hclose : d ≠ ']' := by
      rintro rfl
      exact absurd hd (by decide)
    have hcolon : d ≠ ':' := by
      rintro rfl
      exact absurd hd (by decide)
    rw [List.cons_append, List.dropWhile_cons_of_neg (by simpa using hclose), List.head?_cons]
    simp [hcolon]

/-- A list is matched as a whole, unless it is blocked. -/
theorem matchList_list (l : BracketList) (pieces : List Piece) :
    matchList (l.chars ++ ']' :: render pieces) =
      if Blocked l pieces then none else some (l.chars, render pieces) := by
  have hstop : ¬ isListChar ']' = true := by decide
  have htake : (l.chars ++ ']' :: render pieces).takeWhile isListChar = l.chars := by
    rw [List.takeWhile_append_of_pos l.isListChar_of_mem, List.takeWhile_cons_of_neg hstop,
      List.append_nil]
  have hdrop : (l.chars ++ ']' :: render pieces).dropWhile isListChar = ']' :: render pieces := by
    rw [List.dropWhile_append_of_pos l.isListChar_of_mem, List.dropWhile_cons_of_neg hstop]
  rw [matchList]
  simp only [lookahead_list, htake, hdrop]
  split_ifs
  · rfl
  · obtain ⟨c, cs, hchars⟩ := List.exists_cons_of_ne_nil l.chars_ne_nil
    rw [hchars]
    rfl

/-- Text before the first opening bracket. -/
theorem regexSearch_append {cs : List Char} (hcs : '[' ∉ cs) (rest : List Char) :
    regexSearch (cs ++ rest) = (regexSearch rest).map fun found => (cs ++ found.1, found.2) := by
  induction cs with
  | nil => simp
  | cons c cs ih =>
    rw [List.mem_cons, not_or] at hcs
    rw [List.cons_append, regexSearch, if_neg (Ne.symm hcs.1)]
    simp only [ih hcs.2, Option.map_map]
    rfl

/-- The first list that is not blocked, and the pieces before and after it. -/
def firstList : List Piece → Option (List Piece × BracketList × List Piece)
  | [] => none
  | .text plain :: pieces =>
    (firstList pieces).map fun found => (.text plain :: found.1, found.2)
  | .list l :: pieces =>
    if Blocked l pieces then (firstList pieces).map fun found => (.list l :: found.1, found.2)
    else some ([], l, pieces)

/-- **The regular expression finds the first list that is not blocked.** -/
theorem regexSearch_render (pieces : List Piece) :
    regexSearch (render pieces) = (firstList pieces).map fun found =>
      (render found.1, found.2.1.chars, render found.2.2) := by
  induction pieces with
  | nil => rfl
  | cons piece pieces ih =>
    cases piece with
    | text plain =>
      rw [render, regexSearch_append plain.noOpen, ih, firstList, Option.map_map, Option.map_map]
      rfl
    | list l =>
      have hopen : '[' ∉ l.chars ++ [']'] := by
        intro hmem
        rcases List.mem_append.mp hmem with hmem | hmem
        · exact absurd (l.isListChar_of_mem _ hmem) (by decide)
        · simp at hmem
      rw [render, List.cons_append, regexSearch, if_pos rfl, matchList_list, firstList]
      split_ifs with hblocked
      · have hassoc : l.chars ++ ']' :: render pieces = (l.chars ++ [']']) ++ render pieces := by
          simp
        simp only [hassoc]
        rw [regexSearch_append hopen, ih, Option.map_map, Option.map_map, Option.map_map]
        refine congrFun (congrArg Option.map (funext fun found => ?_)) _
        simp [render]
      · simp [render]

theorem of_firstList_eq_some {pieces pre post : List Piece} {l : BracketList}
    (h : firstList pieces = some (pre, l, post)) :
    pieces = pre ++ .list l :: post ∧ ¬ Blocked l post := by
  induction pieces generalizing pre with
  | nil => cases h
  | cons piece pieces ih =>
    cases piece with
    | text plain =>
      obtain ⟨⟨pre', l', post'⟩, hfound, heq⟩ := Option.map_eq_some_iff.mp h
      cases heq
      obtain ⟨rfl, hblocked⟩ := ih hfound
      exact ⟨rfl, hblocked⟩
    | list l' =>
      rw [firstList] at h
      split_ifs at h with hblocked
      · obtain ⟨⟨pre', l'', post'⟩, hfound, heq⟩ := Option.map_eq_some_iff.mp h
        cases heq
        obtain ⟨rfl, hnot⟩ := ih hfound
        exact ⟨rfl, hnot⟩
      · cases h
        exact ⟨rfl, hblocked⟩

/-! ## One step -/

/-- The pieces with a number instead of a list. -/
def child (pre post : List Piece) (n : Digits) : List Piece := pre ++ .text n.plain :: post

theorem render_child (pre post : List Piece) (n : Digits) :
    render (child pre post n) = render pre ++ n.chars ++ render post := by
  rw [child, render_append, List.append_assoc]
  rfl

theorem expandSquareBracketsStr_of_none {pieces : List Piece} (h : firstList pieces = none)
    (fuel : ℕ) : expandSquareBracketsStr fuel (render pieces) = some (.ok []) := by
  rw [expandSquareBracketsStr, regexSearch_render, h]
  rfl

theorem expandSquareBracketsStr_of_some {pieces pre post : List Piece} {l : BracketList}
    (h : firstList pieces = some (pre, l, post)) (fuel : ℕ) :
    expandSquareBracketsStr fuel (render pieces) =
      expandElems fuel (render pieces) (render pre) (render post)
        (l.elements.map Element.chars) := by
  have hne : l.elements.map Element.chars ≠ [] := by simpa using l.ne_nil
  rw [expandSquareBracketsStr, regexSearch_render, h]
  simp only [Option.map_some, l.elements_of_chars, if_neg hne]

/-- **A text is expanded to the texts with the numbers of its first list.** -/
theorem expandSquareBracketsStr_of_fueled {pieces pre post : List Piece} {l : BracketList}
    (h : firstList pieces = some (pre, l, post)) (hends : l.Ends) {fuel : ℕ}
    (hfuel : l.Fueled fuel) :
    expandSquareBracketsStr fuel (render pieces) =
      some (.ok ((l.ascending.map (child pre post)).map render)) := by
  rw [expandSquareBracketsStr_of_some h,
    expandElems_of_rounds_lt fun e he => ⟨hends e he, hfuel e he⟩, l.flatMap_texts, List.map_map]
  simp only [Function.comp_def, render_child]

/-- There is no other result. -/
theorem of_expandSquareBracketsStr_eq_some {pieces : List Piece} {fuel : ℕ}
    {r : Except String (List (List Char))}
    (h : expandSquareBracketsStr fuel (render pieces) = some r) :
    (firstList pieces = none ∧ r = .ok []) ∨
      ∃ pre l post, firstList pieces = some (pre, l, post) ∧ l.Ends ∧
        r = .ok ((l.ascending.map (child pre post)).map render) := by
  cases hfirst : firstList pieces with
  | none =>
    rw [expandSquareBracketsStr_of_none hfirst] at h
    exact Or.inl ⟨rfl, (Option.some.inj h).symm⟩
  | some found =>
    obtain ⟨pre, l, post⟩ := found
    rw [expandSquareBracketsStr_of_some hfirst] at h
    obtain ⟨hends, hr⟩ := of_expandElems_eq_some h
    refine Or.inr ⟨pre, l, post, rfl, hends, ?_⟩
    rw [hr, l.flatMap_texts, List.map_map]
    simp only [Function.comp_def, render_child]

end TranslatorTk
end Elbencho
