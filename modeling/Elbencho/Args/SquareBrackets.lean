import Elbencho.Args.BlockSizeText
import Elbencho.Library.InPlace

/-!
# Numbers in square brackets

Host names and paths can contain lists of numbers and ranges in square brackets, such as
`host[1-3,07-12]:1611`.  `expandSquareBracketsStr` finds the first such list with a regular
expression and returns the texts with each number in its place; `expandSquareBrackets` goes
through a vector of texts and replaces each one by what it is expanded to, until no text has a
list.

The regular expression has a lookahead that is meant for IPv6 addresses.  In it, `[^]` is a
class of its own, for any character, as the standard library reads it, and the closing bracket
after it is a character of the text (`lookahead`).

The numbers of a range are counted with an `int`, and the vector is indexed with an `unsigned`
(`InPlace.run`).
-/

namespace Elbencho
namespace TranslatorTk

open UnitTk

/-! ## The regular expression -/

/-- The characters `[0-9,\-]` of a list. -/
def isListChar (c : Char) : Bool := c.isDigit || c = ',' || c = '-'

/-- The lookahead `[^]]*:` after an opening bracket: any character, closing brackets, a colon. -/
def lookahead : List Char → Bool
  | [] => false
  | _ :: cs => (cs.dropWhile (· = ']')).head? = some ':'

/-- What follows an opening bracket: the list, and the text after the closing bracket. -/
def matchList (cs : List Char) : Option (List Char × List Char) :=
  if lookahead cs then none
  else
    match cs.takeWhile isListChar, cs.dropWhile isListChar with
    | c :: contents, ']' :: post => some (c :: contents, post)
    | _, _ => none

/-- `regex_search`: the text before the first list, the list, and the text after it. -/
def regexSearch : List Char → Option (List Char × List Char × List Char)
  | [] => none
  | c :: cs =>
    match if c = '[' then matchList cs else none with
    | some (contents, post) => some ([], contents, post)
    | none => (regexSearch cs).map fun found => (c :: found.1, found.2)

/-! ## One list -/

/-- `std::stoi`, which throws if there is no number or if it is not an `int`. -/
def stoi (cs : List Char) : Option ℤ :=
  let (neg, ds) := signAndDigits cs
  let n := Nat.ofDigitChars 10 ds 0
  if ds = [] then none
  else if neg then if n ≤ 2 ^ 31 then some (-n) else none
  else if n < 2 ^ 31 then some n else none

/-- The number of a text whose leading zeros were removed. -/
def rangeNumber (cs : List Char) : Option ℤ := if cs = [] then some 0 else stoi cs

/-- `std::to_string` -/
def intText : ℤ → List Char
  | .ofNat n => Nat.toDigits 10 n
  | .negSucc n => '-' :: Nat.toDigits 10 (n + 1)

/-- `i++` for an `int`, whose greatest value is followed by the least one. -/
def intSucc (i : ℤ) : ℤ := if i = 2 ^ 31 - 1 then -2 ^ 31 else i + 1

/-- The loop over the numbers of a range, with fuel. -/
def rangeLoop (rangeEnd : ℤ) : ℕ → ℤ → Option (List ℤ)
  | 0, _ => none
  | fuel + 1, i =>
    if i ≤ rangeEnd then (rangeLoop rangeEnd fuel (intSucc i)).map (i :: ·) else some []

/-- A number with leading zeros. -/
def filledNum (zeroFillLen : ℕ) (numStr : List Char) : List Char :=
  List.replicate (zeroFillLen - min zeroFillLen numStr.length) '0' ++ numStr

/-- The texts for one element of a list; `pre` and `post` are before and after the brackets. -/
def expandElem (fuel : ℕ) (inputStr pre post currentElem : List Char) :
    Option (Except String (List (List Char))) :=
  if '-' ∉ currentElem then some (.ok [pre ++ currentElem ++ post])
  else
    match splitCompress '-' currentElem with
    | [rangeStartStr, rangeEndStr] =>
      let zeroFillLen := rangeStartStr.length
      let rangeStartStr := rangeStartStr.dropWhile (· = '0')
      let rangeEndStr := rangeEndStr.dropWhile (· = '0')
      match rangeNumber rangeStartStr, rangeNumber rangeEndStr with
      | some currentRangeStart, some currentRangeEnd =>
        (rangeLoop currentRangeEnd fuel currentRangeStart).map fun numbers =>
          .ok (numbers.map fun i => pre ++ filledNum zeroFillLen (intText i) ++ post)
      | _, _ =>
        some (.error ("Number parsing for square brackets expansion failed: " ++
          "String: '" ++ String.ofList inputStr ++ "'; " ++
          "RangeStart: '" ++ String.ofList rangeStartStr ++ "'; " ++
          "RangeEnd: '" ++ String.ofList rangeEndStr ++ "'; " ++
          "System exception type (if available): 'St12out_of_range'; " ++
          "System exception message (if available): stoi"))
    | _ =>
      some (.error ("Found invalid range definition in square brackets: " ++
        "Element: '" ++ String.ofList currentElem ++ "'; " ++
        "String: '" ++ String.ofList inputStr ++ "'"))

/-- The loop over the elements. -/
def expandElems (fuel : ℕ) (inputStr pre post : List Char) :
    List (List Char) → Option (Except String (List (List Char)))
  | [] => some (.ok [])
  | currentElem :: elems =>
    match expandElem fuel inputStr pre post currentElem with
    | some (.ok strs) => (expandElems fuel inputStr pre post elems).map (·.map (strs ++ ·))
    | failed => failed

def expandSquareBracketsStr (fuel : ℕ) (inputStr : List Char) :
    Option (Except String (List (List Char))) :=
  match regexSearch inputStr with
  | none => some (.ok [])
  | some (pre, bracketContentsStr, post) =>
    let elementsVec := (splitCompress ',' bracketContentsStr).filter (· ≠ [])
    if elementsVec = [] then
      some (.error ("No valid content between square brackets: \"" ++ String.ofList inputStr ++
        "\""))
    else expandElems fuel inputStr pre post elementsVec

/-- The number of values of an `unsigned`. -/
def unsignedSize : ℕ := 2 ^ 32

/-- There is fuel for the loops over ranges and for the loop over the vector.  The result is the
flag `didExpand` and the vector. -/
def expandSquareBrackets (rangeFuel fuel : ℕ) (inoutStrVec : List (List Char)) :
    Option (Except String (Bool × List (List Char))) :=
  InPlace.run (expandSquareBracketsStr rangeFuel) unsignedSize fuel false 0 inoutStrVec

/-! ## Texts with lists -/

/-- A number as it is written. -/
structure Digits where
  chars : List Char
  ne_nil : chars ≠ []
  isDigit : ∀ c ∈ chars, c.isDigit = true

def Digits.value (digits : Digits) : ℕ := Nat.ofDigitChars 10 digits.chars 0

/-- An element of a list: a number, or a range of numbers that an `int` can have. -/
inductive Element where
  | number (digits : Digits)
  | range (first last : Digits) (hfirst : first.value < 2 ^ 31) (hlast : last.value < 2 ^ 31)

/-- A list in square brackets. -/
structure BracketList where
  elements : List Element
  ne_nil : elements ≠ []

/-- Text without brackets. -/
structure PlainText where
  chars : List Char
  noOpen : '[' ∉ chars
  noClose : ']' ∉ chars

/-- Texts and lists, one after the other. -/
inductive Piece where
  | text (plain : PlainText)
  | list (numbers : BracketList)

namespace Element

def chars : Element → List Char
  | .number digits => digits.chars
  | .range first last _ _ => first.chars ++ '-' :: last.chars

/-- The numbers of a range are written with as many digits as the first one at least.  If the
first one is greater than the last one, they are in descending order. -/
def numbers : Element → List (List Char)
  | .number digits => [digits.chars]
  | .range first last _ _ =>
    (if first.value ≤ last.value then List.range' first.value (last.value + 1 - first.value)
      else (List.range' last.value (first.value + 1 - last.value)).reverse).map
      fun n => (Nat.toDigits 10 n).leftpad first.chars.length '0'

/-- The first number of a range is greater than the last one. -/
def Descending : Element → Prop
  | .number _ => False
  | .range first last _ _ => last.value < first.value

/-- A range ends with the greatest `int`. -/
def Endless : Element → Prop
  | .number _ => False
  | .range _ last _ _ => last.value = 2 ^ 31 - 1

end Element

namespace BracketList

def chars (l : BracketList) : List Char := [','].intercalate (l.elements.map Element.chars)

def numbers (l : BracketList) : List (List Char) := l.elements.flatMap Element.numbers

end BracketList

def render : List Piece → List Char
  | [] => []
  | .text plain :: pieces => plain.chars ++ render pieces
  | .list l :: pieces => '[' :: l.chars ++ ']' :: render pieces

/-- The cartesian product of all lists, in lexicographic order. -/
def product : List Piece → List (List Char)
  | [] => [[]]
  | .text plain :: pieces => (product pieces).map (plain.chars ++ ·)
  | .list l :: pieces => l.numbers.flatMap fun n => (product pieces).map (n ++ ·)

/-- A list of a single character is followed by a colon. -/
def Blocked (l : BracketList) (pieces : List Piece) : Prop :=
  l.chars.length = 1 ∧ (render pieces).head? = some ':'

end TranslatorTk
end Elbencho
