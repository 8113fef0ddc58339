import Mathlib.Data.List.Nodup
import Mathlib.Data.List.TakeWhile
import Elbencho.Library.Checks
import Elbencho.Library.PropertyTree
import Elbencho.OffsetGen.Generators

/-!
# Block sizes as texts

A size can be given with a unit (`numHumanToBytesBinary`), and a block size mix is a list of
sizes with weights, such as `4k:3,64k:1` (`BlockSizeMix.parse`).  `BlockSizeMix.toString` writes a
mix in a canonical form that a service parses again.

**`BlockSizeMix.parse_toString_iff`** says for which mixes the canonical form is read back: for
those whose sizes are below `2 ^ 63`.  The number of a size is read with `atoll`, which has a sign
and stops at its greatest value, so a greater size, like the one of `8E`, arrives as
`2 ^ 63 - 1`.
-/

namespace Elbencho

/-! ## Numbers in texts -/

namespace UnitTk

/-- `isspace` -/
def isSpace (c : Char) : Bool := c = ' ' ∨ (9 ≤ c.toNat ∧ c.toNat ≤ 13)

/-- How the C library reads a number: spaces are skipped, there may be a sign, and what follows
the digits is ignored. -/
def signAndDigits (cs : List Char) : Bool × List Char :=
  match cs.dropWhile isSpace with
  | '-' :: cs => (true, cs.takeWhile Char.isDigit)
  | '+' :: cs => (false, cs.takeWhile Char.isDigit)
  | cs => (false, cs.takeWhile Char.isDigit)

/-- `atoll`, which stops at the ends of its type. -/
def atoll (cs : List Char) : ℤ :=
  let (neg, ds) := signAndDigits cs
  let n := Nat.ofDigitChars 10 ds 0
  if neg then -(min n (2 ^ 63) : ℕ) else (min n (2 ^ 63 - 1) : ℕ)

/-- `stoull`, which throws if there are no digits or if the number is too large.  A sign is
accepted, and the number is negated in 64 bits. -/
def stoull (cs : List Char) : Option UInt64 :=
  let (neg, ds) := signAndDigits cs
  let n := Nat.ofDigitChars 10 ds 0
  if ds = [] ∨ UInt64.size ≤ n then none
  else some (if neg then -UInt64.ofNat n else UInt64.ofNat n)

/-- The power of two of a unit. -/
def unitShift? : Char → Option UInt64
  | 'K' => some 10
  | 'M' => some 20
  | 'G' => some 30
  | 'T' => some 40
  | 'P' => some 50
  | 'E' => some 60
  | _ => none

def numHumanToBytesBinary (numHuman : List Char) (throwOnEmpty : Bool) : Except String UInt64 :=
  match numHuman.getLast? with
  | none => if throwOnEmpty then .error "Unable to parse empty string" else .ok 0
  | some lastChar =>
    if '.' ∈ numHuman then
      .error ("Unable to parse number string containing '.' character: " ++
        String.ofList numHuman)
    else if ',' ∈ numHuman then
      .error ("Unable to parse number string containing ',' character: " ++
        String.ofList numHuman)
    else if '-' ∈ numHuman then
      .error ("Unable to parse value: " ++ String.ofList numHuman ++ ". " ++
        "A positive number is required (e.g. \"4k\"). " ++
        "Negative and range values are not supported.")
    else
      let bytesRes := UInt64.ofInt (atoll numHuman)
      if lastChar.isDigit then .ok bytesRes
      else
        match unitShift? lastChar.toUpper with
        | some shift => .ok (bytesRes * (1 <<< shift))
        | none =>
          .error ("Unable to parse string for unit conversion: " ++ String.ofList numHuman)

/-! ### Numbers that were written as plain digits -/

theorem isDigit_of_mem {n : ℕ} {c : Char} (hc : c ∈ Nat.toDigits 10 n) : c.isDigit = true :=
  Nat.isDigit_of_mem_toDigits (by decide) (by decide) hc

/-- A character that is not a digit is not in a number. -/
theorem notMem_toDigits {c : Char} (n : ℕ) (hc : c.isDigit = false) : c ∉ Nat.toDigits 10 n :=
  fun hmem => Bool.false_ne_true (hc.symm.trans (isDigit_of_mem hmem))

theorem isSpace_of_isDigit {c : Char} (hc : c.isDigit = true) : isSpace c = false := by
  simp only [Char.isDigit, Bool.and_eq_true, decide_eq_true_eq] at hc
  change 48 ≤ c.toNat ∧ c.toNat ≤ 57 at hc
  have hspace : c ≠ ' ' := by
    rintro rfl
    exact absurd hc (by decide)
  simp only [isSpace, hspace, false_or, decide_eq_false_iff_not]
  omega

/-- Digits at the beginning are found, up to the first character that is not a digit. -/
theorem signAndDigits_append {ds : List Char} (hne : ds ≠ [])
    (hds : ∀ c ∈ ds, c.isDigit = true) {rest : List Char}
    (hrest : ∀ c ∈ rest.head?, c.isDigit = false) : signAndDigits (ds ++ rest) = (false, ds) := by
  have hstop : rest.takeWhile Char.isDigit = [] := by
    cases rest with
    | nil => rfl
    | cons c rest => exact List.takeWhile_cons_of_neg (by simp [hrest c rfl])
  have htake : (ds ++ rest).takeWhile Char.isDigit = ds := by
    rw [List.takeWhile_append_of_pos hds, hstop, List.append_nil]
  obtain ⟨c, cs, rfl⟩ := List.exists_cons_of_ne_nil hne
  have hc : c.isDigit = true := hds c List.mem_cons_self
  have hdrop : (c :: cs ++ rest).dropWhile isSpace = c :: cs ++ rest := by
    rw [List.cons_append, List.dropWhile_cons_of_neg (by simp [isSpace_of_isDigit hc])]
  unfold signAndDigits
  rw [hdrop]
  split
  · rename_i hminus
    rw [(List.cons.inj hminus).1] at hc
    exact absurd hc (by decide)
  · rename_i hplus
    rw [(List.cons.inj hplus).1] at hc
    exact absurd hc (by decide)
  · rw [htake]

/-- Spaces before a number are skipped. -/
theorem signAndDigits_space (cs : List Char) : signAndDigits (' ' :: cs) = signAndDigits cs := by
  unfold signAndDigits
  rw [List.dropWhile_cons_of_pos (by rfl)]

theorem signAndDigits_toDigits (n : ℕ) :
    signAndDigits (Nat.toDigits 10 n) = (false, Nat.toDigits 10 n) := by
  have hnone : ∀ c ∈ ([] : List Char).head?, c.isDigit = false := by simp
  have hdigits := signAndDigits_append (Nat.toDigits_ne_nil (n := n) (b := 10))
    (fun c hc => isDigit_of_mem hc) hnone
  rwa [List.append_nil] at hdigits

/-- `atoll` reads a number up to its greatest value. -/
theorem atoll_toDigits (n : ℕ) : atoll (Nat.toDigits 10 n) = (min n (2 ^ 63 - 1) : ℕ) := by
  rw [atoll, signAndDigits_toDigits]
  simp only [Nat.ofDigitChars_ten_toDigits, if_neg Bool.false_ne_true]

/-- `stoull` reads every word. -/
theorem stoull_toDigits {n : ℕ} (hn : n < UInt64.size) :
    stoull (Nat.toDigits 10 n) = some (UInt64.ofNat n) := by
  rw [stoull, signAndDigits_toDigits]
  have hnot : ¬ (Nat.toDigits 10 n = [] ∨ UInt64.size ≤ n) :=
    not_or.mpr ⟨Nat.toDigits_ne_nil, Nat.not_le.mpr hn⟩
  simp only [Nat.ofDigitChars_ten_toDigits, if_neg hnot, if_neg Bool.false_ne_true]

theorem ofInt_natCast (n : ℕ) : UInt64.ofInt n = UInt64.ofNat n := by
  have hmod : ((n : ℤ) % 2 ^ 64).toNat = n % 2 ^ 64 := by omega
  rw [UInt64.ofInt, hmod]
  exact UInt64.ofNat_mod_size

/-- A number without a unit is read up to the greatest value of `atoll`. -/
theorem numHumanToBytesBinary_toDigits (n : ℕ) (throwOnEmpty : Bool) :
    numHumanToBytesBinary (Nat.toDigits 10 n) throwOnEmpty =
      .ok (UInt64.ofNat (min n (2 ^ 63 - 1))) := by
  have hne : Nat.toDigits 10 n ≠ [] := Nat.toDigits_ne_nil
  have hlast : ((Nat.toDigits 10 n).getLast hne).isDigit = true :=
    isDigit_of_mem (List.getLast_mem hne)
  rw [numHumanToBytesBinary, List.getLast?_eq_getLast_of_ne_nil hne]
  simp only [notMem_toDigits n (c := '.') (by decide), notMem_toDigits n (c := ',') (by decide),
    notMem_toDigits n (c := '-') (by decide), if_false, hlast, if_true, atoll_toDigits,
    ofInt_natCast]

end UnitTk

/-! ## Block size mixes -/

/-- The pieces of `boost::split` after the first one, with adjacent delimiters merged: a piece is
dropped if it is empty and not the last one. -/
def dropInner : List (List Char) → List (List Char)
  | [] => []
  | [piece] => [piece]
  | piece :: pieces => if piece = [] then dropInner pieces else piece :: dropInner pieces

/-- `boost::split` with `token_compress_on`. -/
def splitCompress (delim : Char) (cs : List Char) : List (List Char) :=
  match cs.splitOn delim with
  | [] => []
  | piece :: pieces => piece :: dropInner pieces

/-- The entries of a mix that have been read. -/
structure MixEntries where
  sizesAndWeights : List (ℕ × ℕ)
  nodup : (sizesAndWeights.map Prod.fst).Nodup
  size_pos : ∀ e ∈ sizesAndWeights, 0 < e.1
  size_lt : ∀ e ∈ sizesAndWeights, e.1 < Word64.size
  weight_pos : ∀ e ∈ sizesAndWeights, 0 < e.2
  weight_lt : ∀ e ∈ sizesAndWeights, e.2 < Word64.size

namespace MixEntries

def empty : MixEntries := ⟨[], by simp, by simp, by simp, by simp, by simp⟩

/-- One entry more. -/
def push (mix : MixEntries) (size weight : UInt64) (hsize : size ≠ 0) (hweight : weight ≠ 0)
    (hnew : size.toNat ∉ mix.sizesAndWeights.map Prod.fst) : MixEntries where
  sizesAndWeights := mix.sizesAndWeights ++ [(size.toNat, weight.toNat)]
  nodup := by
    rw [List.map_append, List.map_singleton, ← List.concat_eq_append]
    exact mix.nodup.concat hnew
  size_pos := List.forall_mem_append.mpr ⟨mix.size_pos, List.forall_mem_singleton.mpr
    (Nat.pos_of_ne_zero fun h => hsize (UInt64.toNat_inj.mp h))⟩
  size_lt := List.forall_mem_append.mpr ⟨mix.size_lt, List.forall_mem_singleton.mpr
    size.toNat_lt_size⟩
  weight_pos := List.forall_mem_append.mpr ⟨mix.weight_pos, List.forall_mem_singleton.mpr
    (Nat.pos_of_ne_zero fun h => hweight (UInt64.toNat_inj.mp h))⟩
  weight_lt := List.forall_mem_append.mpr ⟨mix.weight_lt, List.forall_mem_singleton.mpr
    weight.toNat_lt_size⟩

end MixEntries

namespace BlockSizeMix

/-- The size and the weight of an entry, which is 1 if it is not given. -/
def sizeAndWeight (entryStr : List Char) : Except String (UInt64 × UInt64) :=
  match splitCompress ':' entryStr with
  | [sizeStr] => do
    let size ← UnitTk.numHumanToBytesBinary sizeStr true
    .ok (size, 1)
  | [sizeStr, weightStr] => do
    let size ← UnitTk.numHumanToBytesBinary sizeStr true
    match UnitTk.stoull weightStr with
    | some weight => .ok (size, weight)
    | none =>
      .error ("Invalid weight in block size mix entry: \"" ++ String.ofList entryStr ++ "\". " ++
        "Weight must be a positive integer.")
  | _ =>
    .error ("Invalid block size mix entry: \"" ++ String.ofList entryStr ++ "\". " ++
      "Expected format: size[:weight]")

/-- One round of the loop over the entries. -/
def addEntry (blockSizeStr : String) (mix : MixEntries) (entryStr : List Char) :
    Except String MixEntries :=
  if entryStr = [] then .ok mix
  else do
    let (size, weight) ← sizeAndWeight entryStr
    if hsize : size = 0 then
      .error ("Invalid block size mix entry: \"" ++ String.ofList entryStr ++ "\". " ++
        "Block size must not be 0.")
    else if hweight : weight = 0 then
      .error ("Invalid block size mix entry: \"" ++ String.ofList entryStr ++ "\". " ++
        "Weight must not be 0.")
    else if hdup : size.toNat ∈ mix.sizesAndWeights.map Prod.fst then
      .error ("Invalid block size mix: duplicate block size in \"" ++ blockSizeStr ++ "\": " ++
        String.ofList ((splitCompress ':' entryStr).headD []))
    else .ok (mix.push size weight hsize hweight hdup)

def parse (blockSizeStr : String) : Except String BlockSizeMix := do
  let mix ← (splitCompress ',' blockSizeStr.toList).foldlM (addEntry blockSizeStr) .empty
  if hne : mix.sizesAndWeights = [] then
    .error ("Block size mix is empty after parsing: \"" ++ blockSizeStr ++ "\"")
  else
    .ok ⟨mix.sizesAndWeights, hne, mix.nodup, mix.size_pos, mix.size_lt, mix.weight_pos,
      mix.weight_lt⟩

/-- An entry in canonical form. -/
def entryText (e : ℕ × ℕ) : List Char := Nat.toDigits 10 e.1 ++ ':' :: Nat.toDigits 10 e.2

def toString (mix : BlockSizeMix) : String :=
  String.ofList ([','].intercalate (mix.sizesAndWeights.map entryText))

/-! ## Reading the canonical form -/

end BlockSizeMix

/-- Pieces that are not empty are kept. -/
theorem dropInner_of_ne_nil {pieces : List (List Char)} (hne : ∀ piece ∈ pieces, piece ≠ []) :
    dropInner pieces = pieces := by
  induction pieces with
  | nil => rfl
  | cons piece pieces ih =>
    rw [List.forall_mem_cons] at hne
    cases pieces with
    | nil => rfl
    | cons next pieces =>
      change (if piece = [] then _ else piece :: dropInner (next :: pieces)) = _
      rw [if_neg hne.1, ih hne.2]

/-- Pieces without delimiters are found again. -/
theorem splitCompress_intercalate {delim : Char} {pieces : List (List Char)}
    (hpieces : pieces ≠ []) (hdelim : ∀ piece ∈ pieces, delim ∉ piece)
    (hne : ∀ piece ∈ pieces, piece ≠ []) :
    splitCompress delim ([delim].intercalate pieces) = pieces := by
  rw [splitCompress, List.splitOn_intercalate delim hdelim hpieces]
  cases pieces with
  | nil => exact absurd rfl hpieces
  | cons piece pieces =>
    exact congrArg (piece :: ·) (dropInner_of_ne_nil (List.forall_mem_cons.mp hne).2)

namespace BlockSizeMix

/-- What becomes of a size. -/
def readSize (size : ℕ) : ℕ := min size (2 ^ 63 - 1)

theorem readSize_pos {size : ℕ} (hpos : 0 < size) : 0 < readSize size := by
  unfold readSize
  omega

theorem readSize_eq_self {size : ℕ} : readSize size = size ↔ size < 2 ^ 63 := by
  unfold readSize
  omega

theorem readSize_lt (size : ℕ) : readSize size < UInt64.size := by
  have hsize : UInt64.size = 2 ^ 64 := rfl
  unfold readSize
  omega

theorem sizeAndWeight_entryText {e : ℕ × ℕ} (hweight : e.2 < UInt64.size) :
    sizeAndWeight (entryText e) = .ok (UInt64.ofNat (readSize e.1), UInt64.ofNat e.2) := by
  have htext : entryText e =
      [':'].intercalate [Nat.toDigits 10 e.1, Nat.toDigits 10 e.2] := by
    simp [entryText, List.intercalate]
  have hsplit : splitCompress ':' (entryText e) = [Nat.toDigits 10 e.1, Nat.toDigits 10 e.2] := by
    rw [htext]
    refine splitCompress_intercalate (List.cons_ne_nil _ _) ?_ ?_
    · simp [UnitTk.notMem_toDigits]
    · simp
  rw [sizeAndWeight, hsplit]
  simp only [UnitTk.numHumanToBytesBinary_toDigits, UnitTk.stoull_toDigits hweight]
  rfl

/-- Entries in canonical form are not empty and have no comma. -/
theorem entryText_ne_nil (e : ℕ × ℕ) : entryText e ≠ [] := by
  simp [entryText]

theorem comma_notMem_entryText (e : ℕ × ℕ) : ',' ∉ entryText e := by
  simp [entryText, UnitTk.notMem_toDigits]

/-- An entry in canonical form is added, unless its size is read as one that was there before. -/
theorem addEntry_entryText {e : ℕ × ℕ} (hsize : 0 < e.1) (hweight : 0 < e.2)
    (hlt : e.2 < UInt64.size) (blockSizeStr : String) (mix : MixEntries) :
    (∃ mix', addEntry blockSizeStr mix (entryText e) = .ok mix' ∧
      mix'.sizesAndWeights = mix.sizesAndWeights ++ [(readSize e.1, e.2)]) ∨
    (∃ msg, addEntry blockSizeStr mix (entryText e) = .error msg) ∧
      readSize e.1 ∈ mix.sizesAndWeights.map Prod.fst := by
  have htoNat : (UInt64.ofNat (readSize e.1)).toNat = readSize e.1 :=
    UInt64.toNat_ofNat_of_lt' (readSize_lt e.1)
  have htoNatWeight : (UInt64.ofNat e.2).toNat = e.2 := UInt64.toNat_ofNat_of_lt' hlt
  have hsizeNe : UInt64.ofNat (readSize e.1) ≠ 0 := by
    intro hzero
    rw [hzero] at htoNat
    exact (readSize_pos hsize).ne htoNat
  have hweightNe : UInt64.ofNat e.2 ≠ 0 := by
    intro hzero
    rw [hzero] at htoNatWeight
    exact hweight.ne htoNatWeight
  rw [addEntry, if_neg (entryText_ne_nil e), sizeAndWeight_entryText hlt]
  change (∃ mix', (if h : UInt64.ofNat (readSize e.1) = 0 then _ else _) = _ ∧ _) ∨
    (∃ msg, (if h : UInt64.ofNat (readSize e.1) = 0 then _ else _) = _) ∧ _
  rw [dif_neg hsizeNe, dif_neg hweightNe]
  split_ifs with hdup
  · rw [htoNat] at hdup
    exact .inr ⟨⟨_, rfl⟩, hdup⟩
  · refine .inl ⟨_, rfl, ?_⟩
    change mix.sizesAndWeights ++ [(_, _)] = _
    rw [htoNat, htoNatWeight]

/-- What the loop over the entries leaves, if it goes through. -/
theorem sizesAndWeights_of_foldlM {blockSizeStr : String} {es : List (ℕ × ℕ)}
    (hes : ∀ e ∈ es, 0 < e.1 ∧ 0 < e.2 ∧ e.2 < UInt64.size) {mix mix' : MixEntries}
    (h : (es.map entryText).foldlM (addEntry blockSizeStr) mix = .ok mix') :
    mix'.sizesAndWeights = mix.sizesAndWeights ++ es.map fun e => (readSize e.1, e.2) := by
  induction es generalizing mix with
  | nil =>
    cases h
    rw [List.map_nil, List.append_nil]
  | cons e es ih =>
    rw [List.forall_mem_cons] at hes
    rw [List.map_cons, List.foldlM_cons, Checks.bind_eq_ok] at h
    obtain ⟨next, hnext, hrest⟩ := h
    obtain ⟨added, hadded, hsizes⟩ | ⟨⟨msg, hmsg⟩, -⟩ :=
      addEntry_entryText hes.1.1 hes.1.2.1 hes.1.2.2 blockSizeStr mix
    · cases hadded.symm.trans hnext
      rw [ih hes.2 hrest, hsizes, List.append_assoc]
      rfl
    · cases hmsg.symm.trans hnext

/-- The loop goes through if no size is there twice and none is too large. -/
theorem exists_foldlM (blockSizeStr : String) {es : List (ℕ × ℕ)}
    (hes : ∀ e ∈ es, 0 < e.1 ∧ 0 < e.2 ∧ e.2 < UInt64.size) (mix : MixEntries)
    (hlt : ∀ e ∈ es, e.1 < 2 ^ 63) (hnodup : ((mix.sizesAndWeights ++ es).map Prod.fst).Nodup) :
    ∃ mix', (es.map entryText).foldlM (addEntry blockSizeStr) mix = .ok mix' := by
  induction es generalizing mix with
  | nil => exact ⟨mix, rfl⟩
  | cons e es ih =>
    rw [List.forall_mem_cons] at hes hlt
    have hread : readSize e.1 = e.1 := readSize_eq_self.mpr hlt.1
    obtain ⟨added, hadded, hsizes⟩ | ⟨-, hdup⟩ :=
      addEntry_entryText hes.1.1 hes.1.2.1 hes.1.2.2 blockSizeStr mix
    · have hsizes' : added.sizesAndWeights ++ es = mix.sizesAndWeights ++ e :: es := by
        rw [hsizes, hread, List.append_assoc]
        rfl
      obtain ⟨mix', hmix'⟩ := ih hes.2 added hlt.2 (hsizes' ▸ hnodup)
      refine ⟨mix', ?_⟩
      rw [List.map_cons, List.foldlM_cons, hadded]
      exact hmix'
    · rw [hread] at hdup
      rw [List.map_append, List.map_cons] at hnodup
      exact absurd hdup fun hmem => (List.nodup_append.mp hnodup).2.2 e.1 hmem e.1
        List.mem_cons_self rfl

theorem splitCompress_toString (mix : BlockSizeMix) :
    splitCompress ',' mix.toString.toList = mix.sizesAndWeights.map entryText := by
  rw [toString, String.toList_ofList]
  refine splitCompress_intercalate (by simpa using mix.ne_nil) ?_ ?_
  · simp only [List.forall_mem_map]
    exact fun e _ => comma_notMem_entryText e
  · simp only [List.forall_mem_map]
    exact fun e _ => entryText_ne_nil e

/-- A mix is given by its sizes and weights. -/
theorem eq_of_sizesAndWeights {mix mix' : BlockSizeMix}
    (h : mix.sizesAndWeights = mix'.sizesAndWeights) : mix = mix' := by
  cases mix
  cases mix'
  cases h
  rfl

/-- **What the canonical form of a mix is read as.** -/
theorem sizesAndWeights_of_parse_toString {mix mix' : BlockSizeMix}
    (h : parse mix.toString = .ok mix') :
    mix'.sizesAndWeights = mix.sizesAndWeights.map fun e => (readSize e.1, e.2) := by
  rw [parse, splitCompress_toString, Checks.bind_eq_ok] at h
  obtain ⟨read, hread, hmix⟩ := h
  split_ifs at hmix
  rw [← Except.ok.inj hmix]
  exact sizesAndWeights_of_foldlM (fun e he =>
    ⟨mix.size_pos e he, mix.weight_pos e he, mix.weight_lt e he⟩) hread

/-- **The canonical form of a mix is read back if and only if all sizes are below `2 ^ 63`.** -/
theorem parse_toString_iff (mix : BlockSizeMix) :
    parse mix.toString = .ok mix ↔ ∀ e ∈ mix.sizesAndWeights, e.1 < 2 ^ 63 := by
  constructor
  · intro h e he
    have hmap := sizesAndWeights_of_parse_toString h
    have hsame : (readSize e.1, e.2) = e :=
      List.map_inj_left.mp (hmap.symm.trans (List.map_id _).symm) e he
    exact readSize_eq_self.mp (congrArg Prod.fst hsame)
  · intro hlt
    obtain ⟨read, hread⟩ := exists_foldlM mix.toString (fun e he =>
      ⟨mix.size_pos e he, mix.weight_pos e he, mix.weight_lt e he⟩) .empty hlt mix.nodup
    have hne : read.sizesAndWeights ≠ [] := by
      rw [sizesAndWeights_of_foldlM (fun e he =>
        ⟨mix.size_pos e he, mix.weight_pos e he, mix.weight_lt e he⟩) hread]
      simpa [MixEntries.empty] using mix.ne_nil
    have hparse : ∃ mix', parse mix.toString = .ok mix' := by
      rw [parse, splitCompress_toString, hread]
      exact ⟨_, dif_neg hne⟩
    obtain ⟨mix', hmix'⟩ := hparse
    rw [hmix']
    refine congrArg Except.ok (eq_of_sizesAndWeights ?_)
    rw [sizesAndWeights_of_parse_toString hmix']
    have hid : mix.sizesAndWeights.map (fun e => (readSize e.1, e.2)) =
        mix.sizesAndWeights.map id :=
      List.map_congr_left fun e he => Prod.ext (readSize_eq_self.mpr (hlt e he)) rfl
    rw [hid, List.map_id]

end BlockSizeMix

end Elbencho
