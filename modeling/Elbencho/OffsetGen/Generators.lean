import Mathlib.Data.List.Nodup
import Mathlib.Data.Stream.Init
import Mathlib.Order.MinMax
import Elbencho.Library.Word64

/-!
# Offset generators

A worker asks an offset generator for the offset and the size of its next I/O and
tells it how many bytes it submitted.  `OffsetGenerator` is that interface; the
loops of the workers are written against it.  The generators of file mode follow:
sequential, reverse sequential, random, random aligned and strided.  (The full
coverage generator has a module of its own.)  `LawfulOffsetGenerator` is what the
loops rely on: a draw does not change the number of bytes left, and while there are
bytes left the size of a draw is not 0.

All offsets, sizes and amounts are 64-bit words, and their arithmetic wraps.

Random numbers come from a `RandAlgo`, the stream of the words an algorithm is
going to return.  A generator draws from the one algorithm of its worker, for the
offsets and for the sizes of a block size mix.
-/

namespace Elbencho

/-! ## The interface -/

/-- The methods of an offset generator that the loops of the workers call.  A draw
may change the generator: a random one consumes a random number. -/
class OffsetGenerator (G : Type*) where
  getNextOffset : G → ℕ × G
  getNextBlockSizeToSubmit : G → ℕ × G
  getNumBytesTotal : G → ℕ
  getNumBytesLeftToSubmit : G → ℕ
  addBytesSubmitted : G → ℕ → G

namespace OffsetGenerator

variable {G : Type*} [OffsetGenerator G]

/-- Draw the next offset and then the next size. -/
def draw (g : G) : (ℕ × ℕ) × G :=
  let (rwOffsetGenNext, g) := getNextOffset g
  let (blockSize, g) := getNextBlockSizeToSubmit g
  ((rwOffsetGenNext, blockSize), g)

/-- The generator after the next draw was submitted in full. -/
def submitDraw (g : G) : G := addBytesSubmitted (draw g).2 (draw g).1.2

end OffsetGenerator

open OffsetGenerator in
/-- The generators that a loop can rely on, in their valid states. -/
class LawfulOffsetGenerator (G : Type*) [OffsetGenerator G] where
  Valid : G → Prop
  bytesLeft_draw : ∀ g : G, getNumBytesLeftToSubmit (draw g).2 = getNumBytesLeftToSubmit g
  size_pos : ∀ g : G, Valid g → getNumBytesLeftToSubmit g ≠ 0 → 0 < (draw g).1.2
  valid_submitDraw : ∀ g : G, Valid g → getNumBytesLeftToSubmit g ≠ 0 → Valid (submitDraw g)

/-! ## Random numbers -/

/-- The words that a random algorithm returns, one after the other. -/
abbrev RandAlgo := Stream' (BitVec 64)

/-- `next`: the next random word. -/
def RandAlgo.next (randAlgo : RandAlgo) : ℕ × RandAlgo := (randAlgo.head.toNat, randAlgo.tail)

/-- `RandAlgoRange`: random numbers of a range. -/
structure RandAlgoRange where
  start : ℕ
  lengthPlusOne : ℕ

namespace RandAlgoRange

/-- The constructor, which is also what `reset` does. -/
def make (min max : ℕ) : Except String RandAlgoRange :=
  if max < min then
    .error ("RandAlgoRange: \"max < min\" not allowed. " ++
      "Min: " ++ toString min ++ "; " ++ "max: " ++ toString max)
  else .ok ⟨min, Word64.add (Word64.sub max min) 1⟩

/-- `next`: the next random number of the range. -/
def next (r : RandAlgoRange) (randAlgo : RandAlgo) : ℕ × RandAlgo :=
  let (x, randAlgo) := randAlgo.next
  (Word64.add (x % r.lengthPlusOne) r.start, randAlgo)

end RandAlgoRange

/-! ## Block size mixes -/

/-- A parsed block size mix: at least one size, no size twice, every size and every
weight at least 1. -/
structure BlockSizeMix where
  sizesAndWeights : List (ℕ × ℕ)
  ne_nil : sizesAndWeights ≠ []
  nodup : (sizesAndWeights.map Prod.fst).Nodup
  size_pos : ∀ e ∈ sizesAndWeights, 0 < e.1
  size_lt : ∀ e ∈ sizesAndWeights, e.1 < Word64.size
  weight_pos : ∀ e ∈ sizesAndWeights, 0 < e.2
  weight_lt : ∀ e ∈ sizesAndWeights, e.2 < Word64.size

namespace BlockSizeMix

/-- A mix of a single size. -/
def single (size : ℕ) (hpos : 0 < size) (hlt : size < Word64.size) : BlockSizeMix where
  sizesAndWeights := [(size, 1)]
  ne_nil := List.cons_ne_nil _ _
  nodup := List.nodup_singleton size
  size_pos := fun _ he => by rw [List.mem_singleton.mp he]; exact hpos
  size_lt := fun _ he => by rw [List.mem_singleton.mp he]; exact hlt
  weight_pos := fun _ he => by rw [List.mem_singleton.mp he]; exact Nat.one_pos
  weight_lt := fun _ he => by rw [List.mem_singleton.mp he]; exact Nat.lt_of_le_of_lt hpos hlt

/-- The size of the first entry. -/
def frontSize (mix : BlockSizeMix) : ℕ := (mix.sizesAndWeights.head mix.ne_nil).1

/-- `getMaxSize`. -/
def getMaxSize (mix : BlockSizeMix) : ℕ :=
  mix.sizesAndWeights.foldl (fun m e => max m e.1) mix.frontSize

/-- `getMinSize`. -/
def getMinSize (mix : BlockSizeMix) : ℕ :=
  mix.sizesAndWeights.foldl (fun m e => min m e.1) mix.frontSize

/-- `isMix`. -/
def isMix (mix : BlockSizeMix) : Bool := mix.sizesAndWeights.length > 1

/-- The sum of the weights of some entries, in 64 bits. -/
def sumWeights (entries : List (ℕ × ℕ)) : ℕ := entries.foldl (fun w e => Word64.add w e.2) 0

/-- `totalWeight`. -/
def totalWeight (mix : BlockSizeMix) : ℕ := sumWeights mix.sizesAndWeights

/-- The size of the first entry whose cumulative weight exceeds the drawn weight,
with the weight of the entries before. -/
def pick (drawnWeight : ℕ) : ℕ → List (ℕ × ℕ) → Option ℕ
  | _, [] => none
  | w, e :: entries =>
    if drawnWeight < Word64.add w e.2 then some e.1 else pick drawnWeight (Word64.add w e.2) entries

/-- `getNextSize`: the size of the next I/O.  A mix of one size draws no random
number. -/
def getNextSize (mix : BlockSizeMix) (randAlgo : RandAlgo) : ℕ × RandAlgo :=
  if mix.isMix then
    let (x, randAlgo) := randAlgo.next
    ((pick (x % mix.totalWeight) 0 mix.sizesAndWeights).getD
      (mix.sizesAndWeights.getLast mix.ne_nil).1, randAlgo)
  else (mix.getMaxSize, randAlgo)

/-- A running maximum or minimum over sizes is one of them. -/
theorem foldl_size_mem {f : ℕ → ℕ → ℕ} (hf : ∀ a b, f a b = a ∨ f a b = b)
    (entries : List (ℕ × ℕ)) (m : ℕ) :
    entries.foldl (fun m e => f m e.1) m = m ∨
      entries.foldl (fun m e => f m e.1) m ∈ entries.map Prod.fst := by
  induction entries generalizing m with
  | nil => exact Or.inl rfl
  | cons e entries ih =>
    rw [List.foldl_cons, List.map_cons, List.mem_cons]
    rcases ih (f m e.1) with h | h
    · rw [h]
      rcases hf m e.1 with hm | he
      · exact Or.inl hm
      · exact Or.inr (Or.inl he)
    · exact Or.inr (Or.inr h)

/-- The sizes of the mix. -/
def sizes (mix : BlockSizeMix) : List ℕ := mix.sizesAndWeights.map Prod.fst

theorem frontSize_mem (mix : BlockSizeMix) : mix.frontSize ∈ mix.sizes :=
  List.mem_map_of_mem (List.head_mem mix.ne_nil)

theorem getMaxSize_mem (mix : BlockSizeMix) : mix.getMaxSize ∈ mix.sizes := by
  rcases foldl_size_mem max_choice mix.sizesAndWeights mix.frontSize with h | h
  · rw [getMaxSize, h]
    exact mix.frontSize_mem
  · exact h

theorem getMinSize_mem (mix : BlockSizeMix) : mix.getMinSize ∈ mix.sizes := by
  rcases foldl_size_mem min_choice mix.sizesAndWeights mix.frontSize with h | h
  · rw [getMinSize, h]
    exact mix.frontSize_mem
  · exact h

theorem pick_mem {drawnWeight w : ℕ} {entries : List (ℕ × ℕ)} {size : ℕ}
    (h : pick drawnWeight w entries = some size) : size ∈ entries.map Prod.fst := by
  induction entries generalizing w with
  | nil => exact absurd h (by simp [pick])
  | cons e entries ih =>
    rw [pick] at h
    rw [List.map_cons, List.mem_cons]
    split_ifs at h
    · exact Or.inl (Option.some.inj h).symm
    · exact Or.inr (ih h)

/-- **Every draw is one of the sizes of the mix.** -/
theorem getNextSize_mem (mix : BlockSizeMix) (randAlgo : RandAlgo) :
    (mix.getNextSize randAlgo).1 ∈ mix.sizes := by
  unfold getNextSize
  split_ifs
  · show (pick _ 0 mix.sizesAndWeights).getD _ ∈ mix.sizes
    cases hpick : pick (randAlgo.next.1 % mix.totalWeight) 0 mix.sizesAndWeights with
    | none => exact List.mem_map_of_mem (List.getLast_mem mix.ne_nil)
    | some size => exact pick_mem hpick
  · exact mix.getMaxSize_mem

/-- A running maximum is at least its start and every size it has seen. -/
theorem le_foldl_max (entries : List (ℕ × ℕ)) (m : ℕ) :
    m ≤ entries.foldl (fun m e => max m e.1) m ∧
      ∀ size ∈ entries.map Prod.fst, size ≤ entries.foldl (fun m e => max m e.1) m := by
  induction entries generalizing m with
  | nil => exact ⟨le_rfl, fun size h => absurd h List.not_mem_nil⟩
  | cons e entries ih =>
    obtain ⟨hstart, hsizes⟩ := ih (max m e.1)
    refine ⟨(le_max_left _ _).trans hstart, fun size h => ?_⟩
    rcases List.mem_cons.mp h with rfl | h
    · exact (le_max_right _ _).trans hstart
    · exact hsizes size h

/-- A running minimum is at most its start and every size it has seen. -/
theorem foldl_min_le (entries : List (ℕ × ℕ)) (m : ℕ) :
    entries.foldl (fun m e => min m e.1) m ≤ m ∧
      ∀ size ∈ entries.map Prod.fst, entries.foldl (fun m e => min m e.1) m ≤ size := by
  induction entries generalizing m with
  | nil => exact ⟨le_rfl, fun size h => absurd h List.not_mem_nil⟩
  | cons e entries ih =>
    obtain ⟨hstart, hsizes⟩ := ih (min m e.1)
    refine ⟨hstart.trans (min_le_left _ _), fun size h => ?_⟩
    rcases List.mem_cons.mp h with rfl | h
    · exact hstart.trans (min_le_right _ _)
    · exact hsizes size h

theorem le_getMaxSize (mix : BlockSizeMix) {size : ℕ} (h : size ∈ mix.sizes) :
    size ≤ mix.getMaxSize := (le_foldl_max mix.sizesAndWeights mix.frontSize).2 size h

theorem getMinSize_le (mix : BlockSizeMix) {size : ℕ} (h : size ∈ mix.sizes) :
    mix.getMinSize ≤ size := (foldl_min_le mix.sizesAndWeights mix.frontSize).2 size h

theorem getMinSize_le_getMaxSize (mix : BlockSizeMix) : mix.getMinSize ≤ mix.getMaxSize :=
  mix.getMinSize_le mix.getMaxSize_mem

theorem pos_of_mem (mix : BlockSizeMix) {size : ℕ} (h : size ∈ mix.sizes) : 0 < size := by
  obtain ⟨e, he, rfl⟩ := List.mem_map.mp h
  exact mix.size_pos e he

theorem lt_of_mem (mix : BlockSizeMix) {size : ℕ} (h : size ∈ mix.sizes) : size < Word64.size := by
  obtain ⟨e, he, rfl⟩ := List.mem_map.mp h
  exact mix.size_lt e he

end BlockSizeMix

/-! ## The generators -/

/-- `OffsetGenSequential`. -/
structure OffsetGenSequential where
  numBytesTotal : ℕ
  numBytesLeft : ℕ
  startOffset : ℕ
  currentOffset : ℕ
  blockSizeMix : BlockSizeMix
  randAlgo : RandAlgo

namespace OffsetGenSequential

/-- The constructor. -/
def make (len offset : ℕ) (mix : BlockSizeMix) (randAlgo : RandAlgo) : OffsetGenSequential :=
  ⟨len, len, offset, offset, mix, randAlgo⟩

/-- `reset(len, offset)`. -/
def reset (g : OffsetGenSequential) (len offset : ℕ) : OffsetGenSequential :=
  { g with numBytesTotal := len, numBytesLeft := len, startOffset := offset, currentOffset := offset }

instance : OffsetGenerator OffsetGenSequential where
  getNextOffset g := (g.currentOffset, g)
  getNextBlockSizeToSubmit g :=
    let (size, randAlgo) := g.blockSizeMix.getNextSize g.randAlgo
    (min g.numBytesLeft size, { g with randAlgo := randAlgo })
  getNumBytesTotal g := g.numBytesTotal
  getNumBytesLeftToSubmit g := g.numBytesLeft
  addBytesSubmitted g numBytes :=
    { g with
      numBytesLeft := Word64.sub g.numBytesLeft numBytes
      currentOffset := Word64.add g.currentOffset numBytes }

instance : LawfulOffsetGenerator OffsetGenSequential where
  Valid _ := True
  bytesLeft_draw _ := rfl
  size_pos g _ hleft :=
    lt_min (Nat.pos_of_ne_zero hleft) (g.blockSizeMix.pos_of_mem (g.blockSizeMix.getNextSize_mem _))
  valid_submitDraw _ _ _ := trivial

end OffsetGenSequential

/-- `OffsetGenReverseSeq`. -/
structure OffsetGenReverseSeq where
  numBytesTotal : ℕ
  numBytesLeft : ℕ
  startOffset : ℕ
  currentOffset : ℕ
  blockSize : ℕ

namespace OffsetGenReverseSeq

/-- The constructor, which is also what `reset(len, offset)` does: start at the last
block of the range, which may be a short one. -/
def make (len offset blockSize : ℕ) : OffsetGenReverseSeq where
  numBytesTotal := len
  numBytesLeft := len
  startOffset := offset
  currentOffset :=
    if len = 0 then 0
    else if len % blockSize ≠ 0 then Word64.sub (Word64.add offset len) (len % blockSize)
    else Word64.sub (Word64.add offset len) blockSize
  blockSize := blockSize

/-- `reset(len, offset)`. -/
def reset (g : OffsetGenReverseSeq) (len offset : ℕ) : OffsetGenReverseSeq :=
  make len offset g.blockSize

instance : OffsetGenerator OffsetGenReverseSeq where
  getNextOffset g := (g.currentOffset, g)
  getNextBlockSizeToSubmit g :=
    (min (Word64.sub (Word64.add g.startOffset g.numBytesTotal) g.currentOffset) g.blockSize, g)
  getNumBytesTotal g := g.numBytesTotal
  getNumBytesLeftToSubmit g := g.numBytesLeft
  addBytesSubmitted g numBytes :=
    { g with
      numBytesLeft := Word64.sub g.numBytesLeft numBytes
      currentOffset := Word64.sub g.currentOffset g.blockSize }

/-- The generator is at the block with number `i` of its range, and the blocks up to
that one are left. -/
structure AtBlock (g : OffsetGenReverseSeq) (i : ℕ) : Prop where
  blockSize_pos : 0 < g.blockSize
  fits : g.startOffset + g.numBytesTotal < Word64.size
  currentOffset_eq : g.currentOffset = g.startOffset + i * g.blockSize
  lt_total : i * g.blockSize < g.numBytesTotal
  numBytesLeft_eq : g.numBytesLeft = min ((i + 1) * g.blockSize) g.numBytesTotal

/-- The size of a draw: the block, cut off at the end of the range. -/
theorem AtBlock.size_eq {g : OffsetGenReverseSeq} {i : ℕ} (h : g.AtBlock i) :
    (OffsetGenerator.draw g).1.2 = min (g.numBytesTotal - i * g.blockSize) g.blockSize := by
  have hfits := h.fits
  have hlt := h.lt_total
  show min (Word64.sub (Word64.add g.startOffset g.numBytesTotal) g.currentOffset) g.blockSize = _
  rw [Word64.add_eq hfits, h.currentOffset_eq, Word64.sub_eq (by omega) hfits]
  congr 1
  omega

/-- The bytes left after a draw: the blocks before. -/
theorem AtBlock.submitDraw_numBytesLeft {g : OffsetGenReverseSeq} {i : ℕ} (h : g.AtBlock i) :
    (OffsetGenerator.submitDraw g).numBytesLeft = i * g.blockSize := by
  have hfits := h.fits
  have hlt := h.lt_total
  have hpos := h.blockSize_pos
  have hsucc := Nat.add_one_mul i g.blockSize
  show Word64.sub g.numBytesLeft (OffsetGenerator.draw g).1.2 = i * g.blockSize
  rw [h.size_eq, h.numBytesLeft_eq, Word64.sub_eq (by omega) (by omega)]
  omega

/-- A draw that is not the last one leads to the block before. -/
theorem AtBlock.submitDraw {g : OffsetGenReverseSeq} {i : ℕ} (h : g.AtBlock (i + 1)) :
    (OffsetGenerator.submitDraw g).AtBlock i := by
  have hleft := h.submitDraw_numBytesLeft
  obtain ⟨total, left, start, current, blockSize⟩ := g
  have hsucc : (i + 1) * blockSize = i * blockSize + blockSize := Nat.add_one_mul i blockSize
  have hlt : (i + 1) * blockSize < total := h.lt_total
  have hfits : start + total < Word64.size := h.fits
  have hcurrent : current = start + (i + 1) * blockSize := h.currentOffset_eq
  refine ⟨h.blockSize_pos, hfits, ?_, ?_, ?_⟩
  · show Word64.sub current blockSize = start + i * blockSize
    rw [hcurrent, Word64.sub_eq (by omega) (by omega)]
    omega
  · show i * blockSize < total
    omega
  · rw [hleft]
    show (i + 1) * blockSize = min ((i + 1) * blockSize) total
    omega

/-- A generator with bytes starts at its last block. -/
theorem atBlock_make {len offset blockSize : ℕ} (hlen : 0 < len) (hbs : 0 < blockSize)
    (hfits : offset + len < Word64.size) :
    (make len offset blockSize).AtBlock ((len - 1) / blockSize) := by
  have hdiv := Nat.div_add_mod (len - 1) blockSize
  have hmod := Nat.mod_lt (len - 1) hbs
  have hcomm := Nat.mul_comm blockSize ((len - 1) / blockSize)
  have hsucc := Nat.add_one_mul ((len - 1) / blockSize) blockSize
  refine ⟨hbs, hfits, ?_, ?_, ?_⟩
  · show (if len = 0 then 0
      else if len % blockSize ≠ 0 then Word64.sub (Word64.add offset len) (len % blockSize)
      else Word64.sub (Word64.add offset len) blockSize) = offset + (len - 1) / blockSize * blockSize
    have hfull := Nat.div_add_mod len blockSize
    rw [if_neg (by omega), Word64.add_eq hfits]
    by_cases hrem : len % blockSize = 0
    · have hle : blockSize ≤ len := Nat.le_of_dvd hlen (Nat.dvd_of_mod_eq_zero hrem)
      rw [if_neg (not_not.mpr hrem), Word64.sub_eq (by omega) hfits]
      have hlast : (len - blockSize + (blockSize - 1)) / blockSize * blockSize =
          len - blockSize := by
        obtain ⟨k, hk⟩ := Nat.dvd_sub (Nat.dvd_of_mod_eq_zero hrem) (Nat.dvd_refl blockSize)
        rw [hk, Nat.mul_add_div hbs, Nat.div_eq_of_lt (by omega), Nat.add_zero, Nat.mul_comm]
      rw [show len - 1 = len - blockSize + (blockSize - 1) by omega, hlast]
      omega
    · have hlast : (len - 1) / blockSize = len / blockSize := by
        refine le_antisymm (Nat.div_le_div_right (by omega)) ?_
        rw [Nat.le_div_iff_mul_le hbs, Nat.mul_comm]
        omega
      rw [if_pos hrem, Word64.sub_eq (by omega) hfits, hlast, Nat.mul_comm]
      omega
  · show (len - 1) / blockSize * blockSize < len
    omega
  · show len = min (((len - 1) / blockSize + 1) * blockSize) len
    omega

instance : LawfulOffsetGenerator OffsetGenReverseSeq where
  Valid g := g.numBytesLeft ≠ 0 → ∃ i, g.AtBlock i
  bytesLeft_draw _ := rfl
  size_pos g hvalid hleft := by
    obtain ⟨i, h⟩ := hvalid hleft
    have hlt := h.lt_total
    rw [h.size_eq]
    exact lt_min (by omega) h.blockSize_pos
  valid_submitDraw g hvalid hleft := by
    obtain ⟨i, h⟩ := hvalid hleft
    intro hleft'
    cases i with
    | zero =>
      rw [h.submitDraw_numBytesLeft, Nat.zero_mul] at hleft'
      exact absurd rfl hleft'
    | succ i => exact ⟨i, h.submitDraw⟩

end OffsetGenReverseSeq

/-- `OffsetGenRandom`: random offsets without alignment. -/
structure OffsetGenRandom where
  randRange : RandAlgoRange
  numBytesTotal : ℕ
  numBytesLeft : ℕ
  blockSizeMix : BlockSizeMix
  randAlgo : RandAlgo

namespace OffsetGenRandom

/-- The constructor.  The range of the offsets ends where the largest block still
fits. -/
def make (numBytesTotal : ℕ) (randAlgo : RandAlgo) (len offset : ℕ) (mix : BlockSizeMix) :
    Except String OffsetGenRandom := do
  let randRange ← RandAlgoRange.make offset
    (Word64.sub (Word64.add offset len) (min mix.getMaxSize len))
  pure ⟨randRange, numBytesTotal, numBytesTotal, mix, randAlgo⟩

/-- `reset(len, offset)`: the amount is the length of the new range. -/
def reset (g : OffsetGenRandom) (len offset : ℕ) : Except String OffsetGenRandom := do
  let minLenAndBlockSize := min g.blockSizeMix.getMaxSize len
  let randRange ← RandAlgoRange.make offset
    (Word64.sub (Word64.add offset len) minLenAndBlockSize)
  pure { g with randRange := randRange, numBytesTotal := len, numBytesLeft := len }

instance : OffsetGenerator OffsetGenRandom where
  getNextOffset g :=
    let (x, randAlgo) := g.randRange.next g.randAlgo
    (x, { g with randAlgo := randAlgo })
  getNextBlockSizeToSubmit g :=
    let (size, randAlgo) := g.blockSizeMix.getNextSize g.randAlgo
    (min g.numBytesLeft size, { g with randAlgo := randAlgo })
  getNumBytesTotal g := g.numBytesTotal
  getNumBytesLeftToSubmit g := g.numBytesLeft
  addBytesSubmitted g numBytes := { g with numBytesLeft := Word64.sub g.numBytesLeft numBytes }

instance : LawfulOffsetGenerator OffsetGenRandom where
  Valid _ := True
  bytesLeft_draw _ := rfl
  size_pos g _ hleft :=
    lt_min (Nat.pos_of_ne_zero hleft) (g.blockSizeMix.pos_of_mem (g.blockSizeMix.getNextSize_mem _))
  valid_submitDraw _ _ _ := trivial

end OffsetGenRandom

/-- `OffsetGenRandomAligned`: random offsets on the grid of the smallest block
size. -/
structure OffsetGenRandomAligned where
  randRange : RandAlgoRange
  numBytesTotal : ℕ
  numBytesLeft : ℕ
  offset : ℕ
  blockSizeMix : BlockSizeMix
  alignGrid : ℕ
  randAlgo : RandAlgo

namespace OffsetGenRandomAligned

/-- The constructor.  The last grid point is the last one at which the largest block
still fits. -/
def make (numBytesTotal : ℕ) (randAlgo : RandAlgo) (len offset : ℕ) (mix : BlockSizeMix) :
    Except String OffsetGenRandomAligned := do
  let randRange ← RandAlgoRange.make 0
    (if min mix.getMinSize len = 0 then 0
      else Word64.sub len (min mix.getMaxSize len) / min mix.getMinSize len)
  pure ⟨randRange, numBytesTotal, numBytesTotal, offset, mix, mix.getMinSize, randAlgo⟩

/-- `reset(len, offset)`: the amount is the length of the new range. -/
def reset (g : OffsetGenRandomAligned) (len offset : ℕ) : Except String OffsetGenRandomAligned := do
  let minLenAndBlockSize := min g.alignGrid len
  let minLenAndMaxBlockSize := min g.blockSizeMix.getMaxSize len
  let randRange ← RandAlgoRange.make 0
    (if minLenAndBlockSize ≠ 0 then
      Word64.sub len minLenAndMaxBlockSize / minLenAndBlockSize
    else 0)
  pure { g with
    randRange := randRange, numBytesTotal := len, numBytesLeft := len, offset := offset }

instance : OffsetGenerator OffsetGenRandomAligned where
  getNextOffset g :=
    let (x, randAlgo) := g.randRange.next g.randAlgo
    (Word64.add g.offset (Word64.mul x g.alignGrid), { g with randAlgo := randAlgo })
  getNextBlockSizeToSubmit g :=
    let (size, randAlgo) := g.blockSizeMix.getNextSize g.randAlgo
    (min g.numBytesLeft size, { g with randAlgo := randAlgo })
  getNumBytesTotal g := g.numBytesTotal
  getNumBytesLeftToSubmit g := g.numBytesLeft
  addBytesSubmitted g numBytes := { g with numBytesLeft := Word64.sub g.numBytesLeft numBytes }

instance : LawfulOffsetGenerator OffsetGenRandomAligned where
  Valid _ := True
  bytesLeft_draw _ := rfl
  size_pos g _ hleft :=
    lt_min (Nat.pos_of_ne_zero hleft) (g.blockSizeMix.pos_of_mem (g.blockSizeMix.getNextSize_mem _))
  valid_submitDraw _ _ _ := trivial

end OffsetGenRandomAligned

/-- `OffsetGenStrided`: each thread takes every `numDataSetThreads`-th block. -/
structure OffsetGenStrided where
  numBytesTotal : ℕ
  numBytesLeft : ℕ
  startOffset : ℕ
  currentOffset : ℕ
  blockSize : ℕ
  numDataSetThreads : ℕ

namespace OffsetGenStrided

/-- The constructor. -/
def make (len offset blockSize numDataSetThreads : ℕ) : OffsetGenStrided :=
  ⟨len, len, offset, offset, blockSize, numDataSetThreads⟩

instance : OffsetGenerator OffsetGenStrided where
  getNextOffset g := (g.currentOffset, g)
  getNextBlockSizeToSubmit g := (min g.numBytesLeft g.blockSize, g)
  getNumBytesTotal g := g.numBytesTotal
  getNumBytesLeftToSubmit g := g.numBytesLeft
  addBytesSubmitted g numBytes :=
    { g with
      numBytesLeft := Word64.sub g.numBytesLeft numBytes
      currentOffset := Word64.add g.currentOffset (Word64.mul g.blockSize g.numDataSetThreads) }

end OffsetGenStrided

end Elbencho
