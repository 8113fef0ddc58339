import Elbencho.Library.Blocks
import Elbencho.OffsetGen.RandomGrid
import Elbencho.S3.ObjectNames

/-!
# Random reads of objects

With random selection of objects, a rank reads from objects with random numbers until it has done
its share of the random amount.  A pass of the loop draws an object and a size, downloads from the
object until the offset generator is used up, and counts the drawn size.  The generator was made for
one block of the largest size of the mix, which it may draw in several pieces.  So a pass downloads
the largest size, whatever the size it counts.

* `GetObject` are the requests, and `s3ModeIterateObjectsRand` is the loop.
* `Downloads` is what the two ways to download an object have in common.
* `randomReads_transfer_share_iff` says for which arguments the amounts agree, whatever is drawn.
-/

namespace Elbencho

open OffsetGenerator Checks Blocks

/-! ## Generators that are reset -/

/-- The generators for random reads of objects: `reset()` makes their bytes available again. -/
class RandomReadGen (G : Type*) extends OffsetGenerator G where
  reset : G → G
  blockSizeMix : G → BlockSizeMix
  randAlgo : G → RandAlgo

/-- What a draw or a reset leaves as it is. -/
structure RandomReadGen.SameAmounts {G : Type*} [RandomReadGen G] (g g' : G) : Prop where
  total_eq : getNumBytesTotal g' = getNumBytesTotal g
  mix_eq : blockSizeMix g' = blockSizeMix g

theorem RandomReadGen.SameAmounts.trans {G : Type*} [RandomReadGen G] {g g' g'' : G}
    (h : SameAmounts g g') (h' : SameAmounts g' g'') : SameAmounts g g'' :=
  ⟨h'.total_eq.trans h.total_eq, h'.mix_eq.trans h.mix_eq⟩

open RandomReadGen in
/-- The generators draw the words of their algorithm one after the other. -/
class LawfulRandomReadGen (G : Type*) [RandomReadGen G] : Prop where
  size_eq : ∀ g : G, (getNextBlockSizeToSubmit g).1 =
    min (getNumBytesLeftToSubmit g) ((blockSizeMix g).getNextSize (randAlgo g)).1
  randAlgo_size : ∀ g : G, randAlgo (getNextBlockSizeToSubmit g).2 =
    ((blockSizeMix g).getNextSize (randAlgo g)).2
  left_size : ∀ g : G,
    getNumBytesLeftToSubmit (getNextBlockSizeToSubmit g).2 = getNumBytesLeftToSubmit g
  same_size : ∀ g : G, SameAmounts g (getNextBlockSizeToSubmit g).2
  randAlgo_offset : ∀ g : G, randAlgo (getNextOffset g).2 = (randAlgo g).tail
  left_offset : ∀ g : G, getNumBytesLeftToSubmit (getNextOffset g).2 = getNumBytesLeftToSubmit g
  same_offset : ∀ g : G, SameAmounts g (getNextOffset g).2
  randAlgo_add : ∀ (g : G) (n : ℕ), randAlgo (addBytesSubmitted g n) = randAlgo g
  left_add : ∀ (g : G) (n : ℕ),
    getNumBytesLeftToSubmit (addBytesSubmitted g n) = Word64.sub (getNumBytesLeftToSubmit g) n
  same_add : ∀ (g : G) (n : ℕ), SameAmounts g (addBytesSubmitted g n)
  randAlgo_reset : ∀ g : G, randAlgo (reset g) = randAlgo g
  left_reset : ∀ g : G, getNumBytesLeftToSubmit (reset g) = getNumBytesTotal g
  same_reset : ∀ g : G, SameAmounts g (reset g)

instance : RandomReadGen OffsetGenRandom where
  reset g := { g with numBytesLeft := g.numBytesTotal }
  blockSizeMix g := g.blockSizeMix
  randAlgo g := g.randAlgo

instance : RandomReadGen OffsetGenRandomAligned where
  reset g := { g with numBytesLeft := g.numBytesTotal }
  blockSizeMix g := g.blockSizeMix
  randAlgo g := g.randAlgo

instance : LawfulRandomReadGen OffsetGenRandom where
  size_eq _ := rfl
  randAlgo_size _ := rfl
  left_size _ := rfl
  same_size _ := ⟨rfl, rfl⟩
  randAlgo_offset _ := rfl
  left_offset _ := rfl
  same_offset _ := ⟨rfl, rfl⟩
  randAlgo_add g _ := by
    cases g
    exact Eq.refl _
  left_add _ _ := rfl
  same_add g _ := by
    cases g
    exact ⟨Eq.refl _, Eq.refl _⟩
  randAlgo_reset _ := rfl
  left_reset _ := rfl
  same_reset _ := ⟨rfl, rfl⟩

instance : LawfulRandomReadGen OffsetGenRandomAligned where
  size_eq _ := rfl
  randAlgo_size _ := rfl
  left_size _ := rfl
  same_size _ := ⟨rfl, rfl⟩
  randAlgo_offset _ := rfl
  left_offset _ := rfl
  same_offset _ := ⟨rfl, rfl⟩
  randAlgo_add g _ := by
    cases g
    exact Eq.refl _
  left_add _ _ := rfl
  same_add g _ := by
    cases g
    exact ⟨Eq.refl _, Eq.refl _⟩
  randAlgo_reset _ := rfl
  left_reset _ := rfl
  same_reset _ := ⟨rfl, rfl⟩

/-! ## The download of an object -/

section Download

variable {G : Type*} [OffsetGenerator G]

/-- The loop of `s3ModeDownloadObject`: one block in each pass; `none` if it needs more passes. -/
def downloadBlocks : ℕ → G → Option (List (ℕ × ℕ) × G)
  | 0, _ => none
  | fuel + 1, g =>
    if getNumBytesLeftToSubmit g = 0 then some ([], g)
    else (downloadBlocks fuel (submitDraw g)).map fun (ios, g') => ((draw g).1 :: ios, g')

/-- The blocks that `s3ModeDownloadObjectAsync` submits before it waits. -/
def submitBlocks : ℕ → G → List (ℕ × ℕ) × G
  | 0, g => ([], g)
  | ioDepth + 1, g =>
    if getNumBytesLeftToSubmit g = 0 then ([], g)
    else ((draw g).1 :: (submitBlocks ioDepth (submitDraw g)).1,
      (submitBlocks ioDepth (submitDraw g)).2)

/-- The loop of `s3ModeDownloadObjectAsync`; `none` if it needs more passes. -/
def downloadRounds (ioDepth : ℕ) : ℕ → G → Option (List (ℕ × ℕ) × G)
  | 0, _ => none
  | fuel + 1, g =>
    if getNumBytesLeftToSubmit g = 0 then some ([], g)
    else (downloadRounds ioDepth fuel (submitBlocks ioDepth g).2).map fun (ios, g') =>
      ((submitBlocks ioDepth g).1 ++ ios, g')

/-- `s3ModeDownloadObject`: the offsets and sizes of the requests.  No pass is without progress, so
there are at most as many passes as bytes. -/
def s3ModeDownloadObject (ioDepth : ℕ) (g : G) : Option (List (ℕ × ℕ) × G) :=
  if ioDepth > 1 then downloadRounds ioDepth (getNumBytesLeftToSubmit g + 1) g
  else downloadBlocks (getNumBytesLeftToSubmit g + 1) g

/-- The requests until a generator is used up. -/
inductive Downloads : G → List (ℕ × ℕ) → G → Prop
  | done {g : G} (hleft : getNumBytesLeftToSubmit g = 0) : Downloads g [] g
  | block {g g' : G} {ios : List (ℕ × ℕ)} (hleft : getNumBytesLeftToSubmit g ≠ 0)
      (hrest : Downloads (submitDraw g) ios g') : Downloads g ((draw g).1 :: ios) g'

/-- The blocks of a round come before the others. -/
theorem Downloads.submitBlocks {ioDepth : ℕ} {g g' : G} {ios : List (ℕ × ℕ)}
    (h : Downloads (submitBlocks ioDepth g).2 ios g') :
    Downloads g ((submitBlocks ioDepth g).1 ++ ios) g' := by
  induction ioDepth generalizing g with
  | zero => exact h
  | succ ioDepth ih =>
    unfold Elbencho.submitBlocks at h ⊢
    split_ifs at h ⊢ with hleft
    · exact h
    · exact Downloads.block hleft (ih h)

end Download

section Amounts

variable {G : Type*} [RandomReadGen G] [LawfulRandomReadGen G]

open RandomReadGen LawfulRandomReadGen

/-- The size of a draw. -/
theorem draw_size_eq (g : G) : (draw g).1.2 = min (getNumBytesLeftToSubmit g)
    ((blockSizeMix g).getNextSize (randAlgo g).tail).1 := by
  have h := size_eq (getNextOffset g).2
  rw [left_offset, (same_offset g).mix_eq, randAlgo_offset] at h
  exact h

theorem draw_size_le (g : G) : (draw g).1.2 ≤ getNumBytesLeftToSubmit g := by
  rw [draw_size_eq]
  exact min_le_left _ _

theorem draw_size_pos {g : G} (hleft : getNumBytesLeftToSubmit g ≠ 0) : 0 < (draw g).1.2 := by
  rw [draw_size_eq]
  exact lt_min (Nat.pos_of_ne_zero hleft)
    ((blockSizeMix g).pos_of_mem ((blockSizeMix g).getNextSize_mem _))

/-- The bytes that are left after a draw. -/
theorem submitDraw_left {g : G} (hlt : getNumBytesLeftToSubmit g < Word64.size) :
    getNumBytesLeftToSubmit (submitDraw g) = getNumBytesLeftToSubmit g - (draw g).1.2 := by
  have hdraw : getNumBytesLeftToSubmit (draw g).2 = getNumBytesLeftToSubmit g :=
    (left_size _).trans (left_offset g)
  rw [submitDraw, left_add, hdraw, Word64.sub_eq (draw_size_le g) hlt]

theorem submitDraw_same (g : G) : SameAmounts g (submitDraw g) :=
  ((same_offset g).trans (same_size _)).trans (same_add _ _)

/-- An algorithm that returns one word only. -/
def Repeats (w : BitVec 64) (algo : RandAlgo) : Prop := algo = Stream'.const w

theorem Repeats.tail {w : BitVec 64} {algo : RandAlgo} (h : Repeats w algo) :
    Repeats w algo.tail := by
  rw [h]
  rfl

theorem Repeats.getNextSize {w : BitVec 64} {algo : RandAlgo} (h : Repeats w algo)
    (mix : BlockSizeMix) : Repeats w (mix.getNextSize algo).2 := by
  unfold BlockSizeMix.getNextSize
  split_ifs
  · exact h.tail
  · exact h

theorem Repeats.submitDraw {w : BitVec 64} {g : G} (h : Repeats w (randAlgo g)) :
    Repeats w (randAlgo (submitDraw g)) := by
  rw [OffsetGenerator.submitDraw, randAlgo_add]
  show Repeats w (randAlgo (getNextBlockSizeToSubmit (getNextOffset g).2).2)
  rw [randAlgo_size, randAlgo_offset]
  exact h.tail.getNextSize _

/-- **An object is downloaded in full**: the sizes of the requests sum up to the bytes that were
left. -/
theorem Downloads.sum_eq {g g' : G} {ios : List (ℕ × ℕ)} (h : Downloads g ios g')
    (hlt : getNumBytesLeftToSubmit g < Word64.size) :
    (ios.map Prod.snd).sum = getNumBytesLeftToSubmit g := by
  induction h with
  | done hleft => exact hleft.symm
  | @block g g' ios hleft hrest ih =>
    have hsub := submitDraw_left hlt
    have hle := draw_size_le g
    rw [List.map_cons, List.sum_cons, ih (by omega), hsub]
    omega

theorem Downloads.same {g g' : G} {ios : List (ℕ × ℕ)} (h : Downloads g ios g') :
    SameAmounts g g' := by
  induction h with
  | done hleft => exact ⟨rfl, rfl⟩
  | @block g g' ios hleft hrest ih => exact (submitDraw_same g).trans ih

theorem Downloads.repeats {w : BitVec 64} {g g' : G} {ios : List (ℕ × ℕ)} (h : Downloads g ios g')
    (hw : Repeats w (randAlgo g)) : Repeats w (randAlgo g') := by
  induction h with
  | done hleft => exact hw
  | @block g g' ios hleft hrest ih => exact ih hw.submitDraw

/-- One block after the other uses a generator up. -/
theorem exists_downloadBlocks {fuel : ℕ} {g : G} (hfuel : getNumBytesLeftToSubmit g < fuel)
    (hlt : getNumBytesLeftToSubmit g < Word64.size) :
    ∃ ios g', downloadBlocks fuel g = some (ios, g') ∧ Downloads g ios g' := by
  induction fuel generalizing g with
  | zero => exact absurd hfuel (Nat.not_lt_zero _)
  | succ fuel ih =>
    rw [downloadBlocks]
    by_cases hleft : getNumBytesLeftToSubmit g = 0
    · rw [if_pos hleft]
      exact ⟨[], g, rfl, Downloads.done hleft⟩
    · have hsub := submitDraw_left hlt
      have hpos := draw_size_pos hleft
      obtain ⟨ios, g', hrun, hdown⟩ := ih (g := submitDraw g) (by omega) (by omega)
      rw [if_neg hleft, hrun]
      exact ⟨_, g', rfl, Downloads.block hleft hdown⟩

/-- A round leaves fewer bytes. -/
theorem submitBlocks_left {ioDepth : ℕ} {g : G} (hlt : getNumBytesLeftToSubmit g < Word64.size) :
    getNumBytesLeftToSubmit (submitBlocks ioDepth g).2 ≤ getNumBytesLeftToSubmit g := by
  induction ioDepth generalizing g with
  | zero => exact le_rfl
  | succ ioDepth ih =>
    rw [submitBlocks]
    split_ifs with hleft
    · exact le_rfl
    · have hsub := submitDraw_left hlt
      have hrest := ih (g := submitDraw g) (by omega)
      show getNumBytesLeftToSubmit (submitBlocks ioDepth (submitDraw g)).2 ≤ _
      omega

/-- Rounds of blocks use a generator up. -/
theorem exists_downloadRounds {ioDepth fuel : ℕ} {g : G} (hdepth : 0 < ioDepth)
    (hfuel : getNumBytesLeftToSubmit g < fuel) (hlt : getNumBytesLeftToSubmit g < Word64.size) :
    ∃ ios g', downloadRounds ioDepth fuel g = some (ios, g') ∧ Downloads g ios g' := by
  induction fuel generalizing g with
  | zero => exact absurd hfuel (Nat.not_lt_zero _)
  | succ fuel ih =>
    rw [downloadRounds]
    by_cases hleft : getNumBytesLeftToSubmit g = 0
    · rw [if_pos hleft]
      exact ⟨[], g, rfl, Downloads.done hleft⟩
    · obtain ⟨depth, rfl⟩ := Nat.exists_eq_add_of_lt hdepth
      -- the first block of the round is the progress
      have hsub := submitDraw_left hlt
      have hpos := draw_size_pos hleft
      have hround : getNumBytesLeftToSubmit (submitBlocks (0 + depth + 1) g).2 ≤
          getNumBytesLeftToSubmit (submitDraw g) := by
        rw [submitBlocks, if_neg hleft]
        exact submitBlocks_left (by omega)
      obtain ⟨ios, g', hrun, hdown⟩ :=
        ih (g := (submitBlocks (0 + depth + 1) g).2) (by omega) (by omega)
      rw [if_neg hleft, hrun]
      exact ⟨_, g', rfl, hdown.submitBlocks⟩

/-- **The download of an object ends**, with the bytes of the generator. -/
theorem exists_s3ModeDownloadObject (ioDepth : ℕ) {g : G}
    (hlt : getNumBytesLeftToSubmit g < Word64.size) :
    ∃ ios g', s3ModeDownloadObject ioDepth g = some (ios, g') ∧ Downloads g ios g' := by
  unfold s3ModeDownloadObject
  split_ifs with hdepth
  · exact exists_downloadRounds (by omega) (Nat.lt_succ_self _) hlt
  · exact exists_downloadBlocks (Nat.lt_succ_self _) hlt

end Amounts

/-! ## The loop over objects -/

/-- A request for a part of an object. -/
structure GetObject where
  bucketName : String
  objectName : List Char
  offset : ℕ
  size : ℕ

/-- The bytes of some requests. -/
def numBytesOf (requests : List GetObject) : ℕ := (requests.map GetObject.size).sum

/-- The state of the loop, with the requests so far. -/
structure RandReads (G : Type*) where
  numBytesDone : ℕ
  randIndexAlgo : RandAlgo
  rwOffsetGen : G
  requests : List GetObject

/-- What a pass has drawn when its download begins. -/
structure NextRead (G : Type*) where
  bucketName : String
  objectName : List Char
  currentBlockSize : ℕ
  randIndexAlgo : RandAlgo
  rwOffsetGen : G

/-- `INTERRUPTION_CHECK_INTERVAL`. -/
def INTERRUPTION_CHECK_INTERVAL : ℕ := 128

/-- The mix for the selection of indexes: steps of 1. -/
def indexStepMix : BlockSizeMix := BlockSizeMix.single 1 Nat.one_pos Word64.one_lt_size

/-- A random index, drawn with the algorithm that the index generators share. -/
def nextIndex (gen : OffsetGenRandom) (randIndexAlgo : RandAlgo) : ℕ × RandAlgo :=
  let (index, gen) := getNextOffset { gen with randAlgo := randIndexAlgo }
  (index, gen.randAlgo)

namespace ObjectArgs

variable (a : ObjectArgs) (workerRank ioDepth : ℕ)

/-- The number of bytes after which the loop looks for an interruption. -/
def interruptCheckBytes : ℕ := Word64.mul a.args.blockSize INTERRUPTION_CHECK_INTERVAL

/-- The share of a thread of the random amount. -/
def randomShare : ℕ := a.args.randomAmount / a.args.numDataSetThreads

/-- The generators for the indexes of directories and files. -/
def indexGens (randIndexAlgo : RandAlgo) : Except String (OffsetGenRandom × OffsetGenRandom) := do
  let randDirIndexGen ←
    OffsetGenRandom.make (Word64.size - 1) randIndexAlgo a.numDirs 0 indexStepMix
  let randFileIndexGen ←
    OffsetGenRandom.make (Word64.size - 1) randIndexAlgo a.args.numFiles 0 indexStepMix
  pure (randDirIndexGen, randFileIndexGen)

section Loop

variable {G : Type} [RandomReadGen G] (gens : OffsetGenRandom × OffsetGenRandom)

/-- A pass of the loop up to its download.  The check for an interruption divides by its interval,
and the draw from a mix by the sum of the weights. -/
def prepareRead (s : RandReads G) : Except Stop (NextRead G) := do
  stopIf (a.interruptCheckBytes = 0) .crashed
  let (dirIndex, randIndexAlgo) := nextIndex gens.1 s.randIndexAlgo
  let (fileIndex, randIndexAlgo) := nextIndex gens.2 randIndexAlgo
  let mix := RandomReadGen.blockSizeMix s.rwOffsetGen
  stopIf (mix.isMix ∧ mix.totalWeight = 0) .crashed
  let (currentBlockSize, rwOffsetGen) := getNextBlockSizeToSubmit s.rwOffsetGen
  stopIf (¬ Fits (a.objectPath workerRank dirIndex fileIndex))
    (.threw ("object path too long for static buffer. Buffer size: " ++ toString PATH_BUF_LEN ++
      "; workerRank: " ++ toString workerRank ++ "; dirIndex: " ++ toString dirIndex ++
      "; fileIndex: " ++ toString fileIndex))
  pure
    { bucketName := a.bucketName workerRank dirIndex
      objectName := a.objectName workerRank dirIndex fileIndex
      currentBlockSize := currentBlockSize
      randIndexAlgo := randIndexAlgo
      rwOffsetGen := rwOffsetGen }

/-- The state after a pass, with the drawn offsets and sizes of its download. -/
def afterRead (s : RandReads G) (next : NextRead G) (ios : List (ℕ × ℕ)) (rwOffsetGen : G) :
    RandReads G where
  numBytesDone := Word64.add s.numBytesDone next.currentBlockSize
  randIndexAlgo := next.randIndexAlgo
  rwOffsetGen := RandomReadGen.reset rwOffsetGen
  requests := s.requests ++ ios.map fun io =>
    ⟨next.bucketName, next.objectName, Word64.add io.1 a.args.fileOffset, io.2⟩

/-- The loop; `none` if it needs more passes. -/
def iterateRand : ℕ → RandReads G → Option (Except Stop (List GetObject))
  | 0, _ => none
  | fuel + 1, s =>
    if s.numBytesDone < a.randomShare then
      match a.prepareRead workerRank gens s with
      | .error e => some (.error e)
      | .ok next =>
        (s3ModeDownloadObject ioDepth next.rwOffsetGen).bind fun done =>
          iterateRand fuel (a.afterRead s next done.1 done.2)
    else some (.ok s.requests)

/-- The loop with new generators, if they could be made. -/
def iterateRandWith (fuel : ℕ) (randIndexAlgo : RandAlgo) :
    Except String (OffsetGenRandom × OffsetGenRandom) → Except String G →
      Option (Except Stop (List GetObject))
  | .error msg, _ => some (.error (.threw msg))
  | .ok _, .error msg => some (.error (.threw msg))
  | .ok gens, .ok g => a.iterateRand workerRank ioDepth gens fuel ⟨0, randIndexAlgo, g, []⟩

end Loop

/-- `s3ModeIterateObjectsRand`: the requests of a rank; `none` if the loop needs more passes. -/
def s3ModeIterateObjectsRand (fuel : ℕ) (randIndexAlgo randOffsetAlgo : RandAlgo) :
    Option (Except Stop (List GetObject)) :=
  if a.args.useRandomUnaligned then
    a.iterateRandWith workerRank ioDepth fuel randIndexAlgo (a.indexGens randIndexAlgo)
      (OffsetGenRandom.make a.args.blockSize randOffsetAlgo a.args.fileSize 0 a.args.blockSizeMix)
  else
    a.iterateRandWith workerRank ioDepth fuel randIndexAlgo (a.indexGens randIndexAlgo)
      (OffsetGenRandomAligned.make a.args.blockSize randOffsetAlgo a.args.fileSize 0
        a.args.blockSizeMix)

/-! ## One pass -/

section Pass

variable {G : Type} [RandomReadGen G] [LawfulRandomReadGen G]
  {gens : OffsetGenRandom × OffsetGenRandom} {a : ObjectArgs} {workerRank ioDepth : ℕ}
  {s : RandReads G} {next : NextRead G}

open RandomReadGen LawfulRandomReadGen

/-- The generator is ready for one block of the largest size. -/
structure Ready (a : ObjectArgs) (g : G) : Prop where
  left_eq : getNumBytesLeftToSubmit g = a.args.blockSize
  total_eq : getNumBytesTotal g = a.args.blockSize
  mix_eq : blockSizeMix g = a.args.blockSizeMix

omit [LawfulRandomReadGen G] in
/-- **What a pass needs** to get to its download, and what it has drawn then. -/
theorem prepareRead_eq_ok_iff : a.prepareRead workerRank gens s = .ok next ↔
    a.interruptCheckBytes ≠ 0 ∧
      ¬ ((blockSizeMix s.rwOffsetGen).isMix ∧ (blockSizeMix s.rwOffsetGen).totalWeight = 0) ∧
      Fits (a.objectPath workerRank (nextIndex gens.1 s.randIndexAlgo).1
        (nextIndex gens.2 (nextIndex gens.1 s.randIndexAlgo).2).1) ∧
      NextRead.mk (a.bucketName workerRank (nextIndex gens.1 s.randIndexAlgo).1)
        (a.objectName workerRank (nextIndex gens.1 s.randIndexAlgo).1
          (nextIndex gens.2 (nextIndex gens.1 s.randIndexAlgo).2).1)
        (getNextBlockSizeToSubmit s.rwOffsetGen).1
        (nextIndex gens.2 (nextIndex gens.1 s.randIndexAlgo).2).2
        (getNextBlockSizeToSubmit s.rwOffsetGen).2 = next := by
  simp only [prepareRead, stopIf_bind_eq_ok, not_not]
  exact and_congr Iff.rfl (and_congr Iff.rfl (and_congr Iff.rfl
    ⟨Except.ok.inj, congrArg Except.ok⟩))

/-- **One pass** downloads a block of the largest size and counts the drawn one. -/
theorem exists_afterRead (hready : a.Ready s.rwOffsetGen) (hblock : a.args.blockSize ≠ 0)
    (hnext : a.prepareRead workerRank gens s = .ok next) :
    ∃ done, s3ModeDownloadObject ioDepth next.rwOffsetGen = some done ∧
      a.Ready (a.afterRead s next done.1 done.2).rwOffsetGen ∧
      numBytesOf (a.afterRead s next done.1 done.2).requests =
        numBytesOf s.requests + a.args.blockSize ∧
      (a.afterRead s next done.1 done.2).numBytesDone = Word64.add s.numBytesDone
        (a.args.blockSizeMix.getNextSize (randAlgo s.rwOffsetGen)).1 ∧
      ∀ w, Repeats w (randAlgo s.rwOffsetGen) →
        Repeats w (randAlgo (a.afterRead s next done.1 done.2).rwOffsetGen) := by
  obtain ⟨-, -, -, rfl⟩ := prepareRead_eq_ok_iff.mp hnext
  have hmax := a.args.blockSize_eq hblock
  have hlt : a.args.blockSize < Word64.size := by
    rw [hmax]
    exact a.args.blockSizeMix.lt_of_mem a.args.blockSizeMix.getMaxSize_mem
  have hleft : getNumBytesLeftToSubmit (getNextBlockSizeToSubmit s.rwOffsetGen).2 =
      a.args.blockSize := (left_size _).trans hready.left_eq
  obtain ⟨ios, g, hrun, hdown⟩ := exists_s3ModeDownloadObject ioDepth
    (show getNumBytesLeftToSubmit (getNextBlockSizeToSubmit s.rwOffsetGen).2 < _ by rwa [hleft])
  have hsame : SameAmounts s.rwOffsetGen g := (same_size s.rwOffsetGen).trans hdown.same
  refine ⟨(ios, g), hrun, ⟨?_, ?_, ?_⟩, ?_, ?_, fun w hw => ?_⟩
  · exact (left_reset g).trans (hsame.total_eq.trans hready.total_eq)
  · exact (same_reset g).total_eq.trans (hsame.total_eq.trans hready.total_eq)
  · exact (same_reset g).mix_eq.trans (hsame.mix_eq.trans hready.mix_eq)
  · have hsum := hdown.sum_eq (by rwa [hleft])
    rw [hleft] at hsum
    rw [numBytesOf, afterRead, List.map_append, List.sum_append, List.map_map]
    exact congrArg (numBytesOf s.requests + ·) hsum
  · have hle := a.args.blockSizeMix.le_getMaxSize
      (a.args.blockSizeMix.getNextSize_mem (randAlgo s.rwOffsetGen))
    show Word64.add s.numBytesDone (getNextBlockSizeToSubmit s.rwOffsetGen).1 = _
    rw [size_eq, hready.left_eq, hready.mix_eq, hmax, min_eq_right hle]
  · show Repeats w (randAlgo (reset g))
    rw [randAlgo_reset]
    refine hdown.repeats ?_
    rw [randAlgo_size]
    exact hw.getNextSize _

end Pass

/-! ## Runs -/

variable (a : ObjectArgs) (workerRank ioDepth : ℕ)

/-- The number of blocks of the largest size in the share. -/
def numReads : ℕ := numBlocks a.randomShare a.args.blockSize

/-- **The condition for the amounts to agree.**  Nothing is divided by 0, the names of all objects
fit into their buffer, and as many draws of one size as there are blocks of the largest size in the
share have at least the share, and their sum is a word. -/
structure ReadsAgree : Prop where
  interruptCheckBytes_ne : a.interruptCheckBytes ≠ 0
  totalWeight_ne : ¬ (a.args.blockSizeMix.isMix ∧ a.args.blockSizeMix.totalWeight = 0)
  fits : ∀ dirIndex < a.numDirs, ∀ fileIndex < max 1 a.args.numFiles,
    Fits (a.objectPath workerRank dirIndex fileIndex)
  share_le : ∀ randAlgo : RandAlgo,
    a.randomShare ≤ a.numReads * (a.args.blockSizeMix.getNextSize randAlgo).1
  sum_lt : ∀ randAlgo : RandAlgo,
    a.numReads * (a.args.blockSizeMix.getNextSize randAlgo).1 < Word64.size

/-- The indexes that the generators draw. -/
structure DrawsIndexes (gens : OffsetGenRandom × OffsetGenRandom) : Prop where
  dirIndex_lt : ∀ randAlgo, (nextIndex gens.1 randAlgo).1 < a.numDirs
  fileIndex_lt : ∀ randAlgo, (nextIndex gens.2 randAlgo).1 < max 1 a.args.numFiles

section Runs

variable {G : Type} [RandomReadGen G] [LawfulRandomReadGen G]
  {gens : OffsetGenRandom × OffsetGenRandom} {a : ObjectArgs} {workerRank ioDepth : ℕ}
  {s : RandReads G}

open RandomReadGen LawfulRandomReadGen

/-- The state after a number of passes whose draws have sizes that agree.  The products stand for
sums of draws: each draw is at least the share divided by the number of reads. -/
structure AfterReads (a : ObjectArgs) (j : ℕ) (s : RandReads G) : Prop where
  ready : a.Ready s.rwOffsetGen
  bytes_eq : numBytesOf s.requests = j * a.args.blockSize
  done_ge : j * a.randomShare ≤ a.numReads * s.numBytesDone
  done_lt : a.numReads * s.numBytesDone ≤ j * (Word64.size - 1)
  done_le : s.numBytesDone ≤ j * a.args.blockSize

/-- A pass in which everything agrees. -/
theorem AfterReads.pass {j : ℕ} (h : a.AfterReads j s) (hj : j < a.numReads)
    (hblock : a.args.blockSize ≠ 0) (hagree : a.ReadsAgree workerRank)
    (hindexes : a.DrawsIndexes gens) :
    ∃ next done, a.prepareRead workerRank gens s = .ok next ∧
      s3ModeDownloadObject ioDepth next.rwOffsetGen = some done ∧
      a.AfterReads (j + 1) (a.afterRead s next done.1 done.2) := by
  obtain ⟨next, hnext⟩ : ∃ next, a.prepareRead workerRank gens s = .ok next :=
    ⟨_, prepareRead_eq_ok_iff.mpr ⟨hagree.interruptCheckBytes_ne,
      by rw [h.ready.mix_eq]; exact hagree.totalWeight_ne,
      hagree.fits _ (hindexes.dirIndex_lt _) _ (hindexes.fileIndex_lt _), rfl⟩⟩
  obtain ⟨done, hdown, hready, hbytes, hdone, -⟩ := exists_afterRead h.ready hblock hnext
  have hshare := hagree.share_le (randAlgo s.rwOffsetGen)
  have hsum := hagree.sum_lt (randAlgo s.rwOffsetGen)
  have hmax := a.args.blockSizeMix.le_getMaxSize
    (a.args.blockSizeMix.getNextSize_mem (randAlgo s.rwOffsetGen))
  rw [← a.args.blockSize_eq hblock] at hmax
  generalize (a.args.blockSizeMix.getNextSize (randAlgo s.rwOffsetGen)).1 = size at *
  have hge := h.done_ge
  have hlt := h.done_lt
  have hle := h.done_le
  have hmul : a.numReads * (s.numBytesDone + size) ≤ (j + 1) * (Word64.size - 1) := by
    rw [Nat.mul_add, Nat.add_one_mul]
    omega
  -- the sum of at most `numReads` draws is a word
  have hword : s.numBytesDone + size < Word64.size := by
    have hall : a.numReads * (s.numBytesDone + size) ≤ a.numReads * (Word64.size - 1) :=
      hmul.trans (Nat.mul_le_mul_right _ hj)
    have := Nat.le_of_mul_le_mul_left hall (by omega)
    have := Word64.size_pos
    omega
  rw [Word64.add_eq hword] at hdone
  refine ⟨next, done, hnext, hdown, hready, ?_, ?_, ?_, ?_⟩
  · rw [hbytes, h.bytes_eq, Nat.add_one_mul]
  · rw [hdone, Nat.mul_add, Nat.add_one_mul]
    omega
  · rw [hdone]
    exact hmul
  · rw [hdone, Nat.add_one_mul]
    omega

/-- **A run in which everything agrees** has one pass for each block of the largest size in the
share. -/
theorem AfterReads.exists_run {j : ℕ} (h : a.AfterReads j s) (hj : j ≤ a.numReads)
    (hblock : a.args.blockSize ≠ 0) (hshare : a.randomShare ≠ 0)
    (hagree : a.ReadsAgree workerRank) (hindexes : a.DrawsIndexes gens) :
    ∃ fuel requests, a.iterateRand workerRank ioDepth gens fuel s = some (.ok requests) ∧
      numBytesOf requests = a.numReads * a.args.blockSize := by
  have hpos := Nat.pos_of_ne_zero hblock
  induction hleft : a.numReads - j generalizing j s with
  | zero =>
    obtain rfl : j = a.numReads := by omega
    -- all passes are done, so the draws have the share
    have hdone : ¬ s.numBytesDone < a.randomShare := not_lt.mpr
      (Nat.le_of_mul_le_mul_left h.done_ge (numBlocks_pos hpos (Nat.pos_of_ne_zero hshare)))
    refine ⟨1, s.requests, ?_, h.bytes_eq⟩
    rw [iterateRand, if_neg hdone]
  | succ left ih =>
    have hlt : j < a.numReads := by omega
    have hmore : s.numBytesDone < a.randomShare :=
      lt_of_le_of_lt h.done_le ((lt_numBlocks_iff hpos).mp hlt)
    obtain ⟨next, done, hnext, hdown, hafter⟩ := h.pass hlt hblock hagree hindexes
    obtain ⟨fuel, requests, hrun, hbytes⟩ := ih hafter hlt (by omega)
    refine ⟨fuel + 1, requests, ?_, hbytes⟩
    rw [iterateRand, if_pos hmore, hnext]
    show (s3ModeDownloadObject ioDepth next.rwOffsetGen).bind _ = _
    rw [hdown]
    exact hrun

/-- The state after a number of passes in which the algorithm has returned one word only. -/
structure AfterEqualReads (a : ObjectArgs) (w : BitVec 64) (j : ℕ) (s : RandReads G) : Prop where
  ready : a.Ready s.rwOffsetGen
  repeats : Repeats w (randAlgo s.rwOffsetGen)
  bytes_eq : numBytesOf s.requests = j * a.args.blockSize
  done_eq : s.numBytesDone =
    j * (a.args.blockSizeMix.getNextSize (Stream'.const w)).1 % Word64.size

/-- **A run with equal draws** ends after some number of passes. -/
theorem AfterEqualReads.of_run {w : BitVec 64} {j fuel : ℕ} {requests : List GetObject}
    (h : a.AfterEqualReads w j s) (hblock : a.args.blockSize ≠ 0)
    (hrun : a.iterateRand workerRank ioDepth gens fuel s = some (.ok requests)) :
    ∃ n, numBytesOf requests = n * a.args.blockSize ∧
      a.randomShare ≤
        n * (a.args.blockSizeMix.getNextSize (Stream'.const w)).1 % Word64.size := by
  induction fuel generalizing j s with
  | zero => cases hrun
  | succ fuel ih =>
    rw [iterateRand] at hrun
    split_ifs at hrun with hmore
    · cases hnext : a.prepareRead workerRank gens s with
      | error e =>
        rw [hnext] at hrun
        cases hrun
      | ok next =>
        obtain ⟨done, hdown, hready, hbytes, hdone, hrepeats⟩ :=
          exists_afterRead h.ready hblock hnext
        rw [hnext] at hrun
        replace hrun : (s3ModeDownloadObject ioDepth next.rwOffsetGen).bind _ = _ := hrun
        rw [hdown] at hrun
        refine ih (j := j + 1) ⟨hready, hrepeats w h.repeats, ?_, ?_⟩ hrun
        · rw [hbytes, h.bytes_eq, Nat.add_one_mul]
        · have hconst : randAlgo s.rwOffsetGen = Stream'.const w := h.repeats
          rw [hdone, h.done_eq, hconst, Word64.add, Nat.mod_add_mod, Nat.add_one_mul]
    · obtain rfl := Except.ok.inj (Option.some.inj hrun)
      refine ⟨j, h.bytes_eq, ?_⟩
      rw [← h.done_eq]
      exact not_lt.mp hmore

/-- The size of a draw depends on one word. -/
theorem getNextSize_const (mix : BlockSizeMix) (randAlgo : RandAlgo) :
    (mix.getNextSize (Stream'.const randAlgo.head)).1 = (mix.getNextSize randAlgo).1 := by
  unfold BlockSizeMix.getNextSize
  split_ifs <;> rfl

omit [LawfulRandomReadGen G] in
/-- The first pass of a run that ends well has come to its download. -/
theorem exists_prepareRead_of_run {fuel : ℕ} {requests : List GetObject}
    (hmore : s.numBytesDone < a.randomShare)
    (hrun : a.iterateRand workerRank ioDepth gens fuel s = some (.ok requests)) :
    ∃ next, a.prepareRead workerRank gens s = .ok next := by
  cases fuel with
  | zero => cases hrun
  | succ fuel =>
    rw [iterateRand, if_pos hmore] at hrun
    cases hnext : a.prepareRead workerRank gens s with
    | error e =>
      rw [hnext] at hrun
      cases hrun
    | ok next => exact ⟨next, rfl⟩

end Runs

/-! ## Indexes -/

section Indexes

variable {a : ObjectArgs}

/-- The ranges of the index generators. -/
theorem exists_indexGens (a : ObjectArgs) (randIndexAlgo : RandAlgo) :
    ∃ gens, a.indexGens randIndexAlgo = .ok gens ∧
      gens.1.randRange = ⟨0, a.numDirs - 1 + 1⟩ ∧
      gens.2.randRange = ⟨0, max 1 a.args.numFiles - 1 + 1⟩ := by
  have hdirs : 0 + a.numDirs < Word64.size := by
    rw [Nat.zero_add]
    exact a.numDirs_lt_size
  have hfiles : 0 + a.args.numFiles < Word64.size := by
    rw [Nat.zero_add]
    exact a.numFiles_lt
  have hmax : indexStepMix.getMaxSize = 1 := rfl
  have hpos := a.numDirs_pos
  unfold indexGens
  rw [OffsetGenRandom.make_eq_ok hdirs, OffsetGenRandom.make_eq_ok hfiles]
  refine ⟨_, rfl, ?_, ?_⟩
  · show RandAlgoRange.mk 0 (a.numDirs - min indexStepMix.getMaxSize a.numDirs + 1) = _
    rw [hmax, min_eq_left hpos]
  · show RandAlgoRange.mk 0 (a.args.numFiles - min indexStepMix.getMaxSize a.args.numFiles + 1) = _
    rw [hmax, show a.args.numFiles - min 1 a.args.numFiles = max 1 a.args.numFiles - 1 by omega]

variable {gens : OffsetGenRandom × OffsetGenRandom}

/-- Only indexes of directories and files are drawn. -/
theorem drawsIndexes (hdirs : gens.1.randRange = ⟨0, a.numDirs - 1 + 1⟩)
    (hfiles : gens.2.randRange = ⟨0, max 1 a.args.numFiles - 1 + 1⟩) : a.DrawsIndexes gens := by
  have hpos := a.numDirs_pos
  have hlt := a.numDirs_lt_size
  have hlt' := a.numFiles_lt
  have hone := Word64.one_lt_size
  constructor
  · intro randAlgo
    obtain ⟨k, hk, hnext⟩ := RandAlgoRange.next_eq 0 (a.numDirs - 1) randAlgo (by omega)
    rw [← hdirs] at hnext
    show (gens.1.randRange.next randAlgo).1 < a.numDirs
    omega
  · intro randAlgo
    obtain ⟨k, hk, hnext⟩ :=
      RandAlgoRange.next_eq 0 (max 1 a.args.numFiles - 1) randAlgo (by omega)
    rw [← hfiles] at hnext
    show (gens.2.randRange.next randAlgo).1 < max 1 a.args.numFiles
    omega

/-- Every pair of indexes is drawn for some words. -/
theorem nextIndex_twoWords (hdirs : gens.1.randRange = ⟨0, a.numDirs - 1 + 1⟩)
    (hfiles : gens.2.randRange = ⟨0, max 1 a.args.numFiles - 1 + 1⟩) {dirIndex fileIndex : ℕ}
    (hdir : dirIndex < a.numDirs) (hfile : fileIndex < max 1 a.args.numFiles) :
    (nextIndex gens.1 (twoWords (BitVec.ofNat 64 dirIndex) (BitVec.ofNat 64 fileIndex))).1 =
        dirIndex ∧
      (nextIndex gens.2 (nextIndex gens.1
        (twoWords (BitVec.ofNat 64 dirIndex) (BitVec.ofNat 64 fileIndex))).2).1 = fileIndex := by
  have hlt := a.numDirs_lt_size
  have hlt' := a.numFiles_lt
  have hone := Word64.one_lt_size
  constructor
  · show (gens.1.randRange.next _).1 = dirIndex
    rw [hdirs, RandAlgoRange.next_of_head (k := dirIndex) (by omega) (by omega) rfl, Nat.zero_add]
  · show (gens.2.randRange.next _).1 = fileIndex
    rw [hfiles, RandAlgoRange.next_of_head (k := fileIndex) (by omega) (by omega) rfl,
      Nat.zero_add]

end Indexes

/-! ## The amounts -/

section Share

variable {G : Type} [RandomReadGen G] {a : ObjectArgs} {workerRank ioDepth : ℕ}

open RandomReadGen

/-- The loop ends well, and the bytes of its requests are the share, up to less than a block. -/
def TransfersShare (a : ObjectArgs) (run : ℕ → Option (Except Stop (List GetObject))) : Prop :=
  ∃ fuel requests, run fuel = some (.ok requests) ∧ a.randomShare ≤ numBytesOf requests ∧
    numBytesOf requests < a.randomShare + a.args.blockSize

/-- A new generator is ready and has the algorithm of the worker. -/
def MakesReady (a : ObjectArgs) (make : RandAlgo → Except String G) : Prop :=
  ∀ randOffsetAlgo, ∃ g, make randOffsetAlgo = .ok g ∧ a.Ready g ∧ randAlgo g = randOffsetAlgo

variable {make : RandAlgo → Except String G}

/-- The loop with a new generator is the loop with generators that draw all indexes. -/
theorem exists_iterateRandWith_eq (hmake : a.MakesReady make) (workerRank ioDepth : ℕ)
    (randIndexAlgo randOffsetAlgo : RandAlgo) :
    ∃ (gens : OffsetGenRandom × OffsetGenRandom) (g : G),
      gens.1.randRange = ⟨0, a.numDirs - 1 + 1⟩ ∧
      gens.2.randRange = ⟨0, max 1 a.args.numFiles - 1 + 1⟩ ∧
      a.Ready g ∧ randAlgo g = randOffsetAlgo ∧
      ∀ fuel, a.iterateRandWith workerRank ioDepth fuel randIndexAlgo (a.indexGens randIndexAlgo)
          (make randOffsetAlgo) =
        a.iterateRand workerRank ioDepth gens fuel ⟨0, randIndexAlgo, g, []⟩ := by
  obtain ⟨gens, hgens, hdirs, hfiles⟩ := a.exists_indexGens randIndexAlgo
  obtain ⟨g, hg, hready, halgo⟩ := hmake randOffsetAlgo
  refine ⟨gens, g, hdirs, hfiles, hready, halgo, fun fuel => ?_⟩
  rw [hgens, hg]
  rfl

/-- Without a share nothing is read. -/
theorem transfersShare_of_zero (hmake : a.MakesReady make) (hblock : a.args.blockSize ≠ 0)
    (hshare : a.randomShare = 0) (randIndexAlgo randOffsetAlgo : RandAlgo) :
    a.TransfersShare fun fuel =>
      a.iterateRandWith workerRank ioDepth fuel randIndexAlgo (a.indexGens randIndexAlgo)
        (make randOffsetAlgo) := by
  obtain ⟨gens, g, -, -, -, -, hrun⟩ :=
    exists_iterateRandWith_eq hmake workerRank ioDepth randIndexAlgo randOffsetAlgo
  refine ⟨1, [], ?_, by rw [hshare]; exact Nat.zero_le _, ?_⟩
  · refine (hrun 1).trans ?_
    rw [iterateRand, hshare, if_neg (Nat.not_lt_zero _)]
  · exact Nat.add_pos_right _ (Nat.pos_of_ne_zero hblock)

variable [LawfulRandomReadGen G]

/-- If everything agrees, the share is transferred whatever is drawn. -/
theorem ReadsAgree.transfersShare (hagree : a.ReadsAgree workerRank) (hmake : a.MakesReady make)
    (hblock : a.args.blockSize ≠ 0) (hshare : a.randomShare ≠ 0)
    (randIndexAlgo randOffsetAlgo : RandAlgo) :
    a.TransfersShare fun fuel =>
      a.iterateRandWith workerRank ioDepth fuel randIndexAlgo (a.indexGens randIndexAlgo)
        (make randOffsetAlgo) := by
  obtain ⟨gens, g, hdirs, hfiles, hready, -, hrun⟩ :=
    exists_iterateRandWith_eq hmake workerRank ioDepth randIndexAlgo randOffsetAlgo
  have hpos := Nat.pos_of_ne_zero hblock
  have hstart : a.AfterReads 0 ⟨0, randIndexAlgo, g, []⟩ :=
    ⟨hready, (Nat.zero_mul _).symm, (Nat.zero_mul a.randomShare).trans_le (Nat.zero_le _),
      (Nat.mul_zero a.numReads).trans_le (Nat.zero_le _), Nat.zero_le _⟩
  obtain ⟨fuel, requests, hend, hbytes⟩ := hstart.exists_run (Nat.zero_le _) hblock hshare hagree
    (drawsIndexes hdirs hfiles)
  -- the blocks of the largest size reach the share with the last one
  have hge : a.randomShare ≤ a.numReads * a.args.blockSize := (numBlocks_le_iff hpos).mp le_rfl
  have hreads : 0 < a.numReads := numBlocks_pos hpos (Nat.pos_of_ne_zero hshare)
  have hlast : (a.numReads - 1) * a.args.blockSize < a.randomShare :=
    (lt_numBlocks_iff hpos).mp (Nat.sub_one_lt_of_lt hreads)
  have hsucc := Nat.add_one_mul (a.numReads - 1) a.args.blockSize
  rw [Nat.sub_add_cancel hreads] at hsucc
  exact ⟨fuel, requests, (hrun fuel).trans hend, by rw [hbytes]; exact hge, by rw [hbytes]; omega⟩

/-- If the share is transferred with draws of one size, this size agrees. -/
theorem size_agrees_of_transfersShare (hmake : a.MakesReady make) (hblock : a.args.blockSize ≠ 0)
    (randAlgo : RandAlgo)
    (h : a.TransfersShare fun fuel => a.iterateRandWith workerRank ioDepth fuel
      (Stream'.const 0#64) (a.indexGens (Stream'.const 0#64))
      (make (Stream'.const randAlgo.head))) :
    a.randomShare ≤ a.numReads * (a.args.blockSizeMix.getNextSize randAlgo).1 ∧
      a.numReads * (a.args.blockSizeMix.getNextSize randAlgo).1 < Word64.size := by
  have hpos := Nat.pos_of_ne_zero hblock
  obtain ⟨gens, g, -, -, hready, halgo, hrun⟩ := exists_iterateRandWith_eq hmake workerRank ioDepth
    (Stream'.const 0#64) (Stream'.const randAlgo.head)
  obtain ⟨fuel, requests, hend, hge, hlt⟩ := h
  have hstart : a.AfterEqualReads randAlgo.head 0 ⟨0, Stream'.const 0#64, g, []⟩ :=
    ⟨hready, halgo, (Nat.zero_mul _).symm, by rw [Nat.zero_mul, Nat.zero_mod]⟩
  obtain ⟨n, hbytes, hdone⟩ := hstart.of_run hblock ((hrun fuel).symm.trans hend)
  rw [getNextSize_const] at hdone
  rw [hbytes] at hge hlt
  -- the bytes leave only one possible number of passes
  have hn : n = a.numReads := by
    have hle : a.numReads ≤ n := (numBlocks_le_iff hpos).mpr hge
    have hall : a.randomShare ≤ a.numReads * a.args.blockSize := (numBlocks_le_iff hpos).mp le_rfl
    by_contra hne
    have hmul := Nat.mul_le_mul_right a.args.blockSize (show a.numReads + 1 ≤ n by omega)
    rw [Nat.add_one_mul] at hmul
    omega
  subst hn
  have hmax := a.args.blockSize_eq hblock
  have hsize := a.args.blockSizeMix.le_getMaxSize (a.args.blockSizeMix.getNextSize_mem randAlgo)
  have hword := a.args.blockSizeMix.lt_of_mem a.args.blockSizeMix.getMaxSize_mem
  have hamount : a.randomShare < Word64.size :=
    lt_of_le_of_lt (Nat.div_le_self _ _) a.args.randomAmount_lt
  have hmul := Nat.mul_le_mul_left a.numReads hsize
  rw [← hmax] at hword hmul
  -- a sum that wraps around is below the share
  have hfit : a.numReads * (a.args.blockSizeMix.getNextSize randAlgo).1 < Word64.size := by
    by_contra hwrap
    rw [Nat.mod_eq_sub_mod (not_lt.mp hwrap), Nat.mod_eq_of_lt (by omega)] at hdone
    omega
  rw [Nat.mod_eq_of_lt hfit] at hdone
  exact ⟨hdone, hfit⟩

/-- If the share is transferred whatever is drawn, everything agrees. -/
theorem readsAgree_of_transfersShare (hmake : a.MakesReady make) (hblock : a.args.blockSize ≠ 0)
    (hshare : a.randomShare ≠ 0)
    (h : ∀ randIndexAlgo randOffsetAlgo, a.TransfersShare fun fuel =>
      a.iterateRandWith workerRank ioDepth fuel randIndexAlgo (a.indexGens randIndexAlgo)
        (make randOffsetAlgo)) :
    a.ReadsAgree workerRank := by
  have hpos := Nat.pos_of_ne_zero hblock
  have hmore : 0 < a.randomShare := Nat.pos_of_ne_zero hshare
  -- what the first pass needs, for any words of the algorithms
  have hfirst : ∀ dirIndex < a.numDirs, ∀ fileIndex < max 1 a.args.numFiles,
      a.interruptCheckBytes ≠ 0 ∧
        ¬ (a.args.blockSizeMix.isMix ∧ a.args.blockSizeMix.totalWeight = 0) ∧
        Fits (a.objectPath workerRank dirIndex fileIndex) := by
    intro dirIndex hdir fileIndex hfile
    obtain ⟨gens, g, hdirs, hfiles, hready, -, hrun⟩ := exists_iterateRandWith_eq hmake
      workerRank ioDepth
      (twoWords (BitVec.ofNat 64 dirIndex) (BitVec.ofNat 64 fileIndex)) (Stream'.const 0#64)
    obtain ⟨fuel, requests, hend, -, -⟩ := h _ _
    obtain ⟨next, hnext⟩ := exists_prepareRead_of_run hmore ((hrun fuel).symm.trans hend)
    obtain ⟨hinterrupt, hweight, hfits, -⟩ := prepareRead_eq_ok_iff.mp hnext
    obtain ⟨hdirIndex, hfileIndex⟩ := nextIndex_twoWords hdirs hfiles hdir hfile
    rw [hready.mix_eq] at hweight
    rw [hdirIndex, hfileIndex] at hfits
    exact ⟨hinterrupt, hweight, hfits⟩
  obtain ⟨hinterrupt, hweight, -⟩ := hfirst 0 a.numDirs_pos 0 (by omega)
  have hsize := fun randAlgo : RandAlgo =>
    size_agrees_of_transfersShare hmake hblock randAlgo (h _ _)
  exact ⟨hinterrupt, hweight, fun d hd f hf => (hfirst d hd f hf).2.2,
    fun randAlgo => (hsize randAlgo).1, fun randAlgo => (hsize randAlgo).2⟩

end Share

variable (a : ObjectArgs) (workerRank ioDepth : ℕ)

theorem makesReady_random :
    a.MakesReady fun randOffsetAlgo => OffsetGenRandom.make a.args.blockSize randOffsetAlgo
      a.args.fileSize 0 a.args.blockSizeMix := by
  intro randOffsetAlgo
  have hfit : 0 + a.args.fileSize < Word64.size := by
    rw [Nat.zero_add]
    exact a.args.fileSize_lt
  exact ⟨_, OffsetGenRandom.make_eq_ok hfit, ⟨rfl, rfl, rfl⟩, rfl⟩

theorem makesReady_randomAligned :
    a.MakesReady fun randOffsetAlgo => OffsetGenRandomAligned.make a.args.blockSize randOffsetAlgo
      a.args.fileSize 0 a.args.blockSizeMix := by
  intro randOffsetAlgo
  exact ⟨_, OffsetGenRandomAligned.make_eq_ok a.args.fileSize_lt, ⟨rfl, rfl, rfl⟩, rfl⟩

/-- **The bytes that a rank downloads with random selection of objects** are its share of the random
amount, up to less than a block, whatever is drawn, exactly if it has no share or everything
agrees. -/
theorem randomReads_transfer_share_iff (hblock : a.args.blockSize ≠ 0) :
    (∀ randIndexAlgo randOffsetAlgo, a.TransfersShare fun fuel =>
      a.s3ModeIterateObjectsRand workerRank ioDepth fuel randIndexAlgo randOffsetAlgo) ↔
      a.randomShare = 0 ∨ a.ReadsAgree workerRank := by
  have hboth : ∀ {G : Type} [RandomReadGen G] [LawfulRandomReadGen G]
      {make : RandAlgo → Except String G}, a.MakesReady make →
      ((∀ randIndexAlgo randOffsetAlgo, a.TransfersShare fun fuel =>
        a.iterateRandWith workerRank ioDepth fuel randIndexAlgo (a.indexGens randIndexAlgo)
        (make randOffsetAlgo)) ↔
        a.randomShare = 0 ∨ a.ReadsAgree workerRank) := by
    intro G _ _ make hmake
    constructor
    · intro h
      by_cases hshare : a.randomShare = 0
      · exact Or.inl hshare
      · exact Or.inr (readsAgree_of_transfersShare hmake hblock hshare h)
    · rintro hagree randIndexAlgo randOffsetAlgo
      by_cases hshare : a.randomShare = 0
      · exact transfersShare_of_zero hmake hblock hshare randIndexAlgo randOffsetAlgo
      · exact (hagree.resolve_left hshare).transfersShare hmake hblock hshare randIndexAlgo
          randOffsetAlgo
  unfold s3ModeIterateObjectsRand
  split_ifs
  · exact hboth a.makesReady_random
  · exact hboth a.makesReady_randomAligned

/-- Blocks of 32 KiB and of 64 KiB. -/
def mixedBlocks : BlockSizeMix where
  sizesAndWeights := [(32768, 1), (65536, 1)]
  ne_nil := List.cons_ne_nil _ _
  nodup := by decide
  size_pos := by decide
  size_lt := by decide
  weight_pos := by decide
  weight_lt := by decide

/-- 128 KiB in blocks of 64 KiB. -/
def equalReads : ObjectArgs :=
  fourObjects (.single 65536 Word64.block_pos Word64.block_lt_size) 131072
    Word64.twoBlocks_lt_size []

/-- 64 KiB in blocks of two sizes. -/
def mixedReads : ObjectArgs := fourObjects mixedBlocks 65536 Word64.block_lt_size []

/-- Blocks of one size, and streams of zeros. -/
theorem randomReads_transfer_share_iff_equalReads :
    equalReads.args.blockSize ≠ 0 ∧ equalReads.TransfersShare fun fuel =>
      equalReads.s3ModeIterateObjectsRand 0 1 fuel (Stream'.const 0#64) (Stream'.const 0#64) :=
  ⟨by decide, (randomReads_transfer_share_iff equalReads 0 1 (by decide)).mpr (Or.inr
    ⟨by decide, by decide, by decide,
      fun _ => show equalReads.randomShare ≤ equalReads.numReads * 65536 by decide,
      fun _ => show equalReads.numReads * 65536 < Word64.size by decide⟩) _ _⟩

/-- With a mix the amounts differ: two passes count 32 KiB each for a share of 64 KiB, and each of
them downloads 64 KiB. -/
theorem mixedReads_transfer_differs :
    mixedReads.randomShare = 65536 ∧ mixedReads.args.blockSize = 65536 ∧
      (mixedReads.s3ModeIterateObjectsRand 0 1 3 (Stream'.const 0#64) (Stream'.const 0#64)).bind
        (fun run => run.toOption.map numBytesOf) = some 131072 := by
  decide +kernel

end ObjectArgs

end Elbencho
