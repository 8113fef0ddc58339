import Elbencho.Library.Transition
import Elbencho.OffsetGen.FullCoverage

/-!
# The draws of a generator

A worker holds its generator behind a pointer to the base class.  `AnyOffsetGen` is that
pointer: one of the generators, with the methods dispatched to it.

`Drawn ok g io` says that a loop which starts with the generator `g` gets to the draw
`io` of an offset and a size, if the results of the I/Os before meet the condition `ok`.
`FullResult` is the condition that every I/O was done in full; `AnyResult` lets an I/O
be short.  `Drawn.invariant` is the rule for statements about all draws.
-/

namespace Elbencho

open Transition

/-! ## Loops -/

namespace OffsetGenerator

variable {G : Type*} [OffsetGenerator G]

/-- One pass of a loop: draw, and account the result of the I/O. -/
def account (g : G) (numBytes : ℕ) : Option G :=
  if getNumBytesLeftToSubmit g ≠ 0 then some (addBytesSubmitted (draw g).2 numBytes) else none

/-- The I/O was done in full or in part. -/
def AnyResult (g : G) (numBytes : ℕ) : Prop := numBytes ≤ (draw g).1.2

/-- The I/O was done in full. -/
def FullResult (g : G) (numBytes : ℕ) : Prop := numBytes = (draw g).1.2

/-- A loop that starts with the generator `g` comes to the draw `io`. -/
def Drawn (ok : G → ℕ → Prop) (g : G) (io : ℕ × ℕ) : Prop :=
  ∃ g', Reach account ok g g' ∧ getNumBytesLeftToSubmit g' ≠ 0 ∧ (draw g').1 = io

variable {ok : G → ℕ → Prop} {g : G} {io : ℕ × ℕ}

/-- The first draw. -/
theorem Drawn.first (hleft : getNumBytesLeftToSubmit g ≠ 0) : Drawn ok g (draw g).1 :=
  ⟨g, Reach.refl g, hleft, rfl⟩

theorem Drawn.weaken {ok' : G → ℕ → Prop} (himp : ∀ g n, ok g n → ok' g n) (h : Drawn ok g io) :
    Drawn ok' g io := by
  obtain ⟨g', hreach, hleft, hdraw⟩ := h
  exact ⟨g', hreach.weaken himp, hleft, hdraw⟩

theorem FullResult.any {n : ℕ} (h : FullResult g n) : AnyResult g n := le_of_eq h

/-- **The rule for all draws.**  Every draw of a loop comes from a generator that has
what the first one has and every pass keeps. -/
theorem Drawn.invariant {Inv : G → Prop} (h : Drawn ok g io) (hg : Inv g)
    (hstep : ∀ g n, Inv g → getNumBytesLeftToSubmit g ≠ 0 → ok g n →
      Inv (addBytesSubmitted (draw g).2 n)) :
    ∃ g', Inv g' ∧ getNumBytesLeftToSubmit g' ≠ 0 ∧ (draw g').1 = io := by
  obtain ⟨g', hreach, hleft, hdraw⟩ := h
  refine ⟨g', hreach.invariant hg fun u n v hu hok hv => ?_, hleft, hdraw⟩
  rw [account] at hv
  split_ifs at hv with hu'
  obtain rfl := Option.some.inj hv
  exact hstep u n hu hu' hok

end OffsetGenerator

/-! ## The base class -/

/-- A generator of one of the classes. -/
inductive AnyOffsetGen where
  | sequential (g : OffsetGenSequential)
  | reverseSeq (g : OffsetGenReverseSeq)
  | random (g : OffsetGenRandom)
  | randomAligned (g : OffsetGenRandomAligned)
  | fullCoverage (g : OffsetGenRandomAlignedFullCoverageV2)
  | strided (g : OffsetGenStrided)

namespace AnyOffsetGen

open OffsetGenerator

instance : OffsetGenerator AnyOffsetGen where
  getNextOffset
    | sequential g => (getNextOffset g).map id sequential
    | reverseSeq g => (getNextOffset g).map id reverseSeq
    | random g => (getNextOffset g).map id random
    | randomAligned g => (getNextOffset g).map id randomAligned
    | fullCoverage g => (getNextOffset g).map id fullCoverage
    | strided g => (getNextOffset g).map id strided
  getNextBlockSizeToSubmit
    | sequential g => (getNextBlockSizeToSubmit g).map id sequential
    | reverseSeq g => (getNextBlockSizeToSubmit g).map id reverseSeq
    | random g => (getNextBlockSizeToSubmit g).map id random
    | randomAligned g => (getNextBlockSizeToSubmit g).map id randomAligned
    | fullCoverage g => (getNextBlockSizeToSubmit g).map id fullCoverage
    | strided g => (getNextBlockSizeToSubmit g).map id strided
  getNumBytesTotal
    | sequential g => getNumBytesTotal g
    | reverseSeq g => getNumBytesTotal g
    | random g => getNumBytesTotal g
    | randomAligned g => getNumBytesTotal g
    | fullCoverage g => getNumBytesTotal g
    | strided g => getNumBytesTotal g
  getNumBytesLeftToSubmit
    | sequential g => getNumBytesLeftToSubmit g
    | reverseSeq g => getNumBytesLeftToSubmit g
    | random g => getNumBytesLeftToSubmit g
    | randomAligned g => getNumBytesLeftToSubmit g
    | fullCoverage g => getNumBytesLeftToSubmit g
    | strided g => getNumBytesLeftToSubmit g
  addBytesSubmitted
    | sequential g, n => sequential (addBytesSubmitted g n)
    | reverseSeq g, n => reverseSeq (addBytesSubmitted g n)
    | random g, n => random (addBytesSubmitted g n)
    | randomAligned g, n => randomAligned (addBytesSubmitted g n)
    | fullCoverage g, n => fullCoverage (addBytesSubmitted g n)
    | strided g, n => strided (addBytesSubmitted g n)

/-- The methods of a class are those of the generators behind the pointer. -/
structure Dispatches {G : Type*} [OffsetGenerator G] (toAny : G → AnyOffsetGen) : Prop where
  getNextOffset_eq : ∀ g, getNextOffset (toAny g) = (getNextOffset g).map id toAny
  getNextBlockSizeToSubmit_eq :
    ∀ g, getNextBlockSizeToSubmit (toAny g) = (getNextBlockSizeToSubmit g).map id toAny
  getNumBytesLeftToSubmit_eq : ∀ g, getNumBytesLeftToSubmit (toAny g) = getNumBytesLeftToSubmit g
  addBytesSubmitted_eq : ∀ g n, addBytesSubmitted (toAny g) n = toAny (addBytesSubmitted g n)

theorem dispatches_sequential : Dispatches sequential :=
  ⟨fun _ => rfl, fun _ => rfl, fun _ => rfl, fun _ _ => rfl⟩

theorem dispatches_reverseSeq : Dispatches reverseSeq :=
  ⟨fun _ => rfl, fun _ => rfl, fun _ => rfl, fun _ _ => rfl⟩

theorem dispatches_random : Dispatches random :=
  ⟨fun _ => rfl, fun _ => rfl, fun _ => rfl, fun _ _ => rfl⟩

theorem dispatches_randomAligned : Dispatches randomAligned :=
  ⟨fun _ => rfl, fun _ => rfl, fun _ => rfl, fun _ _ => rfl⟩

theorem dispatches_fullCoverage : Dispatches fullCoverage :=
  ⟨fun _ => rfl, fun _ => rfl, fun _ => rfl, fun _ _ => rfl⟩

theorem dispatches_strided : Dispatches strided :=
  ⟨fun _ => rfl, fun _ => rfl, fun _ => rfl, fun _ _ => rfl⟩

section Dispatch

variable {G : Type*} [OffsetGenerator G] {toAny : G → AnyOffsetGen}

theorem Dispatches.draw_eq (h : Dispatches toAny) (g : G) :
    draw (toAny g) = ((draw g).1, toAny (draw g).2) := by
  unfold draw
  rw [h.getNextOffset_eq]
  show ((_, (getNextBlockSizeToSubmit (toAny (getNextOffset g).2)).1),
    (getNextBlockSizeToSubmit (toAny (getNextOffset g).2)).2) = _
  rw [h.getNextBlockSizeToSubmit_eq]
  rfl

theorem Dispatches.submitDraw_eq (h : Dispatches toAny) (g : G) :
    submitDraw (toAny g) = toAny (submitDraw g) := by
  unfold submitDraw
  rw [h.draw_eq, h.addBytesSubmitted_eq]

/-- The draws behind the pointer are the draws of the generator. -/
theorem Dispatches.drawn (h : Dispatches toAny) {ok : AnyOffsetGen → ℕ → Prop} {ok' : G → ℕ → Prop}
    (hok : ∀ g n, ok (toAny g) n → ok' g n) {g : G} {io : ℕ × ℕ} (hdrawn : Drawn ok (toAny g) io) :
    Drawn ok' g io := by
  have hinv : ∃ any, (∃ g', any = toAny g' ∧ Reach account ok' g g') ∧
      getNumBytesLeftToSubmit any ≠ 0 ∧ (draw any).1 = io := by
    refine hdrawn.invariant ⟨g, rfl, Reach.refl g⟩ ?_
    rintro _ n ⟨g', rfl, hreach⟩ hleft hn
    rw [h.getNumBytesLeftToSubmit_eq] at hleft
    refine ⟨addBytesSubmitted (draw g').2 n, ?_, hreach.tail (hok g' n hn) (if_pos hleft)⟩
    rw [h.draw_eq, h.addBytesSubmitted_eq]
  obtain ⟨_, ⟨g', rfl, hreach⟩, hleft, hdraw⟩ := hinv
  rw [h.getNumBytesLeftToSubmit_eq] at hleft
  rw [h.draw_eq] at hdraw
  exact ⟨g', hreach, hleft, hdraw⟩

/-- The draws of the generator are draws behind the pointer. -/
theorem Dispatches.drawn_any (h : Dispatches toAny) {g : G} {io : ℕ × ℕ}
    (hdrawn : Drawn AnyResult g io) : Drawn AnyResult (toAny g) io := by
  have hinv : ∃ g', Reach account AnyResult (toAny g) (toAny g') ∧
      getNumBytesLeftToSubmit g' ≠ 0 ∧ (draw g').1 = io := by
    refine hdrawn.invariant (Reach.refl _) ?_
    intro g' n hreach hleft hn
    refine hreach.tail (show AnyResult (toAny g') n from ?_) ?_
    · unfold AnyResult
      rw [h.draw_eq]
      exact hn
    · rw [account, h.getNumBytesLeftToSubmit_eq, if_pos hleft, h.draw_eq, h.addBytesSubmitted_eq]
  obtain ⟨g', hreach, hleft, hdraw⟩ := hinv
  refine ⟨toAny g', hreach, ?_, ?_⟩
  · rw [h.getNumBytesLeftToSubmit_eq]
    exact hleft
  · rw [h.draw_eq]
    exact hdraw

theorem Dispatches.anyResult (h : Dispatches toAny) {g : G} {n : ℕ}
    (hn : AnyResult (toAny g) n) : AnyResult g n := by
  unfold AnyResult at hn
  rwa [h.draw_eq] at hn

theorem Dispatches.fullResult (h : Dispatches toAny) {g : G} {n : ℕ}
    (hn : FullResult (toAny g) n) : FullResult g n := by
  unfold FullResult at hn
  rwa [h.draw_eq] at hn

end Dispatch

end AnyOffsetGen

end Elbencho
