import Mathlib.Data.List.Sort
import Mtld3d.DirtyRect
import Mtld3d.Lib.Cover

namespace Mtld3d

open Lib

def bandReach (top bottom : ℕ) : ℕ → List DirtyRect → ℕ
  | reach, [] => reach
  | reach, r :: ordered =>
    if top < r.y ∨ r.y + r.h < bottom then bandReach top bottom reach ordered
    else if reach < r.x then reach
    else bandReach top bottom (max reach (r.x + r.w)) ordered

def bandsOf (rects : List DirtyRect) : List ℕ :=
  dedupAdjacent ((rects.flatMap fun r ↦ [r.y, r.y + r.h]).mergeSort fun a b ↦ decide (a ≤ b))

def sweep (bands : List ℕ) (ordered : List DirtyRect) (levelW levelH : ℕ) : Bool :=
  if bands.head? ≠ some 0 ∨ bands.getLast? ≠ some levelH then false
  else (windows bands).all fun band ↦ decide (levelW ≤ bandReach band.1 band.2 0 ordered)

def coversLevel (rects : List DirtyRect) (levelW levelH : ℕ) : Bool :=
  sweep (bandsOf rects) (rects.mergeSort fun r s ↦ decide (r.x ≤ s.x)) levelW levelH

def maxTrackedRects : ℕ := 32

def u64Max : ℕ := 18446744073709551615

inductive CoverageState
  | partially | full | untracked
  deriving DecidableEq, Repr

structure StagingCoverage where
  rects : List DirtyRect
  writtenArea : ℕ
  state : CoverageState
  deriving DecidableEq, Repr

namespace StagingCoverage

def new : StagingCoverage := ⟨[], 0, .partially⟩

variable (c : StagingCoverage)

def isFull : Bool := decide (c.state = .full)

def reset : StagingCoverage := ⟨[], 0, .partially⟩

def markFull : StagingCoverage := ⟨[], 0, .full⟩

def add (rect : DirtyRect) (levelW levelH : ℕ) : StagingCoverage :=
  match rect.clamp levelW levelH with
  | none => c
  | some rect =>
    if rect.x = 0 ∧ rect.y = 0 ∧ levelW ≤ rect.w ∧ levelH ≤ rect.h then markFull
    else if c.state ≠ .partially then c
    else if c.rects.any fun r ↦ r.contains rect then c
    else if maxTrackedRects ≤ c.rects.length then { c with rects := [], state := .untracked }
    else
      let rects := c.rects ++ [rect]
      let writtenArea := min (c.writtenArea + rect.w * rect.h) u64Max
      if levelW * levelH ≤ writtenArea ∧ coversLevel rects levelW levelH = true then markFull
      else ⟨rects, writtenArea, c.state⟩

inductive Call
  | add (rect : DirtyRect)
  | markFull
  | reset

def call (level : LevelExtent) (c : StagingCoverage) : Call → StagingCoverage
  | .add rect => c.add rect level.w level.h
  | .markFull => markFull
  | .reset => reset

def run (level : LevelExtent) (calls : List Call) : StagingCoverage := calls.foldl (call level) new

end StagingCoverage

end Mtld3d
