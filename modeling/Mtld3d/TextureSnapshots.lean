import Mtld3d.TextureVersionsLedger
import Mtld3d.Lib.Memory

namespace Mtld3d

open Function

/-- A texture object: the one a texture was created with, or one allocated for a rename. -/
inductive Version
  | created (id : TextureId)
  | allocated (n : ℕ)
  deriving DecidableEq

structure Texel where
  slice : ℕ
  level : ℕ
  x : ℕ
  y : ℕ
  z : ℕ
  deriving DecidableEq

namespace Texel

structure In (t : Texel) (shape : VersionShape) : Prop where
  slice_lt : t.slice < shape.slices
  level_lt : t.level < shape.levels
  x_lt : t.x < levelExtent shape.width t.level
  y_lt : t.y < levelExtent shape.height t.level
  z_lt : t.z < if shape.flags.type3d then levelExtent shape.depth t.level else 1

def CoveredBy (t : Texel) (upload : UploadFootprint) : Prop :=
  upload.fullCover = true ∧ t.slice = upload.slice ∧ t.level = upload.level

instance (t : Texel) (upload : UploadFootprint) : Decidable (t.CoveredBy upload) :=
  inferInstanceAs (Decidable (_ ∧ _))

end Texel

def PreserveCopy.Reaches (c : PreserveCopy) (t : Texel) : Prop :=
  t.slice = c.slice ∧ t.level = c.level ∧ ∀ r ∈ c.region, r.Covers t.x t.y

instance (c : PreserveCopy) (t : Texel) : Decidable (c.Reaches t) := inferInstanceAs (Decidable (_ ∧ _))

/-- What an upload writes: a rectangle of a level, with texels of the application's choosing. -/
structure Upload (α : Type) where
  rect : TexelRect
  texels : Texel → α

/-- The pool, the texture objects it hands around, and the submission each was made live in. -/
structure Snapshots (α : Type) where
  pool : TextureVersions Version
  live : TextureId → Version
  memory : Version → Texel → α
  allocated : ℕ
  hands : List (Retiring Version)
  bornAt : Version → ℕ

namespace Snapshots

variable {α : Type}

def new (budget : VersionBudget) (memory : Version → Texel → α) : Snapshots α where
  pool := .new budget
  live := .created
  memory
  allocated := 0
  hands := []
  bornAt := fun _ ↦ 0

def preserve (plan : List PreserveCopy) (source target : Texel → α) : Texel → α :=
  Lib.writeAll (plan.map fun c t ↦ if c.Reaches t then some (source t) else none) target

/-- `rename_sampled_texture`: a spare or a fresh object, the preserve copies, and the retirement. -/
def rename (s : Snapshots α) (id : TextureId) (shape : VersionShape) (recordsWrites : Bool) (seq : ℕ)
    (upload : UploadFootprint) : Option (Snapshots α) := do
  let (pool, spare) ← s.pool.takeSpare id shape recordsWrites seq
  let target := (spare.map Spare.views).getD (.allocated s.allocated)
  let plan ← pool.preservePlan id shape (spare.bind Spare.heldWrites) upload
  some { s with
    pool := pool.retire id (s.live id) seq
    live := update s.live id target
    memory := update s.memory target (preserve plan (s.memory (s.live id)) (s.memory target))
    allocated := if spare.isSome then s.allocated else s.allocated + 1
    bornAt := update s.bornAt target seq }

def write (s : Snapshots α) (id : TextureId) (slice level : ℕ) (upload : Upload α) : Snapshots α :=
  { s with
    pool := s.pool.noteWrite id slice level upload.rect
    memory := update s.memory (s.live id) fun t ↦
      if t.slice = slice ∧ t.level = level ∧ upload.rect.Covers t.x t.y then upload.texels t
      else s.memory (s.live id) t }

def regenerate (s : Snapshots α) (id : TextureId) (texels : Texel → α) : Snapshots α :=
  { s with
    pool := s.pool.noteMipRegeneration id
    memory := update s.memory (s.live id) fun t ↦
      if t.level = 0 then s.memory (s.live id) t else texels t }

def park (s : Snapshots α) (popped failed now : ℕ) (garbled : Texel → α) : Snapshots α :=
  match s.hands[popped]? with
  | none => s
  | some entry =>
    { s with
      pool := s.pool.park entry failed now
      hands := s.hands.eraseIdx popped
      memory :=
        if failed ≠ 0 ∧ s.bornAt entry.views ≤ failed then update s.memory entry.views garbled
        else s.memory }

inductive Op (α : Type)
  /-- A rename and the upload it was made for, unless that upload declines. -/
  | rename (id : TextureId) (shape : VersionShape) (recordsWrites : Bool) (seq : ℕ)
      (footprint : UploadFootprint) (upload : Option (Upload α))
  /-- A rename that took a spare and then found nothing to rename. -/
  | abandon (id : TextureId) (shape : VersionShape) (recordsWrites : Bool) (seq : ℕ)
  | write (id : TextureId) (slice level : ℕ) (upload : Upload α)
  | regenerate (id : TextureId) (texels : Texel → α)
  | popRetired (settled : ℕ)
  | park (popped failed now : ℕ) (garbled : Texel → α)
  | noteAllocated (bytes : ℕ) (order : HashOrder)
  | takeDoomed
  | trim (now : ℕ) (order : HashOrder)
  /-- The texture is released; one that comes back under its id has an object of its own. -/
  | forgetTexture (id : TextureId)
  | drainVersions (order : HashOrder)

def step (s : Snapshots α) : Op α → Option (Snapshots α)
  | .rename id shape recordsWrites seq footprint upload => do
    let s ← s.rename id shape recordsWrites seq footprint
    some (match upload with
      | none => s
      | some upload => s.write id footprint.slice footprint.level upload)
  | .abandon id shape recordsWrites seq => do
    let (pool, _) ← s.pool.takeSpare id shape recordsWrites seq
    some { s with pool }
  | .write id slice level upload => some (s.write id slice level upload)
  | .regenerate id texels => some (s.regenerate id texels)
  | .popRetired settled =>
    some { s with
      pool := (s.pool.popRetired settled).1
      hands := s.hands ++ (s.pool.popRetired settled).2.toList }
  | .park popped failed now garbled => some (s.park popped failed now garbled)
  | .noteAllocated bytes order => do
    let pool ← s.pool.noteAllocated bytes order
    some { s with pool }
  | .takeDoomed => do
    let (pool, _) ← s.pool.takeDoomed
    some { s with pool }
  | .trim now order => do
    let pool ← s.pool.trim now order
    some { s with pool }
  | .forgetTexture id => do
    let pool ← s.pool.forgetTexture id
    some { s with
      pool
      live := update s.live id (.allocated s.allocated)
      allocated := s.allocated + 1 }
  | .drainVersions order => some { s with pool := (s.pool.drainVersions order).1 }

def run (budget : VersionBudget) (memory : Version → Texel → α) (ops : List (Op α)) : Option (Snapshots α) :=
  ops.foldlM step (new budget memory)

end Snapshots

end Mtld3d
