import Mtld3d.StampGrid
import Mtld3d.Lib.Table
import Mathlib.Data.Finset.Max
import Mathlib.Data.Finset.Sort
import Mathlib.Data.Prod.Lex

namespace Mtld3d

abbrev TextureId := ℕ

def spareMaxIdleSubmits : ℕ := 8

def versionPoolCeilingBytes : ℕ := 1073741824

def versionPoolWorkingSetDivisor : ℕ := 8

def versionPoolPressureQuarters : ℕ := 3

def stateMaxIdleSubmits : ℕ := 120

def minDestroysPerDrain : ℕ := 64

def destroySpreadDrains : ℕ := 8

structure VersionBudget where
  spareCap : ℕ
  pressureAbove : ℕ

namespace VersionBudget

def fromWorkingSet (workingSet : ℕ) : VersionBudget :=
  if workingSet = 0 then ⟨versionPoolCeilingBytes, 18446744073709551615⟩
  else
    let share := workingSet / versionPoolWorkingSetDivisor
    { spareCap := if share < versionPoolCeilingBytes then share else versionPoolCeilingBytes
      pressureAbove := workingSet / 4 * versionPoolPressureQuarters }

def resumeBelow (b : VersionBudget) : ℕ := b.pressureAbove - b.spareCap

end VersionBudget

def VersionShape.subresources (s : VersionShape) : List (ℕ × ℕ) :=
  (List.range s.slices).flatMap fun slice ↦ (List.range s.levels).map fun level ↦ (slice, level)

structure UploadFootprint where
  slice : ℕ
  level : ℕ
  fullCover : Bool
  deriving DecidableEq, Repr

/-- `region` is `none` for the whole level, every depth slice of a volume. -/
structure PreserveCopy where
  slice : ℕ
  level : ℕ
  region : Option TexelRect
  deriving DecidableEq, Repr

structure WriteHistory where
  slices : ℕ
  levels : ℕ
  writes : ℕ
  grids : List StampGrid

namespace WriteHistory

def new (shape : VersionShape) : WriteHistory where
  slices := shape.slices
  levels := shape.levels
  writes := 0
  grids := (List.range shape.slices).flatMap fun _ ↦ (List.range shape.levels).map fun level ↦
    .new (levelExtent shape.width level) (levelExtent shape.height level) shape.pixelFormat.blockLayout

def grid (h : WriteHistory) (slice level : ℕ) : Option StampGrid := h.grids[slice * h.levels + level]?

def noteWrite (h : WriteHistory) (slice level : ℕ) (rect : TexelRect) : WriteHistory :=
  { h with
    writes := h.writes + 1
    grids := h.grids.modify (slice * h.levels + level) fun g ↦ g.stamp rect (h.writes + 1) }

def noteMipRegeneration (h : WriteHistory) : WriteHistory :=
  { h with
    writes := h.writes + 1
    grids := h.grids.mapIdx fun i g ↦
      if i % max h.levels 1 = 0 then g else g.stamp (.level g.width g.height) (h.writes + 1) }

end WriteHistory

structure Spare (V : Type) where
  views : V
  heldWrites : Option ℕ
  parkedSeq : ℕ

structure Retiring (V : Type) where
  id : TextureId
  views : V
  seq : ℕ
  epoch : ℕ
  birthSeq : ℕ
  heldWrites : ℕ
  bytes : ℕ

def Retiring.spare {V : Type} (entry : Retiring V) (failed now : ℕ) : Spare V where
  views := entry.views
  heldWrites :=
    let aborted := failed ≠ 0 ∧ entry.birthSeq ≤ failed
    if aborted then none else some entry.heldWrites
  parkedSeq := now

/-- One tracked texture; its spares stand newest last. -/
structure VersionState (V : Type) where
  shape : VersionShape
  epoch : ℕ
  bytes : ℕ
  history : Option WriteHistory
  liveBirthSeq : ℕ
  lastRenameSeq : ℕ
  spares : List (Spare V)

def VersionState.new {V : Type} (shape : VersionShape) (epoch : ℕ) (recordsWrites : Bool) :
    VersionState V where
  shape
  epoch
  bytes := shape.bytes
  history := if recordsWrites then some (.new shape) else none
  liveBirthSeq := 0
  lastRenameSeq := 0
  spares := []

abbrev IdleEntry := ℕ ×ₗ TextureId ×ₗ ℕ

namespace IdleEntry

def new (seq : ℕ) (id : TextureId) (epoch : ℕ) : IdleEntry := toLex (seq, toLex (id, epoch))

def seq (e : IdleEntry) : ℕ := (ofLex e).1

def id (e : IdleEntry) : TextureId := (ofLex (ofLex e).2).1

def epoch (e : IdleEntry) : ℕ := (ofLex (ofLex e).2).2

@[simp] theorem seq_new (seq : ℕ) (id : TextureId) (epoch : ℕ) : (new seq id epoch).seq = seq := rfl

@[simp] theorem epoch_new (seq : ℕ) (id : TextureId) (epoch : ℕ) : (new seq id epoch).epoch = epoch := rfl

end IdleEntry

/-- The order in which a hash set hands out its members, a different one at every visit. -/
structure HashOrder where
  visit : Finset TextureId → List TextureId
  nodup_visit : ∀ s, (visit s).Nodup
  mem_visit : ∀ s id, id ∈ visit s ↔ id ∈ s

instance : Inhabited HashOrder := ⟨⟨fun s ↦ s.sort, fun s ↦ s.sort_nodup _, fun _ _ ↦ Finset.mem_sort _⟩⟩

/-- `V` is whatever the caller destroys or binds a version through. -/
structure TextureVersions (V : Type) where
  textures : Lib.Table TextureId (VersionState V)
  retiring : List (Retiring V)
  parkedBytes : ℕ
  doomed : List (V × ℕ)
  doomedBytes : ℕ
  doomedSinceTake : ℕ
  doomedArrivals : List ℕ
  arrivalSlot : ℕ
  nextEpoch : ℕ
  withSpares : Finset TextureId
  idle : Finset IdleEntry
  budget : VersionBudget
  pressed : Bool
  relieveBytes : ℕ

namespace TextureVersions

variable {V : Type}

def new (budget : VersionBudget) : TextureVersions V where
  textures := ∅
  retiring := []
  parkedBytes := 0
  doomed := []
  doomedBytes := 0
  doomedSinceTake := 0
  doomedArrivals := List.replicate destroySpreadDrains 0
  arrivalSlot := 0
  nextEpoch := 1
  withSpares := ∅
  idle := ∅
  budget
  pressed := false
  relieveBytes := 0

/-- Whether `takeSpare` starts a tracking state of its own. -/
def startsState (tv : TextureVersions V) (id : TextureId) (shape : VersionShape) : Bool :=
  match tv.textures.lookup id with
  | none => true
  | some state => state.shape != shape

def doomOldest (tv : TextureVersions V) (id : TextureId) (state : VersionState V) (count : ℕ) :
    Option (TextureVersions V) := do
  let parkedBytes ← checkedSub tv.parkedBytes (state.bytes * count)
  -- `drain(..count)` panics past the end.
  let _ ← checkedSub state.spares.length count
  some { tv with
    parkedBytes
    doomedBytes := tv.doomedBytes + state.bytes * count
    doomedSinceTake := tv.doomedSinceTake + count
    doomed := tv.doomed ++ (state.spares.take count).map fun spare ↦ (spare.views, state.bytes)
    textures := tv.textures.insert id { state with spares := state.spares.drop count } }

def entry (tv : TextureVersions V) (id : TextureId) (shape : VersionShape) (recordsWrites : Bool)
    (seq : ℕ) : Option (TextureVersions V × VersionState V) :=
  let epoch := tv.nextEpoch
  let started (tv : TextureVersions V) : TextureVersions V × VersionState V :=
    ({ tv with
        nextEpoch := epoch + 1
        idle := insert (.new seq id epoch) tv.idle },
      .new shape epoch recordsWrites)
  match tv.textures.lookup id with
  | none => some (started tv)
  | some state =>
    if state.shape != shape then (tv.doomOldest id state state.spares.length).map started
    else some (tv, state)

def takeSpare (tv : TextureVersions V) (id : TextureId) (shape : VersionShape) (recordsWrites : Bool)
    (seq : ℕ) : Option (TextureVersions V × Option (Spare V)) := do
  let (tv, state) ← tv.entry id shape recordsWrites seq
  let spare := state.spares.getLast?
  let parkedBytes ← if spare.isSome then checkedSub tv.parkedBytes state.bytes else some tv.parkedBytes
  let spares := state.spares.dropLast
  some ({ tv with
      textures := tv.textures.insert id { state with lastRenameSeq := seq, spares }
      parkedBytes
      withSpares := if spares.isEmpty then tv.withSpares.erase id else tv.withSpares },
    spare)

/-- The outer `none` is a panic: an underflow, or a slice and level the history has no grid of. -/
def planCopy (since : Option (WriteHistory × ℕ)) (upload : UploadFootprint) (slice level : ℕ) :
    Option (Option PreserveCopy) :=
  if slice = upload.slice ∧ level = upload.level ∧ upload.fullCover then some none
  else match since with
    | none => some (some ⟨slice, level, none⟩)
    | some (history, held) => do
      let grid ← history.grid slice level
      let written ← grid.writtenSince held
      some (written.map fun dirty ↦
        ⟨slice, level, if dirty ≠ .level grid.width grid.height then some dirty else none⟩)

/-- `history.zip(held_writes)`: the history and what a version holds of it, when both are known. -/
def since (tv : TextureVersions V) (id : TextureId) (heldWrites : Option ℕ) : Option (WriteHistory × ℕ) := do
  let history ← (tv.textures.lookup id).bind VersionState.history
  let held ← heldWrites
  some (history, held)

def preservePlan (tv : TextureVersions V) (id : TextureId) (shape : VersionShape)
    (heldWrites : Option ℕ) (upload : UploadFootprint) : Option (List PreserveCopy) :=
  (shape.subresources.mapM fun sub ↦ planCopy (tv.since id heldWrites) upload sub.1 sub.2).map
    List.reduceOption

def retire (tv : TextureVersions V) (id : TextureId) (views : V) (seq : ℕ) : TextureVersions V :=
  match tv.textures.lookup id with
  | none => { tv with retiring := tv.retiring ++ [⟨id, views, seq, 0, 0, 0, 0⟩] }
  | some state =>
    { tv with
      textures := tv.textures.insert id { state with liveBirthSeq := seq }
      retiring := tv.retiring ++ [{
        id, views, seq
        epoch := state.epoch
        birthSeq := state.liveBirthSeq
        heldWrites := (state.history.map WriteHistory.writes).getD 0
        bytes := state.bytes }] }

def noteWrite (tv : TextureVersions V) (id : TextureId) (slice level : ℕ) (rect : TexelRect) :
    TextureVersions V :=
  match tv.textures.lookup id with
  | none => tv
  | some state =>
    match state.history with
    | none => tv
    | some history =>
      let history :=
        if slice ≥ history.slices ∨ level ≥ history.levels then none
        else some (history.noteWrite slice level rect)
      { tv with textures := tv.textures.insert id { state with history } }

def noteMipRegeneration (tv : TextureVersions V) (id : TextureId) : TextureVersions V :=
  match tv.textures.lookup id with
  | none => tv
  | some state =>
    { tv with
      textures := tv.textures.insert id
        { state with history := state.history.map WriteHistory.noteMipRegeneration } }

def popRetired (tv : TextureVersions V) (settled : ℕ) : TextureVersions V × Option (Retiring V) :=
  match tv.retiring with
  | [] => (tv, none)
  | front :: rest => if front.seq > settled then (tv, none) else ({ tv with retiring := rest }, some front)

def doom (tv : TextureVersions V) (views : V) (bytes : ℕ) : TextureVersions V :=
  { tv with
    doomedBytes := tv.doomedBytes + bytes
    doomedSinceTake := tv.doomedSinceTake + 1
    doomed := tv.doomed ++ [(views, bytes)] }

def park (tv : TextureVersions V) (entry : Retiring V) (failed now : ℕ) : TextureVersions V :=
  match tv.textures.lookup entry.id with
  | none => tv.doom entry.views entry.bytes
  | some state =>
    if state.epoch ≠ entry.epoch then tv.doom entry.views entry.bytes
    else if tv.pressed then tv.doom entry.views state.bytes
    else if tv.parkedBytes + state.bytes > tv.budget.spareCap then tv.doom entry.views state.bytes
    else
      { tv with
        parkedBytes := tv.parkedBytes + state.bytes
        withSpares := if state.spares.isEmpty then insert entry.id tv.withSpares else tv.withSpares
        textures := tv.textures.insert entry.id { state with
          spares := state.spares ++ [entry.spare failed now] } }

def giveBack (tv : TextureVersions V) (id : TextureId) (state : VersionState V) (count : ℕ) :
    Option (TextureVersions V) := do
  let tv ← tv.doomOldest id state count
  some { tv with
    withSpares := if (state.spares.drop count).isEmpty then tv.withSpares.erase id else tv.withSpares }

def spareAges (tv : TextureVersions V) (order : HashOrder) : List (ℕ × TextureId × ℕ) :=
  (order.visit tv.withSpares).flatMap fun id ↦
    match tv.textures.lookup id with
    | none => []
    | some state => state.spares.map fun spare ↦ (spare.parkedSeq, id, state.bytes)

def countOldest (excess : ℕ) : List (ℕ × TextureId × ℕ) → ℕ → (TextureId → ℕ) → TextureId → ℕ
  | [], _, counts => counts
  | (_, id, bytes) :: rest, freed, counts =>
    if freed ≥ excess then counts
    else countOldest excess rest (freed + bytes) (Function.update counts id (counts id + 1))

def relieve (tv : TextureVersions V) (order : HashOrder) : Option (TextureVersions V) :=
  -- Entries of one key are equal, so the unstable sort leaves nothing open.
  let oldest := (tv.spareAges order).insertionSort fun a b ↦ a.1 < b.1 ∨ a.1 = b.1 ∧ a.2.1 ≤ b.2.1
  let counts := countOldest tv.relieveBytes oldest tv.doomedBytes fun _ ↦ 0
  (order.visit (tv.withSpares.filter fun id ↦ counts id ≠ 0)).foldlM (fun tv id ↦
    match tv.textures.lookup id with
    | none => some tv
    | some state => tv.giveBack id state (counts id)) tv

def noteAllocated (tv : TextureVersions V) (allocated : ℕ) (order : HashOrder) : Option (TextureVersions V) :=
  let tv := { tv with
    relieveBytes := allocated - tv.budget.pressureAbove
    pressed :=
      if tv.pressed then decide (allocated ≥ tv.budget.resumeBelow)
      else decide (allocated > tv.budget.pressureAbove) }
  if tv.relieveBytes = 0 then some tv
  else if tv.doomedBytes ≥ tv.relieveBytes then some tv
  else tv.relieve order

def coverExcess (relieveBytes : ℕ) : List (V × ℕ) → ℕ → ℕ → ℕ
  | [], _, batch => batch
  | (_, bytes) :: rest, covered, batch =>
    if covered < relieveBytes then coverExcess relieveBytes rest (covered + bytes) (batch + 1) else batch

def takeDoomed (tv : TextureVersions V) : Option (TextureVersions V × List V) := do
  let doomedArrivals := tv.doomedArrivals.set tv.arrivalSlot tv.doomedSinceTake
  let rate := divCeil doomedArrivals.sum destroySpreadDrains
  let batch := min (max minDestroysPerDrain (rate + divCeil tv.doomed.length destroySpreadDrains))
    tv.doomed.length
  let covered := ((tv.doomed.take batch).map Prod.snd).sum
  let batch := coverExcess tv.relieveBytes (tv.doomed.drop batch) covered batch
  let doomedBytes ← (tv.doomed.take batch).foldlM (fun left d ↦ checkedSub left d.2) tv.doomedBytes
  some ({ tv with
      doomedArrivals
      arrivalSlot := (tv.arrivalSlot + 1) % destroySpreadDrains
      doomedSinceTake := 0
      relieveBytes := 0
      doomed := tv.doomed.drop batch
      doomedBytes },
    (tv.doomed.take batch).map Prod.fst)

def spareAged (now seq : ℕ) : Bool := decide (seq + spareMaxIdleSubmits < now)

def agedAt (now seq : ℕ) : Bool := decide (seq + stateMaxIdleSubmits < now)

theorem agedAt_self (now : ℕ) : agedAt now now = false := decide_eq_false (by omega)

/-- One visit of the `retain` over the textures with spares. -/
def trimSpares (now : ℕ) (tv : TextureVersions V) (id : TextureId) : Option (TextureVersions V) :=
  match tv.textures.lookup id with
  | none => some { tv with withSpares := tv.withSpares.erase id }
  | some state =>
    tv.giveBack id state (state.spares.takeWhile fun spare ↦ spareAged now spare.parkedSeq).length

def visitIdle (now : ℕ) (tv : TextureVersions V) (e : IdleEntry) : TextureVersions V :=
  let tv := { tv with idle := tv.idle.erase e }
  match tv.textures.lookup e.id with
  | none => tv
  | some state =>
    if state.epoch ≠ e.epoch then tv
    else if agedAt now state.lastRenameSeq ∧ state.spares.isEmpty then
      { tv with textures := tv.textures.erase e.id }
    else
      let again := if agedAt now state.lastRenameSeq then now else state.lastRenameSeq
      { tv with idle := insert (.new again e.id e.epoch) tv.idle }

def firstIdle (tv : TextureVersions V) : Option IdleEntry := tv.idle.min

theorem firstIdle_mem {tv : TextureVersions V} {e : IdleEntry} (h : tv.firstIdle = some e) : e ∈ tv.idle :=
  Finset.mem_of_min h

def due (now : ℕ) (tv : TextureVersions V) : Finset IdleEntry := tv.idle.filter fun e ↦ agedAt now e.seq

theorem due_visitIdle (now : ℕ) (tv : TextureVersions V) (e : IdleEntry) :
    (tv.visitIdle now e).due now = (tv.due now).erase e := by
  have herase : (tv.idle.erase e).filter (fun e ↦ agedAt now e.seq) = (tv.due now).erase e :=
    Finset.filter_erase _ _ _
  unfold visitIdle
  dsimp only
  split
  · exact herase
  · split_ifs with hepoch hdrop hold
    · exact herase
    · exact herase
    · rw [due, Finset.filter_insert, if_neg (by rw [IdleEntry.seq_new, agedAt_self]; exact Bool.false_ne_true)]
      exact herase
    · rw [due, Finset.filter_insert, if_neg (by simpa using hold)]
      exact herase

def trimIdle (now : ℕ) (tv : TextureVersions V) : TextureVersions V :=
  match h : tv.firstIdle with
  | none => tv
  | some e => if hdue : agedAt now e.seq then trimIdle now (tv.visitIdle now e) else tv
termination_by (tv.due now).card
decreasing_by
  rw [due_visitIdle]
  exact Finset.card_erase_lt_of_mem (Finset.mem_filter.mpr ⟨firstIdle_mem h, hdue⟩)

def trim (tv : TextureVersions V) (now : ℕ) (order : HashOrder) : Option (TextureVersions V) := do
  let tv ← (order.visit tv.withSpares).foldlM (trimSpares now) tv
  some (tv.trimIdle now)

def forgetTexture (tv : TextureVersions V) (id : TextureId) : Option (TextureVersions V) :=
  match tv.textures.lookup id with
  | none => some tv
  | some state => do
    let parkedBytes ← checkedSub tv.parkedBytes (state.bytes * state.spares.length)
    let tv := { tv with
      textures := tv.textures.erase id
      withSpares := tv.withSpares.erase id
      parkedBytes }
    some (state.spares.foldl (fun tv spare ↦ tv.doom spare.views state.bytes) tv)

def drainSpares (acc : TextureVersions V × List V) (id : TextureId) : TextureVersions V × List V :=
  match acc.1.textures.lookup id with
  | none => acc
  | some state =>
    ({ acc.1 with textures := acc.1.textures.insert id { state with spares := [] } },
      acc.2 ++ state.spares.map Spare.views)

def drainQueues (tv : TextureVersions V) : TextureVersions V :=
  { tv with
    retiring := []
    doomed := []
    doomedBytes := 0
    doomedSinceTake := 0
    doomedArrivals := List.replicate destroySpreadDrains 0
    withSpares := ∅ }

def drainVersions (tv : TextureVersions V) (order : HashOrder) : TextureVersions V × List V :=
  let all := tv.retiring.map Retiring.views ++ tv.doomed.map Prod.fst
  let drained := (order.visit tv.withSpares).foldl drainSpares (tv.drainQueues, all)
  ({ drained.1 with parkedBytes := 0 }, drained.2)

end TextureVersions

end Mtld3d
