import Mathlib.Algebra.Order.BigOperators.Group.Multiset
import Mathlib.Data.Fintype.BigOperators
import Mtld3d.StampGrid

namespace Mtld3d

open Function

def pageSize : ℕ := 16384

def maxPoolClasses : ℕ := 256

def stagingShareDivisor : ℕ := 4

/-- A `usize` addition that panics on overflow. -/
def PointerWidth.add (t : PointerWidth) (a b : ℕ) : Option ℕ :=
  if a + b ≤ t.usizeMax then some (a + b) else none

variable {t : PointerWidth}

theorem PointerWidth.add_of_le {a b : ℕ} (h : a + b ≤ t.usizeMax) : t.add a b = some (a + b) :=
  if_pos h

/-- The memory behind a page box: where it is, its padded length, and whether this process allocated it. -/
structure Allocation where
  id : ℕ
  len : ℕ
  nativeOwned : Bool
  deriving DecidableEq, Repr

structure PageBox extends Allocation where
  logicalLen : ℕ
  deriving DecidableEq, Repr

namespace PageBox

def pages (logicalLen : ℕ) : ℕ := (max logicalLen 1 + (pageSize - 1)) / pageSize

/-- `padded_len`, which panics when the rounded length leaves `usize`. -/
def paddedLen (t : PointerWidth) (logicalLen : ℕ) : Option ℕ :=
  if pages logicalLen * pageSize ≤ t.usizeMax then some (pages logicalLen * pageSize) else none

/-- `try_layout_for`: the padded length, when it fits `usize` and an allocation's layout. -/
def tryLayoutFor (t : PointerWidth) (logicalLen : ℕ) : Option ℕ := do
  let padded ← paddedLen t logicalLen
  if padded ≤ t.isizeMax - (pageSize - 1) then some padded else none

theorem pages_pos (logicalLen : ℕ) : 0 < pages logicalLen := by
  unfold pages pageSize
  omega

theorem paddedLen_of_le {n : ℕ} (h : pages n * pageSize ≤ t.usizeMax) :
    paddedLen t n = some (pages n * pageSize) :=
  if_pos h

theorem tryLayoutFor_eq {n padded : ℕ} (h : tryLayoutFor t n = some padded) : padded = pages n * pageSize := by
  simp only [tryLayoutFor, paddedLen, Option.bind_eq_bind, Option.bind_eq_some_iff,
    Option.ite_none_right_eq_some, Option.some.injEq] at h
  obtain ⟨_, ⟨_, rfl⟩, _, rfl⟩ := h
  rfl

end PageBox

inductive LaneKind
  | buffer
  | staging
  deriving DecidableEq, Repr

/-- One lane: a stack of parked boxes per page count, the most recently parked first. -/
structure PoolLane where
  classes : Fin maxPoolClasses → List PageBox
  bytes : ℕ

namespace PoolLane

def new : PoolLane := ⟨fun _ ↦ [], 0⟩

@[irreducible]
def boxes (lane : PoolLane) : Multiset PageBox := ∑ c, (lane.classes c : Multiset PageBox)

end PoolLane

structure PageBoxPool where
  buffer : PoolLane
  staging : PoolLane
  pooledBytes : ℕ
  capBytes : ℕ

namespace PageBoxPool

def new (capBytes : ℕ) : PageBoxPool := ⟨PoolLane.new, PoolLane.new, 0, capBytes⟩

def lane (p : PageBoxPool) : LaneKind → PoolLane
  | .buffer => p.buffer
  | .staging => p.staging

def setLane (p : PageBoxPool) (kind : LaneKind) (l : PoolLane) : PageBoxPool :=
  match kind with
  | .buffer => { p with buffer := l }
  | .staging => { p with staging := l }

def boxes (p : PageBoxPool) : Multiset PageBox := p.buffer.boxes + p.staging.boxes

def totalBytes (t : PointerWidth) (p : PageBoxPool) : Option ℕ := t.add p.buffer.bytes p.staging.bytes

def pop (t : PointerWidth) (p : PageBoxPool) (kind : LaneKind) (logicalLen : ℕ) :
    Option (PageBoxPool × Option PageBox) :=
  if h : PageBox.pages logicalLen - 1 < maxPoolClasses then
    match (p.lane kind).classes ⟨PageBox.pages logicalLen - 1, h⟩ with
    | [] => some (p, none)
    | pb :: rest => do
      let bytes ← checkedSub (p.lane kind).bytes pb.len
      let q := p.setLane kind
        ⟨update (p.lane kind).classes ⟨PageBox.pages logicalLen - 1, h⟩ rest, bytes⟩
      let total ← q.totalBytes t
      some ({ q with pooledBytes := total }, some { pb with logicalLen := logicalLen })
  else some (p, none)

def enabled (p : PageBoxPool) : Bool := p.capBytes != 0

/-- `serves` forms the padded length, so it panics where `padded_len` does. -/
def serves (t : PointerWidth) (p : PageBoxPool) (logicalLen : ℕ) : Option Bool :=
  if p.enabled then do
    let padded ← PageBox.paddedLen t logicalLen
    some (decide (padded / pageSize ≤ maxPoolClasses))
  else some false

def acquire (t : PointerWidth) (p : PageBoxPool) (logicalLen : ℕ) :
    Option (PageBoxPool × Option PageBox) := do
  if ← p.serves t logicalLen then p.pop t .buffer logicalLen else some (p, none)

def laneCap (p : PageBoxPool) : LaneKind → ℕ
  | .buffer => p.capBytes
  | .staging => p.capBytes / stagingShareDivisor

/-- `recycle_in`: `true` when the box was parked, `false` when it is handed back. -/
def recycleIn (t : PointerWidth) (p : PageBoxPool) (kind : LaneKind) (pb : PageBox) :
    Option (PageBoxPool × Bool) :=
  if !pb.nativeOwned || !p.enabled then some (p, false)
  else do
    let cls ← checkedSub (pb.len / pageSize) 1
    if h : cls < maxPoolClasses then do
      let total ← p.totalBytes t
      let sum ← t.add total pb.len
      if p.capBytes < sum then some (p, false)
      else do
        let laneSum ← t.add (p.lane kind).bytes pb.len
        if p.laneCap kind < laneSum then some (p, false)
        else
          let stack := pb :: (p.lane kind).classes ⟨cls, h⟩
          let q := p.setLane kind ⟨update (p.lane kind).classes ⟨cls, h⟩ stack, laneSum⟩
          some ({ q with pooledBytes := sum }, true)
    else some (p, false)

def drainStaging (t : PointerWidth) (p : PageBoxPool) : Option PageBoxPool := do
  let q := { p with staging := PoolLane.new }
  let total ← q.totalBytes t
  some { q with pooledBytes := total }

def setCap (p : PageBoxPool) (capBytes : ℕ) : PageBoxPool := { p with capBytes }

def gauge (t : PointerWidth) (p : PageBoxPool) : ℕ := min p.pooledBytes t.usizeMax

end PageBoxPool

namespace PoolLane

variable {lane : PoolLane}

theorem mem_boxes {b : PageBox} : b ∈ lane.boxes ↔ ∃ c, b ∈ lane.classes c := by
  unfold boxes
  simp

theorem boxes_new : new.boxes = 0 := by
  unfold boxes
  simp [new]

theorem boxes_update (lane : PoolLane) (c : Fin maxPoolClasses) (stack : List PageBox) (bytes : ℕ) :
    (⟨update lane.classes c stack, bytes⟩ : PoolLane).boxes + (lane.classes c : Multiset PageBox) =
      lane.boxes + (stack : Multiset PageBox) := by
  have hcoe : (fun d ↦ (update lane.classes c stack d : Multiset PageBox)) =
      update (fun d ↦ (lane.classes d : Multiset PageBox)) c (stack : Multiset PageBox) := by
    funext d
    by_cases hd : d = c
    · subst hd
      simp
    · simp [hd]
  unfold boxes
  rw [hcoe, Finset.sum_update_of_mem (Finset.mem_univ c),
    ← Finset.add_sum_erase _ (fun d ↦ (lane.classes d : Multiset PageBox)) (Finset.mem_univ c),
    Finset.sdiff_singleton_eq_erase]
  ac_rfl

theorem boxes_push (lane : PoolLane) (c : Fin maxPoolClasses) (pb : PageBox) (bytes : ℕ) :
    (⟨update lane.classes c (pb :: lane.classes c), bytes⟩ : PoolLane).boxes = pb ::ₘ lane.boxes := by
  have h := boxes_update lane c (pb :: lane.classes c) bytes
  rw [← Multiset.cons_coe, ← Multiset.singleton_add, add_left_comm, ← add_assoc] at h
  rw [← Multiset.singleton_add]
  exact add_right_cancel h

variable {c : Fin maxPoolClasses} {pb : PageBox}

theorem boxes_pop {rest : List PageBox} (hc : lane.classes c = pb :: rest) (bytes : ℕ) :
    lane.boxes = pb ::ₘ (⟨update lane.classes c rest, bytes⟩ : PoolLane).boxes := by
  have h := boxes_update lane c rest bytes
  rw [hc, ← Multiset.cons_coe, ← Multiset.singleton_add, ← add_assoc] at h
  rw [← add_right_cancel h, add_comm, Multiset.singleton_add]

def parkedBytes (lane : PoolLane) : ℕ := (lane.boxes.map fun b ↦ b.len).sum

/-- A lane whose counter is the sum of its boxes, each in the class of its page count. -/
structure Counted (lane : PoolLane) : Prop where
  bytes : lane.bytes = lane.parkedBytes
  sized : ∀ c, ∀ b ∈ lane.classes c, b.len = (c.val + 1) * pageSize ∧ b.nativeOwned = true

theorem counted_new : new.Counted where
  bytes := by rw [parkedBytes, boxes_new, Multiset.map_zero, Multiset.sum_zero, new]
  sized := by simp [new]

theorem Counted.pop (h : lane.Counted) {rest : List PageBox} (hc : lane.classes c = pb :: rest) :
    pb.len ≤ lane.bytes ∧ (⟨update lane.classes c rest, lane.bytes - pb.len⟩ : PoolLane).Counted := by
  have hsum : lane.bytes = pb.len + parkedBytes
      ⟨update lane.classes c rest, lane.bytes - pb.len⟩ := by
    rw [parkedBytes, ← Multiset.sum_cons, ← Multiset.map_cons (fun b : PageBox ↦ b.len),
      ← boxes_pop hc, ← parkedBytes, h.bytes]
  refine ⟨by omega, by show lane.bytes - pb.len = _; omega, fun d b hb ↦ ?_⟩
  by_cases hd : d = c
  · subst hd
    simp only [update_self] at hb
    exact h.sized d b (hc ▸ List.mem_cons_of_mem _ hb)
  · simp only [update_of_ne hd] at hb
    exact h.sized d b hb

theorem Counted.push (h : lane.Counted)
    (hlen : pb.len = (c.val + 1) * pageSize) (hnative : pb.nativeOwned = true) :
    (⟨update lane.classes c (pb :: lane.classes c), lane.bytes + pb.len⟩ : PoolLane).Counted where
  bytes := by
    show lane.bytes + pb.len = _
    rw [parkedBytes, boxes_push, Multiset.map_cons, Multiset.sum_cons, h.bytes, parkedBytes, add_comm]
  sized := fun d b hb ↦ by
    by_cases hd : d = c
    · subst hd
      simp only [update_self, List.mem_cons] at hb
      rcases hb with rfl | hb
      · exact ⟨hlen, hnative⟩
      · exact h.sized d b hb
    · simp only [update_of_ne hd] at hb
      exact h.sized d b hb

end PoolLane

namespace PageBoxPool

@[simp]
theorem lane_setLane (p : PageBoxPool) (kind : LaneKind) (l : PoolLane) : (p.setLane kind l).lane kind = l := by
  cases kind <;> rfl

theorem capBytes_setLane (p : PageBoxPool) (kind : LaneKind) (l : PoolLane) :
    (p.setLane kind l).capBytes = p.capBytes := by
  cases kind <;> rfl

theorem lane_setLane_of_ne (p : PageBoxPool) {kind k : LaneKind} (h : k ≠ kind) (l : PoolLane) :
    (p.setLane kind l).lane k = p.lane k := by
  cases kind <;> cases k <;> first | rfl | exact absurd rfl h

theorem bytes_setLane (p : PageBoxPool) (kind : LaneKind) (l : PoolLane) :
    (p.setLane kind l).buffer.bytes + (p.setLane kind l).staging.bytes + (p.lane kind).bytes =
      p.buffer.bytes + p.staging.bytes + l.bytes := by
  cases kind <;> simp only [setLane, lane] <;> omega

theorem boxes_setLane (p : PageBoxPool) (kind : LaneKind) (l : PoolLane) :
    (p.setLane kind l).boxes + (p.lane kind).boxes = p.boxes + l.boxes := by
  cases kind with
  | buffer =>
    show l.boxes + p.staging.boxes + p.buffer.boxes = p.buffer.boxes + p.staging.boxes + l.boxes
    rw [add_right_comm, add_comm l.boxes, add_right_comm]
  | staging => exact add_right_comm _ _ _

structure Counted (p : PageBoxPool) : Prop where
  lanes : ∀ kind, (p.lane kind).Counted
  gauge : p.pooledBytes = p.buffer.bytes + p.staging.bytes

theorem counted_new (capBytes : ℕ) : (new capBytes).Counted where
  lanes := fun kind ↦ by cases kind <;> exact PoolLane.counted_new
  gauge := rfl

variable {p : PageBoxPool}

theorem Counted.setLane (h : p.Counted) {kind : LaneKind} {l : PoolLane} (hl : l.Counted)
    {total : ℕ} (htotal : total = (p.setLane kind l).buffer.bytes + (p.setLane kind l).staging.bytes) :
    Counted { p.setLane kind l with pooledBytes := total } where
  lanes := fun k ↦ by
    show ((p.setLane kind l).lane k).Counted
    by_cases hk : k = kind
    · subst hk
      rwa [lane_setLane]
    · rw [lane_setLane_of_ne p hk]
      exact h.lanes k
  gauge := htotal

def parkedBytes (p : PageBoxPool) : ℕ := (p.boxes.map fun b ↦ b.len).sum

theorem Counted.total (h : p.Counted) : p.buffer.bytes + p.staging.bytes = p.parkedBytes := by
  rw [parkedBytes, boxes, Multiset.map_add, Multiset.sum_add]
  exact congrArg₂ (· + ·) (h.lanes .buffer).bytes (h.lanes .staging).bytes

/-- What a hit does: one box of exactly the requested page count leaves `kind`'s lane. -/
structure Handed (p q : PageBoxPool) (kind : LaneKind) (logicalLen : ℕ) (b : PageBox) : Prop where
  counted : q.Counted
  cap : q.capBytes = p.capBytes
  taken : (p.lane kind).boxes = b ::ₘ (q.lane kind).boxes
  boxes : p.boxes = b ::ₘ q.boxes
  len : b.len = PageBox.pages logicalLen * pageSize

/-- What a successful recycle does: the box enters `kind`'s lane, within the cap and the lane's share. -/
structure Parked (p q : PageBoxPool) (kind : LaneKind) (pb : PageBox) : Prop where
  counted : q.Counted
  cap : q.capBytes = p.capBytes
  entered : (q.lane kind).boxes = pb ::ₘ (p.lane kind).boxes
  boxes : q.boxes = pb ::ₘ p.boxes
  total_le : q.parkedBytes ≤ p.capBytes
  share_le : (q.lane kind).parkedBytes ≤ p.laneCap kind

theorem boxes_setLane_pop {kind : LaneKind} {l : PoolLane} {b : PageBox}
    (h : (p.lane kind).boxes = b ::ₘ l.boxes) : p.boxes = b ::ₘ (p.setLane kind l).boxes := by
  have hset := boxes_setLane p kind l
  rw [h, ← Multiset.singleton_add, ← add_assoc] at hset
  rw [← add_right_cancel hset, add_comm, Multiset.singleton_add]

theorem boxes_setLane_push {kind : LaneKind} {l : PoolLane} {b : PageBox}
    (h : l.boxes = b ::ₘ (p.lane kind).boxes) : (p.setLane kind l).boxes = b ::ₘ p.boxes := by
  have hset := boxes_setLane p kind l
  rw [h, ← Multiset.singleton_add, ← add_assoc] at hset
  rw [add_right_cancel hset, add_comm, Multiset.singleton_add]

theorem pop_spec (h : p.Counted) (hfit : p.parkedBytes ≤ t.usizeMax) (kind : LaneKind) (logicalLen : ℕ) :
    p.pop t kind logicalLen = some (p, none) ∨
      ∃ q b, p.pop t kind logicalLen = some (q, some { b with logicalLen := logicalLen }) ∧
        Handed p q kind logicalLen b := by
  by_cases hcls : PageBox.pages logicalLen - 1 < maxPoolClasses
  swap
  · exact .inl (dif_neg hcls)
  rw [pop, dif_pos hcls]
  cases hstack : (p.lane kind).classes ⟨PageBox.pages logicalLen - 1, hcls⟩ with
  | nil => exact .inl rfl
  | cons b rest =>
    obtain ⟨hle, hlane⟩ := (h.lanes kind).pop hstack
    obtain ⟨hlen, -⟩ := (h.lanes kind).sized _ b (hstack ▸ List.mem_cons_self)
    have hpos := PageBox.pages_pos logicalLen
    have htotal := bytes_setLane p kind ⟨update (p.lane kind).classes ⟨_, hcls⟩ rest,
      (p.lane kind).bytes - b.len⟩
    have hbox := PoolLane.boxes_pop hstack ((p.lane kind).bytes - b.len)
    simp only at htotal
    rw [h.total] at htotal
    refine .inr ⟨_, b, ?_, h.setLane hlane rfl, capBytes_setLane p kind _, ?_, boxes_setLane_pop hbox, ?_⟩
    · simp only [checkedSub_of_le hle, Option.bind_eq_bind, Option.bind_some, totalBytes]
      rw [PointerWidth.add_of_le (by omega)]
      rfl
    · refine hbox.trans (congrArg (fun l : PoolLane ↦ b ::ₘ l.boxes) ?_)
      exact (lane_setLane p kind _).symm
    · rw [hlen, Nat.sub_add_cancel hpos]

theorem recycleIn_spec (h : p.Counted) (kind : LaneKind)
    (hpb : pb.nativeOwned = true → ∃ n, pb.len = (n + 1) * pageSize)
    (hfit : pb.nativeOwned = true → p.parkedBytes + pb.len ≤ t.usizeMax) :
    p.recycleIn t kind pb = some (p, false) ∨
      ∃ q, p.recycleIn t kind pb = some (q, true) ∧ Parked p q kind pb := by
  by_cases hskip : (!pb.nativeOwned || !p.enabled) = true
  · exact .inl (if_pos hskip)
  have hnative : pb.nativeOwned = true := by
    cases hn : pb.nativeOwned
    · simp [hn] at hskip
    · rfl
  obtain ⟨n, hlen⟩ := hpb hnative
  have hsum := hfit hnative
  have hdiv : pb.len / pageSize = n + 1 := by
    rw [hlen, Nat.mul_div_cancel _ (by decide)]
  have htotal := h.total
  have hlane : (p.lane kind).bytes ≤ p.buffer.bytes + p.staging.bytes := by
    cases kind <;> simp only [lane] <;> omega
  rw [recycleIn, if_neg hskip, hdiv, checkedSub_of_le (Nat.le_add_left 1 n), Nat.add_sub_cancel]
  simp only [Option.bind_eq_bind, Option.bind_some, totalBytes]
  by_cases hcls : n < maxPoolClasses
  swap
  · exact .inl (dif_neg hcls)
  rw [dif_pos hcls, PointerWidth.add_of_le (by omega), Option.bind_some, PointerWidth.add_of_le (by omega),
    Option.bind_some]
  by_cases hcap : p.capBytes < p.buffer.bytes + p.staging.bytes + pb.len
  · exact .inl (if_pos hcap)
  rw [if_neg hcap, PointerWidth.add_of_le (by omega), Option.bind_some]
  by_cases hshare : p.laneCap kind < (p.lane kind).bytes + pb.len
  · exact .inl (if_pos hshare)
  rw [if_neg hshare]
  have hbox := PoolLane.boxes_push (p.lane kind) ⟨n, hcls⟩ pb ((p.lane kind).bytes + pb.len)
  have hbytes := bytes_setLane p kind ⟨update (p.lane kind).classes ⟨n, hcls⟩
    (pb :: (p.lane kind).classes ⟨n, hcls⟩), (p.lane kind).bytes + pb.len⟩
  simp only at hbytes
  have hq : Counted { p.setLane kind ⟨update (p.lane kind).classes ⟨n, hcls⟩
      (pb :: (p.lane kind).classes ⟨n, hcls⟩), (p.lane kind).bytes + pb.len⟩ with
        pooledBytes := p.buffer.bytes + p.staging.bytes + pb.len } :=
    h.setLane ((h.lanes kind).push (c := ⟨n, hcls⟩) hlen hnative) (by omega)
  refine .inr ⟨_, rfl, hq, capBytes_setLane p kind _, ?_, boxes_setLane_push hbox, ?_, ?_⟩
  · exact (congrArg PoolLane.boxes (lane_setLane p kind _)).trans hbox
  · rw [← hq.total, ← hq.gauge]
    exact Nat.le_of_not_lt hcap
  · rw [← (hq.lanes kind).bytes]
    exact (congrArg PoolLane.bytes (lane_setLane p kind _)).trans_le (Nat.le_of_not_lt hshare)

end PageBoxPool

end Mtld3d
