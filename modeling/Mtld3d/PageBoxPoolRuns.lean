import Mtld3d.PageBoxPool

namespace Mtld3d

open Option PageBoxPool PageBox

structure PoolWorld where
  pool : PageBoxPool
  owned : Multiset PageBox
  nextId : ℕ

inductive Recycle
  | buffer (pb : PageBox)
  | staging (pb : PageBox) (lastOwner hasReaders : Bool)

inductive PoolOp
  | acquire (logicalLen : ℕ)
  /-- `retire` is what the callback recycles between the two lookups. -/
  | acquireOrRetire (logicalLen : ℕ) (retire : List Recycle)
  /-- `guarded`: the pool was enabled when the take began. -/
  | tryTake (guarded : Bool) (logicalLen : ℕ) (granted : Bool)
  | recycle (r : Recycle)
  | drainStaging
  | setCap (capBytes : ℕ)
  /-- A box allocated outside the pool. -/
  | allocate (logicalLen : ℕ) (granted : Bool)
  /-- A box over pages another process allocated. -/
  | lease (len logicalLen : ℕ)
  | release (pb : PageBox)

inductive PoolEvent
  | served (before after : PageBoxPool) (kind : LaneKind) (logicalLen : ℕ) (pb : PageBox)
  | parked (before after : PageBoxPool) (kind : LaneKind) (pb : PageBox)

namespace PoolWorld

def new (capBytes : ℕ) : PoolWorld := ⟨PageBoxPool.new capBytes, 0, 0⟩

def allocations (w : PoolWorld) : Multiset Allocation :=
  (w.pool.boxes + w.owned).map fun b ↦ b.toAllocation

def nativeBytes (allocations : Multiset Allocation) : ℕ :=
  ((allocations.filter fun a ↦ a.nativeOwned = true).map fun a ↦ a.len).sum

def adopt (w : PoolWorld) (len : ℕ) (nativeOwned : Bool) (logicalLen : ℕ) : PoolWorld :=
  { w with owned := ⟨⟨w.nextId, len, nativeOwned⟩, logicalLen⟩ ::ₘ w.owned, nextId := w.nextId + 1 }

/-- `try_new_uninit` over an allocator with `space` bytes of address space, which may also refuse. -/
def tryNewUninit (t : PointerWidth) (space : ℕ) (w : PoolWorld) (logicalLen : ℕ) (granted : Bool) : PoolWorld :=
  match tryLayoutFor t logicalLen with
  | some padded =>
    if granted = true ∧ nativeBytes w.allocations + padded ≤ space then w.adopt padded true logicalLen else w
  | none => w

def lookup (w : PoolWorld) (kind : LaneKind) (logicalLen : ℕ) :
    PageBoxPool × Option PageBox → PoolWorld × List PoolEvent
  | (q, none) => ({ w with pool := q }, [])
  | (q, some pb) => ({ w with pool := q, owned := pb ::ₘ w.owned }, [.served w.pool q kind logicalLen pb])

def acquire (t : PointerWidth) (w : PoolWorld) (logicalLen : ℕ) : Option (PoolWorld × List PoolEvent) :=
  (w.pool.acquire t logicalLen).map (w.lookup .buffer logicalLen)

def recycleIn (t : PointerWidth) (w : PoolWorld) (kind : LaneKind) (pb : PageBox) (refused : Multiset PageBox) :
    Option (PoolWorld × List PoolEvent) := do
  match ← w.pool.recycleIn t kind pb with
  | (q, true) => some ({ w with pool := q, owned := w.owned.erase pb }, [.parked w.pool q kind pb])
  | (q, false) => some ({ w with pool := q, owned := refused }, [])

def recycle (t : PointerWidth) (w : PoolWorld) : Recycle → Option (PoolWorld × List PoolEvent)
  | .buffer pb => if pb ∈ w.owned then w.recycleIn t .buffer pb w.owned else some (w, [])
  | .staging pb lastOwner hasReaders =>
    if pb ∈ w.owned ∧ lastOwner = true then
      if hasReaders then some ({ w with owned := w.owned.erase pb }, [])
      else w.recycleIn t .staging pb (w.owned.erase pb)
    else some (w, [])

def recycleAll (t : PointerWidth) : PoolWorld → List Recycle → Option (PoolWorld × List PoolEvent)
  | w, [] => some (w, [])
  | w, r :: rs => do
    let (w₁, es₁) ← w.recycle t r
    let (w₂, es₂) ← recycleAll t w₁ rs
    some (w₂, es₁ ++ es₂)

def acquireOrRetire (t : PointerWidth) (w : PoolWorld) (logicalLen : ℕ) (retire : List Recycle) :
    Option (PoolWorld × List PoolEvent) := do
  let (w₁, es₁) ← w.acquire t logicalLen
  if !es₁.isEmpty then some (w₁, es₁)
  else if !(← w₁.pool.serves t logicalLen) then some (w₁, es₁)
  else
    let padded ← paddedLen t logicalLen
    let wanted ← t.add (w₁.pool.gauge t) padded
    if w₁.pool.capBytes < wanted then some (w₁, es₁)
    else
      let (w₂, es₂) ← w₁.recycleAll t retire
      let (w₃, es₃) ← w₂.acquire t logicalLen
      some (w₃, es₁ ++ (es₂ ++ es₃))

def tryTake (t : PointerWidth) (space : ℕ) (w : PoolWorld) (guarded : Bool) (logicalLen : ℕ) (granted : Bool) :
    Option (PoolWorld × List PoolEvent) :=
  if guarded then do
    match ← w.pool.pop t .staging logicalLen with
    | (q, some pb) => some (w.lookup .staging logicalLen (q, some pb))
    | (q, none) => some ({ w with pool := q }.tryNewUninit t space logicalLen granted, [])
  else some (w.tryNewUninit t space logicalLen granted, [])

/-- One call; `none` is a panic. -/
def step (t : PointerWidth) (space : ℕ) (w : PoolWorld) : PoolOp → Option (PoolWorld × List PoolEvent)
  | .acquire n => w.acquire t n
  | .acquireOrRetire n retire => w.acquireOrRetire t n retire
  | .tryTake guarded n granted => w.tryTake t space guarded n granted
  | .recycle r => w.recycle t r
  | .drainStaging => (w.pool.drainStaging t).map fun q ↦ ({ w with pool := q }, [])
  | .setCap c => some ({ w with pool := w.pool.setCap c }, [])
  | .allocate n granted => some (w.tryNewUninit t space n granted, [])
  | .lease len n => some (w.adopt len false n, [])
  | .release pb => some ({ w with owned := w.owned.erase pb }, [])

def run (t : PointerWidth) (space : ℕ) : PoolWorld → List PoolOp → Option (PoolWorld × List PoolEvent)
  | w, [] => some (w, [])
  | w, op :: ops => do
    let (w₁, es₁) ← w.step t space op
    let (w₂, es₂) ← run t space w₁ ops
    some (w₂, es₁ ++ es₂)

end PoolWorld

open PoolWorld

/-- The allocations a set of boxes stands on: distinct, of whole pages, and within the address space. -/
structure Allocated (space nextId : ℕ) (allocations : Multiset Allocation) : Prop where
  ids : (allocations.map fun a ↦ a.id).Nodup
  fresh : ∀ a ∈ allocations, a.id < nextId
  paged : ∀ a ∈ allocations, a.nativeOwned = true → ∃ n, a.len = (n + 1) * pageSize
  bytes_le : nativeBytes allocations ≤ space

section Allocated

variable {space nextId : ℕ} {m m' : Multiset Allocation}

theorem nativeBytes_mono (h : m' ≤ m) : nativeBytes m' ≤ nativeBytes m := by
  obtain ⟨rest, rfl⟩ := Multiset.le_iff_exists_add.1 h
  rw [nativeBytes, nativeBytes, Multiset.filter_add, Multiset.map_add, Multiset.sum_add]
  exact Nat.le_add_right _ _

theorem nativeBytes_cons_native {a : Allocation} (h : a.nativeOwned = true) :
    nativeBytes (a ::ₘ m) = a.len + nativeBytes m := by
  rw [nativeBytes, Multiset.filter_cons_of_pos (p := fun a : Allocation ↦ a.nativeOwned = true) m h,
    Multiset.map_cons, Multiset.sum_cons]
  rfl

theorem Allocated.mono (h : Allocated space nextId m) (hle : m' ≤ m) : Allocated space nextId m' where
  ids := Multiset.nodup_of_le (Multiset.map_le_map hle) h.ids
  fresh := fun a ha ↦ h.fresh a (Multiset.mem_of_le hle ha)
  paged := fun a ha ↦ h.paged a (Multiset.mem_of_le hle ha)
  bytes_le := (nativeBytes_mono hle).trans h.bytes_le

theorem Allocated.cons (h : Allocated space nextId m) {a : Allocation} (hid : a.id = nextId)
    (hpaged : a.nativeOwned = true → ∃ n, a.len = (n + 1) * pageSize)
    (hbytes : nativeBytes (a ::ₘ m) ≤ space) : Allocated space (nextId + 1) (a ::ₘ m) where
  ids := by
    rw [Multiset.map_cons, Multiset.nodup_cons]
    refine ⟨fun hmem ↦ ?_, h.ids⟩
    obtain ⟨b, hb, hba⟩ := Multiset.mem_map.1 hmem
    exact absurd (h.fresh b hb) (by omega)
  fresh := fun b hb ↦ by
    rcases Multiset.mem_cons.1 hb with rfl | hb
    · omega
    · exact Nat.lt_succ_of_lt (h.fresh b hb)
  paged := fun b hb ↦ by
    rcases Multiset.mem_cons.1 hb with rfl | hb
    · exact hpaged
    · exact h.paged b hb
  bytes_le := hbytes

end Allocated

theorem PageBoxPool.Counted.native {p : PageBoxPool} (h : p.Counted) {b : PageBox} (hb : b ∈ p.boxes) :
    b.nativeOwned = true := by
  have hlane : ∀ kind, b ∈ (p.lane kind).boxes → b.nativeOwned = true := by
    intro kind hmem
    obtain ⟨c, hc⟩ := PoolLane.mem_boxes.1 hmem
    exact ((h.lanes kind).sized c b hc).2
  rcases Multiset.mem_add.1 hb with hb | hb
  · exact hlane .buffer hb
  · exact hlane .staging hb

theorem PageBoxPool.Counted.nativeBytes_boxes {p : PageBoxPool} (h : p.Counted) :
    nativeBytes (p.boxes.map fun b ↦ b.toAllocation) = p.parkedBytes := by
  rw [nativeBytes, Multiset.filter_eq_self.2, Multiset.map_map]
  · rfl
  · intro a ha
    obtain ⟨b, hb, rfl⟩ := Multiset.mem_map.1 ha
    exact h.native hb

namespace PoolWorld

structure Inv (space : ℕ) (w : PoolWorld) : Prop where
  counted : w.pool.Counted
  allocated : Allocated space w.nextId w.allocations

theorem inv_new (space capBytes : ℕ) : (new capBytes).Inv space where
  counted := counted_new capBytes
  allocated := by
    have hempty : (new capBytes).allocations = 0 := by
      show ((PoolLane.new.boxes + PoolLane.new.boxes + 0).map _ : Multiset Allocation) = 0
      rw [PoolLane.boxes_new]
      rfl
    rw [hempty]
    exact ⟨by simp, by simp, by simp, by simp [nativeBytes]⟩

variable {t : PointerWidth} {space : ℕ} {w : PoolWorld}

theorem Inv.parkedBytes_le (h : w.Inv space) : w.pool.parkedBytes ≤ space := by
  rw [← h.counted.nativeBytes_boxes]
  refine le_trans (nativeBytes_mono ?_) h.allocated.bytes_le
  exact Multiset.map_le_map (Multiset.le_add_right _ _)

variable {pb : PageBox}

theorem Inv.parked_add_le (h : w.Inv space) (hpb : pb ∈ w.owned)
    (hnative : pb.nativeOwned = true) : w.pool.parkedBytes + pb.len ≤ space := by
  rw [← h.counted.nativeBytes_boxes, add_comm, ← nativeBytes_cons_native hnative,
    ← Multiset.map_cons (fun b : PageBox ↦ b.toAllocation)]
  refine le_trans (nativeBytes_mono (Multiset.map_le_map ?_)) h.allocated.bytes_le
  rw [← Multiset.singleton_add, add_comm]
  exact Multiset.add_le_add_left (Multiset.singleton_le.2 hpb)

theorem Inv.paged (h : w.Inv space) (hpb : pb ∈ w.owned) (hnative : pb.nativeOwned = true) :
    ∃ n, pb.len = (n + 1) * pageSize :=
  h.allocated.paged pb.toAllocation
    (Multiset.mem_map.2 ⟨pb, Multiset.mem_add.2 (.inr hpb), rfl⟩) hnative

theorem Inv.of_allocations (h : w.Inv space) {w' : PoolWorld} (hcounted : w'.pool.Counted)
    (hid : w'.nextId = w.nextId) (hle : w'.allocations ≤ w.allocations) : w'.Inv space :=
  ⟨hcounted, hid ▸ h.allocated.mono hle⟩

theorem Inv.erase (h : w.Inv space) (pb : PageBox) : Inv space { w with owned := w.owned.erase pb } :=
  h.of_allocations h.counted rfl
    (Multiset.map_le_map (Multiset.add_le_add_left (Multiset.erase_le pb w.owned)))

variable {kind : LaneKind} {n : ℕ}

theorem Inv.handed (h : w.Inv space) {q : PageBoxPool} {b : PageBox} (hq : w.pool.Handed q kind n b) :
    Inv space { w with pool := q, owned := { b with logicalLen := n } ::ₘ w.owned } := by
  refine h.of_allocations hq.counted rfl (le_of_eq ?_)
  show (q.boxes + _).map _ = (w.pool.boxes + w.owned).map _
  rw [hq.boxes, Multiset.add_cons, Multiset.cons_add, Multiset.map_cons, Multiset.map_cons]

theorem Inv.parked (h : w.Inv space) {q : PageBoxPool} (hpb : pb ∈ w.owned)
    (hq : w.pool.Parked q kind pb) : Inv space { w with pool := q, owned := w.owned.erase pb } := by
  refine h.of_allocations hq.counted rfl (le_of_eq ?_)
  show (q.boxes + w.owned.erase pb).map _ = (w.pool.boxes + w.owned).map _
  rw [hq.boxes, Multiset.cons_add, ← Multiset.add_cons, Multiset.cons_erase hpb]

theorem allocations_adopt (w : PoolWorld) (len : ℕ) (nativeOwned : Bool) (n : ℕ) :
    (w.adopt len nativeOwned n).allocations = ⟨w.nextId, len, nativeOwned⟩ ::ₘ w.allocations := by
  simp [adopt, allocations]

theorem Inv.adopt (h : w.Inv space) {len : ℕ} {nativeOwned : Bool}
    (hpaged : nativeOwned = true → ∃ n, len = (n + 1) * pageSize)
    (hbytes : nativeBytes (⟨w.nextId, len, nativeOwned⟩ ::ₘ w.allocations) ≤ space) (n : ℕ) :
    (w.adopt len nativeOwned n).Inv space :=
  ⟨h.counted, (allocations_adopt w len nativeOwned n).symm ▸ h.allocated.cons rfl hpaged hbytes⟩

theorem Inv.tryNewUninit (h : w.Inv space) (t : PointerWidth) (n : ℕ) (granted : Bool) :
    (w.tryNewUninit t space n granted).Inv space := by
  unfold PoolWorld.tryNewUninit
  cases hlay : tryLayoutFor t n with
  | none => exact h
  | some padded =>
    simp only
    split_ifs with hroom
    swap
    · exact h
    have hpos := pages_pos n
    refine h.adopt (fun _ ↦ ⟨PageBox.pages n - 1, ?_⟩) ?_ n
    · rw [Nat.sub_add_cancel hpos]
      exact tryLayoutFor_eq hlay
    · rw [nativeBytes_cons_native rfl, add_comm]
      exact hroom.2

theorem Inv.lease (h : w.Inv space) (len n : ℕ) : (w.adopt len false n).Inv space := by
  refine h.adopt (fun hn ↦ by cases hn) ?_ n
  rw [nativeBytes, Multiset.filter_cons_of_neg (p := fun a : Allocation ↦ a.nativeOwned = true) _ (by simp)]
  exact h.allocated.bytes_le

end PoolWorld

/-- A served box has the padded size of the request and leaves its own lane, holding it in no other;
a parked box keeps the total within the cap and its lane within its share. -/
def PoolEvent.Sound : PoolEvent → Prop
  | .served p q kind n pb =>
    pb.len = pages n * pageSize ∧ pb.logicalLen = n ∧
      (∃ b, b.toAllocation = pb.toAllocation ∧ (p.lane kind).boxes = b ::ₘ (q.lane kind).boxes) ∧
      ∀ k, k ≠ kind → ∀ b ∈ (p.lane k).boxes, b.id ≠ pb.id
  | .parked p q kind pb =>
    (q.lane kind).boxes = pb ::ₘ (p.lane kind).boxes ∧ q.parkedBytes ≤ p.capBytes ∧
      (q.lane kind).parkedBytes ≤ p.laneCap kind

namespace PoolWorld

variable {t : PointerWidth} {space : ℕ} {w : PoolWorld}

def Fine (space cap : ℕ) (r : Option (PoolWorld × List PoolEvent)) : Prop :=
  ∃ w es, r = some (w, es) ∧ w.Inv space ∧ w.pool.capBytes = cap ∧ ∀ e ∈ es, e.Sound

theorem Fine.quiet {cap : ℕ} (h : w.Inv space) (hcap : w.pool.capBytes = cap) :
    Fine space cap (some (w, [])) :=
  ⟨w, [], rfl, h, hcap, nofun⟩

theorem Inv.lane_disjoint (h : w.Inv space) {kind k : LaneKind} (hk : k ≠ kind) {b c : PageBox}
    (hb : b ∈ (w.pool.lane k).boxes) (hc : c ∈ (w.pool.lane kind).boxes) : b.id ≠ c.id := by
  have hids := h.allocated.ids
  rw [allocations, Multiset.map_map, Multiset.map_add, Multiset.nodup_add] at hids
  have hpool := hids.1
  rw [boxes, Multiset.map_add, Multiset.nodup_add] at hpool
  have hdisj := hpool.2.2
  intro heq
  cases k <;> cases kind
  · exact hk rfl
  · exact Multiset.disjoint_left.1 hdisj (Multiset.mem_map_of_mem _ hb) (Multiset.mem_map.2 ⟨c, hc, heq.symm⟩)
  · exact Multiset.disjoint_left.1 hdisj (Multiset.mem_map_of_mem _ hc) (Multiset.mem_map.2 ⟨b, hb, heq⟩)
  · exact hk rfl

theorem Inv.served_sound (h : w.Inv space) {q : PageBoxPool} {b : PageBox} (hq : w.pool.Handed q kind n b) :
    (PoolEvent.served w.pool q kind n { b with logicalLen := n }).Sound :=
  ⟨hq.len, rfl, ⟨b, rfl, hq.taken⟩,
    fun _ hk _ hc ↦ h.lane_disjoint (c := b) hk hc (hq.taken ▸ Multiset.mem_cons_self _ _)⟩

theorem Inv.fine_lookup (h : w.Inv space) {r : Option (PageBoxPool × Option PageBox)}
    (hr : r = some (w.pool, none) ∨
      ∃ q b, r = some (q, some { b with logicalLen := n }) ∧ w.pool.Handed q kind n b) :
    Fine space w.pool.capBytes (r.map (w.lookup kind n)) := by
  rcases hr with rfl | ⟨q, b, rfl, hq⟩
  · exact .quiet h rfl
  · refine ⟨_, _, rfl, h.handed hq, hq.cap, fun e he ↦ ?_⟩
    rw [List.mem_singleton.1 he]
    exact h.served_sound hq

/-- The request of a lookup that goes through `serves` rounds up within `usize`, or the pool is off. -/
def Roundable (t : PointerWidth) (p : PageBoxPool) (n : ℕ) : Prop :=
  p.enabled = true → pages n * pageSize ≤ t.usizeMax

theorem serves_roundable {p : PageBoxPool} (h : Roundable t p n) :
    p.serves t n = some (p.enabled && decide (pages n ≤ maxPoolClasses)) := by
  unfold serves
  cases hon : p.enabled with
  | false => rfl
  | true =>
    rw [if_pos rfl, paddedLen_of_le (h hon), bind_eq_bind, bind_some,
      Nat.mul_div_cancel _ (by decide), Bool.true_and]

theorem Inv.fine_acquire (h : w.Inv space) (hspace : space ≤ t.usizeMax) (hn : Roundable t w.pool n) :
    Fine space w.pool.capBytes (w.acquire t n) := by
  refine h.fine_lookup ?_
  rw [PageBoxPool.acquire, serves_roundable hn, bind_eq_bind, bind_some]
  split_ifs
  · exact pop_spec h.counted (h.parkedBytes_le.trans hspace) .buffer n
  · exact .inl rfl

theorem Inv.fine_recycleIn (h : w.Inv space) (hspace : space ≤ t.usizeMax) (hpb : pb ∈ w.owned)
    (kind : LaneKind) {refused : Multiset PageBox} (hrefused : Inv space { w with owned := refused }) :
    Fine space w.pool.capBytes (w.recycleIn t kind pb refused) := by
  rw [recycleIn]
  rcases recycleIn_spec h.counted kind (h.paged hpb)
    (fun hnative ↦ (h.parked_add_le hpb hnative).trans hspace) with hr | ⟨q, hr, hq⟩
  · rw [hr, bind_eq_bind, bind_some]
    exact .quiet hrefused rfl
  · rw [hr, bind_eq_bind, bind_some]
    refine ⟨_, _, rfl, h.parked hpb hq, hq.cap, fun e he ↦ ?_⟩
    rw [List.mem_singleton.1 he]
    exact ⟨hq.entered, hq.total_le, hq.share_le⟩

theorem Inv.fine_recycle (h : w.Inv space) (hspace : space ≤ t.usizeMax) (r : Recycle) :
    Fine space w.pool.capBytes (w.recycle t r) := by
  cases r with
  | buffer pb =>
    by_cases hpb : pb ∈ w.owned
    · rw [recycle, if_pos hpb]
      exact h.fine_recycleIn hspace hpb .buffer h
    · rw [recycle, if_neg hpb]
      exact .quiet h rfl
  | staging pb lastOwner hasReaders =>
    by_cases hpb : pb ∈ w.owned ∧ lastOwner = true
    · rw [recycle, if_pos hpb]
      split_ifs
      · exact .quiet (h.erase pb) rfl
      · exact h.fine_recycleIn hspace hpb.1 .staging (h.erase pb)
    · rw [recycle, if_neg hpb]
      exact .quiet h rfl

theorem Fine.bind {cap : ℕ} {r : Option (PoolWorld × List PoolEvent)} (h : Fine space cap r)
    {f : PoolWorld → Option (PoolWorld × List PoolEvent)}
    (hf : ∀ w : PoolWorld, w.Inv space → w.pool.capBytes = cap → Fine space cap (f w)) :
    Fine space cap (do let (w₁, es₁) ← r; let (w₂, es₂) ← f w₁; some (w₂, es₁ ++ es₂)) := by
  obtain ⟨w₁, es₁, rfl, hw₁, hcap₁, hes₁⟩ := h
  obtain ⟨w₂, es₂, hr, hw₂, hcap₂, hes₂⟩ := hf w₁ hw₁ hcap₁
  refine ⟨w₂, es₁ ++ es₂, ?_, hw₂, hcap₂, fun e he ↦ ?_⟩
  · simp [hr]
  · rcases List.mem_append.1 he with he | he
    · exact hes₁ e he
    · exact hes₂ e he

theorem Inv.fine_recycleAll (hspace : space ≤ t.usizeMax) (rs : List Recycle) {w : PoolWorld} (h : w.Inv space) :
    Fine space w.pool.capBytes (w.recycleAll t rs) := by
  induction rs generalizing w with
  | nil => exact .quiet h rfl
  | cons r rs ih => exact (h.fine_recycle hspace r).bind fun w₁ hw₁ hcap ↦ hcap ▸ ih hw₁

theorem Roundable.of_cap {p q : PageBoxPool} (h : Roundable t p n) (hcap : q.capBytes = p.capBytes) :
    Roundable t q n := by
  unfold Roundable enabled
  rw [hcap]
  exact h

theorem Inv.gauge_le (h : w.Inv space) (t : PointerWidth) : w.pool.gauge t ≤ space := by
  unfold PageBoxPool.gauge
  rw [h.counted.gauge, h.counted.total]
  exact (min_le_left _ _).trans h.parkedBytes_le

theorem Inv.fine_acquireOrRetire (h : w.Inv space) (hspace : space + maxPoolClasses * pageSize ≤ t.usizeMax)
    (hn : Roundable t w.pool n) (retire : List Recycle) :
    Fine space w.pool.capBytes (w.acquireOrRetire t n retire) := by
  have hspace' : space ≤ t.usizeMax := by omega
  obtain ⟨w₁, es₁, hr₁, hw₁, hcap₁, hes₁⟩ := h.fine_acquire hspace' hn
  have hn₁ : Roundable t w₁.pool n := hn.of_cap hcap₁
  rw [acquireOrRetire, hr₁]
  simp only [bind_eq_bind, bind_some, serves_roundable hn₁]
  by_cases hhit : (!es₁.isEmpty) = true
  · exact ⟨w₁, es₁, if_pos hhit, hw₁, hcap₁, hes₁⟩
  rw [if_neg hhit]
  by_cases hserves : (w₁.pool.enabled && decide (pages n ≤ maxPoolClasses)) = true
  swap
  · exact ⟨w₁, es₁, if_pos (by rw [Bool.eq_false_of_not_eq_true hserves]; rfl), hw₁, hcap₁, hes₁⟩
  rw [if_neg (by rw [hserves]; decide)]
  rw [Bool.and_eq_true, decide_eq_true_eq] at hserves
  have hpadded : pages n * pageSize ≤ maxPoolClasses * pageSize :=
    Nat.mul_le_mul_right _ hserves.2
  have hgauge := hw₁.gauge_le t
  rw [paddedLen_of_le (by omega), bind_some, PointerWidth.add_of_le (by omega), bind_some]
  by_cases hroom : w₁.pool.capBytes < w₁.pool.gauge t + pages n * pageSize
  · exact ⟨w₁, es₁, if_pos hroom, hw₁, hcap₁, hes₁⟩
  rw [if_neg hroom]
  obtain ⟨w₂, es₂, hr₂, hw₂, hcap₂, hes₂⟩ := hw₁.fine_recycleAll hspace' retire
  obtain ⟨w₃, es₃, hr₃, hw₃, hcap₃, hes₃⟩ := hw₂.fine_acquire hspace' (hn₁.of_cap hcap₂)
  refine ⟨w₃, es₁ ++ (es₂ ++ es₃), ?_, hw₃, hcap₃.trans (hcap₂.trans hcap₁), fun e he ↦ ?_⟩
  · simp [hr₂, hr₃]
  · rcases List.mem_append.1 he with he | he
    · exact hes₁ e he
    · rcases List.mem_append.1 he with he | he
      · exact hes₂ e he
      · exact hes₃ e he

theorem capBytes_tryNewUninit (w : PoolWorld) (t : PointerWidth) (space n : ℕ) (granted : Bool) :
    (w.tryNewUninit t space n granted).pool.capBytes = w.pool.capBytes := by
  unfold tryNewUninit
  split
  · split_ifs <;> rfl
  · rfl

theorem Inv.fine_tryTake (h : w.Inv space) (hspace : space ≤ t.usizeMax) (guarded : Bool) (n : ℕ)
    (granted : Bool) : Fine space w.pool.capBytes (w.tryTake t space guarded n granted) := by
  have hfresh := Fine.quiet (h.tryNewUninit t n granted) (capBytes_tryNewUninit w t space n granted)
  cases guarded with
  | false => exact hfresh
  | true =>
    have hpop := pop_spec h.counted (h.parkedBytes_le.trans hspace) .staging n
    have hlook := h.fine_lookup hpop
    rw [tryTake, if_pos rfl]
    rcases hpop with hr | ⟨q, b, hr, hq⟩
    · rw [hr, bind_eq_bind, bind_some]
      exact hfresh
    · rw [hr] at hlook ⊢
      exact hlook

theorem Inv.drainStaging (h : w.Inv space) (hspace : space ≤ t.usizeMax) :
    ∃ q, w.pool.drainStaging t = some q ∧ Inv space { w with pool := q } := by
  have htotal := h.counted.total
  have hle := h.parkedBytes_le
  have hfit : w.pool.buffer.bytes + PoolLane.new.bytes ≤ t.usizeMax := by
    show w.pool.buffer.bytes + 0 ≤ _
    omega
  have hdrained : PageBoxPool.Counted { w.pool.setLane .staging PoolLane.new with
      pooledBytes := w.pool.buffer.bytes + PoolLane.new.bytes } :=
    h.counted.setLane PoolLane.counted_new rfl
  refine ⟨_, ?_, h.of_allocations hdrained rfl ?_⟩
  · rw [PageBoxPool.drainStaging, PageBoxPool.totalBytes, PointerWidth.add_of_le hfit]
    rfl
  · refine Multiset.map_le_map (Multiset.add_le_add_right ?_)
    show w.pool.buffer.boxes + PoolLane.new.boxes ≤ w.pool.buffer.boxes + w.pool.staging.boxes
    rw [PoolLane.boxes_new]
    exact Multiset.add_le_add_left (Multiset.zero_le _)

theorem acquire_eq_none (h : ¬Roundable t w.pool n) : w.acquire t n = none := by
  simp only [Roundable, Classical.not_imp] at h
  rw [acquire, PageBoxPool.acquire, PageBoxPool.serves, if_pos h.1, paddedLen, if_neg h.2]
  rfl

theorem acquireOrRetire_eq_none (h : ¬Roundable t w.pool n) (retire : List Recycle) :
    w.acquireOrRetire t n retire = none := by
  rw [acquireOrRetire, acquire_eq_none h]
  rfl

end PoolWorld

/-- The lookups that go through `serves` request lengths that round up within `usize`. -/
def PoolOp.Roundable (t : PointerWidth) (p : PageBoxPool) : PoolOp → Prop
  | .acquire n => PoolWorld.Roundable t p n
  | .acquireOrRetire n _ => PoolWorld.Roundable t p n
  | _ => True

namespace PoolWorld

variable {t : PointerWidth} {space : ℕ} {w : PoolWorld}

theorem Inv.step (h : w.Inv space) (hspace : space + maxPoolClasses * pageSize ≤ t.usizeMax) {op : PoolOp}
    (hop : op.Roundable t w.pool) :
    ∃ w' es, w.step t space op = some (w', es) ∧ w'.Inv space ∧ ∀ e ∈ es, e.Sound := by
  have hspace' : space ≤ t.usizeMax := by omega
  have hfine : ∀ {r : Option (PoolWorld × List PoolEvent)}, Fine space w.pool.capBytes r →
      ∃ w' es, r = some (w', es) ∧ w'.Inv space ∧ ∀ e ∈ es, e.Sound :=
    fun ⟨w', es, hr, hw', _, hes⟩ ↦ ⟨w', es, hr, hw', hes⟩
  cases op with
  | acquire n => exact hfine (h.fine_acquire hspace' hop)
  | acquireOrRetire n retire => exact hfine (h.fine_acquireOrRetire hspace hop retire)
  | tryTake guarded n granted => exact hfine (h.fine_tryTake hspace' guarded n granted)
  | recycle r => exact hfine (h.fine_recycle hspace' r)
  | drainStaging =>
    obtain ⟨q, hq, hinv⟩ := h.drainStaging hspace'
    exact ⟨_, [], congrArg (Option.map _) hq, hinv, nofun⟩
  | setCap c => exact ⟨_, [], rfl, ⟨⟨h.counted.lanes, h.counted.gauge⟩, h.allocated⟩, nofun⟩
  | allocate n granted => exact ⟨_, [], rfl, h.tryNewUninit t n granted, nofun⟩
  | lease len n => exact ⟨_, [], rfl, h.lease len n, nofun⟩
  | release pb => exact ⟨_, [], rfl, h.erase pb, nofun⟩

theorem Inv.step_eq_none_iff (h : w.Inv space) (hspace : space + maxPoolClasses * pageSize ≤ t.usizeMax)
    (op : PoolOp) : w.step t space op = none ↔ ¬op.Roundable t w.pool := by
  refine ⟨fun hnone hop ↦ ?_, fun hop ↦ ?_⟩
  · obtain ⟨w', es, hr, -⟩ := h.step hspace hop
    rw [hr] at hnone
    cases hnone
  · cases op with
    | acquire n => exact acquire_eq_none hop
    | acquireOrRetire n retire => exact acquireOrRetire_eq_none hop retire
    | _ => exact absurd trivial hop

/-- Every lookup of the run that goes through `serves` is for a length that rounds up. -/
def RunRoundable (t : PointerWidth) (space : ℕ) : PoolWorld → List PoolOp → Prop
  | _, [] => True
  | w, op :: ops =>
    op.Roundable t w.pool ∧ ∀ w' es, w.step t space op = some (w', es) → RunRoundable t space w' ops

theorem Inv.run (hspace : space + maxPoolClasses * pageSize ≤ t.usizeMax) {ops : List PoolOp} {w : PoolWorld}
    (h : w.Inv space) (hops : RunRoundable t space w ops) :
    ∃ w' es, w.run t space ops = some (w', es) ∧ w'.Inv space ∧ ∀ e ∈ es, e.Sound := by
  induction ops generalizing w with
  | nil => exact ⟨w, [], rfl, h, nofun⟩
  | cons op ops ih =>
    obtain ⟨w₁, es₁, hr₁, hw₁, hes₁⟩ := h.step hspace hops.1
    obtain ⟨w₂, es₂, hr₂, hw₂, hes₂⟩ := ih hw₁ (hops.2 w₁ es₁ hr₁)
    refine ⟨w₂, es₁ ++ es₂, ?_, hw₂, fun e he ↦ ?_⟩
    · simp [PoolWorld.run, hr₁, hr₂]
    · rcases List.mem_append.1 he with he | he
      · exact hes₁ e he
      · exact hes₂ e he

/-- After any calls whose buffer lookups round up within `usize`: nothing panicked, the counters are the
parked boxes, every live box is parked once or owned once, every lookup and every recycle was sound, and
the next call panics exactly when its length does not round up. -/
theorem pool_runs (t : PointerWidth) (space capBytes : ℕ)
    (hspace : space + maxPoolClasses * pageSize ≤ t.usizeMax) (ops : List PoolOp)
    (hops : RunRoundable t space (new capBytes) ops) :
    ∃ w es, (new capBytes).run t space ops = some (w, es) ∧ w.pool.Counted ∧
      ((w.pool.boxes + w.owned).map fun b ↦ b.id).Nodup ∧ (∀ e ∈ es, e.Sound) ∧
      ∀ op, w.step t space op = none ↔ ¬op.Roundable t w.pool := by
  obtain ⟨w, es, hr, hw, hes⟩ := (inv_new space capBytes).run hspace hops
  have hids := hw.allocated.ids
  rw [allocations, Multiset.map_map] at hids
  exact ⟨w, es, hr, hw.counted, hids, hes, hw.step_eq_none_iff hspace⟩

/-- A box that is allocated, parked and taken again for a longer length of its class. -/
def parkHit : List PoolOp := [.allocate 100 true, .recycle (.buffer ⟨⟨0, 16384, true⟩, 100⟩), .acquire 200]

theorem pool_runs_park_hit :
    RunRoundable .bits32 1073741824 (new 16777216) parkHit ∧
      ∃ w es, (new 16777216).run .bits32 1073741824 parkHit = some (w, es) ∧ w.pool.Counted ∧
        (∀ e ∈ es, e.Sound) ∧ es.length = 2 ∧ w.owned = {⟨⟨0, 16384, true⟩, 200⟩} := by
  have hops : RunRoundable .bits32 1073741824 (new 16777216) parkHit :=
    ⟨trivial, fun _ _ _ ↦ ⟨trivial, fun _ _ _ ↦ ⟨fun _ ↦ by decide, fun _ _ _ ↦ trivial⟩⟩⟩
  have heval : ((new 16777216).run .bits32 1073741824 parkHit).map (fun r ↦ (r.2.length, r.1.owned)) =
      some (2, {⟨⟨0, 16384, true⟩, 200⟩}) := by
    decide +kernel
  obtain ⟨w, es, hr, hw, -, hes, -⟩ := pool_runs .bits32 1073741824 16777216 (by decide) _ hops
  rw [hr] at heval
  obtain ⟨hlen, howned⟩ := Prod.mk.inj (some.inj heval)
  exact ⟨hops, w, es, hr, hw, hes, hlen, howned⟩

/-- A 32-bit request too long to round up: the staging take misses, the buffer lookup panics. -/
theorem oversize_acquire_panics :
    (new 16777216).step .bits32 1073741824 (.acquire 4294967295) = none ∧
      (new 16777216).step .bits32 1073741824 (.tryTake true 4294967295 true) = some (new 16777216, []) := by
  refine ⟨acquire_eq_none ?_, rfl⟩
  unfold Roundable
  decide

end PoolWorld

end Mtld3d
