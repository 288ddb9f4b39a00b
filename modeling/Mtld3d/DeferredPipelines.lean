import Mathlib.Data.List.Nodup

namespace Mtld3d

open List

structure JobTicket where
  raw : ℕ
  deriving DecidableEq, Repr

inductive LibrarySlot (F : Type)
  | ready (function : F)
  | pending (ticket : JobTicket)
  deriving DecidableEq, Repr

inductive DeferredState (F P : Type)
  | libraries (vs ps : LibrarySlot F)
  | pipeline (ticket : JobTicket)
  | ready (pipeline : P)
  | failed
  deriving DecidableEq, Repr

def LibrarySlot.waits {F : Type} (ticket : JobTicket) : LibrarySlot F → Bool
  | .pending t => t == ticket
  | .ready _ => false

def LibrarySlot.land {F : Type} (ticket : JobTicket) (function : F) (slot : LibrarySlot F) : LibrarySlot F :=
  if slot.waits ticket then .ready function else slot

def LibrarySlot.tickets {F : Type} : LibrarySlot F → List JobTicket
  | .pending t => [t]
  | .ready _ => []

namespace DeferredState

variable {F P : Type}

def tickets : DeferredState F P → List JobTicket
  | .libraries vs ps => vs.tickets ++ ps.tickets
  | .pipeline t => [t]
  | .ready _ | .failed => []

def onLibrary (ticket : JobTicket) (outcome : Option F) : DeferredState F P → DeferredState F P
  | .libraries vs ps =>
    if !vs.waits ticket && !ps.waits ticket then .libraries vs ps
    else
      match outcome with
      | none => .failed
      | some function => .libraries (vs.land ticket function) (ps.land ticket function)
  | s => s

def onPipeline [DecidableEq F] [DecidableEq P] (ticket : JobTicket) (outcome : Option P)
    (s : DeferredState F P) : DeferredState F P :=
  if s = .pipeline ticket then outcome.elim .failed .ready else s

end DeferredState

abbrev DeferredPipelines (F P R : Type) := List (DeferredState F P × R)

namespace DeferredPipelines

variable {F P R : Type}

/-- `defer`: the id, which must fit a `u32`, or a panic. -/
def id (index : ℕ) : Option ℕ := if index < 4294967296 then some index else none

def defer [DecidableEq F] [DecidableEq P] (records : DeferredPipelines F P R) (state : DeferredState F P)
    (sameTemplate : R → Bool) (template : R) : DeferredPipelines F P R × Option ℕ :=
  match records.getLast? with
  | some (lastState, lastTemplate) =>
    if lastState = state ∧ sameTemplate lastTemplate = true then (records, id (records.length - 1))
    else (records ++ [(state, template)], id records.length)
  | none => (records ++ [(state, template)], id records.length)

def onLibrary (records : DeferredPipelines F P R) (ticket : JobTicket) (outcome : Option F) :
    DeferredPipelines F P R :=
  records.map fun r ↦ (r.1.onLibrary ticket outcome, r.2)

/-- `advance`; the caller's closure may answer differently at each record it is asked about. -/
def advance (records : DeferredPipelines F P R) (resolve : ℕ → R → F → F → R × DeferredState F P) :
    DeferredPipelines F P R :=
  records.mapIdx fun k r ↦ match r.1 with
    | .libraries (.ready vs) (.ready ps) => (resolve k r.2 vs ps).swap
    | _ => r

def onPipeline [DecidableEq F] [DecidableEq P] (records : DeferredPipelines F P R) (ticket : JobTicket)
    (outcome : Option P) : DeferredPipelines F P R :=
  records.map fun r ↦ (r.1.onPipeline ticket outcome, r.2)

def note (tickets : List JobTicket) (ticket : JobTicket) : List JobTicket :=
  if ticket ∈ tickets then tickets else tickets ++ [ticket]

def pendingTickets (records : DeferredPipelines F P R) : List JobTicket :=
  records.foldl (fun tickets r ↦ r.1.tickets.foldl note tickets) []

def retryLost (records : DeferredPipelines F P R) (lost : List JobTicket)
    (retry : ℕ → R → R × DeferredState F P) : DeferredPipelines F P R :=
  records.mapIdx fun k r ↦ match r.1 with
    | .libraries vs ps => if (vs.tickets ++ ps.tickets).any (· ∈ lost) then (.failed, r.2) else r
    | .pipeline t => if t ∈ lost then (retry k r.2).swap else r
    | _ => r

def answer (records : DeferredPipelines F P R) (id : ℕ) : Option P :=
  match records[id]? with
  | some (.ready pipeline, _) => some pipeline
  | _ => none

end DeferredPipelines

/-- What happens to the records once the submission's draws are deferred. -/
inductive DeferredOp (F P R : Type)
  | onLibrary (ticket : JobTicket) (outcome : Option F)
  | onPipeline (ticket : JobTicket) (outcome : Option P)
  | advance (resolve : ℕ → R → F → F → R × DeferredState F P)
  | retryLost (lost : List JobTicket) (retry : ℕ → R → R × DeferredState F P)

namespace DeferredPipelines

variable {F P R : Type} [DecidableEq F] [DecidableEq P]

def step (records : DeferredPipelines F P R) : DeferredOp F P R → DeferredPipelines F P R
  | .onLibrary t outcome => records.onLibrary t outcome
  | .onPipeline t outcome => records.onPipeline t outcome
  | .advance resolve => records.advance resolve
  | .retryLost lost retry => records.retryLost lost retry

def run (records : DeferredPipelines F P R) (ops : List (DeferredOp F P R)) : DeferredPipelines F P R :=
  ops.foldl step records

def deferAll {K : Type} [DecidableEq K] (key : R → K) :
    DeferredPipelines F P R → List (DeferredState F P × R) → DeferredPipelines F P R × List (Option ℕ)
  | records, [] => (records, [])
  | records, (state, template) :: draws =>
    let (records₁, id) := records.defer state (fun last ↦ key last == key template) template
    let (records₂, ids) := deferAll key records₁ draws
    (records₂, id :: ids)

/-- What an operation does to record `k`. -/
def recordStep (k : ℕ) (op : DeferredOp F P R) (r : DeferredState F P × R) : DeferredState F P × R :=
  match op with
  | .onLibrary t outcome => (r.1.onLibrary t outcome, r.2)
  | .onPipeline t outcome => (r.1.onPipeline t outcome, r.2)
  | .advance resolve => match r.1 with
    | .libraries (.ready vs) (.ready ps) => (resolve k r.2 vs ps).swap
    | _ => r
  | .retryLost lost retry => match r.1 with
    | .libraries vs ps => if (vs.tickets ++ ps.tickets).any (· ∈ lost) then (.failed, r.2) else r
    | .pipeline t => if t ∈ lost then (retry k r.2).swap else r
    | _ => r

theorem step_eq_mapIdx (records : DeferredPipelines F P R) (op : DeferredOp F P R) :
    records.step op = records.mapIdx fun k r ↦ recordStep k op r := by
  cases op with
  | onLibrary t outcome => exact ext_getElem? fun k ↦ by simp [step, onLibrary, recordStep]
  | onPipeline t outcome => exact ext_getElem? fun k ↦ by simp [step, onPipeline, recordStep]
  | advance resolve => rfl
  | retryLost lost retry => rfl

def recordRun (k : ℕ) (ops : List (DeferredOp F P R)) (r : DeferredState F P × R) : DeferredState F P × R :=
  ops.foldl (fun r op ↦ recordStep k op r) r

theorem run_getElem? (records : DeferredPipelines F P R) (ops : List (DeferredOp F P R)) (k : ℕ) :
    (records.run ops)[k]? = records[k]?.map (recordRun k ops) := by
  induction ops generalizing records with
  | nil => exact (congrFun Option.map_id _).symm
  | cons op ops ih =>
    refine (ih (records.step op)).trans ?_
    rw [step_eq_mapIdx, List.getElem?_mapIdx, Option.map_map]
    rfl

inductive Moves (k : ℕ) : DeferredOp F P R → DeferredState F P × R → DeferredState F P × R → Prop
  | stays (op : DeferredOp F P R) (r : DeferredState F P × R) : Moves k op r r
  | landed {t : JobTicket} {f : F} {vs ps : LibrarySlot F} {r : R} (h : t ∈ vs.tickets ++ ps.tickets) :
      Moves k (.onLibrary t (some f)) (.libraries vs ps, r) (.libraries (vs.land t f) (ps.land t f), r)
  | libraryFailed {t : JobTicket} {vs ps : LibrarySlot F} {r : R} (h : t ∈ vs.tickets ++ ps.tickets) :
      Moves k (.onLibrary t none) (.libraries vs ps, r) (.failed, r)
  | resolved {resolve : ℕ → R → F → F → R × DeferredState F P} {vs ps : F} {r : R} :
      Moves k (.advance resolve) (.libraries (.ready vs) (.ready ps), r) (resolve k r vs ps).swap
  | built {t : JobTicket} {p : P} {r : R} : Moves k (.onPipeline t (some p)) (.pipeline t, r) (.ready p, r)
  | buildFailed {t : JobTicket} {r : R} : Moves k (.onPipeline t none) (.pipeline t, r) (.failed, r)
  | libraryLost {lost : List JobTicket} {retry : ℕ → R → R × DeferredState F P} {t : JobTicket}
      {vs ps : LibrarySlot F} {r : R} (hlost : t ∈ lost) (h : t ∈ vs.tickets ++ ps.tickets) :
      Moves k (.retryLost lost retry) (.libraries vs ps, r) (.failed, r)
  | retried {lost : List JobTicket} {retry : ℕ → R → R × DeferredState F P} {t : JobTicket} {r : R}
      (hlost : t ∈ lost) : Moves k (.retryLost lost retry) (.pipeline t, r) (retry k r).swap

variable {slot : LibrarySlot F}

omit [DecidableEq F] [DecidableEq P] in
theorem waits_iff {t : JobTicket} : slot.waits t = true ↔ t ∈ slot.tickets := by
  cases slot with
  | ready f => simp [LibrarySlot.waits, LibrarySlot.tickets]
  | pending u =>
    rw [LibrarySlot.waits, LibrarySlot.tickets, mem_singleton, beq_iff_eq]
    exact eq_comm

theorem recordStep_moves (k : ℕ) (op : DeferredOp F P R) (r : DeferredState F P × R) :
    Moves k op r (recordStep k op r) := by
  obtain ⟨s, r⟩ := r
  cases op with
  | onLibrary t outcome =>
    cases s with
    | libraries vs ps =>
      simp only [recordStep, DeferredState.onLibrary]
      split_ifs with hidle
      · exact .stays _ _
      · have hmem : t ∈ vs.tickets ++ ps.tickets := by
          rw [mem_append, ← waits_iff, ← waits_iff]
          cases hv : vs.waits t <;> simp_all
        cases outcome with
        | none => exact .libraryFailed hmem
        | some f => exact .landed hmem
    | _ => exact .stays _ _
  | onPipeline t outcome =>
    simp only [recordStep, DeferredState.onPipeline]
    split_ifs with hs
    · subst hs
      cases outcome with
      | none => exact .buildFailed
      | some p => exact .built
    · exact .stays _ _
  | advance resolve =>
    cases s with
    | libraries vs ps =>
      cases vs with
      | pending t => exact .stays _ _
      | ready f =>
        cases ps with
        | pending t => exact .stays _ _
        | ready g => exact .resolved
    | _ => exact .stays _ _
  | retryLost lost retry =>
    cases s with
    | libraries vs ps =>
      simp only [recordStep]
      split_ifs with hany
      · obtain ⟨t, ht, hlost⟩ := any_eq_true.1 hany
        exact .libraryLost (of_decide_eq_true hlost) ht
      · exact .stays _ _
    | pipeline t =>
      simp only [recordStep]
      split_ifs with hlost
      · exact .retried hlost
      · exact .stays _ _
    | _ => exact .stays _ _

inductive SlotGets (ops : List (DeferredOp F P R)) : LibrarySlot F → F → Prop
  | ready (f : F) : SlotGets ops (.ready f) f
  | landed {t : JobTicket} {f : F} (h : .onLibrary t (some f) ∈ ops) : SlotGets ops (.pending t) f

/-- `p` is what record `k`, deferred as `s` for template `r`, was built or resolved to: from the functions of its
own two slots, by the answer for its own template, and under the ticket of that answer. -/
inductive Yields (ops : List (DeferredOp F P R)) (k : ℕ) : R → DeferredState F P → P → Prop
  | ready (r : R) (p : P) : Yields ops k r (.ready p) p
  | built {r : R} {t : JobTicket} {p : P} (h : .onPipeline t (some p) ∈ ops) : Yields ops k r (.pipeline t) p
  | retried {r : R} {t : JobTicket} {p : P} {lost : List JobTicket} {retry : ℕ → R → R × DeferredState F P}
      (h : .retryLost lost retry ∈ ops) (hlost : t ∈ lost)
      (hrest : Yields ops k (retry k r).1 (retry k r).2 p) : Yields ops k r (.pipeline t) p
  | resolved {r : R} {vs ps : LibrarySlot F} {f g : F} {p : P} {resolve : ℕ → R → F → F → R × DeferredState F P}
      (hvs : SlotGets ops vs f) (hps : SlotGets ops ps g) (h : .advance resolve ∈ ops)
      (hrest : Yields ops k (resolve k r f g).1 (resolve k r f g).2 p) : Yields ops k r (.libraries vs ps) p

inductive Refused (ops : List (DeferredOp F P R)) (k : ℕ) : R → DeferredState F P → Prop
  | failed (r : R) : Refused ops k r .failed
  | buildFailed {r : R} {t : JobTicket} (h : .onPipeline t none ∈ ops) : Refused ops k r (.pipeline t)
  | retried {r : R} {t : JobTicket} {lost : List JobTicket} {retry : ℕ → R → R × DeferredState F P}
      (h : .retryLost lost retry ∈ ops) (hlost : t ∈ lost)
      (hrest : Refused ops k (retry k r).1 (retry k r).2) : Refused ops k r (.pipeline t)
  | libraryFailed {r : R} {vs ps : LibrarySlot F} {t : JobTicket} (ht : t ∈ vs.tickets ++ ps.tickets)
      (h : .onLibrary t none ∈ ops) : Refused ops k r (.libraries vs ps)
  | libraryLost {r : R} {vs ps : LibrarySlot F} {t : JobTicket} {lost : List JobTicket}
      {retry : ℕ → R → R × DeferredState F P} (ht : t ∈ vs.tickets ++ ps.tickets)
      (h : .retryLost lost retry ∈ ops) (hlost : t ∈ lost) : Refused ops k r (.libraries vs ps)
  | resolved {r : R} {vs ps : LibrarySlot F} {f g : F} {resolve : ℕ → R → F → F → R × DeferredState F P}
      (hvs : SlotGets ops vs f) (hps : SlotGets ops ps g) (h : .advance resolve ∈ ops)
      (hrest : Refused ops k (resolve k r f g).1 (resolve k r f g).2) : Refused ops k r (.libraries vs ps)

section Outcome

variable {ops more : List (DeferredOp F P R)} {k : ℕ} {r : R} {s : DeferredState F P} {p : P}

omit [DecidableEq F] [DecidableEq P]

theorem SlotGets.mono (hsub : ops ⊆ more) {f : F} (h : SlotGets ops slot f) : SlotGets more slot f := by
  cases h with
  | ready => exact .ready _
  | landed h => exact .landed (hsub h)

theorem Yields.mono (hsub : ops ⊆ more) (h : Yields ops k r s p) : Yields more k r s p := by
  induction h with
  | ready r p => exact .ready r p
  | built h => exact .built (hsub h)
  | retried h hlost _ ih => exact .retried (hsub h) hlost ih
  | resolved hvs hps h _ ih => exact .resolved (hvs.mono hsub) (hps.mono hsub) (hsub h) ih

theorem Refused.mono (hsub : ops ⊆ more) (h : Refused ops k r s) : Refused more k r s := by
  induction h with
  | failed r => exact .failed r
  | buildFailed h => exact .buildFailed (hsub h)
  | retried h hlost _ ih => exact .retried (hsub h) hlost ih
  | libraryFailed ht h => exact .libraryFailed ht (hsub h)
  | libraryLost ht h hlost => exact .libraryLost ht (hsub h) hlost
  | resolved hvs hps h _ ih => exact .resolved (hvs.mono hsub) (hps.mono hsub) (hsub h) ih

theorem SlotGets.of_land {t : JobTicket} {f g : F}
    (h : SlotGets ops (slot.land t f) g) (hmem : .onLibrary t (some f) ∈ ops) : SlotGets ops slot g := by
  cases slot with
  | ready f' => exact h
  | pending u =>
    unfold LibrarySlot.land at h
    split_ifs at h with hu
    · obtain rfl : u = t := by simpa [LibrarySlot.waits] using hu
      cases h
      exact .landed hmem
    · exact h

theorem mem_tickets_of_land {t u : JobTicket} {f : F} (h : u ∈ (slot.land t f).tickets) : u ∈ slot.tickets := by
  unfold LibrarySlot.land at h
  split_ifs at h
  · cases h
  · exact h

variable {op : DeferredOp F P R} {before after : DeferredState F P × R}

theorem Yields.of_moves (hmoves : Moves k op before after) (hop : op ∈ ops)
    (h : Yields ops k after.2 after.1 p) : Yields ops k before.2 before.1 p := by
  cases hmoves with
  | stays => exact h
  | landed ht =>
    cases h with
    | resolved hvs hps hadv hrest => exact .resolved (hvs.of_land hop) (hps.of_land hop) hadv hrest
  | libraryFailed => cases h
  | resolved => exact .resolved (.ready _) (.ready _) hop h
  | built =>
    cases h
    exact .built hop
  | buildFailed => cases h
  | libraryLost => cases h
  | retried hlost => exact .retried hop hlost h

theorem Refused.of_moves (hmoves : Moves k op before after) (hop : op ∈ ops)
    (h : Refused ops k after.2 after.1) : Refused ops k before.2 before.1 := by
  cases hmoves with
  | stays => exact h
  | landed ht =>
    have hmem : ∀ {u : JobTicket} {vs ps : LibrarySlot F} {t : JobTicket} {f : F},
        u ∈ (vs.land t f).tickets ++ (ps.land t f).tickets → u ∈ vs.tickets ++ ps.tickets := fun hu ↦
      mem_append.2 ((mem_append.1 hu).imp mem_tickets_of_land mem_tickets_of_land)
    cases h with
    | libraryFailed hu hlib => exact .libraryFailed (hmem hu) hlib
    | libraryLost hu hretry hlost => exact .libraryLost (hmem hu) hretry hlost
    | resolved hvs hps hadv hrest => exact .resolved (hvs.of_land hop) (hps.of_land hop) hadv hrest
  | libraryFailed ht => exact .libraryFailed ht hop
  | resolved => exact .resolved (.ready _) (.ready _) hop h
  | built => cases h
  | buildFailed => exact .buildFailed hop
  | libraryLost hlost ht => exact .libraryLost ht hop hlost
  | retried hlost => exact .retried hop hlost h

end Outcome

theorem recordRun_ready {ops : List (DeferredOp F P R)} {k : ℕ} {p : P} {r' : R} {rec : DeferredState F P × R}
    (h : recordRun k ops rec = (.ready p, r')) : Yields ops k rec.2 rec.1 p := by
  induction ops generalizing rec with
  | nil =>
    cases h
    exact .ready r' p
  | cons op ops ih =>
    refine Yields.of_moves (recordStep_moves k op rec) mem_cons_self ?_
    exact (ih h).mono (subset_cons_self _ _)

theorem recordRun_failed {ops : List (DeferredOp F P R)} {k : ℕ} {r' : R} {rec : DeferredState F P × R}
    (h : recordRun k ops rec = (.failed, r')) : Refused ops k rec.2 rec.1 := by
  induction ops generalizing rec with
  | nil =>
    cases h
    exact .failed r'
  | cons op ops ih =>
    refine Refused.of_moves (recordStep_moves k op rec) mem_cons_self ?_
    exact (ih h).mono (subset_cons_self _ _)

end DeferredPipelines

def DeferredState.Resolved {F P : Type} : DeferredState F P → Prop
  | .libraries _ _ => False
  | _ => True

def DeferredOp.Answers {F P R : Type} : DeferredOp F P R → Prop
  | .advance resolve => ∀ k r f g, (resolve k r f g).2.Resolved
  | .retryLost _ retry => ∀ k r, (retry k r).2.Resolved
  | _ => True

def LibrarySlot.Forward {F : Type} (slot slot' : LibrarySlot F) : Prop :=
  slot' = slot ∨ ∃ t f, slot = .pending t ∧ slot' = .ready f

def DeferredState.Forward {F P R : Type} (ops : List (DeferredOp F P R)) :
    DeferredState F P → DeferredState F P → Prop
  | .libraries vs ps, .libraries vs' ps' => vs.Forward vs' ∧ ps.Forward ps'
  | .libraries _ _, _ => True
  | .pipeline _, .libraries _ _ => False
  | .pipeline t, .pipeline t' => t' = t ∨ ∃ lost retry, .retryLost lost retry ∈ ops ∧ t ∈ lost
  | .pipeline _, _ => True
  | .ready p, s => s = .ready p
  | .failed, s => s = .failed

namespace DeferredPipelines

variable {F P R : Type} {ops : List (DeferredOp F P R)}

theorem slot_forward_trans {a b c : LibrarySlot F} (h : a.Forward b) (h' : b.Forward c) : a.Forward c := by
  rcases h with rfl | ⟨t, f, rfl, rfl⟩
  · exact h'
  · rcases h' with rfl | ⟨u, g, hu, -⟩
    · exact .inr ⟨t, f, rfl, rfl⟩
    · cases hu

theorem forward_refl (s : DeferredState F P) : s.Forward ops s := by
  cases s with
  | libraries vs ps => exact ⟨.inl rfl, .inl rfl⟩
  | pipeline t => exact .inl rfl
  | ready p => rfl
  | failed => rfl

theorem forward_trans {a b c : DeferredState F P} (h : a.Forward ops b) (h' : b.Forward ops c) :
    a.Forward ops c := by
  cases a with
  | libraries vs ps =>
    cases c with
    | libraries vs' ps' =>
      cases b with
      | libraries vs'' ps'' => exact ⟨slot_forward_trans h.1 h'.1, slot_forward_trans h.2 h'.2⟩
      | pipeline t => exact h'.elim
      | ready p => cases h'
      | failed => cases h'
    | _ => trivial
  | pipeline t =>
    cases c with
    | libraries vs' ps' =>
      cases b with
      | libraries vs'' ps'' => exact h.elim
      | pipeline t => exact h'.elim
      | ready p => cases h'
      | failed => cases h'
    | pipeline t' =>
      cases b with
      | libraries vs'' ps'' => exact h.elim
      | pipeline t'' =>
        rcases h with rfl | hlost
        · exact h'
        · exact .inr hlost
      | ready p => cases h'
      | failed => cases h'
    | _ => trivial
  | ready p =>
    cases h
    exact h'
  | failed =>
    cases h
    exact h'

theorem slot_forward_land (t : JobTicket) (f : F) (slot : LibrarySlot F) : slot.Forward (slot.land t f) := by
  cases slot with
  | ready g => exact .inl rfl
  | pending u =>
    unfold LibrarySlot.land
    split_ifs
    · exact .inr ⟨u, f, rfl, rfl⟩
    · exact .inl rfl

theorem Moves.forward {op : DeferredOp F P R} {k : ℕ} {before after : DeferredState F P × R}
    (h : Moves k op before after) (hop : op ∈ ops) (hanswers : op.Answers) : before.1.Forward ops after.1 := by
  cases h with
  | stays => exact forward_refl _
  | landed ht => exact ⟨slot_forward_land _ _ _, slot_forward_land _ _ _⟩
  | libraryFailed => trivial
  | @resolved resolve vs ps r =>
    have hres := hanswers k r vs ps
    show DeferredState.Forward ops _ (resolve k r vs ps).2
    cases hs : (resolve k r vs ps).2 with
    | libraries vs' ps' =>
      rw [hs] at hres
      exact hres.elim
    | _ => trivial
  | built => trivial
  | buildFailed => trivial
  | libraryLost => trivial
  | @retried lost retry t r hlost =>
    have hres := hanswers k r
    show DeferredState.Forward ops _ (retry k r).2
    cases hs : (retry k r).2 with
    | libraries vs' ps' =>
      rw [hs] at hres
      exact hres.elim
    | pipeline t' => exact .inr ⟨lost, retry, hop, hlost⟩
    | _ => trivial

section Run

variable [DecidableEq F] [DecidableEq P]

theorem recordRun_forward {k : ℕ} {more : List (DeferredOp F P R)} (hmore : more ⊆ ops)
    (hanswers : ∀ op ∈ more, op.Answers) (rec : DeferredState F P × R) :
    rec.1.Forward ops (recordRun k more rec).1 := by
  induction more generalizing rec with
  | nil => exact forward_refl _
  | cons op more ih =>
    have hstep : rec.1.Forward ops (recordStep k op rec).1 :=
      (recordStep_moves k op rec).forward (hmore mem_cons_self) (hanswers op mem_cons_self)
    have hrest := ih (fun o ho ↦ hmore (mem_cons_of_mem _ ho))
      (fun o ho ↦ hanswers o (mem_cons_of_mem _ ho)) (recordStep k op rec)
    exact forward_trans hstep hrest

end Run

variable {tickets : List JobTicket}

theorem mem_note {t u : JobTicket} : u ∈ note tickets t ↔ u ∈ tickets ∨ u = t := by
  unfold note
  split_ifs with ht
  · refine ⟨.inl, ?_⟩
    rintro (h | rfl)
    · exact h
    · exact ht
  · simp

theorem nodup_note (h : tickets.Nodup) (t : JobTicket) : (note tickets t).Nodup := by
  unfold note
  split_ifs with ht
  · exact h
  · exact nodup_append.2 ⟨h, nodup_singleton t, fun a ha b hb ↦ by
      rw [mem_singleton.1 hb]
      rintro rfl
      exact ht ha⟩

theorem notes_spec (noted : List JobTicket) (h : tickets.Nodup) :
    (noted.foldl note tickets).Nodup ∧ ∀ u, u ∈ noted.foldl note tickets ↔ u ∈ tickets ∨ u ∈ noted := by
  induction noted generalizing tickets with
  | nil => exact ⟨h, fun u ↦ by simp⟩
  | cons t noted ih =>
    obtain ⟨hnodup, hmem⟩ := ih (nodup_note h t)
    refine ⟨hnodup, fun u ↦ ?_⟩
    rw [foldl_cons, hmem, mem_note, mem_cons, or_assoc]

theorem pendingTickets_fold (records : DeferredPipelines F P R) (h : tickets.Nodup) :
    (records.foldl (fun tickets r ↦ r.1.tickets.foldl note tickets) tickets).Nodup ∧
      ∀ u, u ∈ records.foldl (fun tickets r ↦ r.1.tickets.foldl note tickets) tickets ↔
        u ∈ tickets ∨ ∃ r ∈ records, u ∈ r.1.tickets := by
  induction records generalizing tickets with
  | nil => exact ⟨h, fun u ↦ by simp⟩
  | cons r records ih =>
    obtain ⟨hn, hm⟩ := notes_spec r.1.tickets h
    obtain ⟨hnodup, hmem⟩ := ih hn
    refine ⟨hnodup, fun u ↦ ?_⟩
    rw [foldl_cons, hmem, hm, or_assoc, exists_mem_cons_iff]

theorem pendingTickets_spec (records : DeferredPipelines F P R) :
    records.pendingTickets.Nodup ∧ ∀ t, t ∈ records.pendingTickets ↔ ∃ r ∈ records, t ∈ r.1.tickets := by
  obtain ⟨hnodup, hmem⟩ := pendingTickets_fold records nodup_nil
  exact ⟨hnodup, fun t ↦ (hmem t).trans (by simp)⟩

theorem advance_settled {records : DeferredPipelines F P R} {resolve : ℕ → R → F → F → R × DeferredState F P}
    (hanswers : (DeferredOp.advance resolve).Answers) (hnone : (records.advance resolve).pendingTickets = [])
    {rec : DeferredState F P × R} (hrec : rec ∈ records.advance resolve) :
    (∃ p, rec.1 = .ready p) ∨ rec.1 = .failed := by
  have hidle : ∀ t, t ∉ rec.1.tickets := fun t ht ↦ by
    have hmem := ((pendingTickets_spec (records.advance resolve)).2 t).2 ⟨rec, hrec, ht⟩
    rw [hnone] at hmem
    cases hmem
  obtain ⟨k, hk, hget⟩ := mem_iff_getElem.1 hrec
  simp only [advance, getElem_mapIdx] at hget
  obtain ⟨s, r⟩ := rec
  cases s with
  | ready p => exact .inl ⟨p, rfl⟩
  | failed => exact .inr rfl
  | pipeline t => exact absurd (mem_singleton_self t) (hidle t)
  | libraries vs ps =>
    exfalso
    cases vs with
    | pending t => exact hidle t (mem_append_left _ (mem_singleton_self t))
    | ready f =>
      cases ps with
      | pending t => exact hidle t (mem_append_right _ (mem_singleton_self t))
      | ready g =>
        -- a record left with both functions would have to be the answer of its own resolution
        split at hget
        · rename_i vs ps hlib
          have hstate := congrArg Prod.fst hget
          rw [Prod.fst_swap] at hstate
          have hres : ∀ r', (resolve k r' vs ps).2 ≠ .libraries (.ready f) (.ready g) := fun r' heq ↦ by
            have := hanswers k r' vs ps
            rwa [heq] at this
          exact hres _ hstate
        · rename_i hnot
          rw [hget] at hnot
          exact hnot f g rfl

section Defer

variable [DecidableEq F] [DecidableEq P] {K : Type} [DecidableEq K] (key : R → K)

theorem defer_spec (records : DeferredPipelines F P R) (s : DeferredState F P) (r : R) :
    records <+: (records.defer s (fun last ↦ key last == key r) r).1 ∧
      ∀ n, (records.defer s (fun last ↦ key last == key r) r).2 = some n →
        ∃ r', (records.defer s (fun last ↦ key last == key r) r).1[n]? = some (s, r') ∧ key r' = key r := by
  have hnew : records <+: records ++ [(s, r)] ∧ ∀ n, id records.length = some n →
      ∃ r', (records ++ [(s, r)])[n]? = some (s, r') ∧ key r' = key r := by
    refine ⟨prefix_append _ _, fun n hn ↦ ⟨r, ?_, rfl⟩⟩
    obtain ⟨-, hn'⟩ := Option.ite_none_right_eq_some.1 hn
    rw [← Option.some.inj hn']
    exact List.getElem?_concat_length
  unfold defer
  cases hlast : records.getLast? with
  | none => exact hnew
  | some last =>
    obtain ⟨lastState, lastTemplate⟩ := last
    dsimp only
    split_ifs with hsame
    · refine ⟨prefix_refl _, fun n hn ↦ ⟨lastTemplate, ?_, by simpa using hsame.2⟩⟩
      obtain ⟨-, hn'⟩ := Option.ite_none_right_eq_some.1 hn
      rw [List.getLast?_eq_getElem?] at hlast
      rw [← Option.some.inj hn', hlast, hsame.1]
    · exact hnew

theorem deferAll_spec (draws : List (DeferredState F P × R)) (records : DeferredPipelines F P R) :
    records <+: (deferAll key records draws).1 ∧
      ∀ (j : ℕ) s r (n : ℕ), draws[j]? = some (s, r) → (deferAll key records draws).2[j]? = some (some n) →
        ∃ r', (deferAll key records draws).1[n]? = some (s, r') ∧ key r' = key r := by
  induction draws generalizing records with
  | nil => exact ⟨prefix_refl _, nofun⟩
  | cons draw draws ih =>
    obtain ⟨s, r⟩ := draw
    obtain ⟨hpre, hown⟩ := defer_spec key records s r
    obtain ⟨hpre', hrest⟩ := ih (records.defer s (fun last ↦ key last == key r) r).1
    refine ⟨hpre.trans hpre', fun j s' r' n hj hn ↦ ?_⟩
    cases j with
    | zero =>
      cases hj
      obtain ⟨r'', hget, hkey⟩ := hown n (Option.some.inj hn)
      obtain ⟨more, hmore⟩ := hpre'
      refine ⟨r'', ?_, hkey⟩
      rw [deferAll, ← hmore, List.getElem?_append_left (List.getElem?_eq_some_iff.1 hget).1, hget]
    | succ j => exact hrest j s' r' n hj hn

end Defer

structure Resolution [DecidableEq F] [DecidableEq P] {K : Type} [DecidableEq K] (key : R → K)
    (draws : List (DeferredState F P × R)) (ops : List (DeferredOp F P R))
    (deferred final : DeferredPipelines F P R) (ids : List (Option ℕ)) : Prop where
  /-- A draw's id names a record of the draw's own template and state. -/
  named : ∀ (j : ℕ) s r (n : ℕ), draws[j]? = some (s, r) → ids[j]? = some (some n) →
    ∃ r', deferred[n]? = some (s, r') ∧ key r' = key r
  shared : ∀ (i j : ℕ) s s' r r' (n : ℕ), draws[i]? = some (s, r) → draws[j]? = some (s', r') →
    ids[i]? = some (some n) → ids[j]? = some (some n) → s = s' ∧ key r = key r'
  forward : ∀ past later, ops = past ++ later → ∀ (k : ℕ) rec rec', (deferred.run past)[k]? = some rec →
    final[k]? = some rec' → rec.1.Forward ops rec'.1
  ready : ∀ (k : ℕ) s r p r', deferred[k]? = some (s, r) → final[k]? = some (.ready p, r') → Yields ops k r s p
  failed : ∀ (k : ℕ) s r r', deferred[k]? = some (s, r) → final[k]? = some (.failed, r') → Refused ops k r s
  answered : ∀ id p, final.answer id = some p → ∃ s r, deferred[id]? = some (s, r) ∧ Yields ops id r s p
  pending : final.pendingTickets.Nodup ∧ ∀ t, t ∈ final.pendingTickets ↔ ∃ rec ∈ final, t ∈ rec.1.tickets
  settled : ∀ resolve, (DeferredOp.advance resolve).Answers → (final.advance resolve).pendingTickets = [] →
    ∀ rec ∈ final.advance resolve, (∃ p, rec.1 = .ready p) ∨ rec.1 = .failed

theorem deferred_resolution [DecidableEq F] [DecidableEq P] {K : Type} [DecidableEq K] (key : R → K)
    (draws : List (DeferredState F P × R)) (ops : List (DeferredOp F P R)) (hanswers : ∀ op ∈ ops, op.Answers) :
    Resolution key draws ops (deferAll key [] draws).1 ((deferAll key [] draws).1.run ops)
      (deferAll key [] draws).2 := by
  have hnamed := (deferAll_spec key draws []).2
  generalize (deferAll key [] draws).1 = deferred at hnamed ⊢
  generalize (deferAll key [] draws).2 = ids at hnamed ⊢
  have hready : ∀ (k : ℕ) s r p r', deferred[k]? = some (s, r) → (deferred.run ops)[k]? = some (.ready p, r') →
      Yields ops k r s p := by
    intro k s r p r' hk hfinal
    rw [run_getElem?, hk, Option.map_some, Option.some.injEq] at hfinal
    exact recordRun_ready hfinal
  refine ⟨hnamed, ?_, ?_, hready, ?_, ?_, pendingTickets_spec _, fun resolve hres hnone rec hrec ↦
    advance_settled hres hnone hrec⟩
  · intro i j s s' r r' n hi hj hidi hidj
    obtain ⟨t, hget, hkey⟩ := hnamed i s r n hi hidi
    obtain ⟨t', hget', hkey'⟩ := hnamed j s' r' n hj hidj
    rw [hget] at hget'
    cases hget'
    exact ⟨rfl, hkey.symm.trans hkey'⟩
  · rintro past later rfl k rec rec' hrec hrec'
    have hsplit : deferred.run (past ++ later) = (deferred.run past).run later := foldl_append
    rw [hsplit, run_getElem?, hrec, Option.map_some, Option.some.injEq] at hrec'
    rw [← hrec']
    exact recordRun_forward (subset_append_right _ _)
      (fun op hop ↦ hanswers op (mem_append_right _ hop)) rec
  · intro k s r r' hk hfinal
    rw [run_getElem?, hk, Option.map_some, Option.some.injEq] at hfinal
    exact recordRun_failed hfinal
  · intro n p hn
    have hfinal : ∃ r', (deferred.run ops)[n]? = some (.ready p, r') := by
      unfold answer at hn
      split at hn
      · rename_i r' hget
        cases hn
        exact ⟨r', hget⟩
      · cases hn
    obtain ⟨r', hfinal⟩ := hfinal
    cases hk : deferred[n]? with
    | none =>
      rw [run_getElem?, hk] at hfinal
      cases hfinal
    | some rec => exact ⟨rec.1, rec.2, rfl, hready n rec.1 rec.2 p r' hk hfinal⟩

/-- One draw waits for one library under both slots; the library and then the pipeline land. -/
theorem deferred_resolution_shared_ticket :
    Resolution (F := ℕ) (P := ℕ) (R := ℕ) (K := ℕ) (fun r ↦ r)
      [(.libraries (.pending ⟨1⟩) (.pending ⟨1⟩), 7)]
      [.onLibrary ⟨1⟩ (some 3), .advance fun _ r _ _ ↦ (r, .pipeline ⟨2⟩), .onPipeline ⟨2⟩ (some 9)]
      [(.libraries (.pending ⟨1⟩) (.pending ⟨1⟩), 7)] [(.ready 9, 7)] [some 0] :=
  deferred_resolution (fun r ↦ r) [(.libraries (.pending ⟨1⟩) (.pending ⟨1⟩), 7)]
    [.onLibrary ⟨1⟩ (some 3), .advance fun _ r _ _ ↦ (r, .pipeline ⟨2⟩), .onPipeline ⟨2⟩ (some 9)]
    (by
      intro op hop
      simp only [mem_cons, not_mem_nil, or_false] at hop
      rcases hop with rfl | rfl | rfl
      · trivial
      · exact fun _ _ _ _ ↦ trivial
      · trivial)

end DeferredPipelines

end Mtld3d
