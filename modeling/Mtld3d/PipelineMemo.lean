import Mtld3d.PipelineState

namespace Mtld3d

open Function Relation

def sameLayouts (left right : Fin maxStreams → StreamLayout) : Bool :=
  (List.finRange maxStreams).foldl
    (fun difference i ↦ difference ||| ((left i).stride ^^^ (right i).stride ||| (left i).step.code ^^^
      (right i).step.code ||| (left i).stepRate ^^^ (right i).stepRate)) 0 == 0

def PipelineSnapshot.same (a b : PipelineSnapshot) : Bool :=
  a.vsFn == b.vsFn && a.psFn == b.psFn && a.vdeclHash == b.vdeclHash && a.colorFormat == b.colorFormat &&
    a.attach == b.attach && a.rs == b.rs && a.extra == b.extra && a.psColorOutMask == b.psColorOutMask &&
    a.sampleCount == b.sampleCount && sameLayouts a.streamLayouts b.streamLayouts

theorem foldl_or_eq_zero {α : Type} (f : α → ℕ) (l : List α) (d : ℕ) :
    l.foldl (fun difference i ↦ difference ||| f i) d = 0 ↔ d = 0 ∧ ∀ i ∈ l, f i = 0 := by
  induction l generalizing d with
  | nil => simp
  | cons a l ih =>
    rw [List.foldl_cons, ih, Nat.or_eq_zero_iff]
    simp [and_assoc]

theorem sameLayouts_iff (left right : Fin maxStreams → StreamLayout) :
    sameLayouts left right = true ↔ left = right := by
  have hstep : ∀ a b : VertexStepFunction, a.code = b.code → a = b := by
    intro a b
    cases a <;> cases b <;> simp [VertexStepFunction.code]
  rw [sameLayouts, beq_iff_eq, foldl_or_eq_zero]
  constructor
  · rintro ⟨-, h⟩
    funext i
    have hi := h i (List.mem_finRange i)
    simp only [Nat.or_eq_zero_iff, Nat.xor_eq_zero_iff] at hi
    obtain ⟨⟨hstride, hcode⟩, hrate⟩ := hi
    rcases hl : left i with ⟨stride, step, rate⟩
    rcases hr : right i with ⟨stride', step', rate'⟩
    rw [hl, hr] at hstride hcode hrate
    rw [StreamLayout.mk.injEq]
    exact ⟨hstride, hstep _ _ hcode, hrate⟩
  · rintro rfl
    simp

theorem PipelineSnapshot.same_iff (a b : PipelineSnapshot) : a.same b = true ↔ a = b := by
  cases a
  cases b
  simp only [same, Bool.and_eq_true, beq_iff_eq, sameLayouts_iff, PipelineSnapshot.mk.injEq]
  tauto

def pipelineMemoEntries : ℕ := 24

def pipelineTag (s : PipelineSnapshot) : ℕ :=
  s.vsFn ^^^ ((s.psFn <<< 32 ||| s.psFn >>> 32) % 18446744073709551616) ^^^ s.vdeclHash

structure PipelineMemo where
  front : Option (PipelineSnapshot × ℕ)
  frontAt : ℕ
  entries : ℕ → Option PipelineSnapshot
  handles : ℕ → ℕ
  tags : ℕ → ℕ
  stamps : ℕ → ℕ
  clock : ℕ

namespace PipelineMemo

def new : PipelineMemo := ⟨none, 0, fun _ ↦ none, fun _ ↦ 0, fun _ ↦ 0, fun _ ↦ 0, 0⟩

def touch (m : PipelineMemo) (slot : ℕ) : PipelineMemo :=
  { m with
    clock := m.clock + 1
    stamps := update m.stamps slot (m.clock + 1)
    frontAt := slot
    front := (m.entries slot).map fun s ↦ (s, m.handles slot) }

def candidates (m : PipelineMemo) (snapshot : PipelineSnapshot) : List ℕ :=
  (List.range pipelineMemoEntries).filter fun i ↦
    m.tags i == pipelineTag snapshot && m.stamps i != 0 && i != m.frontAt

def lookupEntries (m : PipelineMemo) (snapshot : PipelineSnapshot) : Option ℕ × PipelineMemo :=
  match (m.candidates snapshot).find? fun i ↦ (m.entries i).any fun s ↦ s.same snapshot with
  | some i => (some (m.handles i), m.touch i)
  | none => (none, m)

def lookup (m : PipelineMemo) (snapshot : PipelineSnapshot) : Option ℕ × PipelineMemo :=
  match m.front with
  | some (front, handle) => if front.same snapshot then (some handle, m) else m.lookupEntries snapshot
  | none => m.lookupEntries snapshot

def leastRecent (m : PipelineMemo) : ℕ :=
  (List.range pipelineMemoEntries).foldl (fun victim i ↦ if m.stamps i < m.stamps victim then i else victim) 0

def record (m : PipelineMemo) (snapshot : PipelineSnapshot) (handle : ℕ) : PipelineMemo :=
  let victim := m.leastRecent
  { m with
    entries := update m.entries victim (some snapshot)
    handles := update m.handles victim handle
    tags := update m.tags victim (pipelineTag snapshot) }.touch victim

end PipelineMemo

inductive Resolution
  | ready (handle : ℕ)
  | pending
  | failed
  deriving DecidableEq, Repr

structure PipelineJob where
  snapshot : PipelineSnapshot
  vertexAttrs : List VertexAttrDesc

/-- The memo, the cache behind it, the builds in flight and what each live handle was compiled from. -/
structure PipelineResolver (η : Type) where
  memo : PipelineMemo
  cache : PipelineKey η → Option (Option ℕ)
  jobs : List PipelineJob
  compiled : ℕ → Option MetalPipeline

namespace PipelineResolver

variable {η : Type} [DecidableEq η] (hash : List VertexAttrDesc → η)

def resolvePipeline (r : PipelineResolver η) (s : PipelineSnapshot) (attrs : List VertexAttrDesc) :
    Resolution × PipelineResolver η :=
  let key := keyFromSnapshot hash s attrs
  match r.cache key with
  | some (some handle) => (.ready handle, r)
  | some none => (.failed, r)
  | none =>
    if r.jobs.any fun job ↦ decide (keyFromSnapshot hash job.snapshot job.vertexAttrs = key) then (.pending, r)
    else (.pending, { r with jobs := r.jobs ++ [⟨s, attrs⟩] })

def getOrCreatePipeline (r : PipelineResolver η) (s : PipelineSnapshot) (attrs : List VertexAttrDesc) :
    Resolution × PipelineResolver η :=
  match r.memo.lookup s with
  | (some handle, memo) => (.ready handle, { r with memo := memo })
  | (none, memo) =>
    let r := { r with memo := memo }
    if s.vsFn = 0 ∨ s.psFn = 0 then (.pending, r)
    else
      match r.resolvePipeline hash s attrs with
      | (.ready handle, r) => (.ready handle, { r with memo := r.memo.record s handle })
      | (outcome, r) => (outcome, r)

def install (r : PipelineResolver η) (job : PipelineJob) (outcome : Option ℕ) : PipelineResolver η :=
  { r with
    jobs := r.jobs.filter fun j ↦ decide (keyFromSnapshot hash j.snapshot j.vertexAttrs ≠
      keyFromSnapshot hash job.snapshot job.vertexAttrs)
    cache := update r.cache (keyFromSnapshot hash job.snapshot job.vertexAttrs) (some outcome)
    compiled := match outcome with
      | some handle => update r.compiled handle (some (metalPipeline job.snapshot job.vertexAttrs))
      | none => r.compiled }

/-- The attribute list of a draw is a function of its snapshot, as the memo requires. -/
inductive Step (attrsOf : PipelineSnapshot → List VertexAttrDesc) : PipelineResolver η → PipelineResolver η → Prop
  | draw (r : PipelineResolver η) (s : PipelineSnapshot) :
      Step attrsOf r (r.getOrCreatePipeline hash s (attrsOf s)).2
  | install (r : PipelineResolver η) (job : PipelineJob) (outcome : Option ℕ) :
      (∀ handle, outcome = some handle → r.compiled handle = none) → Step attrsOf r (r.install hash job outcome)

def new : PipelineResolver η := ⟨.new, fun _ ↦ none, [], fun _ ↦ none⟩

variable {hash} {attrsOf : PipelineSnapshot → List VertexAttrDesc} {r r' : PipelineResolver η}

/-- Every handle the memo or the cache can give out was compiled for what it is filed under. -/
structure Sound (hash : List VertexAttrDesc → η) (attrsOf : PipelineSnapshot → List VertexAttrDesc)
    (r : PipelineResolver η) : Prop where
  front : ∀ s handle, r.memo.front = some (s, handle) →
    r.compiled handle = some (metalPipeline s (attrsOf s))
  entries : ∀ i s, r.memo.entries i = some s →
    r.compiled (r.memo.handles i) = some (metalPipeline s (attrsOf s))
  cache : ∀ key handle, r.cache key = some (some handle) →
    ∃ s attrs, keyFromSnapshot hash s attrs = key ∧ r.compiled handle = some (metalPipeline s attrs)

section

omit [DecidableEq η]

theorem sound_new : Sound hash attrsOf (new : PipelineResolver η) := by
  refine ⟨fun s handle h ↦ ?_, fun i s h ↦ ?_, fun key handle h ↦ ?_⟩
  · simp [new, PipelineMemo.new] at h
  · simp [new, PipelineMemo.new] at h
  · simp [new] at h

theorem Sound.touch (h : Sound hash attrsOf r) (i : ℕ) :
    Sound hash attrsOf { r with memo := r.memo.touch i } := by
  refine ⟨fun s handle hf ↦ ?_, h.entries, h.cache⟩
  obtain ⟨s', hs', heq⟩ := Option.map_eq_some_iff.mp hf
  obtain ⟨rfl, rfl⟩ := Prod.mk.inj heq
  exact h.entries i _ hs'

theorem Sound.record (h : Sound hash attrsOf r) {s : PipelineSnapshot} {handle : ℕ}
    (hc : r.compiled handle = some (metalPipeline s (attrsOf s))) :
    Sound hash attrsOf { r with memo := r.memo.record s handle } := by
  have hplaced : Sound hash attrsOf { r with
      memo := { r.memo with
        entries := update r.memo.entries r.memo.leastRecent (some s)
        handles := update r.memo.handles r.memo.leastRecent handle
        tags := update r.memo.tags r.memo.leastRecent (pipelineTag s) } } := by
    refine ⟨h.front, fun i s' hs' ↦ ?_, h.cache⟩
    simp only at hs' ⊢
    by_cases hi : i = r.memo.leastRecent
    · rw [hi, update_self] at hs' ⊢
      rwa [← Option.some.inj hs']
    · rw [update_of_ne hi] at hs' ⊢
      exact h.entries i s' hs'
  exact hplaced.touch _

theorem Sound.lookup (h : Sound hash attrsOf r) {s : PipelineSnapshot} {out : Option ℕ} {memo : PipelineMemo}
    (hl : r.memo.lookup s = (out, memo)) : Sound hash attrsOf { r with memo := memo } ∧
      ∀ handle, out = some handle → r.compiled handle = some (metalPipeline s (attrsOf s)) := by
  have hentries : ∀ {out memo}, r.memo.lookupEntries s = (out, memo) →
      Sound hash attrsOf { r with memo := memo } ∧
        ∀ handle, out = some handle → r.compiled handle = some (metalPipeline s (attrsOf s)) := by
    intro out memo hle
    rw [PipelineMemo.lookupEntries] at hle
    cases hf : (r.memo.candidates s).find? fun i ↦ (r.memo.entries i).any fun s' ↦ s'.same s with
    | none =>
      rw [hf] at hle
      obtain ⟨rfl, rfl⟩ := Prod.mk.inj hle
      exact ⟨h, fun handle hh ↦ absurd hh (by simp)⟩
    | some i =>
      rw [hf] at hle
      obtain ⟨rfl, rfl⟩ := Prod.mk.inj hle
      refine ⟨h.touch i, fun handle hh ↦ ?_⟩
      have hany : (r.memo.entries i).any (fun s' ↦ s'.same s) = true := by
        simpa using List.find?_some hf
      obtain ⟨s', hs', hsame⟩ := (Option.any_eq_true _ _).mp hany
      rw [← Option.some.inj hh, ← (s'.same_iff s).mp hsame]
      exact h.entries i s' hs'
  rw [PipelineMemo.lookup] at hl
  rcases hfront : r.memo.front with _ | ⟨front, handle⟩
  · rw [hfront] at hl
    exact hentries hl
  · rw [hfront] at hl
    simp only at hl
    split_ifs at hl with hsame
    · obtain ⟨rfl, rfl⟩ := Prod.mk.inj hl
      refine ⟨h, fun handle' hh ↦ ?_⟩
      rw [← Option.some.inj hh, ← (front.same_iff s).mp hsame]
      exact h.front front handle hfront
    · exact hentries hl

end

theorem Sound.getOrCreatePipeline (hinj : Injective hash) (h : Sound hash attrsOf r) (s : PipelineSnapshot) :
    Sound hash attrsOf (r.getOrCreatePipeline hash s (attrsOf s)).2 ∧
      ∀ handle, (r.getOrCreatePipeline hash s (attrsOf s)).1 = .ready handle →
        (r.getOrCreatePipeline hash s (attrsOf s)).2.compiled handle = some (metalPipeline s (attrsOf s)) := by
  rcases hl : r.memo.lookup s with ⟨out, memo⟩
  obtain ⟨hm, hhit⟩ := h.lookup hl
  simp only [PipelineResolver.getOrCreatePipeline, hl]
  cases out with
  | some handle =>
    refine ⟨hm, fun handle' hh ↦ ?_⟩
    rw [← Resolution.ready.inj hh]
    exact hhit handle rfl
  | none =>
    simp only
    split_ifs with hnull
    · exact ⟨hm, fun handle hh ↦ by cases hh⟩
    · rcases hc : r.cache (keyFromSnapshot hash s (attrsOf s)) with _ | _ | handle
      · simp only [resolvePipeline, hc]
        split_ifs with hjob
        · exact ⟨hm, fun handle hh ↦ by cases hh⟩
        · exact ⟨⟨hm.front, hm.entries, hm.cache⟩, fun handle hh ↦ by cases hh⟩
      · simp only [resolvePipeline, hc]
        exact ⟨hm, fun handle hh ↦ by cases hh⟩
      · simp only [resolvePipeline, hc]
        -- The key is all the cache knows of the draw that built the handle.
        obtain ⟨s', attrs', hkey, hcomp⟩ := h.cache _ _ hc
        rw [metalPipeline_eq hinj hkey] at hcomp
        refine ⟨hm.record hcomp, fun handle' hh ↦ ?_⟩
        rwa [← Resolution.ready.inj hh]

theorem Sound.install (h : Sound hash attrsOf r) (job : PipelineJob) {outcome : Option ℕ}
    (hfresh : ∀ handle, outcome = some handle → r.compiled handle = none) :
    Sound hash attrsOf (r.install hash job outcome) := by
  have hkept : ∀ handle pipeline, r.compiled handle = some pipeline →
      (r.install hash job outcome).compiled handle = some pipeline := by
    intro handle pipeline hc
    cases outcome with
    | none => exact hc
    | some built =>
      have hne : handle ≠ built := by
        rintro rfl
        rw [hfresh handle rfl] at hc
        cases hc
      exact (update_of_ne hne _ _).trans hc
  refine ⟨fun s handle hf ↦ hkept _ _ (h.front s handle hf), fun i s hs ↦ hkept _ _ (h.entries i s hs), ?_⟩
  intro key handle hc
  by_cases hkey : key = keyFromSnapshot hash job.snapshot job.vertexAttrs
  · rw [hkey] at hc
    have hout : some outcome = some (some handle) := (update_self _ _ r.cache).symm.trans hc
    refine ⟨job.snapshot, job.vertexAttrs, hkey.symm, ?_⟩
    rw [Option.some.inj hout]
    exact update_self _ _ _
  · obtain ⟨s, attrs, hs, hcomp⟩ := h.cache key handle ((update_of_ne hkey _ _).symm.trans hc)
    exact ⟨s, attrs, hs, hkept _ _ hcomp⟩

theorem Sound.step (hinj : Injective hash) (h : Sound hash attrsOf r)
    (hstep : Step hash attrsOf r r') : Sound hash attrsOf r' := by
  cases hstep with
  | draw s => exact (h.getOrCreatePipeline hinj s).1
  | install job outcome hfresh => exact h.install job hfresh

theorem Sound.run (hinj : Injective hash) (hrun : ReflTransGen (Step hash attrsOf) new r) :
    Sound hash attrsOf r := by
  induction hrun with
  | refl => exact sound_new
  | tail _ hstep ih => exact ih.step hinj hstep

/-- Draws with equal keys want one Metal pipeline, and a draw is handed the one compiled for its state. -/
theorem pipeline_keys_sound {η : Type} [DecidableEq η] (hash : List VertexAttrDesc → η)
    (hinj : Function.Injective hash) :
    (∀ s s' attrs attrs', keyFromSnapshot hash s attrs = keyFromSnapshot hash s' attrs' →
      metalPipeline s attrs = metalPipeline s' attrs' ∧
        (descriptionFromSnapshot s attrs).attach.hasDepth = (descriptionFromSnapshot s' attrs').attach.hasDepth ∧
        (descriptionFromSnapshot s attrs).attach.hasStencil =
          (descriptionFromSnapshot s' attrs').attach.hasStencil ∧
        (descriptionFromSnapshot s attrs).attach.hasColorOutput =
          (descriptionFromSnapshot s' attrs').attach.hasColorOutput) ∧
    ∀ (attrsOf : PipelineSnapshot → List VertexAttrDesc) (r : PipelineResolver η),
      ReflTransGen (Step hash attrsOf) new r → ∀ s handle,
        (r.getOrCreatePipeline hash s (attrsOf s)).1 = .ready handle →
          (r.getOrCreatePipeline hash s (attrsOf s)).2.compiled handle = some (metalPipeline s (attrsOf s)) := by
  refine ⟨fun s s' attrs attrs' h ↦ ?_, fun attrsOf r hrun s handle hh ↦ ?_⟩
  · obtain ⟨hdepth, hstencil, hcolor, -⟩ := attach_eq h
    exact ⟨metalPipeline_eq hinj h, hdepth, hstencil, hcolor⟩
  · exact ((Sound.run hinj hrun).getOrCreatePipeline hinj s).2 handle hh

/-- One blended draw onto a target without alpha, under the given source factor. -/
def opaqueTargetDraw (srcBlend : ℕ) : PipelineSnapshot where
  vsFn := 1
  psFn := 2
  vdeclHash := 7
  streamLayouts _ := ⟨0, .perVertex, 1⟩
  colorFormat := .bgra8Unorm
  attach := ⟨true, false, true, false⟩
  rs := ⟨⟨true, false, false⟩, srcBlend, 1, 1, 2, 1, 1, 15, fun _ ↦ 15⟩
  extra := .none
  psColorOutMask := 1
  sampleCount := 1

/-- Destination alpha reads as one there, so `DESTALPHA` and `ONE` share a key and a pipeline. -/
theorem pipeline_keys_sound_opaque_target :
    opaqueTargetDraw 7 ≠ opaqueTargetDraw 2 ∧
      metalPipeline (opaqueTargetDraw 7) [] = metalPipeline (opaqueTargetDraw 2) [] := by
  refine ⟨fun h ↦ absurd (congrArg (fun s ↦ s.rs.srcBlend) h) (by decide), ?_⟩
  exact ((pipeline_keys_sound id injective_id).1 (opaqueTargetDraw 7) (opaqueTargetDraw 2) [] []
    (by decide)).1

end PipelineResolver

end Mtld3d
