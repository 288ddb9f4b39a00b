import Mtld3d.Lib.Memory
import Mtld3d.StateBlock

namespace Mtld3d

open List Lib

def onlyIf (condition : Bool) (keys : List BlockKey) : List BlockKey := if condition then keys else []

namespace DeviceState

variable {d dev : DeviceState} {k : BlockKey}

theorem set_eq (d : DeviceState) (k : BlockKey) (dev : DeviceState) : d.set k (dev k) = overlay [k] dev d :=
  (overlay_singleton k dev d).symm

theorem set_of_ne {j : BlockKey} (h : k ≠ j) (v : j.Value) : d.set j v k = d k := Function.update_of_ne h _ _

theorem setIf_of_ne {j : BlockKey} (h : k ≠ j) (v : Option j.Value) : d.setIf j v k = d k := by
  cases v with
  | none => rfl
  | some v => exact set_of_ne h v

theorem setIf_map {α : Type} (v : Option α) (k : BlockKey) :
    d.setIf k (v.map fun _ ↦ dev k) = overlay (onlyIf v.isSome [k]) dev d := by
  cases v with
  | none => rfl
  | some v => exact set_eq d k dev

theorem setSamplerState_of_ne {sampler type : ℕ} (h : k ≠ .fetch4 sampler ∨ type ≠ mipMapLodBias) (value : UInt32) :
    d.setSamplerState sampler type value k = d.set (.sampler sampler type) value k := by
  rw [setSamplerState]
  by_cases hsame : d (.sampler sampler type) = value
  · rw [if_pos hsame, ← hsame]
    exact (congrFun (Function.update_eq_self _ _) k).symm
  · rw [if_neg hsame]
    obtain hne | htype := h
    · exact setIf_of_ne hne _
    · rw [if_neg htype]
      rfl

/-- A range of constants written back from a device, clamped to the file. -/
theorem writeConstants_eq (file : ConstantFile) (start : ℕ) (values : List Words) :
    d.writeConstants file start ((values.zipIdx start).map fun row ↦
        if row.2 < file.rows then dev (.constant file row.2) else row.1) =
      overlay (((values.zipIdx start).filter fun row ↦ row.2 < file.rows).map fun row ↦ .constant file row.2)
        dev d := by
  induction values generalizing start d with
  | nil => rfl
  | cons v values ih =>
    rw [writeConstants, zipIdx_cons, map_cons, zipIdx_cons, foldl_cons]
    refine (ih (start + 1)).trans ?_
    by_cases hlt : start < file.rows
    · rw [filter_cons_of_pos (by simpa using hlt), map_cons, ← singleton_append, overlay_append]
      simp [if_pos hlt, set_eq]
    · rw [filter_cons_of_neg (by simpa using hlt)]
      simp [if_neg hlt]

end DeviceState

namespace StateOp

open DeviceState

variable {d dev : DeviceState} {k : BlockKey} {i s : ℕ}

/-- The states and latches an operation brings back to their value at the capture `dev`: of those it names, not a
light, and not a declaration or the offset and stride of a stream that was NULL then. -/
def restores (dev : DeviceState) : StateOp → List BlockKey
  | pointSize _ numeric coverage =>
    [.renderState pointSizeState] ++ (onlyIf numeric.isSome [.pointSize] ++ onlyIf coverage.isSome [.a2mEnabled])
  | renderState state _ => [.renderState state]
  | samplerState sampler type _ fetch4 =>
    match vertexSamplerSlot sampler with
    | some slot => [.vertexSampler slot type]
    | none => .sampler sampler type :: onlyIf fetch4.isSome [.fetch4 sampler]
  | textureStageState stage type _ => [.textureStage stage type]
  | transform state _ => if isTransform state then [.transform state] else []
  | material _ => [.material]
  | light .. => []
  | lightEnable index _ => [.lightEnable index]
  | viewport _ => [.viewport]
  | scissorRect _ => [.scissorRect]
  | clipPlane index _ => [.clipPlane (min index 5)]
  | texture stage _ =>
    match vertexSamplerSlot stage with
    | some slot => [.vertexTexture slot]
    | none => [.texture stage]
  | vertexDeclaration _ => onlyIf (dev .vertexDeclaration).isSome [.vertexDeclaration]
  | vertexShader _ => [.vertexShader]
  | pixelShader _ => [.pixelShader]
  | shaderConstants file start values =>
    ((values.zipIdx start).filter fun row ↦ row.2 < file.rows).map fun row ↦ .constant file row.2
  | streamSource stream _ _ _ =>
    .streamBuffer stream :: onlyIf (dev (.streamBuffer stream)).isSome [.streamOffset stream, .streamStride stream]
  | streamSourceFreq stream _ => [.streamFreq stream]
  | indices _ => [.indices]

/-- What an operation can change beside the states it restores. -/
def exempt : StateOp → List BlockKey
  | samplerState sampler .. => [.fetch4 sampler]
  | light index _ | lightEnable index _ => [.light index]
  | _ => []

theorem light_notMem_restores (op : StateOp) : .light i ∉ op.restores dev := by
  cases op with
  | samplerState sampler | texture sampler => cases h : vertexSamplerSlot sampler <;> simp [restores, onlyIf, h]
  | transform => simp only [restores]; split <;> simp
  | _ => simp [restores, onlyIf]

theorem latch_notMem_restores (op : StateOp) (hop : .fetch4 s ∉ op.exempt) :
    .fetch4 s ∉ op.restores dev ∧ .sampler s mipMapLodBias ∉ op.restores dev := by
  cases op with
  | samplerState sampler =>
    have hne : s ≠ sampler := fun h ↦ hop (by simp [exempt, h])
    cases h : vertexSamplerSlot sampler <;> simp [restores, onlyIf, h, hne]
  | texture stage => cases h : vertexSamplerSlot stage <;> simp [restores, h]
  | transform => simp only [restores]; split <;> simp
  | _ => simp [restores, onlyIf]

theorem apply_capture (op : StateOp) (hop : op.recorded = true) (hk : k ∉ op.exempt) :
    (op.capture dev).apply d k = overlay (op.restores dev) dev d k := by
  cases op with
  | pointSize raw numeric coverage =>
    have hsize : (d.set (.renderState pointSizeState) (dev (.renderState pointSizeState))).setIf .pointSize
        (numeric.map fun _ ↦ dev .pointSize) =
          overlay (onlyIf numeric.isSome [.pointSize]) dev (overlay [.renderState pointSizeState] dev d) := by
      rw [set_eq]
      exact setIf_map numeric .pointSize
    rw [restores, overlay_append, overlay_append, ← hsize]
    exact congrFun (setIf_map coverage .a2mEnabled) k
  | renderState state value =>
    have hne : state ≠ pointSizeState := by simpa [recorded] using hop
    simp [capture, apply, setRenderState, if_neg hne, set_eq, restores]
  | samplerState sampler type value fetch4 =>
    have hne : k ≠ .fetch4 sampler := ne_of_not_mem_cons hk
    simp only [capture, apply, restores]
    cases vertexSamplerSlot sampler with
    | some slot => simp [set_eq]
    | none =>
      simp only [setIf_of_ne hne, setSamplerState_of_ne (.inl hne), set_eq, overlay]
      refine if_congr ?_ rfl rfl
      cases fetch4.isSome <;> simp [onlyIf, hne]
  | transform state matrix =>
    simp only [capture, apply, setTransform, restores]
    by_cases h : isTransform state = true
    · simp [if_pos h, set_eq]
    · simp only [if_neg h]
      rfl
  | texture stage tex =>
    simp only [capture, apply, restores]
    cases vertexSamplerSlot stage <;> simp [set_eq]
  | vertexDeclaration decl =>
    rw [capture, restores]
    cases hdecl : dev .vertexDeclaration with
    | none => rfl
    | some bound =>
      refine .trans ?_ (congrFun (set_eq d .vertexDeclaration dev) k)
      rw [hdecl]
      rfl
  | shaderConstants file start values => exact congrFun (writeConstants_eq file start values) k
  | streamSource stream vb offset stride =>
    rw [capture, restores]
    cases hvb : dev (.streamBuffer stream) with
    | none =>
      refine .trans ?_ (congrFun (set_eq d (.streamBuffer stream) dev) k)
      rw [hvb]
      rfl
    | some bound =>
      rw [apply, setStream, ← hvb, set_eq _ (.streamStride stream), set_eq _ (.streamOffset stream),
        set_eq _ (.streamBuffer stream),
        ← overlay_append, ← overlay_append, hvb]
      rfl
  | light index recorded => exact set_of_ne (ne_of_not_mem_cons hk) _
  | lightEnable index enable =>
    simp only [capture, apply, setLightEnabledAt, set_eq, overlay, restores]
    cases d (.light index) with
    | none => exact if_congr Iff.rfl rfl (set_of_ne (ne_of_not_mem_cons hk) _)
    | some light => rfl
  | textureStageState | material | viewport | scissorRect | clipPlane | vertexShader | pixelShader
  | streamSourceFreq | indices => exact congrFun (set_eq d _ dev) k

/-- A numeric `MIPMAPLODBIAS` operation does not carry the latch, but the value it captured can be a command, which
the setter obeys where the device holds another. -/
theorem fetch4_apply_capture (op : StateOp) (hop : op.recorded = true) :
    (op.capture dev).apply d (.fetch4 s) =
      if .fetch4 s ∈ op.restores dev then dev (.fetch4 s)
      else if .sampler s mipMapLodBias ∈ op.restores dev ∧ d (.sampler s mipMapLodBias) ≠ dev (.sampler s mipMapLodBias)
      then (fetch4Command (dev (.sampler s mipMapLodBias))).getD (d (.fetch4 s))
      else d (.fetch4 s) := by
  by_cases hset : .fetch4 s ∈ op.exempt
  · cases op with
    | samplerState sampler type value fetch4 =>
      obtain rfl : s = sampler := BlockKey.fetch4.inj (mem_singleton.mp hset)
      cases hslot : vertexSamplerSlot s with
      | some slot => simp [capture, apply, restores, hslot, set_of_ne]
      | none =>
        simp only [recorded, hslot, Option.isSome_none, Bool.false_or, Bool.and_eq_true, decide_eq_true_eq] at hop
        cases fetch4 with
        | some latch => simp [capture, apply, restores, hslot, onlyIf, setIf, DeviceState.set, hop.1]
        | none =>
          simp only [capture, apply, restores, hslot, Option.map_none, setIf, setSamplerState, onlyIf]
          by_cases htype : type = mipMapLodBias
          · subst htype
            by_cases hsame : d (.sampler s mipMapLodBias) = dev (.sampler s mipMapLodBias)
            · simp [hsame]
            · cases fetch4Command (dev (.sampler s mipMapLodBias)) <;> simp [hsame, DeviceState.set]
          · by_cases hsame : d (.sampler s type) = dev (.sampler s type)
            · simp [hsame, Ne.symm htype]
            · simp [hsame, htype, Ne.symm htype, DeviceState.set]
    | _ => simp [exempt] at hset
  · obtain ⟨hfetch, hbias⟩ := latch_notMem_restores op hset
    rw [apply_capture op hop hset, overlay, if_neg hfetch, if_neg hfetch, if_neg fun h ↦ hbias h.1]

/-- Light `i` after a captured operation on a device that holds `held` there. -/
def relit (dev : DeviceState) (i : ℕ) (held : Option Words) : StateOp → Option Words
  | light index recorded => if index = i then some ((dev (.light i)).getD recorded) else held
  | lightEnable index _ => if index = i then some (held.getD enableDefaultLight) else held
  | _ => held

theorem light_apply_capture (op : StateOp) (hop : op.recorded = true) :
    (op.capture dev).apply d (.light i) = op.relit dev i (d (.light i)) := by
  by_cases hlit : .light i ∈ op.exempt
  · cases op with
    | light index recorded =>
      obtain rfl : i = index := BlockKey.light.inj (mem_singleton.mp hlit)
      rw [relit, if_pos rfl]
      exact Function.update_self _ _ _
    | lightEnable index enable =>
      obtain rfl : i = index := BlockKey.light.inj (mem_singleton.mp hlit)
      rw [relit, if_pos rfl, capture, apply, setLightEnabledAt, set_of_ne (j := .lightEnable i) (k := .light i) (by simp)]
      cases hheld : d (.light i) with
      | none => exact Function.update_self _ _ _
      | some light => exact hheld
    | _ => simp [exempt] at hlit
  · rw [apply_capture op hop hlit, overlay, if_neg (light_notMem_restores op)]
    cases op with
    | light index | lightEnable index => exact (if_neg fun h ↦ hlit (by simp [exempt, h])).symm
    | _ => rfl

theorem sampler_mem_of_fetch4 (op : StateOp) (hop : op.recorded = true) (h : .fetch4 s ∈ op.restores dev) :
    .sampler s mipMapLodBias ∈ op.restores dev := by
  by_cases hset : .fetch4 s ∈ op.exempt
  · cases op with
    | samplerState sampler type value fetch4 =>
      obtain rfl : s = sampler := BlockKey.fetch4.inj (mem_singleton.mp hset)
      cases hslot : vertexSamplerSlot s with
      | some slot => simp [restores, hslot] at h
      | none => cases fetch4 <;> simp_all [restores, recorded, onlyIf]
    | _ => simp [exempt] at hset
  · exact absurd h (latch_notMem_restores op hset).1

end StateOp

namespace RecordingStateBlock

open StateOp

variable {ops : List StateOp} {dev : DeviceState} {s i : ℕ}

theorem fetch4_applyTo (hops : ∀ op ∈ ops, op.recorded = true) (d : DeviceState) :
    applyTo (captureFrom ops dev) d (.fetch4 s) =
      if .fetch4 s ∈ ops.flatMap (restores dev) then dev (.fetch4 s)
      else if .sampler s mipMapLodBias ∈ ops.flatMap (restores dev) ∧
        d (.sampler s mipMapLodBias) ≠ dev (.sampler s mipMapLodBias)
      then (fetch4Command (dev (.sampler s mipMapLodBias))).getD (d (.fetch4 s))
      else d (.fetch4 s) := by
  induction ops generalizing d with
  | nil => simp [applyTo, captureFrom]
  | cons op ops ih =>
    obtain ⟨hop, hops⟩ := forall_mem_cons.mp hops
    refine (ih hops _).trans ?_
    have hbias : (op.capture dev).apply d (.sampler s mipMapLodBias) = _ :=
      apply_capture op hop (by cases op <;> simp [exempt])
    rw [fetch4_apply_capture op hop, hbias, overlay, flatMap_cons]
    simp only [mem_append]
    -- A later operation that carries the latch decides it, then this one, then the command in the bias.
    by_cases hlater : .fetch4 s ∈ ops.flatMap (restores dev)
    · simp [hlater]
    · by_cases hnow : .fetch4 s ∈ op.restores dev
      · simp [hlater, hnow, sampler_mem_of_fetch4 op hop hnow]
      · by_cases hset : .sampler s mipMapLodBias ∈ op.restores dev <;> simp [hlater, hnow, hset]

theorem applyTo_eq (hops : ∀ op ∈ ops, op.recorded = true) {k : BlockKey} (hk : ∀ op ∈ ops, k ∉ op.exempt)
    (d : DeviceState) :
    applyTo (captureFrom ops dev) d k = overlay (ops.flatMap (restores dev)) dev d k := by
  rw [applyTo, captureFrom, foldl_map]
  exact foldl_overlay (fun op hop d ↦ apply_capture op (hops op hop) (hk op hop)) d

theorem light_applyTo (hops : ∀ op ∈ ops, op.recorded = true) (d : DeviceState) :
    applyTo (captureFrom ops dev) d (.light i) = ops.foldl (relit dev i) (d (.light i)) := by
  induction ops generalizing d with
  | nil => rfl
  | cons op ops ih =>
    obtain ⟨hop, hops⟩ := forall_mem_cons.mp hops
    rw [foldl_cons, ← light_apply_capture op hop]
    exact ih hops _

theorem foldl_relit_some {l : Words} (hdev : dev (.light i) = some l) : ops.foldl (relit dev i) (some l) = some l := by
  induction ops with
  | nil => rfl
  | cons op ops ih =>
    have hkept : relit dev i (some l) op = some l := by
      cases op <;> simp [relit, hdev]
    rw [foldl_cons, hkept, ih]

/-- A recorded light that the device has at the Capture comes back as it is there. -/
theorem foldl_relit_of_mem {l recorded : Words} (hdev : dev (.light i) = some l) (hmem : .light i recorded ∈ ops)
    (held : Option Words) : ops.foldl (relit dev i) held = some l := by
  induction ops generalizing held with
  | nil => cases hmem
  | cons op ops ih =>
    obtain rfl | hmem := mem_cons.mp hmem
    · rw [foldl_cons, relit, if_pos rfl, hdev]
      exact foldl_relit_some hdev
    · exact ih hmem _

theorem recorded_recordLightEnable (hops : ∀ op ∈ ops, op.recorded = true) (enable : Bool) :
    ∀ op ∈ recordLightEnable ops i enable, op.recorded = true := by
  intro op hop
  rw [recordLightEnable, mem_append, mem_singleton] at hop
  obtain hop | rfl := hop
  · split_ifs at hop
    · obtain hop | hop := mem_append.mp hop
      · exact hops op hop
      · rw [mem_singleton.mp hop]
        rfl
    · exact hops op hop
  · rfl

theorem light_mem_recordLightEnable (ops : List StateOp) (i : ℕ) :
    ∃ recorded, .light i recorded ∈ recordLightEnable ops i true := by
  by_cases h : ∃ recorded, .light i recorded ∈ ops
  · obtain ⟨recorded, hmem⟩ := h
    refine ⟨recorded, mem_append_left _ ?_⟩
    split_ifs
    exacts [mem_append_left _ hmem, hmem]
  · refine ⟨enableDefaultLight, mem_append_left _ ?_⟩
    rw [if_pos]
    · exact mem_append_right _ mem_cons_self
    · simp only [Bool.true_and, Bool.not_eq_true', any_eq_false]
      intro op hop
      cases op with
      | light other recorded =>
        simp only [beq_iff_eq]
        rintro rfl
        exact h ⟨recorded, hop⟩
      | _ => exact Bool.false_ne_true

/-- Apply after a Capture brings back every recorded state and latch and leaves every other one, whatever the device
did in between; a NULL declaration, and the offset and stride of a NULL stream, are left. A Fetch4 latch that no
operation carries obeys a command that a recorded `MIPMAPLODBIAS` captured, where the device holds another value. A
light goes through the operations on it in their order, so one whose enabling is recorded comes back. -/
theorem apply_restores_recorded (ops : List StateOp) (hops : ∀ op ∈ ops, op.recorded = true) (dev d : DeviceState) :
    (∀ op ∈ ops, ∀ k ∈ op.restores dev, applyTo (captureFrom ops dev) d k = dev k) ∧
    (∀ k, (∀ op ∈ ops, k ∉ op.restores dev) → (∀ i, k ≠ .light i) → (∀ s, k ≠ .fetch4 s) →
      applyTo (captureFrom ops dev) d k = d k) ∧
    (∀ s, (∀ op ∈ ops, .fetch4 s ∉ op.restores dev) → applyTo (captureFrom ops dev) d (.fetch4 s) =
      if (∃ op ∈ ops, .sampler s mipMapLodBias ∈ op.restores dev) ∧
        d (.sampler s mipMapLodBias) ≠ dev (.sampler s mipMapLodBias)
      then (fetch4Command (dev (.sampler s mipMapLodBias))).getD (d (.fetch4 s))
      else d (.fetch4 s)) ∧
    (∀ i, applyTo (captureFrom ops dev) d (.light i) = ops.foldl (relit dev i) (d (.light i))) ∧
    ∀ i l, dev (.light i) = some l → applyTo (captureFrom (recordLightEnable ops i true) dev) d (.light i) = some l := by
  -- Beside what they restore the operations change lights and Fetch4 latches only.
  have hexempt {op : StateOp} {k : BlockKey} (hlight : ∀ i, k ≠ .light i) (hfetch : ∀ s, k ≠ .fetch4 s) :
      k ∉ op.exempt := by
    cases op <;> simp [exempt, hlight, hfetch]
  refine ⟨fun op hop k hk ↦ ?_, fun k hk hlight hfetch ↦ ?_, fun s hs ↦ ?_, fun i ↦ light_applyTo hops d,
    fun i l hdev ↦ ?_⟩
  · have hmem : k ∈ ops.flatMap (restores dev) := mem_flatMap.mpr ⟨op, hop, hk⟩
    cases k with
    | light i => exact absurd hk (light_notMem_restores op)
    | fetch4 s => rw [fetch4_applyTo hops, if_pos hmem]
    | _ => rw [applyTo_eq hops (fun op _ ↦ hexempt (by simp) (by simp)), overlay, if_pos hmem]
  · rw [applyTo_eq hops (fun op _ ↦ hexempt hlight hfetch), overlay, if_neg (by simpa using hk)]
  · rw [fetch4_applyTo hops, if_neg (by simpa using hs)]
    simp
  · obtain ⟨recorded, hmem⟩ := light_mem_recordLightEnable ops i
    rw [light_applyTo (recorded_recordLightEnable hops true)]
    exact foldl_relit_of_mem hdev hmem _

def blankDevice : DeviceState := fun k ↦ by cases k <;> exact default

/-- `MIPMAPLODBIAS` is recorded as a number and captured while it holds the enable command; Apply enables the latch of
a device that has disabled it since. -/
theorem recorded_bias_sets_latch :
    applyTo (captureFrom [.samplerState 0 mipMapLodBias 0 none]
        ((blankDevice.set (.sampler 0 mipMapLodBias) 0x34544547).set (.fetch4 0) true))
      ((blankDevice.set (.sampler 0 mipMapLodBias) 0x31544547).set (.fetch4 0) false) (.fetch4 0) = true := by
  refine ((apply_restores_recorded _ (by decide) _ _).2.2.1 0 (by decide)).trans ?_
  decide

end RecordingStateBlock

end Mtld3d
