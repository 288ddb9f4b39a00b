import Mtld3d.Lib.Writes
import Mtld3d.Lights

namespace Mtld3d

open List Lib

theorem getLsbD_bit {i j : ℕ} (hj : j < 8) : (1#8 <<< i).getLsbD j = decide (j = i) := by
  rw [BitVec.getLsbD_shiftLeft, BitVec.getLsbD_one]
  by_cases h : j = i
  · subst h
    simp [hj]
  · simp [h, hj]
    omega

theorem getLsbD_putBit {mask : BitVec 8} {i j : ℕ} {on : Bool} (hj : j < 8) :
    (putBit mask i on).getLsbD j = if j = i then on else mask.getLsbD j := by
  unfold putBit
  cases on with
  | true =>
    rw [if_pos rfl, BitVec.getLsbD_or, getLsbD_bit hj]
    by_cases h : j = i <;> simp [h]
  | false =>
    rw [if_neg nofun, BitVec.getLsbD_and, BitVec.getLsbD_not, getLsbD_bit hj]
    by_cases h : j = i <;> simp [h, hj]

variable {i : ℕ}

theorem and_bit_eq_zero {mask : BitVec 8} (hi : i < 8) : mask &&& (1#8 <<< i) = 0 ↔ mask.getLsbD i = false := by
  constructor
  · intro h
    have hbit := congrArg (fun m ↦ BitVec.getLsbD m i) h
    simpa [getLsbD_bit hi] using hbit
  · intro h
    refine BitVec.eq_of_getLsbD_eq fun j hj ↦ ?_
    rw [BitVec.getLsbD_and, getLsbD_bit hj]
    by_cases hji : j = i
    · rw [hji, h]
      simp
    · simp [hji]

namespace LightState

abbrev Spec := ℕ → Option (D3DLight × Bool)

def Spec.call (spec : Spec) : Call → Spec
  | .setLightAt index light, i => if i = index then some (light, ((spec index).map Prod.snd).getD false) else spec i
  | .setLightEnabledAt index enabled, i =>
    if i = index then some (((spec index).map Prod.fst).getD materializedLight, enabled) else spec i

def specOf (calls : List Call) : Spec := calls.foldl Spec.call fun _ ↦ none

/-- The masks and the slot of an index below eight, for what the calls say of it. -/
structure SlotAgrees (spec : Option (D3DLight × Bool)) (s : LightState) (i : ℕ) : Prop where
  defined : s.lightDefinedMask.getLsbD i = spec.isSome
  enabled : s.lightEnabled.getLsbD i = (spec.map Prod.snd).getD false
  light : ∀ l b, spec = some (l, b) → s.lights i = l
  set : s.lightSetMask.getLsbD i = (spec.map fun e ↦ e.1.contributes).getD false
  directional : s.lightDirectionalMask.getLsbD i = (spec.map fun e ↦ e.1.isDirectional).getD false
  spot : s.lightSpotMask.getLsbD i = (spec.map fun e ↦ e.1.isSpot).getD false

structure Agrees (spec : Spec) (s : LightState) : Prop where
  slots : ∀ i < 8, SlotAgrees (spec i) s i
  overflow : ∀ i, 8 ≤ i → s.overflowLights.get? i = (spec i).map fun e ↦ ⟨e.1, e.2⟩
  ascending : s.overflowLights.Ascending
  past : ∀ p ∈ s.overflowLights, 8 ≤ p.1

theorem Agrees.new : Agrees (fun _ ↦ none) new where
  slots := fun i _ ↦ by
    refine ⟨?_, ?_, nofun, ?_, ?_, ?_⟩ <;> exact BitVec.getLsbD_zero
  overflow := fun _ _ ↦ rfl
  ascending := .nil
  past := nofun

variable {spec : Spec} {s : LightState}

theorem slot_setLight {e : Option (D3DLight × Bool)} (hi : i < 8) (h : SlotAgrees e s i) (index : ℕ)
    (light : D3DLight) :
    SlotAgrees (if i = index then some (light, (e.map Prod.snd).getD false) else e) (s.setLight index light) i := by
  by_cases hii : i = index
  · rw [if_pos hii]
    refine ⟨?_, h.enabled, fun l b heq ↦ ?_, ?_, ?_, ?_⟩
    · exact (getLsbD_putBit hi).trans (if_pos hii)
    · cases heq
      exact if_pos hii
    · exact (getLsbD_putBit hi).trans (if_pos hii)
    · exact (getLsbD_putBit hi).trans (if_pos hii)
    · exact (getLsbD_putBit hi).trans (if_pos hii)
  · rw [if_neg hii]
    refine ⟨?_, h.enabled, fun l b heq ↦ ?_, ?_, ?_, ?_⟩
    · exact ((getLsbD_putBit hi).trans (if_neg hii)).trans h.defined
    · exact (if_neg hii).trans (h.light l b heq)
    · exact ((getLsbD_putBit hi).trans (if_neg hii)).trans h.set
    · exact ((getLsbD_putBit hi).trans (if_neg hii)).trans h.directional
    · exact ((getLsbD_putBit hi).trans (if_neg hii)).trans h.spot

theorem slot_enable {e : Option (D3DLight × Bool)} (hi : i < 8) (h : SlotAgrees e s i) (index : ℕ) (enabled : Bool)
    (hdefined : i = index → e.isSome) : SlotAgrees (if i = index then e.map fun x ↦ (x.1, enabled) else e)
      { s with lightEnabled := putBit s.lightEnabled index enabled } i := by
  by_cases hii : i = index
  · rw [if_pos hii]
    obtain ⟨⟨l, b⟩, rfl⟩ := Option.isSome_iff_exists.mp (hdefined hii)
    refine ⟨h.defined, (getLsbD_putBit hi).trans (if_pos hii), fun l' b' heq ↦ ?_, h.set, h.directional, h.spot⟩
    cases heq
    exact h.light l b rfl
  · rw [if_neg hii]
    exact ⟨h.defined, ((getLsbD_putBit hi).trans (if_neg hii)).trans h.enabled, h.light, h.set, h.directional, h.spot⟩

/-- A call past the masks leaves the slots and touches one overflow entry. -/
theorem Agrees.upsert (h : Agrees spec s) {index : ℕ} (hindex : ¬index < 8) {c : Call} {e : D3DLight × Bool}
    {f : Option OverflowLight → OverflowLight} (hcall : ∀ i, spec.call c i = if i = index then some e else spec i)
    (hf : f ((spec index).map fun e ↦ ⟨e.1, e.2⟩) = ⟨e.1, e.2⟩) :
    Agrees (spec.call c) { s with overflowLights := s.overflowLights.upsert index f } := by
  refine ⟨fun i hi ↦ ?_, fun i hi ↦ ?_, Entries.ascending_upsert h.ascending _ _, fun p hp ↦ ?_⟩
  · rw [hcall, if_neg (by omega)]
    obtain ⟨hd, he, hl, hs, hdir, hspot⟩ := h.slots i hi
    exact ⟨hd, he, hl, hs, hdir, hspot⟩
  · rw [Entries.get?_upsert h.ascending, h.overflow index (by omega), hcall]
    by_cases hii : i = index
    · rw [if_pos hii, if_pos hii, hf]
      rfl
    · rw [if_neg hii, if_neg hii]
      exact h.overflow i hi
  · obtain hp | hp := Entries.key_upsert hp
    · omega
    · exact h.past p hp

theorem Agrees.setLightAt (h : Agrees spec s) (index : ℕ) (light : D3DLight) :
    Agrees (spec.call (.setLightAt index light)) (s.setLightAt index light) := by
  unfold LightState.setLightAt
  by_cases hindex : index < 8
  · rw [if_pos hindex]
    refine ⟨fun i hi ↦ ?_, fun i hi ↦ ?_, h.ascending, h.past⟩
    · have hslot := slot_setLight hi (h.slots i hi) index light
      by_cases hii : i = index
      · subst hii
        exact hslot
      · simp only [Spec.call]
        rw [if_neg hii] at hslot ⊢
        exact hslot
    · simp only [Spec.call]
      rw [if_neg (by omega)]
      exact h.overflow i hi
  · rw [if_neg hindex]
    refine h.upsert hindex (fun i ↦ rfl) ?_
    cases spec index <;> rfl

theorem slot_materialized (h : Agrees spec s) {i index : ℕ} (hi : i < 8) (hindex : index < 8) :
    SlotAgrees (if i = index then some ((spec i).getD (materializedLight, false)) else spec i)
      (if s.lightDefinedMask &&& (1#8 <<< index) = 0 then s.setLight index materializedLight else s) i := by
  have hdefined := (h.slots index hindex).defined
  simp only [and_bit_eq_zero hindex]
  cases hspec : spec index with
  | none =>
    rw [hspec, Option.isSome_none] at hdefined
    rw [if_pos hdefined]
    have hslot := slot_setLight hi (h.slots i hi) index materializedLight
    by_cases hii : i = index
    · subst hii
      rw [if_pos rfl, hspec] at hslot ⊢
      exact hslot
    · rw [if_neg hii] at hslot ⊢
      exact hslot
  | some e =>
    rw [hspec, Option.isSome_some] at hdefined
    have hnot : ¬ s.lightDefinedMask.getLsbD index = false := by
      rw [hdefined]
      nofun
    rw [if_neg hnot]
    have hslot := h.slots i hi
    by_cases hii : i = index
    · subst hii
      rw [if_pos rfl, hspec]
      rw [hspec] at hslot
      exact hslot
    · rw [if_neg hii]
      exact hslot

theorem Agrees.setLightEnabled (h : Agrees spec s) {index : ℕ} (hindex : index < 8) (enabled : Bool) :
    Agrees (spec.call (.setLightEnabledAt index enabled)) (s.setLightEnabled index enabled) := by
  have hoverflow : (s.setLightEnabled index enabled).overflowLights = s.overflowLights := by
    unfold LightState.setLightEnabled
    simp only
    split <;> rfl
  refine ⟨fun i hi ↦ ?_, fun i hi ↦ ?_, ?_, ?_⟩
  · have hslot := slot_materialized h hi hindex
    have hon := slot_enable hi hslot index enabled fun hii ↦ by rw [if_pos hii]; rfl
    by_cases hii : i = index
    · subst hii
      rw [if_pos rfl, if_pos rfl] at hon
      simp only [Spec.call, if_true]
      cases hspec : spec i with
      | none =>
        rw [hspec] at hon
        exact hon
      | some e =>
        rw [hspec] at hon
        exact hon
    · rw [if_neg hii, if_neg hii] at hon
      simp only [Spec.call]
      rw [if_neg hii]
      exact hon
  · rw [hoverflow]
    simp only [Spec.call]
    rw [if_neg (show i ≠ index by omega)]
    exact h.overflow i hi
  · rw [hoverflow]
    exact h.ascending
  · rw [hoverflow]
    exact h.past

theorem Agrees.setLightEnabledAt (h : Agrees spec s) (index : ℕ) (enabled : Bool) :
    Agrees (spec.call (.setLightEnabledAt index enabled)) (s.setLightEnabledAt index enabled) := by
  unfold LightState.setLightEnabledAt
  by_cases hindex : index < 8
  · rw [if_pos hindex]
    exact h.setLightEnabled hindex enabled
  · rw [if_neg hindex]
    refine h.upsert hindex (fun i ↦ rfl) ?_
    cases spec index <;> rfl

theorem agrees_run (calls : List Call) : Agrees (specOf calls) (run calls) := by
  suffices h : ∀ spec s, Agrees spec s → Agrees (calls.foldl Spec.call spec) (calls.foldl LightState.call s) from
    h _ _ Agrees.new
  induction calls with
  | nil => exact fun _ _ h ↦ h
  | cons c calls ih =>
    intro spec s h
    refine ih _ _ ?_
    cases c with
    | setLightAt index light => exact h.setLightAt index light
    | setLightEnabledAt index enabled => exact h.setLightEnabledAt index enabled

def Spec.Active (spec : Spec) (i : ℕ) (l : D3DLight) : Prop := spec i = some (l, true) ∧ l.contributes = true

theorem foldl_pack {α : Type} (p : α → Bool) (f : α → D3DLight) (l : List α) (out : List D3DLight)
    (hout : out.length ≤ maxActiveLights) : l.foldl (fun out a ↦ if p a then pack out (f a) else out) out =
      (out ++ (l.filter p).map f).take maxActiveLights := by
  induction l generalizing out with
  | nil => simp [take_of_length_le hout]
  | cons a l ih =>
    rw [foldl_cons]
    by_cases hp : p a = true
    · rw [if_pos hp, pack, filter_cons_of_pos hp, map_cons]
      by_cases hfull : out.length = maxActiveLights
      · rw [if_pos hfull, ih out hout, ← hfull, take_left, take_left]
      · rw [if_neg hfull, ih _ (by rw [length_append, length_singleton]; omega), append_assoc,
          singleton_append]
    · rw [if_neg hp, ih out hout, filter_cons_of_neg hp]

def activeIndices (s : LightState) : List (ℕ × D3DLight) :=
  ((range 8).filter fun i ↦ s.lightActiveMask.getLsbD i).map (fun i ↦ (i, s.lights i)) ++
    (s.overflowLights.filter fun slot ↦ slot.2.enabled && slot.2.light.contributes).map fun slot ↦ (slot.1, slot.2.light)

theorem resolveActiveLights_eq (s : LightState) :
    s.resolveActiveLights = (s.activeIndices.map Prod.snd).take maxActiveLights := by
  have hfast : (range maxActiveLights).foldl
      (fun out i ↦ if s.lightActiveMask &&& (1#8 <<< i) ≠ 0 then pack out (s.lights i) else out) [] =
      (((range 8).filter fun i ↦ s.lightActiveMask.getLsbD i).map s.lights).take maxActiveLights := by
    have hfold := foldl_pack (fun i ↦ s.lightActiveMask.getLsbD i) s.lights (range 8) [] (Nat.zero_le _)
    rw [nil_append] at hfold
    rw [← hfold]
    refine foldl_ext _ _ _ fun out i hi ↦ ?_
    have hi : i < 8 := mem_range.mp hi
    simp only [ne_eq, and_bit_eq_zero hi, Bool.not_eq_false]
  unfold resolveActiveLights
  simp only [hfast]
  rw [foldl_pack (fun slot : ℕ × OverflowLight ↦ slot.2.enabled && slot.2.light.contributes) (fun slot ↦ slot.2.light) _ _
    (by rw [length_take]; omega), activeIndices, map_append, map_map, map_map]
  have hlen : (((range 8).filter fun i ↦ s.lightActiveMask.getLsbD i).map s.lights).length ≤ maxActiveLights := by
    rw [length_map]
    exact length_filter_le _ _
  rw [take_of_length_le hlen]
  rfl

theorem Agrees.active_fast (h : Agrees spec s) (hi : i < 8) :
    s.lightActiveMask.getLsbD i = true ↔ spec.Active i (s.lights i) := by
  have hslot := h.slots i hi
  rw [lightActiveMask, BitVec.getLsbD_and, hslot.set, hslot.enabled, Spec.Active]
  cases hspec : spec i with
  | none => simp
  | some e =>
    have hlight := hslot.light e.1 e.2 (by rw [hspec])
    rw [hlight]
    obtain ⟨l, b⟩ := e
    simp [and_comm]

theorem Agrees.mem_activeIndices (h : Agrees spec s) {l : D3DLight} :
    (i, l) ∈ s.activeIndices ↔ spec.Active i l := by
  simp only [activeIndices, mem_append, mem_map, mem_filter, mem_range, Bool.and_eq_true,
    Prod.mk.injEq]
  constructor
  · rintro (⟨j, ⟨hj, hactive⟩, rfl, rfl⟩ | ⟨slot, ⟨hslot, henabled, hcontributes⟩, rfl, rfl⟩)
    · exact (h.active_fast hj).mp hactive
    · have hget := (Entries.mem_iff_get? h.ascending).mp hslot
      rw [h.overflow _ (h.past slot hslot)] at hget
      obtain ⟨e, he, heq⟩ := Option.map_eq_some_iff.mp hget
      have hlight : slot.2.light = e.1 := by rw [← heq]
      have hon : e.2 = true := by
        rw [← heq] at henabled
        exact henabled
      exact ⟨by rw [he, hlight, ← hon], hcontributes⟩
  · intro hactive
    by_cases hi : i < 8
    · have hlight := (h.slots i hi).light l true hactive.1
      exact .inl ⟨i, ⟨hi, (h.active_fast hi).mpr (by rw [hlight]; exact hactive)⟩, rfl, hlight⟩
    · have hget := h.overflow i (by omega)
      rw [hactive.1] at hget
      exact .inr ⟨(i, ⟨l, true⟩), ⟨(Entries.mem_iff_get? h.ascending).mpr hget, rfl, hactive.2⟩, rfl, rfl⟩

theorem Agrees.ascending_activeIndices (h : Agrees spec s) : s.activeIndices.Pairwise fun p q ↦ p.1 < q.1 := by
  unfold activeIndices
  rw [pairwise_append]
  refine ⟨?_, ?_, fun p hp q hq ↦ ?_⟩
  · rw [pairwise_map]
    exact pairwise_lt_range.sublist filter_sublist
  · rw [pairwise_map]
    exact h.ascending.sublist filter_sublist
  · obtain ⟨i, hi, rfl⟩ := mem_map.mp hp
    obtain ⟨slot, hslot, rfl⟩ := mem_map.mp hq
    have hlt := mem_range.mp (mem_filter.mp hi).1
    have hge := h.past slot (mem_filter.mp hslot).1
    exact Nat.lt_of_lt_of_le hlt hge

theorem length_resolve_le (s : LightState) : s.resolveActiveLights.length ≤ 8 := by
  rw [resolveActiveLights_eq, length_take]
  exact Nat.min_le_left _ _

theorem getLsbD_maskOf_from (p : D3DLight → Bool) (lights : List D3DLight) (n : ℕ) (mask : BitVec 8) {j : ℕ}
    (hj : j < 8) :
    ((lights.zipIdx n).foldl (fun mask l ↦ if p l.1 then mask ||| (1#8 <<< l.2) else mask) mask).getLsbD j =
      (mask.getLsbD j || (decide (n ≤ j) && (lights[j - n]?.map p).getD false)) := by
  induction lights generalizing n mask with
  | nil => simp
  | cons l lights ih =>
    rw [zipIdx_cons, foldl_cons, ih]
    have hbit : (if p l then mask ||| (1#8 <<< n) else mask).getLsbD j = (mask.getLsbD j || (decide (j = n) && p l)) := by
      split
      · rename_i hp
        rw [BitVec.getLsbD_or, getLsbD_bit hj, hp, Bool.and_true]
      · rename_i hp
        rw [Bool.eq_false_iff.mpr hp, Bool.and_false, Bool.or_false]
    rw [hbit]
    obtain hlt | rfl | hgt := Nat.lt_trichotomy j n
    · rw [decide_eq_false (by omega : ¬ j = n), decide_eq_false (by omega : ¬ n + 1 ≤ j),
        decide_eq_false (by omega : ¬ n ≤ j)]
      simp
    · rw [decide_eq_false (by omega : ¬ j + 1 ≤ j), Nat.sub_self]
      simp
    · have hsub : j - n = (j - (n + 1)) + 1 := by omega
      rw [decide_eq_false (by omega : ¬ j = n), decide_eq_true (by omega : n + 1 ≤ j),
        decide_eq_true (by omega : n ≤ j), hsub, getElem?_cons_succ]
      simp

theorem getLsbD_maskOf (p : D3DLight → Bool) (lights : List D3DLight) {j : ℕ} (hj : j < 8) :
    (maskOf p lights).getLsbD j = (lights[j]?.map p).getD false := by
  have h := getLsbD_maskOf_from p lights 0 0#8 hj
  rw [Nat.sub_zero, decide_eq_true (Nat.zero_le j), BitVec.getLsbD_zero, Bool.false_or, Bool.true_and] at h
  exact h

theorem getLsbD_low {n j : ℕ} (hn : n ≤ 8) (hj : j < 8) :
    (if n = 0 then 0 else 0xFF#8 >>> (8 - n)).getLsbD j = decide (j < n) := by
  have hall : ∀ n ≤ 8, ∀ j < 8, (if n = 0 then (0 : BitVec 8) else 0xFF#8 >>> (8 - n)).getLsbD j = decide (j < n) := by
    decide
  exact hall n hn j hj

theorem slotsOf_low {n : ℕ} (hn : n ≤ 8) : slotsOf (if n = 0 then 0 else 0xFF#8 >>> (8 - n)) = n := by
  have hall : ∀ n ≤ 8, slotsOf (if n = 0 then 0 else 0xFF#8 >>> (8 - n)) = n := by decide
  exact hall n hn

theorem maskOf_congr {p : D3DLight → Bool} {lights lights' : List D3DLight} (h : lights.map p = lights'.map p) :
    maskOf p lights = maskOf p lights' := by
  refine BitVec.eq_of_getLsbD_eq fun j hj ↦ ?_
  rw [getLsbD_maskOf p lights hj, getLsbD_maskOf p lights' hj, ← getElem?_map, ← getElem?_map, h]

theorem wordOf_inj {a b c d a' b' c' d' : BitVec 8} (h : wordOf a b c d = wordOf a' b' c' d') :
    a = a' ∧ b = b' ∧ c = c' ∧ d = d' := by
  unfold wordOf at h
  have ha := a.isLt
  have hb := b.isLt
  have hc := c.isLt
  have ha' := a'.isLt
  have hb' := b'.isLt
  have hc' := c'.isLt
  refine ⟨?_, ?_, ?_, ?_⟩ <;> refine BitVec.eq_of_toNat_eq ?_ <;> omega

theorem Agrees.map_resolve (h : Agrees spec s) (hempty : s.overflowLights = []) {p : D3DLight → Bool} {mask : BitVec 8}
    (hmask : ∀ i < 8, mask.getLsbD i = ((spec i).map fun e ↦ p e.1).getD false) :
    s.resolveActiveLights.map p = (((range 8).filter fun i ↦ s.lightActiveMask.getLsbD i).map
      fun i ↦ (mask &&& s.lightActiveMask).getLsbD i).take maxActiveLights := by
  rw [resolveActiveLights_eq, activeIndices, hempty, map_take, filter_nil, map_nil, append_nil,
    map_map, map_map]
  congr 1
  refine map_congr_left fun i hi ↦ ?_
  obtain ⟨hlt, hactive⟩ := mem_filter.mp hi
  rw [mem_range] at hlt
  have hspec := ((h.active_fast hlt).mp hactive).1
  rw [BitVec.getLsbD_and, hactive, Bool.and_true, hmask i hlt, hspec]
  rfl

theorem compactedLightMasks_congr {t : LightState} (hlen : s.resolveActiveLights.length = t.resolveActiveLights.length)
    (hdir : s.resolveActiveLights.map D3DLight.isDirectional = t.resolveActiveLights.map D3DLight.isDirectional)
    (hspot : s.resolveActiveLights.map (fun l ↦ !l.isDirectional && l.isSpot) =
      t.resolveActiveLights.map fun l ↦ !l.isDirectional && l.isSpot) :
    s.compactedLightMasks = t.compactedLightMasks := by
  simp only [compactedLightMasks]
  rw [hlen, maskOf_congr hdir, maskOf_congr hspot]

theorem isSpot_alone (l : D3DLight) : (!l.isDirectional && l.isSpot) = l.isSpot := by
  unfold D3DLight.isDirectional D3DLight.isSpot
  by_cases h : l.type = 2 <;> simp [h]

theorem masks_of_inputs {spec' : Spec} {t : LightState} (h : Agrees spec s) (h' : Agrees spec' t)
    (hsame : s.vsSourceLightInputs = t.vsSourceLightInputs) : s.compactedLightMasks = t.compactedLightMasks := by
  unfold vsSourceLightInputs at hsame
  by_cases hs : s.overflowLights.isEmpty = true
  · rw [if_pos hs] at hsame
    by_cases ht : t.overflowLights.isEmpty = true
    · rw [if_pos ht] at hsame
      obtain ⟨hactive, hdir, hspot, -⟩ := wordOf_inj hsame
      have hs := isEmpty_iff.mp hs
      have ht := isEmpty_iff.mp ht
      have hdirs : s.resolveActiveLights.map D3DLight.isDirectional = t.resolveActiveLights.map D3DLight.isDirectional := by
        rw [h.map_resolve hs fun i hi ↦ (h.slots i hi).directional,
          h'.map_resolve ht fun i hi ↦ (h'.slots i hi).directional, hdir, hactive]
      have hspots : s.resolveActiveLights.map D3DLight.isSpot = t.resolveActiveLights.map D3DLight.isSpot := by
        rw [h.map_resolve hs fun i hi ↦ (h.slots i hi).spot, h'.map_resolve ht fun i hi ↦ (h'.slots i hi).spot,
          hspot, hactive]
      refine compactedLightMasks_congr ?_ hdirs ?_
      · have hlen := congrArg List.length hdirs
        rwa [length_map, length_map] at hlen
      · simpa only [isSpot_alone] using hspots
    · rw [if_neg ht] at hsame
      exact absurd (wordOf_inj hsame).2.2.2 (by decide)
  · rw [if_neg hs] at hsame
    by_cases ht : t.overflowLights.isEmpty = true
    · rw [if_pos ht] at hsame
      exact absurd (wordOf_inj hsame).2.2.2 (by decide)
    · rw [if_neg ht] at hsame
      obtain ⟨hactive, hdir, hspot, -⟩ := wordOf_inj hsame
      exact Prod.ext hactive (Prod.ext hdir hspot)

section Rows

variable {Row : Type} {packRow : D3DLight → ℕ → Row}

def rowWrite {Row : Type} (row : ℕ × Row) (q : ℕ) : Option (Option (Option Row)) :=
  if q = row.1 then some (some (some row.2)) else none

theorem foldl_set (rows : List (ℕ × Row)) (dst : List (Option Row)) (hin : ∀ row ∈ rows, row.1 < dst.length) :
    (rows.foldl (fun dst row ↦ dst.set row.1 (some row.2)) dst).length = dst.length ∧
    (fun q ↦ (rows.foldl (fun dst row ↦ dst.set row.1 (some row.2)) dst)[q]?) =
      writeAll (rows.map rowWrite) fun q ↦ dst[q]? := by
  induction rows generalizing dst with
  | nil => exact ⟨rfl, rfl⟩
  | cons row rows ih =>
    have hlt := hin row mem_cons_self
    obtain ⟨hlen, hrows⟩ := ih (dst.set row.1 (some row.2)) fun r hr ↦ by
      rw [length_set]
      exact hin r (mem_cons_of_mem row hr)
    refine ⟨by rw [foldl_cons, hlen, length_set], ?_⟩
    rw [foldl_cons, hrows, map_cons, writeAll_cons]
    congr 1
    funext q
    rw [write, rowWrite]
    by_cases hq : q = row.1
    · rw [if_pos hq, hq, getElem?_set_self hlt]
      rfl
    · rw [if_neg hq, getElem?_set_ne (Ne.symm hq)]
      rfl

def rowsOf (packRow : D3DLight → ℕ → Row) (lights : List D3DLight) : List (ℕ × Row) :=
  lights.zipIdx.flatMap fun l ↦ (range 6).map fun k ↦ (l.2 * 6 + k, packRow l.1 k)

theorem mem_rowsOf {lights : List D3DLight} {row : ℕ × Row} :
    row ∈ rowsOf packRow lights ↔ ∃ i l k, lights[i]? = some l ∧ k < 6 ∧ row = (i * 6 + k, packRow l k) := by
  simp only [rowsOf, mem_flatMap, mem_map, mem_range]
  constructor
  · rintro ⟨⟨l, i⟩, hl, k, hk, rfl⟩
    exact ⟨i, l, k, mem_zipIdx_iff_getElem?.mp hl, hk, rfl⟩
  · rintro ⟨i, l, k, hl, hk, rfl⟩
    exact ⟨(l, i), mem_zipIdx_iff_getElem?.mpr hl, k, hk, rfl⟩


theorem fill_rows (lights : List D3DLight) :
    let rows := lights.zipIdx.foldl
      (fun dst l ↦ (range 6).foldl (fun dst k ↦ dst.set (l.2 * 6 + k) (some (packRow l.1 k))) dst)
      (replicate (lights.length * 6) none)
    rows.length = lights.length * 6 ∧
      ∀ i l, lights[i]? = some l → ∀ k < 6, rows[i * 6 + k]? = some (some (packRow l k)) := by
  have hflat : lights.zipIdx.foldl
      (fun dst l ↦ (range 6).foldl (fun dst k ↦ dst.set (l.2 * 6 + k) (some (packRow l.1 k))) dst)
      (replicate (lights.length * 6) none) =
      (rowsOf packRow lights).foldl (fun dst row ↦ dst.set row.1 (some row.2))
        (replicate (lights.length * 6) none) := by
    rw [rowsOf, foldl_flatMap]
    simp [foldl_map]
  have hin : ∀ row ∈ rowsOf packRow lights, row.1 < (replicate (lights.length * 6) (none : Option Row)).length := by
    intro row hrow
    obtain ⟨i, l, k, hl, hk, rfl⟩ := mem_rowsOf.mp hrow
    obtain ⟨hlt, -⟩ := List.getElem?_eq_some_iff.mp hl
    rw [length_replicate]
    omega
  obtain ⟨hlen, hwrites⟩ := foldl_set (rowsOf packRow lights) (replicate (lights.length * 6) none) hin
  intro rows
  refine ⟨?_, fun i l hl k hk ↦ ?_⟩
  · show List.length (List.foldl _ _ _) = _
    rw [hflat, hlen, length_replicate]
  · show (List.foldl _ _ _)[i * 6 + k]? = _
    rw [hflat]
    rw [congrFun hwrites]
    refine writeAll_agreed (fun w hw ↦ ?_) ⟨rowWrite (i * 6 + k, packRow l k), ?_, if_pos rfl⟩ _
    · obtain ⟨row, hrow, rfl⟩ := mem_map.mp hw
      obtain ⟨i', l', k', hl', hk', rfl⟩ := mem_rowsOf.mp hrow
      rw [rowWrite]
      by_cases hsame : i * 6 + k = i' * 6 + k'
      · obtain rfl : i = i' := by omega
        obtain rfl : k = k' := by omega
        obtain rfl : l = l' := Option.some.inj (hl.symm.trans hl')
        exact .inr (if_pos rfl)
      · exact .inl (if_neg hsame)
    · exact mem_map.mpr ⟨_, mem_rowsOf.mpr ⟨i, l, k, hl, hk, rfl⟩, rfl⟩

end Rows

theorem fillLightsSection_eq {Row : Type} (packRow : D3DLight → ℕ → Row) (s : LightState) :
    s.fillLightsSection packRow s.compactedLightMasks.1 (slotsOf s.compactedLightMasks.1 * 6) =
      some (s.resolveActiveLights.zipIdx.foldl
        (fun dst l ↦ (range 6).foldl (fun dst k ↦ dst.set (l.2 * 6 + k) (some (packRow l.1 k))) dst)
        (replicate (s.resolveActiveLights.length * 6) none)) := by
  have hslots : slotsOf s.compactedLightMasks.1 = s.resolveActiveLights.length := slotsOf_low (length_resolve_le s)
  simp only [fillLightsSection, hslots, ne_eq, not_true_eq_false, if_false]
  split
  · rename_i hzero
    have hlen : s.resolveActiveLights.length = 0 := by
      rw [← hslots, hzero]
      rfl
    rw [length_eq_zero_iff.mp hlen]
    rfl
  · rfl

/-- What is uploaded is the active lights, the masks and the rows say the same of them, and the change test sees every
change of the masks. -/
theorem light_compaction_exact (calls : List Call) :
    (∃ active : List (ℕ × D3DLight), active.Pairwise (fun p q ↦ p.1 < q.1) ∧
      (∀ i l, (i, l) ∈ active ↔ (specOf calls).Active i l) ∧
      (run calls).resolveActiveLights = (active.take maxActiveLights).map Prod.snd) ∧
    (∀ j < 8,
      ((run calls).keyLightMasks true).1.getLsbD j = decide (j < (run calls).resolveActiveLights.length) ∧
      ((run calls).keyLightMasks true).2.1.getLsbD j =
        ((run calls).resolveActiveLights[j]?.map D3DLight.isDirectional).getD false ∧
      ((run calls).keyLightMasks true).2.2.getLsbD j =
        ((run calls).resolveActiveLights[j]?.map D3DLight.isSpot).getD false) ∧
    (∀ (Row : Type) (packRow : D3DLight → ℕ → Row),
      ∃ rows, (run calls).fillLightsSection packRow ((run calls).keyLightMasks true).1
          (slotsOf ((run calls).keyLightMasks true).1 * 6) = some rows ∧
        rows.length = (run calls).resolveActiveLights.length * 6 ∧
        ∀ i l, (run calls).resolveActiveLights[i]? = some l → ∀ k < 6, rows[i * 6 + k]? = some (some (packRow l k))) ∧
    ∀ other lighting, (run calls).vsSourceLightInputs = (run other).vsSourceLightInputs →
      (run calls).keyLightMasks lighting = (run other).keyLightMasks lighting := by
  have h := agrees_run calls
  refine ⟨⟨(run calls).activeIndices, h.ascending_activeIndices, fun i l ↦ h.mem_activeIndices, ?_⟩,
    fun j hj ↦ ⟨?_, ?_, ?_⟩,
    fun Row packRow ↦ ⟨_, fillLightsSection_eq packRow (run calls), fill_rows _⟩, fun other lighting hsame ↦ ?_⟩
  · rw [resolveActiveLights_eq, map_take]
  · exact getLsbD_low (length_resolve_le (run calls)) hj
  · exact getLsbD_maskOf _ _ hj
  · have hspot := getLsbD_maskOf (fun l ↦ !l.isDirectional && l.isSpot) (run calls).resolveActiveLights hj
    simp only [isSpot_alone] at hspot
    refine Eq.trans ?_ hspot
    simp [keyLightMasks, compactedLightMasks, isSpot_alone]
  · unfold keyLightMasks
    rw [masks_of_inputs h (agrees_run other) hsame]

end LightState

end Mtld3d
