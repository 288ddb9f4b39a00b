import Mtld3d.Lib.Ordered

namespace Mtld3d

open Lib

/-- `D3DLIGHT9`: its type, and the bit patterns of its parameters in order, from the diffuse colour to phi. -/
structure D3DLight where
  type : ℕ
  params : List ℕ
  deriving DecidableEq, Repr

def D3DLight.contributes (l : D3DLight) : Bool := decide (1 ≤ l.type) && decide (l.type ≤ 3)

def D3DLight.isDirectional (l : D3DLight) : Bool := decide (l.type = 3)

def D3DLight.isSpot (l : D3DLight) : Bool := decide (l.type = 2)

def D3DLight.default : D3DLight :=
  ⟨3, List.replicate 12 0 ++ [0, 0, 0] ++ [0, 0, 0x3f800000] ++ List.replicate 7 0⟩

/-- The light `LightEnable` makes for an index no `SetLight` has named: the default with a white diffuse. -/
def materializedLight : D3DLight :=
  { D3DLight.default with params := List.replicate 3 0x3f800000 ++ D3DLight.default.params.drop 3 }

def maxActiveLights : ℕ := 8

structure OverflowLight where
  light : D3DLight
  enabled : Bool
  deriving DecidableEq, Repr

/-- The slot after a `SetLight`; a fresh one is disabled. -/
def OverflowLight.relit (light : D3DLight) : Option OverflowLight → OverflowLight
  | some slot => { slot with light := light }
  | none => ⟨light, false⟩

def OverflowLight.switched (enabled : Bool) : Option OverflowLight → OverflowLight
  | some slot => { slot with enabled := enabled }
  | none => ⟨materializedLight, enabled⟩

structure LightState where
  lights : ℕ → D3DLight
  lightEnabled : BitVec 8
  lightSetMask : BitVec 8
  lightDefinedMask : BitVec 8
  lightDirectionalMask : BitVec 8
  lightSpotMask : BitVec 8
  overflowLights : Entries OverflowLight

def putBit (mask : BitVec 8) (index : ℕ) (on : Bool) : BitVec 8 :=
  if on then mask ||| (1#8 <<< index) else mask &&& ~~~(1#8 <<< index)

namespace LightState

def new : LightState := ⟨fun _ ↦ .default, 0, 0, 0, 0, 0, []⟩

variable (s : LightState)

def setLight (index : ℕ) (light : D3DLight) : LightState :=
  { s with
    lights := fun i ↦ if i = index then light else s.lights i
    lightDefinedMask := putBit s.lightDefinedMask index true
    lightSetMask := putBit s.lightSetMask index light.contributes
    lightDirectionalMask := putBit s.lightDirectionalMask index light.isDirectional
    lightSpotMask := putBit s.lightSpotMask index light.isSpot }

def setLightEnabled (index : ℕ) (enabled : Bool) : LightState :=
  let s := if s.lightDefinedMask &&& (1#8 <<< index) = 0 then s.setLight index materializedLight else s
  { s with lightEnabled := putBit s.lightEnabled index enabled }

def setOverflowLight (index : ℕ) (light : D3DLight) : LightState :=
  { s with overflowLights := s.overflowLights.upsert index (OverflowLight.relit light) }

def setOverflowLightEnabled (index : ℕ) (enabled : Bool) : LightState :=
  { s with overflowLights := s.overflowLights.upsert index (OverflowLight.switched enabled) }

def setLightAt (index : ℕ) (light : D3DLight) : LightState :=
  if index < 8 then s.setLight index light else s.setOverflowLight index light

def setLightEnabledAt (index : ℕ) (enabled : Bool) : LightState :=
  if index < 8 then s.setLightEnabled index enabled else s.setOverflowLightEnabled index enabled

def lightActiveMask : BitVec 8 := s.lightSetMask &&& s.lightEnabled

def pack (out : List D3DLight) (light : D3DLight) : List D3DLight :=
  if out.length = maxActiveLights then out else out ++ [light]

def resolveActiveLights : List D3DLight :=
  let active := s.lightActiveMask
  let out := (List.range maxActiveLights).foldl
    (fun out i ↦ if active &&& (1#8 <<< i) ≠ 0 then pack out (s.lights i) else out) []
  s.overflowLights.foldl
    (fun out slot ↦ if slot.2.enabled && slot.2.light.contributes then pack out slot.2.light else out) out

/-- The bits of the packed lights that `p` holds of. -/
def maskOf (p : D3DLight → Bool) (lights : List D3DLight) : BitVec 8 :=
  lights.zipIdx.foldl (fun mask l ↦ if p l.1 then mask ||| (1#8 <<< l.2) else mask) 0

def compactedLightMasks : BitVec 8 × BitVec 8 × BitVec 8 :=
  let active := s.resolveActiveLights
  let activeMask := if active.length = 0 then 0 else 0xFF#8 >>> (8 - active.length)
  (activeMask, maskOf D3DLight.isDirectional active, maskOf (fun l ↦ !l.isDirectional && l.isSpot) active)

def wordOf (a b c d : BitVec 8) : ℕ := a.toNat + 256 * b.toNat + 65536 * c.toNat + 16777216 * d.toNat

def vsSourceLightInputs : ℕ :=
  if s.overflowLights.isEmpty then
    let active := s.lightActiveMask
    wordOf active (s.lightDirectionalMask &&& active) (s.lightSpotMask &&& active) 0
  else
    let masks := s.compactedLightMasks
    wordOf masks.1 masks.2.1 masks.2.2 1

def keyLightMasks (lightingEnabled : Bool) : BitVec 8 × BitVec 8 × BitVec 8 :=
  if lightingEnabled then s.compactedLightMasks else (0, 0, 0)

/-- `8 - leading_zeros`. -/
def slotsOf (activeMask : BitVec 8) : ℕ := if activeMask = 0 then 0 else activeMask.toNat.log2 + 1

/-- `fill_lights_section` on `rows` uninitialised rows, with `packRow` the six rows of one light. It panics where the
destination has another length than the key asks for. -/
def fillLightsSection {Row : Type} (packRow : D3DLight → ℕ → Row) (activeMask : BitVec 8) (rows : ℕ) :
    Option (List (Option Row)) :=
  let empty := List.replicate rows none
  if activeMask = 0 then some empty
  else if rows ≠ slotsOf activeMask * 6 then none
  else some (s.resolveActiveLights.zipIdx.foldl
    (fun dst l ↦ (List.range 6).foldl (fun dst k ↦ dst.set (l.2 * 6 + k) (some (packRow l.1 k))) dst) empty)

inductive Call
  | setLightAt (index : ℕ) (light : D3DLight)
  | setLightEnabledAt (index : ℕ) (enabled : Bool)

def call (s : LightState) : Call → LightState
  | .setLightAt index light => s.setLightAt index light
  | .setLightEnabledAt index enabled => s.setLightEnabledAt index enabled

def run (calls : List Call) : LightState := calls.foldl call new

end LightState

end Mtld3d
