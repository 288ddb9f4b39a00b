import Mtld3d.Lib.Keyed
import Mtld3d.ShaderCache

namespace Mtld3d.ShaderCache

open Option CacheEntry

open Lib

def entriesOf (records : List PlainRecord) : List CacheEntry :=
  records.filterMap fun
    | .shader entry => some entry
    | .pipeline _ => none

def recipesOf (records : List PlainRecord) : List PipelineRecipe :=
  records.filterMap fun
    | .shader _ => none
    | .pipeline recipe => some recipe

def usable (emitter : UInt64) (e : CacheEntry) : Bool := !e.needsRegeneration emitter || e.source.isSome

/-- The entry that stands for `r` among `entries`: the first of the current emitter, else the first that
    kept its source. -/
def winner (emitter : UInt64) (entries : List CacheEntry) (r : ShaderRecordRef) : Option CacheEntry :=
  (lookup reference (entries.filter fun e ↦ !e.needsRegeneration emitter) r).or
    (lookup reference (entries.filter fun e ↦ e.source.isSome) r)

variable {L : CacheLibraries} {emitter : UInt64} {entries : List CacheEntry} {e old : CacheEntry}
  {r : ShaderRecordRef}

theorem mem_of_winner (h : winner emitter entries r = some e) : e ∈ entries := by
  rcases or_eq_some_iff.mp h with hcur | ⟨-, hsrc⟩
  · exact (List.mem_filter.mp (mem_of_lookup hcur)).1
  · exact (List.mem_filter.mp (mem_of_lookup hsrc)).1

theorem usable_of_winner (h : winner emitter entries r = some e) : usable emitter e = true := by
  unfold usable
  rcases or_eq_some_iff.mp h with hcur | ⟨-, hsrc⟩
  · simp [(List.mem_filter.mp (mem_of_lookup hcur)).2]
  · simp [(List.mem_filter.mp (mem_of_lookup hsrc)).2]

theorem reference_of_winner (h : winner emitter entries r = some e) : e.reference = r := by
  rcases or_eq_some_iff.mp h with hcur | ⟨-, hsrc⟩
  · exact key_of_lookup hcur
  · exact key_of_lookup hsrc

theorem exists_winner_current (he : e ∈ entries) (hcur : e.needsRegeneration emitter = false) :
    ∃ w, winner emitter entries e.reference = some w ∧ w.needsRegeneration emitter = false := by
  have hmem : e ∈ entries.filter fun e ↦ !e.needsRegeneration emitter := by
    simp [he, hcur]
  obtain ⟨w, hw⟩ := exists_lookup reference hmem
  have hwcur := (List.mem_filter.mp (mem_of_lookup hw)).2
  exact ⟨w, by simp [winner, hw], by simpa using hwcur⟩

section Snoc

theorem lookup_filter_snoc (p : CacheEntry → Bool) :
    lookup reference ((entries ++ [e]).filter p) r =
      (lookup reference (entries.filter p) r).or
        (if p e = true ∧ e.reference = r then some e else none) := by
  rw [List.filter_append, lookup_append]
  congr 1
  by_cases hp : p e = true
  · rw [List.filter_cons_of_pos hp, List.filter_nil, lookup_cons]
    simp [hp]
  · rw [List.filter_cons_of_neg hp, List.filter_nil, if_neg fun h ↦ hp h.1]
    rfl

theorem winner_snoc_unusable (h : usable emitter e = false) :
    winner emitter (entries ++ [e]) r = winner emitter entries r := by
  obtain ⟨hstale, hnone⟩ : e.needsRegeneration emitter = true ∧ e.source.isSome = false := by
    simpa [usable] using h
  unfold winner
  rw [lookup_filter_snoc, lookup_filter_snoc, if_neg (by simp [hstale]), if_neg (by simp [hnone]),
    or_none, or_none]

theorem winner_snoc_ne (h : e.reference ≠ r) :
    winner emitter (entries ++ [e]) r = winner emitter entries r := by
  unfold winner
  rw [lookup_filter_snoc, lookup_filter_snoc, if_neg fun hc ↦ h hc.2, if_neg fun hc ↦ h hc.2,
    or_none, or_none]

theorem winner_snoc_new (h : winner emitter entries e.reference = none) (hu : usable emitter e = true) :
    winner emitter (entries ++ [e]) e.reference = some e := by
  obtain ⟨hcur, hsrc⟩ := or_eq_none_iff.mp h
  unfold winner
  rw [lookup_filter_snoc, lookup_filter_snoc, hcur, hsrc, none_or, none_or]
  by_cases hc : e.needsRegeneration emitter = false
  · rw [if_pos ⟨by simp [hc], rfl⟩]
    rfl
  · have hsource : e.source.isSome = true := by simpa [usable, hc] using hu
    rw [if_neg (by simp [hc]), if_pos ⟨hsource, rfl⟩]
    rfl

theorem winner_snoc_old (h : winner emitter entries e.reference = some old) :
    winner emitter (entries ++ [e]) e.reference =
      some (if !e.needsRegeneration emitter && old.needsRegeneration emitter then e else old) := by
  unfold winner at h ⊢
  rw [lookup_filter_snoc, lookup_filter_snoc]
  rcases or_eq_some_iff.mp h with hcur | ⟨hnone, hsrc⟩
  · have hold := (List.mem_filter.mp (mem_of_lookup hcur)).2
    rw [hcur]
    simp_all
  · have hold : old.needsRegeneration emitter = true := by
      by_contra hfresh
      have hmem : old ∈ entries.filter fun e ↦ !e.needsRegeneration emitter := by
        refine List.mem_filter.mpr ⟨(List.mem_filter.mp (mem_of_lookup hsrc)).1, ?_⟩
        simpa using hfresh
      exact lookup_eq_none.mp hnone old hmem (key_of_lookup hsrc)
    rw [hnone, hsrc, hold]
    cases e.needsRegeneration emitter <;> simp

end Snoc

structure Selected (L : CacheLibraries) (emitter : UInt64) (records : List PlainRecord) (sel : Selection) :
    Prop where
  shaders_nodup : (sel.shaders.map reference).Nodup
  shaders : ∀ r, lookup reference sel.shaders r = winner emitter (entriesOf records) r
  pipelines_nodup : (sel.pipelines.map (PipelineRecipe.diskKey L)).Nodup
  pipelines : ∀ k, lookup (PipelineRecipe.diskKey L) sel.pipelines k =
    lookup (PipelineRecipe.diskKey L) (recipesOf records) k

variable {records : List PlainRecord} {sel : Selection} {recipe : PipelineRecipe}

@[simp] theorem entriesOf_append (l m : List PlainRecord) : entriesOf (l ++ m) = entriesOf l ++ entriesOf m :=
  List.filterMap_append

@[simp] theorem recipesOf_append (l m : List PlainRecord) : recipesOf (l ++ m) = recipesOf l ++ recipesOf m :=
  List.filterMap_append

theorem not_dropped (hu : usable emitter e = true) :
    ¬(RecordMode.currentEmitter = .currentEmitter ∧ e.needsRegeneration emitter = true ∧
      e.source.isNone = true) := by
  rintro ⟨-, hstale, hnone⟩
  simp_all [usable]

namespace Selected

theorem empty : Selected L emitter [] Selection.empty :=
  ⟨List.nodup_nil, fun _ ↦ rfl, List.nodup_nil, fun _ ↦ rfl⟩

theorem of_shaders {sel' : Selection} (h : Selected L emitter records sel)
    (hpipelines : sel'.pipelines = sel.pipelines) (hnodup : (sel'.shaders.map reference).Nodup)
    (hshaders : ∀ r, lookup reference sel'.shaders r = winner emitter (entriesOf records ++ [e]) r) :
    Selected L emitter (records ++ [.shader e]) sel' where
  shaders_nodup := hnodup
  shaders := fun r ↦ by rw [hshaders, entriesOf_append]; rfl
  pipelines_nodup := hpipelines ▸ h.pipelines_nodup
  pipelines := fun k ↦ by
    rw [hpipelines, h.pipelines k, recipesOf_append]
    exact congrArg (lookup _ · k) (List.append_nil _).symm

theorem pushShader (h : Selected L emitter records sel) (e : CacheEntry) :
    Selected L emitter (records ++ [.shader e]) (sel.pushShader .currentEmitter emitter e) := by
  unfold Selection.pushShader
  by_cases hu : usable emitter e = true
  · rw [if_neg (not_dropped hu)]
    cases hidx : sel.shaders.findIdx? fun old ↦ old.reference == e.reference with
    | some index =>
      obtain ⟨old, hold⟩ := findIdx?_lookup hidx
      have hkey : ∀ a : CacheEntry, a.reference = e.reference →
          (if !e.needsRegeneration emitter && a.needsRegeneration emitter then e else a).reference =
            e.reference := by
        intro a ha
        split
        · rfl
        · exact ha
      refine of_shaders h rfl ((map_key_modify hidx hkey).symm ▸ h.shaders_nodup) fun r ↦ ?_
      rw [lookup_modify hidx hkey]
      by_cases hr : r = e.reference
      · subst hr
        rw [if_pos rfl, hold, winner_snoc_old ((h.shaders _).symm.trans hold)]
        rfl
      · rw [if_neg hr, h.shaders, winner_snoc_ne (Ne.symm hr)]
    | none =>
      have hnew := findIdx?_none hidx
      refine of_shaders h rfl (nodup_keys_append h.shaders_nodup hnew) fun r ↦ ?_
      rw [lookup_append, h.shaders, lookup_cons, lookup_nil]
      by_cases hr : e.reference = r
      · subst hr
        have hwin := (h.shaders _).symm.trans hnew
        rw [hwin, if_pos rfl, winner_snoc_new hwin hu]
        rfl
      · rw [if_neg hr, winner_snoc_ne hr, or_none]
  · have hu : usable emitter e = false := by simpa using hu
    have hdrop : RecordMode.currentEmitter = .currentEmitter ∧ e.needsRegeneration emitter = true ∧
        e.source.isNone = true := by
      simp_all [usable]
    rw [if_pos hdrop]
    refine of_shaders h rfl h.shaders_nodup fun r ↦ ?_
    rw [h.shaders, winner_snoc_unusable hu]

theorem pushPipeline (h : Selected L emitter records sel) (recipe : PipelineRecipe) :
    Selected L emitter (records ++ [.pipeline recipe]) (sel.pushPipeline L recipe) := by
  have hshaders : ∀ r, lookup reference sel.shaders r =
      winner emitter (entriesOf (records ++ [.pipeline recipe])) r := by
    intro r
    rw [h.shaders, entriesOf_append]
    exact congrArg (winner emitter · r) (List.append_nil _).symm
  have hrecipes : recipesOf (records ++ [.pipeline recipe]) = recipesOf records ++ [recipe] := by
    rw [recipesOf_append]
    rfl
  unfold Selection.pushPipeline
  split
  · rename_i hany
    refine ⟨h.shaders_nodup, hshaders, h.pipelines_nodup, fun k ↦ ?_⟩
    obtain ⟨old, hmem, hold⟩ := List.any_eq_true.mp hany
    obtain ⟨first, hfirst⟩ := exists_lookup (PipelineRecipe.diskKey L) hmem
    rw [beq_iff_eq.mp hold, h.pipelines] at hfirst
    rw [h.pipelines, hrecipes, lookup_append, lookup_cons, lookup_nil]
    by_cases hk : recipe.diskKey L = k
    · subst hk
      rw [hfirst]
      rfl
    · rw [if_neg hk, or_none]
  · rename_i hany
    have hnew : lookup (PipelineRecipe.diskKey L) sel.pipelines (recipe.diskKey L) = none := by
      simpa [lookup_eq_none] using hany
    refine ⟨h.shaders_nodup, hshaders, nodup_keys_append h.pipelines_nodup hnew, fun k ↦ ?_⟩
    rw [hrecipes, lookup_append, lookup_append, h.pipelines]

theorem pushRecord (h : Selected L emitter records sel) (record : PlainRecord) :
    Selected L emitter (records ++ [record]) (sel.pushRecord L .currentEmitter emitter record) := by
  cases record with
  | shader e => exact h.pushShader e
  | pipeline recipe => exact h.pushPipeline recipe

theorem pushAll (h : Selected L emitter records sel) (more : List PlainRecord) :
    Selected L emitter (records ++ more) (more.foldl (Selection.pushRecord L .currentEmitter emitter) sel) := by
  induction more generalizing records sel with
  | nil => rwa [List.append_nil]
  | cons record more ih =>
    have hnext := ih (h.pushRecord record)
    rwa [List.append_assoc] at hnext

theorem mem_shaders (h : Selected L emitter records sel) :
    e ∈ sel.shaders ↔ winner emitter (entriesOf records) e.reference = some e := by
  rw [mem_iff_lookup h.shaders_nodup, h.shaders]

theorem mem_pipelines (h : Selected L emitter records sel) : recipe ∈ sel.pipelines ↔
      lookup (PipelineRecipe.diskKey L) (recipesOf records) (recipe.diskKey L) = some recipe := by
  rw [mem_iff_lookup h.pipelines_nodup, h.pipelines]

end Selected

theorem foldl_shaders (es : List CacheEntry) (hu : ∀ e ∈ es, usable emitter e = true)
    (hnodup : ((sel.shaders ++ es).map reference).Nodup) :
    (es.map PlainRecord.shader).foldl (Selection.pushRecord L .currentEmitter emitter) sel =
      { sel with shaders := sel.shaders ++ es } := by
  induction es generalizing sel with
  | nil => simp
  | cons e es ih =>
    have hnew : sel.shaders.findIdx? (fun old ↦ old.reference == e.reference) = none := by
      rw [List.findIdx?_eq_none_iff]
      intro old hold
      rw [List.map_append, List.nodup_append] at hnodup
      simpa using hnodup.2.2 _ (List.mem_map_of_mem hold) _ (List.mem_map_of_mem List.mem_cons_self)
    have hpush : sel.pushRecord L .currentEmitter emitter (.shader e) =
        { sel with shaders := sel.shaders ++ [e] } := by
      change sel.pushShader .currentEmitter emitter e = _
      unfold Selection.pushShader
      rw [if_neg (not_dropped (hu e List.mem_cons_self)), hnew]
    rw [List.map_cons, List.foldl_cons, hpush, ih (fun e he ↦ hu e (List.mem_cons_of_mem _ he))]
    · simp
    · simpa using hnodup

theorem foldl_pipelines (ps : List PipelineRecipe)
    (hnodup : ((sel.pipelines ++ ps).map (PipelineRecipe.diskKey L)).Nodup) :
    (ps.map PlainRecord.pipeline).foldl (Selection.pushRecord L .currentEmitter emitter) sel =
      { sel with pipelines := sel.pipelines ++ ps } := by
  induction ps generalizing sel with
  | nil => simp
  | cons recipe ps ih =>
    have hnew : (sel.pipelines.any fun old ↦ old.diskKey L == recipe.diskKey L) = false := by
      rw [List.any_eq_false]
      intro old hold
      rw [List.map_append, List.nodup_append] at hnodup
      simpa using hnodup.2.2 _ (List.mem_map_of_mem hold) _ (List.mem_map_of_mem List.mem_cons_self)
    have hpush : sel.pushRecord L .currentEmitter emitter (.pipeline recipe) =
        { sel with pipelines := sel.pipelines ++ [recipe] } := by
      simp [Selection.pushRecord, Selection.pushPipeline, hnew]
    rw [List.map_cons, List.foldl_cons, hpush, ih]
    · simp
    · simpa using hnodup

end Mtld3d.ShaderCache
