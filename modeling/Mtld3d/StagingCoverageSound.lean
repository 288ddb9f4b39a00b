import Mathlib.Algebra.GroupWithZero.Nat
import Mathlib.Order.Interval.Finset.Nat
import Mtld3d.StagingCoverage

namespace Mtld3d

open List Lib DirtyRect

variable {level : LevelExtent} {rects : List DirtyRect} {rect : DirtyRect} {i j : ℕ}

def CoversLevel (rects : List DirtyRect) (level : LevelExtent) : Prop :=
  ∀ i j, i < level.w → j < level.h → ∃ r ∈ rects, r.Has i j

theorem bandReach_eq (top bottom s : ℕ) (ordered : List DirtyRect) : bandReach top bottom s ordered =
      reach s ((ordered.filter fun r ↦ decide (r.y ≤ top ∧ bottom ≤ r.y + r.h)).map fun r ↦ (r.x, r.x + r.w)) := by
  induction ordered generalizing s with
  | nil => rfl
  | cons r ordered ih =>
    rw [bandReach]
    by_cases hspan : r.y ≤ top ∧ bottom ≤ r.y + r.h
    · rw [if_neg (by omega), filter_cons_of_pos (by simpa using hspan), map_cons, reach, ih]
    · rw [if_pos (by omega), filter_cons_of_neg (by simpa using hspan), ih]

theorem le_bandReach_iff {ordered : List DirtyRect} (hsorted : ordered.Pairwise fun r s ↦ r.x ≤ s.x)
    {top bottom n : ℕ} : n ≤ bandReach top bottom 0 ordered ↔
      ∀ i < n, ∃ r ∈ ordered, (r.y ≤ top ∧ bottom ≤ r.y + r.h) ∧ r.x ≤ i ∧ i < r.x + r.w := by
  rw [bandReach_eq, le_reach_iff]
  · simp only [mem_map, mem_filter, decide_eq_true_eq]
    constructor
    · intro h i hi
      obtain ⟨_, ⟨r, ⟨hr, hspan⟩, rfl⟩, hcover⟩ := h i (Nat.zero_le i) hi
      exact ⟨r, hr, hspan, hcover⟩
    · intro h i _ hi
      obtain ⟨r, hr, hspan, hcover⟩ := h i hi
      exact ⟨_, ⟨r, ⟨hr, hspan⟩, rfl⟩, hcover⟩
  · rw [pairwise_map]
    exact hsorted.sublist filter_sublist

theorem pairwise_mergeSort_key {α : Type} (key : α → ℕ) (l : List α) :
    (l.mergeSort fun a b ↦ decide (key a ≤ key b)).Pairwise fun a b ↦ key a ≤ key b := by
  have hsorted : (l.mergeSort fun a b ↦ decide (key a ≤ key b)).Pairwise fun a b ↦ decide (key a ≤ key b) = true := by
    refine pairwise_mergeSort (fun a b c hab hbc ↦ ?_) (fun a b ↦ ?_) l
    · exact decide_eq_true (le_trans (of_decide_eq_true hab) (of_decide_eq_true hbc))
    · rw [Bool.or_eq_true, decide_eq_true_eq, decide_eq_true_eq]
      exact Nat.le_total _ _
  exact hsorted.imp of_decide_eq_true

theorem mem_bandsOf {v : ℕ} : v ∈ bandsOf rects ↔ ∃ r ∈ rects, v = r.y ∨ v = r.y + r.h := by
  simp [bandsOf, mem_dedupAdjacent, mem_mergeSort]

theorem pairwise_bandsOf (rects : List DirtyRect) : (bandsOf rects).Pairwise (· < ·) := by
  refine pairwise_dedupAdjacent ?_
  exact pairwise_mergeSort_key id _

theorem head?_of_least {l : List ℕ} (h : l.Pairwise (· < ·)) {a : ℕ} (ha : a ∈ l) (hleast : ∀ v ∈ l, a ≤ v) :
    l.head? = some a := by
  cases l with
  | nil => cases ha
  | cons b l =>
    have hab := hleast b mem_cons_self
    obtain rfl | hin := mem_cons.mp ha
    · rfl
    · have := (pairwise_cons.mp h).1 a hin
      omega

theorem getLast?_of_greatest {l : List ℕ} (h : l.Pairwise (· < ·)) {z : ℕ} (hz : z ∈ l) (hgreatest : ∀ v ∈ l, v ≤ z) :
    l.getLast? = some z := by
  obtain ⟨l₁, l₂, rfl⟩ := append_of_mem hz
  cases l₂ with
  | nil => simp
  | cons b l₂ =>
    have hlt := (pairwise_cons.mp (pairwise_append.mp h).2.1).1 b (by simp)
    have := hgreatest b (by simp)
    omega

theorem le_of_mem_bandsOf (hin : ∀ r ∈ rects, r.Inside level) {v : ℕ} (hv : v ∈ bandsOf rects) : v ≤ level.h := by
  obtain ⟨r, hr, hcase⟩ := mem_bandsOf.mp hv
  have := (hin r hr).bottom
  omega

theorem ends_of_covers (hin : ∀ r ∈ rects, r.Inside level) (h : CoversLevel rects level) :
    (bandsOf rects).head? = some 0 ∧ (bandsOf rects).getLast? = some level.h := by
  have hpairs := pairwise_bandsOf rects
  have hw := level.w_pos
  have hh := level.h_pos
  constructor
  · obtain ⟨r, hr, -, hy, -⟩ := h 0 0 hw hh
    exact head?_of_least hpairs (mem_bandsOf.mpr ⟨r, hr, .inl (by omega)⟩) fun v _ ↦ Nat.zero_le v
  · obtain ⟨r, hr, -, -, hy⟩ := h 0 (level.h - 1) hw (by omega)
    have hbottom := (hin r hr).bottom
    exact getLast?_of_greatest hpairs (mem_bandsOf.mpr ⟨r, hr, .inr (by omega)⟩) fun v hv ↦ le_of_mem_bandsOf hin hv

theorem sweep_iff (hin : ∀ r ∈ rects, r.Inside level) {ordered : List DirtyRect} (hperm : ordered.Perm rects)
    (hsorted : ordered.Pairwise fun r s ↦ r.x ≤ s.x) :
    sweep (bandsOf rects) ordered level.w level.h = true ↔ CoversLevel rects level := by
  have hpairs := pairwise_bandsOf rects
  unfold sweep
  constructor
  · intro hsweep i j hi hj
    split at hsweep
    · cases hsweep
    · rename_i hends
      obtain ⟨hfirst, hlast⟩ := not_or.mp hends
      obtain ⟨band, hband, htop, hbottom⟩ :=
        exists_window (not_not.mp hfirst) (not_not.mp hlast) (Nat.zero_le j) hj
      have hreach := of_decide_eq_true (all_eq_true.mp hsweep band hband)
      obtain ⟨r, hr, hspan, hcover⟩ := (le_bandReach_iff hsorted).mp hreach i hi
      exact ⟨r, hperm.mem_iff.mp hr, hcover, by omega, by omega⟩
  · intro hcovers
    obtain ⟨hfirst, hlast⟩ := ends_of_covers hin hcovers
    rw [if_neg (by simp [hfirst, hlast]), all_eq_true]
    intro band hband
    obtain ⟨-, hmem, hlt, hgap⟩ := windows_gap hpairs hband
    have hbottom := le_of_mem_bandsOf hin hmem
    refine decide_eq_true ((le_bandReach_iff hsorted).mpr fun i hi ↦ ?_)
    -- The row at the top of the band stands for the whole band: no rect ends inside it.
    obtain ⟨r, hr, hx, hy⟩ := hcovers i band.1 hi (by omega)
    have hend := hgap (r.y + r.h) (mem_bandsOf.mpr ⟨r, hr, .inr rfl⟩)
    exact ⟨r, hperm.mem_iff.mpr hr, by omega, hx⟩

theorem coversLevel_iff (hin : ∀ r ∈ rects, r.Inside level) :
    coversLevel rects level.w level.h = true ↔ CoversLevel rects level := by
  exact sweep_iff hin (mergeSort_perm _ _) (pairwise_mergeSort_key x rects)

def DirtyRect.texels (r : DirtyRect) : Finset (ℕ × ℕ) := Finset.Ico r.x (r.x + r.w) ×ˢ Finset.Ico r.y (r.y + r.h)

def areaOf (rects : List DirtyRect) : ℕ := (rects.map fun r ↦ r.w * r.h).sum

theorem card_texels_le (rects : List DirtyRect) : (rects.toFinset.biUnion texels).card ≤ areaOf rects := by
  induction rects with
  | nil => simp [areaOf]
  | cons r rects ih =>
    have hcard : r.texels.card = r.w * r.h := by simp [texels]
    have hsplit : (r :: rects).toFinset.biUnion texels =
        r.texels ∪ rects.toFinset.biUnion texels := by
      rw [toFinset_cons, Finset.biUnion_insert]
    rw [hsplit]
    calc _ ≤ r.texels.card + (rects.toFinset.biUnion texels).card := Finset.card_union_le _ _
      _ ≤ r.w * r.h + areaOf rects := Nat.add_le_add (le_of_eq hcard) ih
      _ = areaOf (r :: rects) := by simp [areaOf]

theorem area_of_covers (h : CoversLevel rects level) : level.w * level.h ≤ areaOf rects := by
  refine le_trans ?_ (card_texels_le rects)
  have hlevel : (Finset.range level.w ×ˢ Finset.range level.h).card = level.w * level.h := by simp
  rw [← hlevel]
  refine Finset.card_le_card fun p hp ↦ ?_
  rw [Finset.mem_product, Finset.mem_range, Finset.mem_range] at hp
  obtain ⟨r, hr, hx, hy⟩ := h p.1 p.2 hp.1 hp.2
  rw [Finset.mem_biUnion]
  refine ⟨r, mem_toFinset.mpr hr, ?_⟩
  rw [texels, Finset.mem_product, Finset.mem_Ico, Finset.mem_Ico]
  exact ⟨hx, hy⟩

theorem levelArea_le (level : LevelExtent) : level.w * level.h ≤ u64Max :=
  (Nat.mul_le_mul level.w_le level.h_le).trans (by decide)

namespace StagingCoverage

/-- The writes recorded since the last reset; `mark_full` is one of the whole level. -/
def recordWrite (level : LevelExtent) (writes : List DirtyRect) : Call → List DirtyRect
  | .add rect => writes ++ [rect]
  | .markFull => writes ++ [⟨0, 0, level.w, level.h⟩]
  | .reset => []

def writesOf (level : LevelExtent) (calls : List Call) : List DirtyRect := calls.foldl (recordWrite level) []

def arrive (level : LevelExtent) (arrived : List DirtyRect) : Call → List DirtyRect
  | .add rect =>
    match rect.clamp level.w level.h with
    | none => arrived
    | some rect => if arrived.any fun r ↦ r.contains rect then arrived else arrived ++ [rect]
  | .markFull => arrived
  | .reset => []

def arrivalsOf (level : LevelExtent) (calls : List Call) : List DirtyRect := calls.foldl (arrive level) []

/-- What the tracker's state says of the writes since the last reset. -/
structure Inv (level : LevelExtent) (writes arrived : List DirtyRect) (c : StagingCoverage) : Prop where
  inside : ∀ r ∈ arrived, r.Inside level
  rects : c.state = .partially → c.rects = arrived ∧ c.writtenArea = min (areaOf arrived) u64Max
  uncovered : c.state = .partially → ¬ CoversLevel arrived level
  written : c.state ≠ .full → ∀ i j, i < level.w → j < level.h →
    ((∃ r ∈ writes, r.Has i j) ↔ ∃ r ∈ arrived, r.Has i j)
  covered : c.state = .full → CoversLevel writes level
  untracked : c.state = .untracked → maxTrackedRects < arrived.length

variable {c : StagingCoverage} {writes arrived : List DirtyRect}

theorem not_covers_nil (level : LevelExtent) : ¬ CoversLevel [] level := by
  intro h
  obtain ⟨r, hr, -⟩ := h 0 0 level.w_pos level.h_pos
  cases hr

theorem Inv.new (level : LevelExtent) : Inv level [] [] new where
  inside := nofun
  rects := fun _ ↦ ⟨rfl, rfl⟩
  uncovered := fun _ ↦ not_covers_nil level
  written := fun _ _ _ _ _ ↦ Iff.rfl
  covered := nofun
  untracked := nofun

theorem CoversLevel.append (h : CoversLevel writes level) (more : List DirtyRect) :
    CoversLevel (writes ++ more) level := by
  intro i j hi hj
  obtain ⟨r, hr, hhas⟩ := h i j hi hj
  exact ⟨r, mem_append_left _ hr, hhas⟩

theorem arrive_none {rect : DirtyRect} (h : rect.clamp level.w level.h = none) :
    arrive level arrived (.add rect) = arrived := by
  simp [arrive, h]

theorem arrive_some {rect r : DirtyRect} (h : rect.clamp level.w level.h = some r) :
    arrive level arrived (.add rect) = if arrived.any fun s ↦ s.contains r then arrived else arrived ++ [r] := by
  simp [arrive, h]

theorem has_arrive (arrived : List DirtyRect) (rect : DirtyRect) (hi : i < level.w) (hj : j < level.h) :
    (∃ r ∈ arrive level arrived (.add rect), r.Has i j) ↔ (∃ r ∈ arrived, r.Has i j) ∨ rect.Has i j := by
  cases hclamp : rect.clamp level.w level.h with
  | none => simp [arrive_none hclamp, not_has_of_clamp hclamp hi hj]
  | some r =>
    have hhas : r.Has i j ↔ rect.Has i j := by
      rw [has_of_clamp hclamp]
      exact and_iff_left ⟨hi, hj⟩
    rw [arrive_some hclamp]
    split
    · rename_i hany
      obtain ⟨outer, houter, hcontains⟩ := any_eq_true.mp hany
      refine ⟨.inl, fun h ↦ h.elim id fun hrect ↦ ?_⟩
      exact ⟨outer, houter, (hhas.mpr hrect).of_contains hcontains⟩
    · rw [← hhas]
      simp [or_and_right, exists_or]

theorem inside_arrive (hin : ∀ r ∈ arrived, r.Inside level) (rect : DirtyRect) :
    ∀ r ∈ arrive level arrived (.add rect), r.Inside level := by
  cases hclamp : rect.clamp level.w level.h with
  | none =>
    rw [arrive_none hclamp]
    exact hin
  | some r =>
    rw [arrive_some hclamp]
    split
    · exact hin
    · intro s hs
      obtain hs | hs := mem_append.mp hs
      · exact hin s hs
      · rw [mem_singleton.mp hs]
        exact inside_of_clamp hclamp

theorem length_arrive_le (level : LevelExtent) (arrived : List DirtyRect) (rect : DirtyRect) :
    arrived.length ≤ (arrive level arrived (.add rect)).length := by
  cases hclamp : rect.clamp level.w level.h with
  | none => rw [arrive_none hclamp]
  | some r =>
    rw [arrive_some hclamp]
    split
    · exact le_refl _
    · simp

theorem areaOf_append (rects : List DirtyRect) (r : DirtyRect) : areaOf (rects ++ [r]) = areaOf rects + r.w * r.h := by
  simp [areaOf]

theorem Inv.writes_add (hinv : Inv level writes arrived c) (rect : DirtyRect) (hstate : c.state ≠ .full)
    (hi : i < level.w) (hj : j < level.h) :
    (∃ r ∈ writes ++ [rect], r.Has i j) ↔ ∃ r ∈ arrive level arrived (.add rect), r.Has i j := by
  rw [has_arrive arrived rect hi hj, ← hinv.written hstate i j hi hj]
  simp [or_and_right, exists_or]

theorem Inv.keep (hinv : Inv level writes arrived c) (rect : DirtyRect)
    (hsame : c.state = .partially → arrive level arrived (.add rect) = arrived) :
    Inv level (writes ++ [rect]) (arrive level arrived (.add rect)) c where
  inside := inside_arrive hinv.inside rect
  rects := by
    intro hstate
    rw [hsame hstate]
    exact hinv.rects hstate
  uncovered := by
    intro hstate
    rw [hsame hstate]
    exact hinv.uncovered hstate
  written := fun hstate i j hi hj ↦ hinv.writes_add rect hstate hi hj
  covered := fun hstate ↦ CoversLevel.append (hinv.covered hstate) _
  untracked := fun hstate ↦ lt_of_lt_of_le (hinv.untracked hstate) (length_arrive_le level arrived rect)

theorem Inv.full (hin : ∀ r ∈ arrived, r.Inside level) (hcovers : CoversLevel writes level) :
    Inv level writes arrived markFull where
  inside := hin
  rects := nofun
  uncovered := nofun
  written := fun hstate ↦ absurd rfl hstate
  covered := fun _ ↦ hcovers
  untracked := nofun

theorem Inv.push (hinv : Inv level writes arrived c) {rect r : DirtyRect} (hclamp : rect.clamp level.w level.h = some r)
    (hstate : c.state = .partially) (hany : ¬ (arrived.any fun s ↦ s.contains r) = true)
    {area : ℕ} (harea : area = min (c.writtenArea + r.w * r.h) u64Max) :
    Inv level (writes ++ [rect]) (arrive level arrived (.add rect))
      (if level.w * level.h ≤ area ∧ coversLevel (arrived ++ [r]) level.w level.h = true then markFull
      else ⟨arrived ++ [r], area, c.state⟩) := by
  have harrive : arrive level arrived (.add rect) = arrived ++ [r] := by
    rw [arrive_some hclamp, if_neg hany]
  have hinside := inside_arrive hinv.inside rect
  have hnot : c.state ≠ .full := by
    rw [hstate]
    nofun
  have hwritten := fun i j (hi : i < level.w) (hj : j < level.h) ↦ hinv.writes_add rect hnot hi hj
  have hsum : area = min (areaOf (arrived ++ [r])) u64Max := by
    rw [harea, (hinv.rects hstate).2, areaOf_append]
    omega
  have hexact := coversLevel_iff (harrive ▸ hinside)
  split
  · rename_i hcovers
    refine .full hinside fun i j hi hj ↦ (hwritten i j hi hj).mpr ?_
    rw [harrive]
    exact hexact.mp hcovers.2 i j hi hj
  · rename_i hopen
    refine ⟨hinside, fun _ ↦ ⟨harrive.symm, ?_⟩, fun _ hcovers ↦ ?_, fun _ ↦ hwritten, fun hfull ↦ absurd hfull hnot, ?_⟩
    · rw [harrive]
      exact hsum
    · rw [harrive] at hcovers
      refine hopen ⟨?_, hexact.mpr hcovers⟩
      rw [hsum]
      exact Nat.le_min.mpr ⟨area_of_covers hcovers, levelArea_le level⟩
    · intro huntracked
      rw [hstate] at huntracked
      cases huntracked

theorem Inv.add (hinv : Inv level writes arrived c) (rect : DirtyRect) :
    Inv level (writes ++ [rect]) (arrive level arrived (.add rect)) (c.add rect level.w level.h) := by
  unfold StagingCoverage.add
  cases hclamp : rect.clamp level.w level.h with
  | none => exact hinv.keep rect fun _ ↦ arrive_none hclamp
  | some r =>
    simp only
    by_cases hwhole : r.x = 0 ∧ r.y = 0 ∧ level.w ≤ r.w ∧ level.h ≤ r.h
    · rw [if_pos hwhole]
      refine .full (inside_arrive hinv.inside rect) fun i j hi hj ↦ ⟨rect, by simp, ?_⟩
      have hhas : r.Has i j := by
        unfold DirtyRect.Has
        omega
      exact ((has_of_clamp hclamp).mp hhas).1
    rw [if_neg hwhole]
    by_cases hstate : c.state ≠ .partially
    · rw [if_pos hstate]
      exact hinv.keep rect fun h ↦ absurd h hstate
    rw [if_neg hstate]
    rw [not_not] at hstate
    obtain ⟨hrects, -⟩ := hinv.rects hstate
    rw [hrects]
    by_cases hany : (arrived.any fun s ↦ s.contains r) = true
    · rw [if_pos hany]
      refine hinv.keep rect fun _ ↦ ?_
      rw [arrive_some hclamp, if_pos hany]
    rw [if_neg hany]
    by_cases hmany : maxTrackedRects ≤ arrived.length
    · rw [if_pos hmany]
      have hnot : c.state ≠ .full := by
        rw [hstate]
        nofun
      refine ⟨inside_arrive hinv.inside rect, nofun, nofun, fun _ i j hi hj ↦ hinv.writes_add rect hnot hi hj, nofun,
        fun _ ↦ ?_⟩
      rw [arrive_some hclamp, if_neg hany, length_append]
      exact Nat.lt_succ_of_le hmany
    · rw [if_neg hmany]
      exact hinv.push hclamp hstate hany rfl

theorem Inv.call (hinv : Inv level writes arrived c) (op : Call) :
    Inv level (recordWrite level writes op) (arrive level arrived op) (call level c op) := by
  cases op with
  | add rect => exact hinv.add rect
  | markFull =>
    refine .full hinv.inside fun i j hi hj ↦ ⟨⟨0, 0, level.w, level.h⟩, by simp [recordWrite], ?_⟩
    exact ⟨⟨Nat.zero_le i, by simpa using hi⟩, Nat.zero_le j, by simpa using hj⟩
  | reset => exact Inv.new level

theorem inv_run (level : LevelExtent) (calls : List Call) :
    Inv level (writesOf level calls) (arrivalsOf level calls) (run level calls) := by
  suffices h : ∀ writes arrived c, Inv level writes arrived c →
      Inv level (calls.foldl (recordWrite level) writes) (calls.foldl (arrive level) arrived)
        (calls.foldl (StagingCoverage.call level) c) from h _ _ _ (Inv.new level)
  induction calls with
  | nil => exact fun _ _ _ h ↦ h
  | cons op calls ih => exact fun writes arrived c h ↦ ih _ _ _ (h.call op)

/-- Coverage is an exact union test: full means written, and while rects are followed written means full. -/
theorem coverage_exact (level : LevelExtent) (calls : List Call) :
    ((run level calls).isFull = true → CoversLevel (writesOf level calls) level) ∧
    ((arrivalsOf level calls).length < maxTrackedRects + 1 → (run level calls).state ≠ .untracked) ∧
    ((run level calls).state ≠ .untracked → CoversLevel (writesOf level calls) level →
      (run level calls).isFull = true) ∧
    ∀ rects : List DirtyRect, (∀ r ∈ rects, r.Inside level) →
      (coversLevel rects level.w level.h = true ↔ CoversLevel rects level) ∧
      (CoversLevel rects level → level.w * level.h ≤ min (areaOf rects) u64Max) := by
  have hinv := inv_run level calls
  refine ⟨fun hfull ↦ hinv.covered (of_decide_eq_true hfull), fun hfew huntracked ↦ ?_, fun htracked hcovers ↦ ?_,
    fun rects hin ↦ ⟨coversLevel_iff hin, fun hcovers ↦ Nat.le_min.mpr ⟨area_of_covers hcovers, levelArea_le level⟩⟩⟩
  · exact absurd (hinv.untracked huntracked) (Nat.not_lt.mpr (Nat.le_of_lt_succ hfew))
  · refine decide_eq_true ?_
    cases hstate : (run level calls).state with
    | full => rfl
    | untracked => exact absurd hstate htracked
    | partially =>
      refine absurd (fun i j hi hj ↦ ?_) (hinv.uncovered hstate)
      have hnot : (run level calls).state ≠ .full := by
        rw [hstate]
        nofun
      exact (hinv.written hnot i j hi hj).mp (hcovers i j hi hj)

end StagingCoverage

end Mtld3d
