import Mtld3d.Lib.Lru
import Mtld3d.PipelineMemo

namespace Mtld3d

open Function List Lib

instance : DecidableEq PipelineSnapshot := fun a b ↦ decidable_of_iff _ (PipelineSnapshot.same_iff a b)

namespace PipelineMemo

variable {m : PipelineMemo} {slots : List ℕ} {held : List PipelineSnapshot} {s : PipelineSnapshot} {i handle : ℕ}

def lookupPlain (m : PipelineMemo) (snapshot : PipelineSnapshot) : Option ℕ × PipelineMemo :=
  match ((range pipelineMemoEntries).filter fun i ↦ m.tags i == pipelineTag snapshot && m.stamps i != 0).find?
      fun i ↦ (m.entries i).any fun s ↦ s.same snapshot with
  | some i => (some (m.handles i), m.touch i)
  | none => (none, m)

/-- The entries in `slots`, latest use first, are the snapshots of `held`. -/
structure Holds (m : PipelineMemo) (slots : List ℕ) (held : List PipelineSnapshot) : Prop where
  lt : ∀ i ∈ slots, i < pipelineMemoEntries
  entries : slots.map m.entries = held.map some
  descending : slots.Pairwise fun i j ↦ m.stamps j < m.stamps i
  stamped : ∀ i ∈ slots, 0 < m.stamps i ∧ m.stamps i ≤ m.clock
  vacant : ∀ i ∉ slots, m.entries i = none ∧ m.stamps i = 0
  tags : ∀ i s, m.entries i = some s → m.tags i = pipelineTag s
  front : m.front = slots.head?.bind fun i ↦ (m.entries i).map fun s ↦ (s, m.handles i)
  frontAt : ∀ i ∈ slots.head?, m.frontAt = i
  nodup : held.Nodup

theorem holds_new : new.Holds [] [] := by
  refine ⟨?_, rfl, .nil, ?_, fun _ _ ↦ ⟨rfl, rfl⟩, ?_, rfl, ?_, nodup_nil⟩ <;> simp [new]

theorem Holds.nodup_slots (h : m.Holds slots held) : slots.Nodup :=
  h.descending.imp fun {i j} hlt (heq : i = j) ↦ absurd hlt (heq ▸ lt_irrefl _)

theorem Holds.length_eq (h : m.Holds slots held) : slots.length = held.length := by
  simpa using congrArg List.length h.entries

theorem Holds.length_le (h : m.Holds slots held) : slots.length ≤ pipelineMemoEntries := by
  have hsub : slots ⊆ range pipelineMemoEntries := fun i hi ↦ mem_range.2 (h.lt i hi)
  simpa using (h.nodup_slots.subperm hsub).length_le

theorem Holds.mem_slots (h : m.Holds slots held) (hs : m.entries i = some s) : i ∈ slots := by
  by_contra hout
  rw [(h.vacant i hout).1] at hs
  cases hs

theorem Holds.entry_mem (h : m.Holds slots held) (hs : m.entries i = some s) : s ∈ held := by
  have hmem : some s ∈ slots.map m.entries := hs ▸ mem_map_of_mem (h.mem_slots hs)
  rw [h.entries] at hmem
  simpa using hmem

theorem Holds.exists_slot (h : m.Holds slots held) (hs : s ∈ held) : ∃ i ∈ slots, m.entries i = some s := by
  have hmem : some s ∈ held.map some := mem_map_of_mem hs
  rw [← h.entries] at hmem
  exact mem_map.1 hmem

theorem Holds.nodup_entries (h : m.Holds slots held) : (slots.map m.entries).Nodup := by
  rw [h.entries]
  exact h.nodup.map (Option.some_injective _)

theorem Holds.slot_unique (h : m.Holds slots held) {j : ℕ} (hsi : m.entries i = some s)
    (hsj : m.entries j = some s) : i = j :=
  inj_on_of_nodup_map h.nodup_entries (h.mem_slots hsi) (h.mem_slots hsj) (hsi.trans hsj.symm)

theorem Holds.erase (h : m.Holds slots held) (hs : m.entries i = some s) :
    (slots.erase i).map m.entries = (held.erase s).map some := by
  rw [map_erase_of_nodup h.nodup_entries (h.mem_slots hs), h.entries, hs,
    map_erase_of_nodup (h.nodup.map (Option.some_injective _)) (h.entry_mem hs)]

@[simp] theorem touch_entries (m : PipelineMemo) (i : ℕ) : (m.touch i).entries = m.entries := rfl

theorem touch_stamps_of_ne (m : PipelineMemo) {j : ℕ} (hj : j ≠ i) : (m.touch i).stamps j = m.stamps j :=
  update_of_ne hj _ _

theorem touch_stamps_self (m : PipelineMemo) (i : ℕ) : (m.touch i).stamps i = m.clock + 1 :=
  update_self _ _ _

theorem holds_touch (hi : i < pipelineMemoEntries) {rest : List ℕ} {others : List PipelineSnapshot}
    (hlt : ∀ j ∈ rest, j < pipelineMemoEntries) (hs : m.entries i = some s)
    (hentries : rest.map m.entries = others.map some) (hdesc : rest.Pairwise fun j k ↦ m.stamps k < m.stamps j)
    (hstamped : ∀ j ∈ rest, 0 < m.stamps j ∧ m.stamps j ≤ m.clock)
    (hvacant : ∀ j, j ≠ i → j ∉ rest → m.entries j = none ∧ m.stamps j = 0)
    (htags : ∀ j s, m.entries j = some s → m.tags j = pipelineTag s) (hnot : i ∉ rest)
    (hnodup : (s :: others).Nodup) : (m.touch i).Holds (i :: rest) (s :: others) := by
  have hkept : ∀ j ∈ rest, (m.touch i).stamps j = m.stamps j :=
    fun j hj ↦ touch_stamps_of_ne m fun heq ↦ hnot (heq ▸ hj)
  refine ⟨?_, ?_, ?_, ?_, ?_, htags, ?_, ?_, hnodup⟩
  · exact forall_mem_cons.2 ⟨hi, hlt⟩
  · rw [map_cons, map_cons, touch_entries, hs, hentries]
  · refine pairwise_cons.2 ⟨fun j hj ↦ ?_, ?_⟩
    · rw [hkept j hj, touch_stamps_self]
      exact Nat.lt_succ_of_le (hstamped j hj).2
    · refine hdesc.imp_of_mem fun {j k} hj hk hjk ↦ ?_
      rwa [hkept j hj, hkept k hk]
  · refine forall_mem_cons.2 ⟨?_, fun j hj ↦ ?_⟩
    · rw [touch_stamps_self]
      exact ⟨Nat.succ_pos _, le_refl _⟩
    · rw [hkept j hj]
      exact ⟨(hstamped j hj).1, Nat.le_succ_of_le (hstamped j hj).2⟩
  · intro j hout
    rw [mem_cons, not_or] at hout
    rw [touch_entries, touch_stamps_of_ne m hout.1]
    exact hvacant j hout.1 hout.2
  · rfl
  · intro j hj
    exact Option.some.inj hj

theorem Holds.touch (h : m.Holds slots held) (hs : m.entries i = some s) :
    (m.touch i).Holds (i :: slots.erase i) (s :: held.erase s) := by
  refine holds_touch (h.lt i (h.mem_slots hs)) (fun j hj ↦ h.lt j (mem_of_mem_erase hj)) hs (h.erase hs)
    (h.descending.sublist erase_sublist) (fun j hj ↦ h.stamped j (mem_of_mem_erase hj)) ?_ h.tags
    h.nodup_slots.not_mem_erase (nodup_cons.2 ⟨h.nodup.not_mem_erase, h.nodup.erase s⟩)
  intro j hne hout
  exact h.vacant j fun hmem ↦ hout ((mem_erase_of_ne hne).2 hmem)

theorem Holds.front_hit (h : m.Holds slots held) (hfront : m.front = some (s, handle)) :
    m.Holds slots (s :: held.erase s) ∧ ∃ i, m.entries i = some s ∧ m.handles i = handle := by
  cases slots with
  | nil => rw [h.front] at hfront; cases hfront
  | cons i rest =>
    cases held with
    | nil => cases h.entries
    | cons t others =>
      obtain ⟨ht, -⟩ := List.cons.inj h.entries
      rw [h.front, head?_cons, Option.bind_some, ht] at hfront
      cases hfront
      rw [erase_cons_head]
      exact ⟨h, i, ht, rfl⟩

theorem mem_candidates {j : ℕ} : j ∈ m.candidates s ↔
    j < pipelineMemoEntries ∧ m.tags j = pipelineTag s ∧ m.stamps j ≠ 0 ∧ j ≠ m.frontAt := by
  simp [candidates, and_assoc]

theorem Holds.find (h : m.Holds slots held) {scan : List ℕ} (hi : i ∈ scan)
    (hs : m.entries i = some s) : (scan.find? fun j ↦ (m.entries j).any fun t ↦ t.same s) = some i := by
  cases hfind : scan.find? fun j ↦ (m.entries j).any fun t ↦ t.same s with
  | none =>
    have hno := find?_eq_none.1 hfind i hi
    simp [hs, (s.same_iff s).2 rfl] at hno
  | some j =>
    obtain ⟨t, ht, hsame⟩ := (Option.any_eq_true _ _).1 (by simpa using find?_some hfind)
    rw [(t.same_iff s).1 hsame] at ht
    rw [h.slot_unique ht hs]

theorem Holds.find_none (h : m.Holds slots held) (scan : List ℕ) (hs : s ∉ held) :
    (scan.find? fun j ↦ (m.entries j).any fun t ↦ t.same s) = none := by
  refine find?_eq_none.2 fun j _ hany ↦ ?_
  obtain ⟨t, ht, hsame⟩ := (Option.any_eq_true _ _).1 (by simpa using hany)
  rw [(t.same_iff s).1 hsame] at ht
  exact hs (h.entry_mem ht)

def Answers (m : PipelineMemo) (held : List PipelineSnapshot) (s : PipelineSnapshot)
    (result : Option ℕ × PipelineMemo) : Prop :=
  (s ∈ held → ∃ i, m.entries i = some s ∧ result.1 = some (m.handles i) ∧ result.2.entries = m.entries ∧
    result.2.handles = m.handles ∧ ∃ slots, result.2.Holds slots (s :: held.erase s)) ∧
  (s ∉ held → result = (none, m))

theorem Holds.answers_plain (h : m.Holds slots held) (s : PipelineSnapshot) :
    m.Answers held s (m.lookupPlain s) := by
  constructor
  · intro hs
    obtain ⟨i, hi, hsi⟩ := h.exists_slot hs
    have hmem : i ∈ (range pipelineMemoEntries).filter
        (fun j ↦ m.tags j == pipelineTag s && m.stamps j != 0) := by
      have hpos := (h.stamped i hi).1
      simp only [mem_filter, mem_range, Bool.and_eq_true, beq_iff_eq, bne_iff_ne]
      exact ⟨h.lt i hi, h.tags i s hsi, by omega⟩
    rw [lookupPlain, h.find hmem hsi]
    exact ⟨i, hsi, rfl, rfl, rfl, _, h.touch hsi⟩
  · intro hs
    rw [lookupPlain, h.find_none _ hs]

theorem Holds.answers_entries (h : m.Holds slots held) (s : PipelineSnapshot)
    (hfront : ∀ t handle, m.front = some (t, handle) → t ≠ s) : m.Answers held s (m.lookupEntries s) := by
  constructor
  · intro hs
    obtain ⟨i, hi, hsi⟩ := h.exists_slot hs
    have hmem : i ∈ m.candidates s := by
      have hpos := (h.stamped i hi).1
      refine mem_candidates.2 ⟨h.lt i hi, h.tags i s hsi, by omega, fun heq ↦ ?_⟩
      -- The masked entry is the one the front copies.
      cases slots with
      | nil => cases hi
      | cons a rest =>
        have ha : a = i := by rw [heq, h.frontAt a rfl]
        refine hfront s (m.handles a) ?_ rfl
        rw [h.front, head?_cons, Option.bind_some, ha, hsi, Option.map_some]
    rw [lookupEntries, h.find hmem hsi]
    exact ⟨i, hsi, rfl, rfl, rfl, _, h.touch hsi⟩
  · intro hs
    rw [lookupEntries, h.find_none _ hs]

theorem Holds.answers (h : m.Holds slots held) (s : PipelineSnapshot) : m.Answers held s (m.lookup s) := by
  rw [lookup]
  cases hfront : m.front with
  | none => exact h.answers_entries s fun t handle ht ↦ by rw [hfront] at ht; cases ht
  | some copy =>
    obtain ⟨t, handle⟩ := copy
    simp only
    split_ifs with hsame
    · obtain rfl := (t.same_iff s).1 hsame
      obtain ⟨hholds, i, hsi, rfl⟩ := h.front_hit hfront
      exact ⟨fun _ ↦ ⟨i, hsi, rfl, rfl, rfl, slots, hholds⟩, fun hs ↦ absurd (h.entry_mem hsi) hs⟩
    · refine h.answers_entries s fun u handle' hu heq ↦ hsame ?_
      rw [hfront] at hu
      cases hu
      exact (t.same_iff s).2 heq

theorem foldl_least (stamps : ℕ → ℕ) (l : List ℕ) (a : ℕ) :
    (l.foldl (fun victim i ↦ if stamps i < stamps victim then i else victim) a = a ∨
      l.foldl (fun victim i ↦ if stamps i < stamps victim then i else victim) a ∈ l) ∧ ∀ j, j = a ∨ j ∈ l →
      stamps (l.foldl (fun victim i ↦ if stamps i < stamps victim then i else victim) a) ≤ stamps j := by
  induction l generalizing a with
  | nil => simp
  | cons b l ih =>
    rw [foldl_cons]
    obtain ⟨hmem, hle⟩ := ih (if stamps b < stamps a then b else a)
    constructor
    · obtain heq | hin := hmem
      · rw [heq]
        split
        · exact .inr mem_cons_self
        · exact .inl rfl
      · exact .inr (mem_cons_of_mem b hin)
    · have hfirst := hle _ (.inl rfl)
      have hpair : stamps (if stamps b < stamps a then b else a) ≤ stamps a ∧
          stamps (if stamps b < stamps a then b else a) ≤ stamps b := by
        split <;> omega
      intro j hj
      rw [mem_cons] at hj
      obtain rfl | rfl | hin := hj
      · exact hfirst.trans hpair.1
      · exact hfirst.trans hpair.2
      · exact hle j (.inr hin)

theorem leastRecent_spec (m : PipelineMemo) : m.leastRecent < pipelineMemoEntries ∧
    ∀ j < pipelineMemoEntries, m.stamps m.leastRecent ≤ m.stamps j := by
  obtain ⟨hmem, hle⟩ := foldl_least m.stamps (range pipelineMemoEntries) 0
  constructor
  · obtain heq | hin := hmem
    · rw [leastRecent, heq]
      decide
    · exact mem_range.1 hin
  · intro j hj
    exact hle j (.inr (mem_range.2 hj))

theorem Holds.victim (h : m.Holds slots held) : (m.leastRecent ∉ slots ∧ slots.length < pipelineMemoEntries) ∨
      ∃ rest, slots = rest ++ [m.leastRecent] ∧ slots.length = pipelineMemoEntries := by
  obtain ⟨hlt, hle⟩ := m.leastRecent_spec
  by_cases hmem : m.leastRecent ∈ slots
  · right
    have hall : ∀ j < pipelineMemoEntries, j ∈ slots := by
      intro j hj
      by_contra hout
      have hzero := hle j hj
      rw [(h.vacant j hout).2] at hzero
      have hpos := (h.stamped _ hmem).1
      omega
    have hfull : slots.length = pipelineMemoEntries := by
      refine le_antisymm h.length_le ?_
      have hsub : range pipelineMemoEntries ⊆ slots := fun j hj ↦ hall j (mem_range.1 hj)
      simpa using (nodup_range.subperm hsub).length_le
    obtain ⟨rest, last, hslots⟩ : ∃ rest last, slots = rest ++ [last] :=
      ⟨_, _, (dropLast_append_getLast (ne_nil_of_mem hmem)).symm⟩
    refine ⟨rest, ?_, hfull⟩
    rw [hslots, mem_append, mem_singleton] at hmem
    obtain hrest | heq := hmem
    · have hdesc := h.descending
      rw [hslots, pairwise_append] at hdesc
      have hless := hdesc.2.2 _ hrest last mem_cons_self
      have hmin := hle last (h.lt last (by rw [hslots]; simp))
      omega
    · rw [heq, hslots]
  · left
    refine ⟨hmem, ?_⟩
    have hsub : m.leastRecent :: slots ⊆ range pipelineMemoEntries := by
      refine cons_subset.2 ⟨mem_range.2 hlt, fun j hj ↦ mem_range.2 (h.lt j hj)⟩
    have hlen := ((nodup_cons.2 ⟨hmem, h.nodup_slots⟩).subperm hsub).length_le
    rwa [length_cons, length_range] at hlen

theorem Holds.erase_victim (h : m.Holds slots held) :
    (slots.erase m.leastRecent).map m.entries = (held.take (pipelineMemoEntries - 1)).map some := by
  obtain ⟨hout, hshort⟩ | ⟨rest, hslots, hfull⟩ := h.victim
  · rw [erase_of_not_mem hout, h.entries, take_of_length_le]
    rw [← h.length_eq]
    omega
  · have hlen : rest.length = pipelineMemoEntries - 1 := by
      rw [hslots, length_append, length_singleton] at hfull
      omega
    have hnot : m.leastRecent ∉ rest := by
      have hnodup := h.nodup_slots
      rw [hslots, nodup_append] at hnodup
      intro hin
      exact hnodup.2.2 _ hin _ mem_cons_self rfl
    rw [map_take, ← h.entries, hslots, erase_append_right _ hnot, erase_cons_head, append_nil,
      map_append, take_left' (by rw [length_map, hlen])]

theorem record_entries (m : PipelineMemo) (s : PipelineSnapshot) (handle : ℕ) :
    (m.record s handle).entries = update m.entries m.leastRecent (some s) := rfl

theorem record_handles (m : PipelineMemo) (s : PipelineSnapshot) (handle : ℕ) :
    (m.record s handle).handles = update m.handles m.leastRecent handle := rfl

theorem Holds.record (h : m.Holds slots held) (hs : s ∉ held) (handle : ℕ) :
    (m.record s handle).Holds (m.leastRecent :: slots.erase m.leastRecent)
      ((s :: held).take pipelineMemoEntries) := by
  have hnot : m.leastRecent ∉ slots.erase m.leastRecent := h.nodup_slots.not_mem_erase
  have hin : ∀ j ∈ slots.erase m.leastRecent, j ∈ slots ∧ j ≠ m.leastRecent := by
    intro j hj
    exact ⟨mem_of_mem_erase hj, fun heq ↦ hnot (heq ▸ hj)⟩
  have hrest : (slots.erase m.leastRecent).map (update m.entries m.leastRecent (some s)) =
      (held.take (pipelineMemoEntries - 1)).map some := by
    rw [← h.erase_victim]
    exact map_congr_left fun j hj ↦ update_of_ne (hin j hj).2 _ _
  rw [show pipelineMemoEntries = pipelineMemoEntries - 1 + 1 from rfl, take_succ_cons]
  refine holds_touch m.leastRecent_spec.1 (fun j hj ↦ h.lt j (hin j hj).1) (update_self _ _ _) hrest
    (h.descending.sublist erase_sublist) (fun j hj ↦ h.stamped j (hin j hj).1) ?_ ?_ hnot ?_
  · intro j hne hout
    simp only [update_of_ne hne]
    exact h.vacant j fun hmem ↦ hout ((mem_erase_of_ne hne).2 hmem)
  · intro j t ht
    simp only at ht ⊢
    by_cases hj : j = m.leastRecent
    · rw [hj, update_self] at ht ⊢
      rw [Option.some.inj ht]
    · rw [update_of_ne hj] at ht ⊢
      exact h.tags j t ht
  · exact nodup_cons.2 ⟨fun hmem ↦ hs (mem_of_mem_take hmem), h.nodup.sublist (take_sublist _ _)⟩

end PipelineMemo

/-- A hit of a snapshot, or a record of it with the handle it resolved to. -/
structure MemoUse where
  snapshot : PipelineSnapshot
  recorded : Option ℕ

/-- A lookup, and the record made should it miss, where the pipeline is built. -/
structure MemoAccess where
  snapshot : PipelineSnapshot
  built : Option ℕ

/-- The memo and the hits and records it has seen, newest first. -/
structure MemoWorld where
  memo : PipelineMemo
  uses : List MemoUse

namespace MemoWorld

def new : MemoWorld := ⟨.new, []⟩

def access (find : PipelineMemo → PipelineSnapshot → Option ℕ × PipelineMemo) (w : MemoWorld) (a : MemoAccess) :
    Option ℕ × MemoWorld :=
  match find w.memo a.snapshot with
  | (some handle, memo) => (some handle, ⟨memo, ⟨a.snapshot, none⟩ :: w.uses⟩)
  | (none, memo) =>
    match a.built with
    | some handle => (none, ⟨memo.record a.snapshot handle, ⟨a.snapshot, some handle⟩ :: w.uses⟩)
    | none => (none, ⟨memo, w.uses⟩)

def run (find : PipelineMemo → PipelineSnapshot → Option ℕ × PipelineMemo) :
    MemoWorld → List MemoAccess → List (Option ℕ) × MemoWorld
  | w, [] => ([], w)
  | w, a :: accesses =>
    let (answer, w) := w.access find a
    let (answers, w) := run find w accesses
    (answer :: answers, w)

def keys (uses : List MemoUse) : List PipelineSnapshot := uses.map MemoUse.snapshot

def lastRecorded (uses : List MemoUse) (s : PipelineSnapshot) : Option ℕ :=
  uses.findSome? fun u ↦ if u.snapshot = s then u.recorded else none

def lruAnswer (uses : List MemoUse) (s : PipelineSnapshot) : Option ℕ :=
  if s ∈ lru pipelineMemoEntries (keys uses) then lastRecorded uses s else none

def nextUses (uses : List MemoUse) (a : MemoAccess) : List MemoUse :=
  match lruAnswer uses a.snapshot, a.built with
  | some _, _ => ⟨a.snapshot, none⟩ :: uses
  | none, some handle => ⟨a.snapshot, some handle⟩ :: uses
  | none, none => uses

variable {w w' : MemoWorld} {find : PipelineMemo → PipelineSnapshot → Option ℕ × PipelineMemo} {s : PipelineSnapshot}
  {uses : List MemoUse}

/-- The memo holds the most recently used snapshots in their order, each with the handle last recorded. -/
structure Inv (w : MemoWorld) : Prop where
  holds : ∃ slots, w.memo.Holds slots (lru pipelineMemoEntries (keys w.uses))
  handles : ∀ i s, w.memo.entries i = some s → lastRecorded w.uses s = some (w.memo.handles i)

theorem inv_new : new.Inv := ⟨⟨[], PipelineMemo.holds_new⟩, fun i s h ↦ by cases h⟩

theorem lastRecorded_hit (s t : PipelineSnapshot) : lastRecorded (⟨t, none⟩ :: uses) s = lastRecorded uses s := by
  rw [lastRecorded, findSome?_cons, ite_self]
  rfl

theorem lastRecorded_record (handle : ℕ) : lastRecorded (⟨s, some handle⟩ :: uses) s = some handle := by
  rw [lastRecorded, findSome?_cons, if_pos rfl]

theorem lastRecorded_of_ne {t : PipelineSnapshot} (h : t ≠ s) (recorded : Option ℕ) :
    lastRecorded (⟨t, recorded⟩ :: uses) s = lastRecorded uses s := by
  rw [lastRecorded, findSome?_cons, if_neg h]
  rfl

theorem Inv.hit (h : w.Inv) {memo : PipelineMemo} (hentries : memo.entries = w.memo.entries)
    (hhandles : memo.handles = w.memo.handles) {slots : List ℕ}
    (hholds : memo.Holds slots (s :: (lru pipelineMemoEntries (keys w.uses)).erase s)) :
    Inv ⟨memo, ⟨s, none⟩ :: w.uses⟩ := by
  have hlen := hholds.length_eq ▸ hholds.length_le
  refine ⟨⟨slots, ?_⟩, fun i t ht ↦ ?_⟩
  · rw [keys, map_cons, lru]
    change memo.Holds slots ((s :: (lru pipelineMemoEntries (keys w.uses)).erase s).take pipelineMemoEntries)
    rwa [take_of_length_le hlen]
  · simp only [hentries] at ht
    rw [lastRecorded_hit, hhandles, h.handles i t ht]

theorem Inv.record (h : w.Inv) (hs : s ∉ lru pipelineMemoEntries (keys w.uses)) (handle : ℕ) :
    Inv ⟨w.memo.record s handle, ⟨s, some handle⟩ :: w.uses⟩ := by
  obtain ⟨slots, hholds⟩ := h.holds
  have hrecord := hholds.record hs handle
  rw [← erase_of_not_mem hs] at hrecord
  refine ⟨⟨_, hrecord⟩, fun i t ht ↦ ?_⟩
  simp only [PipelineMemo.record_entries, PipelineMemo.record_handles] at ht ⊢
  by_cases hi : i = w.memo.leastRecent
  · rw [hi, update_self] at ht ⊢
    obtain rfl := Option.some.inj ht
    exact lastRecorded_record handle
  · rw [update_of_ne hi] at ht ⊢
    have hne : s ≠ t := by
      rintro rfl
      exact hs (hholds.entry_mem ht)
    rw [lastRecorded_of_ne hne, h.handles i t ht]

theorem Inv.access (hfind : ∀ m slots held s, PipelineMemo.Holds m slots held → m.Answers held s (find m s))
    (h : w.Inv) (a : MemoAccess) :
    (w.access find a).1 = lruAnswer w.uses a.snapshot ∧ (w.access find a).2.uses = nextUses w.uses a ∧
      (w.access find a).2.Inv := by
  obtain ⟨slots, hholds⟩ := h.holds
  obtain ⟨hhit, hmiss⟩ := hfind _ _ _ a.snapshot hholds
  by_cases hs : a.snapshot ∈ lru pipelineMemoEntries (keys w.uses)
  · obtain ⟨i, hsi, hanswer, hentries, hhandles, slots', hholds'⟩ := hhit hs
    have hlru : lruAnswer w.uses a.snapshot = some (w.memo.handles i) := by
      rw [lruAnswer, if_pos hs, h.handles i _ hsi]
    rw [nextUses, hlru, MemoWorld.access]
    rcases hf : find w.memo a.snapshot with ⟨answer, memo⟩
    rw [hf] at hanswer hentries hhandles hholds'
    cases hanswer
    exact ⟨rfl, rfl, h.hit hentries hhandles hholds'⟩
  · have hlru : lruAnswer w.uses a.snapshot = none := if_neg hs
    rw [nextUses, hlru, MemoWorld.access, hmiss hs]
    cases a.built with
    | none => exact ⟨rfl, rfl, h⟩
    | some handle => exact ⟨rfl, rfl, h.record hs handle⟩

theorem run_cons (a : MemoAccess) (accesses : List MemoAccess) :
    (w.run find (a :: accesses)).1 = (w.access find a).1 :: ((w.access find a).2.run find accesses).1 := rfl

theorem Inv.run (hfind : ∀ m slots held s, PipelineMemo.Holds m slots held → m.Answers held s (find m s))
    (h : w.Inv) (accesses : List MemoAccess) : (w.run find accesses).2.Inv := by
  induction accesses generalizing w with
  | nil => exact h
  | cons a accesses ih => exact ih (h.access hfind a).2.2

theorem Inv.run_eq {find' : PipelineMemo → PipelineSnapshot → Option ℕ × PipelineMemo}
    (hfind : ∀ m slots held s, PipelineMemo.Holds m slots held → m.Answers held s (find m s))
    (hfind' : ∀ m slots held s, PipelineMemo.Holds m slots held → m.Answers held s (find' m s)) (h : w.Inv)
    (h' : w'.Inv) (huses : w.uses = w'.uses) (accesses : List MemoAccess) :
    (w.run find accesses).1 = (w'.run find' accesses).1 := by
  induction accesses generalizing w w' with
  | nil => rfl
  | cons a accesses ih =>
    obtain ⟨hanswer, hnext, hinv⟩ := h.access hfind a
    obtain ⟨hanswer', hnext', hinv'⟩ := h'.access hfind' a
    rw [huses] at hanswer hnext
    rw [run_cons, run_cons, hanswer, hanswer', ih hinv hinv' (hnext.trans hnext'.symm)]

theorem Inv.lookup (h : w.Inv) (s : PipelineSnapshot) : (w.memo.lookup s).1 = lruAnswer w.uses s := by
  obtain ⟨slots, hholds⟩ := h.holds
  obtain ⟨hhit, hmiss⟩ := hholds.answers s
  by_cases hs : s ∈ lru pipelineMemoEntries (keys w.uses)
  · obtain ⟨i, hsi, hanswer, -⟩ := hhit hs
    rw [hanswer, lruAnswer, if_pos hs, h.handles i s hsi]
  · rw [hmiss hs, lruAnswer, if_neg hs]

theorem Inv.isSome_lastRecorded (h : w.Inv) (hs : s ∈ lru pipelineMemoEntries (keys w.uses)) :
    ∃ handle, lastRecorded w.uses s = some handle := by
  obtain ⟨slots, hholds⟩ := h.holds
  obtain ⟨i, -, hsi⟩ := hholds.exists_slot hs
  exact ⟨_, h.handles i s hsi⟩

theorem Inv.front (h : w.Inv) {u : MemoUse} (huses : w.uses = u :: uses) :
    ∃ i < pipelineMemoEntries, w.memo.frontAt = i ∧ w.memo.entries i = some u.snapshot ∧
      w.memo.front = some (u.snapshot, w.memo.handles i) ∧ ∀ j ≠ i, w.memo.stamps j < w.memo.stamps i := by
  obtain ⟨slots, hholds⟩ := h.holds
  have hheld : lru pipelineMemoEntries (keys w.uses) =
      u.snapshot :: ((lru pipelineMemoEntries (keys uses)).erase u.snapshot).take (pipelineMemoEntries - 1) := by
    rw [huses]
    rfl
  rw [hheld] at hholds
  cases slots with
  | nil => cases hholds.entries
  | cons i rest =>
    obtain ⟨hi, -⟩ := List.cons.inj hholds.entries
    refine ⟨i, hholds.lt i mem_cons_self, hholds.frontAt i rfl, hi, ?_, fun j hj ↦ ?_⟩
    · rw [hholds.front, head?_cons, Option.bind_some, hi, Option.map_some]
    · by_cases hmem : j ∈ rest
      · exact (pairwise_cons.1 hholds.descending).1 j hmem
      · rw [(hholds.vacant j fun hin ↦ (mem_cons.1 hin).elim hj hmem).2]
        exact (hholds.stamped i mem_cons_self).1

def after (accesses : List MemoAccess) : MemoWorld := (new.run PipelineMemo.lookup accesses).2

def Recent (uses : List MemoUse) (s : PipelineSnapshot) : Prop :=
  s ∈ keys uses ∧ (usedSince (keys uses) s).card ≤ 23

theorem mem_lru_iff_recent : s ∈ lru pipelineMemoEntries (keys uses) ↔ Recent uses s :=
  mem_lru_iff.trans (and_congr_right fun _ ↦ Nat.lt_succ_iff)

/-- After any lookups and records the memo answers as a least-recently-used map of 24 entries, holds no snapshot
twice, keeps the entry used last in front, and answers as it would without the front. -/
theorem memo_is_exact_lru (accesses : List MemoAccess) :
    (∀ s, (Recent (after accesses).uses s → ∃ handle, lastRecorded (after accesses).uses s = some handle ∧
        ((after accesses).memo.lookup s).1 = some handle) ∧
      (¬ Recent (after accesses).uses s → ((after accesses).memo.lookup s).1 = none)) ∧
    (∀ i j s, (after accesses).memo.entries i = some s → (after accesses).memo.entries j = some s → i = j) ∧
    ((after accesses).uses = [] → (after accesses).memo.front = none) ∧
    (∀ u uses, (after accesses).uses = u :: uses →
      ∃ i < pipelineMemoEntries, (after accesses).memo.frontAt = i ∧
        (after accesses).memo.entries i = some u.snapshot ∧
        (after accesses).memo.front = some (u.snapshot, (after accesses).memo.handles i) ∧
        ∀ j ≠ i, (after accesses).memo.stamps j < (after accesses).memo.stamps i) ∧
    (new.run PipelineMemo.lookup accesses).1 = (new.run PipelineMemo.lookupPlain accesses).1 := by
  have h : (after accesses).Inv := inv_new.run (fun m slots held s hm ↦ hm.answers s) accesses
  have hplain := inv_new.run_eq (fun m slots held s hm ↦ hm.answers s)
    (fun m slots held s hm ↦ hm.answers_plain s) inv_new rfl accesses
  refine ⟨fun s ↦ ?_, ?_, fun hnone ↦ ?_, fun u uses huses ↦ h.front huses, hplain⟩
  · rw [← mem_lru_iff_recent, h.lookup]
    constructor
    · intro hs
      obtain ⟨handle, hhandle⟩ := h.isSome_lastRecorded hs
      exact ⟨handle, hhandle, by rw [lruAnswer, if_pos hs, hhandle]⟩
    · intro hs
      exact if_neg hs
  · obtain ⟨slots, hholds⟩ := h.holds
    exact fun i j s hi hj ↦ hholds.slot_unique hi hj
  · obtain ⟨slots, hholds⟩ := h.holds
    rw [hnone] at hholds
    have hslots : slots = [] := map_eq_nil_iff.1 hholds.entries
    rw [hholds.front, hslots]
    rfl

end MemoWorld

end Mtld3d
