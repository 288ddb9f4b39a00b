import Mathlib.Algebra.Order.Group.Multiset
import Mathlib.Tactic.Abel
import Mtld3d.Lib.Lru
import Mtld3d.Lib.Slots

namespace Mtld3d

open List Lib

variable {K V : Type}

structure BoundedCache.Entry (K V : Type) where
  key : K
  used : ℕ
  value : V

/-- The entry with the smallest stamp goes first; `tick` advances on every insert and look-up. -/
structure BoundedCache (K V : Type) where
  capacity : ℕ
  tick : ℕ
  entries : List (BoundedCache.Entry K V)

namespace BoundedCache

def Entry.pair (e : Entry K V) : K × V := (e.key, e.value)

def new (capacity : ℕ) : BoundedCache K V := ⟨if capacity = 0 then 1 else capacity, 0, []⟩

def nextTick (c : BoundedCache K V) : ℕ := (c.tick + 1) % 18446744073709551616

/-- `min_by_key` over the stamps: of several least ones the first. -/
def oldestIndex (c : BoundedCache K V) : Option ℕ :=
  c.entries.findIdx? fun e ↦ c.entries.all fun other ↦ e.used ≤ other.used

variable [DecidableEq K]

/-- `iter_mut().find`: the first entry of the key as it was, and the entries with it changed in place. -/
def findMut (key : K) (change : Entry K V → Entry K V) : List (Entry K V) → Option (Entry K V × List (Entry K V))
  | [] => none
  | e :: es =>
    if e.key = key then some (e, change e :: es)
    else (findMut key change es).map fun found ↦ (found.1, e :: found.2)

def contains (c : BoundedCache K V) (key : K) : Bool := c.entries.any fun e ↦ e.key = key

def get (c : BoundedCache K V) (key : K) : BoundedCache K V × Option V :=
  let tick := c.nextTick
  match findMut key (fun e ↦ { e with used := tick }) c.entries with
  | none => ({ c with tick }, none)
  | some (e, entries) => ({ c with tick, entries }, some e.value)

def insert (c : BoundedCache K V) (key : K) (value : V) : BoundedCache K V × Option (K × V) :=
  let tick := c.nextTick
  match findMut key (fun e ↦ { e with used := tick, value }) c.entries with
  | some (_, entries) => ({ c with tick, entries }, none)
  | none =>
    let oldest := if c.entries.length ≥ c.capacity then c.oldestIndex else none
    let evicted := oldest.bind fun index ↦ c.entries[index]?.map Entry.pair
    let left := oldest.elim c.entries (swapRemove c.entries)
    ({ c with tick, entries := left ++ [⟨key, tick, value⟩] }, evicted)

def remove (c : BoundedCache K V) (key : K) : BoundedCache K V × Option V :=
  match c.entries.findIdx? fun e ↦ e.key = key with
  | none => (c, none)
  | some index => ({ c with entries := swapRemove c.entries index }, c.entries[index]?.map Entry.value)

def clear (c : BoundedCache K V) : BoundedCache K V := { c with entries := [] }

def drain (c : BoundedCache K V) : BoundedCache K V × List (K × V) :=
  ({ c with entries := [] }, c.entries.map Entry.pair)

inductive Call (K V : Type)
  | get (key : K)
  | contains (key : K)
  | insert (key : K) (value : V)
  | remove (key : K)
  | clear
  | drain

inductive Answer (K V : Type)
  | borrowed (value : Option V)
  | found (held : Bool)
  | evicted (entry : Option (K × V))
  | removed (value : Option V)
  | cleared
  | drained (entries : List (K × V))

def call (c : BoundedCache K V) : Call K V → BoundedCache K V × Answer K V
  | .get key => ((c.get key).1, .borrowed (c.get key).2)
  | .contains key => (c, .found (c.contains key))
  | .insert key value => ((c.insert key value).1, .evicted (c.insert key value).2)
  | .remove key => ((c.remove key).1, .removed (c.remove key).2)
  | .clear => (c.clear, .cleared)
  | .drain => (c.drain.1, .drained c.drain.2)

/-- The cache with what went into it and where that went; `uses` has the latest use first. -/
structure Ledger (K V : Type) where
  cache : BoundedCache K V
  answers : List (Answer K V)
  uses : List K
  inserted : List V
  replaced : List V
  dropped : List V
  handedBack : List V

@[simp] def Answer.uses : Call K V → Answer K V → List K
  | .get key, .borrowed (some _) => [key]
  | .insert key _, _ => [key]
  | _, _ => []

@[simp] def Answer.handedBack : Answer K V → List V
  | .evicted entry => entry.toList.map Prod.snd
  | .removed value => value.toList
  | .drained entries => entries.map Prod.snd
  | _ => []

@[simp] def Call.inserted : Call K V → List V
  | .insert _ value => [value]
  | _ => []

@[simp] def replaced (c : BoundedCache K V) : Call K V → List V
  | .insert key _ => (c.entries.find? fun e ↦ e.key = key).toList.map Entry.value
  | _ => []

@[simp] def dropped (c : BoundedCache K V) : Call K V → List V
  | .clear => c.entries.map Entry.value
  | _ => []

namespace Ledger

def step (l : Ledger K V) (call : Call K V) : Ledger K V where
  cache := (l.cache.call call).1
  answers := l.answers ++ [(l.cache.call call).2]
  uses := (l.cache.call call).2.uses call ++ l.uses
  inserted := l.inserted ++ call.inserted
  replaced := l.replaced ++ l.cache.replaced call
  dropped := l.dropped ++ l.cache.dropped call
  handedBack := l.handedBack ++ (l.cache.call call).2.handedBack

def run (capacity : ℕ) (calls : List (Call K V)) : Ledger K V :=
  calls.foldl step ⟨.new capacity, [], [], [], [], [], []⟩

end Ledger

def reference (capacity : ℕ) (held : List (K × V)) : Call K V → List (K × V) × Answer K V
  | .get key =>
    match held.find? fun p ↦ p.1 = key with
    | none => (held, .borrowed none)
    | some p => (p :: held.eraseP fun p ↦ p.1 = key, .borrowed (some p.2))
  | .contains key => (held, .found (held.any fun p ↦ p.1 = key))
  | .insert key value =>
    if held.any fun p ↦ p.1 = key then ((key, value) :: held.eraseP fun p ↦ p.1 = key, .evicted none)
    else if capacity ≤ held.length then ((key, value) :: held.dropLast, .evicted held.getLast?)
    else ((key, value) :: held, .evicted none)
  | .remove key => (held.eraseP fun p ↦ p.1 = key, .removed ((held.find? fun p ↦ p.1 = key).map Prod.snd))
  | .clear => ([], .cleared)
  | .drain => ([], .drained held)

def referenceRun (capacity : ℕ) (calls : List (Call K V)) : List (K × V) × List (Answer K V) :=
  calls.foldl (fun r call ↦ ((reference capacity r.1 call).1, r.2 ++ [(reference capacity r.1 call).2])) ([], [])

/-- Equal answers, but for the order a drain hands its entries out in. -/
inductive Agrees : Answer K V → Answer K V → Prop
  | same (answer : Answer K V) : Agrees answer answer
  | drained {entries held : List (K × V)} (h : entries.Perm held) : Agrees (.drained entries) (.drained held)

variable {key : K} {change : Entry K V → Entry K V} {c c' : BoundedCache K V} {es rest : List (Entry K V)}
  {e : Entry K V}

theorem findMut_none (h : findMut key change es = none) : ∀ e ∈ es, e.key ≠ key := by
  induction es with
  | nil => exact fun e he ↦ absurd he not_mem_nil
  | cons first es ih =>
    rw [findMut] at h
    split_ifs at h with hfirst
    exact forall_mem_cons.mpr ⟨hfirst, ih (Option.map_eq_none_iff.mp h)⟩

theorem findMut_some {es' : List (Entry K V)} (h : findMut key change es = some (e, es')) : e.key = key ∧
    es.find? (fun e ↦ e.key = key) = some e ∧ ∃ rest, es.Perm (e :: rest) ∧ es'.Perm (change e :: rest) := by
  induction es generalizing es' with
  | nil => cases h
  | cons first es ih =>
    rw [findMut] at h
    split_ifs at h with hfirst
    · obtain ⟨rfl, rfl⟩ := Prod.mk.inj (Option.some.inj h)
      exact ⟨hfirst, find?_cons_of_pos (decide_eq_true hfirst), es, .refl _, .refl _⟩
    · obtain ⟨⟨found, left⟩, hfound, heq⟩ := Option.map_eq_some_iff.mp h
      obtain ⟨rfl, rfl⟩ := Prod.mk.inj heq
      obtain ⟨hkey, hfind, rest, hperm, hperm'⟩ := ih hfound
      refine ⟨hkey, ?_, first :: rest, ?_, ?_⟩
      · rw [find?_cons_of_neg (by simpa using hfirst)]
        exact hfind
      · exact (hperm.cons first).trans (.swap _ _ _)
      · exact (hperm'.cons first).trans (.swap _ _ _)

/-- The entries as their stamps order them, the last used first. -/
structure Ordered (c : BoundedCache K V) (es : List (Entry K V)) : Prop where
  perm : es.Perm c.entries
  newest : es.Pairwise fun a b ↦ b.used < a.used
  stamped : ∀ e ∈ es, e.used ≤ c.tick
  nodup : (es.map Entry.key).Nodup
  fits : es.length ≤ c.capacity
  pos : 0 < c.capacity

omit [DecidableEq K] in
theorem Ordered.sublist (h : c.Ordered es) (hsub : rest.Sublist es) (hperm : rest.Perm c'.entries)
    (htick : c.tick ≤ c'.tick) (hcapacity : c'.capacity = c.capacity) : c'.Ordered rest where
  perm := hperm
  newest := h.newest.sublist hsub
  stamped e he := (h.stamped e (hsub.subset he)).trans htick
  nodup := h.nodup.sublist (hsub.map _)
  fits := hcapacity ▸ hsub.length_le.trans h.fits
  pos := hcapacity ▸ h.pos

omit [DecidableEq K] in
theorem Ordered.push (h : c.Ordered es) (hsub : rest.Sublist es) (hkey : e.key ∉ rest.map Entry.key)
    (hperm : (e :: rest).Perm c'.entries) (hused : e.used = c'.tick) (htick : c.tick < c'.tick)
    (hcapacity : c'.capacity = c.capacity) (hlength : rest.length < c.capacity) : c'.Ordered (e :: rest) where
  perm := hperm
  newest := by
    refine pairwise_cons.mpr ⟨fun other hother ↦ ?_, h.newest.sublist hsub⟩
    have hle := h.stamped other (hsub.subset hother)
    omega
  stamped := by
    refine forall_mem_cons.mpr ⟨hused.le, fun other hother ↦ ?_⟩
    exact (h.stamped other (hsub.subset hother)).trans htick.le
  nodup := nodup_cons.mpr ⟨hkey, h.nodup.sublist (hsub.map _)⟩
  fits := hcapacity ▸ hlength
  pos := hcapacity ▸ h.pos

/-- What is left of the order without the entry of a key, and what the reference finds and leaves there. -/
structure Hit (c : BoundedCache K V) (es : List (Entry K V)) (e : Entry K V) (left : List (Entry K V)) : Prop where
  sublist : left.Sublist es
  perm : es.Perm (e :: left)
  key : e.key ∉ left.map Entry.key
  length : left.length < c.capacity
  found : (es.map Entry.pair).find? (fun p ↦ p.1 = e.key) = some e.pair
  erased : ((es.map Entry.pair).eraseP fun p ↦ p.1 = e.key) = left.map Entry.pair

theorem Ordered.hit (h : c.Ordered es) (hperm : c.entries.Perm (e :: rest)) :
    ∃ left, Hit c es e left ∧ left.Perm rest := by
  obtain ⟨before, after, rfl⟩ := append_of_mem (h.perm.mem_iff.mpr (hperm.mem_iff.mpr mem_cons_self))
  have hnodup := h.nodup
  rw [map_append, map_cons, nodup_middle, nodup_cons, ← map_append] at hnodup
  have hbefore : ∀ p ∈ before.map Entry.pair, ¬decide (p.1 = e.key) := by
    intro p hp heq
    obtain ⟨other, hother, rfl⟩ := mem_map.mp hp
    refine hnodup.1 (mem_map.mpr ⟨other, mem_append_left _ hother, ?_⟩)
    exact of_decide_eq_true heq
  have hfits := h.fits
  rw [length_append, length_cons] at hfits
  refine ⟨before ++ after, ⟨(sublist_cons_self e after).append_left before, perm_middle, hnodup.1, ?_, ?_, ?_⟩, ?_⟩
  · rw [length_append]
    omega
  · rw [map_append, find?_append, find?_eq_none.mpr hbefore, map_cons, find?_cons_of_pos (by simp [Entry.pair])]
    rfl
  · rw [map_append, eraseP_append_right _ hbefore, map_cons, eraseP_cons_of_pos (by simp [Entry.pair]), map_append]
  · exact (perm_middle.symm.trans (h.perm.trans hperm)).cons_inv

theorem Ordered.absent (h : c.Ordered es) (hkey : ∀ e ∈ c.entries, e.key ≠ key) :
    (∀ p ∈ es.map Entry.pair, ¬decide (p.1 = key)) ∧ key ∉ es.map Entry.key := by
  have hes : ∀ e ∈ es, e.key ≠ key := fun e he ↦ hkey e (h.perm.mem_iff.mp he)
  constructor
  · intro p hp heq
    obtain ⟨e, he, rfl⟩ := mem_map.mp hp
    exact hes e he (of_decide_eq_true heq)
  · intro hmem
    obtain ⟨e, he, heq⟩ := mem_map.mp hmem
    exact hes e he heq

omit [DecidableEq K] in
theorem Ordered.oldest (h : c.Ordered es) (hfull : c.capacity ≤ es.length) : ∃ index e, c.oldestIndex = some index ∧
    c.entries[index]? = some e ∧ es = es.dropLast ++ [e] := by
  have hne : es ≠ [] := ne_nil_of_length_pos (h.pos.trans_le hfull)
  have hsplit := dropLast_append_getLast hne
  set last := es.getLast hne with hlast
  have hleast : ∀ e ∈ es, e.used ≤ last.used → e = last := by
    intro e he hle
    rw [← hsplit] at he
    obtain he | he := mem_append.mp he
    · have hnewest := h.newest
      rw [← hsplit, pairwise_append] at hnewest
      have hlt := hnewest.2.2 e he last mem_cons_self
      omega
    · exact mem_singleton.mp he
  have hmin : ∀ e ∈ es, last.used ≤ e.used := by
    intro e he
    by_contra hlt
    exact absurd (hleast e he (by omega)) fun heq ↦ hlt (heq ▸ le_rfl)
  have hmem : last ∈ es := getLast_mem hne
  cases hindex : c.oldestIndex with
  | none =>
    have hnone := findIdx?_eq_none_iff.mp hindex last (h.perm.mem_iff.mp hmem)
    refine absurd (all_eq_true.mpr fun e he ↦ ?_) (Bool.eq_false_iff.mp hnone)
    exact decide_eq_true (hmin e (h.perm.mem_iff.mpr he))
  | some index =>
    obtain ⟨hlt, hall, -⟩ := findIdx?_eq_some_iff_getElem.mp hindex
    refine ⟨index, _, rfl, getElem?_eq_getElem hlt, ?_⟩
    have hle := all_eq_true.mp hall last (h.perm.mem_iff.mp hmem)
    rw [hleast _ (h.perm.mem_iff.mpr (getElem_mem hlt)) (of_decide_eq_true hle)]
    exact hsplit.symm

structure Refines (c : BoundedCache K V) (es : List (Entry K V)) (call : Call K V) (es' : List (Entry K V)) :
    Prop where
  ordered : (c.call call).1.Ordered es'
  held : (reference c.capacity (es.map Entry.pair) call).1 = es'.map Entry.pair
  agrees : Agrees (c.call call).2 (reference c.capacity (es.map Entry.pair) call).2
  capacity : (c.call call).1.capacity = c.capacity
  tick : (c.call call).1.tick ≤ c.tick + 1
  values : (es.map Entry.value ++ call.inserted).Perm
    (es'.map Entry.value ++ c.replaced call ++ c.dropped call ++ (c.call call).2.handedBack)
  uses : ∀ uses, (es.map Entry.key).Sublist (recency uses) →
    (es'.map Entry.key).Sublist (recency ((c.call call).2.uses call ++ uses))

omit [DecidableEq K] in
theorem nextTick_eq (htick : c.tick + 1 < 18446744073709551616) : c.nextTick = c.tick + 1 := Nat.mod_eq_of_lt htick

theorem sublist_recency_cons {uses : List K} (hsub : rest.Sublist es) (hkey : key ∉ rest.map Entry.key)
    (huses : (es.map Entry.key).Sublist (recency uses)) :
    (key :: rest.map Entry.key).Sublist (recency (key :: uses)) := by
  have herase := ((hsub.map Entry.key).trans huses).erase key
  rw [erase_of_not_mem hkey] at herase
  exact herase.cons_cons key

theorem Refines.of_eq {call : Call K V} {es' : List (Entry K V)} {answer answer' : Answer K V}
    (hcall : c.call call = (c', answer))
    (href : reference c.capacity (es.map Entry.pair) call = (es'.map Entry.pair, answer'))
    (ordered : c'.Ordered es') (agrees : Agrees answer answer') (capacity : c'.capacity = c.capacity)
    (tick : c'.tick ≤ c.tick + 1) (values : (es.map Entry.value ++ call.inserted).Perm
      (es'.map Entry.value ++ c.replaced call ++ c.dropped call ++ answer.handedBack))
    (uses : ∀ uses, (es.map Entry.key).Sublist (recency uses) →
      (es'.map Entry.key).Sublist (recency (answer.uses call ++ uses))) : Refines c es call es' := by
  constructor
  all_goals first | rw [hcall] | skip
  all_goals first | rw [href] | skip
  all_goals assumption

theorem Ordered.get (h : c.Ordered es) (htick : c.tick + 1 < 18446744073709551616) (key : K) :
    ∃ es', Refines c es (.get key) es' := by
  have hnext := nextTick_eq htick
  cases hfind : findMut key (fun e ↦ { e with used := c.nextTick }) c.entries with
  | none =>
    obtain ⟨habsent, -⟩ := h.absent (findMut_none hfind)
    have hcall : c.call (.get key) = ({ c with tick := c.nextTick }, .borrowed none) := by
      simp [BoundedCache.call, BoundedCache.get, hfind]
    have href : reference c.capacity (es.map Entry.pair) (.get key) = (es.map Entry.pair, .borrowed none) := by
      simp [reference, find?_eq_none.mpr habsent]
    refine ⟨es, .of_eq hcall href ?_ (.same _) rfl hnext.le (by simp) fun _ huses ↦ huses⟩
    exact h.sublist (.refl _) h.perm (by dsimp only; omega) rfl
  | some found =>
    obtain ⟨e, entries⟩ := found
    obtain ⟨rfl, -, rest, hperm, hperm'⟩ := findMut_some hfind
    obtain ⟨left, hit, hleft⟩ := h.hit hperm
    have hcall : c.call (.get e.key) = ({ c with tick := c.nextTick, entries }, .borrowed (some e.value)) := by
      simp [BoundedCache.call, BoundedCache.get, hfind]
    have href : reference c.capacity (es.map Entry.pair) (.get e.key) =
        (({ e with used := c.nextTick } :: left).map Entry.pair, .borrowed (some e.value)) := by
      simp only [reference, hit.found, hit.erased]
      rfl
    refine ⟨_, .of_eq hcall href ?_ (.same _) rfl hnext.le ?_ fun _ ↦ sublist_recency_cons hit.sublist hit.key⟩
    · refine h.push hit.sublist hit.key ?_ rfl (by dsimp only; omega) rfl hit.length
      exact (hleft.cons _).trans hperm'.symm
    · simpa using hit.perm.map Entry.value

theorem Ordered.insert (h : c.Ordered es) (htick : c.tick + 1 < 18446744073709551616) (key : K) (value : V) :
    ∃ es', Refines c es (.insert key value) es' := by
  have hnext := nextTick_eq htick
  have hlt : c.tick < c.nextTick := by omega
  cases hfind : findMut key (fun e ↦ { e with used := c.nextTick, value }) c.entries with
  | none =>
    have hentries := findMut_none hfind
    obtain ⟨habsent, hkey⟩ := h.absent hentries
    have hany : (es.map Entry.pair).any (fun p ↦ p.1 = key) = false := any_eq_false.mpr habsent
    have hreplaced : c.replaced (.insert key value) = [] := by
      rw [replaced, find?_eq_none.mpr fun e he ↦ by simpa using hentries e he]
      rfl
    by_cases hfull : c.capacity ≤ es.length
    · obtain ⟨index, e, hindex, hentry, hsplit⟩ := h.oldest hfull
      have hsub : es.dropLast.Sublist es := dropLast_sublist es
      have hcall : c.call (.insert key value) = ({ c with
          tick := c.nextTick
          entries := swapRemove c.entries index ++ [⟨key, c.nextTick, value⟩] }, .evicted (some e.pair)) := by
        have hlength : c.entries.length ≥ c.capacity := h.perm.length_eq ▸ hfull
        simp only [BoundedCache.call, BoundedCache.insert, hfind, if_pos hlength, hindex, Option.bind_some, hentry]
        rfl
      have href : reference c.capacity (es.map Entry.pair) (.insert key value) =
          ((⟨key, c.nextTick, value⟩ :: es.dropLast).map Entry.pair, .evicted (some e.pair)) := by
        have hlast : (es.map Entry.pair).getLast? = some e.pair := by
          rw [hsplit, map_append, map_singleton, getLast?_concat]
        simp only [reference, hany, length_map, if_pos hfull, hlast, ← map_dropLast]
        rfl
      refine ⟨_, .of_eq hcall href ?_ (.same _) rfl hnext.le ?_ fun _ ↦ sublist_recency_cons hsub ?_⟩
      · refine h.push hsub (fun hmem ↦ hkey ((hsub.map _).subset hmem)) ?_ rfl hlt rfl ?_
        · have hperm := (h.perm.trans (swapRemove_perm hentry))
          rw [hsplit] at hperm
          have hleft := ((perm_append_singleton e _).symm.trans hperm).cons_inv
          exact (hleft.cons _).trans (perm_append_singleton _ _).symm
        · rw [length_dropLast]
          have hfits := h.fits
          have hpos := h.pos
          omega
      · rw [hreplaced]
        nth_rewrite 1 [hsplit]
        simpa [Entry.pair] using
          perm_append_singleton value ((es.map Entry.value).dropLast ++ [e.value])
      · exact fun hmem ↦ hkey ((hsub.map _).subset hmem)
    · have hcall : c.call (.insert key value) = ({ c with
          tick := c.nextTick
          entries := c.entries ++ [⟨key, c.nextTick, value⟩] }, .evicted none) := by
        have hlength : ¬c.entries.length ≥ c.capacity := h.perm.length_eq ▸ hfull
        simp only [BoundedCache.call, BoundedCache.insert, hfind, if_neg hlength]
        rfl
      have href : reference c.capacity (es.map Entry.pair) (.insert key value) =
          ((⟨key, c.nextTick, value⟩ :: es).map Entry.pair, .evicted none) := by
        simp only [reference, hany, length_map, if_neg hfull]
        rfl
      refine ⟨_, .of_eq hcall href ?_ (.same _) rfl hnext.le ?_ fun _ ↦ sublist_recency_cons (.refl es) hkey⟩
      · refine h.push (.refl es) hkey ?_ rfl hlt rfl (by omega)
        exact (h.perm.cons _).trans (perm_append_singleton _ _).symm
      · rw [hreplaced]
        simp
  | some found =>
    obtain ⟨e, entries⟩ := found
    obtain ⟨rfl, hold, rest, hperm, hperm'⟩ := findMut_some hfind
    obtain ⟨left, hit, hleft⟩ := h.hit hperm
    have hcall : c.call (.insert e.key value) = ({ c with tick := c.nextTick, entries }, .evicted none) := by
      simp [BoundedCache.call, BoundedCache.insert, hfind]
    have href : reference c.capacity (es.map Entry.pair) (.insert e.key value) =
        (({ e with used := c.nextTick, value } :: left).map Entry.pair, .evicted none) := by
      have hany : (es.map Entry.pair).any (fun p ↦ p.1 = e.key) = true :=
        any_eq_true.mpr ⟨e.pair, mem_of_find?_eq_some hit.found, by simp [Entry.pair]⟩
      simp only [reference, hany, hit.erased, if_true]
      rfl
    refine ⟨_, .of_eq hcall href ?_ (.same _) rfl hnext.le ?_ fun _ ↦ sublist_recency_cons hit.sublist hit.key⟩
    · refine h.push hit.sublist hit.key ?_ rfl hlt rfl hit.length
      exact (hleft.cons _).trans hperm'.symm
    · have hvalues := (hit.perm.map Entry.value).trans (perm_append_singleton e.value _).symm
      simpa [hold] using (hvalues.append_right [value]).trans (perm_append_singleton value _)

theorem Ordered.remove (h : c.Ordered es) (key : K) : ∃ es', Refines c es (.remove key) es' := by
  cases hfind : c.entries.findIdx? fun e ↦ e.key = key with
  | none =>
    have hentries : ∀ e ∈ c.entries, e.key ≠ key := fun e he ↦ by
      simpa using findIdx?_eq_none_iff.mp hfind e he
    obtain ⟨habsent, -⟩ := h.absent hentries
    have hcall : c.call (.remove key) = (c, .removed none) := by
      simp [BoundedCache.call, BoundedCache.remove, hfind]
    have href : reference c.capacity (es.map Entry.pair) (.remove key) = (es.map Entry.pair, .removed none) := by
      simp [reference, find?_eq_none.mpr habsent, eraseP_of_forall_not habsent]
    exact ⟨es, .of_eq hcall href h (.same _) rfl (Nat.le_succ _) (by simp) fun _ huses ↦ huses⟩
  | some index =>
    obtain ⟨hlt, hkey, -⟩ := findIdx?_eq_some_iff_getElem.mp hfind
    have hentry := getElem?_eq_getElem hlt
    generalize c.entries[index] = e at hkey hentry
    obtain rfl := of_decide_eq_true hkey
    obtain ⟨left, hit, hleft⟩ := h.hit (swapRemove_perm hentry)
    have hcall : c.call (.remove e.key) =
        ({ c with entries := swapRemove c.entries index }, .removed (some e.value)) := by
      simp [BoundedCache.call, BoundedCache.remove, hfind, hentry]
    have href : reference c.capacity (es.map Entry.pair) (.remove e.key) =
        (left.map Entry.pair, .removed (some e.value)) := by
      simp only [reference, hit.found, hit.erased, Option.map_some]
      rfl
    refine ⟨_, .of_eq hcall href ?_ (.same _) rfl (Nat.le_succ _) ?_ fun _ huses ↦ ?_⟩
    · exact h.sublist hit.sublist hleft le_rfl rfl
    · simpa using (hit.perm.map Entry.value).trans (perm_append_singleton e.value _).symm
    · exact (hit.sublist.map _).trans huses

omit [DecidableEq K] in
theorem Ordered.empty (h : c.Ordered es) : ({ c with entries := [] } : BoundedCache K V).Ordered [] :=
  h.sublist (nil_sublist es) (.refl _) le_rfl rfl

theorem Ordered.call (h : c.Ordered es) (htick : c.tick + 1 < 18446744073709551616) (call : Call K V) :
    ∃ es', Refines c es call es' := by
  cases call with
  | get key => exact h.get htick key
  | contains key =>
    have hfound : c.contains key = (es.map Entry.pair).any fun p ↦ p.1 = key := by
      rw [any_map, contains]
      exact h.perm.symm.any_eq
    refine ⟨es, .of_eq rfl rfl h ?_ rfl (Nat.le_succ _) (by simp) fun _ huses ↦ huses⟩
    rw [hfound]
    exact .same _
  | insert key value => exact h.insert htick key value
  | remove key => exact h.remove key
  | clear =>
    refine ⟨[], .of_eq rfl rfl h.empty (.same _) rfl (Nat.le_succ _) ?_ fun _ _ ↦ nil_sublist _⟩
    simpa using h.perm.map Entry.value
  | drain =>
    refine ⟨[], .of_eq rfl rfl h.empty (.drained (h.perm.symm.map _)) rfl (Nat.le_succ _) ?_ fun _ _ ↦
      nil_sublist _⟩
    simpa [BoundedCache.drain, Function.comp_def, Entry.pair] using h.perm.map Entry.value

namespace Ledger

/-- The cache beside the reference, and every value in one place. -/
structure Matches (l : Ledger K V) (held : List (K × V)) (answers : List (Answer K V)) : Prop where
  ordered : ∃ es, l.cache.Ordered es ∧ held = es.map Entry.pair ∧ (es.map Entry.key).Sublist (recency l.uses) ∧
    l.inserted.Perm (es.map Entry.value ++ l.replaced ++ l.dropped ++ l.handedBack)
  agrees : List.Forall₂ Agrees l.answers answers

theorem Matches.step {l : Ledger K V} {held : List (K × V)} {answers : List (Answer K V)}
    (h : l.Matches held answers) (htick : l.cache.tick + 1 < 18446744073709551616) (call : Call K V) :
    (l.step call).Matches (reference l.cache.capacity held call).1
      (answers ++ [(reference l.cache.capacity held call).2]) ∧
    (l.step call).cache.capacity = l.cache.capacity ∧ (l.step call).cache.tick ≤ l.cache.tick + 1 := by
  obtain ⟨es, hes, rfl, huses, hvalues⟩ := h.ordered
  obtain ⟨es', hrefines⟩ := hes.call htick call
  refine ⟨⟨⟨es', hrefines.ordered, hrefines.held, hrefines.uses _ huses, ?_⟩, ?_⟩, hrefines.capacity, hrefines.tick⟩
  · have hmoved := hrefines.values
    simp only [← Multiset.coe_eq_coe, ← Multiset.coe_add] at hvalues hmoved
    simp only [Ledger.step, ← Multiset.coe_eq_coe, ← Multiset.coe_add]
    calc _ = (es.map Entry.value : Multiset V) + (call.inserted : Multiset V) +
          (l.replaced + l.dropped + l.handedBack) := by rw [hvalues]; abel
      _ = _ := by rw [hmoved]; abel
  · exact rel_append h.agrees (.cons hrefines.agrees .nil)

theorem Matches.run {l : Ledger K V} {held : List (K × V)} {answers : List (Answer K V)} (calls : List (Call K V))
    (h : l.Matches held answers) (htick : l.cache.tick + calls.length < 18446744073709551616) :
    ∃ held' answers', calls.foldl (fun r call ↦ ((reference l.cache.capacity r.1 call).1,
        r.2 ++ [(reference l.cache.capacity r.1 call).2])) (held, answers) = (held', answers') ∧
      (calls.foldl Ledger.step l).Matches held' answers' ∧
      (calls.foldl Ledger.step l).cache.capacity = l.cache.capacity := by
  induction calls generalizing l held answers with
  | nil => exact ⟨held, answers, rfl, h, rfl⟩
  | cons call calls ih =>
    rw [length_cons] at htick
    obtain ⟨hstep, hcapacity, htick'⟩ := h.step (by omega) call
    obtain ⟨held', answers', hrun, hmatches, hcapacity'⟩ := ih hstep (by omega)
    rw [hcapacity] at hrun hcapacity'
    exact ⟨held', answers', hrun, hmatches, hcapacity'⟩

end Ledger

/-- The cache is a least-recently-used map: over any calls it holds and answers what the reference list does, that
list is in the order of the last uses, no key is held twice, the size stays within the capacity, and every value
put in is held, was replaced, was dropped by a clear or was handed back, exactly once. -/
theorem bounded_cache_is_lru (capacity : ℕ) (calls : List (Call K V))
    (hcalls : calls.length < 18446744073709551616) :
    let l := Ledger.run capacity calls
    let r := referenceRun (max 1 capacity) calls
    (l.cache.entries.map Entry.pair).Perm r.1 ∧ List.Forall₂ Agrees l.answers r.2 ∧
      (r.1.map Prod.fst).Sublist (recency l.uses) ∧ (l.cache.entries.map Entry.key).Nodup ∧
      l.cache.entries.length ≤ max 1 capacity ∧
      l.inserted.Perm (l.cache.entries.map Entry.value ++ l.replaced ++ l.dropped ++ l.handedBack) := by
  have hcapacity : (new capacity : BoundedCache K V).capacity = max 1 capacity := by
    rw [new]
    dsimp only
    split_ifs <;> omega
  have hnew : (⟨new capacity, [], [], [], [], [], []⟩ : Ledger K V).Matches [] [] := by
    refine ⟨⟨[], ⟨.refl _, .nil, fun _ he ↦ absurd he not_mem_nil, .nil, Nat.zero_le _, ?_⟩, rfl,
      nil_sublist _, .refl _⟩, .nil⟩
    rw [hcapacity]
    exact lt_of_lt_of_le one_pos (le_max_left _ _)
  obtain ⟨held, answers, hrun, ⟨⟨es, hes, rfl, huses, hvalues⟩, hagrees⟩, hkept⟩ := hnew.run calls (by
    dsimp only [new]
    omega)
  rw [hcapacity] at hrun hkept
  rw [← referenceRun] at hrun
  rw [← Ledger.run] at hes huses hvalues hagrees hkept
  dsimp only
  rw [hrun]
  refine ⟨hes.perm.symm.map _, hagrees, ?_, (hes.perm.map _).nodup hes.nodup, ?_, ?_⟩
  · rw [map_map]
    exact huses
  · exact hkept ▸ hes.perm.length_eq ▸ hes.fits
  · refine hvalues.trans ?_
    exact (((hes.perm.map _).append_right _).append_right _).append_right _

def clearedRun : Ledger ℕ ℕ := Ledger.run 1 [.insert 3 7, .clear]

theorem cleared_value_not_handed_back : ¬clearedRun.inserted.Perm
    (clearedRun.cache.entries.map Entry.value ++ clearedRun.replaced ++ clearedRun.handedBack) := by
  decide

theorem bounded_cache_is_lru_evicts :
    let calls : List (Call ℕ ℕ) := [.insert 1 10, .insert 2 20, .get 1, .insert 3 30]
    calls.length < 18446744073709551616 ∧
      ((Ledger.run 2 calls).cache.entries.map Entry.pair).Perm (referenceRun 2 calls).1 :=
  ⟨by decide, (bounded_cache_is_lru 2 _ (by decide)).1⟩

end BoundedCache

end Mtld3d
