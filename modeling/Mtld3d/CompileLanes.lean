import Mathlib.Data.List.Induction
import Mathlib.Data.List.Nodup
import Mathlib.Data.List.Perm.Basic

namespace Mtld3d

open Function List Option

variable {τ κ : Type} [DecidableEq τ]

structure CompileLanes (τ κ : Type) where
  urgent : List (τ × κ)
  pipelines : List (τ × κ)
  normal : List (τ × κ)
  deriving DecidableEq, Repr

inductive CompileLane
  | urgent | pipelines | normal
  deriving DecidableEq, Repr

namespace CompileLanes

def new : CompileLanes τ κ := ⟨[], [], []⟩

def pushNormal (l : CompileLanes τ κ) (ticket : τ) (job : κ) : CompileLanes τ κ :=
  { l with normal := l.normal ++ [(ticket, job)] }

def pushPipeline (l : CompileLanes τ κ) (ticket : τ) (job : κ) : CompileLanes τ κ :=
  { l with pipelines := l.pipelines ++ [(ticket, job)] }

def pop (l : CompileLanes τ κ) : Option (τ × κ) × CompileLanes τ κ :=
  match l.urgent with
  | entry :: rest => (some entry, { l with urgent := rest })
  | [] =>
    match l.pipelines with
    | entry :: rest => (some entry, { l with pipelines := rest })
    | [] =>
      match l.normal with
      | entry :: rest => (some entry, { l with normal := rest })
      | [] => (none, l)

def position (queue : List (τ × κ)) (ticket : τ) : Option ℕ := queue.findIdx? fun entry ↦ entry.1 = ticket

def promote (l : CompileLanes τ κ) (ticket : τ) : Bool × CompileLanes τ κ :=
  if l.urgent.any fun entry ↦ entry.1 = ticket then (true, l)
  else
    match position l.pipelines ticket with
    | some i => (true, { l with urgent := l.urgent ++ l.pipelines[i]?.toList, pipelines := l.pipelines.eraseIdx i })
    | none =>
      match position l.normal ticket with
      | some i => (true, { l with urgent := l.urgent ++ l.normal[i]?.toList, normal := l.normal.eraseIdx i })
      | none => (false, l)

def steal (l : CompileLanes τ κ) (ticket : τ) (idle : ℕ) : Option κ × CompileLanes τ κ :=
  match position l.urgent ticket with
  | none => (none, l)
  | some i =>
    if i < idle then (none, l)
    else (l.urgent[i]?.map Prod.snd, { l with urgent := l.urgent.eraseIdx i })

def stealUrgent (l : CompileLanes τ κ) (idle : ℕ) : Option (τ × κ) × CompileLanes τ κ :=
  (l.urgent[idle]?, { l with urgent := l.urgent.eraseIdx idle })

def queue (l : CompileLanes τ κ) : CompileLane → List (τ × κ)
  | .urgent => l.urgent
  | .pipelines => l.pipelines
  | .normal => l.normal

def waiting (l : CompileLanes τ κ) : List (τ × κ) := l.urgent ++ l.pipelines ++ l.normal

end CompileLanes

open CompileLanes

inductive LaneOp (τ κ : Type)
  | pushNormal (ticket : τ) (job : κ)
  | pushPipeline (ticket : τ) (job : κ)
  | pop
  | promote (ticket : τ)
  | steal (ticket : τ) (idle : ℕ)
  | stealUrgent (idle : ℕ)

/-- The lanes with what was pushed, what entered each lane, and what left by a pop of each lane or a steal. -/
structure LaneWorld (τ κ : Type) where
  lanes : CompileLanes τ κ
  pushed : List (τ × κ)
  entered : CompileLane → List (τ × κ)
  popped : CompileLane → List (τ × κ)
  stolen : List (τ × κ)

namespace LaneWorld

def new : LaneWorld τ κ := ⟨.new, [], fun _ ↦ [], fun _ ↦ [], []⟩

def push (w : LaneWorld τ κ) (lanes : CompileLanes τ κ) (lane : CompileLane) (entry : τ × κ) : LaneWorld τ κ :=
  { w with
    lanes := lanes
    pushed := w.pushed ++ [entry]
    entered := update w.entered lane (w.entered lane ++ [entry]) }

def popLane (l : CompileLanes τ κ) : CompileLane :=
  match l.urgent, l.pipelines with
  | _ :: _, _ => .urgent
  | [], _ :: _ => .pipelines
  | [], [] => .normal

def step (w : LaneWorld τ κ) : LaneOp τ κ → LaneWorld τ κ
  | .pushNormal ticket job => w.push (w.lanes.pushNormal ticket job) .normal (ticket, job)
  | .pushPipeline ticket job => w.push (w.lanes.pushPipeline ticket job) .pipelines (ticket, job)
  | .pop =>
    let lane := popLane w.lanes
    { w with
      lanes := w.lanes.pop.2
      popped := update w.popped lane (w.popped lane ++ w.lanes.pop.1.toList) }
  | .promote ticket =>
    let lanes := (w.lanes.promote ticket).2
    { w with
      lanes := lanes
      entered := update w.entered .urgent
        (w.entered .urgent ++ lanes.urgent.drop w.lanes.urgent.length) }
  | .steal ticket idle =>
    { w with
      lanes := (w.lanes.steal ticket idle).2
      stolen := w.stolen ++ ((w.lanes.steal ticket idle).1.map fun job ↦ (ticket, job)).toList }
  | .stealUrgent idle =>
    { w with
      lanes := (w.lanes.stealUrgent idle).2
      stolen := w.stolen ++ (w.lanes.stealUrgent idle).1.toList }

def run (ops : List (LaneOp τ κ)) : LaneWorld τ κ := ops.foldl step new

def left (w : LaneWorld τ κ) : List (τ × κ) :=
  w.popped .urgent ++ w.popped .pipelines ++ w.popped .normal ++ w.stolen

end LaneWorld

namespace CompileLanes

variable {l l' : CompileLanes τ κ} {q : List (τ × κ)} {ticket : τ} {idle i : ℕ}

theorem position_eq_none : position q ticket = none ↔ ∀ entry ∈ q, entry.1 ≠ ticket := by
  rw [position, findIdx?_eq_none_iff]
  simp

variable {entry : τ × κ}

omit [DecidableEq τ] in
theorem split_at (h : q[i]? = some entry) :
    ∃ before after, q = before ++ entry :: after ∧ before.length = i ∧ q.eraseIdx i = before ++ after := by
  obtain ⟨hi, rfl⟩ := List.getElem?_eq_some_iff.1 h
  refine ⟨q.take i, q.drop (i + 1), ?_, length_take_of_le (Nat.le_of_lt hi), eraseIdx_eq_take_drop_succ q i⟩
  rw [getElem_cons_drop, take_append_drop]

theorem position_split (h : position q ticket = some i) :
    ∃ before entry after, q = before ++ entry :: after ∧ before.length = i ∧ entry.1 = ticket ∧
      q[i]? = some entry ∧ q.eraseIdx i = before ++ after ∧ ∀ e ∈ before, e.1 ≠ ticket := by
  rw [position, findIdx?_eq_some_iff_getElem] at h
  obtain ⟨hi, hentry, hfirst⟩ := h
  have hat : q[i]? = some q[i] := getElem?_eq_getElem hi
  obtain ⟨before, after, hq, hlen, herase⟩ := split_at hat
  refine ⟨before, q[i], after, hq, hlen, by simpa using hentry, hat, herase, ?_⟩
  intro e he hticket
  obtain ⟨k, hk, rfl⟩ := getElem_of_mem he
  have hlt : k < q.length := by omega
  have hbefore := hfirst k (by omega)
  have hget : q[k]? = before[k]? := by
    rw [hq, getElem?_append_left hk]
  rw [getElem?_eq_getElem hk, getElem?_eq_getElem hlt] at hget
  rw [Option.some.inj hget] at hbefore
  simp [hticket] at hbefore

/-- The entry of `ticket` left its lane for the end of the urgent one. -/
def Promotes (l : CompileLanes τ κ) (ticket : τ) (l' : CompileLanes τ κ) : Prop :=
  ∃ lane before entry after, lane ≠ .urgent ∧ entry.1 = ticket ∧ l.queue lane = before ++ entry :: after ∧
    l'.queue = update (update l.queue lane (before ++ after)) .urgent (l.urgent ++ [entry])

theorem promote_cases (l : CompileLanes τ κ) (ticket : τ) :
    ((l.promote ticket).1 = true ↔ ticket ∈ l.waiting.map Prod.fst) ∧
      ((l.promote ticket).2 = l ∨ l.Promotes ticket (l.promote ticket).2) := by
  by_cases hurgent : l.urgent.any fun entry ↦ entry.1 = ticket
  · obtain ⟨entry, hentry, rfl⟩ : ∃ entry ∈ l.urgent, entry.1 = ticket := by simpa using hurgent
    rw [promote, if_pos hurgent]
    exact ⟨iff_of_true rfl (mem_map_of_mem (by simp [waiting, hentry])), .inl rfl⟩
  rw [promote, if_neg hurgent]
  cases hpipe : position l.pipelines ticket with
  | some i =>
    obtain ⟨before, entry, after, hq, -, hticket, hat, herase, -⟩ := position_split hpipe
    refine ⟨iff_of_true rfl (by simp [waiting, hq, hticket]), .inr ⟨.pipelines, before, entry, after, ?_⟩⟩
    simp only [hat, herase, toList_some]
    exact ⟨by decide, hticket, hq, funext fun lane ↦ by cases lane <;> rfl⟩
  | none =>
    cases hnormal : position l.normal ticket with
    | some i =>
      obtain ⟨before, entry, after, hq, -, hticket, hat, herase, -⟩ := position_split hnormal
      refine ⟨iff_of_true rfl (by simp [waiting, hq, hticket]), .inr ⟨.normal, before, entry, after, ?_⟩⟩
      simp only [hat, herase, toList_some]
      exact ⟨by decide, hticket, hq, funext fun lane ↦ by cases lane <;> rfl⟩
    | none =>
      refine ⟨iff_of_false Bool.false_ne_true fun hmem ↦ ?_, .inl rfl⟩
      obtain ⟨entry, hentry, hticket⟩ := mem_map.1 hmem
      rw [waiting, mem_append, mem_append] at hentry
      obtain (hentry | hentry) | hentry := hentry
      · exact hurgent (any_eq_true.2 ⟨entry, hentry, by simpa using hticket⟩)
      · exact position_eq_none.1 hpipe entry hentry hticket
      · exact position_eq_none.1 hnormal entry hentry hticket

omit [DecidableEq τ] in
theorem Promotes.waiting_perm (h : l.Promotes ticket l') : l'.waiting.Perm l.waiting := by
  classical
  obtain ⟨lane, before, entry, after, hlane, -, hq, hqueue⟩ := h
  have hsplit : l'.waiting = l'.queue .urgent ++ l'.queue .pipelines ++ l'.queue .normal := rfl
  refine perm_iff_count.2 fun x ↦ ?_
  rw [hsplit, hqueue]
  cases lane with
  | urgent => exact absurd rfl hlane
  | pipelines | normal =>
    simp only [queue] at hq
    simp [waiting, hq, queue, count_cons]
    omega

omit [DecidableEq τ] in
theorem mem_waiting {lane : CompileLane} (h : entry ∈ l.queue lane) : entry ∈ l.waiting := by
  cases lane <;> simp_all [waiting, queue]

omit [DecidableEq τ] in
theorem notMem_queue {lane : CompileLane} (hd : l.waiting.Nodup) (hlane : lane ≠ .urgent)
    (h : entry ∈ l.urgent) : entry ∉ l.queue lane := by
  intro hmem
  rw [waiting, append_assoc, nodup_append] at hd
  refine hd.2.2 entry h entry ?_ rfl
  cases lane <;> simp_all [queue]

theorem steal_cases (l : CompileLanes τ κ) (ticket : τ) (idle : ℕ) : l.steal ticket idle = (none, l) ∨
    ∃ before entry after, l.urgent = before ++ entry :: after ∧ idle ≤ before.length ∧ entry.1 = ticket ∧
      (∀ e ∈ before, e.1 ≠ ticket) ∧
      l.steal ticket idle = (some entry.2, { l with urgent := before ++ after }) := by
  cases hpos : position l.urgent ticket with
  | none => exact .inl (by simp [steal, hpos])
  | some i =>
    by_cases hidle : i < idle
    · exact .inl (by simp [steal, hpos, if_pos hidle])
    · obtain ⟨before, entry, after, hq, hlen, hticket, hat, herase, hfirst⟩ := position_split hpos
      refine .inr ⟨before, entry, after, hq, by omega, hticket, hfirst, ?_⟩
      simp [steal, hpos, if_neg hidle, hat, herase]

omit [DecidableEq τ] in
theorem stealUrgent_cases (l : CompileLanes τ κ) (idle : ℕ) : l.stealUrgent idle = (none, l) ∨
    ∃ before entry after, l.urgent = before ++ entry :: after ∧ before.length = idle ∧
      l.stealUrgent idle = (some entry, { l with urgent := before ++ after }) := by
  cases hat : l.urgent[idle]? with
  | none =>
    have herase : l.urgent.eraseIdx idle = l.urgent := eraseIdx_of_length_le (getElem?_eq_none_iff.1 hat)
    exact .inl (by simp [stealUrgent, hat, herase])
  | some entry =>
    obtain ⟨before, after, hq, hlen, herase⟩ := split_at hat
    exact .inr ⟨before, entry, after, hq, hlen, by simp [stealUrgent, hat, herase]⟩

end CompileLanes

namespace LaneWorld

/-- Every pushed job waits or has left, and each lane is popped in the order it was entered. -/
structure Inv (w : LaneWorld τ κ) : Prop where
  conserved : (w.left ++ w.lanes.waiting).Perm w.pushed
  ordered : ∀ lane, (w.popped lane ++ w.lanes.queue lane).Sublist (w.entered lane)

variable {w : LaneWorld τ κ}

variable {lanes : CompileLanes τ κ} {lane : CompileLane}

omit [DecidableEq τ] in
theorem Inv.push (h : w.Inv) (hwait : lanes.waiting.Perm (w.lanes.waiting ++ [entry]))
    (hqueue : lanes.queue = update w.lanes.queue lane (w.lanes.queue lane ++ [entry])) :
    (w.push lanes lane entry).Inv where
  conserved := by
    have hleft : (w.push lanes lane entry).left = w.left := rfl
    rw [hleft]
    refine (hwait.append_left _).trans ?_
    rw [← append_assoc]
    exact h.conserved.append_right _
  ordered := by
    intro other
    change (w.popped other ++ lanes.queue other).Sublist (update w.entered lane _ other)
    rw [hqueue]
    obtain rfl | hne := eq_or_ne other lane
    · rw [update_self, update_self, ← append_assoc]
      exact (h.ordered other).append (Sublist.refl _)
    · rw [update_of_ne hne, update_of_ne hne]
      exact h.ordered other

omit [DecidableEq τ] in
theorem Inv.pop_lane (h : w.Inv) {rest : List (τ × κ)}
    (hwait : w.lanes.waiting = entry :: lanes.waiting) (hhead : w.lanes.queue lane = entry :: rest)
    (hqueue : lanes.queue = update w.lanes.queue lane rest) :
    ({ w with
      lanes := lanes
      popped := update w.popped lane (w.popped lane ++ [entry]) } : LaneWorld τ κ).Inv where
  conserved := by
    classical
    have hold := h.conserved
    rw [perm_iff_count] at hold ⊢
    intro x
    have hx := hold x
    rw [hwait] at hx
    cases lane <;> simp only [left, count_append, count_cons, count_nil, update_self, ne_eq,
      reduceCtorEq, not_false_eq_true, update_of_ne] at hx ⊢ <;> omega
  ordered := by
    intro other
    change (update w.popped lane _ other ++ lanes.queue other).Sublist (w.entered other)
    rw [hqueue]
    obtain rfl | hne := eq_or_ne other lane
    · rw [update_self, update_self, append_assoc]
      have hold := h.ordered other
      rw [hhead] at hold
      exact hold
    · rw [update_of_ne hne, update_of_ne hne]
      exact h.ordered other

omit [DecidableEq τ] in
theorem pop_cases (l : CompileLanes τ κ) :
    (∃ entry rest l', l.queue (popLane l) = entry :: rest ∧ l.waiting = entry :: l'.waiting ∧
      l'.queue = update l.queue (popLane l) rest ∧ l.pop = (some entry, l')) ∨
    l.waiting = [] ∧ l.pop = (none, l) := by
  obtain ⟨urgent, pipelines, normal⟩ := l
  cases urgent with
  | cons entry rest => exact .inl ⟨entry, rest, _, rfl, rfl, funext fun lane ↦ by cases lane <;> rfl, rfl⟩
  | nil =>
    cases pipelines with
    | cons entry rest => exact .inl ⟨entry, rest, _, rfl, rfl, funext fun lane ↦ by cases lane <;> rfl, rfl⟩
    | nil =>
      cases normal with
      | cons entry rest => exact .inl ⟨entry, rest, _, rfl, rfl, funext fun lane ↦ by cases lane <;> rfl, rfl⟩
      | nil => exact .inr ⟨rfl, rfl⟩

theorem Inv.pop (h : w.Inv) : (w.step .pop).Inv := by
  obtain ⟨entry, rest, lanes, hhead, hwait, hqueue, hpop⟩ | ⟨-, hpop⟩ := pop_cases w.lanes
  · simp only [step, hpop]
    exact h.pop_lane hwait hhead hqueue
  · simp only [step, hpop, toList_none, append_nil, update_eq_self]
    exact h

theorem Inv.promote (h : w.Inv) (ticket : τ) : (w.step (.promote ticket)).Inv := by
  obtain hsame | hmoved := (w.lanes.promote_cases ticket).2
  · simp only [step, hsame, drop_length, append_nil, update_eq_self]
    exact h
  refine ⟨(hmoved.waiting_perm.append_left _).trans h.conserved, fun other ↦ ?_⟩
  obtain ⟨lane, before, entry, after, -, -, hq, hqueue⟩ := hmoved
  have hurgent : (w.lanes.promote ticket).2.urgent = w.lanes.urgent ++ [entry] :=
    (congrFun hqueue .urgent).trans (update_self _ _ _)
  simp only [step, hurgent, drop_left, hqueue]
  obtain rfl | hother := eq_or_ne other .urgent
  · rw [update_self, update_self, ← append_assoc]
    exact (h.ordered .urgent).append (Sublist.refl _)
  rw [update_of_ne hother, update_of_ne hother]
  obtain rfl | hne := eq_or_ne other lane
  · have hold := h.ordered other
    rw [hq] at hold
    rw [update_self]
    exact ((Sublist.refl _).append ((Sublist.refl _).append (sublist_cons_self _ _))).trans hold
  · rw [update_of_ne hne]
    exact h.ordered other

omit [DecidableEq τ] in
theorem Inv.take (h : w.Inv) {before after : List (τ × κ)} (hq : w.lanes.urgent = before ++ entry :: after) :
    ({ w with
      lanes := { w.lanes with urgent := before ++ after }
      stolen := w.stolen ++ [entry] } : LaneWorld τ κ).Inv where
  conserved := by
    classical
    have hold := h.conserved
    rw [perm_iff_count] at hold ⊢
    intro x
    have hx := hold x
    simp only [left, waiting, hq, count_append, count_cons, count_nil] at hx ⊢
    omega
  ordered := by
    intro lane
    have hold := h.ordered lane
    cases lane with
    | urgent =>
      simp only [queue, hq] at hold ⊢
      exact ((Sublist.refl _).append ((Sublist.refl _).append (sublist_cons_self _ _))).trans hold
    | pipelines => exact hold
    | normal => exact hold

theorem Inv.step (h : w.Inv) (op : LaneOp τ κ) : (w.step op).Inv := by
  cases op with
  | pushNormal ticket job =>
    refine h.push ?_ (funext fun lane ↦ by cases lane <;> rfl)
    simp [waiting, pushNormal]
  | pushPipeline ticket job =>
    refine h.push ?_ (funext fun lane ↦ by cases lane <;> rfl)
    simp only [waiting, pushPipeline, append_assoc]
    exact (perm_append_comm.append_left _).append_left _
  | pop => exact h.pop
  | promote ticket => exact h.promote ticket
  | steal ticket idle =>
    obtain hres | ⟨before, entry, after, hq, -, rfl, -, hres⟩ := w.lanes.steal_cases ticket idle
    · simp only [LaneWorld.step, hres, map_none, toList_none, append_nil]
      exact h
    · simp only [LaneWorld.step, hres, map_some, toList_some]
      exact h.take hq
  | stealUrgent idle =>
    obtain hres | ⟨before, entry, after, hq, -, hres⟩ := w.lanes.stealUrgent_cases idle
    · simp only [LaneWorld.step, hres, toList_none, append_nil]
      exact h
    · simp only [LaneWorld.step, hres, toList_some]
      exact h.take hq

/-- A job enters a lane at most once: what has entered the urgent lane waits in no other. -/
structure Enters (w : LaneWorld τ κ) : Prop where
  once : ∀ lane, (w.entered lane).Nodup
  pushed : ∀ lane, ∀ entry ∈ w.entered lane, entry ∈ w.pushed
  urgent : ∀ entry ∈ w.entered .urgent, ∀ lane, lane ≠ .urgent → entry ∉ w.lanes.queue lane

omit [DecidableEq τ] in
theorem Inv.waiting_nodup (h : w.Inv) (hd : w.pushed.Nodup) : (w.left ++ w.lanes.waiting).Nodup :=
  h.conserved.nodup_iff.2 hd

omit [DecidableEq τ] in
theorem Enters.push (h : w.Enters) (hlane : lane ≠ .urgent) (hnew : entry ∉ w.pushed)
    (hqueue : lanes.queue = update w.lanes.queue lane (w.lanes.queue lane ++ [entry])) :
    (w.push lanes lane entry).Enters where
  once := by
    intro other
    change (update w.entered lane _ other).Nodup
    obtain rfl | hne := eq_or_ne other lane
    · rw [update_self]
      exact (h.once other).append (nodup_singleton _) (disjoint_singleton.2 fun he ↦ hnew (h.pushed other entry he))
    · rw [update_of_ne hne]
      exact h.once other
  pushed := by
    intro other e he
    change e ∈ w.pushed ++ [entry]
    change e ∈ update w.entered lane _ other at he
    rw [mem_append]
    obtain rfl | hne := eq_or_ne other lane
    · rw [update_self, mem_append] at he
      exact he.imp_left (h.pushed other e)
    · rw [update_of_ne hne] at he
      exact .inl (h.pushed other e he)
  urgent := by
    intro e he other hother hmem
    change e ∈ update w.entered lane _ .urgent at he
    change e ∈ lanes.queue other at hmem
    rw [update_of_ne hlane.symm] at he
    rw [hqueue] at hmem
    obtain rfl | hne := eq_or_ne other lane
    · rw [update_self, mem_append, mem_singleton] at hmem
      exact hmem.elim (h.urgent e he other hother) fun heq ↦ hnew (heq ▸ h.pushed .urgent e he)
    · rw [update_of_ne hne] at hmem
      exact h.urgent e he other hother hmem

omit [DecidableEq τ] in
theorem Enters.shrink (h : w.Enters) {v : LaneWorld τ κ} (hentered : v.entered = w.entered)
    (hpushed : v.pushed = w.pushed) (hqueue : ∀ lane, v.lanes.queue lane ⊆ w.lanes.queue lane) : v.Enters where
  once := by
    rw [hentered]
    exact h.once
  pushed := by
    rw [hentered, hpushed]
    exact h.pushed
  urgent := by
    rw [hentered]
    exact fun e he lane hlane hmem ↦ h.urgent e he lane hlane (hqueue lane hmem)

theorem Enters.promote (h : w.Enters) (hi : w.Inv) (hd : w.pushed.Nodup) (ticket : τ) :
    (w.step (.promote ticket)).Enters := by
  obtain hsame | hmoved := (w.lanes.promote_cases ticket).2
  · simp only [step, hsame, drop_length, append_nil, update_eq_self]
    exact h
  have hwait := hmoved.waiting_perm.nodup_iff.2 (nodup_append.1 (hi.waiting_nodup hd)).2.1
  obtain ⟨lane, before, entry, after, hlane, -, hq, hqueue⟩ := hmoved
  have hin : entry ∈ w.lanes.queue lane := by simp [hq]
  have hurgent : (w.lanes.promote ticket).2.urgent = w.lanes.urgent ++ [entry] :=
    (congrFun hqueue .urgent).trans (update_self _ _ _)
  have hentered : (w.step (.promote ticket)).entered = update w.entered .urgent (w.entered .urgent ++ [entry]) := by
    simp [step, hurgent]
  refine ⟨fun other ↦ ?_, fun other e he ↦ ?_, fun e he other hother ↦ ?_⟩
  · rw [hentered]
    obtain rfl | hne := eq_or_ne other .urgent
    · rw [update_self]
      exact (h.once _).append (nodup_singleton _) (disjoint_singleton.2 fun he ↦ h.urgent entry he lane hlane hin)
    · rw [update_of_ne hne]
      exact h.once other
  · rw [hentered] at he
    obtain rfl | hne := eq_or_ne other .urgent
    · rw [update_self, mem_append, mem_singleton] at he
      obtain he | rfl := he
      · exact h.pushed _ e he
      · exact hi.conserved.subset (mem_append_right _ (mem_waiting hin))
    · rw [update_of_ne hne] at he
      exact h.pushed other e he
  · rw [hentered, update_self, mem_append, mem_singleton] at he
    obtain he | rfl := he
    -- The lanes other than the urgent one have only lost the promoted job.
    · intro hmem
      change e ∈ (w.lanes.promote ticket).2.queue other at hmem
      rw [hqueue, update_of_ne hother] at hmem
      refine h.urgent e he other hother ?_
      obtain rfl | hne := eq_or_ne other lane
      · rw [update_self] at hmem
        rw [hq]
        exact (Sublist.refl _).append (sublist_cons_self _ _) |>.subset hmem
      · rwa [update_of_ne hne] at hmem
    · exact notMem_queue hwait hother (hurgent ▸ mem_append_right _ mem_cons_self)

theorem pushed_step (w : LaneWorld τ κ) (op : LaneOp τ κ) : w.pushed.Sublist (w.step op).pushed := by
  cases op with
  | pushNormal ticket job => exact sublist_append_left _ _
  | pushPipeline ticket job => exact sublist_append_left _ _
  | pop => exact Sublist.refl _
  | promote ticket => exact Sublist.refl _
  | steal ticket idle => exact Sublist.refl _
  | stealUrgent idle => exact Sublist.refl _

theorem Enters.step (h : w.Enters) (hi : w.Inv) (op : LaneOp τ κ) (hd : (w.step op).pushed.Nodup) :
    (w.step op).Enters := by
  have hold : w.pushed.Nodup := (w.pushed_step op).nodup hd
  cases op with
  | pushNormal ticket job | pushPipeline ticket job =>
    have hnew := (nodup_append.1 hd).2.2
    exact h.push (by decide) (fun hmem ↦ hnew _ hmem _ (mem_singleton_self _) rfl)
      (funext fun lane ↦ by cases lane <;> rfl)
  | pop =>
    refine h.shrink rfl rfl fun lane ↦ ?_
    obtain ⟨entry, rest, lanes, hhead, -, hqueue, hpop⟩ | ⟨-, hpop⟩ := pop_cases w.lanes
    · simp only [LaneWorld.step, hpop, hqueue]
      obtain rfl | hne := eq_or_ne lane (popLane w.lanes)
      · simp [hhead]
      · simp [hne]
    · simp [LaneWorld.step, hpop]
  | promote ticket => exact h.promote hi hold ticket
  | steal ticket idle =>
    refine h.shrink rfl rfl fun lane ↦ ?_
    obtain hres | ⟨before, entry, after, hq, -, -, -, hres⟩ := w.lanes.steal_cases ticket idle <;>
      cases lane <;> simp [LaneWorld.step, queue, *]
  | stealUrgent idle =>
    refine h.shrink rfl rfl fun lane ↦ ?_
    obtain hres | ⟨before, entry, after, hq, -, hres⟩ := w.lanes.stealUrgent_cases idle <;>
      cases lane <;> simp [LaneWorld.step, queue, *]

theorem run_inv (ops : List (LaneOp τ κ)) : (run ops).Inv := by
  induction ops using List.reverseRecOn with
  | nil => exact ⟨Perm.refl _, fun lane ↦ by cases lane <;> exact Sublist.refl _⟩
  | append_singleton ops op ih =>
    rw [run, foldl_append]
    exact ih.step op

theorem run_enters (ops : List (LaneOp τ κ)) (hd : (run ops).pushed.Nodup) : (run ops).Enters := by
  induction ops using List.reverseRecOn with
  | nil => exact ⟨fun _ ↦ nodup_nil, fun _ _ he ↦ absurd he not_mem_nil, fun _ he ↦ absurd he not_mem_nil⟩
  | append_singleton ops op ih =>
    rw [run, foldl_append] at hd ⊢
    exact (ih ((pushed_step _ op).nodup hd)).step (run_inv ops) op hd

omit [DecidableEq τ] in
theorem pop_eq (l : CompileLanes τ κ) : l.pop.1 = l.waiting.head? ∧ l.pop.2.waiting = l.waiting.tail := by
  obtain ⟨entry, rest, lanes, -, hwait, -, hpop⟩ | ⟨hnone, hpop⟩ := pop_cases l
  · simp [hpop, hwait]
  · simp [hpop, hnone]

theorem run_append_pop (ops : List (LaneOp τ κ)) (n : ℕ) :
    (run (ops ++ replicate n .pop)).lanes.waiting = (run ops).lanes.waiting.drop n ∧
      (run (ops ++ replicate n .pop)).stolen = (run ops).stolen ∧
      (run (ops ++ replicate n .pop)).pushed = (run ops).pushed := by
  induction n with
  | zero => simp
  | succ n ih =>
    rw [replicate_succ', ← append_assoc, run, foldl_append]
    refine ⟨?_, ih.2⟩
    have hpop := (pop_eq (run (ops ++ replicate n .pop)).lanes).2
    rw [ih.1, tail_drop] at hpop
    exact hpop

/-- Under distinct tickets no job is lost or leaves twice, pops follow the priority and the order of entry,
promotion answers whether the job still waits, and the oldest urgent jobs are left to the idle workers. -/
theorem lanes_keep_jobs_and_order (ops : List (LaneOp τ κ)) (hd : ((run ops).pushed.map Prod.fst).Nodup) :
    ((run ops).left.map Prod.fst).Nodup ∧ (∀ entry ∈ (run ops).left, entry ∈ (run ops).pushed) ∧
    (∃ n, (run (ops ++ replicate n .pop)).lanes.waiting = [] ∧
      (run (ops ++ replicate n .pop)).stolen = (run ops).stolen ∧
      (run (ops ++ replicate n .pop)).left.Perm (run ops).pushed) ∧
    (run ops).lanes.pop.1 =
      ((run ops).lanes.urgent ++ (run ops).lanes.pipelines ++ (run ops).lanes.normal).head? ∧
    (∀ lane, ((run ops).entered lane).Nodup ∧ ((run ops).popped lane).Sublist ((run ops).entered lane)) ∧
    (∀ ticket, ((run ops).lanes.promote ticket).1 = true ↔
      ticket ∈ (run ops).pushed.map Prod.fst ∧ ticket ∉ (run ops).left.map Prod.fst) ∧
    (∀ ticket idle, ((run ops).lanes.steal ticket idle).2.urgent.take idle = (run ops).lanes.urgent.take idle ∧
      ∀ job, ((run ops).lanes.steal ticket idle).1 = some job → (ticket, job) ∉ (run ops).lanes.urgent.take idle) ∧
    ∀ idle, ((run ops).lanes.stealUrgent idle).2.urgent.take idle = (run ops).lanes.urgent.take idle ∧
      ∀ entry, ((run ops).lanes.stealUrgent idle).1 = some entry → entry ∉ (run ops).lanes.urgent.take idle := by
  have hi := run_inv ops
  have he := run_enters ops (Nodup.of_map _ hd)
  have htickets : (((run ops).left ++ (run ops).lanes.waiting).map Prod.fst).Nodup :=
    (hi.conserved.map Prod.fst).nodup_iff.2 hd
  rw [map_append, nodup_append] at htickets
  obtain ⟨hleft, hwait, hdisjoint⟩ := htickets
  have hurgent : (run ops).lanes.urgent.Nodup := by
    have hnodup := Nodup.of_map _ hwait
    rw [waiting, append_assoc] at hnodup
    exact (nodup_append.1 hnodup).1
  refine ⟨hleft, fun entry hmem ↦ hi.conserved.subset (mem_append_left _ hmem), ?_, (pop_eq _).1, ?_, ?_, ?_, ?_⟩
  · refine ⟨(run ops).lanes.waiting.length, ?_⟩
    obtain ⟨hempty, hstolen, hpushed⟩ := run_append_pop ops (run ops).lanes.waiting.length
    rw [drop_length] at hempty
    have hconserved := (run_inv (ops ++ replicate (run ops).lanes.waiting.length .pop)).conserved
    rw [hempty, hpushed, append_nil] at hconserved
    exact ⟨hempty, hstolen, hconserved⟩
  · intro lane
    exact ⟨he.once lane, (sublist_append_left _ _).trans (hi.ordered lane)⟩
  · intro ticket
    have hsplit : ticket ∈ (run ops).pushed.map Prod.fst ↔
        ticket ∈ (run ops).left.map Prod.fst ∨ ticket ∈ (run ops).lanes.waiting.map Prod.fst := by
      rw [← mem_append, ← map_append]
      exact ((hi.conserved.map Prod.fst).mem_iff).symm
    rw [((run ops).lanes.promote_cases ticket).1, hsplit]
    constructor
    · intro hmem
      exact ⟨.inr hmem, fun hgone ↦ hdisjoint _ hgone _ hmem rfl⟩
    · rintro ⟨hgone | hmem, hnot⟩
      · exact absurd hgone hnot
      · exact hmem
  · intro ticket idle
    obtain hres | ⟨before, entry, after, hq, hidle, rfl, hfirst, hres⟩ := (run ops).lanes.steal_cases ticket idle
    · rw [hres]
      exact ⟨rfl, fun job hjob ↦ by cases hjob⟩
    · rw [hres, hq]
      refine ⟨?_, fun job hjob hmem ↦ ?_⟩
      · rw [take_append_of_le_length hidle, take_append_of_le_length hidle]
      · rw [take_append_of_le_length hidle] at hmem
        exact hfirst _ (mem_of_mem_take hmem) rfl
  · intro idle
    obtain hres | ⟨before, entry, after, hq, hidle, hres⟩ := (run ops).lanes.stealUrgent_cases idle
    · rw [hres]
      exact ⟨rfl, fun job hjob ↦ by cases hjob⟩
    · rw [hres, hq]
      refine ⟨?_, fun taken htaken hmem ↦ ?_⟩
      · rw [take_append_of_le_length (by omega), take_append_of_le_length (by omega)]
      · obtain rfl := Option.some.inj htaken
        rw [take_append_of_le_length (by omega)] at hmem
        rw [hq] at hurgent
        exact (nodup_append.1 hurgent).2.2 _ (mem_of_mem_take hmem) _ mem_cons_self rfl

/-- A promoted library job is popped ahead of the pipeline pushed before it. -/
theorem lanes_keep_jobs_and_order_promoted :
    ((run [.pushPipeline 1 'p', .pushNormal 2 'l', .promote 2] : LaneWorld ℕ Char).pushed.map Prod.fst).Nodup ∧
      (run [.pushPipeline 1 'p', .pushNormal 2 'l', .promote 2] : LaneWorld ℕ Char).lanes.pop.1 =
        some (2, 'l') :=
  ⟨by decide, (lanes_keep_jobs_and_order _ (by decide)).2.2.2.1⟩

end LaneWorld

end Mtld3d
