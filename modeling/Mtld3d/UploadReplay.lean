import Mtld3d.Lib.Run
import Mtld3d.Lib.Writes
import Mtld3d.UploadRecovery

namespace Mtld3d

open List Lib Relation UploadRecoveryQueue

variable {α L V : Type}

/-- The copies one submission carries, in encode order, each with the key it writes. -/
structure UploadSubmission (α : Type) where
  seq : ℕ
  copies : List (ℕ × α)

def copiesTo (copies : List (ℕ × α)) (key : ℕ) : List α :=
  (copies.filter fun c ↦ c.1 = key).map (·.2)

theorem copiesTo_concat (copies : List (ℕ × α)) (k key : ℕ) (p : α) :
    copiesTo (copies ++ [(k, p)]) key = copiesTo copies key ++ if k = key then [p] else [] := by
  by_cases h : k = key <;> simp [copiesTo, h]

/-- Frames that replay and push uploads while the GPU retires older submissions. Entries settled as
owed wait in `hand` until the frame has re-issued them. -/
structure ReplaySystem (α L V : Type) where
  queue : UploadRecoveryQueue α
  hand : List (PendingUpload α)
  recording : Bool
  frame : UploadSubmission α
  inFlight : List (UploadSubmission α)
  retired : ℕ
  failed : ℕ
  memory : ℕ → L → V
  pushed : List (ℕ × α)
  abandoned : Bool

inductive ReplayAction (α : Type)
  | beginFrame (seq coherentSeq : ℕ)
  | requeue
  | push (key : ℕ) (payload : α)
  | release (coherentSeq : ℕ)
  | submit
  | complete
  | abort

namespace ReplaySystem

variable (writes : α → L → Option V)

def execute (copies : List (ℕ × α)) (m : ℕ → L → V) (key : ℕ) : L → V :=
  writeAll ((copiesTo copies key).map writes) (m key)

def owedBy (out : List (UploadFate × PendingUpload α)) : List (PendingUpload α) :=
  (out.filter fun x ↦ x.1 = .reissue).map (·.2)

def act (s : ReplaySystem α L V) : ReplayAction α → ReplaySystem α L V
  | .beginFrame seq coherentSeq =>
    let (out, queue) := s.queue.settle coherentSeq s.failed
    { s with
      queue := queue
      hand := owedBy out
      recording := true
      frame := ⟨seq, []⟩
      abandoned := s.abandoned || out.any fun x ↦ x.1 = .abandoned }
  | .requeue =>
    match s.hand with
    | [] => s
    | entry :: hand =>
      { s with
        queue := s.queue.requeue entry s.frame.seq
        hand := hand
        frame := { s.frame with copies := s.frame.copies ++ [(entry.key, entry.payload)] } }
  | .push key payload =>
    { s with
      queue := s.queue.push key s.frame.seq payload
      frame := { s.frame with copies := s.frame.copies ++ [(key, payload)] }
      pushed := s.pushed ++ [(key, payload)] }
  | .release coherentSeq => { s with queue := (s.queue.releaseAcknowledged coherentSeq s.failed).2 }
  | .submit =>
    { s with recording := false, inFlight := s.inFlight ++ [s.frame], frame := ⟨s.frame.seq, []⟩ }
  | .complete =>
    match s.inFlight with
    | [] => s
    | sub :: rest =>
      { s with inFlight := rest, retired := sub.seq, memory := execute writes sub.copies s.memory }
  | .abort =>
    match s.inFlight with
    | [] => s
    | sub :: rest => { s with inFlight := rest, retired := sub.seq, failed := sub.seq }

/-- The caller's side of the contract: frames number upwards, a coherent counter never runs ahead of
retirement, and a frame re-issues everything it owes before it pushes or submits. -/
def Enabled (s : ReplaySystem α L V) : ReplayAction α → Prop
  | .beginFrame seq coherentSeq => s.recording = false ∧ s.frame.seq < seq ∧ coherentSeq ≤ s.retired
  | .requeue => s.recording = true
  | .push _ _ => s.recording = true ∧ s.hand = []
  | .release coherentSeq => coherentSeq ≤ s.retired
  | .submit => s.recording = true ∧ s.hand = []
  | .complete => True
  | .abort => True

def Step (s t : ReplaySystem α L V) : Prop := ∃ a, s.Enabled a ∧ t = s.act writes a

structure Initial (s : ReplaySystem α L V) : Prop where
  queue : s.queue.pending = []
  hand : s.hand = []
  recording : s.recording = false
  inFlight : s.inFlight = []
  frame : s.frame.copies = []
  retired : s.retired = s.frame.seq
  failed : s.failed = 0
  pushed : s.pushed = []
  abandoned : s.abandoned = false

def requeued (seq : ℕ) (e : PendingUpload α) : PendingUpload α :=
  ⟨e.key, seq, min (e.attempts + 1) 255, e.payload⟩

def owed (s : ReplaySystem α L V) : UploadRecoveryQueue α :=
  ⟨s.queue.pending ++ s.hand.map (requeued s.frame.seq)⟩

/-- Relation of a submission in flight to a key: the entries still stamped with its sequence are its
copies, or the key has been replayed past it. -/
def Carries (entries : List (PendingUpload α)) (seq : ℕ) (payloads : List α) : Prop :=
  (entries.filter fun e ↦ e.seq = seq).map (·.payload) = payloads ∨
    (∀ e ∈ entries, seq < e.seq) ∧ ∀ p ∈ payloads, p ∈ entries.map (·.payload)

/-- What every run keeps about sequence numbers and attempts. -/
structure Sound (s : ReplaySystem α L V) : Prop where
  ordered : s.owed.Ordered
  positive : ∀ e ∈ s.owed.pending, 0 < e.seq ∧ e.seq ≤ s.frame.seq
  stamped : ∀ e ∈ s.owed.pending, s.retired < e.seq →
    e.seq = s.frame.seq ∨ ∃ sub ∈ s.inFlight, sub.seq = e.seq
  attempts : ∀ key, (s.owed.forKey key).Pairwise fun a b ↦ b.attempts ≤ a.attempts
  counters : s.failed ≤ s.retired ∧ s.retired ≤ s.frame.seq ∧ (s.recording = true → s.retired < s.frame.seq)
  increasing : s.inFlight.Pairwise fun a b ↦ a.seq < b.seq
  flying : ∀ sub ∈ s.inFlight,
    s.retired < sub.seq ∧ sub.seq ≤ s.frame.seq ∧ (s.recording = true → sub.seq < s.frame.seq)
  idle : s.recording = false → s.hand = [] ∧ (s.retired < s.frame.seq → ∃ sub ∈ s.inFlight, sub.seq = s.frame.seq)

def payloadWrites (entries : List (PendingUpload α)) : List (L → Option V) :=
  entries.map fun e ↦ writes e.payload

/-- Executing the entries still owed, or only those behind an acknowledged front, gives `goal`. -/
def Recovers (failed retired : ℕ) (entries : List (PendingUpload α)) (contents goal : L → V) : Prop :=
  ∀ front rest, entries = front ++ rest → (∀ e ∈ front, failed < e.seq ∧ e.seq ≤ retired) →
    writeAll (payloadWrites writes rest) contents = goal

/-- What a run without abandoned entries keeps about one key. -/
structure Kept (init : ℕ → L → V) (s : ReplaySystem α L V) (key : ℕ) : Prop where
  contents : Recovers writes s.failed s.retired (s.owed.forKey key) (s.memory key)
    (writeAll ((copiesTo s.pushed key).map writes) (init key))
  flying : ∀ sub ∈ s.inFlight, Carries (s.owed.forKey key) sub.seq (copiesTo sub.copies key)
  building : s.recording = true →
    ((s.owed.forKey key).filter fun e ↦ e.seq = s.frame.seq).map (·.payload) =
      copiesTo s.frame.copies key ++ (s.hand.filter fun e ↦ e.key = key).map (·.payload)

variable {writes} {s : ReplaySystem α L V} {init : ℕ → L → V} {key : ℕ}

theorem filter_owedBy (out : List (UploadFate × PendingUpload α)) (key : ℕ) :
    (owedBy out).filter (fun e ↦ e.key = key) = owedBy (out.filter fun x ↦ x.2.key = key) := by
  simp only [owedBy, filter_map, filter_filter]
  congr 1
  exact filter_congr fun x _ ↦ Bool.and_comm _ _

variable {q : UploadRecoveryQueue α}

theorem owedBy_poisoned (hq : q.Ordered) (coherentSeq : ℕ) {failedSeq : ℕ}
    (hk : key ∈ q.poisonedKeys failedSeq) :
    (owedBy (q.settle coherentSeq failedSeq).1).filter (fun e ↦ e.key = key) =
      (q.forKey key).filter fun e ↦ e.attempts < maxReissueAttempts := by
  rw [filter_owedBy, (settle_forKey_poisoned hq coherentSeq hk).2, owedBy,
    List.filter_map, List.map_map]
  refine (List.map_id _).trans (List.filter_congr fun e _ ↦ ?_)
  by_cases he : maxReissueAttempts ≤ e.attempts
  · simp [fate, he, not_lt.mpr he]
  · simp [fate, he, Nat.lt_of_not_le he]

theorem owedBy_clean (hq : q.Ordered) (coherentSeq : ℕ) {failedSeq : ℕ} (hk : key ∉ q.poisonedKeys failedSeq) :
    (owedBy (q.settle coherentSeq failedSeq).1).filter (fun e ↦ e.key = key) = [] := by
  have hreleased := (settle_forKey_clean hq coherentSeq hk).2
  rw [filter_owedBy, owedBy, map_eq_nil_iff, filter_eq_nil_iff]
  intro x hx
  obtain ⟨hx, hkey⟩ := mem_filter.mp hx
  simp [hreleased x hx (by simpa using hkey)]

theorem owed_forKey (s : ReplaySystem α L V) (key : ℕ) : s.owed.forKey key =
      s.queue.forKey key ++ (s.hand.filter fun e ↦ e.key = key).map (requeued s.frame.seq) := by
  simp only [owed, forKey, filter_append, filter_map]
  rfl

theorem owed_of_hand_nil (h : s.hand = []) : s.owed = s.queue := by simp [owed, h]

variable {seq coherentSeq : ℕ}

theorem beginFrame_poisoned (hq : s.queue.Ordered) (hk : key ∈ s.queue.poisonedKeys s.failed) :
    (s.act writes (.beginFrame seq coherentSeq)).owed.forKey key =
      ((s.queue.forKey key).filter fun e ↦ e.attempts < maxReissueAttempts).map (requeued seq) := by
  have hleft : (s.queue.settle coherentSeq s.failed).2.forKey key = [] :=
    (settle_forKey_poisoned hq coherentSeq hk).1
  rw [owed_forKey, ← owedBy_poisoned hq coherentSeq hk]
  exact congrArg (· ++ _) hleft

theorem beginFrame_clean (hq : s.queue.Ordered) (seq : ℕ) {coherentSeq : ℕ}
    (hk : key ∉ s.queue.poisonedKeys s.failed) :
    (s.act writes (.beginFrame seq coherentSeq)).owed.forKey key =
      (s.queue.settle coherentSeq s.failed).2.forKey key := by
  have hhand : ((s.act writes (.beginFrame seq coherentSeq)).hand.filter fun e ↦ e.key = key) = [] :=
    owedBy_clean hq coherentSeq hk
  rw [owed_forKey, hhand, map_nil, append_nil]
  rfl

theorem owed_requeue (s : ReplaySystem α L V) : (s.act writes .requeue).owed = s.owed := by
  rcases hh : s.hand with _ | ⟨entry, hand⟩
  · simp [act, hh]
  · simp [act, hh, owed, requeue, requeued]

theorem owed_push (h : s.hand = []) (key : ℕ) (payload : α) :
    (s.act writes (.push key payload)).owed.pending = s.owed.pending ++ [⟨key, s.frame.seq, 0, payload⟩] := by
  simp [act, owed, h, push]

theorem release_pending (s : ReplaySystem α L V) (coherentSeq : ℕ) :
    (s.act writes (.release coherentSeq)).owed.pending.Sublist s.owed.pending :=
  (s.queue.releaseAcknowledged_sublist coherentSeq s.failed).append (List.Sublist.refl _)

theorem release_forKey (s : ReplaySystem α L V) (coherentSeq key : ℕ) :
    ∃ gone, s.owed.forKey key = gone ++ (s.act writes (.release coherentSeq)).owed.forKey key ∧
      ∀ e ∈ gone, e.seq ≤ coherentSeq ∧ s.failed < e.seq := by
  obtain ⟨gone, hgone, hacked⟩ := s.queue.releaseAcknowledged_forKey coherentSeq s.failed key
  refine ⟨gone, ?_, hacked⟩
  rw [owed_forKey, owed_forKey, hgone, append_assoc]
  rfl

variable {e : PendingUpload α}

theorem mem_forKey_owed (he : e ∈ s.owed.forKey key) : e ∈ s.owed.pending :=
  (mem_forKey.mp he).1

theorem Sound.forKey_ordered (hs : s.Sound) (key : ℕ) :
    (s.owed.forKey key).Pairwise fun a b ↦ a.seq ≤ b.seq := hs.ordered.filter _

theorem Sound.queue_ordered (hs : s.Sound) : s.queue.Ordered :=
  List.Pairwise.sublist (sublist_append_left _ _) hs.ordered

theorem Sound.beginFrame (hs : s.Sound)
    (h : s.Enabled (.beginFrame seq coherentSeq)) : (s.act writes (.beginFrame seq coherentSeq)).Sound := by
  obtain ⟨hidle, hseq, hcoherent⟩ := h
  obtain ⟨hhand, hlast⟩ := hs.idle hidle
  have hq : s.queue.Ordered := hs.queue_ordered
  have hsub : (s.queue.settle coherentSeq s.failed).2.pending.Sublist s.queue.pending :=
    settle_sublist hq coherentSeq s.failed
  have hold : ∀ e ∈ (s.queue.settle coherentSeq s.failed).2.pending, e ∈ s.owed.pending := by
    intro e he
    rw [owed_of_hand_nil hhand]
    exact hsub.subset he
  have hmem : ∀ e ∈ (s.act writes (.beginFrame seq coherentSeq)).owed.pending,
      e ∈ s.owed.pending ∨ e.seq = seq := by
    intro e he
    obtain he | he := mem_append.mp he
    · exact .inl (hold e he)
    · obtain ⟨x, -, rfl⟩ := mem_map.mp he
      exact .inr rfl
  have hcounters := hs.counters
  constructor
  · refine pairwise_append.mpr ⟨hq.sublist hsub, ?_, ?_⟩
    · exact pairwise_map.mpr (pairwise_of_forall fun _ _ ↦ le_rfl)
    · intro a ha b hb
      obtain ⟨x, -, rfl⟩ := mem_map.mp hb
      exact ((hs.positive a (hold a ha)).2.trans_lt hseq).le
  · intro e he
    change 0 < e.seq ∧ e.seq ≤ seq
    obtain he | he := hmem e he
    · have hb := hs.positive e he
      omega
    · omega
  · intro e he hret
    obtain he | he := hmem e he
    · obtain hf | hf := hs.stamped e he hret
      · obtain ⟨sub, hsub, heq⟩ := hlast (hf ▸ hret)
        exact .inr ⟨sub, hsub, heq.trans hf.symm⟩
      · exact .inr hf
    · exact .inl he
  · intro key
    have hk := hs.attempts key
    rw [owed_of_hand_nil hhand] at hk
    by_cases hp : key ∈ s.queue.poisonedKeys s.failed
    · rw [beginFrame_poisoned hq hp, pairwise_map]
      refine (hk.filter _).imp fun {a b} hab ↦ ?_
      simp only [requeued]
      omega
    · rw [beginFrame_clean hq seq hp]
      exact hk.sublist (hsub.filter _)
  · exact ⟨hcounters.1, (hcounters.2.1.trans_lt hseq).le, fun _ ↦ hcounters.2.1.trans_lt hseq⟩
  · exact hs.increasing
  · intro sub hsub
    have hf := hs.flying sub hsub
    exact ⟨hf.1, (hf.2.1.trans_lt hseq).le, fun _ ↦ hf.2.1.trans_lt hseq⟩
  · intro hrec
    exact absurd hrec Bool.noConfusion

theorem Sound.requeue (hs : s.Sound) (h : s.Enabled .requeue) : (s.act writes .requeue).Sound := by
  have howed : (s.act writes .requeue).owed = s.owed := owed_requeue s
  rcases hh : s.hand with _ | ⟨entry, hand⟩
  · simpa only [act, hh] using hs
  · have hidle : s.recording = false → False := fun hf ↦ Bool.noConfusion (hf.symm.trans h)
    simp only [act, hh] at howed ⊢
    exact ⟨howed ▸ hs.ordered, howed ▸ hs.positive, howed ▸ hs.stamped, howed ▸ hs.attempts, hs.counters,
      hs.increasing, hs.flying, fun hf ↦ (hidle hf).elim⟩

theorem Sound.push (hs : s.Sound) {key : ℕ} {payload : α} (h : s.Enabled (.push key payload)) :
    (s.act writes (.push key payload)).Sound := by
  have howed : (s.act writes (.push key payload)).owed.pending =
      s.owed.pending ++ [⟨key, s.frame.seq, 0, payload⟩] := owed_push h.2 key payload
  have hpos : 0 < s.frame.seq := (Nat.zero_le _).trans_lt (hs.counters.2.2 h.1)
  constructor
  · unfold UploadRecoveryQueue.Ordered
    rw [howed, pairwise_append]
    refine ⟨hs.ordered, pairwise_singleton _ _, fun a ha b hb ↦ ?_⟩
    rw [mem_singleton.mp hb]
    exact (hs.positive a ha).2
  · intro e he
    rw [howed] at he
    obtain he | he := mem_append.mp he
    · exact hs.positive e he
    · rw [mem_singleton.mp he]
      exact ⟨hpos, le_rfl⟩
  · intro e he hret
    rw [howed] at he
    obtain he | he := mem_append.mp he
    · exact hs.stamped e he hret
    · rw [mem_singleton.mp he]
      exact .inl rfl
  · intro k
    have hk := hs.attempts k
    unfold forKey at hk ⊢
    rw [howed, filter_append, pairwise_append]
    refine ⟨hk, (pairwise_singleton _ _).filter _, fun a _ b hb ↦ ?_⟩
    rw [mem_singleton.mp (mem_of_mem_filter hb)]
    exact Nat.zero_le _
  · exact hs.counters
  · exact hs.increasing
  · exact hs.flying
  · intro hf
    exact absurd (hf.symm.trans h.1) Bool.noConfusion

theorem Sound.release (hs : s.Sound) (coherentSeq : ℕ) : (s.act writes (.release coherentSeq)).Sound := by
  have hsub : (s.act writes (.release coherentSeq)).owed.pending.Sublist s.owed.pending :=
    release_pending s coherentSeq
  exact ⟨hs.ordered.sublist hsub, fun e he ↦ hs.positive e (hsub.subset he),
    fun e he ↦ hs.stamped e (hsub.subset he), fun k ↦ (hs.attempts k).sublist (hsub.filter _),
    hs.counters, hs.increasing, hs.flying, hs.idle⟩

theorem Sound.submit (hs : s.Sound) (h : s.Enabled .submit) : (s.act writes .submit).Sound := by
  have hret := hs.counters.2.2 h.1
  constructor
  · exact hs.ordered
  · exact hs.positive
  · intro e he hlt
    obtain hf | ⟨sub, hsub, heq⟩ := hs.stamped e he hlt
    · exact .inl hf
    · exact .inr ⟨sub, mem_append_left _ hsub, heq⟩
  · exact hs.attempts
  · exact ⟨hs.counters.1, hs.counters.2.1, fun hf ↦ absurd hf Bool.noConfusion⟩
  · refine pairwise_append.mpr ⟨hs.increasing, pairwise_singleton _ _, fun a ha b hb ↦ ?_⟩
    rw [mem_singleton.mp hb]
    exact (hs.flying a ha).2.2 h.1
  · intro sub hsub
    refine (mem_append.mp hsub).elim (fun hsub ↦ ?_) fun hsub ↦ ?_
    · exact ⟨(hs.flying sub hsub).1, (hs.flying sub hsub).2.1, fun hf ↦ absurd hf Bool.noConfusion⟩
    · rw [mem_singleton.mp hsub]
      exact ⟨hret, le_rfl, fun hf ↦ absurd hf Bool.noConfusion⟩
  · intro _
    exact ⟨h.2, fun _ ↦ ⟨s.frame, mem_append_right _ mem_cons_self, rfl⟩⟩

theorem Sound.retire (hs : s.Sound) {sub : UploadSubmission α} {rest : List (UploadSubmission α)}
    (hf : s.inFlight = sub :: rest) {failed : ℕ} (hfailed : failed ≤ sub.seq) (m : ℕ → L → V) :
    Sound { s with inFlight := rest, retired := sub.seq, failed := failed, memory := m } := by
  have hsub := hs.flying sub (hf ▸ mem_cons_self)
  have hinc := hs.increasing
  rw [hf, pairwise_cons] at hinc
  constructor
  · exact hs.ordered
  · exact hs.positive
  · intro e he hlt
    have hlt : sub.seq < e.seq := hlt
    obtain h | ⟨other, hother, heq⟩ := hs.stamped e he (hsub.1.trans hlt)
    · exact .inl h
    · rw [hf] at hother
      obtain rfl | hother := mem_cons.mp hother
      · omega
      · exact .inr ⟨other, hother, heq⟩
  · exact hs.attempts
  · exact ⟨hfailed, hsub.2⟩
  · exact hinc.2
  · intro other hother
    exact ⟨hinc.1 other hother, (hs.flying other (hf ▸ mem_cons_of_mem _ hother)).2⟩
  · intro hidle
    obtain ⟨hhand, hlast⟩ := hs.idle hidle
    refine ⟨hhand, fun hlt ↦ ?_⟩
    have hlt : sub.seq < s.frame.seq := hlt
    obtain ⟨other, hother, heq⟩ := hlast (hsub.1.trans hlt)
    rw [hf] at hother
    obtain rfl | hother := mem_cons.mp hother
    · omega
    · exact ⟨other, hother, heq⟩

variable {t : ReplaySystem α L V}

theorem Sound.step (hs : s.Sound) (h : Step writes s t) : t.Sound := by
  obtain ⟨a, ha, rfl⟩ := h
  cases a with
  | beginFrame seq coherentSeq => exact hs.beginFrame ha
  | requeue => exact hs.requeue ha
  | push key payload => exact hs.push ha
  | release coherentSeq => exact hs.release coherentSeq
  | submit => exact hs.submit ha
  | complete =>
    rcases hf : s.inFlight with _ | ⟨sub, rest⟩
    · simpa only [act, hf] using hs
    · have hfailed := hs.counters.1.trans (hs.flying sub (hf ▸ mem_cons_self)).1.le
      simpa only [act, hf] using hs.retire hf hfailed (execute writes sub.copies s.memory)
  | abort =>
    rcases hf : s.inFlight with _ | ⟨sub, rest⟩
    · simpa only [act, hf] using hs
    · simpa only [act, hf] using hs.retire hf le_rfl s.memory

variable {payloads : List α}

theorem Carries.drop {gone rest : List (PendingUpload α)} {seq : ℕ}
    (h : Carries (gone ++ rest) seq payloads) (hgone : ∀ e ∈ gone, e.seq < seq) :
    Carries rest seq payloads := by
  have hnone : gone.filter (fun e ↦ e.seq = seq) = [] :=
    filter_eq_nil_iff.mpr fun e he ↦ by simpa using (hgone e he).ne
  obtain h | ⟨hlater, hmem⟩ := h
  · rw [filter_append, hnone, nil_append] at h
    exact .inl h
  · cases gone with
    | nil => exact .inr ⟨hlater, hmem⟩
    | cons e gone =>
      have h₁ := hgone e mem_cons_self
      have h₂ := hlater e mem_cons_self
      omega

variable {entries : List (PendingUpload α)}

theorem Carries.push {seq : ℕ} (h : Carries entries seq payloads) (he : seq < e.seq) :
    Carries (entries ++ [e]) seq payloads := by
  obtain h | ⟨hlater, hmem⟩ := h
  · left
    have hnone : [e].filter (fun e ↦ e.seq = seq) = [] := by simp [he.ne']
    rw [filter_append, hnone, append_nil, h]
  · refine .inr ⟨fun x hx ↦ ?_, fun p hp ↦ ?_⟩
    · obtain hx | hx := mem_append.mp hx
      · exact hlater x hx
      · rw [mem_singleton.mp hx]
        exact he
    · rw [map_append]
      exact mem_append_left _ (hmem p hp)

theorem Carries.mem {seq : ℕ}
    (h : Carries entries seq payloads) {p : α} (hp : p ∈ payloads) : p ∈ entries.map (·.payload) := by
  obtain h | ⟨-, hmem⟩ := h
  · rw [← h] at hp
    exact map_subset _ (filter_subset_self _) hp
  · exact hmem p hp

variable {failed retired : ℕ} {contents goal : L → V}

theorem Recovers.drop {gone rest : List (PendingUpload α)}
    (h : Recovers writes failed retired (gone ++ rest) contents goal)
    (hgone : ∀ e ∈ gone, failed < e.seq ∧ e.seq ≤ retired) :
    Recovers writes failed retired rest contents goal := by
  intro front tail heq hfront
  refine h (gone ++ front) tail (by rw [heq, append_assoc]) fun e he ↦ ?_
  exact (mem_append.mp he).elim (hgone e) (hfront e)

theorem Recovers.all (h : Recovers writes failed retired entries contents goal) :
    writeAll (payloadWrites writes entries) contents = goal :=
  h [] entries rfl fun _ he ↦ absurd he not_mem_nil

theorem Recovers.of_all (h : writeAll (payloadWrites writes entries) contents = goal)
    (hlate : ∀ e ∈ entries, failed < e.seq → retired < e.seq) :
    Recovers writes failed retired entries contents goal := by
  intro front rest heq hfront
  cases front with
  | nil => rwa [heq] at h
  | cons e front =>
    have hin : e ∈ entries := heq ▸ mem_cons_self
    have he := hfront e mem_cons_self
    have hl := hlate e hin he.1
    omega

theorem Recovers.push (h : Recovers writes failed retired entries contents goal) (he : retired < e.seq) :
    Recovers writes failed retired (entries ++ [e]) contents (write (writes e.payload) goal) := by
  intro front rest heq hfront
  rcases eq_nil_or_concat rest with rfl | ⟨tail, last, rfl⟩
  · rw [append_nil] at heq
    have hin : e ∈ front := heq ▸ mem_append_right _ mem_cons_self
    have hl := hfront e hin
    omega
  · rw [concat_eq_append, ← append_assoc] at heq
    obtain ⟨hinit, hlast⟩ := append_inj' heq rfl
    obtain rfl : e = last := by simpa using hlast
    have ih := h front tail hinit hfront
    simp only [payloadWrites, concat_eq_append, map_append, writeAll_append] at ih ⊢
    rw [ih]
    rfl

theorem mem_payloadWrites (h : ∀ p ∈ payloads, p ∈ entries.map (·.payload)) :
    ∀ w ∈ payloads.map writes, w ∈ payloadWrites writes entries := by
  intro w hw
  obtain ⟨p, hp, rfl⟩ := mem_map.mp hw
  obtain ⟨e, he, rfl⟩ := mem_map.mp (h p hp)
  exact mem_map_of_mem he

theorem split_around {seq : ℕ} (hord : entries.Pairwise fun a b ↦ a.seq ≤ b.seq) (hret : retired < seq)
    (hgap : ∀ e ∈ entries, retired < e.seq → seq ≤ e.seq) :
    entries = entries.filter (fun e ↦ e.seq ≤ retired) ++
      (entries.filter (fun e ↦ e.seq = seq) ++ entries.filter (fun e ↦ seq < e.seq)) := by
  have hlate := (split_at_seq (hord.filter fun e ↦ decide (retired < e.seq)) seq).2
  have hat : (entries.filter fun e ↦ decide (retired < e.seq)).filter (fun e ↦ e.seq ≤ seq) =
      entries.filter fun e ↦ e.seq = seq := by
    rw [filter_filter]
    refine filter_congr fun e he ↦ ?_
    have hg := hgap e he
    rw [← Bool.decide_and]
    exact decide_eq_decide.mpr ⟨fun h ↦ by omega, fun h ↦ by omega⟩
  have hafter : (entries.filter fun e ↦ decide (retired < e.seq)).filter (fun e ↦ seq < e.seq) =
      entries.filter fun e ↦ seq < e.seq := by
    rw [filter_filter]
    refine filter_congr fun e he ↦ ?_
    rw [← Bool.decide_and]
    exact decide_eq_decide.mpr ⟨fun h ↦ by omega, fun h ↦ by omega⟩
  have hsplit := (split_at_seq hord retired).2
  rwa [hlate, hat, hafter] at hsplit

/-- The oldest submission in flight runs its copies. -/
theorem Recovers.complete {seq : ℕ} (h : Recovers writes failed retired entries contents goal)
    (hord : entries.Pairwise fun a b ↦ a.seq ≤ b.seq) (hcarries : Carries entries seq payloads)
    (hret : retired < seq) (hgap : ∀ e ∈ entries, retired < e.seq → seq ≤ e.seq) :
    Recovers writes failed seq entries (writeAll (payloads.map writes) contents) goal := by
  have hmem : ∀ w ∈ payloads.map writes, w ∈ payloadWrites writes entries :=
    mem_payloadWrites fun _ hp ↦ hcarries.mem hp
  obtain hat | ⟨hlater, -⟩ := hcarries
  · intro front rest heq hfront
    have hsplit := split_around hord hret hgap
    have hpay : payloads.map writes = payloadWrites writes (entries.filter fun e ↦ e.seq = seq) := by
      rw [← hat, payloadWrites, List.map_map]
      rfl
    obtain ⟨mid, hL, hrest⟩ | ⟨mid, hF, htail⟩ := List.append_eq_append_iff.mp (heq.symm.trans hsplit)
    · have hacked : ∀ e ∈ front, e.seq ≤ retired := by
        intro e he
        have hin : e ∈ entries.filter fun e ↦ e.seq ≤ retired := hL ▸ mem_append_left _ he
        simpa using (mem_filter.mp hin).2
      have hold := h front rest heq fun e he ↦ ⟨(hfront e he).1, hacked e he⟩
      rw [writeAll_absorb, hold]
      intro w hw
      rw [hpay] at hw
      rw [hrest, payloadWrites, map_append, map_append]
      exact mem_append_right _ (mem_append_left _ hw)
    · have hall := h _ _ hsplit fun e he ↦
        ⟨(hfront e (hF ▸ mem_append_left _ he)).1, by simpa using (mem_filter.mp he).2⟩
      have hmid : ∃ back, entries.filter (fun e ↦ e.seq = seq) = mid ++ back ∧
          rest = back ++ entries.filter fun e ↦ seq < e.seq := by
        obtain ⟨extra, hmid, hover⟩ | ⟨back, hM, hR⟩ := append_eq_append_iff.mp htail
        · cases extra with
          | nil => exact ⟨[], by simp [hmid], by simpa using hover.symm⟩
          | cons e extra =>
            have he : e ∈ front := hF ▸ mem_append_right _ (hmid ▸ mem_append_right _ mem_cons_self)
            have hlt : seq < e.seq := by
              have hin : e ∈ entries.filter fun e ↦ seq < e.seq := by
                rw [hover]
                exact mem_cons_self
              simpa using (mem_filter.mp hin).2
            have hle := (hfront e he).2
            omega
        · exact ⟨back, hM, hR⟩
      obtain ⟨back, hM, rfl⟩ := hmid
      rw [hpay, hM]
      rw [hM] at hall
      simp only [payloadWrites, map_append, writeAll_append] at hall ⊢
      rw [writeAll_absorb fun w hw ↦ hw, hall]
  · refine Recovers.of_all ?_ fun e he _ ↦ hlater e he
    rw [writeAll_absorb hmem, h.all]

theorem abandoned_beginFrame (h : (s.act writes (.beginFrame seq coherentSeq)).abandoned = false) :
    s.abandoned = false ∧ ∀ x ∈ (s.queue.settle coherentSeq s.failed).1, x.1 ≠ .abandoned := by
  obtain ⟨h₁, h₂⟩ := Bool.or_eq_false_iff.mp h
  refine ⟨h₁, fun x hx hx' ↦ ?_⟩
  exact any_eq_false.mp h₂ x hx (decide_eq_true hx')

theorem beginFrame_reissued (hq : s.queue.Ordered) {coherentSeq : ℕ}
    (hk : key ∈ s.queue.poisonedKeys s.failed)
    (h : ∀ x ∈ (s.queue.settle coherentSeq s.failed).1, x.1 ≠ .abandoned) :
    (s.queue.forKey key).filter (fun e ↦ e.attempts < maxReissueAttempts) = s.queue.forKey key := by
  refine filter_eq_self.mpr fun e he ↦ ?_
  by_contra hlt
  have hle : maxReissueAttempts ≤ e.attempts := by simpa using hlt
  have hin : (fate e true, e) ∈
      (s.queue.settle coherentSeq s.failed).1.filter fun x ↦ x.2.key = key := by
    rw [(settle_forKey_poisoned hq coherentSeq hk).2]
    exact mem_map_of_mem he
  exact h _ (mem_of_mem_filter hin) (by simp [fate, hle])

theorem Kept.beginFrame (hs : s.Sound) (hkept : Kept writes init s key)
    (h : s.Enabled (.beginFrame seq coherentSeq))
    (hab : ∀ x ∈ (s.queue.settle coherentSeq s.failed).1, x.1 ≠ .abandoned) :
    Kept writes init (s.act writes (.beginFrame seq coherentSeq)) key := by
  obtain ⟨hidle, hseq, hcoherent⟩ := h
  have hq : s.queue.Ordered := hs.queue_ordered
  have howed : s.owed = s.queue := owed_of_hand_nil (hs.idle hidle).1
  have hret := hs.counters.2.1
  have hcontents := hkept.contents
  have hflying := hkept.flying
  have hpositive := hs.positive
  rw [howed] at hcontents hflying hpositive
  by_cases hp : key ∈ s.queue.poisonedKeys s.failed
  · have hnew : (s.act writes (.beginFrame seq coherentSeq)).owed.forKey key =
        (s.queue.forKey key).map (requeued seq) := by
      rw [beginFrame_poisoned hq hp, beginFrame_reissued hq hp hab]
    have hstamp : ∀ e ∈ (s.queue.forKey key).map (requeued seq), e.seq = seq := by
      intro e he
      obtain ⟨x, -, rfl⟩ := mem_map.mp he
      rfl
    have hpay : ((s.queue.forKey key).map (requeued seq)).map (·.payload) =
        (s.queue.forKey key).map (·.payload) := by
      rw [List.map_map]
      rfl
    constructor
    · rw [hnew]
      refine Recovers.of_all ?_ fun e he _ ↦ ?_
      · have hall := hcontents.all
        unfold payloadWrites at hall ⊢
        rw [List.map_map]
        exact hall
      · rw [hstamp e he]
        exact hret.trans_lt hseq
    · intro sub hsub
      rw [hnew]
      refine .inr ⟨fun e he ↦ ?_, fun p hmem ↦ ?_⟩
      · rw [hstamp e he]
        exact (hs.flying sub hsub).2.1.trans_lt hseq
      · rw [hpay]
        exact (hflying sub hsub).mem hmem
    · intro _
      have hhand : (s.act writes (.beginFrame seq coherentSeq)).hand.filter (fun e ↦ e.key = key) =
          s.queue.forKey key := by
        rw [← beginFrame_reissued hq hp hab]
        exact owedBy_poisoned hq coherentSeq hp
      have hself : ((s.queue.forKey key).map (requeued seq)).filter (fun e ↦ e.seq = seq) =
          (s.queue.forKey key).map (requeued seq) :=
        filter_eq_self.mpr fun e he ↦ decide_eq_true (hstamp e he)
      rw [hnew, hhand]
      exact (congrArg (List.map _) hself).trans hpay
  · obtain ⟨gone, hsplit, hacked⟩ :=
      (settle_forKey_clean hq coherentSeq hp).1
    rw [hsplit] at hcontents hflying
    have hgone : ∀ e ∈ gone, s.failed < e.seq ∧ e.seq ≤ s.retired := by
      intro e he
      have hin : e ∈ s.queue.forKey key := hsplit ▸ mem_append_left _ he
      have hpos := (hpositive e (mem_forKey.mp hin).1).1
      have hack := hacked e he
      by_cases h0 : s.failed = 0
      · omega
      · exact ⟨hack.2 h0, hack.1.trans hcoherent⟩
    constructor
    · rw [beginFrame_clean hq seq hp]
      exact hcontents.drop hgone
    · intro sub hsub
      rw [beginFrame_clean hq seq hp]
      exact (hflying sub hsub).drop fun e he ↦ (hgone e he).2.trans_lt (hs.flying sub hsub).1
    · intro _
      have hhand : (s.act writes (.beginFrame seq coherentSeq)).hand.filter (fun e ↦ e.key = key) = [] :=
        owedBy_clean hq coherentSeq hp
      have hnone : ((s.queue.settle coherentSeq s.failed).2.forKey key).filter (fun e ↦ e.seq = seq) = [] := by
        refine filter_eq_nil_iff.mpr fun e he ↦ ?_
        have hin : e ∈ s.queue.forKey key := hsplit ▸ mem_append_right _ he
        have hle := (hpositive e (mem_forKey.mp hin).1).2
        simpa using (hle.trans_lt hseq).ne
      rw [beginFrame_clean hq seq hp, hhand]
      exact congrArg (List.map _) hnone

theorem Kept.requeue (hkept : Kept writes init s key) : Kept writes init (s.act writes .requeue) key := by
  have howed : (s.act writes .requeue).owed = s.owed := owed_requeue s
  rcases hh : s.hand with _ | ⟨entry, hand⟩
  · simpa only [act, hh] using hkept
  · have hbuilding := hkept.building
    simp only [act, hh] at howed ⊢
    refine ⟨howed ▸ hkept.contents, howed ▸ hkept.flying, fun hrec ↦ ?_⟩
    rw [howed, hbuilding hrec, hh, copiesTo_concat]
    by_cases hk : entry.key = key <;> simp [hk]

theorem forKey_push_owed (h : s.hand = []) (k : ℕ) (payload : α) (key : ℕ) :
    (s.act writes (.push k payload)).owed.forKey key =
      s.owed.forKey key ++ if k = key then [⟨k, s.frame.seq, 0, payload⟩] else [] := by
  have howed : (s.act writes (.push k payload)).owed = s.owed.push k s.frame.seq payload :=
    congrArg UploadRecoveryQueue.mk (owed_push h k payload)
  rw [howed, forKey_push]

theorem Kept.push (hs : s.Sound) (hkept : Kept writes init s key) {k : ℕ} {payload : α}
    (h : s.Enabled (.push k payload)) : Kept writes init (s.act writes (.push k payload)) key := by
  obtain ⟨hrec, hhand⟩ := h
  have hret := hs.counters.2.2 hrec
  have hbuilding := hkept.building hrec
  rw [hhand, filter_nil, map_nil, append_nil] at hbuilding
  have howed : (s.act writes (.push k payload)).owed.forKey key =
      s.owed.forKey key ++ if k = key then [⟨k, s.frame.seq, 0, payload⟩] else [] :=
    forKey_push_owed hhand k payload key
  by_cases hk : k = key
  · rw [if_pos hk] at howed
    constructor
    · rw [howed]
      have hgoal : writeAll ((copiesTo (s.pushed ++ [(k, payload)]) key).map writes) (init key) =
          write (writes payload) (writeAll ((copiesTo s.pushed key).map writes) (init key)) := by
        rw [copiesTo_concat, if_pos hk, map_append, writeAll_append]
        rfl
      have hpush := hkept.contents.push (e := ⟨k, s.frame.seq, 0, payload⟩) hret
      exact hgoal ▸ hpush
    · intro sub hsub
      rw [howed]
      exact (hkept.flying sub hsub).push ((hs.flying sub hsub).2.2 hrec)
    · intro _
      change (((s.act writes (.push k payload)).owed.forKey key).filter fun e ↦ e.seq = s.frame.seq).map
          (·.payload) = copiesTo (s.frame.copies ++ [(k, payload)]) key ++
            (s.hand.filter fun e ↦ e.key = key).map (·.payload)
      rw [howed, hhand, filter_append, map_append, hbuilding, copiesTo_concat, if_pos hk]
      simp
  · rw [if_neg hk, append_nil] at howed
    have hcopies : ∀ c : List (ℕ × α), copiesTo (c ++ [(k, payload)]) key = copiesTo c key := by
      intro c
      rw [copiesTo_concat, if_neg hk, append_nil]
    constructor
    · rw [howed]
      have hgoal := hkept.contents
      rw [← hcopies s.pushed] at hgoal
      exact hgoal
    · intro sub hsub
      rw [howed]
      exact hkept.flying sub hsub
    · intro _
      have hnew : copiesTo (s.frame.copies ++ [(k, payload)]) key = copiesTo s.frame.copies key :=
        hcopies _
      rw [howed]
      simp only [act, hhand, hnew, filter_nil, map_nil, append_nil]
      exact hbuilding

theorem Kept.release (hs : s.Sound) (hkept : Kept writes init s key) {coherentSeq : ℕ}
    (h : s.Enabled (.release coherentSeq)) : Kept writes init (s.act writes (.release coherentSeq)) key := by
  obtain ⟨gone, hsplit, hacked⟩ :
      ∃ gone, s.owed.forKey key = gone ++ (s.act writes (.release coherentSeq)).owed.forKey key ∧
        ∀ e ∈ gone, e.seq ≤ coherentSeq ∧ s.failed < e.seq := release_forKey s coherentSeq key
  have hgone : ∀ e ∈ gone, s.failed < e.seq ∧ e.seq ≤ s.retired :=
    fun e he ↦ ⟨(hacked e he).2, (hacked e he).1.trans h⟩
  have hcontents := hkept.contents
  have hflying := hkept.flying
  have hbuilding := hkept.building
  rw [hsplit] at hcontents hflying hbuilding
  refine ⟨hcontents.drop hgone, fun sub hsub ↦ ?_, fun hrec ↦ ?_⟩
  · exact (hflying sub hsub).drop fun e he ↦ (hgone e he).2.trans_lt (hs.flying sub hsub).1
  · have hnone : gone.filter (fun e ↦ e.seq = s.frame.seq) = [] :=
      filter_eq_nil_iff.mpr fun e he ↦ by
        simpa using ((hgone e he).2.trans_lt (hs.counters.2.2 hrec)).ne
    have hold := hbuilding hrec
    rw [filter_append, hnone, nil_append] at hold
    exact hold

theorem Kept.submit (hkept : Kept writes init s key) (h : s.Enabled .submit) :
    Kept writes init (s.act writes .submit) key := by
  refine ⟨hkept.contents, fun sub hsub ↦ ?_, fun hrec ↦ absurd hrec Bool.noConfusion⟩
  refine (mem_append.mp hsub).elim (hkept.flying sub) fun hsub ↦ ?_
  have hbuilding := hkept.building h.1
  rw [h.2, filter_nil, map_nil, append_nil] at hbuilding
  rw [mem_singleton.mp hsub]
  exact .inl hbuilding

theorem Kept.complete (hs : s.Sound) (hkept : Kept writes init s key) :
    Kept writes init (s.act writes .complete) key := by
  rcases hf : s.inFlight with _ | ⟨sub, rest⟩
  · simpa only [act, hf] using hkept
  · have hsub := hs.flying sub (hf ▸ mem_cons_self)
    have hinc := hs.increasing
    rw [hf, pairwise_cons] at hinc
    have hgap : ∀ e ∈ s.owed.forKey key, s.retired < e.seq → sub.seq ≤ e.seq := by
      intro e he hlt
      obtain h | ⟨other, hother, heq⟩ := hs.stamped e (mem_forKey_owed he) hlt
      · exact h ▸ hsub.2.1
      · rw [hf] at hother
        obtain rfl | hother := mem_cons.mp hother
        · exact heq.le
        · exact heq ▸ (hinc.1 other hother).le
    have hcarries := hkept.flying sub (hf ▸ mem_cons_self)
    have hnew := hkept.contents.complete (hs.forKey_ordered key) hcarries hsub.1 hgap
    simp only [act, hf]
    exact ⟨hnew, fun other hother ↦ hkept.flying other (hf ▸ mem_cons_of_mem _ hother),
      hkept.building⟩

theorem Kept.abort (hkept : Kept writes init s key) : Kept writes init (s.act writes .abort) key := by
  rcases hf : s.inFlight with _ | ⟨sub, rest⟩
  · simpa only [act, hf] using hkept
  · simp only [act, hf]
    exact ⟨Recovers.of_all hkept.contents.all fun _ _ hlt ↦ hlt,
      fun other hother ↦ hkept.flying other (hf ▸ mem_cons_of_mem _ hother), hkept.building⟩

theorem abandoned_mono (h : Step writes s t) (ht : t.abandoned = false) : s.abandoned = false := by
  obtain ⟨a, -, rfl⟩ := h
  cases a with
  | beginFrame seq coherentSeq => exact (abandoned_beginFrame ht).1
  | requeue => cases hh : s.hand <;> simpa only [act, hh] using ht
  | push k payload => exact ht
  | release coherentSeq => exact ht
  | submit => exact ht
  | complete => cases hf : s.inFlight <;> simpa only [act, hf] using ht
  | abort => cases hf : s.inFlight <;> simpa only [act, hf] using ht

theorem Kept.step (hs : s.Sound) (hkept : Kept writes init s key)
    (h : Step writes s t) (ht : t.abandoned = false) : Kept writes init t key := by
  obtain ⟨a, ha, rfl⟩ := h
  cases a with
  | beginFrame seq coherentSeq => exact hkept.beginFrame hs ha (abandoned_beginFrame ht).2
  | requeue => exact hkept.requeue
  | push k payload => exact hkept.push hs ha
  | release coherentSeq => exact hkept.release hs ha
  | submit => exact hkept.submit ha
  | complete => exact hkept.complete hs
  | abort => exact hkept.abort

theorem Initial.sound (h : s.Initial) : s.Sound := by
  have howed : s.owed.pending = [] := by simp [owed, h.queue, h.hand]
  constructor
  · simp [UploadRecoveryQueue.Ordered, howed]
  · simp [howed]
  · simp [howed]
  · simp [forKey, howed]
  · exact ⟨h.failed ▸ Nat.zero_le _, h.retired.le, fun hf ↦ absurd (hf.symm.trans h.recording) Bool.noConfusion⟩
  · simp [h.inFlight]
  · simp [h.inFlight]
  · intro _
    exact ⟨h.hand, fun hlt ↦ absurd h.retired hlt.ne⟩

theorem Initial.kept (h : s.Initial) (key : ℕ) : Kept writes s.memory s key := by
  have howed : s.owed.forKey key = [] := by simp [owed, forKey, h.queue, h.hand]
  constructor
  · rw [howed, h.pushed]
    exact Recovers.of_all rfl (by simp)
  · simp [h.inFlight]
  · intro hf
    exact absurd (hf.symm.trans h.recording) Bool.noConfusion

theorem kept_of_reaches (hs : s.Initial) (h : ReflTransGen (Step writes) s t) :
    t.Sound ∧ (t.abandoned = false → ∀ key, Kept writes s.memory t key) := by
  induction h with
  | refl => exact ⟨hs.sound, fun _ ↦ hs.kept⟩
  | tail _ hstep ih =>
    refine ⟨ih.1.step hstep, fun ht key ↦ ?_⟩
    exact (ih.2 (abandoned_mono hstep ht) key).step ih.1 hstep ht

def givenUp (q : UploadRecoveryQueue α) (coherentSeq failedSeq key : ℕ) : List (PendingUpload α) :=
  ((q.settle coherentSeq failedSeq).1.filter fun x ↦ x.1 = .abandoned ∧ x.2.key = key).map (·.2)

theorem filter_attempts_isPrefix {l : List (PendingUpload α)}
    (h : l.Pairwise fun a b ↦ b.attempts ≤ a.attempts) (n : ℕ) : l.filter (fun e ↦ n ≤ e.attempts) <+: l := by
  induction l with
  | nil => exact prefix_rfl
  | cons e l ih =>
    obtain ⟨he, hl⟩ := pairwise_cons.mp h
    by_cases hn : n ≤ e.attempts
    · rw [filter_cons_of_pos (by simpa using hn)]
      exact cons_prefix_cons.mpr ⟨rfl, ih hl⟩
    · have hnone : (e :: l).filter (fun e ↦ n ≤ e.attempts) = [] := by
        refine filter_eq_nil_iff.mpr fun x hx ↦ ?_
        obtain rfl | hx := mem_cons.mp hx
        · simpa using hn
        · have hle := he x hx
          simp only [decide_eq_true_eq]
          omega
      rw [hnone]
      exact nil_prefix

theorem givenUp_isPrefix (hq : q.Ordered)
    (h : (q.forKey key).Pairwise fun a b ↦ b.attempts ≤ a.attempts) (coherentSeq failedSeq : ℕ) :
    givenUp q coherentSeq failedSeq key <+: q.forKey key := by
  have hsplit : givenUp q coherentSeq failedSeq key =
      (((q.settle coherentSeq failedSeq).1.filter fun x ↦ x.2.key = key).filter
        fun x ↦ x.1 = .abandoned).map (·.2) := by
    simp [givenUp]
  by_cases hk : key ∈ q.poisonedKeys failedSeq
  · rw [hsplit, (settle_forKey_poisoned hq coherentSeq hk).2, filter_map,
      List.map_map]
    have hfate : (q.forKey key).filter
        ((fun x ↦ decide (x.1 = .abandoned)) ∘ fun e ↦ (fate e true, e)) =
          (q.forKey key).filter fun e ↦ maxReissueAttempts ≤ e.attempts := by
      refine filter_congr fun e _ ↦ ?_
      by_cases he : maxReissueAttempts ≤ e.attempts <;> simp [fate, he]
    rw [hfate]
    exact (map_id _).symm ▸ filter_attempts_isPrefix h maxReissueAttempts
  · have hreleased := (settle_forKey_clean hq coherentSeq hk).2
    have hnone : ((q.settle coherentSeq failedSeq).1.filter fun x ↦ x.2.key = key).filter
        (fun x ↦ x.1 = .abandoned) = [] := by
      refine filter_eq_nil_iff.mpr fun x hx ↦ ?_
      obtain ⟨hx, hkey⟩ := mem_filter.mp hx
      simp [hreleased x hx (by simpa using hkey)]
    rw [hsplit, hnone]
    exact nil_prefix

/-- An empty queue means every key holds its pushes in push order, with no copy left in flight; and
in every run the entries of a key that a settle gives up are its oldest. -/
theorem replay_reproduces_write_order {t : ReplaySystem α L V} (hs : s.Initial)
    (h : ReflTransGen (Step writes) s t) :
    (t.abandoned = false → t.hand = [] → t.queue.pending = [] → ∀ key,
      t.memory key = writeAll ((copiesTo t.pushed key).map writes) (s.memory key) ∧
        ∀ sub ∈ t.inFlight, copiesTo sub.copies key = []) ∧
    ∀ coherentSeq failedSeq key, givenUp t.queue coherentSeq failedSeq key <+: t.queue.forKey key := by
  obtain ⟨hsound, hkept⟩ := kept_of_reaches hs h
  constructor
  · intro hab hhand hqueue key
    have hkey := hkept hab key
    have hnil : t.owed.forKey key = [] := by simp [owed, forKey, hqueue, hhand]
    constructor
    · have hall := hkey.contents.all
      rwa [hnil] at hall
    · intro sub hsub
      refine eq_nil_iff_forall_not_mem.mpr fun p hp ↦ ?_
      have hmem := (hkey.flying sub hsub).mem hp
      simp [hnil] at hmem
  · intro coherentSeq failedSeq key
    have hattempts := hsound.attempts key
    rw [owed_forKey] at hattempts
    exact givenUp_isPrefix hsound.queue_ordered (pairwise_append.mp hattempts).1 coherentSeq failedSeq

def idleReplay : ReplaySystem ℕ Unit ℕ where
  queue := ⟨[]⟩
  hand := []
  recording := false
  frame := ⟨0, []⟩
  inFlight := []
  retired := 0
  failed := 0
  memory := fun _ _ ↦ 0
  pushed := []
  abandoned := false

def abortedOnce : List (ReplayAction ℕ) :=
  [.beginFrame 1 0, .push 5 7, .submit, .abort, .beginFrame 2 1, .requeue, .push 5 9, .submit, .complete,
    .release 2]

theorem replay_reproduces_aborted_upload :
    (abortedOnce.foldl (act fun v _ ↦ some v) idleReplay).memory 5 = fun _ ↦ 9 := by
  have hrun : Admissible Enabled (act fun v _ ↦ some v) idleReplay abortedOnce := by
    simp [Admissible, abortedOnce, Enabled, act, idleReplay, owedBy, settle,
      push, requeue, poisonedKeys,
      frontRun, stays, fate,
      maxReissueAttempts]
  have hinit : idleReplay.Initial := ⟨rfl, rfl, rfl, rfl, rfl, rfl, rfl, rfl, rfl⟩
  have h := (replay_reproduces_write_order hinit hrun.reaches).1 (by decide) (by rfl) (by rfl) 5
  exact h.1

end ReplaySystem

end Mtld3d
