import Mathlib.Data.List.TakeWhile
import Mathlib.Tactic.Common

namespace Mtld3d

open List

def maxReissueAttempts : ℕ := 3

inductive UploadFate
  | released
  | reissue
  | abandoned
  deriving DecidableEq, Repr

structure PendingUpload (α : Type) where
  key : ℕ
  seq : ℕ
  attempts : ℕ
  payload : α

structure UploadRecoveryQueue (α : Type) where
  pending : List (PendingUpload α)

namespace UploadRecoveryQueue

variable {α : Type}

def push (q : UploadRecoveryQueue α) (key seq : ℕ) (payload : α) : UploadRecoveryQueue α :=
  ⟨q.pending ++ [⟨key, seq, 0, payload⟩]⟩

def requeue (q : UploadRecoveryQueue α) (entry : PendingUpload α) (reissueSeq : ℕ) : UploadRecoveryQueue α :=
  ⟨q.pending ++ [⟨entry.key, reissueSeq, min (entry.attempts + 1) 255, entry.payload⟩]⟩

def poisonedKeys (q : UploadRecoveryQueue α) (failedSeq : ℕ) : List ℕ :=
  if failedSeq = 0 then [] else (q.pending.filter fun e ↦ e.seq ≤ failedSeq).map (·.key)

def frontRun (q : UploadRecoveryQueue α) (keep : PendingUpload α → Bool) : ℕ :=
  (q.pending.takeWhile keep).length

def fate (entry : PendingUpload α) (owed : Bool) : UploadFate :=
  if !owed then .released
  else if maxReissueAttempts ≤ entry.attempts then .abandoned
  else .reissue

def stays (q : UploadRecoveryQueue α) (coherentSeq failedSeq : ℕ) (e : PendingUpload α) : Bool :=
  !(q.poisonedKeys failedSeq).contains e.key && decide (coherentSeq < e.seq)

def settle (q : UploadRecoveryQueue α) (coherentSeq failedSeq : ℕ) :
    List (UploadFate × PendingUpload α) × UploadRecoveryQueue α :=
  let poisoned := q.poisonedKeys failedSeq
  if poisoned.isEmpty then
    let retired := q.frontRun fun e ↦ e.seq ≤ coherentSeq
    ((q.pending.take retired).map fun e ↦ (.released, e), ⟨q.pending.drop retired⟩)
  else
    ((q.pending.filter fun e ↦ !q.stays coherentSeq failedSeq e).map
        fun e ↦ (fate e (poisoned.contains e.key), e),
      ⟨q.pending.filter (q.stays coherentSeq failedSeq)⟩)

def releaseAcknowledged (q : UploadRecoveryQueue α) (coherentSeq failedSeq : ℕ) :
    List (PendingUpload α) × UploadRecoveryQueue α :=
  let clean := q.frontRun fun e ↦ decide (e.seq ≤ coherentSeq) && decide (failedSeq < e.seq)
  (q.pending.take clean, ⟨q.pending.drop clean⟩)

def forKey (q : UploadRecoveryQueue α) (key : ℕ) : List (PendingUpload α) :=
  q.pending.filter fun e ↦ e.key = key

def Ordered (q : UploadRecoveryQueue α) : Prop := q.pending.Pairwise fun a b ↦ a.seq ≤ b.seq

variable {q : UploadRecoveryQueue α}

theorem mem_forKey {key : ℕ} {e : PendingUpload α} :
    e ∈ q.forKey key ↔ e ∈ q.pending ∧ e.key = key := by simp [forKey]

@[simp] theorem forKey_push (q : UploadRecoveryQueue α) (key k seq : ℕ) (payload : α) :
    (q.push k seq payload).forKey key = q.forKey key ++ if k = key then [⟨k, seq, 0, payload⟩] else [] := by
  by_cases h : k = key <;> simp [forKey, push, h]

variable {failedSeq key : ℕ}

theorem mem_poisonedKeys :
    key ∈ q.poisonedKeys failedSeq ↔ failedSeq ≠ 0 ∧ ∃ e ∈ q.forKey key, e.seq ≤ failedSeq := by
  unfold poisonedKeys
  split_ifs with h
  · simp [h]
  · simp only [mem_map, mem_filter, decide_eq_true_eq, mem_forKey]
    constructor
    · rintro ⟨e, ⟨he, hs⟩, rfl⟩
      exact ⟨h, e, ⟨he, rfl⟩, hs⟩
    · rintro ⟨-, e, ⟨he, hk⟩, hs⟩
      exact ⟨e, ⟨he, hs⟩, hk⟩

theorem take_frontRun (q : UploadRecoveryQueue α) (keep : PendingUpload α → Bool) :
    q.pending.take (q.frontRun keep) = q.pending.takeWhile keep :=
  (prefix_iff_eq_take.mp (List.takeWhile_prefix keep)).symm

theorem forKey_eq_take_append_drop (q : UploadRecoveryQueue α) (n key : ℕ) : q.forKey key =
      (q.pending.take n).filter (fun e ↦ e.key = key) ++ forKey ⟨q.pending.drop n⟩ key := by
  unfold forKey
  rw [← filter_append, take_append_drop]

theorem releaseAcknowledged_forKey (q : UploadRecoveryQueue α) (coherentSeq failedSeq key : ℕ) :
    ∃ gone, q.forKey key = gone ++ (q.releaseAcknowledged coherentSeq failedSeq).2.forKey key ∧
      ∀ e ∈ gone, e.seq ≤ coherentSeq ∧ failedSeq < e.seq := by
  refine ⟨_, q.forKey_eq_take_append_drop _ key, fun e he ↦ ?_⟩
  rw [q.take_frontRun, mem_filter] at he
  simpa using mem_takeWhile_imp he.1

theorem releaseAcknowledged_sublist (q : UploadRecoveryQueue α) (coherentSeq failedSeq : ℕ) :
    (q.releaseAcknowledged coherentSeq failedSeq).2.pending.Sublist q.pending :=
  drop_sublist _ _

theorem split_at_seq {l : List (PendingUpload α)} (hl : l.Pairwise fun a b ↦ a.seq ≤ b.seq) (n : ℕ) :
    l.takeWhile (fun e ↦ e.seq ≤ n) = l.filter (fun e ↦ e.seq ≤ n) ∧
      l = l.filter (fun e ↦ e.seq ≤ n) ++ l.filter (fun e ↦ n < e.seq) := by
  induction l with
  | nil => exact ⟨rfl, rfl⟩
  | cons a l ih =>
    obtain ⟨ha, hl⟩ := pairwise_cons.mp hl
    obtain ⟨ih₁, ih₂⟩ := ih hl
    by_cases h : a.seq ≤ n
    · have h' : ¬ n < a.seq := by omega
      exact ⟨by simp [h, ih₁], by simpa [h, h'] using ih₂⟩
    · have h' : n < a.seq := by omega
      have hlate : ∀ e ∈ l, n < e.seq := fun e he ↦ h'.trans_le (ha e he)
      have hnone : l.filter (fun e ↦ e.seq ≤ n) = [] :=
        filter_eq_nil_iff.mpr fun e he ↦ by simpa using hlate e he
      have hall : l.filter (fun e ↦ n < e.seq) = l :=
        filter_eq_self.mpr fun e he ↦ by simpa using hlate e he
      exact ⟨by simp [h, hnone], by simp [h, h', hnone, hall]⟩

theorem settle_eq (hq : q.Ordered) (coherentSeq failedSeq : ℕ) : q.settle coherentSeq failedSeq =
      ((q.pending.filter fun e ↦ !q.stays coherentSeq failedSeq e).map
          fun e ↦ (fate e ((q.poisonedKeys failedSeq).contains e.key), e),
        ⟨q.pending.filter (q.stays coherentSeq failedSeq)⟩) := by
  unfold settle
  by_cases hp : (q.poisonedKeys failedSeq).isEmpty
  · have hnil : q.poisonedKeys failedSeq = [] := isEmpty_iff.mp hp
    obtain ⟨htake, hsplit⟩ := split_at_seq hq coherentSeq
    have hdrop : q.pending.drop (q.frontRun fun e ↦ e.seq ≤ coherentSeq) =
        q.pending.filter (fun e ↦ coherentSeq < e.seq) := by
      have h := take_append_drop (q.frontRun fun e ↦ e.seq ≤ coherentSeq) q.pending
      rw [q.take_frontRun, htake] at h
      exact append_cancel_left (h.trans hsplit)
    have hstays : q.stays coherentSeq failedSeq = fun e ↦ decide (coherentSeq < e.seq) := by
      funext e
      simp [stays, hnil]
    simp only [hnil, isEmpty_nil, if_true, q.take_frontRun, htake, hdrop, hstays]
    simp [fate, ← decide_not]
  · simp [hp]

theorem settle_sublist (hq : q.Ordered) (coherentSeq failedSeq : ℕ) :
    (q.settle coherentSeq failedSeq).2.pending.Sublist q.pending := by
  rw [settle_eq hq]
  exact filter_sublist

theorem settle_forKey_poisoned (hq : q.Ordered) (coherentSeq : ℕ) (hk : key ∈ q.poisonedKeys failedSeq) :
    (q.settle coherentSeq failedSeq).2.forKey key = [] ∧
      (q.settle coherentSeq failedSeq).1.filter (fun x ↦ x.2.key = key) =
        (q.forKey key).map fun e ↦ (fate e true, e) := by
  have hc : (q.poisonedKeys failedSeq).contains key = true := contains_iff_mem.mpr hk
  rw [settle_eq hq]
  constructor
  · refine filter_eq_nil_iff.mpr fun e he ↦ ?_
    have hs := (mem_filter.mp he).2
    rintro hek
    simp only [decide_eq_true_eq] at hek
    simp [stays, hek, hk] at hs
  · rw [filter_map, filter_filter]
    have hf : ∀ e ∈ q.forKey key, (fate e ((q.poisonedKeys failedSeq).contains e.key), e) = (fate e true, e) :=
      fun e he ↦ by rw [(mem_forKey.mp he).2, hc]
    rw [← map_congr_left hf, forKey]
    congr 1
    refine filter_congr fun e _ ↦ ?_
    by_cases he : e.key = key <;> simp [stays, he, hk]

theorem settle_forKey_clean (hq : q.Ordered) (coherentSeq : ℕ) (hk : key ∉ q.poisonedKeys failedSeq) :
    (∃ gone, q.forKey key = gone ++ (q.settle coherentSeq failedSeq).2.forKey key ∧
        ∀ e ∈ gone, e.seq ≤ coherentSeq ∧ (failedSeq ≠ 0 → failedSeq < e.seq)) ∧
      ∀ x ∈ (q.settle coherentSeq failedSeq).1, x.2.key = key → x.1 = .released := by
  have hkeep : (q.settle coherentSeq failedSeq).2.forKey key =
      (q.forKey key).filter (fun e ↦ coherentSeq < e.seq) := by
    rw [settle_eq hq]
    simp only [forKey, filter_filter]
    refine filter_congr fun e _ ↦ ?_
    by_cases he : e.key = key <;> simp [stays, he, hk]
  constructor
  · refine ⟨(q.forKey key).filter (fun e ↦ e.seq ≤ coherentSeq), ?_, fun e he ↦ ?_⟩
    · rw [hkeep]
      exact (split_at_seq (hq.filter _) coherentSeq).2
    · obtain ⟨he, hs⟩ := mem_filter.mp he
      refine ⟨by simpa using hs, fun hf ↦ ?_⟩
      by_contra hle
      exact hk (mem_poisonedKeys.mpr ⟨hf, e, he, by omega⟩)
  · intro x hx hxk
    rw [settle_eq hq] at hx
    obtain ⟨e, -, rfl⟩ := mem_map.mp hx
    simp only at hxk
    simp [hxk, hk, fate]

end UploadRecoveryQueue

end Mtld3d
