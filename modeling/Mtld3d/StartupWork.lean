import Mathlib.Algebra.BigOperators.Group.List.Basic
import Mathlib.Algebra.Order.Group.Multiset
import Mathlib.Data.List.Sort
import Mathlib.Data.Multiset.Range
import Mathlib.Tactic.Abel
import Mtld3d.Lib.Slots

namespace Mtld3d

open List Lib

variable {T R : Type}

namespace StartupWork

def maxWorkers : ℕ := 8

/-- Where a run of the worker closure stands: before its stop test, its claim, its job or its append. -/
inductive Phase
  | test
  | claim
  | work (index : ℕ)
  | append
  | done
  deriving DecidableEq

structure Worker (R : Type) where
  phase : Phase
  completed : List (ℕ × R)

/-- Where the caller stands; while it joins, its own run of the closure is one of the workers. -/
inductive Caller (R : Type)
  | entry
  | spawnTest (next : ℕ)
  | spawn (next : ℕ)
  | joining
  | returned (results : List (ℕ × R))

structure Batch (R : Type) where
  stop : Bool
  next : ℕ
  results : List (ℕ × R)
  ran : List (ℕ × R)
  caller : Caller R
  workers : List (Worker R)

/-- One atomic step: the stop flag turning true, the caller's steps, and those of one worker. -/
inductive Action (R : Type)
  | raise
  | enter
  | spawnTest
  | spawn (created : Bool)
  | join
  | test (worker : ℕ)
  | claim (worker : ℕ)
  | work (worker : ℕ) (result : R)
  | append (worker : ℕ)

def workerCount (items : List T) (available : ℕ) : ℕ := min (min (max available 1) maxWorkers) items.length

namespace Batch

def start (stop : Bool) : Batch R := ⟨stop, 0, [], [], .entry, []⟩

def begin (b : Batch R) (caller : Caller R) : Batch R :=
  { b with caller, workers := b.workers ++ [⟨.test, []⟩] }

def sorted (results : List (ℕ × R)) : List (ℕ × R) := results.insertionSort fun a b ↦ a.1 ≤ b.1

def move (b : Batch R) (worker : ℕ) (phase : Phase) (completed : List (ℕ × R)) : Batch R :=
  { b with workers := b.workers.set worker ⟨phase, completed⟩ }

/-- `none` is a step the batch is not at. -/
def step (items : List T) (available : ℕ) (b : Batch R) : Action R → Option (Batch R)
  | .raise => some { b with stop := true }
  | .enter => match b.caller with
    | .entry => some { b with caller := if items.isEmpty || b.stop then .returned [] else .spawnTest 1 }
    | _ => none
  | .spawnTest => match b.caller with
    | .spawnTest next =>
      some (if next < workerCount items available ∧ b.stop = false then { b with caller := .spawn next }
        else b.begin .joining)
    | _ => none
  | .spawn created => match b.caller with
    | .spawn next => some (b.begin (if created then .spawnTest (next + 1) else .joining))
    | _ => none
  | .join => match b.caller with
    | .joining =>
      if b.workers.all fun w ↦ w.phase = .done then some { b with caller := .returned (sorted b.results) } else none
    | _ => none
  | .test worker => match b.workers[worker]? with
    | some ⟨.test, completed⟩ => some (b.move worker (if b.stop then .append else .claim) completed)
    | _ => none
  | .claim worker => match b.workers[worker]? with
    | some ⟨.claim, completed⟩ =>
      some { b.move worker (if b.next < items.length then .work b.next else .append) completed with
        next := b.next + 1 }
    | _ => none
  | .work worker result => match b.workers[worker]? with
    | some ⟨.work index, completed⟩ =>
      some { b.move worker .test (completed ++ [(index, result)]) with ran := b.ran ++ [(index, result)] }
    | _ => none
  | .append worker => match b.workers[worker]? with
    | some ⟨.append, completed⟩ => some { b.move worker .done [] with results := b.results ++ completed }
    | _ => none

def run (items : List T) (available : ℕ) (b : Batch R) (actions : List (Action R)) : Option (Batch R) :=
  actions.foldlM (step items available) b

end Batch

def Worker.inFlight (w : Worker R) : Multiset ℕ :=
  match w.phase with
  | .work index => {index}
  | _ => 0

def Worker.kept (w : Worker R) : Multiset (ℕ × R) := w.completed

namespace Batch

def inFlight (b : Batch R) : Multiset ℕ := (b.workers.map Worker.inFlight).sum

def kept (b : Batch R) : Multiset (ℕ × R) := (b.workers.map Worker.kept).sum

/-- What the caller was given: jobs `0` to `k - 1` in order, each run once and no other, all of them unless the
batch was stopped. -/
def InOrder (items : List T) (b : Batch R) (results : List (ℕ × R)) : Prop :=
  ∃ k, results.map Prod.fst = List.range k ∧ b.ran.Perm results ∧ k ≤ items.length ∧
    (b.stop = false → k = items.length)

/-- What holds at each point of the caller. -/
def CallerFits (items : List T) (available : ℕ) (b : Batch R) : Caller R → Prop
  | .entry => b.workers = [] ∧ b.next = 0
  | .spawnTest _ => True
  | .spawn next => next < workerCount items available
  | .joining => b.workers ≠ []
  | .returned results => b.InOrder items results ∧ ∀ w ∈ b.workers, w.phase = .done

/-- Every claimed job is in flight or was run, every result is kept or appended, and no worker ends before the
stop or the last claim. -/
structure Inv (items : List T) (available : ℕ) (b : Batch R) : Prop where
  claimed : b.inFlight + (b.ran.map Prod.fst : List ℕ) = Multiset.range (min b.next items.length)
  ran : (b.ran : Multiset (ℕ × R)) = b.results + b.kept
  ended : ∀ w ∈ b.workers, w.phase = .append ∨ w.phase = .done → b.stop = true ∨ items.length ≤ b.next
  emptied : ∀ w ∈ b.workers, w.phase = .done → w.completed = []
  caller : b.CallerFits items available b.caller

variable {items : List T} {available : ℕ} {b b' : Batch R}

theorem inv_start (items : List T) (available : ℕ) (stop : Bool) : (start stop : Batch R).Inv items available where
  claimed := by simp [start, inFlight]
  ran := rfl
  ended _ hw := absurd hw not_mem_nil
  emptied _ hw := absurd hw not_mem_nil
  caller := ⟨rfl, rfl⟩

theorem Inv.begin (h : b.Inv items available) {caller : Caller R}
    (hcaller : (b.begin caller).CallerFits items available caller) : (b.begin caller).Inv items available where
  claimed := by simpa [Batch.begin, inFlight, Worker.inFlight] using h.claimed
  ran := by simpa [Batch.begin, kept, Worker.kept] using h.ran
  ended w hw hphase := by
    obtain hw | hw := mem_append.mp hw
    · exact h.ended w hw hphase
    · obtain rfl := mem_singleton.mp hw
      simp at hphase
  emptied w hw hphase := by
    obtain hw | hw := mem_append.mp hw
    · exact h.emptied w hw hphase
    · rw [mem_singleton.mp hw]
  caller := hcaller

theorem Inv.stops (h : b.Inv items available) : ({ b with stop := true } : Batch R).Inv items available where
  claimed := h.claimed
  ran := h.ran
  ended _ _ _ := .inl rfl
  emptied := h.emptied
  caller := by
    have hcaller := h.caller
    revert hcaller
    cases b.caller with
    | returned results =>
      rintro ⟨⟨k, hkeys, hran, hle, -⟩, hdone⟩
      exact ⟨⟨k, hkeys, hran, hle, fun hstop ↦ nomatch hstop⟩, hdone⟩
    | _ => exact id

theorem callerFits_move {worker : ℕ} {x y : Worker R} (h : b.CallerFits items available b.caller)
    (hget : b.workers[worker]? = some x) (hphase : x.phase ≠ .done) (hcaller : b'.caller = b.caller)
    (hworkers : b'.workers = b.workers.set worker y) : b'.CallerFits items available b'.caller := by
  have hmem : x ∈ b.workers := mem_of_getElem? hget
  rw [hcaller]
  revert h
  cases b.caller with
  | entry => exact fun h ↦ absurd hmem (h.1 ▸ not_mem_nil)
  | spawnTest => exact id
  | spawn => exact id
  | joining =>
    rintro - hnil
    rw [hworkers, set_eq_nil_iff] at hnil
    exact absurd hmem (hnil ▸ not_mem_nil)
  | returned => exact fun h ↦ absurd (h.2 x hmem) hphase

theorem sum_split {α M : Type} [AddCommMonoid M] (f : α → M) (before after : List α) (a : α) :
    ((before ++ a :: after).map f).sum = f a + ((before ++ after).map f).sum := by
  simp [add_left_comm]

theorem Inv.move {worker : ℕ} {x y : Worker R} (h : b.Inv items available) (hget : b.workers[worker]? = some x)
    (hphase : x.phase ≠ .done) (hcaller : b'.caller = b.caller) (hworkers : b'.workers = b.workers.set worker y)
    (hstop : b'.stop = b.stop) (hnext : b.next ≤ b'.next)
    (hclaimed : ∀ rest, x.inFlight + rest + (b.ran.map Prod.fst : List ℕ) = Multiset.range (min b.next items.length) →
      y.inFlight + rest + (b'.ran.map Prod.fst : List ℕ) = Multiset.range (min b'.next items.length))
    (hran : ∀ rest, (b.ran : Multiset (ℕ × R)) = b.results + (x.kept + rest) →
      (b'.ran : Multiset (ℕ × R)) = b'.results + (y.kept + rest))
    (hended : y.phase = .append ∨ y.phase = .done → b'.stop = true ∨ items.length ≤ b'.next)
    (hemptied : y.phase = .done → y.completed = []) : b'.Inv items available := by
  obtain ⟨before, after, hsplit, hset⟩ := exists_set hget
  have hmem : ∀ w ∈ b'.workers, w = y ∨ w ∈ b.workers := by
    intro w hw
    rw [hworkers, hset] at hw
    rw [hsplit]
    simp only [mem_append, mem_cons] at hw ⊢
    tauto
  refine ⟨?_, ?_, fun w hw hend ↦ ?_, fun w hw hdone ↦ ?_, callerFits_move h.caller hget hphase hcaller hworkers⟩
  · have hwas := h.claimed
    rw [inFlight, hsplit, sum_split] at hwas
    rw [inFlight, hworkers, hset, sum_split]
    exact hclaimed _ hwas
  · have hwas := h.ran
    rw [kept, hsplit, sum_split] at hwas
    rw [kept, hworkers, hset, sum_split]
    exact hran _ hwas
  · obtain rfl | hw := hmem w hw
    · exact hended hend
    · rw [hstop]
      exact (h.ended w hw hend).imp_right hnext.trans'
  · obtain rfl | hw := hmem w hw
    · exact hemptied hdone
    · exact h.emptied w hw hdone

/-- Steps a worker may still take in the iteration it is in. -/
def weightOf (w : Worker R) : ℕ :=
  match w.phase with
  | .done => 0
  | .append => 1
  | .claim => 2
  | .test => 3
  | .work _ => 4

def callerWeight (workers : ℕ) : Caller R → ℕ
  | .entry => 5 * workers + 6
  | .spawnTest next => 5 * (workers - next) + 5
  | .spawn next => 5 * (workers - next) + 4
  | .joining => 1
  | .returned _ => 0

/-- A bound on the steps left, the stop flag's own apart. -/
def weight (items : List T) (available : ℕ) (b : Batch R) : ℕ :=
  3 * (items.length - b.next) + (b.workers.map weightOf).sum + callerWeight (workerCount items available) b.caller

theorem weight_begin (caller : Caller R) : (b.begin caller).weight items available =
    3 * (items.length - b.next) + (b.workers.map weightOf).sum + 3 +
      callerWeight (workerCount items available) caller := by
  simp [weight, Batch.begin, weightOf, add_assoc]

theorem weight_move {worker : ℕ} {x y : Worker R} (hget : b.workers[worker]? = some x)
    (hcaller : b'.caller = b.caller) (hworkers : b'.workers = b.workers.set worker y)
    (hless : 3 * (items.length - b'.next) + weightOf y + 1 ≤ 3 * (items.length - b.next) + weightOf x) :
    b'.weight items available + 1 ≤ b.weight items available := by
  obtain ⟨before, after, hsplit, hset⟩ := exists_set hget
  rw [weight, weight, hcaller, hworkers, hset, hsplit, sum_split, sum_split]
  omega

theorem sorted_in_order {results : List (ℕ × R)} {k : ℕ}
    (hkeys : ((results.map Prod.fst : List ℕ) : Multiset ℕ) = Multiset.range k) :
    (sorted results).map Prod.fst = List.range k ∧ results.Perm (sorted results) := by
  have hperm : (sorted results).Perm results := perm_insertionSort _ _
  have htotal : Std.Total fun a b : ℕ × R ↦ a.1 ≤ b.1 := ⟨fun a b ↦ le_total a.1 b.1⟩
  have htrans : IsTrans (ℕ × R) fun a b ↦ a.1 ≤ b.1 := ⟨fun _ _ _ ↦ le_trans⟩
  have hsorted : (sorted results).Pairwise fun a b ↦ a.1 ≤ b.1 := pairwise_insertionSort _ _
  have hrange : ((sorted results).map Prod.fst).Perm (List.range k) :=
    (hperm.map _).trans (Multiset.coe_eq_coe.mp hkeys)
  refine ⟨hrange.eq_of_pairwise (fun _ _ _ _ ↦ le_antisymm) (pairwise_map.mpr hsorted) ?_, hperm.symm⟩
  exact pairwise_lt_range.imp le_of_lt

/-- When every run of the closure has ended, what was appended is the jobs up to the last claim, in order. -/
theorem Inv.inOrder (h : b.Inv items available) (hne : b.workers ≠ []) (hdone : ∀ w ∈ b.workers, w.phase = .done) :
    b.InOrder items (sorted b.results) := by
  have hidle : b.inFlight = 0 := by
    refine sum_eq_zero fun x hx ↦ ?_
    obtain ⟨w, hw, rfl⟩ := mem_map.mp hx
    rw [Worker.inFlight, hdone w hw]
  have hempty : b.kept = 0 := by
    refine sum_eq_zero fun x hx ↦ ?_
    obtain ⟨w, hw, rfl⟩ := mem_map.mp hx
    rw [Worker.kept, h.emptied w hw (hdone w hw)]
    rfl
  have hran : b.ran.Perm b.results := by
    have hran := h.ran
    rw [hempty, add_zero] at hran
    exact Multiset.coe_eq_coe.mp hran
  have hkeys := h.claimed
  rw [hidle, zero_add] at hkeys
  obtain ⟨hrange, hperm⟩ := sorted_in_order
    ((Multiset.coe_eq_coe.mpr (hran.map Prod.fst)).symm.trans hkeys)
  refine ⟨_, hrange, hran.trans hperm, min_le_right _ _, fun hstop ↦ ?_⟩
  obtain ⟨w, hw⟩ := exists_mem_of_ne_nil _ hne
  obtain hstopped | hclaimed := h.ended w hw (.inr (hdone w hw))
  · cases hstop.symm.trans hstopped
  · exact min_eq_right hclaimed

def cost : Action R → ℕ
  | .raise => 0
  | _ => 1

theorem Inv.enter (h : b.Inv items available) (hcaller : b.caller = .entry) :
    let b' := { b with caller := if items.isEmpty || b.stop then .returned [] else .spawnTest 1 }
    b'.Inv items available ∧ b'.weight items available + 1 ≤ b.weight items available := by
  have hentry := h.caller
  rw [hcaller] at hentry
  obtain ⟨hworkers, hnext⟩ := hentry
  have hran : b.ran = [] := by
    have hclaimed := h.claimed
    rw [inFlight, hworkers, hnext] at hclaimed
    simpa using hclaimed
  refine ⟨{ h with caller := ?_ }, ?_⟩
  · dsimp only
    split_ifs with hleave
    · refine ⟨⟨0, rfl, hran ▸ .refl _, Nat.zero_le _, fun hstop ↦ ?_⟩, fun w hw ↦ ?_⟩
      · dsimp only at hstop
        rw [hstop, Bool.or_false, List.isEmpty_iff] at hleave
        rw [hleave]
        rfl
      · dsimp only at hw
        rw [hworkers] at hw
        cases hw
    · trivial
  · simp only [weight, hcaller, callerWeight]
    split_ifs
    · dsimp only
      omega
    · dsimp only
      omega

/-- What one step keeps, and what it takes off the weight. -/
def Advances (items : List T) (available : ℕ) (b : Batch R) (action : Action R) (b' : Batch R) : Prop :=
  b'.Inv items available ∧ b'.weight items available + cost action ≤ b.weight items available

theorem Inv.spawnTest (h : b.Inv items available)
    (hstep : b.step items available .spawnTest = some b') : b.Advances items available .spawnTest b' := by
  rw [Batch.step] at hstep
  split at hstep
  · next next hcaller =>
    obtain rfl := Option.some.inj hstep
    split_ifs with hmore
    · refine ⟨{ h with caller := hmore.1 }, ?_⟩
      simp only [weight, hcaller, callerWeight, cost]
      omega
    · refine ⟨h.begin (append_ne_nil_of_right_ne_nil _ (cons_ne_nil _ _)), ?_⟩
      rw [weight_begin, weight, hcaller]
      simp only [callerWeight, cost]
      omega
  · cases hstep

theorem Inv.spawn (h : b.Inv items available) {created : Bool}
    (hstep : b.step items available (.spawn created) = some b') : b.Advances items available (.spawn created) b' := by
  rw [Batch.step] at hstep
  split at hstep
  · next next hcaller =>
    obtain rfl := Option.some.inj hstep
    have hmore : next < workerCount items available := by
      have hfits := h.caller
      rw [hcaller] at hfits
      exact hfits
    cases created with
    | true =>
      refine ⟨h.begin trivial, ?_⟩
      rw [weight_begin, weight, hcaller]
      simp only [callerWeight, cost, if_true]
      omega
    | false =>
      refine ⟨h.begin (append_ne_nil_of_right_ne_nil _ (cons_ne_nil _ _)), ?_⟩
      rw [weight_begin, weight, hcaller]
      simp only [callerWeight, cost, Bool.false_eq_true, if_false]
      omega
  · cases hstep

theorem Inv.join (h : b.Inv items available)
    (hstep : b.step items available .join = some b') : b.Advances items available .join b' := by
  rw [Batch.step] at hstep
  split at hstep
  · next hcaller =>
    split_ifs at hstep with hall
    obtain rfl := Option.some.inj hstep
    have hfits := h.caller
    rw [hcaller] at hfits
    have hdone : ∀ w ∈ b.workers, w.phase = .done := fun w hw ↦
      of_decide_eq_true (all_eq_true.mp hall w hw)
    refine ⟨{ h with caller := ⟨h.inOrder hfits hdone, hdone⟩ }, ?_⟩
    simp only [weight, hcaller, callerWeight, cost]
    omega
  · cases hstep

theorem Inv.test (h : b.Inv items available) {worker : ℕ}
    (hstep : b.step items available (.test worker) = some b') : b.Advances items available (.test worker) b' := by
  rw [Batch.step] at hstep
  split at hstep
  · next completed hget =>
    obtain rfl := Option.some.inj hstep
    refine ⟨h.move hget (by simp) rfl rfl rfl le_rfl ?_ (fun _ hran ↦ hran) ?_ ?_, weight_move hget rfl rfl ?_⟩
    all_goals cases hstop : b.stop
    all_goals simp [Worker.inFlight, weightOf, Batch.move, hstop]
  · cases hstep

theorem Inv.claim (h : b.Inv items available) {worker : ℕ}
    (hstep : b.step items available (.claim worker) = some b') : b.Advances items available (.claim worker) b' := by
  rw [Batch.step] at hstep
  split at hstep
  · next completed hget =>
    obtain rfl := Option.some.inj hstep
    refine ⟨h.move hget (by simp) rfl rfl rfl (Nat.le_succ _) (fun rest hrest ↦ ?_) (fun _ hran ↦ hran) ?_ ?_,
      weight_move hget rfl rfl ?_⟩
    · have hrest : rest + (b.ran.map Prod.fst : List ℕ) = Multiset.range (min b.next items.length) := by
        simpa [Worker.inFlight] using hrest
      by_cases hlt : b.next < items.length
      · rw [min_eq_left hlt.le] at hrest
        rw [if_pos hlt, min_eq_left hlt, Multiset.range_succ, ← hrest, add_assoc]
        exact Multiset.singleton_add _ _
      · rw [min_eq_right (not_lt.mp hlt)] at hrest
        rw [if_neg hlt, min_eq_right (by dsimp only; omega), ← hrest, add_assoc]
        exact zero_add _
    · dsimp only
      split_ifs with hlt
      · simp
      · exact fun _ ↦ .inr (by omega)
    · dsimp only
      split_ifs <;> simp
    · dsimp only
      split_ifs with hlt
      · simp only [weightOf]
        omega
      · simp only [weightOf]
        omega
  · cases hstep

theorem Inv.work (h : b.Inv items available) {worker : ℕ} {result : R}
    (hstep : b.step items available (.work worker result) = some b') : b.Advances items available (.work worker result) b' := by
  rw [Batch.step] at hstep
  split at hstep
  · next index completed hget =>
    obtain rfl := Option.some.inj hstep
    refine ⟨h.move hget (by simp) rfl rfl rfl le_rfl (fun rest hrest ↦ ?_) (fun rest hran ↦ ?_) ?_ ?_,
      weight_move hget rfl rfl ?_⟩
    · dsimp only [Batch.move]
      rw [← hrest, map_append, ← Multiset.coe_add]
      show 0 + rest + (_ + {index}) = {index} + rest + _
      abel
    · dsimp only [Worker.kept] at hran ⊢
      rw [← Multiset.coe_add, ← Multiset.coe_add, hran]
      simp only [Batch.move]
      abel
    · simp
    · simp
    · simp [weightOf, Batch.move]
  · cases hstep

theorem Inv.append (h : b.Inv items available) {worker : ℕ}
    (hstep : b.step items available (.append worker) = some b') : b.Advances items available (.append worker) b' := by
  rw [Batch.step] at hstep
  split at hstep
  · next completed hget =>
    obtain rfl := Option.some.inj hstep
    refine ⟨h.move hget (by simp) rfl rfl rfl le_rfl (fun rest hrest ↦ hrest) (fun rest hran ↦ ?_) ?_ ?_,
      weight_move hget rfl rfl ?_⟩
    · dsimp only [Worker.kept, Batch.move] at hran ⊢
      rw [hran, ← Multiset.coe_add, Multiset.coe_nil, zero_add, add_assoc]
    · exact fun _ ↦ h.ended _ (mem_of_getElem? hget) (.inl rfl)
    · exact fun _ ↦ rfl
    · simp [weightOf, Batch.move]
  · cases hstep

theorem Inv.step (h : b.Inv items available) {action : Action R} (hstep : b.step items available action = some b') :
    b.Advances items available action b' := by
  cases action with
  | raise =>
    obtain rfl := Option.some.inj hstep
    exact ⟨h.stops, le_rfl⟩
  | enter =>
    rw [Batch.step] at hstep
    split at hstep
    · next hcaller =>
      obtain rfl := Option.some.inj hstep
      exact h.enter hcaller
    · cases hstep
  | spawnTest => exact h.spawnTest hstep
  | spawn created => exact h.spawn hstep
  | join => exact h.join hstep
  | test worker => exact h.test hstep
  | claim worker => exact h.claim hstep
  | work worker result => exact h.work hstep
  | append worker => exact h.append hstep

theorem Inv.run (h : b.Inv items available) {actions : List (Action R)}
    (hrun : b.run items available actions = some b') : b'.Inv items available ∧
      b'.weight items available + (actions.map cost).sum ≤ b.weight items available := by
  induction actions generalizing b with
  | nil =>
    obtain rfl := Option.some.inj hrun
    exact ⟨h, le_rfl⟩
  | cons action actions ih =>
    rw [Batch.run, foldlM_cons] at hrun
    obtain ⟨b₁, hstep, hrest⟩ := Option.bind_eq_some_iff.mp hrun
    obtain ⟨h₁, hless⟩ := h.step hstep
    obtain ⟨h', hbound⟩ := ih h₁ hrest
    refine ⟨h', ?_⟩
    rw [map_cons, sum_cons]
    omega

/-- Until the caller has its results, some step other than the flag's can be taken. -/
theorem progress (hcaller : ∀ results, b.caller ≠ .returned results) (result : R) :
    ∃ action, cost action = 1 ∧ (b.step items available action).isSome := by
  cases hphase : b.caller with
  | entry => exact ⟨.enter, rfl, by simp [Batch.step, hphase]⟩
  | spawnTest next => exact ⟨.spawnTest, rfl, by simp [Batch.step, hphase]⟩
  | spawn next => exact ⟨.spawn true, rfl, by simp [Batch.step, hphase]⟩
  | returned results => exact absurd hphase (hcaller results)
  | joining =>
    -- A worker that is not done has a step of its own; when all are done the caller joins.
    by_cases hall : b.workers.all fun w ↦ w.phase = .done
    · exact ⟨.join, rfl, by simp [Batch.step, hphase, hall]⟩
    · obtain ⟨w, hw, hbusy⟩ : ∃ w ∈ b.workers, w.phase ≠ .done := by simpa using hall
      obtain ⟨worker, hget⟩ := mem_iff_getElem?.mp hw
      obtain ⟨phase, completed⟩ := w
      cases phase with
      | test => exact ⟨.test worker, rfl, by simp [Batch.step, hget]⟩
      | claim => exact ⟨.claim worker, rfl, by simp [Batch.step, hget]⟩
      | work index => exact ⟨.work worker result, rfl, by simp [Batch.step, hget]⟩
      | append => exact ⟨.append worker, rfl, by simp [Batch.step, hget]⟩
      | done => exact absurd rfl hbusy

end Batch

/-- However the workers' steps interleave, wherever spawning fails and whenever the stop flag turns true: the
batch takes a bounded number of steps, never stands still before the caller returns, and what the caller returns
is jobs `0` to `k - 1` in order, each run once and no other, with `k` the number of jobs unless it was stopped. -/
theorem startup_batch_in_order (items : List T) (available : ℕ) (stop : Bool) :
    ∃ bound, ∀ (actions : List (Action R)) (b : Batch R),
      (Batch.start stop).run items available actions = some b →
      (actions.map Batch.cost).sum ≤ bound ∧
      ((∀ results, b.caller ≠ .returned results) → ∀ _ : R, ∃ action, Batch.cost action = 1 ∧
        (b.step items available action).isSome) ∧
      ∀ results, b.caller = .returned results → ∃ k, results.map Prod.fst = List.range k ∧ b.ran.Perm results ∧
        k ≤ items.length ∧ (b.stop = false → k = items.length) := by
  refine ⟨(Batch.start stop : Batch R).weight items available, fun actions b hrun ↦ ?_⟩
  obtain ⟨h, hbound⟩ := (Batch.inv_start items available stop).run hrun
  refine ⟨by omega, Batch.progress, fun results hreturned ↦ ?_⟩
  have hfits := h.caller
  rw [hreturned] at hfits
  exact hfits.1

end StartupWork

end Mtld3d
