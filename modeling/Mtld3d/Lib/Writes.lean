import Mathlib.Data.List.Basic

namespace Mtld3d.Lib

variable {L V : Type}

def write (w : L → Option V) (f : L → V) (l : L) : V := (w l).getD (f l)

def writeAll (ws : List (L → Option V)) (f : L → V) : L → V := ws.foldl (fun g w ↦ write w g) f

@[simp] theorem writeAll_nil (f : L → V) : writeAll [] f = f := rfl

@[simp] theorem writeAll_cons (w : L → Option V) (ws : List (L → Option V)) (f : L → V) :
    writeAll (w :: ws) f = writeAll ws (write w f) := rfl

@[simp] theorem writeAll_append (ws vs : List (L → Option V)) (f : L → V) :
    writeAll (ws ++ vs) f = writeAll vs (writeAll ws f) := List.foldl_append

variable {ws : List (L → Option V)}

theorem writeAll_untouched {l : L} (h : ∀ w ∈ ws, w l = none) (f : L → V) : writeAll ws f l = f l := by
  induction ws generalizing f with
  | nil => rfl
  | cons w ws ih =>
    rw [writeAll_cons, ih fun v hv ↦ h v (List.mem_cons_of_mem w hv), write, h w List.mem_cons_self]
    rfl

theorem writeAll_written {l : L} (h : ∃ w ∈ ws, w l ≠ none) (f g : L → V) :
    writeAll ws f l = writeAll ws g l := by
  induction ws generalizing f g with
  | nil => simp at h
  | cons w ws ih =>
    by_cases hrest : ∃ v ∈ ws, v l ≠ none
    · exact ih hrest _ _
    · have hnone : ∀ v ∈ ws, v l = none := fun v hv ↦ by
        by_contra hne
        exact hrest ⟨v, hv, hne⟩
      obtain ⟨v, hv, hne⟩ := h
      obtain rfl | hv := List.mem_cons.mp hv
      · obtain ⟨x, hx⟩ := Option.ne_none_iff_exists'.mp hne
        simp [writeAll_cons, writeAll_untouched hnone, write, hx]
      · exact absurd (hnone v hv) hne

theorem writeAll_absorb {ws vs : List (L → Option V)} (h : ∀ w ∈ ws, w ∈ vs) (f : L → V) :
    writeAll vs (writeAll ws f) = writeAll vs f := by
  funext l
  by_cases hl : ∃ v ∈ vs, v l ≠ none
  · exact writeAll_written hl _ _
  · have hnone : ∀ v ∈ vs, v l = none := fun v hv ↦ by
      by_contra hne
      exact hl ⟨v, hv, hne⟩
    rw [writeAll_untouched hnone, writeAll_untouched hnone,
      writeAll_untouched fun w hw ↦ hnone w (h w hw)]

theorem writeAll_agreed {l : L} {v : V} (h : ∀ w ∈ ws, w l = none ∨ w l = some v)
    (hex : ∃ w ∈ ws, w l = some v) (f : L → V) : writeAll ws f l = v := by
  obtain ⟨w, hw, hv⟩ := hex
  rw [writeAll_written ⟨w, hw, by simp [hv]⟩ f fun _ ↦ v]
  clear hw hv
  induction ws with
  | nil => rfl
  | cons w ws ih =>
    have hwrite : write w (fun _ ↦ v) l = v := by
      rcases h w List.mem_cons_self with hn | hs
      · rw [write, hn, Option.getD_none]
      · rw [write, hs, Option.getD_some]
    by_cases hrest : ∃ u ∈ ws, u l ≠ none
    · rw [writeAll_cons, writeAll_written hrest _ fun _ ↦ v]
      exact ih fun u hu ↦ h u (List.mem_cons_of_mem w hu)
    · have hnone : ∀ u ∈ ws, u l = none := fun u hu ↦ by
        by_contra hne
        exact hrest ⟨u, hu, hne⟩
      rw [writeAll_cons, writeAll_untouched hnone, hwrite]

def lastWrite (ws : List (L → Option V)) (l : L) : Option V := ws.reverse.findSome? fun w ↦ w l

theorem writeAll_eq_lastWrite (ws : List (L → Option V)) (f : L → V) (l : L) :
    writeAll ws f l = (lastWrite ws l).getD (f l) := by
  induction ws generalizing f with
  | nil => rfl
  | cons w ws ih =>
    rw [writeAll_cons, ih, write, lastWrite, lastWrite, List.reverse_cons, List.findSome?_append]
    cases ws.reverse.findSome? fun w ↦ w l <;> simp

end Mtld3d.Lib
