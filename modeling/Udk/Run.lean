import Mathlib.Algebra.GroupWithZero.Nat
import Mathlib.Data.List.Induction

/-! # Runs of a system

A system takes a step for an event, or none. A run is a sequence of events, each with a condition on the
state in which it happens.
-/

namespace Udk

/-- The events `es` lead from `s` to the last state, and each meets `ok` where it happens. -/
inductive Run {σ ε : Type} (step : σ → ε → Option σ) (ok : σ → ε → Prop) (s : σ) : List ε → σ → Prop
  | nil : Run step ok s [] s
  | snoc {es s₁ e s₂} (h : Run step ok s es s₁) (he : ok s₁ e) (hs : step s₁ e = some s₂) :
      Run step ok s (es ++ [e]) s₂

namespace Run
variable {σ ε : Type} {step : σ → ε → Option σ} {ok ok' : σ → ε → Prop} {s s' : σ} {es : List ε}

/-- What each step keeps holds at the end of a run. -/
theorem invariant (inv : σ → Prop) (h : Run step ok s es s') (h0 : inv s)
    (hstep : ∀ s e s', inv s → ok s e → step s e = some s' → inv s') : inv s' := by
  induction h with
  | nil => exact h0
  | snoc _ he hs ih => exact hstep _ _ _ ih he hs

/-- Each step pays its cost out of a potential. -/
theorem potential {inv : σ → Prop} (cost : ε → Nat) (f : σ → Nat) (h : Run step ok s es s') (h0 : inv s)
    (hstep : ∀ s e s', inv s → ok s e → step s e = some s' → inv s' ∧ cost e + f s' ≤ f s) :
    inv s' ∧ (es.map cost).sum + f s' ≤ f s := by
  induction h with
  | nil => exact ⟨h0, by simp⟩
  | snoc _ he hs ih =>
    obtain ⟨h1, h2⟩ := hstep _ _ _ ih.1 he hs
    refine ⟨h1, ?_⟩
    rw [List.map_append, List.sum_append, List.map_singleton, List.sum_singleton]
    omega

theorem mono (h : Run step ok s es s') (hok : ∀ s e, ok s e → ok' s e) : Run step ok' s es s' := by
  induction h with
  | nil => exact .nil
  | snoc _ he hs ih => exact .snoc ih (hok _ _ he) hs

/-- A run that is computed. -/
theorem of_foldlM (hok : ∀ s, ∀ e ∈ es, ok s e) (h : es.foldlM step s = some s') : Run step ok s es s' := by
  induction es using List.reverseRecOn generalizing s' with
  | nil =>
    obtain rfl := Option.some.inj h
    exact .nil
  | append_singleton es e ih =>
    rw [List.foldlM_append] at h
    obtain ⟨s₁, h1, h2⟩ := Option.bind_eq_some_iff.mp h
    have h3 : step s₁ e = some s' := by simpa using h2
    exact .snoc (ih (fun s e he => hok s e (by simp [he])) h1) (hok _ e (by simp)) h3

/-- A run that is computed, with a condition on each step that is checked on the way. -/
theorem of_guarded [∀ s e, Decidable (ok s e)]
    (h : es.foldlM (fun s e => if ok s e then step s e else none) s = some s') :
    es.foldlM step s = some s' ∧ Run step ok s es s' := by
  induction es using List.reverseRecOn generalizing s' with
  | nil =>
    obtain rfl := Option.some.inj h
    exact ⟨rfl, .nil⟩
  | append_singleton es e ih =>
    rw [List.foldlM_append] at h
    obtain ⟨s₁, h1, h2⟩ := Option.bind_eq_some_iff.mp h
    obtain ⟨h3, hrun⟩ := ih h1
    have h4 : (if ok s₁ e then step s₁ e else none) = some s' := by simpa using h2
    split at h4
    · rename_i hok
      refine ⟨?_, .snoc hrun hok h4⟩
      rw [List.foldlM_append, h3]
      simpa using h4
    · cases h4

/-- What is true of each event. -/
theorem and_of_mem {q : ε → Prop} (h : Run step ok s es s') (hq : ∀ e ∈ es, q e) :
    Run step (fun s e => ok s e ∧ q e) s es s' := by
  induction h with
  | nil => exact .nil
  | snoc _ he hs ih =>
    exact .snoc (ih fun e he => hq e (List.mem_append_left _ he)) ⟨he, hq _ (by simp)⟩ hs

theorem single {e : ε} (he : ok s e) (hs : step s e = some s') : Run step ok s [e] s' := .snoc .nil he hs

end Run

end Udk
