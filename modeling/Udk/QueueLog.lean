import Mathlib.Algebra.GroupWithZero.Nat
import Mathlib.Data.List.Basic

/-! # The log of a queue with levels

What waits at a level, as the log of the queue tells it. The newest entry of a log comes first.
-/

namespace Udk

/-- An item is queued at a level, taken from a level, or dropped from wherever it waits. -/
inductive QueueEvent (α : Type) where
  | queued (a : α) (level : Nat)
  | taken (a : α) (level : Nat)
  | dropped (a : α)
  deriving DecidableEq

namespace QueueEvent
variable {α : Type}

/-- The item of an entry. -/
@[simp] def item : QueueEvent α → α
  | queued a _ => a
  | taken a _ => a
  | dropped a => a

variable [DecidableEq α]

/-- What waits at a level, the longest waiting first. An item that is queued again waits from then on. -/
def waiting : List (QueueEvent α) → Nat → List α
  | [], _ => []
  | queued a l :: log, level =>
    if level = l then (waiting log level).filter (· ≠ a) ++ [a] else (waiting log level).filter (· ≠ a)
  | taken a l :: log, level => if level = l then (waiting log level).erase a else waiting log level
  | dropped a :: log, level => (waiting log level).filter (· ≠ a)

/-- Whatever is taken has waited longest at its level. -/
def FirstComeFirstServed : List (QueueEvent α) → Prop
  | [] => True
  | taken a level :: log => (waiting log level).head? = some a ∧ FirstComeFirstServed log
  | _ :: log => FirstComeFirstServed log

/-- What was taken from a level, the last one first. -/
def takenAt (level : Nat) : List (QueueEvent α) → List α
  | [] => []
  | taken a l :: log => if level = l then a :: takenAt level log else takenAt level log
  | _ :: log => takenAt level log

variable {log : List (QueueEvent α)} {a : α} {level level' : Nat}

/-! ## Where an item waits -/

theorem waiting_nodup (log : List (QueueEvent α)) (level : Nat) : (waiting log level).Nodup := by
  induction log with
  | nil => exact List.nodup_nil
  | cons x log ih =>
    cases x with
    | queued a l =>
      have hf := ih.filter (· ≠ a)
      rw [waiting]
      split
      · refine List.nodup_append.mpr ⟨hf, by simp, fun x hx y hy => ?_⟩
        obtain rfl := List.mem_singleton.mp hy
        simpa using (List.mem_filter.mp hx).2
      · exact hf
    | taken a l =>
      rw [waiting]
      split
      · exact ih.erase a
      · exact ih
    | dropped a => exact ih.filter _

/-- An item waits at one level. -/
theorem waiting_level (h : a ∈ waiting log level) (h' : a ∈ waiting log level') : level = level' := by
  induction log with
  | nil => cases h
  | cons x log ih =>
    cases x with
    | queued b l =>
      rw [waiting] at h h'
      split at h <;> split at h'
      · omega
      · simp only [List.mem_append, List.mem_filter, List.mem_singleton] at h h'
        rcases h with h | rfl
        · exact ih h.1 h'.1
        · simp at h'
      · simp only [List.mem_append, List.mem_filter, List.mem_singleton] at h h'
        rcases h' with h' | rfl
        · exact ih h.1 h'.1
        · simp at h
      · exact ih (List.mem_filter.mp h).1 (List.mem_filter.mp h').1
    | taken b l =>
      rw [waiting] at h h'
      refine ih ?_ ?_
      · split at h
        · exact List.mem_of_mem_erase h
        · exact h
      · split at h'
        · exact List.mem_of_mem_erase h'
        · exact h'
    | dropped b => exact ih (List.mem_filter.mp h).1 (List.mem_filter.mp h').1

/-- An item waits from the last time that it was queued. -/
theorem queued_of_waiting (hf : FirstComeFirstServed log) (h : a ∈ waiting log level) :
    ∃ newer older, log = newer ++ queued a level :: older ∧ ∀ x ∈ newer, x.item ≠ a := by
  induction log with
  | nil => cases h
  | cons x log ih =>
    have hcons : x.item ≠ a → FirstComeFirstServed log → a ∈ waiting log level →
        ∃ newer older, x :: log = newer ++ queued a level :: older ∧ ∀ y ∈ newer, y.item ≠ a := by
      intro hx hf h
      obtain ⟨newer, older, rfl, hall⟩ := ih hf h
      exact ⟨x :: newer, older, rfl, List.forall_mem_cons.mpr ⟨hx, hall⟩⟩
    cases x with
    | queued b l =>
      rw [waiting] at h
      by_cases hb : b = a
      · subst hb
        split at h
        · rename_i hl
          subst hl
          exact ⟨[], log, rfl, by simp⟩
        · simp at h
      · refine hcons hb hf ?_
        split at h
        · simp only [List.mem_append, List.mem_filter, List.mem_singleton] at h
          exact (h.resolve_right fun h => hb h.symm).1
        · exact (List.mem_filter.mp h).1
    | taken b l =>
      rw [waiting] at h
      have hwait : a ∈ waiting log level := by
        split at h
        · exact List.mem_of_mem_erase h
        · exact h
      refine hcons (fun hb => ?_) hf.2 hwait
      -- what was taken waits no more
      obtain rfl : b = a := hb
      have hl := waiting_level hwait (List.mem_of_head? hf.1)
      rw [if_pos hl] at h
      exact (waiting_nodup log level).not_mem_erase h
    | dropped b =>
      have := List.mem_filter.mp h
      have hne : a ≠ b := by simpa using this.2
      exact hcons hne.symm hf this.1

/-- Each item that was taken had been queued, and nothing had happened to it since then. -/
theorem queued_of_taken {newer older : List (QueueEvent α)} (hf : FirstComeFirstServed log)
    (h : log = newer ++ taken a level :: older) :
    ∃ mid oldest, older = mid ++ queued a level :: oldest ∧ ∀ x ∈ mid, x.item ≠ a := by
  subst h
  induction newer with
  | nil => exact queued_of_waiting hf.2 (List.mem_of_head? hf.1)
  | cons x newer ih =>
    refine ih ?_
    cases x with
    | taken => exact hf.2
    | _ => exact hf

/-- An item that was queued waits, unless something happened to it since then. -/
theorem waiting_of_queued {newer older : List (QueueEvent α)} (h : log = newer ++ queued a level :: older)
    (hn : ∀ x ∈ newer, x.item ≠ a) : a ∈ waiting log level := by
  subst h
  induction newer with
  | nil => simp [waiting]
  | cons x newer ih =>
    have hx : a ≠ x.item := (hn x (by simp)).symm
    have hw := ih fun y hy => hn y (by simp [hy])
    rw [List.cons_append]
    cases x with
    | queued b l =>
      have hmem : a ∈ (waiting (newer ++ queued a level :: older) level).filter (· ≠ b) :=
        List.mem_filter.mpr ⟨hw, by simpa using hx⟩
      rw [waiting]
      split
      · exact List.mem_append_left _ hmem
      · exact hmem
    | taken b l =>
      rw [waiting]
      split
      · exact (List.mem_erase_of_ne hx).mpr hw
      · exact hw
    | dropped b => exact List.mem_filter.mpr ⟨hw, by simpa using hx⟩

end QueueEvent

end Udk
