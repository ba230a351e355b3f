import Udk.Event.Invariant

/-! # Every notification is delivered -/

open Udk.QueueEvent

namespace Udk.Event

/-- The states of the runs in which every action is `ok`. -/
def Reachable (ok : State → Action → Prop) (s : State) : Prop := ∃ es, Run step ok initialState es s

/-- How a state delivers its notifications. -/
structure Delivered (s : State) : Prop where
  /-- When `CoreRestoreTpl` returns, nothing above its TPL is queued, or taken and not yet called. -/
  restored : ∀ newTpl rest s', s.stack = .restoreTpl newTpl :: rest → step s .run = some s' → s'.stack = rest →
    s'.gEfiCurrentTpl = newTpl ∧ ∀ tpl, newTpl < tpl → s'.gEventQueue tpl = [] ∧ notifyingAt tpl s'.stack = []
  /-- A notify function starts at the TPL of its event, above the one that `CoreRestoreTpl` goes back to. -/
  starts : ∀ priority event rest, s.stack = .notifyFunction priority event :: rest →
    s.gEfiCurrentTpl = priority ∧ (∃ ev, s.events event = some ev ∧ ev.notifyTpl = priority) ∧
      ∃ newTpl outer, rest = .restoreTpl newTpl :: outer ∧ newTpl < priority
  runs : ∀ entryTpl rest, s.stack = .code entryTpl :: rest → entryTpl ≤ s.gEfiCurrentTpl
  /-- What is queued is what waits, and what waited longest at its level was taken first. -/
  queue_eq : ∀ tpl, s.gEventQueue tpl = waiting s.log tpl
  served : FirstComeFirstServed s.log
  /-- The notify functions were called in the order in which their events were taken, each once. -/
  called : ∀ tpl, takenAt tpl s.log = notifyingAt tpl s.stack ++ notifiedAt tpl s.notified
  /-- Each event was taken for the last time that it was queued. -/
  queued : ∀ newer event tpl older, s.log = newer ++ .taken event tpl :: older →
    ∃ mid oldest, older = mid ++ .queued event tpl :: oldest ∧ ∀ x ∈ mid, x.item ≠ event
  /-- An event that was queued is still queued, unless it was taken, closed or queued again. -/
  kept : ∀ newer event tpl older, s.log = newer ++ .queued event tpl :: older → (∀ x ∈ newer, x.item ≠ event) →
    event ∈ s.gEventQueue tpl
  signalled : ∀ event ev, s.events event = some ev → ev.isSignal = true → ev.exFlag = false → ev.signalCount ≠ 0 →
    event ∈ s.gEventQueue ev.notifyTpl

section
variable {s : State}

theorem Reachable.inv (h : Reachable Balanced s) : Inv s := by
  obtain ⟨es, hrun⟩ := h
  exact hrun.invariant Inv .initialState fun _ _ _ hs hok hstep => hs.step hok hstep

/-- No event above the new TPL is left when `CoreRestoreTpl` returns. -/
theorem restoreTpl_returns {newTpl : Nat} {rest : List Frame} {s' : State} (h : Inv s)
    (hst : s.stack = .restoreTpl newTpl :: rest) (hs : step s .run = some s') (hret : s'.stack = rest) :
    s'.gEfiCurrentTpl = newTpl ∧ ∀ tpl, newTpl < tpl → s'.gEventQueue tpl = [] ∧ notifyingAt tpl s'.stack = [] := by
  unfold step at hs
  simp only [hst, Option.some.injEq] at hs
  subst hs
  by_cases hp : pendingAbove newTpl s.gEventPending ≠ 0
  · rw [restoreLoop, if_pos hp] at hret
    have := congrArg List.length hret
    simp only [List.length_cons] at this
    omega
  · rw [restoreLoop, if_neg hp]
    refine ⟨rfl, fun tpl hlt => ⟨?_, ?_⟩⟩
    · by_contra hne
      refine hp fun hzero => ?_
      have hbit : (pendingAbove newTpl s.gEventPending).getLsbD tpl = true := by
        rw [pendingAbove_getLsbD, h.queues.pending tpl hne, decide_eq_true hlt]
        rfl
      rw [hzero] at hbit
      simp at hbit
    · have hn := h.nested
      rw [hst] at hn
      exact notifyingAt_above hn.2 hlt

/-- In every run in which code leaves the TPL as it found it, the notifications are delivered. -/
theorem notifications_delivered (h : Reachable Balanced s) : Delivered s where
  restored _ _ _ hst hs hret := restoreTpl_returns h.inv hst hs hret
  starts priority event rest hst := by
    have hn := h.inv.nested
    have howner := h.inv.owner priority event
    rw [hst] at hn howner
    exact ⟨hn.1, howner (by simp [notifyingAt]), hn.2.1⟩
  runs entryTpl rest hst := by
    have hn := h.inv.nested
    rw [hst] at hn
    exact hn.1
  queue_eq := h.inv.queues.waiting_eq
  served := h.inv.queues.served
  called := h.inv.taken
  queued _ _ _ _ hlog := queued_of_taken h.inv.queues.served hlog
  kept _ _ _ _ hlog hn := by
    rw [h.inv.queues.waiting_eq]
    exact waiting_of_queued hlog hn
  signalled := h.inv.signalled

end

/-! ## Runs -/

/-- An event with a notify function. -/
def createCall (event : EventId) (notifyTpl : Nat) (eventGroup : Option Guid) : Call :=
  .createEventEx ⟨evtNotifySignal, notifyTpl, true, eventGroup, some event⟩

def runActions (actions : List Action) : State := (actions.foldlM step initialState).getD initialState

theorem reachable_runActions {actions : List Action} {ok : State → Action → Prop}
    (hok : ∀ s, ∀ a ∈ actions, ok s a) (h : (actions.foldlM step initialState).isSome = true) :
    Reachable ok (runActions actions) := by
  obtain ⟨s, hs⟩ := Option.isSome_iff_exists.mp h
  refine ⟨actions, .of_foldlM hok ?_⟩
  unfold runActions
  rw [hs]
  rfl

/-- An event is signalled, and `CoreRestoreTpl` dispatches it. -/
def sampleActions : List Action :=
  [.call (createCall 1 8 none), .run, .call (.signalEvent 1), .run, .run, .run]

theorem notifications_delivered_sample : Delivered (runActions sampleActions) :=
  notifications_delivered (reachable_runActions
    (fun s a ha => by
      simp only [sampleActions, List.mem_cons, List.not_mem_nil, or_false] at ha
      rcases ha with rfl | rfl | rfl | rfl | rfl | rfl <;> trivial)
    (by decide +kernel))

/-- Two events of a group, each of which is signalled at `TPL_NOTIFY`. -/
def groupActions : List Action :=
  [.call (createCall 1 8 (some 7)), .run, .call (createCall 2 8 (some 7)), .run, .call (.raiseTpl 16),
    .call (.signalEvent 1), .run, .run, .run, .run, .run, .call (.signalEvent 2), .run, .run, .run, .run, .run,
    .call (.restoreTpl 4), .run, .run, .run, .run, .ret, .run, .run, .run, .ret, .run, .run, .run]

example : (runActions groupActions).notified = [(1, 8), (2, 8)] := by decide +kernel

/-- Two events, and the notify function of the first one leaves the TPL raised. -/
def raisedActions : List Action :=
  [.call (createCall 1 8 none), .run, .call (createCall 2 8 none), .run, .call (.raiseTpl 16),
    .call (.signalEvent 1), .run, .call (.signalEvent 2), .run, .call (.restoreTpl 4), .run, .run, .run, .run,
    .call (.raiseTpl 17), .ret, .run, .run]

/-- An event that was queued twice and not closed is notified once, and a notify function starts above the TPL of
its event, since the one before it left the TPL raised. -/
theorem notifications_merged_and_raised :
    (∃ s, Reachable (fun _ _ => True) s ∧ s.stack = [.code 0] ∧ s.log.count (.queued 1 8) = 2 ∧
      .dropped 1 ∉ s.log ∧ s.gEventQueue 8 = [] ∧ s.notified.count (1, 8) = 1) ∧
    ∃ s, Reachable (fun _ _ => True) s ∧
      s.stack = [.notifyFunction 8 2, .restoreTpl 4, .code 0] ∧ s.gEfiCurrentTpl = 17 := by
  refine ⟨⟨runActions groupActions, reachable_runActions (fun _ _ _ => trivial) (by decide +kernel), ?_⟩,
    ⟨runActions raisedActions, reachable_runActions (fun _ _ _ => trivial) (by decide +kernel), ?_⟩⟩
  · decide +kernel
  · decide +kernel

end Udk.Event
