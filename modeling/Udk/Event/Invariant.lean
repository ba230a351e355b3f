import Udk.Event.Service

/-! # What every step keeps -/

open Udk.QueueEvent

namespace Udk.Event

/-! ## The queues -/

/-- The queues are what the log says, and the bits of the queues that are not empty are pending. -/
structure Queues (s : State) : Prop where
  pending : ∀ tpl, s.gEventQueue tpl ≠ [] → s.gEventPending.getLsbD tpl = true
  pending_lt : ∀ tpl, s.gEventPending.getLsbD tpl = true → tpl < tplHighLevel
  owner : ∀ tpl, ∀ e ∈ s.gEventQueue tpl, ∃ ev, s.events e = some ev ∧ ev.notifyTpl = tpl
  waiting_eq : ∀ tpl, s.gEventQueue tpl = waiting s.log tpl
  served : FirstComeFirstServed s.log
  tpl_lt : ∀ e ev, s.events e = some ev → ev.notifyTpl < tplHighLevel

/-- An event that is signalled and not in a group is queued. -/
def Signalled (s : State) : Prop :=
  ∀ e ev, s.events e = some ev → ev.isSignal = true → ev.exFlag = false → ev.signalCount ≠ 0 →
    e ∈ s.gEventQueue ev.notifyTpl

/-- A critical section that takes no event from a queue. -/
structure Keeps (s s' : State) : Prop where
  stack : s'.stack = s.stack
  tpl : s'.gEfiCurrentTpl = s.gEfiCurrentTpl
  notified : s'.notified = s.notified
  taken : ∀ tpl, takenAt tpl s'.log = takenAt tpl s.log

section
variable {s s' s'' : State} {e : EventId} {ev : IEvent} {tpl : Nat}

theorem Keeps.refl (s : State) : Keeps s s := ⟨rfl, rfl, rfl, fun _ => rfl⟩

theorem Keeps.trans (h : Keeps s s') (h' : Keeps s' s'') : Keeps s s'' :=
  ⟨h'.stack.trans h.stack, h'.tpl.trans h.tpl, h'.notified.trans h.notified,
    fun tpl => (h'.taken tpl).trans (h.taken tpl)⟩

/-! ### `CoreNotifyEvent` -/

@[simp] theorem coreNotifyEvent_events : (coreNotifyEvent e s).events = s.events := by
  unfold coreNotifyEvent
  split <;> rfl

theorem coreNotifyEvent_keeps : Keeps s (coreNotifyEvent e s) := by
  unfold coreNotifyEvent
  split
  · exact .refl s
  · exact ⟨rfl, rfl, rfl, fun _ => rfl⟩

theorem mem_coreNotifyEvent {e' : EventId} (h : s.events e = some ev) :
    e' ∈ (coreNotifyEvent e s).gEventQueue tpl ↔
      (e' ∈ s.gEventQueue tpl ∧ e' ≠ e) ∨ (e' = e ∧ tpl = ev.notifyTpl) := by
  unfold coreNotifyEvent
  rw [h]
  simp only
  split
  · rename_i ht
    simp [ht]
  · rename_i ht
    simp [ht]

theorem getLsbD_one_shiftLeft {i : Nat} (h : tpl < 64) : (1#64 <<< tpl).getLsbD i = decide (i = tpl) := by
  by_cases hi : i = tpl
  · subst hi
    simp [h]
  · rw [decide_eq_false hi, BitVec.getLsbD_shiftLeft]
    by_cases hlt : i < tpl
    · simp [hlt]
    · have : i - tpl ≠ 0 := by omega
      simp [this]

theorem Queues.coreNotifyEvent (h : Queues s) (e : EventId) : Queues (coreNotifyEvent e s) := by
  cases he : s.events e with
  | none =>
    have : Event.coreNotifyEvent e s = s := by unfold Event.coreNotifyEvent; rw [he]
    rw [this]
    exact h
  | some ev =>
    have htpl : ev.notifyTpl < 64 := Nat.lt_trans (h.tpl_lt e ev he) (by decide)
    have hs : Event.coreNotifyEvent e s =
      { s with
        gEventQueue := fun tpl =>
          if tpl = ev.notifyTpl then (s.gEventQueue tpl).filter (· ≠ e) ++ [e]
          else (s.gEventQueue tpl).filter (· ≠ e)
        gEventPending := s.gEventPending ||| 1#64 <<< ev.notifyTpl
        log := .queued e ev.notifyTpl :: s.log } := by
      unfold Event.coreNotifyEvent; rw [he]
    refine ⟨fun tpl hne => ?_, fun tpl hp => ?_, fun tpl e' he' => ?_, fun tpl => ?_, ?_, ?_⟩
    · rw [hs] at hne ⊢
      simp only [BitVec.getLsbD_or, getLsbD_one_shiftLeft htpl]
      simp only at hne
      by_cases ht : tpl = ev.notifyTpl
      · simp [ht]
      · rw [if_neg ht] at hne
        rw [h.pending tpl fun hnil => hne (by rw [hnil]; rfl), Bool.true_or]
    · rw [hs] at hp
      simp only [BitVec.getLsbD_or, getLsbD_one_shiftLeft htpl, Bool.or_eq_true, decide_eq_true_eq] at hp
      rcases hp with hp | rfl
      · exact h.pending_lt tpl hp
      · exact h.tpl_lt e ev he
    · rw [coreNotifyEvent_events]
      rcases (mem_coreNotifyEvent he).mp he' with ⟨hmem, -⟩ | ⟨rfl, rfl⟩
      · exact h.owner tpl e' hmem
      · exact ⟨ev, he, rfl⟩
    · rw [hs]
      simp only [waiting, h.waiting_eq tpl]
    · rw [hs]
      exact h.served
    · rw [coreNotifyEvent_events]
      exact h.tpl_lt

/-- Queuing an event keeps the other events queued. -/
theorem Signalled.coreNotifyEvent (h : Signalled s) (e : EventId) : Signalled (coreNotifyEvent e s) := by
  intro e' ev' he' hsig hex hcount
  rw [coreNotifyEvent_events] at he'
  cases he : s.events e with
  | none =>
    have : Event.coreNotifyEvent e s = s := by unfold Event.coreNotifyEvent; rw [he]
    rw [this]
    exact h e' ev' he' hsig hex hcount
  | some ev =>
    rw [mem_coreNotifyEvent he]
    by_cases heq : e' = e
    · subst heq
      obtain rfl := Option.some.inj (he.symm.trans he')
      exact .inr ⟨rfl, rfl⟩
    · exact .inl ⟨h e' ev' he' hsig hex hcount, heq⟩

theorem foldl_coreNotifyEvent (es : List EventId) (h : Queues s) (hs : Signalled s) :
    Queues (es.foldl (fun s e => coreNotifyEvent e s) s) ∧ Signalled (es.foldl (fun s e => coreNotifyEvent e s) s) ∧
      Keeps s (es.foldl (fun s e => coreNotifyEvent e s) s) ∧
      (es.foldl (fun s e => coreNotifyEvent e s) s).events = s.events := by
  induction es generalizing s with
  | nil => exact ⟨h, hs, .refl s, rfl⟩
  | cons e es ih =>
    obtain ⟨h1, h2, h3, h4⟩ := ih (h.coreNotifyEvent e) (hs.coreNotifyEvent e)
    exact ⟨h1, h2, coreNotifyEvent_keeps.trans h3, h4.trans coreNotifyEvent_events⟩

/-! ### The other critical sections -/

theorem setSignalCount_events {count : Nat} {e' : EventId} {ev' : IEvent}
    (h : (setSignalCount e count s).events e' = some ev') :
    ∃ old, s.events e' = some old ∧ ev'.notifyTpl = old.notifyTpl ∧ ev'.isSignal = old.isSignal ∧
      ev'.exFlag = old.exFlag ∧ ev'.signalCount = if e' = e then count else old.signalCount := by
  unfold setSignalCount at h
  simp only at h
  split at h
  · rename_i heq
    obtain ⟨old, hold, rfl⟩ := Option.map_eq_some_iff.mp h
    exact ⟨old, hold, rfl, rfl, rfl, by rw [if_pos heq]⟩
  · rename_i hne
    exact ⟨ev', h, rfl, rfl, rfl, by rw [if_neg hne]⟩

theorem setSignalCount_owner {count : Nat} {e' : EventId} (h : ∃ ev, s.events e' = some ev ∧ ev.notifyTpl = tpl) :
    ∃ ev, (setSignalCount e count s).events e' = some ev ∧ ev.notifyTpl = tpl := by
  obtain ⟨ev, he, ht⟩ := h
  unfold setSignalCount
  simp only
  split
  · exact ⟨{ ev with signalCount := count }, by rw [he]; rfl, ht⟩
  · exact ⟨ev, he, ht⟩

theorem Queues.setSignalCount (h : Queues s) (e : EventId) (count : Nat) : Queues (setSignalCount e count s) := by
  refine ⟨h.pending, h.pending_lt, fun tpl e' he' => setSignalCount_owner (h.owner tpl e' he'), h.waiting_eq, h.served,
    fun e' ev' he' => ?_⟩
  obtain ⟨old, hold, ht, -⟩ := setSignalCount_events he'
  exact ht ▸ h.tpl_lt e' old hold

theorem setSignalCount_keeps {count : Nat} : Keeps s (setSignalCount e count s) := ⟨rfl, rfl, rfl, fun _ => rfl⟩

/-- An event that is signalled is queued, or its signal is not for a queue. -/
theorem Signalled.setSignalCount (h : Signalled s) {count : Nat}
    (hne : count = 0 ∨ ∀ ev, s.events e = some ev → ev.isSignal = false ∨ ev.exFlag = true) :
    Signalled (setSignalCount e count s) := by
  intro e' ev' he' hsig hex hcount
  obtain ⟨old, hold, ht, hs', hx, hc⟩ := setSignalCount_events he'
  rw [ht]
  rw [hs'] at hsig
  rw [hx] at hex
  rw [hc] at hcount
  split at hcount
  · rename_i heq
    subst heq
    rcases hne with h0 | hne
    · exact absurd h0 hcount
    · rcases hne old hold with h1 | h1
      · rw [hsig] at h1; cases h1
      · rw [hex] at h1; cases h1
  · exact h e' old hold hsig hex hcount

/-- `CoreSignalEvent` for an event that is not in a group. -/
theorem Signalled.notify_signalled (h : Signalled s) :
    Signalled (Event.coreNotifyEvent e (Event.setSignalCount e 1 s)) := by
  intro e' ev' he' hsig hex hcount
  rw [coreNotifyEvent_events] at he'
  obtain ⟨old, hold, ht, hs', hx, hc⟩ := setSignalCount_events he'
  by_cases heq : e' = e
  · subst heq
    exact (mem_coreNotifyEvent he').mpr (.inr ⟨rfl, rfl⟩)
  · have hmem := h e' old hold (hs' ▸ hsig) (hx ▸ hex) (by rwa [hc, if_neg heq] at hcount)
    cases hsome : (Event.setSignalCount e 1 s).events e with
    | none =>
      unfold Event.coreNotifyEvent
      rw [hsome, ht]
      exact hmem
    | some ev =>
      refine (mem_coreNotifyEvent hsome).mpr (.inl ⟨?_, heq⟩)
      rw [ht]
      exact hmem

theorem removeEvent_events {e' : EventId} {ev' : IEvent} :
    (removeEvent e s).events e' = some ev' ↔ e' ≠ e ∧ s.events e' = some ev' := by
  unfold removeEvent
  simp only
  split
  · rename_i h; simp [h]
  · rename_i h; simp [h]

theorem Queues.removeEvent (h : Queues s) (e : EventId) : Queues (removeEvent e s) := by
  refine ⟨fun tpl hne => h.pending tpl fun hnil => hne ?_, h.pending_lt, fun tpl e' he' => ?_, fun tpl => ?_, h.served,
    fun e' ev' he' => h.tpl_lt e' ev' (removeEvent_events.mp he').2⟩
  · simp only [Event.removeEvent, hnil, List.filter_nil]
  · obtain ⟨hmem, hne⟩ := List.mem_filter.mp he'
    obtain ⟨ev, hev, ht⟩ := h.owner tpl e' hmem
    exact ⟨ev, removeEvent_events.mpr ⟨by simpa using hne, hev⟩, ht⟩
  · simp only [Event.removeEvent, waiting, h.waiting_eq tpl]

theorem Signalled.removeEvent (h : Signalled s) (e : EventId) : Signalled (removeEvent e s) := by
  intro e' ev' he' hsig hex hcount
  obtain ⟨hne, hev⟩ := removeEvent_events.mp he'
  exact List.mem_filter.mpr ⟨h e' ev' hev hsig hex hcount, by simpa using hne⟩

theorem removeEvent_keeps : Keeps s (removeEvent e s) := ⟨rfl, rfl, rfl, fun _ => rfl⟩

/-! ## The stack -/

/-- The frames are nested as their TPLs are. `tpl` is the TPL at which the innermost frame runs. -/
def Nested : Nat → List Frame → Prop
  | _, [] => True
  | tpl, .code entryTpl :: rest => entryTpl ≤ tpl ∧ Nested entryTpl rest
  | tpl, .restoreTpl newTpl :: rest => newTpl ≤ tpl ∧ Nested newTpl rest
  | tpl, .dispatchEventNotifies priority :: rest =>
    tpl = priority ∧ (∃ newTpl outer, rest = .restoreTpl newTpl :: outer ∧ newTpl < priority) ∧ Nested priority rest
  | tpl, .notifyFunction priority _ :: rest =>
    tpl = priority ∧ (∃ newTpl outer, rest = .restoreTpl newTpl :: outer ∧ newTpl < priority) ∧ Nested priority rest
  | tpl, .notifySignalList _ :: rest => Nested tpl rest
  | tpl, .signalEvent :: rest => Nested tpl rest

/-- The events of a level that were taken, and whose notify function is not called yet. -/
def notifyingAt (tpl : Nat) : List Frame → List EventId
  | [] => []
  | .notifyFunction priority event :: rest =>
    if tpl = priority then event :: notifyingAt tpl rest else notifyingAt tpl rest
  | _ :: rest => notifyingAt tpl rest

/-- The notify functions of a level that were called, the last one first. -/
def notifiedAt (tpl : Nat) (notified : List (EventId × Nat)) : List EventId :=
  (notified.filter fun x => x.2 = tpl).map Prod.fst

theorem notifyingAt_above {stack : List Frame} {c : Nat} (h : Nested c stack) (hc : c < tpl) :
    notifyingAt tpl stack = [] := by
  induction stack generalizing c with
  | nil => rfl
  | cons frame rest ih =>
    cases frame with
    | code entryTpl => exact ih h.2 (Nat.lt_of_le_of_lt h.1 hc)
    | restoreTpl newTpl => exact ih h.2 (Nat.lt_of_le_of_lt h.1 hc)
    | dispatchEventNotifies priority =>
      obtain ⟨rfl, -, h⟩ := h
      exact ih h hc
    | notifyFunction priority event =>
      obtain ⟨rfl, -, h⟩ := h
      rw [notifyingAt, if_neg (Nat.ne_of_gt hc)]
      exact ih h hc
    | notifySignalList eventGroup => exact ih (c := c) h hc
    | signalEvent => exact ih (c := c) h hc

/-- What holds in every state of a run. -/
structure Inv (s : State) : Prop where
  queues : Queues s
  signalled : Signalled s
  tpl_le : s.gEfiCurrentTpl ≤ tplHighLevel
  nested : Nested s.gEfiCurrentTpl s.stack
  taken : ∀ tpl, takenAt tpl s.log = notifyingAt tpl s.stack ++ notifiedAt tpl s.notified
  owner : ∀ tpl, ∀ e ∈ notifyingAt tpl s.stack, ∃ ev, s.events e = some ev ∧ ev.notifyTpl = tpl

theorem Queues.congr (h : Queues s) (hq : s'.gEventQueue = s.gEventQueue) (hp : s'.gEventPending = s.gEventPending)
    (he : s'.events = s.events) (hl : s'.log = s.log) : Queues s' :=
  ⟨by rw [hq, hp]; exact h.pending, by rw [hp]; exact h.pending_lt, by rw [hq, he]; exact h.owner,
    by rw [hq, hl]; exact h.waiting_eq, by rw [hl]; exact h.served, by rw [he]; exact h.tpl_lt⟩

theorem Signalled.congr (h : Signalled s) (hq : s'.gEventQueue = s.gEventQueue) (he : s'.events = s.events) :
    Signalled s' := by
  unfold Signalled
  rw [hq, he]
  exact h

/-- The state in a critical section. -/
abbrev raised (s : State) : State := { s with gEfiCurrentTpl := tplHighLevel }

theorem Inv.locked {f : State → State} {rest : List Frame} (h : Inv s) (hq : Queues (f (raised s)))
    (hs : Signalled (f (raised s))) (hk : Keeps (raised s) (f (raised s))) (hn : Nested s.gEfiCurrentTpl rest)
    (hrest : ∀ tpl, notifyingAt tpl rest = notifyingAt tpl s.stack)
    (howner : ∀ tpl, ∀ e ∈ notifyingAt tpl s.stack, ∃ ev, (f (raised s)).events e = some ev ∧ ev.notifyTpl = tpl) :
    Inv (locked f rest s) where
  queues := hq.congr rfl rfl rfl rfl
  signalled := hs.congr rfl rfl
  tpl_le := Nat.le_of_eq hk.tpl
  nested := ⟨show s.gEfiCurrentTpl ≤ (f (raised s)).gEfiCurrentTpl by rw [hk.tpl]; exact h.tpl_le, hn⟩
  taken tpl := by
    show takenAt tpl (f (raised s)).log = notifyingAt tpl rest ++ notifiedAt tpl (f (raised s)).notified
    rw [hk.taken, hk.notified, hrest]
    exact h.taken tpl
  owner tpl e he := howner tpl e (hrest tpl ▸ he)

/-! ## Steps -/

theorem Inv.signalEvent (h : Inv s) (event : EventId) : Inv (coreSignalEvent event s) := by
  have hq : Queues (raised s) := h.queues.congr rfl rfl rfl rfl
  have hs : Signalled (raised s) := h.signalled.congr rfl rfl
  have howner : ∀ tpl, ∀ e ∈ notifyingAt tpl s.stack,
      ∃ ev, (setSignalCount event 1 (raised s)).events e = some ev ∧ ev.notifyTpl = tpl :=
    fun tpl e he => setSignalCount_owner (h.owner tpl e he)
  unfold coreSignalEvent
  split
  · exact h
  · rename_i ev hev
    split
    · exact h.locked hq hs (.refl _) h.nested (fun _ => rfl) h.owner
    split
    · rename_i hsig
      refine h.locked (hq.setSignalCount _ _) (hs.setSignalCount (.inr fun ev' he => .inl ?_)) setSignalCount_keeps
        h.nested (fun _ => rfl) howner
      obtain rfl := Option.some.inj (hev.symm.trans he)
      exact hsig
    split
    · rename_i hex
      refine h.locked (hq.setSignalCount _ _) (hs.setSignalCount (.inr fun ev' he => .inr ?_)) setSignalCount_keeps
        h.nested (fun _ => rfl) howner
      obtain rfl := Option.some.inj (hev.symm.trans he)
      exact hex
    · refine h.locked ((hq.setSignalCount _ _).coreNotifyEvent _) hs.notify_signalled
        (setSignalCount_keeps.trans coreNotifyEvent_keeps) h.nested (fun _ => rfl) fun tpl e he => ?_
      rw [coreNotifyEvent_events]
      exact howner tpl e he

theorem Inv.closeEvent (h : Inv s) (event : EventId) (hclose : ∀ tpl, event ∉ notifyingAt tpl s.stack) :
    Inv (coreCloseEvent event s) := by
  have hq : Queues (raised s) := h.queues.congr rfl rfl rfl rfl
  have hs : Signalled (raised s) := h.signalled.congr rfl rfl
  unfold coreCloseEvent
  split
  · exact h
  · refine h.locked (hq.removeEvent _) (hs.removeEvent _) removeEvent_keeps h.nested (fun _ => rfl) fun tpl e he => ?_
    obtain ⟨ev, hev, ht⟩ := h.owner tpl e he
    exact ⟨ev, removeEvent_events.mpr ⟨fun heq => hclose tpl (heq ▸ he), hev⟩, ht⟩

theorem newEvent_spec {c : CreateCall} (h : newEvent c = some ev) :
    ev.notifyTpl < tplHighLevel ∧ ev.signalCount = 0 := by
  unfold newEvent at h
  split at h
  · cases h
  · split at h
    · split at h
      · cases h
      · rename_i hc
        obtain rfl := Option.some.inj h
        exact ⟨by simp only; omega, rfl⟩
    · obtain rfl := Option.some.inj h
      exact ⟨show 0 < tplHighLevel by decide, rfl⟩

theorem Inv.createEventEx {c : CreateCall} (h : Inv s) (hc : coreCreateEventEx c s = some s') : Inv s' := by
  unfold coreCreateEventEx at hc
  split at hc
  · rename_i ev event hnew hmem
    split at hc
    · cases hc
    · rename_i hfree
      have hfree' : s.events event = none := not_not.mp hfree
      obtain rfl := Option.some.inj hc
      have hevents : ∀ {e ev'}, s.events e = some ev' →
          (if e = event then some ev else s.events e) = some ev' := by
        intro e ev' he
        rw [if_neg fun heq => by rw [heq, hfree'] at he; cases he]
        exact he
      obtain ⟨htpl, hcount⟩ := newEvent_spec hnew
      refine h.locked ?_ ?_ ⟨rfl, rfl, rfl, fun _ => rfl⟩ h.nested (fun _ => rfl) fun tpl e he => ?_
      · refine ⟨h.queues.pending, h.queues.pending_lt, fun tpl e he => ?_, h.queues.waiting_eq, h.queues.served,
          fun e ev' he => ?_⟩
        · obtain ⟨ev', hev', ht⟩ := h.queues.owner tpl e he
          exact ⟨ev', hevents hev', ht⟩
        · simp only at he
          split at he
          · obtain rfl := Option.some.inj he
            exact htpl
          · exact h.queues.tpl_lt e ev' he
      · intro e ev' he hsig hex hne
        simp only at he
        split at he
        · obtain rfl := Option.some.inj he
          exact absurd hcount hne
        · exact h.signalled e ev' he hsig hex hne
      · obtain ⟨ev', hev', ht⟩ := h.owner tpl e he
        exact ⟨ev', hevents hev', ht⟩
  · obtain rfl := Option.some.inj hc
    exact h

theorem Inv.notifySignalList (h : Inv s) {rest : List Frame} (eventGroup : Guid)
    (hn : Nested s.gEfiCurrentTpl rest) (hrest : ∀ tpl, notifyingAt tpl rest = notifyingAt tpl s.stack) :
    Inv (Event.locked (Event.notifySignalList eventGroup) rest s) := by
  have hq : Queues (raised s) := h.queues.congr rfl rfl rfl rfl
  have hs : Signalled (raised s) := h.signalled.congr rfl rfl
  obtain ⟨h1, h2, h3, h4⟩ := foldl_coreNotifyEvent ((raised s).gEventSignalQueue.filter (inGroup (raised s) eventGroup))
    hq hs
  refine h.locked h1 h2 h3 hn hrest fun tpl e he => ?_
  unfold Event.notifySignalList
  rw [h4]
  exact h.owner tpl e he

/-! ### `CoreRestoreTpl` -/

theorem getLsbD_minus_two {i : Nat} (hi : i < 64) : (-2#64).getLsbD i = decide (0 < i) := by
  revert i
  decide

theorem pendingAbove_getLsbD {newTpl i : Nat} {x : BitVec 64} :
    (pendingAbove newTpl x).getLsbD i = (decide (newTpl < i) && x.getLsbD i) := by
  unfold pendingAbove
  rw [BitVec.getLsbD_and, BitVec.getLsbD_shiftLeft]
  by_cases hi : i < 64
  · by_cases hlt : i < newTpl
    · simp [hlt, show ¬ newTpl < i by omega]
    · rw [getLsbD_minus_two (by omega), show decide (0 < i - newTpl) = decide (newTpl < i) by
        rw [decide_eq_decide]; omega]
      simp [hi, hlt]
  · rw [BitVec.getLsbD_of_ge x i (by omega), Bool.and_false, Bool.and_false]

theorem highBitBelow_spec {x : BitVec 64} {i n : Nat} (hi : i < n) (h : x.getLsbD i = true) :
    x.getLsbD (highBitBelow x n) = true ∧ i ≤ highBitBelow x n := by
  induction n with
  | zero => omega
  | succ n ih =>
    rw [highBitBelow]
    split
    · rename_i hn
      exact ⟨hn, by omega⟩
    · rename_i hn
      have hne : i ≠ n := fun heq => hn (heq ▸ h)
      exact ih (by omega)

/-- The level that the loop goes to is pending and lies above the new TPL. -/
theorem highBitSet64_spec {newTpl : Nat} {x : BitVec 64} (h : pendingAbove newTpl x ≠ 0) :
    x.getLsbD (highBitSet64 x) = true ∧ newTpl < highBitSet64 x := by
  obtain ⟨i, hi, hbit⟩ : ∃ i, i < 64 ∧ (pendingAbove newTpl x).getLsbD i = true := by
    by_contra hno
    refine h (BitVec.eq_of_getLsbD_eq fun i hi => ?_)
    rw [show (0 : BitVec 64).getLsbD i = false from BitVec.getLsbD_zero, Bool.eq_false_iff]
    exact fun hb => hno ⟨i, hi, hb⟩
  rw [pendingAbove_getLsbD, Bool.and_eq_true, decide_eq_true_eq] at hbit
  obtain ⟨h1, h2⟩ := highBitBelow_spec (n := 64) hi hbit.2
  exact ⟨h1, Nat.lt_of_lt_of_le hbit.1 h2⟩

theorem Inv.restoreLoop {newTpl : Nat} {rest : List Frame} (h : Inv s) (hst : s.stack = .restoreTpl newTpl :: rest) :
    Inv (restoreLoop newTpl rest s) := by
  have hn := h.nested
  have htaken := h.taken
  have howner := h.owner
  rw [hst] at hn htaken howner
  unfold Event.restoreLoop
  split
  · rename_i hp
    obtain ⟨hbit, hlt⟩ := highBitSet64_spec hp
    exact ⟨h.queues.congr rfl rfl rfl rfl, h.signalled.congr rfl rfl, Nat.le_of_lt (h.queues.pending_lt _ hbit),
      ⟨rfl, ⟨newTpl, rest, rfl, hlt⟩, Nat.le_of_lt hlt, hn.2⟩, htaken, howner⟩
  · exact ⟨h.queues.congr rfl rfl rfl rfl, h.signalled.congr rfl rfl, Nat.le_trans hn.1 h.tpl_le, hn.2, htaken, howner⟩

/-! ### `CoreDispatchEventNotifies` -/

theorem takeEvent_events {priority : Nat} {event : EventId} {queue : List EventId} {e' : EventId} {ev' : IEvent}
    (h : (takeEvent priority event queue s).events e' = some ev') :
    ∃ old, s.events e' = some old ∧ ev'.notifyTpl = old.notifyTpl ∧ ev'.isSignal = old.isSignal ∧
      ev'.exFlag = old.exFlag ∧ (e' ≠ event → ev'.signalCount = old.signalCount) ∧
      (e' = event → ev'.isSignal = true → ev'.signalCount = 0) := by
  unfold takeEvent at h
  simp only at h
  split at h
  · obtain ⟨old, hold, h1, h2, h3, h4⟩ := setSignalCount_events h
    exact ⟨old, hold, h1, h2, h3, fun hne => by rw [h4, if_neg hne], fun heq _ => by rw [h4, if_pos heq]⟩
  · rename_i hsig
    refine ⟨ev', h, rfl, rfl, rfl, fun _ => rfl, fun heq hs => ?_⟩
    subst heq
    exact absurd (show (s.events e').any IEvent.isSignal = true by rw [h]; exact hs) hsig

theorem takeEvent_owner {priority : Nat} {event : EventId} {queue : List EventId} {e' : EventId}
    (h : ∃ ev, s.events e' = some ev ∧ ev.notifyTpl = tpl) :
    ∃ ev, (takeEvent priority event queue s).events e' = some ev ∧ ev.notifyTpl = tpl := by
  unfold takeEvent
  simp only
  split
  · exact setSignalCount_owner h
  · exact h

theorem takeEvent_fields (priority : Nat) (event : EventId) (queue : List EventId) (s : State) :
    (takeEvent priority event queue s).gEventQueue =
        (fun tpl => if tpl = priority then queue else s.gEventQueue tpl) ∧
      (takeEvent priority event queue s).gEventPending = s.gEventPending ∧
      (takeEvent priority event queue s).log = .taken event priority :: s.log ∧
      (takeEvent priority event queue s).gEfiCurrentTpl = s.gEfiCurrentTpl ∧
      (takeEvent priority event queue s).notified = s.notified := by
  unfold takeEvent
  simp only
  split <;> exact ⟨rfl, rfl, rfl, rfl, rfl⟩

theorem Queues.takeEvent {priority : Nat} {event : EventId} {queue : List EventId} (h : Queues s)
    (hq : s.gEventQueue priority = event :: queue) : Queues (takeEvent priority event queue s) := by
  obtain ⟨h1, h2, h3, -⟩ := takeEvent_fields priority event queue s
  refine ⟨fun tpl hne => ?_, by rw [h2]; exact h.pending_lt, fun tpl e he => ?_, fun tpl => ?_, ?_, fun e ev he => ?_⟩
  · rw [h2]
    rw [h1] at hne
    refine h.pending tpl fun hnil => ?_
    simp only at hne
    split at hne
    · rename_i ht
      rw [ht, hq] at hnil
      cases hnil
    · exact hne hnil
  · refine takeEvent_owner (h.owner tpl e ?_)
    rw [h1] at he
    simp only at he
    split at he
    · rename_i ht
      rw [ht, hq]
      exact List.mem_cons_of_mem _ he
    · exact he
  · rw [h1, h3]
    simp only [waiting]
    split
    · rename_i ht
      rw [ht, ← h.waiting_eq, hq, List.erase_cons_head]
    · exact h.waiting_eq tpl
  · rw [h3]
    exact ⟨by rw [← h.waiting_eq, hq]; rfl, h.served⟩
  · obtain ⟨old, hold, ht, -⟩ := takeEvent_events he
    exact ht ▸ h.tpl_lt e old hold

theorem Signalled.takeEvent {priority : Nat} {event : EventId} {queue : List EventId} (h : Signalled s)
    (hq : s.gEventQueue priority = event :: queue) : Signalled (takeEvent priority event queue s) := by
  intro e ev he hsig hex hcount
  obtain ⟨old, hold, ht, hs, hx, hne, heq⟩ := takeEvent_events he
  by_cases h0 : e = event
  · exact absurd (heq h0 hsig) hcount
  · have hmem := h e old hold (hs ▸ hsig) (hx ▸ hex) (hne h0 ▸ hcount)
    rw [(takeEvent_fields priority event queue s).1, ht]
    simp only
    split
    · rename_i hp
      rw [hp, hq] at hmem
      exact (List.mem_cons.mp hmem).resolve_left h0
    · exact hmem

theorem Inv.dispatchLoop {priority : Nat} {rest : List Frame} (h : Inv s)
    (hst : s.stack = .dispatchEventNotifies priority :: rest) : Inv (dispatchLoop priority rest s) := by
  have hq : Queues (raised s) := h.queues.congr rfl rfl rfl rfl
  have hs : Signalled (raised s) := h.signalled.congr rfl rfl
  have hn := h.nested
  rw [hst] at hn
  obtain ⟨htpl, houter, hrest⟩ := hn
  have hnot : ∀ tpl, notifyingAt tpl rest = notifyingAt tpl s.stack := fun tpl => by rw [hst]; rfl
  unfold Event.dispatchLoop
  split
  · rename_i hnil
    refine h.locked ⟨fun tpl hne => ?_, fun tpl hp => ?_, hq.owner, hq.waiting_eq, hq.served, hq.tpl_lt⟩ hs
      ⟨rfl, rfl, rfl, fun _ => rfl⟩ (htpl ▸ hrest) hnot h.owner
    · have hp : priority < 64 := Nat.lt_of_le_of_lt (htpl ▸ h.tpl_le) (by decide)
      have hne' : tpl ≠ priority := fun heq => hne (heq ▸ hnil)
      have hlt := hq.pending_lt tpl (hq.pending tpl hne)
      have h64 : tpl < 64 := Nat.lt_trans hlt (by decide)
      simp only [BitVec.getLsbD_and, BitVec.getLsbD_not, getLsbD_one_shiftLeft hp, hq.pending tpl hne, h64,
        decide_eq_false hne']
      rfl
    · simp only [BitVec.getLsbD_and, Bool.and_eq_true] at hp
      exact hq.pending_lt tpl hp.1
  · rename_i event queue hcons
    have hq' := hq.takeEvent hcons
    have hs' := hs.takeEvent hcons
    obtain ⟨-, -, hlog, hcur, hnotified⟩ := takeEvent_fields priority event queue (raised s)
    have hmem : event ∈ s.gEventQueue priority := by rw [hcons]; simp
    refine ⟨hq'.congr rfl rfl rfl rfl, hs'.congr rfl rfl, ?_, ?_, fun tpl => ?_, fun tpl e he => ?_⟩
    · show (takeEvent priority event queue (raised s)).gEfiCurrentTpl ≤ _
      exact Nat.le_of_eq hcur
    · refine ⟨?_, htpl, houter, hrest⟩
      show s.gEfiCurrentTpl ≤ (takeEvent priority event queue (raised s)).gEfiCurrentTpl
      rw [hcur]
      exact h.tpl_le
    · show takenAt tpl (takeEvent priority event queue (raised s)).log =
        notifyingAt tpl (.notifyFunction priority event :: rest) ++
          notifiedAt tpl (takeEvent priority event queue (raised s)).notified
      rw [hlog, hnotified, takenAt, notifyingAt, hnot, show (raised s).log = s.log from rfl,
        show (raised s).notified = s.notified from rfl, h.taken]
      split <;> rfl
    · refine takeEvent_owner ?_
      change e ∈ notifyingAt tpl (.notifyFunction priority event :: rest) at he
      rw [notifyingAt, hnot] at he
      split at he
      · rename_i ht
        rcases List.mem_cons.mp he with rfl | he
        · rw [ht]
          exact h.queues.owner priority e hmem
        · exact h.owner tpl e he
      · exact h.owner tpl e he

theorem Inv.notifyFunction {priority : Nat} {event : EventId} {rest : List Frame} (h : Inv s)
    (hst : s.stack = .notifyFunction priority event :: rest) :
    Inv { s with
      stack := .code s.gEfiCurrentTpl :: .dispatchEventNotifies priority :: rest
      notified := (event, priority) :: s.notified } := by
  have hn := h.nested
  have htaken := h.taken
  have howner := h.owner
  rw [hst] at hn htaken howner
  obtain ⟨htpl, ⟨newTpl, outer, houter, hlt⟩, hrest⟩ := hn
  -- the frames below are of lower levels
  have hbelow : notifyingAt priority rest = [] := by
    rw [houter] at hrest ⊢
    have hnested : Nested newTpl outer := hrest.2
    show notifyingAt priority outer = []
    exact notifyingAt_above hnested hlt
  refine ⟨h.queues.congr rfl rfl rfl rfl, h.signalled.congr rfl rfl, h.tpl_le,
    ⟨Nat.le_refl _, htpl, ⟨newTpl, outer, houter, hlt⟩, hrest⟩, fun tpl => ?_, fun tpl e he => ?_⟩
  · have := htaken tpl
    simp only [notifyingAt] at this ⊢
    unfold notifiedAt at this ⊢
    by_cases ht : tpl = priority
    · subst ht
      rw [if_pos rfl, hbelow] at this
      rw [this, hbelow, List.filter_cons_of_pos (by simp)]
      rfl
    · rw [if_neg ht] at this
      rw [this, List.filter_cons_of_neg (by simpa using fun h => ht h.symm)]
  · refine howner tpl e ?_
    simp only [notifyingAt] at he ⊢
    split
    · exact List.mem_cons_of_mem _ he
    · exact he

/-! ### All steps -/

/-- A notify function, and an interrupt handler, does not lower the TPL below the one at which it started, and
returns at that one; and no event is closed between the moment that it is taken from its queue and the call of its
notify function. -/
def Balanced (s : State) : Action → Prop
  | .call (.restoreTpl newTpl) => ∀ entryTpl rest, s.stack = .code entryTpl :: rest → entryTpl ≤ newTpl
  | .call (.closeEvent event) => ∀ tpl, event ∉ notifyingAt tpl s.stack
  | .ret => ∀ entryTpl rest, s.stack = .code entryTpl :: rest → s.gEfiCurrentTpl = entryTpl
  | _ => True

theorem Inv.initialState : Inv initialState where
  queues := ⟨fun _ h => absurd rfl h, fun tpl h => by simp [Event.initialState] at h, nofun, fun _ => rfl, trivial, nofun⟩
  signalled := nofun
  tpl_le := by decide
  nested := ⟨Nat.zero_le _, trivial⟩
  taken _ := rfl
  owner := nofun

theorem Inv.step {action : Action} (h : Inv s) (hb : Balanced s action) (hs : step s action = some s') : Inv s' := by
  have hn := h.nested
  have htaken := h.taken
  have howner := h.owner
  cases action with
  | call c =>
    unfold Event.step at hs
    simp only at hs
    split at hs
    · rename_i entryTpl rest hst
      cases c with
      | raiseTpl newTpl =>
        simp only [call, coreRaiseTpl] at hs
        split at hs
        · rename_i hc
          obtain rfl := Option.some.inj hs
          rw [hst] at hn
          exact ⟨h.queues.congr rfl rfl rfl rfl, h.signalled.congr rfl rfl, hc.2,
            by rw [hst]; exact ⟨Nat.le_trans hn.1 hc.1, hn.2⟩, htaken, howner⟩
        · cases hs
      | restoreTpl newTpl =>
        simp only [call, coreRestoreTpl] at hs
        split at hs
        · rename_i hc
          obtain rfl := Option.some.inj hs
          rw [hst] at hn
          exact ⟨h.queues.congr rfl rfl rfl rfl, h.signalled.congr rfl rfl, h.tpl_le,
            ⟨hc.1, by rw [hst]; exact ⟨hb entryTpl rest hst, hn.2⟩⟩, htaken, howner⟩
        · cases hs
      | signalEvent event => exact Option.some.inj hs ▸ h.signalEvent event
      | closeEvent event => exact Option.some.inj hs ▸ h.closeEvent event hb
      | createEventEx c => exact h.createEventEx hs
      | notifySignalList eventGroup =>
        exact Option.some.inj hs ▸ h.notifySignalList eventGroup h.nested fun _ => rfl
    · cases hs
  | ret =>
    unfold Event.step at hs
    simp only at hs
    split at hs
    · rename_i entryTpl frame rest hst
      obtain rfl := Option.some.inj hs
      have hcur := hb entryTpl (frame :: rest) hst
      rw [hst] at hn htaken howner
      exact ⟨h.queues.congr rfl rfl rfl rfl, h.signalled.congr rfl rfl, h.tpl_le,
        show Nested s.gEfiCurrentTpl (frame :: rest) by rw [hcur]; exact hn.2, htaken, howner⟩
    · cases hs
  | interrupt =>
    unfold Event.step at hs
    simp only at hs
    split at hs
    · cases hs
    · split at hs
      · obtain rfl := Option.some.inj hs
        exact ⟨h.queues.congr rfl rfl rfl rfl, h.signalled.congr rfl rfl, h.tpl_le, ⟨Nat.le_refl _, hn⟩, htaken,
          howner⟩
      · cases hs
  | run =>
    unfold Event.step at hs
    simp only at hs
    split at hs
    · rename_i newTpl rest hst
      exact Option.some.inj hs ▸ h.restoreLoop hst
    · rename_i priority rest hst
      exact Option.some.inj hs ▸ h.dispatchLoop hst
    · rename_i priority event rest hst
      exact Option.some.inj hs ▸ h.notifyFunction hst
    · rename_i eventGroup rest hst
      rw [hst] at hn
      exact Option.some.inj hs ▸ h.notifySignalList eventGroup hn fun tpl => by rw [hst]; rfl
    · rename_i rest hst
      rw [hst] at hn
      exact Option.some.inj hs ▸ h.locked (h.queues.congr rfl rfl rfl rfl) (h.signalled.congr rfl rfl) (.refl _) hn
        (fun tpl => by rw [hst]; rfl) h.owner
    · cases hs

end

end Udk.Event
