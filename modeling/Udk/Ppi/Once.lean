import Udk.Ppi.Delivery

/-! # ProcessNotifyList, and every run

Dispatch notifies are called by `ProcessNotifyList` only. The pairs of the notifies above `LastDispatchedNotify` and
the PPIs below `LastDispatchedInstall` are those that it has been through.
-/

namespace Udk.Ppi

variable {maxPpiSupported : Nat} {p : PpiData} {calls : List (Descriptor × Int)} {reinstalled : List Int}

/-! ## Dispatch notifies -/

/-- `LastDispatchedNotify`, with the loop that is under way. -/
def reachedNotify (p : PpiData) : Option Process → Int
  | some ⟨.notifies, tempValue, _⟩ => tempValue
  | _ => p.lastDispatchedNotify

/-- `LastDispatchedInstall`, with the loop that is under way. -/
def reachedInstall (p : PpiData) : Option Process → Int
  | some ⟨.installs, tempValue, _⟩ => tempValue
  | _ => p.lastDispatchedInstall

def aheadOf (P : Int → Descriptor) (n : Descriptor) (k : Int) : Option Process → Nat
  | some proc => ahead P n k proc.dispatch
  | none => 0

structure Running (maxPpiSupported : Nat) (p : PpiData) (proc : Process) : Prop where
  installs : proc.dispatch.installStopIndex ≤ p.ppiListEnd
  stop : p.dispatchListEnd ≤ proc.dispatch.notifyStopIndex
  top : proc.dispatch.index1 ≤ maxPpiSupported - 1
  current : proc.dispatch.notifyStopIndex < proc.dispatch.index1 →
    proc.dispatch.notifyDescriptor.has descriptorNotifyDispatch = true
  notify : proc.loop = .notifies →
    proc.tempValue = proc.dispatch.notifyStopIndex ∧ proc.tempValue ≤ p.lastDispatchedNotify
  install : proc.loop = .installs →
    proc.tempValue = proc.dispatch.installStopIndex ∧ p.lastDispatchedInstall ≤ proc.tempValue

/-- What has been called and what is ahead are the pairs that have been reached. -/
structure ProcessOk (maxPpiSupported : Nat) (p : PpiData) (proc : Option Process) (calls : List (Descriptor × Int))
    (reinstalled : List Int) : Prop where
  installRange : 0 ≤ p.lastDispatchedInstall ∧ p.lastDispatchedInstall ≤ p.ppiListEnd
  notifyRange : p.dispatchListEnd ≤ p.lastDispatchedNotify ∧ p.lastDispatchedNotify ≤ maxPpiSupported - 1
  running : ∀ pr, proc = some pr → Running maxPpiSupported p pr
  called : ∀ n k, n.has descriptorNotifyDispatch = true → k ∉ reinstalled →
    calls.count (n, k) + aheadOf p.ppiListPtrs n k proc =
      (notifies p.ppiListPtrs (maxPpiSupported - 1) (reachedNotify p proc)).count n *
        meets p.ppiListPtrs n k 0 (reachedInstall p proc)

namespace ProcessOk
variable {proc : Option Process} {pr : Process}

theorem reached (h : ProcessOk maxPpiSupported p proc calls reinstalled) :
    p.dispatchListEnd ≤ reachedNotify p proc ∧ reachedInstall p proc ≤ p.ppiListEnd ∧ 0 ≤ reachedInstall p proc := by
  have h1 := h.installRange
  have h2 := h.notifyRange
  match proc, h with
  | none, _ => exact ⟨h2.1, h1.2, h1.1⟩
  | some ⟨.notifies, temp, d⟩, h =>
    have hr := h.running _ rfl
    have h3 := hr.notify rfl
    have h4 := hr.stop
    simp only [reachedNotify, reachedInstall] at h3 h4 ⊢
    exact ⟨by omega, h1.2, h1.1⟩
  | some ⟨.installs, temp, d⟩, h =>
    have hr := h.running _ rfl
    have h3 := hr.install rfl
    have h4 := hr.installs
    simp only [reachedNotify, reachedInstall] at h3 h4 ⊢
    exact ⟨h2.1, by omega, by omega⟩

/-- The dispatch notifies and the PPIs that are there stay where they are. -/
theorem mono (h : ProcessOk maxPpiSupported p proc calls reinstalled) {p' : PpiData} {reinstalled' : List Int}
    (hinstall : p'.lastDispatchedInstall = p.lastDispatchedInstall)
    (hnotify : p'.lastDispatchedNotify = p.lastDispatchedNotify) (hppi : p.ppiListEnd ≤ p'.ppiListEnd)
    (hdispatch : p'.dispatchListEnd ≤ p.dispatchListEnd) (hre : ∀ k ∉ reinstalled', k ∉ reinstalled)
    (hlow : ∀ k, k < p.ppiListEnd → k ∉ reinstalled' → p'.ppiListPtrs k = p.ppiListPtrs k)
    (hhigh : ∀ i, p.dispatchListEnd < i → p'.ppiListPtrs i = p.ppiListPtrs i) :
    ProcessOk maxPpiSupported p' proc calls reinstalled' := by
  have h1 := h.installRange
  have h2 := h.notifyRange
  obtain ⟨h3, h4, h5⟩ := h.reached
  have hrn : reachedNotify p' proc = reachedNotify p proc := by unfold reachedNotify; rw [hnotify]
  have hri : reachedInstall p' proc = reachedInstall p proc := by unfold reachedInstall; rw [hinstall]
  refine ⟨by omega, by omega, fun pr hpr => ?_, fun n k hn hk => ?_⟩
  · obtain ⟨r1, r2, r3, r4, r5, r6⟩ := h.running pr hpr
    exact ⟨by omega, by omega, r3, r4, by rw [hnotify]; exact r5, by rw [hinstall]; exact r6⟩
  · have hahead : aheadOf p'.ppiListPtrs n k proc = aheadOf p.ppiListPtrs n k proc := by
      cases proc with
      | none => rfl
      | some pr =>
        have hr := h.running pr rfl
        have hstop := hr.stop
        have hinst := hr.installs
        exact ahead_congr n (fun i hi _ => hhigh i (by omega)) fun hlt => by rw [hlow k (by omega) hk]
    rw [hahead, hrn, hri, h.called n k hn (hre k hk), notifies_congr fun i hi _ => (hhigh i (by omega)).symm]
    congr 1
    exact (meets_congr n fun _ hlt => by rw [hlow k (by omega) hk]).symm

theorem callback_calls (h : ProcessOk maxPpiSupported p proc calls reinstalled) {c : List (Descriptor × Int)}
    (hc : ∀ x ∈ c, x.1.has descriptorNotifyDispatch = false) :
    ProcessOk maxPpiSupported p proc (calls ++ c) reinstalled where
  installRange := h.installRange
  notifyRange := h.notifyRange
  running := h.running
  called n k hn hk := by
    have hzero : c.count (n, k) = 0 := List.count_eq_zero.mpr fun hin => by
      have := hc _ hin
      rw [hn] at this
      cases this
    rw [List.count_append, hzero, Nat.add_zero]
    exact h.called n k hn hk

/-- The notifies above the end of the dispatch notifies. -/
theorem has_dispatch {i : Int} (hd : ∀ n ∈ dispatchNotifies maxPpiSupported p, n.has descriptorNotifyDispatch = true)
    (h1 : p.dispatchListEnd < i) (h2 : i ≤ maxPpiSupported - 1) :
    (p.ppiListPtrs i).has descriptorNotifyDispatch = true :=
  hd _ (mem_notifies.mpr ⟨i, h1, h2, rfl⟩)

theorem tick (h : ProcessOk maxPpiSupported p (some pr) calls reinstalled) {d' : Dispatch} {c : List (Descriptor × Int)}
    (hd : ∀ n ∈ dispatchNotifies maxPpiSupported p, n.has descriptorNotifyDispatch = true)
    (ht : pr.dispatch.tick p.ppiListPtrs = some (d', c)) :
    ProcessOk maxPpiSupported p (some { pr with dispatch := d' }) (calls ++ c) reinstalled := by
  obtain ⟨r1, r2, r3, r4, r5, r6⟩ := h.running pr rfl
  obtain ⟨-, m2, m3, -, m5⟩ := tick_moves ht
  refine ⟨h.installRange, h.notifyRange, fun x hx => ?_, fun n k hn hk => ?_⟩
  · obtain rfl := Option.some.inj hx
    refine ⟨by simp only; omega, by simp only; omega, by simp only; omega, fun hlt => ?_, fun hl => ?_, fun hl => ?_⟩
    · simp only at hlt ⊢
      rcases m5 with ⟨m5, m6⟩ | ⟨m5, m6⟩
      · rw [m6]
        exact r4 (by omega)
      · rw [m6 hlt]
        exact has_dispatch hd (by omega) (by omega)
    · simp only
      rw [m3]
      exact r5 hl
    · simp only
      rw [m2]
      exact r6 hl
  · have hcalled := h.called n k hn hk
    have hreach : reachedNotify p (some { pr with dispatch := d' }) = reachedNotify p (some pr) ∧
        reachedInstall p (some { pr with dispatch := d' }) = reachedInstall p (some pr) := by
      obtain ⟨loop, temp, d⟩ := pr
      cases loop <;> exact ⟨rfl, rfl⟩
    rw [hreach.1, hreach.2, ← hcalled, List.count_append]
    simp only [aheadOf]
    rw [tick_ahead n k ht]
    omega

/-- `DispatchNotify` has returned, and the loop takes note. -/
theorem done (h : ProcessOk maxPpiSupported p (some pr) calls reinstalled) (ht : pr.dispatch.tick p.ppiListPtrs = none) :
    ProcessOk maxPpiSupported (pr.done p) none calls reinstalled := by
  have h1 := h.installRange
  have h2 := h.notifyRange
  have hr := h.running pr rfl
  have hcalled := h.called
  obtain ⟨loop, temp, d⟩ := pr
  have hzero : ∀ n k, aheadOf p.ppiListPtrs n k (some ⟨loop, temp, d⟩) = 0 := fun n k => tick_none n k ht
  cases loop with
  | notifies =>
    have h3 := hr.notify rfl
    have h4 := hr.stop
    simp only at h3 h4
    refine ⟨h1, ⟨by simp only [Process.done]; omega, by simp only [Process.done]; omega⟩, nofun,
      fun n k hn hk => ?_⟩
    have := hcalled n k hn hk
    rw [hzero] at this
    exact this
  | installs =>
    have h3 := hr.install rfl
    have h4 := hr.installs
    simp only at h3 h4
    refine ⟨⟨by simp only [Process.done]; omega, by simp only [Process.done]; omega⟩, h2, nofun,
      fun n k hn hk => ?_⟩
    have := hcalled n k hn hk
    rw [hzero] at this
    exact this

theorem first (h : ProcessOk maxPpiSupported p none calls reinstalled)
    (hd : ∀ n ∈ dispatchNotifies maxPpiSupported p, n.has descriptorNotifyDispatch = true) :
    ProcessOk maxPpiSupported p (some (firstLoop p)) calls reinstalled := by
  have h1 := h.installRange
  have h2 := h.notifyRange
  refine ⟨h1, h2, fun x hx => ?_, fun n k hn hk => ?_⟩
  · obtain rfl := Option.some.inj hx
    refine ⟨h1.2, Int.le_refl _, h2.2, fun hlt => ?_, fun _ => ⟨rfl, h2.1⟩, fun hl => Loop.noConfusion hl⟩
    simp only [firstLoop, dispatchNotify, Dispatch.enter] at hlt ⊢
    rw [if_pos hlt]
    exact has_dispatch hd hlt h2.2
  · have hcalled := h.called n k hn hk
    simp only [aheadOf, reachedNotify, reachedInstall, Nat.add_zero, firstLoop] at hcalled ⊢
    rw [ahead_dispatchNotify, hcalled, notifies_append h2.2 h2.1, List.count_append, Nat.add_mul]

theorem second (h : ProcessOk maxPpiSupported p none calls reinstalled)
    (hd : ∀ n ∈ dispatchNotifies maxPpiSupported p, n.has descriptorNotifyDispatch = true)
    (hapart : ∀ n ∈ notifies p.ppiListPtrs p.lastDispatchedNotify p.dispatchListEnd,
      ∀ k ∈ installs p.lastDispatchedInstall p.ppiListEnd, (p.ppiListPtrs k).guid ≠ n.guid) {next : Process}
    (hnext : secondLoop maxPpiSupported p = some next) :
    ProcessOk maxPpiSupported p (some next) calls reinstalled := by
  have h1 := h.installRange
  have h2 := h.notifyRange
  unfold secondLoop at hnext
  split at hnext
  · obtain rfl := Option.some.inj hnext
    refine ⟨h1, h2, fun x hx => ?_, fun n k hn hk => ?_⟩
    · obtain rfl := Option.some.inj hx
      refine ⟨Int.le_refl _, Int.le_refl _, Int.le_refl _, fun hlt => ?_, fun hl => Loop.noConfusion hl,
        fun _ => ⟨rfl, h1.2⟩⟩
      simp only [dispatchNotify, Dispatch.enter] at hlt ⊢
      rw [if_pos hlt]
      exact has_dispatch hd hlt (Int.le_refl _)
    · have hcalled := h.called n k hn hk
      simp only [aheadOf, reachedNotify, reachedInstall, Nat.add_zero] at hcalled ⊢
      have hnew : (notifies p.ppiListPtrs p.lastDispatchedNotify p.dispatchListEnd).count n *
          meets p.ppiListPtrs n k p.lastDispatchedInstall p.ppiListEnd = 0 := by
        by_cases hin : n ∈ notifies p.ppiListPtrs p.lastDispatchedNotify p.dispatchListEnd
        · rw [show meets p.ppiListPtrs n k p.lastDispatchedInstall p.ppiListEnd = 0 from
            if_neg fun hm => hapart n hin k (mem_installs.mpr ⟨hm.1, hm.2.1⟩) hm.2.2, Nat.mul_zero]
        · rw [List.count_eq_zero_of_not_mem hin, Nat.zero_mul]
      rw [ahead_dispatchNotify, hcalled, notifies_append h2.2 h2.1, List.count_append, Nat.add_mul, hnew, Nat.add_zero,
        ← Nat.mul_add, ← meets_split _ _ _ h1.1 h1.2]
  · split at hnext
    · cases hnext
    · obtain rfl := Option.some.inj hnext
      exact h.first hd

end ProcessOk

/-! ## Each step -/

/-- When the second loop comes to its test again, no notify that is new since its first one has the GUID of a PPI that
is new. -/
def AfterInstalls (p : PpiData) : List Dispatch → Option Process → Prop
  | [], some proc =>
    proc.loop = .installs → proc.dispatch.tick p.ppiListPtrs = none →
      ∀ n ∈ notifies p.ppiListPtrs p.lastDispatchedNotify p.dispatchListEnd,
        ∀ k ∈ installs proc.tempValue p.ppiListEnd, (p.ppiListPtrs k).guid ≠ n.guid
  | _, _ => True

/-- The calls succeed, and what they move is not ahead of a call that is under way. -/
def Deliverable (s : State) : Event → Prop
  | .install ppiList => (peiInstallPpi s.data ppiList).map (·.1) = some .success
  | .notify notifyList =>
    (peiNotifyPpi s.data notifyList).map (·.1) = some .success ∧
      ((∀ n ∈ listed (notifyList.getD []), n.has descriptorNotifyDispatch = false) ∨
        ∀ d ∈ s.stack, d.index1 ≤ d.notifyStopIndex + 1)
  | .reinstall oldPpi newPpi =>
    (peiReInstallPpi s.data oldPpi newPpi).1 = .success ∧
      ∀ found ∈ (peiReInstallPpi s.data oldPpi newPpi).2.2.toList, ∀ new ∈ newPpi.toList, ∀ d ∈ s.stack,
        Undisturbed s.data.ppiListPtrs found.1 new d
  | .tick => AfterInstalls s.data s.stack s.process
  | .process | .returns => True

structure DeliveryOk (maxPpiSupported : Nat) (s : State) : Prop where
  holds : Holds maxPpiSupported s
  callback : CallbackOk s.data s.stack s.calls s.due s.reinstalled
  process : ProcessOk maxPpiSupported s.data s.process s.calls s.reinstalled

namespace DeliveryOk
variable {s s' : State}

theorem start_ok (maxPpiSupported : Nat) : DeliveryOk maxPpiSupported (start maxPpiSupported) where
  holds := Holds.start_holds maxPpiSupported
  callback := by
    refine ⟨fun d hd => absurd hd List.not_mem_nil, fun n k _ => rfl, fun n k _ => ?_⟩
    simp only [start, initializePpiServices]
    rw [meets_empty _ _ _ (Int.le_refl _), Nat.mul_zero, List.count_nil]
  process := by
    refine ⟨⟨Int.le_refl _, Int.le_refl _⟩, ⟨Int.le_refl _, Int.le_refl _⟩,
      fun pr hpr => absurd hpr (Option.some_ne_none pr).symm, fun n k _ _ => ?_⟩
    simp only [start, initializePpiServices, reachedInstall]
    rw [meets_empty _ _ _ (Int.le_refl _), Nat.mul_zero, List.count_nil]
    rfl

theorem callback_flags (h : DeliveryOk maxPpiSupported s) :
    ∀ n ∈ callbackNotifies s.data, n.has descriptorNotifyDispatch = false :=
  fun n hn => (h.holds.callbacks n hn).2

theorem dispatch_flags (h : DeliveryOk maxPpiSupported s) :
    ∀ n ∈ dispatchNotifies maxPpiSupported s.data, n.has descriptorNotifyDispatch = true :=
  fun n hn => (h.holds.dispatches n hn).2

theorem step_install (h : DeliveryOk maxPpiSupported s) {ppiList : Option (List Descriptor)}
    (hok : Deliverable s (.install ppiList)) (hs : step maxPpiSupported s (.install ppiList) = some s') :
    DeliveryOk maxPpiSupported s' := by
  obtain ⟨⟨status, p', d⟩, hcall, hstatus⟩ := Option.map_eq_some_iff.mp hok
  obtain rfl : status = .success := hstatus
  have hholds := h.holds.step_install (fun status p' d hc hfail => absurd
    (Prod.mk.inj (Option.some.inj (hcall.symm.trans hc))).1.symm hfail) hs
  rcases installPpi_cases h.holds.ordered.room hcall with ⟨list, rfl, -, hend, rfl, rfl⟩ | ⟨-, hst, -, -⟩ |
    ⟨_, _, -, hst, -⟩
  · simp only [step, hcall] at hs
    split at hs
    · cases hs
    · obtain rfl := Option.some.inj hs
      cases hend with
      | success _ _ hle =>
        have ho := h.holds.ordered
        refine ⟨hholds, h.callback.install ho h.callback_flags hle, ?_⟩
        have h1 := ho.room
        have h2 := ho.callbacks
        simp only [PpiData.free] at hle
        refine h.process.mono rfl rfl ?_ (Int.le_refl _) (fun _ hk => hk) ?_ ?_
        · simp only [PpiData.installed]
          omega
        · exact fun k hk _ => place_outside (.inl hk)
        · exact fun i hi => place_outside (.inr (by omega))
  · cases hst
  · exact absurd rfl hst

theorem step_notify (h : DeliveryOk maxPpiSupported s) {notifyList : Option (List Descriptor)}
    (hok : Deliverable s (.notify notifyList)) (hs : step maxPpiSupported s (.notify notifyList) = some s') :
    DeliveryOk maxPpiSupported s' := by
  obtain ⟨hsuccess, hstay⟩ := hok
  obtain ⟨⟨status, p', d⟩, hcall, hstatus⟩ := Option.map_eq_some_iff.mp hsuccess
  obtain rfl : status = .success := hstatus
  have hholds := h.holds.step_notify (fun status p' d hc hfail => absurd
    (Prod.mk.inj (Option.some.inj (hcall.symm.trans hc))).1.symm hfail) hs
  have ho := h.holds.ordered
  rcases notifyPpi_cases ho.room ho.callbacks hcall with ⟨list, rfl, -, hend, hr, rfl⟩ | ⟨-, hst, -, -⟩ |
    ⟨_, _, -, hst, -⟩
  · simp only [step, hcall] at hs
    split at hs
    · cases hs
    · obtain rfl := Option.some.inj hs
      cases hend with
      | success _ _ hle =>
        refine ⟨hholds, h.callback.notify ho hr hle hstay, ?_⟩
        have h1 := ho.room
        have h3 := hr.notifyListEnd
        simp only [PpiData.free] at hle
        refine h.process.mono hr.lastInstall hr.lastNotify (Int.le_of_eq hr.ppiListEnd.symm) hr.between.2
          (fun _ hk => hk) ?_ ?_
        · exact fun k hk _ => hr.frame k (.inl (by simp only [Option.getD_some] at *; omega))
        · exact fun i hi => hr.frame i (.inr hi)
  · cases hst
  · exact absurd rfl hst

theorem step_reinstall (h : DeliveryOk maxPpiSupported s) {oldPpi newPpi : Option Descriptor}
    (hok : Deliverable s (.reinstall oldPpi newPpi)) (hs : step maxPpiSupported s (.reinstall oldPpi newPpi) = some s') :
    DeliveryOk maxPpiSupported s' := by
  obtain ⟨hsuccess, hclear⟩ := hok
  have hholds := h.holds.step_reinstall hs
  have ho := h.holds.ordered
  rcases hcall : peiReInstallPpi s.data oldPpi newPpi with ⟨status, p', d⟩
  rw [hcall] at hsuccess hclear
  obtain rfl : status = .success := hsuccess
  rcases reinstallPpi_cases hcall with ⟨-, -, hst⟩ | ⟨new, index, rfl, -, h0, hlt, rfl, rfl⟩
  · exact absurd rfl hst
  · have hundisturbed : ∀ e ∈ s.stack, Undisturbed s.data.ppiListPtrs index new e :=
      hclear _ (List.mem_singleton.mpr rfl) new (List.mem_singleton.mpr rfl)
    simp only [step, hcall] at hs
    split at hs
    · cases hs
    · obtain rfl := Option.some.inj hs
      refine ⟨hholds, h.callback.reinstall ho h.callback_flags hlt hundisturbed, ?_⟩
      have h1 := ho.room
      have h2 := ho.callbacks
      refine h.process.mono rfl rfl (Int.le_refl _) (Int.le_refl _) (fun k hk hin => hk (List.mem_cons_of_mem _ hin)) ?_ ?_
      · exact fun k _ hk => Function.update_of_ne (fun heq => hk (by subst heq; exact List.mem_cons_self)) _ _
      · exact fun i hi => Function.update_of_ne (by omega) _ _

/-- `ProcessNotifyList` begins. -/
theorem step_process (h : DeliveryOk maxPpiSupported s) (hs : step maxPpiSupported s .process = some s') :
    DeliveryOk maxPpiSupported s' := by
  have hholds := h.holds.step_dispatch (e := .process) rfl hs
  simp only [step] at hs
  split at hs
  · rename_i hidle
    obtain rfl := Option.some.inj hs
    refine ⟨hholds, h.callback, ?_⟩
    have hprocess := h.process
    rw [Option.isNone_iff_eq_none.mp hidle.2] at hprocess
    simp only
    unfold processNotifyList
    split
    · exact hprocess.first h.dispatch_flags
    · rename_i heq
      cases hnext : secondLoop maxPpiSupported s.data with
      | none => exact hprocess
      | some next =>
        refine hprocess.second h.dispatch_flags (fun n hn => ?_) hnext
        rw [notifies_nil (by omega)] at hn
        cases hn
  · cases hs

/-- `DispatchNotify` goes on. -/
theorem step_tick (h : DeliveryOk maxPpiSupported s) (hok : Deliverable s .tick)
    (hs : step maxPpiSupported s .tick = some s') : DeliveryOk maxPpiSupported s' := by
  have hholds := h.holds.step_dispatch (e := .tick) rfl hs
  have hcallback := h.callback
  have hprocess := h.process
  rcases hstack : s.stack with _ | ⟨d, stack⟩
  · rw [hstack] at hcallback
    rcases hproc : s.process with _ | proc
    · simp only [step, hstack, hproc] at hs
      split at hs <;> cases hs
    · simp only [Deliverable, hstack, hproc, AfterInstalls] at hok
      simp only [step, hstack, hproc] at hs
      rw [hproc] at hprocess
      split at hs
      · cases hs
      · rcases htick : proc.dispatch.tick s.data.ppiListPtrs with _ | ⟨d', c⟩
        · simp only [htick] at hs
          obtain rfl := Option.some.inj hs
          have hdone := hprocess.done htick
          refine ⟨hholds, hcallback.done proc, ?_⟩
          · have hflags : ∀ n ∈ dispatchNotifies maxPpiSupported (proc.done s.data),
                n.has descriptorNotifyDispatch = true := fun n hn => (hholds.dispatches n hn).2
            rcases hloop : proc.loop with _ | _
            · simp only [Process.next, hloop]
              unfold processNotifyList
              split
              · exact hdone.first hflags
              · rename_i heq
                cases hnext : secondLoop maxPpiSupported (proc.done s.data) with
                | none => exact hdone
                | some next =>
                  refine hdone.second hflags (fun n hn => ?_) hnext
                  rw [notifies_nil (by omega)] at hn
                  cases hn
            · simp only [Process.next, hloop]
              cases hnext : secondLoop maxPpiSupported (proc.done s.data) with
              | none => exact hdone
              | some next =>
                refine hdone.second hflags ?_ hnext
                have hapart := hok hloop htick
                unfold Process.done
                rw [hloop]
                exact hapart
        · simp only [htick] at hs
          obtain rfl := Option.some.inj hs
          have hcalls : ∀ x ∈ c, x.1.has descriptorNotifyDispatch = true := fun x hx => by
            obtain ⟨hlt, hc⟩ := tick_calls htick
            rw [hc x hx]
            exact (hprocess.running proc rfl).current hlt
          exact ⟨hholds, hcallback.called hcalls, hprocess.tick h.dispatch_flags htick⟩
  · simp only [step, hstack] at hs
    rw [hstack] at hcallback
    split at hs
    · cases hs
    · rcases htick : d.tick s.data.ppiListPtrs with _ | ⟨d', c⟩
      · simp only [htick] at hs
        obtain rfl := Option.some.inj hs
        exact ⟨hholds, hcallback.pop htick, hprocess⟩
      · simp only [htick] at hs
        obtain rfl := Option.some.inj hs
        have hcalls : ∀ x ∈ c, x.1.has descriptorNotifyDispatch = false := fun x hx => by
          obtain ⟨hlt, hc⟩ := tick_calls htick
          rw [hc x hx]
          exact (hcallback.nested d List.mem_cons_self).current hlt
        exact ⟨hholds, hcallback.tick htick, hprocess.callback_calls hcalls⟩

/-- A notify function returns. -/
theorem step_returns (h : DeliveryOk maxPpiSupported s) (hs : step maxPpiSupported s .returns = some s') :
    DeliveryOk maxPpiSupported s' := by
  have hholds := h.holds.step_dispatch (e := .returns) rfl hs
  have hcallback := h.callback
  have hprocess := h.process
  rcases hstack : s.stack with _ | ⟨d, stack⟩
  · rw [hstack] at hcallback
    rcases hproc : s.process with _ | proc
    · simp only [step, hstack, hproc] at hs
      cases hs
    · simp only [step, hstack, hproc] at hs
      rw [hproc] at hprocess
      split at hs
      · obtain rfl := Option.some.inj hs
        refine ⟨hholds, hcallback, hprocess.installRange, hprocess.notifyRange, fun pr hpr => ?_, fun n k hn hk => ?_⟩
        · obtain rfl := Option.some.inj hpr
          obtain ⟨r1, r2, r3, r4, r5, r6⟩ := hprocess.running proc rfl
          exact ⟨r1, r2, r3, r4, r5, r6⟩
        · have hcalled := hprocess.called n k hn hk
          obtain ⟨loop, temp, d⟩ := proc
          cases loop <;> exact hcalled
      · cases hs
  · simp only [step, hstack] at hs
    rw [hstack] at hcallback
    split at hs
    · obtain rfl := Option.some.inj hs
      refine ⟨hholds, ⟨fun e he => ?_, fun n k hn => ?_, hcallback.once⟩, hprocess⟩
      · rcases List.mem_cons.mp he with rfl | he
        · obtain ⟨h1, h2, h3, h4, h5⟩ := hcallback.nested d List.mem_cons_self
          exact ⟨h1, h2, h3, h4, h5⟩
        · exact hcallback.nested e (List.mem_cons_of_mem _ he)
      · have howed := hcallback.owed n k hn
        rw [List.map_cons, List.sum_cons] at howed ⊢
        exact howed
    · cases hs

theorem step_ok (h : DeliveryOk maxPpiSupported s) {e : Event} (hok : Deliverable s e)
    (hs : step maxPpiSupported s e = some s') : DeliveryOk maxPpiSupported s' := by
  cases e with
  | install ppiList => exact h.step_install hok hs
  | reinstall oldPpi newPpi => exact h.step_reinstall hok hs
  | notify notifyList => exact h.step_notify hok hs
  | process => exact h.step_process hs
  | tick => exact h.step_tick hok hs
  | returns => exact h.step_returns hs

end DeliveryOk

/-! ## Every run -/

/-- Each pair has been called as often as it is due, once if the PPI was not reinstalled. -/
structure Delivered (maxPpiSupported : Nat) (s : State) : Prop where
  callbacks : s.stack = [] → ∀ n k, n.has descriptorNotifyDispatch = false →
    s.calls.count (n, k) = s.due.count (n, k)
  once : s.stack = [] → ∀ n k, n.has descriptorNotifyDispatch = false → k ∉ s.reinstalled →
    s.calls.count (n, k) = (callbackNotifies s.data).count n * meets s.data.ppiListPtrs n k 0 s.data.ppiListEnd
  dispatches : s.process = none → s.data.lastDispatchedNotify = s.data.dispatchListEnd →
    s.data.lastDispatchedInstall = s.data.ppiListEnd → ∀ n k, n.has descriptorNotifyDispatch = true → k ∉ s.reinstalled →
    s.calls.count (n, k) =
      (dispatchNotifies maxPpiSupported s.data).count n * meets s.data.ppiListPtrs n k 0 s.data.ppiListEnd

theorem DeliveryOk.delivered {s : State} (h : DeliveryOk maxPpiSupported s) : Delivered maxPpiSupported s where
  callbacks hstack n k hn := by
    have howed := h.callback.owed n k hn
    rw [hstack, List.map_nil, List.sum_nil, Nat.add_zero] at howed
    exact howed.symm
  once hstack n k hn hk := by
    have howed := h.callback.owed n k hn
    rw [hstack, List.map_nil, List.sum_nil, Nat.add_zero] at howed
    rw [← howed, h.callback.once n k hk]
  dispatches hproc hnotify hinstall n k hn hk := by
    have hcalled := h.process.called n k hn hk
    rw [hproc] at hcalled
    simp only [aheadOf, reachedNotify, reachedInstall, Nat.add_zero] at hcalled
    rw [hcalled, hnotify, hinstall]
    rfl

theorem secondLoop_none {p : PpiData} (h : secondLoop maxPpiSupported p = none) :
    p.lastDispatchedNotify = p.dispatchListEnd ∧ p.lastDispatchedInstall = p.ppiListEnd := by
  unfold secondLoop at h
  split at h
  · cases h
  · rename_i hinstall
    split at h
    · rename_i hnotify
      exact ⟨hnotify, by omega⟩
    · cases h

theorem processNotifyList_none {p : PpiData} (h : processNotifyList maxPpiSupported p = none) :
    p.lastDispatchedNotify = p.dispatchListEnd ∧ p.lastDispatchedInstall = p.ppiListEnd := by
  unfold processNotifyList at h
  split at h
  · cases h
  · exact secondLoop_none h

/-- `ProcessNotifyList` returns with nothing left to do. -/
theorem process_settles {s s' : State} {e : Event} (hs : step maxPpiSupported s e = some s')
    (he : e = .process ∨ s.process.isSome) (hreturned : s'.process = none) :
    s'.data.lastDispatchedNotify = s'.data.dispatchListEnd ∧ s'.data.lastDispatchedInstall = s'.data.ppiListEnd := by
  rcases hproc : s.process with _ | proc
  · obtain rfl : e = .process := he.resolve_right (by simp [hproc])
    simp only [step] at hs
    split at hs
    · obtain rfl := Option.some.inj hs
      exact processNotifyList_none hreturned
    · cases hs
  · cases e with
    | install ppiList | notify notifyList =>
      simp only [step] at hs
      split at hs
      · cases hs
      · split at hs
        · obtain rfl := Option.some.inj hs
          cases hproc.symm.trans hreturned
        · obtain rfl := Option.some.inj hs
          cases hproc.symm.trans hreturned
        · cases hs
    | reinstall oldPpi newPpi =>
      simp only [step] at hs
      split at hs
      · cases hs
      · split at hs <;> obtain rfl := Option.some.inj hs <;> cases hproc.symm.trans hreturned
    | process =>
      simp only [step, hproc, Option.isNone_some, Bool.false_eq_true, and_false, if_false] at hs
      cases hs
    | tick =>
      rcases hstack : s.stack with _ | ⟨d, stack⟩
      · simp only [step, hstack, hproc] at hs
        split at hs
        · cases hs
        · rcases htick : proc.dispatch.tick s.data.ppiListPtrs with _ | ⟨d', c⟩
          · simp only [htick] at hs
            obtain rfl := Option.some.inj hs
            rcases hloop : proc.loop with _ | _
            · simp only [Process.next, hloop] at hreturned
              exact processNotifyList_none hreturned
            · simp only [Process.next, hloop] at hreturned
              exact secondLoop_none hreturned
          · simp only [htick] at hs
            obtain rfl := Option.some.inj hs
            cases hreturned
      · simp only [step, hstack] at hs
        split at hs
        · cases hs
        · split at hs <;> obtain rfl := Option.some.inj hs <;> cases hproc.symm.trans hreturned
    | returns =>
      rcases hstack : s.stack with _ | ⟨d, stack⟩
      · simp only [step, hstack, hproc] at hs
        split at hs
        · obtain rfl := Option.some.inj hs
          cases hreturned
        · cases hs
      · simp only [step, hstack] at hs
        split at hs
        · obtain rfl := Option.some.inj hs
          cases hproc.symm.trans hreturned
        · cases hs

instance (P : Int → Descriptor) (index : Int) (new : Descriptor) (d : Dispatch) : Decidable (Undisturbed P index new d) :=
  inferInstanceAs (Decidable (index < d.installStartIndex ∨ d.installStopIndex ≤ index ∨
    ((index < d.index2 ∨ d.notifyDescriptor.guid ≠ (P index).guid ∧ d.notifyDescriptor.guid ≠ new.guid) ∧
      ∀ n ∈ notifies P (d.index1 - 1) d.notifyStopIndex, n.guid ≠ (P index).guid ∧ n.guid ≠ new.guid)))

instance (p : PpiData) (stack : List Dispatch) (proc : Option Process) : Decidable (AfterInstalls p stack proc) :=
  match stack, proc with
  | [], some proc =>
    inferInstanceAs (Decidable (proc.loop = .installs → proc.dispatch.tick p.ppiListPtrs = none →
      ∀ n ∈ notifies p.ppiListPtrs p.lastDispatchedNotify p.dispatchListEnd,
        ∀ k ∈ installs proc.tempValue p.ppiListEnd, (p.ppiListPtrs k).guid ≠ n.guid))
  | [], none => inferInstanceAs (Decidable True)
  | _ :: _, _ => inferInstanceAs (Decidable True)

instance (s : State) (e : Event) : Decidable (Deliverable s e) :=
  match e with
  | .install ppiList => inferInstanceAs (Decidable ((peiInstallPpi s.data ppiList).map (·.1) = some .success))
  | .notify notifyList =>
    inferInstanceAs (Decidable ((peiNotifyPpi s.data notifyList).map (·.1) = some .success ∧
      ((∀ n ∈ listed (notifyList.getD []), n.has descriptorNotifyDispatch = false) ∨
        ∀ d ∈ s.stack, d.index1 ≤ d.notifyStopIndex + 1)))
  | .reinstall oldPpi newPpi =>
    inferInstanceAs (Decidable ((peiReInstallPpi s.data oldPpi newPpi).1 = .success ∧
      ∀ found ∈ (peiReInstallPpi s.data oldPpi newPpi).2.2.toList, ∀ new ∈ newPpi.toList, ∀ d ∈ s.stack,
        Undisturbed s.data.ppiListPtrs found.1 new d))
  | .tick => inferInstanceAs (Decidable (AfterInstalls s.data s.stack s.process))
  | .process | .returns => inferInstanceAs (Decidable True)

def Event.thenTicks (e : Event) (n : Nat) : List Event := e :: List.replicate n .tick

/-- Notify functions that install and register, and a dispatch notify that registers another one. -/
def nestedEvents : List Event :=
  [Event.notify (some [sampleNotify 1 7 0x20 false, sampleNotify 2 8 0x20 false, sampleNotify 3 8 0x40 true]) |>.thenTicks 3,
    Event.install (some [samplePpi 4 7 true]) |>.thenTicks 1,
    Event.install (some [samplePpi 5 8 true]) |>.thenTicks 3, Event.returns.thenTicks 2,
    Event.notify (some [sampleNotify 6 7 0x20 true]) |>.thenTicks 1, Event.returns.thenTicks 3, Event.returns.thenTicks 4,
    Event.reinstall (some (samplePpi 4 7 true)) (some (samplePpi 7 7 true)) |>.thenTicks 1,
    Event.returns.thenTicks 4, Event.returns.thenTicks 2,
    Event.process.thenTicks 4, Event.notify (some [sampleNotify 8 7 0x40 true]) |>.thenTicks 1,
    Event.returns.thenTicks 3, Event.returns.thenTicks 3].flatten

/-- A notify function that registers a dispatch notify while another callback notify is still to be called. -/
def rotatingEvents : List Event :=
  [Event.notify (some [sampleNotify 1 7 0x20 false, sampleNotify 2 7 0x20 true]) |>.thenTicks 3,
    Event.install (some [samplePpi 3 7 true]) |>.thenTicks 1,
    Event.notify (some [sampleNotify 4 9 0x40 true]) |>.thenTicks 1, Event.returns.thenTicks 2,
    Event.returns.thenTicks 2].flatten

end Udk.Ppi
