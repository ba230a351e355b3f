import Udk.Handle.OpenList

/-! # Open modes

`CoreOpenProtocol` looks for conflicts and then releases the lock to disconnect drivers. What they open
exclusively in the meantime it does not look for again.
-/

namespace Udk.Handle

/-- Only an exclusive call waits for drivers. -/
def Frame.opensExclusive : Frame → Bool
  | .openProtocol c _ => c.entry.exclusive
  | _ => true

structure Keeps (s : State) : Prop where
  modes : AllKeepModes s.db
  frames : ∀ f ∈ s.stack, f.opensExclusive = true

/-- Whenever `CoreOpenProtocol` goes on after it disconnected the drivers, nobody has the interface open
exclusively. -/
def reopensSafely (s : State) : Bool :=
  match s.stack with
  | .openProtocol _ prot :: _ =>
    s.status.isError || (s.db.prots prot).all fun q =>
      q.openList.any OpenProtocolData.byDriver || !q.openList.any OpenProtocolData.exclusive
  | _ => true

/-- The states that runs lead to in which every step meets `ok`. -/
def Reachable (ok : State → Event → Prop) (s : State) : Prop :=
  ∃ devicePathAt es, Run step ok (initialState devicePathAt) es s

namespace Keeps
variable {s s' : State}

/-! ## The loops -/

theorem openLoop {pool : Pool} {c : OpenCall} {prot : ProtAddress} {rest : List Frame} (h : Keeps s)
    (hrest : ∀ f ∈ rest, f.opensExclusive = true) (hc : c.entry.exclusive = true)
    (hsafe : ∀ q, s.db.prots prot = some q → q.openList.any OpenProtocolData.byDriver = false →
      q.openList.any OpenProtocolData.exclusive = false)
    (hstep : openLoop pool c prot rest s = some s') : Keeps s' := by
  rw [Handle.openLoop] at hstep
  rcases hq : s.db.prots prot with _ | q
  · rw [hq] at hstep
    cases hstep
  · simp only [hq] at hstep
    split at hstep
    · obtain rfl := Option.some.inj hstep
      exact ⟨h.modes, List.forall_mem_cons.mpr ⟨rfl, List.forall_mem_cons.mpr ⟨hc, hrest⟩⟩⟩
    · rename_i hb
      rw [Bool.not_eq_true] at hb
      obtain rfl := Option.some.inj hstep
      refine ⟨h.modes.newOpenEntry fun q' hq' => ?_, hrest⟩
      obtain rfl := Option.some.inj (hq.symm.trans hq')
      exact hasRoom_of_exclusive hc (hsafe q hq hb) hb

theorem openProtocol {pool : Pool} {c : OpenCall} (h : Keeps s) (hstep : openProtocol pool c s = some s') :
    Keeps s' := by
  have h1 := @coreOpenProtocol_keeps pool c _ h.modes
  rw [Handle.openProtocol] at hstep
  rcases ho : coreOpenProtocol pool c s.db with ⟨st, db⟩ | prot
  · rw [ho] at hstep h1
    obtain rfl := Option.some.inj hstep
    exact ⟨h1, h.frames⟩
  · rw [ho] at hstep h1
    obtain ⟨hc, q, hq, hb⟩ := h1
    refine h.openLoop h.frames hc (fun q' hq' hb' => ?_) hstep
    obtain rfl := Option.some.inj (hq.symm.trans hq')
    rw [hb] at hb'
    cases hb'

theorem finishRemoval {removal : Removal} {rest : List Frame} (h : Keeps s)
    (hrest : ∀ f ∈ rest, f.opensExclusive = true) (hstep : finishRemoval removal rest s = some s') : Keeps s' := by
  unfold Handle.finishRemoval at hstep
  split at hstep
  · split at hstep
    · cases hstep
    · obtain rfl := Option.some.inj hstep
      exact ⟨h.modes.removeProtocolInterface, hrest⟩
  · split at hstep
    · cases hstep
    · dsimp only at hstep
      split at hstep
      · obtain rfl := Option.some.inj hstep
        exact ⟨h.modes.replaceProtocolInterface, hrest⟩
      · obtain rfl := Option.some.inj hstep
        refine ⟨h.modes.replaceProtocolInterface, ?_⟩
        simp only [List.forall_mem_cons]
        exact ⟨rfl, rfl, hrest⟩

theorem disconnectLoop {prot : ProtAddress} {removal : Removal} {rest : List Frame} (h : Keeps s)
    (hrest : ∀ f ∈ rest, f.opensExclusive = true) (hstep : disconnectLoop prot removal rest s = some s') :
    Keeps s' := by
  rw [Handle.disconnectLoop] at hstep
  split at hstep
  · cases hstep
  · split at hstep
    · obtain rfl := Option.some.inj hstep
      refine ⟨h.modes, ?_⟩
      simp only [List.forall_mem_cons]
      exact ⟨rfl, rfl, hrest⟩
    · dsimp only at hstep
      split at hstep
      · obtain rfl := Option.some.inj hstep
        refine ⟨h.modes.removeQueries, ?_⟩
        simp only [List.forall_mem_cons]
        exact ⟨rfl, rfl, hrest⟩
      · have h1 : Keeps { s with db := removeQueries prot s.db } := ⟨h.modes.removeQueries, h.frames⟩
        exact h1.finishRemoval hrest hstep

theorem startRemoval {h : EfiHandle} {g : Guid} {i : Interface} {removal : Removal} (hk : Keeps s)
    (hstep : startRemoval h g i removal s = some s') : Keeps s' := by
  rw [Handle.startRemoval] at hstep
  split at hstep
  · obtain rfl := Option.some.inj hstep
    exact ⟨hk.modes, hk.frames⟩
  · split at hstep
    · obtain rfl := Option.some.inj hstep
      exact ⟨hk.modes, hk.frames⟩
    · exact hk.disconnectLoop hk.frames hstep

theorem installProtocolInterface {pool : Pool} {h : EfiHandle} {g : Guid} {i : Interface} (hk : Keeps s) :
    Keeps (coreInstallProtocolInterface pool h g i s) := by
  have hcons : ∀ f, f.opensExclusive = true → ∀ f' ∈ f :: s.stack, f'.opensExclusive = true := by
    intro f hf
    simpa only [List.forall_mem_cons] using ⟨hf, hk.frames⟩
  rw [coreInstallProtocolInterface]
  split
  · dsimp only
    split
    · exact ⟨hk.modes.handleProtocol, hcons _ rfl⟩
    · exact ⟨hk.modes.handleProtocol, hk.frames⟩
  · exact ⟨hk.modes, hcons _ rfl⟩

/-! ## The calls for many interfaces -/

theorem push {f : Frame} {rest : List Frame} (h : Keeps s) (hf : f.opensExclusive = true)
    (hrest : ∀ f ∈ rest, f.opensExclusive = true) : Keeps { s with stack := f :: rest } := by
  refine ⟨h.modes, ?_⟩
  simpa only [List.forall_mem_cons] using ⟨hf, hrest⟩

theorem runInstallMultiple {pool : Pool} {call : MultipleCall} {index : Nat} {rest : List Frame} (h : Keeps s)
    (hrest : ∀ f ∈ rest, f.opensExclusive = true) : Keeps (runInstallMultiple pool call index rest s) := by
  rw [Handle.runInstallMultiple]
  split
  · exact h.push rfl hrest
  · split
    · exact ⟨h.modes, hrest⟩
    · have h1 := h.push (f := .installMultiple call (index + 1)) rfl hrest
      have h2 : ∀ i, AllKeepModes (hasDevicePath pool i s.db).2 := fun _ => h.modes.locateDevicePath
      dsimp only
      split
      · split
        · exact ⟨h2 _, h1.frames⟩
        · exact installProtocolInterface ⟨h2 _, h1.frames⟩
      · exact installProtocolInterface h1

theorem runInstallRollback {call : MultipleCall} {remaining : List Pair} {status : EfiStatus} {rest : List Frame}
    (h : Keeps s) (hrest : ∀ f ∈ rest, f.opensExclusive = true)
    (hstep : runInstallRollback call remaining status rest s = some s') : Keeps s' := by
  unfold Handle.runInstallRollback at hstep
  split at hstep
  · obtain rfl := Option.some.inj hstep
    exact ⟨h.modes, hrest⟩
  · exact startRemoval (h.push rfl hrest) hstep

theorem runUninstallMultiple {call : MultipleCall} {index : Nat} {rest : List Frame}
    (h : Keeps s) (hrest : ∀ f ∈ rest, f.opensExclusive = true)
    (hstep : runUninstallMultiple call index rest s = some s') : Keeps s' := by
  rw [Handle.runUninstallMultiple] at hstep
  split at hstep
  · obtain rfl := Option.some.inj hstep
    exact h.push rfl hrest
  · split at hstep
    · obtain rfl := Option.some.inj hstep
      exact ⟨h.modes, hrest⟩
    · exact startRemoval (h.push rfl hrest) hstep

theorem runUninstallRollback {pool : Pool} {call : MultipleCall} {remaining : List Pair} {status : EfiStatus}
    {rest : List Frame} (h : Keeps s) (hrest : ∀ f ∈ rest, f.opensExclusive = true) :
    Keeps (runUninstallRollback pool call remaining status rest s) := by
  unfold Handle.runUninstallRollback
  split
  · exact ⟨h.modes, hrest⟩
  · exact installProtocolInterface (h.push rfl hrest)

/-! ## The system -/

theorem codeStep {pool : Pool} {a : Action} (h : Keeps s) (hstep : codeStep s pool a = some s') : Keeps s' := by
  rcases a with c | _ | _ | _ | _ | _ | _ | _ | _ | _ | st | _ | _
  · exact h.openProtocol hstep
  · obtain rfl := Option.some.inj hstep
    exact ⟨h.modes.closeProtocol, h.frames⟩
  · obtain rfl := Option.some.inj hstep
    exact h.installProtocolInterface
  · exact h.startRemoval hstep
  · exact h.startRemoval hstep
  · obtain rfl := Option.some.inj hstep
    exact ⟨h.modes, List.forall_mem_cons.mpr ⟨rfl, h.frames⟩⟩
  · obtain rfl := Option.some.inj hstep
    exact ⟨h.modes, List.forall_mem_cons.mpr ⟨rfl, h.frames⟩⟩
  · obtain rfl := Option.some.inj hstep
    exact ⟨h.modes.locateDevicePath, h.frames⟩
  · obtain rfl := Option.some.inj hstep
    exact ⟨h.modes.registerProtocolNotify, h.frames⟩
  · obtain rfl := Option.some.inj hstep
    exact ⟨h.modes.of_prots rfl, h.frames⟩
  · simp only [Handle.codeStep] at hstep
    split at hstep
    · rename_i frame rest hs
      obtain rfl := Option.some.inj hstep
      refine ⟨h.modes, fun f hf => h.frames f ?_⟩
      rw [hs]
      exact List.mem_cons_of_mem _ hf
    · rename_i saved rest hs
      obtain rfl := Option.some.inj hstep
      refine ⟨h.modes, fun f hf => h.frames f ?_⟩
      rw [hs]
      exact List.mem_cons_of_mem _ hf
    · cases hstep
  · cases hstep
  · cases hstep

theorem runStep {pool : Pool} {frame : Frame} {rest : List Frame} (h : Keeps s) (hs : s.stack = frame :: rest)
    (hsafe : reopensSafely s = true) (hstep : runStep s pool frame rest = some s') : Keeps s' := by
  have hall := h.frames
  rw [hs, List.forall_mem_cons] at hall
  obtain ⟨hframe, hrest⟩ := hall
  rcases frame with _ | _ | ⟨c, prot⟩ | ⟨a, g, i, st⟩ | ⟨prot, removal⟩ | _ | g | _ | _ | _ | _
  · cases hstep
  · cases hstep
  · simp only [Handle.runStep] at hstep
    split at hstep
    · obtain rfl := Option.some.inj hstep
      exact ⟨h.modes, hrest⟩
    · rename_i hst
      refine h.openLoop hrest hframe (fun q hq hb => ?_) hstep
      simpa [reopensSafely, hs, hst, hq, hb] using hsafe
  · obtain rfl := Option.some.inj hstep
    exact ⟨h.modes.installProtocolInterface, hrest⟩
  · simp only [Handle.runStep] at hstep
    split at hstep
    · obtain rfl := Option.some.inj hstep
      exact h.push rfl (List.forall_mem_cons.mpr ⟨rfl, hrest⟩)
    · exact h.disconnectLoop hrest hstep
  · obtain rfl := Option.some.inj hstep
    exact ⟨h.modes, hrest⟩
  · obtain rfl := Option.some.inj hstep
    exact ⟨h.modes.of_prots rfl, hrest⟩
  · obtain rfl := Option.some.inj hstep
    exact h.runInstallMultiple hrest
  · exact h.runInstallRollback hrest hstep
  · exact h.runUninstallMultiple hrest hstep
  · obtain rfl := Option.some.inj hstep
    exact h.runUninstallRollback hrest

theorem step {e : Event} (h : Keeps s) (hsafe : reopensSafely s = true) (hstep : step s e = some s') : Keeps s' := by
  rw [Handle.step] at hstep
  split at hstep
  · cases hstep
  · split at hstep
    · cases hstep
    · rename_i frame rest hs
      split at hstep
      · exact h.codeStep hstep
      · split at hstep
        · exact h.runStep hs hsafe hstep
        · split at hstep
          · cases hstep
          · obtain rfl := Option.some.inj hstep
            exact h.push rfl h.frames
        · cases hstep

end Keeps

theorem keeps_initialState (devicePathAt : Interface → DevicePath) : Keeps (initialState devicePathAt) where
  modes := by
    rintro p q hq
    cases hq
  frames := by
    rintro f hf
    obtain rfl := List.mem_singleton.mp hf
    rfl

/-- As long as exclusive opens that disconnected drivers go on safely, every interface keeps the rules of the
open modes, whatever the drivers do. -/
theorem open_modes_kept {s : State} (h : Reachable (fun s _ => reopensSafely s = true) s) : AllKeepModes s.db := by
  obtain ⟨devicePathAt, es, hrun⟩ := h
  have h1 := hrun.invariant Keeps (keeps_initialState devicePathAt) fun _ _ _ hk hsafe hs => hk.step hsafe hs
  exact h1.modes

/-- The condition is needed: an exclusive open that does not go on safely breaks the rules. -/
theorem not_keepsModes_of_unsafe {s : State} {pool : Pool} {c : OpenCall} {prot : ProtAddress} {rest : List Frame}
    {q : ProtocolInterface} (h : Keeps s) (hs : s.stack = .openProtocol c prot :: rest)
    (hq : s.db.prots prot = some q) (hi : c.imageHandle ≠ 0) (hp : pool.openData c.userHandle = true)
    (hsafe : reopensSafely s = false) :
    ∃ s' q', runStep s pool (.openProtocol c prot) rest = some s' ∧ s'.db.prots prot = some q' ∧ ¬q'.KeepsModes := by
  have hc : c.entry.exclusive = true := h.frames (.openProtocol c prot) (by simp [hs])
  simp only [reopensSafely, hs, hq, Option.all_some, Bool.or_eq_false_iff, Bool.not_eq_false'] at hsafe
  obtain ⟨hst, hb, hx⟩ := hsafe
  have hstep : Handle.runStep s pool (.openProtocol c prot) rest =
      some { s with
        db := (newOpenEntry pool c prot s.db).2, status := (newOpenEntry pool c prot s.db).1, stack := rest } := by
    simp [Handle.runStep, hst, Handle.openLoop, hq, hb]
  refine ⟨_, { q with openList := q.openList ++ [c.entry], openListCount := q.openListCount + 1 }, hstep, ?_, ?_⟩
  · simp [newOpenEntry, hi, hp, setProt, hq]
  · intro hk
    have h1 := hk.exclusive
    rw [List.countP_append, List.countP_singleton, if_pos hc] at h1
    have h2 : 0 < q.openList.countP OpenProtocolData.exclusive := by
      simpa [List.countP_pos_iff, List.any_eq_true] using hx
    omega

/-! ## Runs -/

/-- A pool that returns the address `a`. -/
def samplePool (a : Nat) : Pool where
  protEntry := true
  prot := some a
  handle := some a
  openData := fun _ => true
  handleBuffer := true
  notify := true

def event (a : Nat) (action : Action) : Event := ⟨samplePool a, action⟩

def sampleState : State := initialState fun _ => []

def runEvents (es : List Event) : State := (es.foldlM step sampleState).getD sampleState

theorem reachable_runEvents {es : List Event} (h : (es.foldlM step sampleState).isSome = true) :
    Reachable (fun _ _ => True) (runEvents es) := by
  obtain ⟨s, hs⟩ := Option.isSome_iff_exists.mp h
  refine ⟨fun _ => [], es, .of_foldlM (fun _ _ _ => trivial) ?_⟩
  rw [runEvents, hs]
  exact hs

theorem reachable_of_guarded {ok : State → Event → Prop} [∀ s e, Decidable (ok s e)] {es : List Event}
    (h : (es.foldlM (fun s e => if ok s e then step s e else none) sampleState).isSome = true) :
    Reachable ok (runEvents es) := by
  obtain ⟨s, hs⟩ := Option.isSome_iff_exists.mp h
  obtain ⟨h1, h2⟩ := Run.of_guarded hs
  refine ⟨fun _ => [], es, ?_⟩
  rw [runEvents, h1]
  exact h2

/-- The image handle of the core (9), a controller with a protocol (10), and the images of two drivers (11 and
12). The first driver manages the controller. -/
def managedController : List Event :=
  [event 9 (.installProtocolInterface 0 3 100), event 9 .run, event 99 (.initializeImageServices 9),
    event 10 (.installProtocolInterface 0 7 101), event 10 .run, event 11 (.installProtocolInterface 0 2 102),
    event 11 .run, event 12 (.installProtocolInterface 0 2 103), event 12 .run,
    event 99 (.openProtocol ⟨10, 7, true, 11, 10, efiOpenProtocolByDriver⟩),
    event 99 (.openProtocol ⟨10, 7, true, 12, 10, efiOpenProtocolExclusive⟩),
    event 99 (.openProtocol ⟨11, 2, true, 9, 0, efiOpenProtocolByHandleProtocol⟩),
    event 99 (.closeProtocol 10 7 11 10)]

/-- The first driver stops. -/
def stopEvents : List Event := managedController ++ [event 99 (.return .success), event 99 .run]

/-- The first driver opens the protocol again before it stops. -/
def reopenEvents : List Event :=
  managedController ++
    [event 99 (.openProtocol ⟨10, 7, true, 11, 0, efiOpenProtocolExclusive⟩), event 99 (.return .success),
      event 99 .run]

def openersOf (s : State) (p : ProtAddress) : Option (Nat × List (EfiHandle × EfiHandle × UInt32)) :=
  (s.db.prots p).map fun q => (q.openListCount, q.openList.map OpenProtocolData.mode)

example : openersOf (runEvents stopEvents) 10 = some (1, [(12, 10, efiOpenProtocolExclusive)]) := by decide +kernel

theorem open_modes_kept_sample : AllKeepModes (runEvents stopEvents).db :=
  open_modes_kept (reachable_of_guarded (by decide +kernel))

/-- Two agents have the protocol open exclusively. -/
theorem two_exclusive_opens :
    Reachable (fun _ _ => True) (runEvents reopenEvents) ∧ ¬AllKeepModes (runEvents reopenEvents).db := by
  refine ⟨reachable_runEvents (by decide +kernel), fun h => ?_⟩
  have hq : ((runEvents reopenEvents).db.prots 10).map (fun q => q.openList.countP OpenProtocolData.exclusive) =
      some 2 := by decide +kernel
  obtain ⟨q, hq, h2⟩ := Option.map_eq_some_iff.mp hq
  have h1 := (h 10 q hq).exclusive
  omega

end Udk.Handle
