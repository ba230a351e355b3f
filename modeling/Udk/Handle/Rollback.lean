import Udk.Handle.Multiple

/-! # Rolling back -/

namespace Udk.Handle

/-- No allocation fails in the calls for many interfaces. -/
def enoughMemory (s : State) (pool : Pool) : Bool :=
  match s.stack with
  | .installMultiple _ _ :: _ => pool.enoughFor s.userHandle
  | .install h _ _ _ :: f :: _ => f.isCode || pool.enoughFor h
  | _ => true

/-- What `CoreUninstallMultipleProtocolInterfaces` uninstalls next. -/
def nextRemoval (s : State) : Option (MultipleCall × Nat × Pair) :=
  match s.stack with
  | .uninstallMultiple call index :: _ =>
    if s.status.isError then none else call.pairs[index]?.map fun pair => (call, index, pair)
  | _ => none

/-- What is uninstalled next could be installed again. -/
def RemovesSafely (s : State) : Prop := ∀ r ∈ nextRemoval s, CanRestore r.1 r.2.1 r.2.2 s.db

/-- The step can be rolled back: there is memory, no other code changes what is on the handle of a call that is
under way, and the call does not take what it could not give back. -/
def RollsBack (s : State) (e : Event) : Prop :=
  enoughMemory s e.pool = true ∧
    (∀ a ∈ pending s.stack, ∀ s' ∈ step s e, interfacesOf s'.db a = interfacesOf s.db a) ∧ RemovesSafely s

structure MultipleInv (s : State) : Prop where
  wf : Wf s.db
  stack : StackOk s.db (some s.userHandle) (.returned s.status) s.stack
  returned : ∀ r ∈ s.returned, r.AllOrNothing

/-! ## Below the frames that go on -/

/-- The frames of the services that only code calls. -/
def Frame.fromCode : Frame → Bool
  | .openProtocol _ _ => true
  | .reinstall _ => true
  | .installMultiple _ _ => true
  | .installRollback _ _ _ => true
  | .uninstallMultiple _ _ => true
  | .uninstallRollback _ _ _ => true
  | _ => false

section
variable {db db' : Database} {u u' : Option EfiHandle} {above above' : Above} {f : Frame} {rest : List Frame}

theorem pending_cons_code (hf : f.isCode = true) : pending (f :: rest) = handlesBelow rest := by
  rcases f with _ | _ | _ | _ | _ | _ | _ | _ | _ | _ | _
  case code => rfl
  case interrupted => rfl
  all_goals cases hf

theorem pending_cons (hf : f.isCode = false) : pending (f :: rest) = pending rest := by
  simp [pending, hf]

theorem StackOk.base (hf : f.fromCode = true) (h : StackOk db u (.callee f) rest)
    (hs : ∀ a ∈ pending rest, interfacesOf db' a = interfacesOf db a) : StackOk db' u' above' rest := by
  rcases rest with _ | ⟨g, rest⟩
  · trivial
  · have hg : g.isCode = true := by
      obtain ⟨h1, _⟩ := h
      rcases g with _ | _ | _ | _ | _ | _ | _ | _ | _ | _ | _
      case code => rfl
      case interrupted => rfl
      all_goals
        rcases f with _ | _ | _ | _ | _ | _ | _ | _ | _ | _ | _ <;>
          simp_all [Frame.Ok, Frame.fromCode, Above.isCode, Frame.isCode]
    rw [pending_cons_code hg] at hs
    exact h.below_code hg hs

/-- Below a frame that code or a call for many interfaces has called. -/
theorem StackOk.caller {g : Frame} (hf : f.isCode = false) (h : StackOk db u (.callee f) (g :: rest)) :
    g.isCode = true ∨ g.fromCode = true := by
  obtain ⟨h1, _⟩ := h
  rcases g with _ | _ | _ | _ | _ | _ | _ | _ | _ | _ | _
  case install =>
    obtain ⟨_, h2⟩ := h1
    cases h2
  case openProtocol => exact absurd (hf.symm.trans h1) (by decide)
  case disconnect => exact absurd (hf.symm.trans h1) (by decide)
  case reconnect => exact absurd (hf.symm.trans h1) (by decide)
  case reinstall => exact absurd (hf.symm.trans h1) (by decide)
  case code => exact .inl rfl
  case interrupted => exact .inl rfl
  all_goals exact .inr rfl

/-- Without calls at `TPL_NOTIFY` nothing depends on the register. -/
theorem StackOk.to_none (h : StackOk db u above rest) (hn : ∀ f ∈ rest, f.atNotify = false) :
    StackOk db none above rest := by
  induction rest generalizing above u with
  | nil => trivial
  | cons f rest ih =>
    obtain ⟨h1, h2⟩ := h
    have h3 := ih h2 fun f hf => hn f (List.mem_cons_of_mem _ hf)
    have h4 := hn f List.mem_cons_self
    rcases f with _ | _ | _ | _ | _ | _ | _ | _ | _ | _ | _
    case installMultiple => cases h4
    case installRollback => cases h4
    all_goals exact ⟨h1, h3⟩

end

theorem doneAt_error {st : EfiStatus} {index : Nat} (h : st.isError = true) : doneAt st index = index - 1 := if_pos h

theorem doneAt_success {index : Nat} : doneAt .success index = index := rfl

theorem take_succ_of_some {call : MultipleCall} {n : Nat} {pair : Pair} (h : call.pairs[n]? = some pair) :
    call.pairs.take (n + 1) = call.pairs.take n ++ [pair] := by
  rw [List.take_add_one, h]
  rfl

/-! ## Installing for a call -/

theorem Installed.of_same {call : MultipleCall} {handle : EfiHandle} {done : List Pair} {db db' : Database}
    (h : Installed call handle done db) (hs : SameInterfaces db db') (hp : db'.prots = db.prots) :
    Installed call handle done db' := by
  refine ⟨fun a ha => (hs a).trans (h.others a ha), (hs handle).trans h.own, h.distinct, h.apart, ?_, h.handle_eq⟩
  rw [hp]
  exact h.lookups

theorem ne_zero_of_mem {db : Database} {h : EfiHandle} (hw : Linked db) (hne : interfacesOf db h ≠ []) : h ≠ 0 := by
  rintro rfl
  refine hne ?_
  rw [interfacesOf, protocolsOf, hw.null]
  rfl

theorem validateHandle_of_ne {db : Database} {h : EfiHandle} (hne : interfacesOf db h ≠ []) :
    coreValidateHandle h db = true := by
  obtain ⟨x, hx⟩ := List.exists_mem_of_ne_nil _ hne
  exact validateHandle_of_mem hx

section
variable {s s' : State} {pool : Pool} {rest : List Frame}

/-- `CoreInstallProtocolInterfaceNotify` ends. -/
theorem MultipleInv.runInstall {h : EfiHandle} {g : Guid} {i : Interface} {st : EfiStatus} (hinv : MultipleInv s)
    (hs : s.stack = .install h g i st :: rest) (hf : pool.fresh s.db = true) (hm : enoughMemory s pool = true)
    (ho : ∀ a ∈ pending rest, interfacesOf (installProtocolInterface pool h g i st s.db).2.2 a = interfacesOf s.db a) :
    MultipleInv { s with
      db := (installProtocolInterface pool h g i st s.db).2.2
      status := (installProtocolInterface pool h g i st s.db).1
      userHandle := (installProtocolInterface pool h g i st s.db).2.1
      stack := rest } := by
  have hspec := @installProtocolInterface_spec pool h g i st _ hinv.wf hf
  generalize installProtocolInterface pool h g i st s.db = r at hspec ho
  obtain ⟨st', h', db'⟩ := r
  obtain ⟨hw', hend⟩ := hspec
  have hstack := hinv.stack
  rw [hs] at hstack
  obtain ⟨_, hrest⟩ := hstack
  refine ⟨hw', ?_, hinv.returned⟩
  rcases rest with _ | ⟨f, rest⟩
  · trivial
  · simp only [enoughMemory, hs] at hm
    rcases hrest.caller rfl with hcode | hf
    · rw [pending_cons_code hcode] at ho
      exact hrest.below_code hcode ho
    · rcases f with _ | _ | _ | _ | _ | _ | _ | ⟨call, index⟩ | ⟨call, remaining, st0⟩ | ⟨call, index⟩ |
        ⟨call, remaining, st0⟩
      case installMultiple =>
        obtain ⟨⟨handle, hreg, rfl, hne, hpair, hdone, habs⟩, hbelow⟩ := hrest
        obtain rfl : s.userHandle = h := Option.some.inj hreg
        refine ⟨⟨h', rfl, ?_⟩, hbelow.base rfl ho⟩
        simp only
        rcases hend with ⟨rfl, hsame, hprots, herr⟩ | ⟨rfl, hkeep, hnew, hadd⟩
        · rw [doneAt_error (herr hm).1]
          exact hdone.of_same hsame hprots
        · rw [doneAt_success, ← Nat.sub_add_cancel (Nat.pos_of_ne_zero hne), take_succ_of_some hpair]
          exact hdone.snoc hinv.wf.toLinked habs hkeep hnew hadd
      case uninstallRollback =>
        obtain ⟨⟨rfl, hdone, hne⟩, hbelow⟩ := hrest
        refine ⟨?_, hbelow.base rfl ho⟩
        simp only [Frame.Ok]
        rcases hend with ⟨rfl, hsame, hprots, herr⟩ | ⟨rfl, hkeep, hnew, hadd⟩
        · have h1 := (herr hm).2.2
          rw [validateHandle_of_ne hne] at h1
          cases h1
        · obtain rfl := hkeep (ne_zero_of_mem hinv.wf.toLinked hne)
          refine ⟨hdone.tail hadd, fun _ => ?_⟩
          rw [hadd.own]
          exact List.cons_ne_nil _ _
      case installRollback =>
        obtain ⟨⟨_, _, ⟨_, h1⟩, _⟩, _⟩ := hrest
        cases h1
      case uninstallMultiple => exact hrest.1.2.elim
      case openProtocol => cases hrest.1
      case reinstall => cases hrest.1
      all_goals cases hf

/-- An interface is installed for a call. -/
theorem installMultiple_goes {call : MultipleCall} {index : Nat} {g : Guid} {i : Interface} {db : Database}
    {n : Nat} {u : Option EfiHandle} (sb : State) (hw : Wf sb.db)
    (hdone : Installed call sb.userHandle (call.pairs.take index) sb.db) (hpair : call.pairs[index]? = some (g, i))
    (hm : pool.enoughFor sb.userHandle = true) (hs : sb.stack = .installMultiple call (index + 1) :: rest)
    (hrest : StackOk db u (.callee (.installMultiple call n)) rest)
    (hd : ∀ a ∈ pending rest, interfacesOf sb.db a = interfacesOf db a)
    (hr : ∀ r ∈ sb.returned, r.AllOrNothing) :
    MultipleInv (coreInstallProtocolInterface pool sb.userHandle g i sb) := by
  have hgo := @coreInstallProtocolInterface_goes pool sb.userHandle g i sb
  generalize coreInstallProtocolInterface pool sb.userHandle g i sb = s' at hgo
  obtain ⟨hq, hret, huser, hend⟩ := hgo
  refine ⟨hq.tidy.2 hw, ?_, hret ▸ hr⟩
  have hbelow : StackOk s'.db none (.callee (.installMultiple call (index + 1))) rest := by
    refine StackOk.base rfl hrest fun a ha => ?_
    rw [hq.tidy.1.interfacesOf, hd a ha]
  rcases hend with ⟨hst, hstatus, _⟩ | ⟨st, hst, habs⟩
  · rw [hst, hs, hstatus, huser]
    exact ⟨⟨_, rfl, hdone.queried hq⟩, hbelow⟩
  · rw [hst, hs, huser]
    refine ⟨⟨_, rfl⟩, ⟨_, rfl, rfl, Nat.succ_ne_zero _, hpair, hdone.queried hq, fun x hx => ?_⟩, hbelow⟩
    by_cases hz : sb.userHandle = 0
    · rw [hz] at hx
      exact absurd rfl (ne_zero_of_mem (hq.tidy.2 hw).toLinked (List.ne_nil_of_mem hx))
    · refine habs hz ?_ x hx
      simp only [Pool.enoughFor, Bool.and_eq_true] at hm
      exact hm.2

theorem MultipleInv.runInstallMultiple {call : MultipleCall} {index : Nat} (hinv : MultipleInv s)
    (hs : s.stack = .installMultiple call index :: rest) (hm : enoughMemory s pool = true) :
    MultipleInv (runInstallMultiple pool call index rest s) := by
  have hstack := hinv.stack
  rw [hs] at hstack
  obtain ⟨⟨handle, hreg, hdone⟩, hrest⟩ := hstack
  obtain rfl := Option.some.inj hreg
  simp only [enoughMemory, hs] at hm
  simp only at hdone
  rw [Handle.runInstallMultiple]
  split
  · rename_i herr
    rw [doneAt_error herr] at hdone
    exact ⟨hinv.wf, ⟨⟨_, rfl, ⟨_, rfl⟩, hdone⟩, hrest.base rfl fun _ _ => rfl⟩, hinv.returned⟩
  · rename_i hok
    rw [doneAt, if_neg hok] at hdone
    split
    · refine ⟨hinv.wf, hrest.base rfl fun _ _ => rfl, ?_⟩
      simp only [List.forall_mem_cons]
      exact ⟨fun h => Bool.noConfusion h, hinv.returned⟩
    · rename_i g i hpair
      have hqd : Queried s.db (hasDevicePath pool i s.db).2 := queried_hasDevicePath
      have hsame : ∀ a ∈ pending rest, interfacesOf (hasDevicePath pool i s.db).2 a = interfacesOf s.db a :=
        fun a _ => hqd.tidy.1.interfacesOf a
      dsimp only
      split
      · split
        · refine ⟨hqd.tidy.2 hinv.wf, ⟨⟨_, rfl, ?_⟩, hrest.base rfl hsame⟩, hinv.returned⟩
          exact hdone.queried hqd
        · exact installMultiple_goes { s with
            stack := .installMultiple call (index + 1) :: rest, db := (hasDevicePath pool i s.db).2 }
            (hqd.tidy.2 hinv.wf) (hdone.queried hqd) hpair hm rfl hrest hsame hinv.returned
      · exact installMultiple_goes { s with stack := .installMultiple call (index + 1) :: rest }
          hinv.wf hdone hpair hm rfl hrest (fun _ _ => rfl) hinv.returned

theorem MultipleInv.runInstallRollback {call : MultipleCall} {remaining : List Pair} {st : EfiStatus}
    (hinv : MultipleInv s) (hs : s.stack = .installRollback call remaining st :: rest)
    (ho : ∀ a ∈ pending rest, interfacesOf s'.db a = interfacesOf s.db a)
    (hstep : runInstallRollback call remaining st rest s = some s') : MultipleInv s' := by
  have hstack := hinv.stack
  rw [hs] at hstack
  obtain ⟨⟨handle, hreg, _, hdone⟩, hrest⟩ := hstack
  obtain rfl := Option.some.inj hreg
  rcases remaining with _ | ⟨⟨g, i⟩, remaining⟩
  · obtain rfl := Option.some.inj hstep
    refine ⟨hinv.wf, hrest.base rfl fun _ _ => rfl, ?_⟩
    simp only [List.forall_mem_cons]
    refine ⟨fun _ => ⟨funext fun a => ?_, rfl⟩, hinv.returned⟩
    by_cases ha : a = s.userHandle
    · rw [ha]
      exact hdone.own
    · exact hdone.others a ha
  · have hmem : (g, i) ∈ interfacesOf s.db s.userHandle := by
      rw [hdone.own]
      simp
    obtain ⟨hgo, hst, hstatus, hr⟩ :=
      uninstall_at_once (s := { s with stack := .installRollback call remaining st :: rest }) hinv.wf hmem
        (fun p q hq hid => by
          obtain ⟨hh, hp⟩ := Prod.mk.inj hid
          exact hdone.lookups p q hq hh (by rw [hp]; exact List.mem_cons_self)) hstep
    refine ⟨hgo.wf, ?_, hgo.returned ▸ hinv.returned⟩
    rw [hst, hgo.userHandle]
    exact ⟨⟨_, rfl, ⟨_, rfl⟩, hdone.tail hr⟩, hrest.base rfl ho⟩

/-! ## Uninstalling for a call -/

/-- An interface is uninstalled for a call. -/
theorem uninstallMultiple_ends {call : MultipleCall} {n : Nat} {g : Guid} {i : Interface} {u : Option EfiHandle}
    {f : Frame} (hdone : Uninstalling call n s.db) (hpair : call.pairs[n]? = some (g, i))
    (hcan : CanRestore call n (g, i) s.db)
    (hgo : RemovalGoes (.uninstall call.handle g i) (.uninstallMultiple call (n + 1) :: rest) s s')
    (hf : f.fromCode = true) (hrest : StackOk s.db u (.callee f) rest)
    (ho : ∀ a ∈ pending rest, interfacesOf s'.db a = interfacesOf s.db a) (hr : ∀ r ∈ s.returned, r.AllOrNothing) :
    MultipleInv s' := by
  refine ⟨hgo.wf, ?_, hgo.returned ▸ hr⟩
  have hlt : n + 1 ≤ call.pairs.length := (List.getElem?_eq_some_iff.mp hpair).1
  have hbelow : StackOk s'.db none (.callee (.uninstallMultiple call (n + 1))) rest := hrest.base hf ho
  rcases hgo.ends with ⟨hs, he, hd⟩ | ⟨prot, hs, hd⟩ | ⟨hs, hd⟩ | ⟨h, g', i', hrm, hs, ht, hd⟩ | ⟨h, g', i', j, hrm, hs⟩
  · rw [hs]
    refine ⟨⟨hlt, ?_⟩, hbelow⟩
    simp only [doneAt_error he, Nat.add_sub_cancel]
    exact hdone.same (hd _)
  · rw [hs]
    refine ⟨trivial, rfl, ⟨hlt, g, i, rfl, Nat.succ_ne_zero n, hpair, hdone.same (hd _), ?_⟩, hbelow⟩
    rw [Nat.add_sub_cancel, CanRestore, hd]
    exact hcan
  · rw [hs]
    exact ⟨trivial, rfl, ⟨hlt, hdone.same (hd _)⟩, hbelow⟩
  · obtain ⟨rfl, rfl, rfl⟩ := Removal.uninstall.inj hrm
    obtain ⟨honly, hleft⟩ := hcan hd.present
    rw [hs]
    refine ⟨⟨hlt, ?_⟩, hbelow⟩
    simp only [ht, doneAt_success]
    refine ⟨?_, fun hlt' _ => ?_⟩
    · rw [take_succ_of_some hpair]
      exact hdone.done.snoc hd honly
    · rw [hd.own]
      exact hleft hlt'
  · cases hrm

theorem MultipleInv.runUninstallMultiple {call : MultipleCall} {index : Nat} (hinv : MultipleInv s)
    (hs : s.stack = .uninstallMultiple call index :: rest) (hsafe : RemovesSafely s)
    (ho : ∀ a ∈ pending rest, interfacesOf s'.db a = interfacesOf s.db a)
    (hstep : runUninstallMultiple call index rest s = some s') : MultipleInv s' := by
  have hstack := hinv.stack
  rw [hs] at hstack
  obtain ⟨⟨hle, hdone⟩, hrest⟩ := hstack
  simp only at hdone
  rw [Handle.runUninstallMultiple] at hstep
  split at hstep
  · rename_i herr
    rw [doneAt_error herr] at hdone
    obtain rfl := Option.some.inj hstep
    refine ⟨hinv.wf, ⟨⟨hdone.done, fun hne => ?_⟩, hrest.base rfl fun _ _ => rfl⟩, hinv.returned⟩
    have hne' : index - 1 ≠ 0 := by
      intro h0
      rw [h0] at hne
      exact hne rfl
    exact hdone.left (by omega) hne'
  · rename_i hok
    rw [doneAt, if_neg hok] at hdone
    split at hstep
    · obtain rfl := Option.some.inj hstep
      refine ⟨hinv.wf, hrest.base rfl fun _ _ => rfl, ?_⟩
      simp only [List.forall_mem_cons]
      exact ⟨fun h => Bool.noConfusion h, hinv.returned⟩
    · rename_i g i hpair
      have hcan : CanRestore call index (g, i) s.db := hsafe (call, index, g, i) (by simp [nextRemoval, hs, hok, hpair])
      have hgo := startRemoval_goes (s := { s with stack := .uninstallMultiple call (index + 1) :: rest }) hinv.wf hstep
      exact uninstallMultiple_ends (s := { s with stack := .uninstallMultiple call (index + 1) :: rest }) hdone hpair
        hcan hgo (f := .uninstallMultiple call index) rfl hrest ho hinv.returned

theorem MultipleInv.runUninstallRollback {call : MultipleCall} {remaining : List Pair} {st : EfiStatus}
    (hinv : MultipleInv s) (hs : s.stack = .uninstallRollback call remaining st :: rest) :
    MultipleInv (runUninstallRollback pool call remaining st rest s) := by
  have hstack := hinv.stack
  rw [hs] at hstack
  obtain ⟨⟨hdone, hne⟩, hrest⟩ := hstack
  rcases remaining with _ | ⟨⟨g, i⟩, remaining⟩
  · refine ⟨hinv.wf, hrest.base rfl fun _ _ => rfl, ?_⟩
    simp only [Handle.runUninstallRollback, List.forall_mem_cons]
    refine ⟨fun _ pair hpair => (hdone.own pair).mpr ⟨hpair, ?_⟩, hinv.returned⟩
    simp
  · have hne := hne (List.cons_ne_nil _ _)
    have habs : ∀ x ∈ interfacesOf s.db call.handle, x.1 ≠ g := fun x hx => hdone.apart x hx (g, i) List.mem_cons_self
    have hgo := @coreInstallProtocolInterface_goes pool call.handle g i
      { s with stack := .uninstallRollback call remaining st :: rest }
    simp only [Handle.runUninstallRollback]
    obtain ⟨hq, hret, _, hend⟩ := hgo
    have hsame := hq.tidy.1.interfacesOf
    refine ⟨hq.tidy.2 hinv.wf, ?_, by rw [hret]; exact hinv.returned⟩
    rcases hend with ⟨_, _, hno⟩ | ⟨st', hst, _⟩
    · exact absurd ⟨validateHandle_of_ne hne, habs⟩ hno
    · rw [hst]
      refine ⟨⟨_, rfl⟩, ⟨rfl, hdone.same (hsame _), ?_⟩, hrest.base rfl fun a _ => hsame a⟩
      rw [hsame]
      exact hne

/-- `CoreUninstallProtocolInterface` or `CoreReinstallProtocolInterface` goes on, called by code. -/
theorem StackOk.of_removal {f : Frame} {removal : Removal} {u : Option EfiHandle} {above : Above}
    (hf : f.isCode = true) (hrest : StackOk s.db u above (f :: rest)) (hgo : RemovalGoes removal (f :: rest) s s')
    (ho : ∀ a ∈ handlesBelow rest, interfacesOf s'.db a = interfacesOf s.db a) :
    StackOk s'.db (some s'.userHandle) (.returned s'.status) s'.stack := by
  rcases hgo.ends with ⟨hs, _, _⟩ | ⟨prot, hs, _⟩ | ⟨hs, _⟩ | ⟨h, g, i, _, hs, _, _⟩ | ⟨h, g, i, j, _, hs | hs⟩ <;> rw [hs]
  · exact hrest.below_code hf ho
  · exact ⟨trivial, rfl, hrest.below_code hf ho⟩
  · exact ⟨trivial, rfl, hrest.below_code hf ho⟩
  · exact hrest.below_code hf ho
  · exact hrest.below_code hf ho
  · exact ⟨trivial, rfl, hrest.below_code hf ho⟩

theorem MultipleInv.runDisconnect {prot : ProtAddress} {removal : Removal} (hinv : MultipleInv s)
    (hs : s.stack = .disconnect prot removal :: rest)
    (ho : ∀ a ∈ pending rest, interfacesOf s'.db a = interfacesOf s.db a)
    (hstep : runStep s pool (.disconnect prot removal) rest = some s') : MultipleInv s' := by
  have hstack := hinv.stack
  rw [hs] at hstack
  obtain ⟨_, hrest⟩ := hstack
  simp only [runStep] at hstep
  rcases rest with _ | ⟨f, rest⟩
  · split at hstep
    · obtain rfl := Option.some.inj hstep
      exact ⟨hinv.wf, ⟨trivial, rfl, trivial⟩, hinv.returned⟩
    · have hgo := disconnectLoop_goes hinv.wf hstep
      refine ⟨hgo.wf, ?_, hgo.returned ▸ hinv.returned⟩
      rcases hgo.ends with ⟨hs, _, _⟩ | ⟨prot, hs, _⟩ | ⟨hs, _⟩ | ⟨h, g, i, _, hs, _, _⟩ | ⟨h, g, i, j, _, hs | hs⟩ <;>
        rw [hs]
      · trivial
      · exact ⟨trivial, rfl, trivial⟩
      · exact ⟨trivial, rfl, trivial⟩
      · trivial
      · trivial
      · exact ⟨trivial, rfl, trivial⟩
  · rcases hrest.caller rfl with hcode | hf
    · rw [pending_cons_code hcode] at ho
      split at hstep
      · obtain rfl := Option.some.inj hstep
        exact ⟨hinv.wf, ⟨trivial, rfl, hrest.below_code hcode fun _ _ => rfl⟩, hinv.returned⟩
      · have hgo := disconnectLoop_goes hinv.wf hstep
        exact ⟨hgo.wf, .of_removal hcode hrest hgo ho, hgo.returned ▸ hinv.returned⟩
    · rcases f with _ | _ | _ | _ | _ | _ | _ | ⟨call, index⟩ | ⟨call, remaining, st0⟩ | ⟨call, index⟩ |
        ⟨call, remaining, st0⟩
      case uninstallMultiple =>
        obtain ⟨⟨hle, g, i, rfl, hne, hpair, hdone, hcan⟩, hbelow⟩ := hrest
        split at hstep
        · obtain rfl := Option.some.inj hstep
          exact ⟨hinv.wf, ⟨trivial, rfl, ⟨hle, hdone⟩, hbelow.base rfl fun _ _ => rfl⟩, hinv.returned⟩
        · have hgo := disconnectLoop_goes hinv.wf hstep
          have hidx : index - 1 + 1 = index := Nat.sub_add_cancel (Nat.pos_of_ne_zero hne)
          exact uninstallMultiple_ends hdone hpair hcan (hidx.symm ▸ hgo) (f := .uninstallMultiple call index) rfl
            hbelow ho hinv.returned
      case installMultiple =>
        obtain ⟨⟨_, _, h1⟩, _⟩ := hrest
        exact h1.elim
      case installRollback =>
        obtain ⟨⟨_, _, ⟨_, h1⟩, _⟩, _⟩ := hrest
        cases h1
      case uninstallRollback => exact hrest.1.elim
      case openProtocol => cases hrest.1
      case reinstall => cases hrest.1
      all_goals cases hf

theorem MultipleInv.runReconnect (hinv : MultipleInv s) (hs : s.stack = .reconnect :: rest) :
    MultipleInv { s with status := .accessDenied, stack := rest } := by
  have hstack := hinv.stack
  rw [hs] at hstack
  obtain ⟨_, hrest⟩ := hstack
  refine ⟨hinv.wf, ?_, hinv.returned⟩
  rcases rest with _ | ⟨f, rest⟩
  · trivial
  · rcases hrest.caller rfl with hcode | hf
    · exact hrest.below_code hcode fun _ _ => rfl
    · rcases f with _ | _ | _ | _ | _ | _ | _ | ⟨call, index⟩ | ⟨call, remaining, st0⟩ | ⟨call, index⟩ |
        ⟨call, remaining, st0⟩
      case uninstallMultiple =>
        obtain ⟨⟨hle, hdone⟩, hbelow⟩ := hrest
        exact ⟨⟨hle, hdone⟩, hbelow.base rfl fun _ _ => rfl⟩
      case installMultiple =>
        obtain ⟨⟨_, _, h1⟩, _⟩ := hrest
        exact h1.elim
      case installRollback =>
        obtain ⟨⟨_, _, ⟨_, h1⟩, _⟩, _⟩ := hrest
        cases h1
      case uninstallRollback => exact hrest.1.elim
      case openProtocol => cases hrest.1
      case reinstall => cases hrest.1
      all_goals cases hf

/-! ## The system -/

theorem StackOk.of_open {f : Frame} (hf : f.isCode = true) {u : Option EfiHandle} {above : Above}
    (hrest : StackOk s.db u above (f :: rest)) (hgo : OpenGoes (f :: rest) s s') :
    StackOk s'.db (some s'.userHandle) (.returned s'.status) s'.stack := by
  have hsame : ∀ a ∈ handlesBelow rest, interfacesOf s'.db a = interfacesOf s.db a := fun a _ => hgo.tidy.same a
  rcases hgo.stack with hs | ⟨c, prot, hs⟩ <;> rw [hs]
  · exact hrest.below_code hf hsame
  · exact ⟨trivial, rfl, hrest.below_code hf hsame⟩

theorem MultipleInv.codeStep {a : Action} {f : Frame} (hinv : MultipleInv s) (hs : s.stack = f :: rest)
    (hf : f.isCode = true) (ho : ∀ a ∈ handlesBelow rest, interfacesOf s'.db a = interfacesOf s.db a)
    (hstep : codeStep s pool a = some s') : MultipleInv s' := by
  have hstack := hinv.stack
  rw [hs] at hstack
  have hremoval : ∀ {h g i removal}, startRemoval h g i removal s = some s' → MultipleInv s' := by
    intro h g i removal hst
    have hgo := startRemoval_goes hinv.wf hst
    rw [hs] at hgo
    exact ⟨hgo.wf, .of_removal hf hstack hgo ho, hgo.returned ▸ hinv.returned⟩
  rcases a with c | _ | ⟨h, g, i⟩ | _ | _ | ⟨h, pairs⟩ | ⟨h, pairs⟩ | _ | _ | _ | st | _ | _
  · have hgo := openProtocol_goes hstep
    rw [hs] at hgo
    exact ⟨hgo.tidy.2 hinv.wf, .of_open hf hstack hgo, hgo.returned ▸ hinv.returned⟩
  · obtain rfl := Option.some.inj hstep
    refine ⟨tidy_closeProtocol.2 hinv.wf, ?_, hinv.returned⟩
    rw [hs]
    exact hstack.below_code hf ho
  · obtain rfl := Option.some.inj hstep
    have hgo := @coreInstallProtocolInterface_goes pool h g i s
    refine ⟨hgo.queried.tidy.2 hinv.wf, ?_, by rw [hgo.returned]; exact hinv.returned⟩
    rcases hgo.ends with ⟨hst, _⟩ | ⟨st, hst, _⟩ <;> rw [hst, hs]
    · exact hstack.below_code hf ho
    · exact ⟨⟨_, rfl⟩, hstack.below_code hf ho⟩
  · exact hremoval hstep
  · exact hremoval hstep
  · obtain rfl := Option.some.inj hstep
    refine ⟨hinv.wf, ?_, hinv.returned⟩
    rw [hs]
    exact ⟨⟨h, rfl, .nil s.db h pairs⟩, hstack.below_code hf ho⟩
  · obtain rfl := Option.some.inj hstep
    refine ⟨hinv.wf, ?_, hinv.returned⟩
    rw [hs]
    exact ⟨⟨Nat.zero_le _, .nil s.db h pairs, fun _ hne => absurd rfl hne⟩, hstack.below_code hf ho⟩
  · obtain rfl := Option.some.inj hstep
    refine ⟨queried_locateDevicePath.tidy.2 hinv.wf, ?_, hinv.returned⟩
    rw [hs]
    exact hstack.below_code hf ho
  · obtain rfl := Option.some.inj hstep
    refine ⟨hinv.wf.registerProtocolNotify.1, ?_, hinv.returned⟩
    rw [hs]
    exact hstack.below_code hf ho
  · obtain rfl := Option.some.inj hstep
    refine ⟨⟨⟨hinv.wf.null, hinv.wf.nodup, hinv.wf.owned, hinv.wf.listed, hinv.wf.known, hinv.wf.counted⟩,
      hinv.wf.used⟩, ?_, hinv.returned⟩
    rw [hs]
    exact hstack.below_code hf ho
  · -- The frame below code is none of the calls for many interfaces: it does not look at the status.
    simp only [Handle.codeStep, hs] at hstep
    split at hstep
    · rename_i f' rest' heq
      obtain ⟨rfl, rfl⟩ := List.cons.inj heq
      obtain rfl := Option.some.inj hstep
      obtain ⟨h1, h2⟩ := hstack.2
      refine ⟨hinv.wf, ⟨?_, ?_⟩, hinv.returned⟩
      · rcases f' with _ | _ | _ | _ | _ | _ | _ | _ | _ | _ | _
        case install => exact ⟨_, rfl⟩
        case installMultiple =>
          obtain ⟨_, h3, _⟩ := h1
          cases h3
        case installRollback =>
          obtain ⟨_, h3, _⟩ := h1
          cases h3
        case uninstallMultiple => exact h1.2.elim
        case uninstallRollback => exact h1.elim
        all_goals trivial
      · have hnone : f'.register none = none := by cases f' <;> rfl
        rw [show Frame.code.register (some s.userHandle) = none from rfl, hnone] at h2
        exact h2.of_none
    · rename_i saved rest' heq
      obtain ⟨rfl, rfl⟩ := List.cons.inj heq
      obtain rfl := Option.some.inj hstep
      exact ⟨hinv.wf, hstack.2.of_none, hinv.returned⟩
    · cases hstep
  · cases hstep
  · cases hstep

theorem MultipleInv.runStep {f : Frame} (hinv : MultipleInv s) (hs : s.stack = f :: rest)
    (hfresh : pool.fresh s.db = true) (hm : enoughMemory s pool = true) (hsafe : RemovesSafely s)
    (ho : ∀ a ∈ pending rest, interfacesOf s'.db a = interfacesOf s.db a)
    (hstep : runStep s pool f rest = some s') : MultipleInv s' := by
  have hstack := hinv.stack
  rw [hs] at hstack
  obtain ⟨_, hrest⟩ := hstack
  rcases f with _ | _ | ⟨c, prot⟩ | ⟨h, g, i, st⟩ | ⟨prot, removal⟩ | _ | g | ⟨call, index⟩ | ⟨call, remaining, st⟩ |
    ⟨call, index⟩ | ⟨call, remaining, st⟩
  · cases hstep
  · cases hstep
  · simp only [Handle.runStep] at hstep
    split at hstep
    · obtain rfl := Option.some.inj hstep
      exact ⟨hinv.wf, hrest.base rfl fun _ _ => rfl, hinv.returned⟩
    · have hgo := openLoop_goes hstep
      refine ⟨hgo.tidy.2 hinv.wf, ?_, hgo.returned ▸ hinv.returned⟩
      rcases hgo.stack with hs' | ⟨c', prot', hs'⟩ <;> rw [hs']
      · exact hrest.base rfl ho
      · exact ⟨trivial, rfl, hrest.base rfl ho⟩
  · obtain rfl := Option.some.inj hstep
    exact hinv.runInstall hs hfresh hm ho
  · exact hinv.runDisconnect hs ho hstep
  · obtain rfl := Option.some.inj hstep
    exact hinv.runReconnect hs
  · obtain rfl := Option.some.inj hstep
    exact ⟨hinv.wf.signal, hrest.base rfl ho, hinv.returned⟩
  · obtain rfl := Option.some.inj hstep
    exact hinv.runInstallMultiple hs hm
  · exact hinv.runInstallRollback hs ho hstep
  · exact hinv.runUninstallMultiple hs hsafe ho hstep
  · obtain rfl := Option.some.inj hstep
    exact hinv.runUninstallRollback hs

theorem MultipleInv.step {e : Event} (hinv : MultipleInv s) (hok : RollsBack s e) (hstep : step s e = some s') :
    MultipleInv s' := by
  obtain ⟨hm, hothers, hsafe⟩ := hok
  have ho : ∀ a ∈ pending s.stack, interfacesOf s'.db a = interfacesOf s.db a :=
    fun a ha => hothers a ha s' hstep
  rw [Handle.step] at hstep
  split at hstep
  · cases hstep
  · rename_i hfresh
    split at hstep
    · cases hstep
    · rename_i f rest hs
      rw [hs] at ho
      split at hstep
      · rename_i hf
        rw [pending_cons_code hf] at ho
        exact hinv.codeStep hs hf ho hstep
      · rename_i hf
        rw [pending_cons (by simpa using hf)] at ho
        split at hstep
        · exact hinv.runStep hs (by simpa using hfresh) hm hsafe ho hstep
        · split at hstep
          · cases hstep
          · rename_i hn
            obtain rfl := Option.some.inj hstep
            refine ⟨hinv.wf, ⟨trivial, hinv.stack.to_none fun f hf => ?_⟩, hinv.returned⟩
            rw [List.any_eq_true] at hn
            simpa using fun h => hn ⟨f, hf, h⟩
        · cases hstep

end

theorem multipleInv_initialState (devicePathAt : Interface → DevicePath) : MultipleInv (initialState devicePathAt) where
  wf :=
    { null := rfl
      nodup := fun _ => List.nodup_nil
      owned := fun _ _ hp => by cases hp
      listed := fun _ _ hq => by cases hq
      known := fun _ _ hq => by cases hq
      counted := fun _ _ hq => by cases hq
      used := fun _ h => by cases h }
  stack := ⟨trivial, trivial⟩
  returned := fun _ hr => by cases hr

/-- In every run whose steps can be rolled back, the calls for many interfaces are all or nothing. -/
theorem multiple_all_or_nothing {s : State} (h : Reachable RollsBack s) : ∀ r ∈ s.returned, r.AllOrNothing := by
  obtain ⟨devicePathAt, es, hrun⟩ := h
  have h1 := hrun.invariant MultipleInv (multipleInv_initialState devicePathAt) fun _ _ _ hk hok hs => hk.step hok hs
  exact h1.returned

/-! ## Runs -/

instance (call : MultipleCall) (index : Nat) (pair : Pair) (db : Database) : Decidable (CanRestore call index pair db) :=
  inferInstanceAs (Decidable (_ → _ ∧ (_ → _)))

instance (s : State) : Decidable (RemovesSafely s) := inferInstanceAs (Decidable (∀ r ∈ nextRemoval s, _))

instance (s : State) (e : Event) : Decidable (RollsBack s e) := inferInstanceAs (Decidable (_ ∧ _ ∧ _))

/-- A handle (10) with two protocols, of which one is uninstalled before the call fails, and installed again. -/
def rolledBackEvents : List Event :=
  [event 10 (.installMultipleProtocolInterfaces 0 [(7, 101), (8, 102)]), event 10 .run, event 10 .run, event 11 .run,
    event 11 .run, event 12 .run, event 12 (.uninstallMultipleProtocolInterfaces 10 [(7, 101), (9, 103)]),
    event 12 .run, event 12 .run, event 12 .run, event 12 .run, event 12 .run, event 13 .run,
    event 14 (.installMultipleProtocolInterfaces 10 [(5, 104), (8, 105)]), event 14 .run, event 14 .run, event 15 .run,
    event 15 .run, event 15 .run, event 15 .run]

/-- A handle (10) with one protocol, which is uninstalled before the call fails. -/
def lostEvents : List Event :=
  [event 10 (.installProtocolInterface 0 7 101), event 10 .run,
    event 11 (.uninstallMultipleProtocolInterfaces 10 [(7, 101), (8, 102)]), event 11 .run, event 11 .run,
    event 11 .run, event 11 .run, event 11 .run, event 11 .run]

/-- The status of a call, and what was and is on the handle. -/
def Returned.summary (a : EfiHandle) : Returned → EfiStatus × List Pair × List Pair
  | .install call status _ after => (status, call.before a, after a)
  | .uninstall call status after => (status, call.before a, after a)

def returnedOf (es : List Event) (a : EfiHandle) : List (EfiStatus × List Pair × List Pair) :=
  (runEvents es).returned.map (Returned.summary a)

example : returnedOf rolledBackEvents 10 =
    [(.invalidParameter, [(7, 101), (8, 102)], [(7, 101), (8, 102)]),
      (.notFound, [(8, 102), (7, 101)], [(7, 101), (8, 102)]), (.success, [], [(8, 102), (7, 101)])] := by
  decide +kernel

theorem multiple_all_or_nothing_sample :
    (runEvents rolledBackEvents).returned.length = 3 ∧ ∀ r ∈ (runEvents rolledBackEvents).returned, r.AllOrNothing :=
  ⟨by decide +kernel, multiple_all_or_nothing (reachable_of_guarded (by decide +kernel))⟩

/-- The interface is lost with its handle, although the call returns an error. -/
theorem multiple_loses_interface :
    Reachable (fun _ _ => True) (runEvents lostEvents) ∧
      ¬∀ r ∈ (runEvents lostEvents).returned, r.AllOrNothing := by
  refine ⟨reachable_runEvents (by decide +kernel), fun h => ?_⟩
  have hone : ∃ call after, (runEvents lostEvents).returned = [.uninstall call .invalidParameter after] ∧
      call.handle = 10 ∧ (7, 101) ∈ call.before 10 ∧ (7, 101) ∉ after 10 :=
    ⟨_, _, rfl, by decide +kernel, by decide +kernel, by decide +kernel⟩
  obtain ⟨call, after, hr, hh, hmem, hno⟩ := hone
  have h1 : (Returned.uninstall call .invalidParameter after).AllOrNothing := h _ (by rw [hr]; exact List.mem_cons_self)
  have h2 := h1 rfl (7, 101)
  rw [hh] at h2
  exact hno (h2 hmem)

end Udk.Handle
