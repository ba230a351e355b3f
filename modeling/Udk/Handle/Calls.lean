import Udk.Handle.Installing

/-! # What a call does to the interfaces

Each call ends, or it pushes frames and goes on later.
-/

namespace Udk.Handle

def SameInterfaces (db db' : Database) : Prop := ∀ a, interfacesOf db' a = interfacesOf db a

theorem Tidy.same {db db' : Database} (h : Tidy db db') : SameInterfaces db db' := h.1.interfacesOf

/-! ## Opening -/

/-- How `CoreOpenProtocol` goes on, above the frames `rest`. -/
structure OpenGoes (rest : List Frame) (s s' : State) : Prop where
  tidy : Tidy s.db s'.db
  returned : s'.returned = s.returned
  stack : s'.stack = rest ∨ ∃ c prot, s'.stack = .code :: .openProtocol c prot :: rest

theorem openLoop_goes {pool : Pool} {c : OpenCall} {prot : ProtAddress} {rest : List Frame} {s s' : State}
    (hs : openLoop pool c prot rest s = some s') : OpenGoes rest s s' := by
  rw [openLoop] at hs
  split at hs
  · cases hs
  · split at hs
    · obtain rfl := Option.some.inj hs
      exact ⟨.refl, rfl, .inr ⟨c, prot, rfl⟩⟩
    · obtain rfl := Option.some.inj hs
      exact ⟨tidy_newOpenEntry, rfl, .inl rfl⟩

theorem openProtocol_goes {pool : Pool} {c : OpenCall} {s s' : State} (hs : openProtocol pool c s = some s') :
    OpenGoes s.stack s s' := by
  rw [openProtocol] at hs
  split at hs
  · rename_i ho
    obtain rfl := Option.some.inj hs
    exact ⟨tidy_openProtocol ho, rfl, .inl rfl⟩
  · exact openLoop_goes hs

/-! ## Uninstalling and reinstalling -/

/-- How `CoreUninstallProtocolInterface` and `CoreReinstallProtocolInterface` go on. -/
inductive RemovalEnds (removal : Removal) (rest : List Frame) (s s' : State) : Prop
  | failed (hs : s'.stack = rest) (he : s'.status.isError = true) (hd : SameInterfaces s.db s'.db)
  | disconnect (prot : ProtAddress) (hs : s'.stack = .code :: .disconnect prot removal :: rest)
      (hd : SameInterfaces s.db s'.db)
  | reconnect (hs : s'.stack = .code :: .reconnect :: rest) (hd : SameInterfaces s.db s'.db)
  | uninstalled (h : EfiHandle) (g : Guid) (i : Interface) (hr : removal = .uninstall h g i) (hs : s'.stack = rest)
      (ht : s'.status = .success) (hd : Removed s.db s'.db h g i)
  | reinstalled (h : EfiHandle) (g : Guid) (i j : Interface) (hr : removal = .reinstall h g i j)
      (hs : s'.stack = rest ∨ s'.stack = .code :: .reinstall g :: rest)

structure RemovalGoes (removal : Removal) (rest : List Frame) (s s' : State) : Prop where
  wf : Wf s'.db
  returned : s'.returned = s.returned
  userHandle : s'.userHandle = s.userHandle
  ends : RemovalEnds removal rest s s'

theorem finishRemoval_goes {removal : Removal} {rest : List Frame} {s s' : State} (hw : Wf s.db)
    (hs : finishRemoval removal rest s = some s') : RemovalGoes removal rest s s' := by
  rcases removal with ⟨h, g, i⟩ | ⟨h, g, i, j⟩
  · simp only [finishRemoval] at hs
    split at hs
    · cases hs
    · obtain ⟨hw', hend⟩ := removeProtocolInterface_spec (h := h) (g := g) (i := i) hw
      obtain rfl := Option.some.inj hs
      refine ⟨hw', rfl, rfl, ?_⟩
      rcases hend with ⟨hst, _, hd⟩ | ⟨hst, hd⟩
      · exact .failed rfl (by simp only [hst]; rfl) hd
      · exact .uninstalled h g i rfl rfl hst hd
  · simp only [finishRemoval] at hs
    split at hs
    · cases hs
    · split at hs
      · obtain rfl := Option.some.inj hs
        exact ⟨hw.replaceProtocolInterface, rfl, rfl, .reinstalled h g i j rfl (.inl rfl)⟩
      · obtain rfl := Option.some.inj hs
        exact ⟨hw.replaceProtocolInterface, rfl, rfl, .reinstalled h g i j rfl (.inr rfl)⟩

theorem Removed.of_shape {db db₁ db' : Database} {h : EfiHandle} {g : Guid} {i : Interface} (ht : SameShape db db₁)
    (hl : ∀ p q q', db.prots p = some q → db₁.prots p = some q' → ∀ d ∈ q'.openList, d ∈ q.openList)
    (hr : Removed db₁ db' h g i) : Removed db db' h g i := by
  refine ⟨?_, ?_, fun a ha => ?_, fun p q' hq' => ?_⟩
  · rw [← ht.interfacesOf]
    exact hr.present
  · rw [hr.own, ht.interfacesOf]
  · rw [hr.others a ha, ht.interfacesOf]
  · obtain ⟨q₁, hq₁, hi, hd⟩ := hr.prots p q' hq'
    obtain ⟨q, hq, hi'⟩ := ht.of_some hq₁
    exact ⟨q, hq, hi.trans hi', fun d hmem => hl p q q₁ hq hq₁ d (hd d hmem)⟩

theorem removeQueries_openList {prot p : ProtAddress} {db : Database} {q q' : ProtocolInterface}
    (hq : db.prots p = some q) (hq' : (removeQueries prot db).prots p = some q') : ∀ d ∈ q'.openList, d ∈ q.openList := by
  rcases setProt_some hq' with ⟨h1, _⟩ | ⟨rfl, q0, h1, rfl⟩
  · obtain rfl := Option.some.inj (hq.symm.trans h1)
    exact fun _ => id
  · obtain rfl := Option.some.inj (hq.symm.trans h1)
    exact fun d hd => (List.mem_filter.mp hd).1

theorem disconnectLoop_goes {prot : ProtAddress} {removal : Removal} {rest : List Frame} {s s' : State} (hw : Wf s.db)
    (hs : disconnectLoop prot removal rest s = some s') : RemovalGoes removal rest s s' := by
  rw [disconnectLoop] at hs
  split at hs
  · cases hs
  · split at hs
    · obtain rfl := Option.some.inj hs
      exact ⟨hw, rfl, rfl, .disconnect prot rfl fun _ => rfl⟩
    · have ht : Tidy s.db (removeQueries prot s.db) := tidy_removeQueries
      dsimp only at hs
      split at hs
      · obtain rfl := Option.some.inj hs
        exact ⟨ht.2 hw, rfl, rfl, .reconnect rfl ht.same⟩
      · obtain ⟨h1, h2, h3, h4⟩ := finishRemoval_goes (s := { s with db := removeQueries prot s.db }) (ht.2 hw) hs
        refine ⟨h1, h2, h3, ?_⟩
        rcases h4 with ⟨hs, he, hd⟩ | ⟨prot, hs, hd⟩ | ⟨hs, hd⟩ | ⟨h, g, i, hr, hs, ht', hd⟩ | ⟨h, g, i, j, hr, hs⟩
        · exact .failed hs he fun a => (hd a).trans (ht.same a)
        · exact .disconnect prot hs fun a => (hd a).trans (ht.same a)
        · exact .reconnect hs fun a => (hd a).trans (ht.same a)
        · exact .uninstalled h g i hr hs ht' (hd.of_shape ht.1 fun _ _ _ => removeQueries_openList)
        · exact .reinstalled h g i j hr hs

theorem startRemoval_goes {h : EfiHandle} {g : Guid} {i : Interface} {removal : Removal} {s s' : State} (hw : Wf s.db)
    (hs : startRemoval h g i removal s = some s') : RemovalGoes removal s.stack s s' := by
  rw [startRemoval] at hs
  split at hs
  · obtain rfl := Option.some.inj hs
    exact ⟨hw, rfl, rfl, .failed rfl rfl fun _ => rfl⟩
  · split at hs
    · obtain rfl := Option.some.inj hs
      exact ⟨hw, rfl, rfl, .failed rfl rfl fun _ => rfl⟩
    · exact disconnectLoop_goes hw hs

theorem validateHandle_of_mem {db : Database} {h : EfiHandle} {x : Pair} (hx : x ∈ interfacesOf db h) :
    coreValidateHandle h db = true := by
  rcases hv : db.handles h with _ | ih
  · rw [interfacesOf, protocolsOf, hv] at hx
    cases hx
  · rw [coreValidateHandle, hv]
    rfl

/-- An interface that only `CoreHandleProtocol` asked for is uninstalled at once. -/
theorem uninstall_at_once {h : EfiHandle} {g : Guid} {i : Interface} {s s' : State} (hw : Wf s.db)
    (hmem : (g, i) ∈ interfacesOf s.db h)
    (hl : ∀ p q, s.db.prots p = some q → q.ident = (h, g, i) → ∀ d ∈ q.openList, d.isLookup = true)
    (hs : coreUninstallProtocolInterface h g i s = some s') :
    RemovalGoes (.uninstall h g i) s.stack s s' ∧ s'.stack = s.stack ∧ s'.status = .success ∧
      Removed s.db s'.db h g i := by
  have hgoes := startRemoval_goes hw hs
  have hv := validateHandle_of_mem hmem
  rcases hf : coreFindProtocolInterface h g i s.db with _ | prot
  · exact absurd hmem (coreFindProtocolInterface_none hw.toLinked hf)
  · have hfind := coreFindProtocolInterface_some hf
    obtain ⟨q, hq, hqh⟩ := hw.owned h prot (List.mem_of_find?_eq_some hfind)
    have hid : q.ident = (h, g, i) := by
      have h1 := List.find?_some hfind
      rw [hq, Option.any_some, Bool.and_eq_true, beq_iff_eq, beq_iff_eq] at h1
      rw [ProtocolInterface.ident, hqh, h1.1, h1.2]
    have hlook := hl prot q hq hid
    have hnb : q.openList.any OpenProtocolData.byDriver = false := by
      rw [List.any_eq_false]
      intro d hd
      have h1 := hlook d hd
      rw [OpenProtocolData.isLookup, beq_iff_eq] at h1
      rw [OpenProtocolData.byDriver, h1]
      decide
    have hall : q.openList.countP OpenProtocolData.isQuery = q.openList.length := by
      rw [List.countP_eq_length]
      intro d hd
      have h1 := hlook d hd
      rw [OpenProtocolData.isLookup, beq_iff_eq] at h1
      rw [OpenProtocolData.isQuery, h1]
      decide
    have hzero : ((removeQueries prot s.db).prots prot).any (fun q => q.openListCount != 0) = false := by
      simp [removeQueries, setProt, hq, hall, hw.counted prot q hq]
    have ht : Tidy s.db (removeQueries prot s.db) := tidy_removeQueries
    have hv' : coreValidateHandle h (removeQueries prot s.db) = true := (ht.1.validateHandle h).trans hv
    rw [coreUninstallProtocolInterface, startRemoval, if_neg (by simp [hv]), hf] at hs
    simp only [disconnectLoop, hq, hnb, Bool.false_eq_true, if_false, hzero, finishRemoval, hv', Bool.true_eq_false] at hs
    obtain rfl := Option.some.inj hs
    obtain ⟨_, hend⟩ := removeProtocolInterface_spec (h := h) (g := g) (i := i) (ht.2 hw)
    rcases hend with ⟨_, hno, _⟩ | ⟨hst, hr⟩
    · rw [ht.1.interfacesOf] at hno
      exact absurd hmem hno
    · exact ⟨hgoes, rfl, hst, hr.of_shape ht.1 fun _ _ _ => removeQueries_openList⟩

/-! ## Installing -/

/-- How the call of `CoreInstallProtocolInterface` goes on: the protocol was there, or it waits for the lock. -/
structure InstallGoes (pool : Pool) (h : EfiHandle) (g : Guid) (i : Interface) (s s' : State) : Prop where
  queried : Queried s.db s'.db
  returned : s'.returned = s.returned
  userHandle : s'.userHandle = h
  ends : (s'.stack = s.stack ∧ s'.status = .invalidParameter ∧
      ¬(coreValidateHandle h s.db = true ∧ ∀ x ∈ interfacesOf s.db h, x.1 ≠ g)) ∨
    ∃ st, s'.stack = .install h g i st :: s.stack ∧
      (h ≠ 0 → pool.openData h = true → ∀ x ∈ interfacesOf s'.db h, x.1 ≠ g)

theorem coreInstallProtocolInterface_goes {pool : Pool} {h : EfiHandle} {g : Guid} {i : Interface} {s : State} :
    InstallGoes pool h g i s (coreInstallProtocolInterface pool h g i s) := by
  rw [coreInstallProtocolInterface]
  split
  · obtain ⟨h1, h2, h3⟩ := @coreHandleProtocol_spec pool h g s.db
    dsimp only
    split
    · rename_i hst
      refine ⟨h1, rfl, rfl, .inr ⟨_, rfl, fun _ hp x hx => ?_⟩⟩
      rw [h1.tidy.1.interfacesOf] at hx
      exact h2 hp hst x hx
    · rename_i hst
      exact ⟨h1, rfl, rfl, .inl ⟨rfl, rfl, fun hx => hst (h3 hx.1 hx.2)⟩⟩
  · rename_i hz
    exact ⟨.refl, rfl, rfl, .inr ⟨_, rfl, fun hx => absurd hx hz⟩⟩

end Udk.Handle
