import Udk.Ppi.Database

/-! # What a failed call leaves, and what the array holds

A call fails cleanly if the array is full from the start, or an entry that is invalid or ends the list comes up before
it is full.
-/

namespace Udk.Ppi

/-! ## PeiLocatePpi -/

/-- The installed PPIs in their order. -/
def ppis (p : PpiData) : List Descriptor := (installs 0 p.ppiListEnd).map p.ppiListPtrs

theorem locateFrom_eq (P : Int → Descriptor) (guid inst : Nat) (a : Int) (n : Nat) :
    locateFrom P guid inst a n = (((installs a (a + n)).map P).filter (·.guid = guid))[inst]? := by
  induction n generalizing inst a with
  | zero => rw [installs_nil (by omega)]; rfl
  | succ n ih =>
    have hlast : a + ((n + 1 : Nat) : Int) = a + 1 + n := by omega
    rw [locateFrom.eq_def, hlast, installs_cons (by omega), List.map_cons, List.filter_cons]
    simp only
    by_cases hg : (P a).guid = guid
    · rw [if_pos hg, if_pos (by simpa using hg)]
      cases inst with
      | zero => rfl
      | succ inst => exact ih inst (a + 1)
    · rw [if_neg hg, if_neg (by simpa using hg)]
      exact ih inst (a + 1)

theorem peiLocatePpi_eq {p : PpiData} (h : 0 ≤ p.ppiListEnd) (guid inst : Nat) :
    peiLocatePpi p guid inst = ((ppis p).filter (·.guid = guid))[inst]? := by
  rw [peiLocatePpi, locateFrom_eq, ppis, Int.zero_add, Int.toNat_of_nonneg h]

/-! ## Unchanged -/

/-- `PeiLocatePpi` answers as before, and the notifies are the same. -/
structure Unchanged (maxPpiSupported : Nat) (p p' : PpiData) : Prop where
  located : ∀ guid inst, peiLocatePpi p' guid inst = peiLocatePpi p guid inst
  callbacks : callbackNotifies p' = callbackNotifies p
  dispatches : dispatchNotifies maxPpiSupported p' = dispatchNotifies maxPpiSupported p

/-- The three parts do not overlap. -/
structure Ordered (maxPpiSupported : Nat) (p : PpiData) : Prop where
  nonneg : 0 ≤ p.ppiListEnd
  room : p.ppiListEnd ≤ p.notifyListEnd + 1
  callbacks : p.notifyListEnd ≤ p.dispatchListEnd
  dispatches : p.dispatchListEnd ≤ maxPpiSupported - 1

/-- The same ends, and the same entries outside of the free part. -/
structure SameParts (p p' : PpiData) : Prop where
  ppiListEnd : p'.ppiListEnd = p.ppiListEnd
  notifyListEnd : p'.notifyListEnd = p.notifyListEnd
  dispatchListEnd : p'.dispatchListEnd = p.dispatchListEnd
  ptrs : ∀ i, i < p.ppiListEnd ∨ p.notifyListEnd < i → p'.ppiListPtrs i = p.ppiListPtrs i

namespace SameParts
variable {maxPpiSupported : Nat} {p p' : PpiData}

theorem ppis (h : SameParts p p') : ppis p' = ppis p := by
  unfold Ppi.ppis
  rw [h.ppiListEnd]
  exact List.map_congr_left fun i hi => h.ptrs i (.inl (mem_installs.mp hi).2)

theorem callbacks (h : SameParts p p') : callbackNotifies p' = callbackNotifies p := by
  rw [callbackNotifies, h.dispatchListEnd, h.notifyListEnd]
  exact notifies_congr fun i hi _ => h.ptrs i (.inr hi)

theorem dispatches (h : SameParts p p') (hle : p.notifyListEnd ≤ p.dispatchListEnd) :
    dispatchNotifies maxPpiSupported p' = dispatchNotifies maxPpiSupported p := by
  rw [dispatchNotifies, h.dispatchListEnd]
  exact notifies_congr fun i hi _ => h.ptrs i (.inr (by omega))

theorem unchanged (h : SameParts p p') (ho : Ordered maxPpiSupported p) : Unchanged maxPpiSupported p p' := by
  have h1 := ho.nonneg
  have h2 := h.ppiListEnd
  refine ⟨fun guid inst => ?_, h.callbacks, h.dispatches ho.callbacks⟩
  rw [peiLocatePpi_eq (by omega), peiLocatePpi_eq h1, h.ppis]

theorem ordered (h : SameParts p p') (ho : Ordered maxPpiSupported p) : Ordered maxPpiSupported p' := by
  obtain ⟨h1, h2, h3, h4⟩ := ho
  obtain ⟨h5, h6, h7, -⟩ := h
  exact ⟨by omega, by omega, by omega, by omega⟩

end SameParts

/-- The list is given up or complete before the array is full, or the array is full from the start. -/
def Fits (good : Descriptor → Bool) (p : PpiData) : Option (List Descriptor) → Prop
  | none => True
  | some list => p.free = 0 ∨ ∃ d ∈ list.take p.free, good d = false ∨ d.has descriptorTerminateList = true

theorem Ended.fits_iff {good : Descriptor → Bool} {p : PpiData} {list l : List Descriptor} {status : EfiStatus}
    (h : Ended good p.free list l status) (hfail : status ≠ .success) :
    Fits good p (some list) ↔ (status = .outOfResources → l = []) := by
  cases h with
  | success => exact absurd rfl hfail
  | full hl hlen hgood =>
    refine ⟨fun hfit _ => ?_, fun hempty => .inl ?_⟩
    · rcases hfit with hfree | ⟨d, hd, hstop⟩
      · exact List.length_eq_zero_iff.mp (hlen.trans hfree)
      · obtain ⟨h1, h2⟩ := hgood d (hl ▸ hd)
        rcases hstop with hstop | hstop
        · rw [h1] at hstop
          cases hstop
        · rw [h2] at hstop
          cases hstop
    · rw [← hlen, hempty rfl, List.length_nil]
  | invalid hlt hbad =>
    refine ⟨fun _ h => EfiStatus.noConfusion h, fun _ => .inr ?_⟩
    obtain ⟨d, ⟨rest, hrest⟩, hd⟩ := hbad
    refine ⟨d, ?_, .inl hd⟩
    rw [← hrest, List.append_assoc, List.take_append]
    refine List.mem_append_right _ ?_
    obtain ⟨n, hn⟩ : ∃ n, p.free - l.length = n + 1 := ⟨p.free - l.length - 1, by omega⟩
    rw [hn]
    exact List.mem_cons_self

theorem installed_nil (p : PpiData) : p.installed [] = p := by
  simp [PpiData.installed, place]

theorem registered_nil (p : PpiData) : p.registered [] = p := by
  simp [PpiData.registered, placeDown]

theorem ppis_installed {p : PpiData} (h : 0 ≤ p.ppiListEnd) (l : List Descriptor) :
    ppis (p.installed l) = ppis p ++ l := by
  rw [ppis, PpiData.installed, installs_append h (show p.ppiListEnd ≤ p.ppiListEnd + l.length by omega), List.map_append,
    map_place]
  congr 1
  exact List.map_congr_left fun i hi => place_outside (.inl (mem_installs.mp hi).2)

/-- A PPI more is found. -/
theorem installed_located {maxPpiSupported : Nat} {p : PpiData} (h : 0 ≤ p.ppiListEnd) {l : List Descriptor}
    (hu : Unchanged maxPpiSupported p (p.installed l)) : l = [] := by
  cases l with
  | nil => rfl
  | cons d l =>
    have hloc := hu.located d.guid ((ppis p).filter (·.guid = d.guid)).length
    rw [peiLocatePpi_eq h, peiLocatePpi_eq (by simp only [PpiData.installed]; omega), ppis_installed h,
      List.filter_append, List.getElem?_append_right (Nat.le_refl _), Nat.sub_self,
      List.getElem?_eq_none (Nat.le_refl _), List.filter_cons, if_pos (by simp)] at hloc
    cases hloc

/-! ## The services -/

theorem installPpi_cases {p p' : PpiData} {ppiList : Option (List Descriptor)} {status : EfiStatus}
    {d : Option Dispatch} (hroom : p.ppiListEnd ≤ p.notifyListEnd + 1)
    (h : peiInstallPpi p ppiList = some (status, p', d)) :
    (∃ list, ppiList = some list ∧ status = .success ∧ Ended (·.has descriptorPpi) p.free list (listed list) .success ∧
      p' = p.installed (listed list) ∧
      d = some (dispatchNotify p' p.ppiListEnd p'.ppiListEnd p'.dispatchListEnd p'.notifyListEnd)) ∨
    (ppiList = none ∧ status = .invalidParameter ∧ p' = p ∧ d = none) ∨
    ∃ list l, ppiList = some list ∧ status ≠ .success ∧ d = none ∧ Ended (·.has descriptorPpi) p.free list l status ∧
      p' = if status = .invalidParameter then { p.installed l with ppiListEnd := p.ppiListEnd } else p.installed l := by
  cases ppiList with
  | none =>
    obtain ⟨rfl, h2⟩ := Prod.mk.inj (Option.some.inj h)
    obtain ⟨rfl, rfl⟩ := Prod.mk.inj h2
    exact .inr (.inl ⟨rfl, rfl, rfl, rfl⟩)
  | some list =>
    rw [peiInstallPpi] at h
    split at h
    · rename_i q hq
      obtain ⟨rfl, h2⟩ := Prod.mk.inj (Option.some.inj h)
      obtain ⟨rfl, rfl⟩ := Prod.mk.inj h2
      obtain ⟨l, hend, hl⟩ := installLoop_spec hroom hq
      have hlisted : l = listed list := by cases hend; assumption
      subst hlisted
      rw [if_neg (by decide)] at hl
      exact .inl ⟨list, rfl, rfl, hend, hl, rfl⟩
    · rename_i st q hne hq
      obtain ⟨rfl, h2⟩ := Prod.mk.inj (Option.some.inj h)
      obtain ⟨rfl, rfl⟩ := Prod.mk.inj h2
      obtain ⟨l, hend, hl⟩ := installLoop_spec hroom hq
      exact .inr (.inr ⟨list, l, rfl, hne, rfl, hend, hl⟩)
    · cases h

theorem installPpi_fails {p p' : PpiData} {ppiList : Option (List Descriptor)} {status : EfiStatus}
    {d : Option Dispatch} (hroom : p.ppiListEnd ≤ p.notifyListEnd + 1)
    (h : peiInstallPpi p ppiList = some (status, p', d)) (hfail : status ≠ .success)
    (hfits : Fits (·.has descriptorPpi) p ppiList) : SameParts p p' ∧ d = none := by
  rcases installPpi_cases hroom h with ⟨_, -, hs, -⟩ | ⟨rfl, rfl, rfl, rfl⟩ | ⟨list, l, rfl, -, rfl, hend, rfl⟩
  · exact absurd hs hfail
  · exact ⟨⟨rfl, rfl, rfl, fun _ _ => rfl⟩, rfl⟩
  · have hempty := (hend.fits_iff hfail).mp hfits
    cases hend with
    | success => exact absurd rfl hfail
    | full hl hlen hgood =>
      rw [if_neg (by decide), hempty rfl, installed_nil]
      exact ⟨⟨rfl, rfl, rfl, fun _ _ => rfl⟩, rfl⟩
    | invalid hlt hbad =>
      rw [if_pos rfl]
      refine ⟨⟨rfl, rfl, rfl, fun i hi => ?_⟩, rfl⟩
      have hfree : p.free = (p.notifyListEnd + 1 - p.ppiListEnd).toNat := rfl
      exact place_outside (by omega)

/-- A failed `PeiInstallPpi` changes nothing exactly if the list fits. -/
theorem installPpi_survives {maxPpiSupported : Nat} {p p' : PpiData} {ppiList : Option (List Descriptor)}
    {status : EfiStatus} {d : Option Dispatch} (ho : Ordered maxPpiSupported p)
    (h : peiInstallPpi p ppiList = some (status, p', d)) (hfail : status ≠ .success) :
    Unchanged maxPpiSupported p p' ∧ d = none ↔ Fits (·.has descriptorPpi) p ppiList := by
  refine ⟨fun hu => ?_, fun hfits => ?_⟩
  · rcases installPpi_cases ho.room h with ⟨_, -, hs, -⟩ | ⟨rfl, -⟩ | ⟨list, l, rfl, -, -, hend, rfl⟩
    · exact absurd hs hfail
    · trivial
    · refine (hend.fits_iff hfail).mpr fun hs => ?_
      subst hs
      exact installed_located ho.nonneg hu.1
  · obtain ⟨hsame, hd⟩ := installPpi_fails ho.room h hfail hfits
    exact ⟨hsame.unchanged ho, hd⟩

/-- The database after a successful `PeiNotifyPpi` with the notifies `l`. -/
structure Registered (p r : PpiData) (l : List Descriptor) : Prop where
  ppiListEnd : r.ppiListEnd = p.ppiListEnd
  notifyListEnd : r.notifyListEnd = p.notifyListEnd - l.length
  dispatchListEnd : r.dispatchListEnd = p.dispatchListEnd - (l.filter (·.has descriptorNotifyDispatch)).length
  lastInstall : r.lastDispatchedInstall = p.lastDispatchedInstall
  lastNotify : r.lastDispatchedNotify = p.lastDispatchedNotify
  between : r.notifyListEnd ≤ r.dispatchListEnd ∧ r.dispatchListEnd ≤ p.dispatchListEnd
  frame : ∀ j, j ≤ r.notifyListEnd ∨ p.dispatchListEnd < j → r.ppiListPtrs j = p.ppiListPtrs j
  bottom : notifies r.ppiListPtrs p.dispatchListEnd r.dispatchListEnd = l.filter (·.has descriptorNotifyDispatch)
  callbacks : callbackNotifies r = callbackNotifies p ++ l.filter (¬·.has descriptorNotifyDispatch)

theorem notifies_registered (p : PpiData) (l : List Descriptor) :
    notifies (p.registered l).ppiListPtrs p.notifyListEnd (p.registered l).notifyListEnd = l :=
  notifies_placeDown _ _

theorem callbacks_registered (p : PpiData) (l : List Descriptor) :
    notifies (p.registered l).ppiListPtrs p.dispatchListEnd p.notifyListEnd = callbackNotifies p :=
  notifies_congr fun _ hi _ => placeDown_outside (.inl hi)

theorem registered_dispatchToBottom {p : PpiData} (h : p.notifyListEnd ≤ p.dispatchListEnd) (l : List Descriptor) :
    Registered p (dispatchToBottom (p.registered l) p.notifyListEnd
      (p.notifyListEnd - (p.registered l).notifyListEnd).toNat) l := by
  have hspec := dispatchToBottom_spec (p.registered l) p.notifyListEnd
    (p.notifyListEnd - (p.registered l).notifyListEnd).toNat (by simp only [PpiData.registered]; omega) h
  obtain ⟨h1, h2, h3, h4, h5, h6, h7, h8⟩ := hspec
  rw [notifies_registered] at h7 h8
  have hcallbacks : notifies (p.registered l).ppiListPtrs (p.registered l).dispatchListEnd p.notifyListEnd =
      callbackNotifies p := callbacks_registered p l
  rw [hcallbacks] at h8
  have hlen := congrArg List.length h7
  rw [notifies_length] at hlen
  refine ⟨h1, h2, ?_, h3, h4, h5, fun j hj => ?_, h7, h8⟩
  · have := h5.2
    simp only [PpiData.registered] at this hlen ⊢
    omega
  · rw [h2] at hj
    rw [h6 j hj]
    simp only [PpiData.registered] at hj ⊢
    exact placeDown_outside (by omega)

theorem registered_callbacks_only {p : PpiData} (h : p.notifyListEnd ≤ p.dispatchListEnd) {l : List Descriptor}
    (hl : l.filter (·.has descriptorNotifyDispatch) = []) : Registered p (p.registered l) l := by
  have hcallback : l.filter (¬·.has descriptorNotifyDispatch) = l := by
    refine List.filter_eq_self.mpr fun d hd => ?_
    have := List.filter_eq_nil_iff.mp hl d hd
    simpa using this
  refine ⟨rfl, rfl, by rw [hl]; simp [PpiData.registered], rfl, rfl, ?_, fun j hj => ?_, ?_, ?_⟩
  · simp only [PpiData.registered]
    omega
  · simp only [PpiData.registered] at hj ⊢
    exact placeDown_outside (by omega)
  · rw [hl]
    exact notifies_nil (Int.le_refl _)
  · have hle : (p.registered l).notifyListEnd ≤ p.notifyListEnd := by simp only [PpiData.registered]; omega
    have hsplit : callbackNotifies (p.registered l) =
        notifies (p.registered l).ppiListPtrs p.dispatchListEnd (p.registered l).notifyListEnd := rfl
    rw [hcallback, hsplit, notifies_append h hle, callbacks_registered, notifies_registered]

theorem notifyPpi_cases {p p' : PpiData} {notifyList : Option (List Descriptor)} {status : EfiStatus}
    {d : Option Dispatch} (hroom : p.ppiListEnd ≤ p.notifyListEnd + 1) (hcallbacks : p.notifyListEnd ≤ p.dispatchListEnd)
    (h : peiNotifyPpi p notifyList = some (status, p', d)) :
    (∃ list, notifyList = some list ∧ status = .success ∧
      Ended (·.has descriptorNotifyTypes) p.free list (listed list) .success ∧ Registered p p' (listed list) ∧
      d = some (dispatchNotify p' 0 p'.ppiListEnd
        (p.notifyListEnd - ((listed list).filter (·.has descriptorNotifyDispatch)).length) p'.notifyListEnd)) ∨
    (notifyList = none ∧ status = .invalidParameter ∧ p' = p ∧ d = none) ∨
    ∃ list l, notifyList = some list ∧ status ≠ .success ∧ d = none ∧
      Ended (·.has descriptorNotifyTypes) p.free list l status ∧
      p' = if status = .invalidParameter then { p.registered l with notifyListEnd := p.notifyListEnd }
        else p.registered l := by
  cases notifyList with
  | none =>
    obtain ⟨rfl, h2⟩ := Prod.mk.inj (Option.some.inj h)
    obtain ⟨rfl, rfl⟩ := Prod.mk.inj h2
    exact .inr (.inl ⟨rfl, rfl, rfl, rfl⟩)
  | some list =>
    rw [peiNotifyPpi] at h
    split at h
    · rename_i q count hq
      obtain ⟨l, hend, hl, hcount⟩ := notifyLoop_spec hroom hq
      have hlisted : l = listed list := by cases hend; assumption
      subst hlisted
      rw [if_neg (by decide)] at hl
      subst hl
      rw [Nat.zero_add] at hcount
      subst hcount
      obtain ⟨rfl, h2⟩ := Prod.mk.inj (Option.some.inj h)
      obtain ⟨rfl, rfl⟩ := Prod.mk.inj h2
      refine .inl ⟨list, rfl, rfl, hend, ?_, ?_⟩
      · split
        · exact registered_dispatchToBottom hcallbacks _
        · rename_i hzero
          exact registered_callbacks_only hcallbacks (List.length_eq_zero_iff.mp (by omega))
      · split
        · rfl
        · rename_i hzero
          rw [show ((listed list).filter (·.has descriptorNotifyDispatch)).length = 0 by omega]
          simp
    · rename_i st q count hne hq
      obtain ⟨rfl, h2⟩ := Prod.mk.inj (Option.some.inj h)
      obtain ⟨rfl, rfl⟩ := Prod.mk.inj h2
      obtain ⟨l, hend, hl, -⟩ := notifyLoop_spec hroom hq
      exact .inr (.inr ⟨list, l, rfl, hne, rfl, hend, hl⟩)
    · cases h

theorem notifyPpi_fails {p p' : PpiData} {notifyList : Option (List Descriptor)} {status : EfiStatus}
    {d : Option Dispatch} (hroom : p.ppiListEnd ≤ p.notifyListEnd + 1) (hcallbacks : p.notifyListEnd ≤ p.dispatchListEnd)
    (h : peiNotifyPpi p notifyList = some (status, p', d)) (hfail : status ≠ .success)
    (hfits : Fits (·.has descriptorNotifyTypes) p notifyList) : SameParts p p' ∧ d = none := by
  rcases notifyPpi_cases hroom hcallbacks h with ⟨_, -, hs, -⟩ | ⟨rfl, rfl, rfl, rfl⟩ |
    ⟨list, l, rfl, -, rfl, hend, rfl⟩
  · exact absurd hs hfail
  · exact ⟨⟨rfl, rfl, rfl, fun _ _ => rfl⟩, rfl⟩
  · have hempty := (hend.fits_iff hfail).mp hfits
    cases hend with
    | success => exact absurd rfl hfail
    | full hl hlen hgood =>
      rw [if_neg (by decide), hempty rfl, registered_nil]
      exact ⟨⟨rfl, rfl, rfl, fun _ _ => rfl⟩, rfl⟩
    | invalid hlt hbad =>
      rw [if_pos rfl]
      refine ⟨⟨rfl, rfl, rfl, fun i hi => ?_⟩, rfl⟩
      have hfree : p.free = (p.notifyListEnd + 1 - p.ppiListEnd).toNat := rfl
      exact placeDown_outside (by omega)

/-- A failed `PeiNotifyPpi` changes nothing exactly if the list fits. -/
theorem notifyPpi_survives {maxPpiSupported : Nat} {p p' : PpiData} {notifyList : Option (List Descriptor)}
    {status : EfiStatus} {d : Option Dispatch} (ho : Ordered maxPpiSupported p)
    (h : peiNotifyPpi p notifyList = some (status, p', d)) (hfail : status ≠ .success) :
    Unchanged maxPpiSupported p p' ∧ d = none ↔ Fits (·.has descriptorNotifyTypes) p notifyList := by
  refine ⟨fun hu => ?_, fun hfits => ?_⟩
  · rcases notifyPpi_cases ho.room ho.callbacks h with ⟨_, -, hs, -⟩ | ⟨rfl, -⟩ | ⟨list, l, rfl, -, -, hend, rfl⟩
    · exact absurd hs hfail
    · trivial
    · refine (hend.fits_iff hfail).mpr fun hs => ?_
      subst hs
      have hcallbacks := congrArg List.length hu.1.callbacks
      have h1 := ho.callbacks
      rw [if_neg (by decide)] at hcallbacks
      simp only [callbackNotifies, notifies_length, PpiData.registered] at hcallbacks
      exact List.length_eq_zero_iff.mp (by omega)
  · obtain ⟨hsame, hd⟩ := notifyPpi_fails ho.room ho.callbacks h hfail hfits
    exact ⟨hsame.unchanged ho, hd⟩

/-- The database with another PPI at `index`. -/
def PpiData.replaced (p : PpiData) (index : Int) (new : Descriptor) : PpiData :=
  { p with ppiListPtrs := Function.update p.ppiListPtrs index new }

theorem mem_ppis_replaced {p : PpiData} {index : Int} {new d : Descriptor} (hd : d ∈ ppis (p.replaced index new)) :
    d = new ∨ d ∈ ppis p := by
  obtain ⟨j, hj, rfl⟩ := List.mem_map.mp hd
  simp only [PpiData.replaced] at hj ⊢
  by_cases heq : j = index
  · exact .inl (by rw [heq, Function.update_self])
  · exact .inr (by rw [Function.update_of_ne heq]; exact List.mem_map_of_mem hj)

/-- Where `PeiReInstallPpi` finds the old PPI. -/
theorem findPpi_spec {P : Int → Descriptor} {old : Descriptor} {a index : Int} {n : Nat}
    (h : findPpi P old a n = some index) : a ≤ index ∧ index < a + n := by
  induction n generalizing a with
  | zero => cases h
  | succ n ih =>
    rw [findPpi] at h
    split at h
    · obtain rfl := Option.some.inj h
      omega
    · have := ih h
      omega

theorem reinstallPpi_cases {p p' : PpiData} {oldPpi newPpi : Option Descriptor} {status : EfiStatus}
    {d : Option (Int × Dispatch)} (h : peiReInstallPpi p oldPpi newPpi = (status, p', d)) :
    (p' = p ∧ d = none ∧ status ≠ .success) ∨
    ∃ new index, newPpi = some new ∧ status = .success ∧ 0 ≤ index ∧ index < p.ppiListEnd ∧
      p' = p.replaced index new ∧
      d = some (index, dispatchNotify p' index (index + 1) p'.dispatchListEnd p'.notifyListEnd) := by
  cases oldPpi with
  | none =>
    obtain ⟨rfl, h2⟩ := Prod.mk.inj h
    obtain ⟨rfl, rfl⟩ := Prod.mk.inj h2
    exact .inl ⟨rfl, rfl, by decide⟩
  | some old =>
    cases newPpi with
    | none =>
      obtain ⟨rfl, h2⟩ := Prod.mk.inj h
      obtain ⟨rfl, rfl⟩ := Prod.mk.inj h2
      exact .inl ⟨rfl, rfl, by decide⟩
    | some new =>
      rw [peiReInstallPpi] at h
      split at h
      · obtain ⟨rfl, h2⟩ := Prod.mk.inj h
        obtain ⟨rfl, rfl⟩ := Prod.mk.inj h2
        exact .inl ⟨rfl, rfl, by decide⟩
      · split at h
        · obtain ⟨rfl, h2⟩ := Prod.mk.inj h
          obtain ⟨rfl, rfl⟩ := Prod.mk.inj h2
          exact .inl ⟨rfl, rfl, by decide⟩
        · rename_i index hindex
          obtain ⟨rfl, h2⟩ := Prod.mk.inj h
          obtain ⟨rfl, rfl⟩ := Prod.mk.inj h2
          have hspec := findPpi_spec hindex
          exact .inr ⟨new, index, rfl, rfl, by omega, by omega, rfl, rfl⟩

/-! ## Every run -/

/-- The parts of the array and what is in them. -/
structure Holds (maxPpiSupported : Nat) (s : State) : Prop where
  ordered : Ordered maxPpiSupported s.data
  ppis : ∀ d ∈ ppis s.data, d ∈ s.ppisPassed
  callbacks : ∀ d ∈ callbackNotifies s.data, d ∈ s.notifiesPassed ∧ d.has descriptorNotifyDispatch = false
  dispatches : ∀ d ∈ dispatchNotifies maxPpiSupported s.data,
    d ∈ s.notifiesPassed ∧ d.has descriptorNotifyDispatch = true

/-- A call whose list does not fit is not made. -/
def Fitting (s : State) : Event → Prop
  | .install ppiList => Fits (·.has descriptorPpi) s.data ppiList
  | .notify notifyList => Fits (·.has descriptorNotifyTypes) s.data notifyList
  | _ => True

instance (good : Descriptor → Bool) (p : PpiData) (list : Option (List Descriptor)) : Decidable (Fits good p list) :=
  match list with
  | none => inferInstanceAs (Decidable True)
  | some list => inferInstanceAs (Decidable (p.free = 0 ∨
      ∃ d ∈ list.take p.free, good d = false ∨ d.has descriptorTerminateList = true))

instance (s : State) (e : Event) : Decidable (Fitting s e) :=
  match e with
  | .install ppiList => inferInstanceAs (Decidable (Fits (·.has descriptorPpi) s.data ppiList))
  | .notify notifyList => inferInstanceAs (Decidable (Fits (·.has descriptorNotifyTypes) s.data notifyList))
  | .reinstall _ _ | .process | .tick | .returns => inferInstanceAs (Decidable True)

namespace Ordered
variable {maxPpiSupported : Nat} {p r : PpiData} {l : List Descriptor}

theorem installed (h : Ordered maxPpiSupported p) (hle : l.length ≤ p.free) :
    Ordered maxPpiSupported (p.installed l) := by
  obtain ⟨h1, h2, h3, h4⟩ := h
  simp only [PpiData.free] at hle
  exact ⟨by simp only [PpiData.installed]; omega, by simp only [PpiData.installed]; omega, h3, h4⟩

theorem callbacks_installed (h : Ordered maxPpiSupported p) (hle : l.length ≤ p.free) :
    callbackNotifies (p.installed l) = callbackNotifies p := by
  have h1 := h.room
  simp only [PpiData.free] at hle
  exact notifies_congr fun i hi _ => place_outside (.inr (by simp only [PpiData.installed] at hi; omega))

theorem dispatches_installed (h : Ordered maxPpiSupported p) (hle : l.length ≤ p.free) :
    dispatchNotifies maxPpiSupported (p.installed l) = dispatchNotifies maxPpiSupported p := by
  have h1 := h.room
  have h2 := h.callbacks
  simp only [PpiData.free] at hle
  exact notifies_congr fun i hi _ => place_outside (.inr (by simp only [PpiData.installed] at hi; omega))

theorem replaced (h : Ordered maxPpiSupported p) (index : Int) (new : Descriptor) :
    Ordered maxPpiSupported (p.replaced index new) := ⟨h.nonneg, h.room, h.callbacks, h.dispatches⟩

theorem callbacks_replaced (h : Ordered maxPpiSupported p) {index : Int} (hlt : index < p.ppiListEnd)
    (new : Descriptor) : callbackNotifies (p.replaced index new) = callbackNotifies p := by
  have h1 := h.room
  exact notifies_congr fun i hi _ => Function.update_of_ne (by simp only [PpiData.replaced] at hi; omega) _ _

theorem dispatches_replaced (h : Ordered maxPpiSupported p) {index : Int} (hlt : index < p.ppiListEnd)
    (new : Descriptor) : dispatchNotifies maxPpiSupported (p.replaced index new) = dispatchNotifies maxPpiSupported p := by
  have h1 := h.room
  have h2 := h.callbacks
  exact notifies_congr fun i hi _ => Function.update_of_ne (by simp only [PpiData.replaced] at hi; omega) _ _

theorem registered (h : Ordered maxPpiSupported p) (hr : Registered p r l) (hle : l.length ≤ p.free) :
    Ordered maxPpiSupported r := by
  obtain ⟨h1, h2, h3, h4⟩ := h
  obtain ⟨h5, h6⟩ := hr.between
  have h7 := hr.ppiListEnd
  have h8 := hr.notifyListEnd
  simp only [PpiData.free] at hle
  exact ⟨by omega, by omega, h5, by omega⟩

theorem ppis_registered (h : Ordered maxPpiSupported p) (hr : Registered p r l) (hle : l.length ≤ p.free) :
    Ppi.ppis r = Ppi.ppis p := by
  have h1 := h.room
  have h8 := hr.notifyListEnd
  simp only [PpiData.free] at hle
  rw [Ppi.ppis, hr.ppiListEnd]
  refine List.map_congr_left fun i hi => hr.frame i (.inl ?_)
  have := mem_installs.mp hi
  omega

theorem dispatches_registered (h : Ordered maxPpiSupported p) (hr : Registered p r l) :
    dispatchNotifies maxPpiSupported r =
      dispatchNotifies maxPpiSupported p ++ l.filter (·.has descriptorNotifyDispatch) := by
  rw [dispatchNotifies, notifies_append h.dispatches hr.between.2, hr.bottom]
  congr 1
  exact notifies_congr fun i hi _ => hr.frame i (.inr hi)

end Ordered

namespace Holds
variable {maxPpiSupported : Nat} {s : State}

theorem start_holds (maxPpiSupported : Nat) : Holds maxPpiSupported (start maxPpiSupported) := by
  refine ⟨⟨Int.le_refl _, ?_, Int.le_refl _, Int.le_refl _⟩, fun d hd => ?_, fun d hd => ?_, fun d hd => ?_⟩
  · simp only [start, initializePpiServices]
    omega
  · obtain ⟨i, hi, -⟩ := List.mem_map.mp hd
    have := mem_installs.mp hi
    simp only [start, initializePpiServices] at this
    omega
  · obtain ⟨i, h1, h2, -⟩ := mem_notifies.mp hd
    simp only [start, initializePpiServices] at h1 h2
    omega
  · obtain ⟨i, h1, h2, -⟩ := mem_notifies.mp hd
    simp only [start, initializePpiServices] at h1 h2
    omega

/-- The same parts, passed by the same calls. -/
theorem same (h : Holds maxPpiSupported s) {s' : State} (hsame : SameParts s.data s'.data)
    (hppis : s'.ppisPassed = s.ppisPassed) (hnotifies : s'.notifiesPassed = s.notifiesPassed) :
    Holds maxPpiSupported s' := by
  refine ⟨hsame.ordered h.ordered, ?_, ?_, ?_⟩
  · rw [hsame.ppis, hppis]
    exact h.ppis
  · rw [hsame.callbacks, hnotifies]
    exact h.callbacks
  · rw [hsame.dispatches h.ordered.callbacks, hnotifies]
    exact h.dispatches

theorem step_install (h : Holds maxPpiSupported s) {ppiList : Option (List Descriptor)} {s' : State}
    (hfits : ∀ status p' d, peiInstallPpi s.data ppiList = some (status, p', d) → status ≠ .success →
      Fits (·.has descriptorPpi) s.data ppiList)
    (hs : step maxPpiSupported s (.install ppiList) = some s') : Holds maxPpiSupported s' := by
  simp only [step] at hs
  split at hs
  · cases hs
  · split at hs
    · rename_i status data d hcall
      obtain rfl := Option.some.inj hs
      rcases installPpi_cases h.ordered.room hcall with ⟨list, rfl, -, hend, rfl, -⟩ | ⟨-, -, -, hd⟩ |
        ⟨_, _, -, -, hd, -⟩
      · cases hend with
        | success _ _ hle =>
          refine ⟨h.ordered.installed hle, fun x hx => ?_, ?_, ?_⟩
          · rw [ppis_installed h.ordered.nonneg] at hx
            refine List.mem_append.mpr ((List.mem_append.mp hx).imp (h.ppis x) id)
          · rw [h.ordered.callbacks_installed hle]
            exact h.callbacks
          · rw [h.ordered.dispatches_installed hle]
            exact h.dispatches
      · cases hd
      · cases hd
    · rename_i status data hcall
      obtain rfl := Option.some.inj hs
      rcases installPpi_cases h.ordered.room hcall with ⟨_, -, -, -, -, hd⟩ | ⟨-, hst, -, -⟩ | ⟨_, _, -, hst, -⟩
      · cases hd
      · have hfail : status ≠ .success := by rw [hst]; decide
        exact h.same (installPpi_fails h.ordered.room hcall hfail (hfits _ _ _ hcall hfail)).1 rfl rfl
      · exact h.same (installPpi_fails h.ordered.room hcall hst (hfits _ _ _ hcall hst)).1 rfl rfl
    · cases hs

theorem step_notify (h : Holds maxPpiSupported s) {notifyList : Option (List Descriptor)} {s' : State}
    (hfits : ∀ status p' d, peiNotifyPpi s.data notifyList = some (status, p', d) → status ≠ .success →
      Fits (·.has descriptorNotifyTypes) s.data notifyList)
    (hs : step maxPpiSupported s (.notify notifyList) = some s') : Holds maxPpiSupported s' := by
  have hroom := h.ordered.room
  have hcallbacks := h.ordered.callbacks
  simp only [step] at hs
  split at hs
  · cases hs
  · split at hs
    · rename_i status data d hcall
      obtain rfl := Option.some.inj hs
      rcases notifyPpi_cases hroom hcallbacks hcall with ⟨list, rfl, -, hend, hr, -⟩ | ⟨-, -, -, hd⟩ |
        ⟨_, _, -, -, hd, -⟩
      · cases hend with
        | success _ _ hle =>
          refine ⟨h.ordered.registered hr hle, ?_, fun x hx => ?_, fun x hx => ?_⟩
          · rw [h.ordered.ppis_registered hr hle]
            exact h.ppis
          · rw [hr.callbacks] at hx
            rcases List.mem_append.mp hx with hx | hx
            · exact ⟨List.mem_append_left _ (h.callbacks x hx).1, (h.callbacks x hx).2⟩
            · obtain ⟨hin, hflag⟩ := List.mem_filter.mp hx
              exact ⟨List.mem_append_right _ hin, by simpa using hflag⟩
          · rw [h.ordered.dispatches_registered hr] at hx
            rcases List.mem_append.mp hx with hx | hx
            · exact ⟨List.mem_append_left _ (h.dispatches x hx).1, (h.dispatches x hx).2⟩
            · obtain ⟨hin, hflag⟩ := List.mem_filter.mp hx
              exact ⟨List.mem_append_right _ hin, hflag⟩
      · cases hd
      · cases hd
    · rename_i status data hcall
      obtain rfl := Option.some.inj hs
      rcases notifyPpi_cases hroom hcallbacks hcall with ⟨_, -, -, -, -, hd⟩ | ⟨-, hst, -, -⟩ | ⟨_, _, -, hst, -⟩
      · cases hd
      · have hfail : status ≠ .success := by rw [hst]; decide
        exact h.same (notifyPpi_fails hroom hcallbacks hcall hfail (hfits _ _ _ hcall hfail)).1 rfl rfl
      · exact h.same (notifyPpi_fails hroom hcallbacks hcall hst (hfits _ _ _ hcall hst)).1 rfl rfl
    · cases hs

theorem step_reinstall (h : Holds maxPpiSupported s) {oldPpi newPpi : Option Descriptor} {s' : State}
    (hs : step maxPpiSupported s (.reinstall oldPpi newPpi) = some s') : Holds maxPpiSupported s' := by
  have hroom := h.ordered.room
  have hcallbacks := h.ordered.callbacks
  simp only [step] at hs
  split at hs
  · cases hs
  · split at hs
    · rename_i status data index d hcall
      obtain rfl := Option.some.inj hs
      rcases reinstallPpi_cases hcall with ⟨-, hd, -⟩ | ⟨new, i, rfl, -, h0, hlt, rfl, hd⟩
      · cases hd
      · obtain ⟨rfl, -⟩ := Prod.mk.inj (Option.some.inj hd)
        refine ⟨h.ordered.replaced index new, fun x hx => ?_, ?_, ?_⟩
        · rcases mem_ppis_replaced hx with rfl | hx
          · exact List.mem_append_right _ (by simp)
          · exact List.mem_append_left _ (h.ppis x hx)
        · rw [h.ordered.callbacks_replaced hlt]
          exact h.callbacks
        · rw [h.ordered.dispatches_replaced hlt]
          exact h.dispatches
    · rename_i status data hcall
      obtain rfl := Option.some.inj hs
      rcases reinstallPpi_cases hcall with ⟨rfl, -⟩ | ⟨_, _, -, -, -, -, -, hd⟩
      · exact h.same ⟨rfl, rfl, rfl, fun _ _ => rfl⟩ rfl rfl
      · cases hd

/-- The steps of `DispatchNotify` and of `ProcessNotifyList` leave the array alone. -/
theorem step_dispatch (h : Holds maxPpiSupported s) {e : Event} {s' : State}
    (he : e matches .process | .tick | .returns) (hs : step maxPpiSupported s e = some s') :
    Holds maxPpiSupported s' := by
  suffices hdata : SameParts s.data s'.data ∧ s'.ppisPassed = s.ppisPassed ∧ s'.notifiesPassed = s.notifiesPassed from
    h.same hdata.1 hdata.2.1 hdata.2.2
  have hrefl : SameParts s.data s.data := ⟨rfl, rfl, rfl, fun _ _ => rfl⟩
  cases e with
  | install | reinstall | notify => cases he
  | process =>
    simp only [step] at hs
    split at hs
    · obtain rfl := Option.some.inj hs
      exact ⟨hrefl, rfl, rfl⟩
    · cases hs
  | tick =>
    simp only [step] at hs
    split at hs
    · cases hs
    · split at hs
      · split at hs
        · obtain rfl := Option.some.inj hs
          exact ⟨hrefl, rfl, rfl⟩
        · obtain rfl := Option.some.inj hs
          exact ⟨hrefl, rfl, rfl⟩
      · rename_i proc _ _
        split at hs
        · obtain rfl := Option.some.inj hs
          exact ⟨hrefl, rfl, rfl⟩
        · obtain rfl := Option.some.inj hs
          refine ⟨?_, rfl, rfl⟩
          obtain ⟨loop, _, _⟩ := proc
          cases loop <;> exact ⟨rfl, rfl, rfl, fun _ _ => rfl⟩
      · cases hs
  | returns =>
    simp only [step] at hs
    split at hs
    · split at hs
      · obtain rfl := Option.some.inj hs
        exact ⟨hrefl, rfl, rfl⟩
      · cases hs
    · split at hs
      · obtain rfl := Option.some.inj hs
        exact ⟨hrefl, rfl, rfl⟩
      · cases hs
    · cases hs

theorem step_holds (h : Holds maxPpiSupported s) {e : Event} {s' : State} (hfits : Fitting s e)
    (hs : step maxPpiSupported s e = some s') : Holds maxPpiSupported s' := by
  cases e with
  | install ppiList => exact h.step_install (fun _ _ _ _ _ => hfits) hs
  | reinstall oldPpi newPpi => exact h.step_reinstall hs
  | notify notifyList => exact h.step_notify (fun _ _ _ _ _ => hfits) hs
  | process => exact h.step_dispatch rfl hs
  | tick => exact h.step_dispatch rfl hs
  | returns => exact h.step_dispatch rfl hs

end Holds

/-- In every state that fitting calls reach the array is in order, and a further call that fails leaves no trace
exactly if it fits. -/
theorem database_survives {maxPpiSupported : Nat} {events : List Event} {s : State}
    (hrun : Run (step maxPpiSupported) Fitting (start maxPpiSupported) events s) :
    Holds maxPpiSupported s ∧
      (∀ ppiList status p' d, peiInstallPpi s.data ppiList = some (status, p', d) → status ≠ .success →
        (Unchanged maxPpiSupported s.data p' ∧ d = none ↔ Fits (·.has descriptorPpi) s.data ppiList)) ∧
      ∀ notifyList status p' d, peiNotifyPpi s.data notifyList = some (status, p', d) → status ≠ .success →
        (Unchanged maxPpiSupported s.data p' ∧ d = none ↔ Fits (·.has descriptorNotifyTypes) s.data notifyList) := by
  have hholds : Holds maxPpiSupported s :=
    hrun.invariant (Holds maxPpiSupported) (Holds.start_holds maxPpiSupported) fun _ _ _ h hfits hs => h.step_holds hfits hs
  exact ⟨hholds, fun _ _ _ _ h hfail => installPpi_survives hholds.ordered h hfail,
    fun _ _ _ _ h hfail => notifyPpi_survives hholds.ordered h hfail⟩

/-- A PPI with the GUID, the last of its list or not. -/
def samplePpi (address guid : Nat) (last : Bool) : Descriptor :=
  ⟨address, if last then 0x80000010 else 0x10, guid, address⟩

def sampleNotify (address guid flag : Nat) (last : Bool) : Descriptor :=
  ⟨address, if last then 0x80000000 + flag else flag, guid, address⟩

/-- Two PPIs, a notify of each kind, a list that is not valid, and a call for an array that is full. -/
def fillingEvents : List Event :=
  [.install (some [samplePpi 1 7 false, samplePpi 2 8 true]), .tick,
    .notify (some [sampleNotify 3 7 0x20 false, sampleNotify 4 8 0x40 true]), .tick, .returns, .tick, .tick, .tick,
    .install (some [sampleNotify 6 7 0x20 true]),
    .process, .tick, .tick, .tick, .tick, .returns, .tick, .tick,
    .install (some [samplePpi 5 7 true]), .tick, .returns, .tick, .tick,
    .install (some [samplePpi 6 7 false, samplePpi 7 8 true])]

theorem database_survives_sample :
    ∃ s, Run (step 5) Fitting (start 5) fillingEvents s ∧
      s.calls.map (fun c => (c.1.address, c.2)) = [(3, 0), (4, 1), (3, 2)] ∧
      Holds 5 s := by
  obtain ⟨s, hs, hcalls⟩ := Option.map_eq_some_iff.mp
    (show (fillingEvents.foldlM (fun s e => if Fitting s e then step 5 s e else none) (start 5)).map
        (fun s => s.calls.map (fun c => (c.1.address, c.2))) = some [(3, 0), (4, 1), (3, 2)] by decide +kernel)
  obtain ⟨-, hrun⟩ := Run.of_guarded hs
  exact ⟨s, hrun, hcalls, (database_survives hrun).1⟩

/-- The first PPI of a list stays in the database although the list did not fit. -/
theorem full_array_keeps_entries : ∃ p', peiInstallPpi (initializePpiServices 1)
      (some [samplePpi 1 7 false, samplePpi 2 8 true]) = some (.outOfResources, p', none) ∧
    peiLocatePpi (initializePpiServices 1) 7 0 = none ∧ peiLocatePpi p' 7 0 = some (samplePpi 1 7 false) ∧
    ¬Unchanged 1 (initializePpiServices 1) p' := by
  refine ⟨(initializePpiServices 1).installed [samplePpi 1 7 false], rfl, rfl, rfl, fun h => ?_⟩
  have hlocated := h.located 7 0
  exact absurd hlocated (by decide)

end Udk.Ppi
