import Udk.Handle.Service

/-! # Who has an interface open -/

namespace Udk.Handle

/-- Two entries that `CoreOpenProtocol` should have counted as one. -/
def OpenProtocolData.SameOpen (d e : OpenProtocolData) : Prop :=
  d.agentHandle = e.agentHandle ∧ d.controllerHandle = e.controllerHandle ∧ d.attributes = e.attributes

/-- The open list of an interface keeps the rules of the open modes. -/
structure ProtocolInterface.KeepsModes (q : ProtocolInterface) : Prop where
  count : q.openListCount = q.openList.length
  exclusive : q.openList.countP OpenProtocolData.exclusive ≤ 1
  byDriver : q.openList.countP OpenProtocolData.byDriver ≤ 1
  /-- No driver manages what another agent has for itself. -/
  agents : ∀ d ∈ q.openList, ∀ e ∈ q.openList, d.exclusive → e.byDriver → e.agentHandle = d.agentHandle
  distinct : q.openList.Pairwise fun d e => ¬d.SameOpen e

def AllKeepModes (db : Database) : Prop := ∀ p q, db.prots p = some q → q.KeepsModes

/-! ## One open list -/

theorem length_filter_not {α : Type} (f : α → Bool) (l : List α) :
    (l.filter (!f ·)).length = l.length - l.countP f := by
  have h1 := List.length_eq_countP_add_countP f (l := l)
  have h2 : l.countP (fun d => ¬f d) = (l.filter (!f ·)).length := by
    rw [← List.countP_eq_length_filter]
    exact List.countP_congr (by simp)
  omega

namespace ProtocolInterface.KeepsModes
variable {q q' : ProtocolInterface}

theorem of_openList (h : q.KeepsModes) (ho : q'.openList = q.openList) (hc : q'.openListCount = q.openListCount) :
    q'.KeepsModes := by
  obtain ⟨h1, h2, h3, h4, h5⟩ := h
  constructor <;> simp only [ho, hc]
  · exact h1
  · exact h2
  · exact h3
  · exact h4
  · exact h5

theorem nil (ho : q.openList = []) (hc : q.openListCount = 0) : q.KeepsModes := by
  constructor <;> simp [ho, hc]

/-- Entries are removed, and counted. -/
theorem filter (f : OpenProtocolData → Bool) (h : q.KeepsModes) :
    ProtocolInterface.KeepsModes
      { q with openList := q.openList.filter (!f ·), openListCount := q.openListCount - q.openList.countP f } := by
  have hs : (q.openList.filter (!f ·)).Sublist q.openList := List.filter_sublist
  constructor
  · rw [length_filter_not, h.count]
  · exact Nat.le_trans (hs.countP_le) h.exclusive
  · exact Nat.le_trans (hs.countP_le) h.byDriver
  · intro d hd e he
    exact h.agents d (hs.mem hd) e (hs.mem he)
  · exact h.distinct.sublist hs

end ProtocolInterface.KeepsModes

/-- What an entry is but for the number of times it was opened. -/
def OpenProtocolData.mode (d : OpenProtocolData) : EfiHandle × EfiHandle × UInt32 :=
  (d.agentHandle, d.controllerHandle, d.attributes)

theorem countOpen_mode (c : OpenCall) (l : List OpenProtocolData) :
    (countOpen c l).map OpenProtocolData.mode = l.map OpenProtocolData.mode := by
  induction l with
  | nil => rfl
  | cons d rest ih =>
    rw [countOpen]
    split
    · rfl
    · rw [List.map_cons, List.map_cons, ih]

/-- The rules only look at the modes of the entries. -/
theorem ProtocolInterface.KeepsModes.of_mode {q q' : ProtocolInterface} (h : q.KeepsModes)
    (ho : q'.openList.map OpenProtocolData.mode = q.openList.map OpenProtocolData.mode)
    (hc : q'.openListCount = q.openListCount) : q'.KeepsModes := by
  have hlen : q'.openList.length = q.openList.length := by simpa using congrArg List.length ho
  have hcount : ∀ f : EfiHandle × EfiHandle × UInt32 → Bool,
      q'.openList.countP (fun d => f d.mode) = q.openList.countP fun d => f d.mode := by
    intro f
    have h1 := congrArg (List.countP f) ho
    rwa [List.countP_map, List.countP_map] at h1
  have hmem : ∀ d ∈ q'.openList, ∃ e ∈ q.openList, e.mode = d.mode := by
    intro d hd
    have h1 : d.mode ∈ q.openList.map OpenProtocolData.mode := ho ▸ List.mem_map_of_mem hd
    simpa using h1
  constructor
  · rw [hc, hlen, h.count]
  · exact hcount (fun m => m.2.2 &&& efiOpenProtocolExclusive != 0) ▸ h.exclusive
  · exact hcount (fun m => m.2.2 &&& efiOpenProtocolByDriver != 0) ▸ h.byDriver
  · intro d hd e he hx hb
    obtain ⟨d', hd', hmd⟩ := hmem d hd
    obtain ⟨e', he', hme⟩ := hmem e he
    simp only [OpenProtocolData.mode, Prod.mk.injEq] at hmd hme
    have h1 := h.agents d' hd' e' he' (by simpa [OpenProtocolData.exclusive, hmd] using hx)
      (by simpa [OpenProtocolData.byDriver, hme] using hb)
    rw [← hmd.1, ← hme.1]
    exact h1
  · have h1 : (q.openList.map OpenProtocolData.mode).Pairwise (· ≠ ·) := by
      refine List.pairwise_map.mpr (h.distinct.imp fun {d e} hne heq => hne ?_)
      simpa [OpenProtocolData.mode, OpenProtocolData.SameOpen] using heq
    rw [← ho] at h1
    refine (List.pairwise_map.mp h1).imp fun {d e} hne hs => hne ?_
    simpa [OpenProtocolData.mode, OpenProtocolData.SameOpen] using hs

/-- There is room for one more entry. -/
structure HasRoom (c : OpenCall) (q : ProtocolInterface) : Prop where
  conflict : c.entry.exclusive ∨ c.entry.byDriver → ∀ d ∈ q.openList, d.exclusive = false ∧ d.byDriver = false
  noMatch : ∀ d ∈ q.openList, c.exactMatch d = false

theorem exactMatch_iff (c : OpenCall) (d : OpenProtocolData) : c.exactMatch d = true ↔ d.SameOpen c.entry := by
  simp only [OpenCall.exactMatch, OpenProtocolData.SameOpen, OpenCall.entry, Bool.and_eq_true, beq_iff_eq]
  tauto

theorem ProtocolInterface.KeepsModes.append {q : ProtocolInterface} {c : OpenCall} (h : q.KeepsModes)
    (hr : HasRoom c q) :
    ProtocolInterface.KeepsModes
      { q with openList := q.openList ++ [c.entry], openListCount := q.openListCount + 1 } := by
  have hnone : ∀ f : OpenProtocolData → Bool, (∀ d ∈ q.openList, f d = false) → q.openList.countP f = 0 := by
    intro f hf
    exact List.countP_eq_zero.mpr fun d hd => by simp [hf d hd]
  constructor
  · simp [h.count]
  · rw [List.countP_append]
    rcases hx : c.entry.exclusive with _ | _
    · simpa [hx] using h.exclusive
    · rw [hnone _ fun d hd => (hr.conflict (.inl hx) d hd).1]
      simp [hx]
  · rw [List.countP_append]
    rcases hb : c.entry.byDriver with _ | _
    · simpa [hb] using h.byDriver
    · rw [hnone _ fun d hd => (hr.conflict (.inr hb) d hd).2]
      simp [hb]
  · intro d hd e he hx hb
    rcases List.mem_append.mp hd with hd | hd <;> rcases List.mem_append.mp he with he | he
    · exact h.agents d hd e he hx hb
    · obtain rfl := List.mem_singleton.mp he
      rw [(hr.conflict (.inr hb) d hd).1] at hx
      cases hx
    · obtain rfl := List.mem_singleton.mp hd
      rw [(hr.conflict (.inl hx) e he).2] at hb
      cases hb
    · rw [List.mem_singleton.mp hd, List.mem_singleton.mp he]
  · refine List.pairwise_append.mpr ⟨h.distinct, List.pairwise_singleton .., ?_⟩
    intro d hd e he hs
    obtain rfl := List.mem_singleton.mp he
    have h1 := (exactMatch_iff c d).mpr hs
    rw [hr.noMatch d hd] at h1
    cases h1

/-- What the scan has seen when it finds nothing. -/
theorem scan_conflicts {c : OpenCall} {l : List OpenProtocolData} {b x byDriver exclusive : Bool}
    (h : scan c l b x = .conflicts byDriver exclusive) :
    byDriver = (b || l.any OpenProtocolData.byDriver) ∧ exclusive = (x || l.any OpenProtocolData.exclusive) ∧
      ∀ d ∈ l, c.exactMatch d → d.exclusive = true ∧ d.byDriver = false := by
  induction l generalizing b x with
  | nil =>
    simp only [scan, Scan.conflicts.injEq] at h
    simp [h.1, h.2]
  | cons d rest ih =>
    rw [scan] at h
    split at h
    · cases h
    · rename_i hd
      split at h
      · rename_i hx
        obtain ⟨h1, h2, h3⟩ := ih h
        refine ⟨by simp [h1, Bool.or_assoc], by simp [h2, hx], ?_⟩
        intro e he hm
        rcases List.mem_cons.mp he with rfl | he
        · exact ⟨hx, by simpa [hm] using hd⟩
        · exact h3 e he hm
      · rename_i hx
        split at h
        · cases h
        · rename_i hm
          obtain ⟨h1, h2, h3⟩ := ih h
          refine ⟨by simp [h1, Bool.or_assoc], by simp [h2, hx], ?_⟩
          intro e he hm'
          rcases List.mem_cons.mp he with rfl | he
          · exact absurd hm' hm
          · exact h3 e he hm'

/-! ## The database -/

section
variable (db : Database)

@[simp] theorem touchHandle_prots (h : EfiHandle) : (touchHandle h db).prots = db.prots := rfl
@[simp] theorem setEntry_prots (g : Guid) (f : ProtocolEntry → ProtocolEntry) : (setEntry g f db).prots = db.prots := rfl
@[simp] theorem createEntry_prots (g : Guid) : (createEntry g db).prots = db.prots := rfl
@[simp] theorem createHandle_prots (h : EfiHandle) : (createHandle h db).prots = db.prots := rfl
@[simp] theorem coreNotifyProtocolEntry_prots (g : Guid) : (coreNotifyProtocolEntry g db).prots = db.prots := rfl
@[simp] theorem removeFromEntry_prots (p : ProtAddress) (g : Guid) : (removeFromEntry p g db).prots = db.prots := rfl

@[simp] theorem freeIfEmpty_prots (h : EfiHandle) : (freeIfEmpty h db).prots = db.prots := by
  rw [freeIfEmpty]
  split <;> rfl

end

namespace AllKeepModes
variable {db db' : Database}

theorem of_prots (h : AllKeepModes db) (hp : db'.prots = db.prots) : AllKeepModes db' := by
  intro p q hq
  exact h p q (hp ▸ hq)

theorem setProt {p : ProtAddress} {f : ProtocolInterface → ProtocolInterface} (h : AllKeepModes db)
    (hf : ∀ q, db.prots p = some q → q.KeepsModes → (f q).KeepsModes) : AllKeepModes (setProt p f db) := by
  intro a q hq
  simp only [Handle.setProt] at hq
  split at hq
  · rename_i ha
    obtain ⟨q0, hq0, rfl⟩ := Option.map_eq_some_iff.mp hq
    subst ha
    exact hf q0 hq0 (h a q0 hq0)
  · exact h a q hq

theorem newOpenEntry {pool : Pool} {c : OpenCall} {p : ProtAddress} (h : AllKeepModes db)
    (hr : ∀ q, db.prots p = some q → HasRoom c q) : AllKeepModes (newOpenEntry pool c p db).2 := by
  rw [Handle.newOpenEntry]
  split
  · exact h
  · split
    · exact h.setProt fun q hq hk => hk.append (hr q hq)
    · exact h

theorem removeQueries {p : ProtAddress} (h : AllKeepModes db) : AllKeepModes (removeQueries p db) :=
  h.setProt fun _ _ hk => hk.filter OpenProtocolData.isQuery

theorem closeProtocol {h a k : EfiHandle} {g : Guid} (hk : AllKeepModes db) :
    AllKeepModes (coreCloseProtocol h g a k db).2 := by
  rw [coreCloseProtocol]
  split
  · exact hk
  · split
    · exact hk
    · exact hk.setProt fun _ _ hq => hq.filter _

theorem removeFromHandle {p : ProtAddress} {h : EfiHandle} (hk : AllKeepModes db) :
    AllKeepModes (removeFromHandle p h db) := by
  intro a q hq
  simp only [Handle.removeFromHandle] at hq
  split at hq
  · cases hq
  · exact hk a q hq

theorem removeProtocolInterface {h : EfiHandle} {g : Guid} {i : Interface} (hk : AllKeepModes db) :
    AllKeepModes (removeProtocolInterface h g i db).2 := by
  rw [Handle.removeProtocolInterface]
  split
  · exact hk.of_prots (freeIfEmpty_prots ..)
  · rename_i p _
    have h1 : AllKeepModes (touchHandle h (removeFromEntry p g db)) := hk.of_prots (by simp)
    exact h1.removeFromHandle.of_prots (freeIfEmpty_prots ..)

theorem replaceProtocolInterface {h : EfiHandle} {g : Guid} {i j : Interface} (hk : AllKeepModes db) :
    AllKeepModes (replaceProtocolInterface h g i j db).2 := by
  rw [Handle.replaceProtocolInterface]
  split
  · exact hk
  · rename_i p _
    have h1 : AllKeepModes (removeFromEntry p g db) := hk.of_prots (by simp)
    have h2 := h1.setProt (p := p) (f := ({ · with interface := j })) fun q _ hq => hq.of_openList rfl rfl
    exact h2.of_prots (by simp)

theorem addInterface {p : ProtAddress} {h : EfiHandle} {g : Guid} {i : Interface} (hk : AllKeepModes db) :
    AllKeepModes (addInterface p ⟨h, g, i, [], 0⟩ db) := by
  intro a q hq
  simp only [Handle.addInterface, setEntry_prots] at hq
  split at hq
  · obtain rfl := Option.some.inj hq
    exact .nil rfl rfl
  · exact hk a q hq

theorem installProtocolInterface {pool : Pool} {h : EfiHandle} {g : Guid} {i : Interface} {st : EfiStatus}
    (hk : AllKeepModes db) : AllKeepModes (installProtocolInterface pool h g i st db).2.2 := by
  have h1 : AllKeepModes (createEntry g db) := hk.of_prots (by simp)
  rw [Handle.installProtocolInterface]
  split
  · exact hk
  · dsimp only
    split
    · exact h1
    · split
      · exact h1
      · rename_i hnew
        split at hnew
        · obtain ⟨a, _, ha⟩ := Option.map_eq_some_iff.mp hnew
          obtain ⟨rfl, rfl⟩ := Prod.mk.inj ha
          have h3 : AllKeepModes (createHandle a (createEntry g db)) := h1.of_prots (by simp)
          split
          · exact h3
          · exact of_prots h3.addInterface (coreNotifyProtocolEntry_prots ..)
        · obtain ⟨rfl, rfl⟩ := Prod.mk.inj (Option.some.inj hnew)
          split
          · exact h1
          · exact of_prots h1.addInterface (coreNotifyProtocolEntry_prots ..)

theorem registerProtocolNotify {pool : Pool} {g : Guid} {e : EventId} (hk : AllKeepModes db) :
    AllKeepModes (coreRegisterProtocolNotify pool g e db).2 := by
  rw [coreRegisterProtocolNotify]
  split
  · exact hk
  · dsimp only
    split <;> exact hk.of_prots (by simp)

end AllKeepModes

/-! ## Opening -/

theorem hasRoom_of_exclusive {c : OpenCall} {q : ProtocolInterface} (hc : c.entry.exclusive = true)
    (hx : q.openList.any OpenProtocolData.exclusive = false)
    (hb : q.openList.any OpenProtocolData.byDriver = false) : HasRoom c q := by
  rw [List.any_eq_false] at hx hb
  refine ⟨fun _ d hd => ⟨by simpa using hx d hd, by simpa using hb d hd⟩, ?_⟩
  intro d hd
  rcases hm : c.exactMatch d with _ | _
  · rfl
  · obtain ⟨_, _, ha⟩ := (exactMatch_iff c d).mp hm
    have h1 : d.exclusive = c.entry.exclusive := by rw [OpenProtocolData.exclusive, ha]; rfl
    exact absurd (h1.trans hc) (hx d hd)

/-- The attributes that pass the checks, by what they exclude. -/
theorem checkOpen_attributes {c : OpenCall} {db : Database} (h : checkOpen c db = .success) :
    c.attributes = efiOpenProtocolByDriver ∨
      (c.attributes = efiOpenProtocolByDriver ||| efiOpenProtocolExclusive ∨
        c.attributes = efiOpenProtocolExclusive) ∨
      c.entry.exclusive = false ∧ c.entry.byDriver = false := by
  have hquery : c.attributes = efiOpenProtocolByChildController ∨ c.attributes = efiOpenProtocolByHandleProtocol ∨
      c.attributes = efiOpenProtocolGetProtocol ∨ c.attributes = efiOpenProtocolTestProtocol →
      c.entry.exclusive = false ∧ c.entry.byDriver = false := by
    simp only [OpenProtocolData.exclusive, OpenProtocolData.byDriver, OpenCall.entry]
    rintro (h | h | h | h) <;> rw [h] <;> decide
  rw [checkOpen] at h
  split at h
  · cases h
  · split at h
    · cases h
    · split at h
      · exact .inr (.inr (hquery (.inl ‹_›)))
      · split at h
        · rename_i ha
          rcases ha with ha | ha
          · exact .inl ha
          · exact .inr (.inl (.inl ha))
        · split at h
          · exact .inr (.inl (.inr ‹_›))
          · split at h
            · exact .inr (.inr (hquery (.inr ‹_›)))
            · cases h

theorem exclusive_of_attributes {c : OpenCall}
    (h : c.attributes = efiOpenProtocolByDriver ||| efiOpenProtocolExclusive ∨
      c.attributes = efiOpenProtocolExclusive) : c.entry.exclusive = true := by
  simp only [OpenProtocolData.exclusive, OpenCall.entry]
  rcases h with h | h <;> rw [h] <;> decide

theorem scan_hasRoom {c : OpenCall} {q : ProtocolInterface} {byDriver exclusive : Bool}
    (h : scan c q.openList false false = .conflicts byDriver exclusive)
    (hc : c.entry.exclusive ∨ c.entry.byDriver → byDriver = false ∧ exclusive = false) : HasRoom c q := by
  obtain ⟨h1, h2, h3⟩ := scan_conflicts h
  simp only [Bool.false_or] at h1 h2
  have hroom : c.entry.exclusive ∨ c.entry.byDriver →
      ∀ d ∈ q.openList, d.exclusive = false ∧ d.byDriver = false := by
    intro ha d hd
    obtain ⟨hb, hx⟩ := hc ha
    rw [h1, List.any_eq_false] at hb
    rw [h2, List.any_eq_false] at hx
    exact ⟨by simpa using hx d hd, by simpa using hb d hd⟩
  refine ⟨hroom, fun d hd => ?_⟩
  rcases hm : c.exactMatch d with _ | _
  · rfl
  · obtain ⟨hx, _⟩ := h3 d hd hm
    have h4 : d.exclusive = c.entry.exclusive := by
      rw [OpenProtocolData.exclusive, ((exactMatch_iff c d).mp hm).2.2]
      rfl
    have h5 := (hroom (.inl (h4 ▸ hx)) d hd).1
    rw [hx] at h5
    cases h5

/-- An interface is opened under the lock, unless there are drivers to disconnect first. -/
def Opened.Keeps (c : OpenCall) (db : Database) : Opened → Prop
  | .done _ db' => AllKeepModes db'
  | .disconnect prot =>
    c.entry.exclusive = true ∧ ∃ q, db.prots prot = some q ∧ q.openList.any OpenProtocolData.byDriver = true

theorem coreOpenProtocol_keeps {pool : Pool} {c : OpenCall} {db : Database} (h : AllKeepModes db) :
    (coreOpenProtocol pool c db).Keeps c db := by
  rw [coreOpenProtocol]
  split
  · exact h
  · rename_i hok
    rcases hg : coreGetProtocolInterface c.userHandle c.protocol db with _ | prot
    · exact h
    · obtain ⟨q, hq⟩ : ∃ q, db.prots prot = some q := by
        have h1 := List.find?_some hg
        rcases hq : db.prots prot with _ | q
        · rw [hq] at h1
          cases h1
        · exact ⟨q, rfl⟩
      simp only [hq, Option.map_some, Option.getD_some]
      have hadd (hr : HasRoom c q) : AllKeepModes (newOpenEntry pool c prot db).2 := by
        refine h.newOpenEntry fun q' hq' => ?_
        obtain rfl := Option.some.inj (hq.symm.trans hq')
        exact hr
      rcases hs : scan c q.openList false false with _ | _ | ⟨byDriver, exclusive⟩
      · exact h
      · exact h.setProt fun _ _ hk => hk.of_mode (countOpen_mode ..) rfl
      · simp only
        rcases checkOpen_attributes (not_not.mp hok) with ha | ha | ha
        · by_cases hc : exclusive = true ∨ byDriver = true
          · rw [if_pos ⟨ha, hc⟩]
            exact h
          · have hne : ¬(c.attributes = efiOpenProtocolByDriver ||| efiOpenProtocolExclusive ∨
                c.attributes = efiOpenProtocolExclusive) := by
              rw [ha]
              decide
            rw [if_neg fun hx => hc hx.2, if_neg hne]
            exact hadd (scan_hasRoom hs fun _ => by simpa [and_comm] using hc)
        · have hne : c.attributes ≠ efiOpenProtocolByDriver := by
            rcases ha with ha | ha <;> rw [ha] <;> decide
          rw [if_neg fun hx => hne hx.1, if_pos ha]
          split
          · exact h
          · split
            · refine ⟨exclusive_of_attributes ha, q, hq, ?_⟩
              rw [← Bool.false_or (q.openList.any _), ← (scan_conflicts hs).1]
              assumption
            · exact hadd (scan_hasRoom hs fun _ => by simp [*])
        · have hne : c.attributes ≠ efiOpenProtocolByDriver := by
            rintro hx
            have h1 := ha.2
            simp only [OpenProtocolData.byDriver, OpenCall.entry, hx] at h1
            exact absurd h1 (by decide)
          have hne' : ¬(c.attributes = efiOpenProtocolByDriver ||| efiOpenProtocolExclusive ∨
              c.attributes = efiOpenProtocolExclusive) := by
            intro hx
            rw [exclusive_of_attributes hx] at ha
            exact absurd ha.1 (by decide)
          rw [if_neg fun hx => hne hx.1, if_neg hne']
          exact hadd (scan_hasRoom hs fun hx => by simp [ha] at hx)

theorem AllKeepModes.handleProtocol {pool : Pool} {h : EfiHandle} {g : Guid} {db : Database} (hk : AllKeepModes db) :
    AllKeepModes (coreHandleProtocol pool h g db).2 := by
  have h1 := @coreOpenProtocol_keeps pool (handleProtocolCall h g db) _ hk
  rw [coreHandleProtocol]
  split <;> rename_i heq <;> rw [heq] at h1
  · exact h1
  · exact hk

theorem AllKeepModes.locateDevicePath {pool : Pool} {g : Guid} {i : Interface} {db : Database} (hk : AllKeepModes db) :
    AllKeepModes (coreLocateDevicePath pool g i db).2 := by
  rw [coreLocateDevicePath]
  split
  · exact hk
  · generalize (db.devicePathAt i).first.bytes = source
    have hround : ∀ (l : List EfiHandle) (best : Option (Nat × EfiHandle) × Database), AllKeepModes best.2 →
        AllKeepModes (l.foldl (locateRound pool source) best).2 := by
      intro l
      induction l with
      | nil => exact fun _ hb => hb
      | cons a rest ih =>
        intro best hb
        refine ih _ ?_
        rw [locateRound]
        dsimp only
        split
        · exact hb.handleProtocol
        · split <;> exact hb.handleProtocol
    exact hround _ (none, db) hk

end Udk.Handle
