import Mathlib.Data.List.Basic
import Udk.Handle.OpenList

/-! # What is installed on a handle -/

namespace Udk.Handle

/-- What does not change when an interface is opened or closed. -/
def ProtocolInterface.ident (q : ProtocolInterface) : EfiHandle × Pair := (q.handle, q.protocol, q.interface)

def pairsOf (db : Database) (l : List ProtAddress) : List Pair :=
  l.filterMap fun p => (db.prots p).map fun q => (q.protocol, q.interface)

theorem interfacesOf_eq (db : Database) (h : EfiHandle) : interfacesOf db h = pairsOf db (protocolsOf db h) := rfl

/-- The lists of the database agree. -/
structure Linked (db : Database) : Prop where
  null : db.handles 0 = none
  nodup : ∀ h, (protocolsOf db h).Nodup
  owned : ∀ h p, p ∈ protocolsOf db h → ∃ q, db.prots p = some q ∧ q.handle = h
  listed : ∀ p q, db.prots p = some q → p ∈ protocolsOf db q.handle
  known : ∀ p q, db.prots p = some q → (db.mProtocolDatabase q.protocol).isSome = true
  counted : ∀ p q, db.prots p = some q → q.openListCount = q.openList.length

structure Wf (db : Database) : Prop extends Linked db where
  used : ∀ h, (db.handles h).isSome = true → protocolsOf db h ≠ []

/-- Only open lists changed. -/
structure SameShape (db db' : Database) : Prop where
  handles : db'.handles = db.handles
  entries : db'.mProtocolDatabase = db.mProtocolDatabase
  prots : ∀ p, (db'.prots p).map ProtocolInterface.ident = (db.prots p).map ProtocolInterface.ident

namespace SameShape
variable {db db' db'' : Database}

theorem refl : SameShape db db := ⟨rfl, rfl, fun _ => rfl⟩

theorem trans (h : SameShape db db') (h' : SameShape db' db'') : SameShape db db'' :=
  ⟨h'.handles.trans h.handles, h'.entries.trans h.entries, fun p => (h'.prots p).trans (h.prots p)⟩

theorem protocolsOf (h : SameShape db db') (a : EfiHandle) : protocolsOf db' a = protocolsOf db a := by
  rw [Handle.protocolsOf, h.handles]
  rfl

theorem of_some (h : SameShape db db') {p : ProtAddress} {q' : ProtocolInterface} (hq : db'.prots p = some q') :
    ∃ q, db.prots p = some q ∧ q'.ident = q.ident := by
  have h1 := h.prots p
  rw [hq, Option.map_some, eq_comm] at h1
  obtain ⟨q, hq, h2⟩ := Option.map_eq_some_iff.mp h1
  exact ⟨q, hq, h2.symm⟩

theorem pairsOf (h : SameShape db db') (l : List ProtAddress) : pairsOf db' l = pairsOf db l := by
  have h1 : ∀ p, (db'.prots p).map (fun q => (q.protocol, q.interface)) =
      (db.prots p).map fun q => (q.protocol, q.interface) := by
    intro p
    simpa [Option.map_map, Function.comp_def, ProtocolInterface.ident] using
      congrArg (Option.map (fun x : EfiHandle × Pair => x.2)) (h.prots p)
  simp only [Handle.pairsOf, h1]

theorem interfacesOf (h : SameShape db db') (a : EfiHandle) : interfacesOf db' a = interfacesOf db a := by
  rw [interfacesOf_eq, interfacesOf_eq, h.protocolsOf, h.pairsOf]

theorem validateHandle (h : SameShape db db') (a : EfiHandle) : coreValidateHandle a db' = coreValidateHandle a db := by
  rw [coreValidateHandle, h.handles]
  rfl

theorem wf (h : SameShape db db') (hw : Wf db)
    (hc : ∀ p q, db'.prots p = some q → q.openListCount = q.openList.length) : Wf db' := by
  refine ⟨⟨?_, ?_, ?_, ?_, ?_, hc⟩, ?_⟩
  · rw [h.handles]
    exact hw.null
  · intro a
    rw [h.protocolsOf]
    exact hw.nodup a
  · intro a p hp
    rw [h.protocolsOf] at hp
    obtain ⟨q, hq, ha⟩ := hw.owned a p hp
    have h1 := h.prots p
    rw [hq, Option.map_some] at h1
    obtain ⟨q', hq', h2⟩ := Option.map_eq_some_iff.mp h1
    exact ⟨q', hq', (congrArg Prod.fst h2).trans ha⟩
  · intro p q' hq'
    obtain ⟨q, hq, h2⟩ := h.of_some hq'
    have h3 : q'.handle = q.handle := congrArg Prod.fst h2
    rw [h.protocolsOf, h3]
    exact hw.listed p q hq
  · intro p q' hq'
    obtain ⟨q, hq, h2⟩ := h.of_some hq'
    have h3 : q'.protocol = q.protocol := congrArg (fun x : EfiHandle × Pair => x.2.1) h2
    rw [h.entries, h3]
    exact hw.known p q hq
  · intro a ha
    rw [h.handles] at ha
    rw [h.protocolsOf]
    exact hw.used a ha

end SameShape

theorem setProt_some {db : Database} {p a : ProtAddress} {f : ProtocolInterface → ProtocolInterface}
    {q' : ProtocolInterface} (hq : (setProt p f db).prots a = some q') :
    db.prots a = some q' ∧ a ≠ p ∨ a = p ∧ ∃ q, db.prots p = some q ∧ q' = f q := by
  simp only [setProt] at hq
  split at hq
  · rename_i ha
    subst ha
    obtain ⟨q, h1, h2⟩ := Option.map_eq_some_iff.mp hq
    exact .inr ⟨rfl, q, h1, h2.symm⟩
  · exact .inl ⟨hq, ‹_›⟩

theorem sameShape_setProt {db : Database} {p : ProtAddress} {f : ProtocolInterface → ProtocolInterface}
    (hf : ∀ q, (f q).ident = q.ident) : SameShape db (setProt p f db) := by
  refine ⟨rfl, rfl, fun a => ?_⟩
  simp only [setProt]
  split
  · rw [Option.map_map]
    exact congrArg (Option.map · (db.prots a)) (funext hf)
  · rfl

/-- An update of an open list that counts its entries. -/
theorem Wf.setProt {db : Database} {p : ProtAddress} {f : ProtocolInterface → ProtocolInterface} (h : Wf db)
    (hf : ∀ q, (f q).ident = q.ident)
    (hc : ∀ q, q.openListCount = q.openList.length → (f q).openListCount = (f q).openList.length) :
    Wf (setProt p f db) := by
  refine (sameShape_setProt hf).wf h fun a q' hq' => ?_
  rcases setProt_some hq' with ⟨h1, _⟩ | ⟨_, q, h1, rfl⟩
  · exact h.counted a q' h1
  · exact hc q (h.counted p q h1)

/-! ## Opening and closing -/

theorem length_countOpen (c : OpenCall) (l : List OpenProtocolData) : (countOpen c l).length = l.length := by
  simpa using congrArg List.length (countOpen_mode c l)

/-- What an update of open lists does: the database keeps its shape, and stays well formed. -/
def Tidy (db db' : Database) : Prop := SameShape db db' ∧ (Wf db → Wf db')

theorem Tidy.refl {db : Database} : Tidy db db := ⟨.refl, id⟩

theorem Tidy.trans {db db' db'' : Database} (h : Tidy db db') (h' : Tidy db' db'') : Tidy db db'' :=
  ⟨h.1.trans h'.1, h'.2 ∘ h.2⟩

theorem tidy_setProt {db : Database} {p : ProtAddress} {f : ProtocolInterface → ProtocolInterface}
    (hf : ∀ q, (f q).ident = q.ident)
    (hc : ∀ q, q.openListCount = q.openList.length → (f q).openListCount = (f q).openList.length) :
    Tidy db (setProt p f db) :=
  ⟨sameShape_setProt hf, fun h => h.setProt hf hc⟩

theorem tidy_newOpenEntry {pool : Pool} {c : OpenCall} {p : ProtAddress} {db : Database} :
    Tidy db (newOpenEntry pool c p db).2 := by
  rw [newOpenEntry]
  split
  · exact .refl
  · split
    · exact tidy_setProt (fun _ => rfl) fun q hq => by simp [hq]
    · exact .refl

theorem tidy_filter {db : Database} {p : ProtAddress} (f : OpenProtocolData → Bool) :
    Tidy db (setProt p (fun q =>
      { q with openList := q.openList.filter (!f ·), openListCount := q.openListCount - q.openList.countP f }) db) := by
  refine tidy_setProt (fun _ => rfl) fun q hq => ?_
  rw [length_filter_not, hq]

theorem tidy_removeQueries {p : ProtAddress} {db : Database} : Tidy db (removeQueries p db) :=
  tidy_filter OpenProtocolData.isQuery

theorem tidy_closeProtocol {h a k : EfiHandle} {g : Guid} {db : Database} :
    Tidy db (coreCloseProtocol h g a k db).2 := by
  rw [coreCloseProtocol]
  split
  · exact .refl
  · split
    · exact .refl
    · exact tidy_filter _

theorem tidy_openProtocol {pool : Pool} {c : OpenCall} {db db' : Database} {st : EfiStatus}
    (h : coreOpenProtocol pool c db = .done st db') : Tidy db db' := by
  rw [coreOpenProtocol] at h
  split at h
  · cases h
    exact .refl
  · split at h
    · cases h
      exact .refl
    · split at h
      · cases h
        exact .refl
      · cases h
        exact tidy_setProt (fun _ => rfl) fun q hq => by rw [length_countOpen, hq]
      · split at h
        · cases h
          exact .refl
        · split at h
          · split at h
            · cases h
              exact .refl
            · split at h
              · cases h
              · cases h
                exact tidy_newOpenEntry
          · cases h
            exact tidy_newOpenEntry

/-! ## Looking for a protocol -/

/-- The entries of `CoreHandleProtocol`. -/
def OpenProtocolData.isLookup (d : OpenProtocolData) : Bool := d.attributes == efiOpenProtocolByHandleProtocol

/-- All that `CoreHandleProtocol` does is to note who asked. -/
structure Queried (db db' : Database) : Prop where
  tidy : Tidy db db'
  lookups : ∀ p q q', db.prots p = some q → db'.prots p = some q' → (∀ d ∈ q.openList, d.isLookup = true) →
    ∀ d ∈ q'.openList, d.isLookup = true

theorem Queried.refl {db : Database} : Queried db db := by
  refine ⟨.refl, fun p q q' hq hq' h => ?_⟩
  obtain rfl := Option.some.inj (hq.symm.trans hq')
  exact h

theorem Queried.trans {db db' db'' : Database} (h : Queried db db') (h' : Queried db' db'') : Queried db db'' := by
  refine ⟨h.tidy.trans h'.tidy, fun p q q'' hq hq'' hall => ?_⟩
  obtain ⟨q', hq', _⟩ := h'.tidy.1.of_some hq''
  exact h'.lookups p q' q'' hq' hq'' (h.lookups p q q' hq hq' hall)

theorem isLookup_countOpen {c : OpenCall} {l : List OpenProtocolData} (h : ∀ d ∈ l, d.isLookup = true) :
    ∀ d ∈ countOpen c l, d.isLookup = true := by
  intro d hd
  have h1 : d.mode ∈ l.map OpenProtocolData.mode := countOpen_mode c l ▸ List.mem_map_of_mem hd
  obtain ⟨e, he, h2⟩ := List.mem_map.mp h1
  simp only [OpenProtocolData.mode, Prod.mk.injEq] at h2
  have h3 := h e he
  rw [OpenProtocolData.isLookup, h2.2.2] at h3
  exact h3

theorem queried_setProt {db : Database} {p : ProtAddress} {f : ProtocolInterface → ProtocolInterface}
    (ht : Tidy db (setProt p f db))
    (hf : ∀ q, (∀ d ∈ q.openList, d.isLookup = true) → ∀ d ∈ (f q).openList, d.isLookup = true) :
    Queried db (setProt p f db) := by
  refine ⟨ht, fun a q q' hq hq' hall => ?_⟩
  rcases setProt_some hq' with ⟨h1, _⟩ | ⟨rfl, q0, h1, rfl⟩
  · obtain rfl := Option.some.inj (hq.symm.trans h1)
    exact hall
  · obtain rfl := Option.some.inj (hq.symm.trans h1)
    exact hf q hall

theorem queried_newOpenEntry {pool : Pool} {c : OpenCall} {p : ProtAddress} {db : Database}
    (hc : c.entry.isLookup = true) : Queried db (newOpenEntry pool c p db).2 := by
  have ht := @tidy_newOpenEntry pool c p db
  rw [newOpenEntry] at ht ⊢
  split
  · exact .refl
  · rename_i hi
    rw [if_neg hi] at ht
    split
    · rename_i hp
      rw [if_pos hp] at ht
      refine queried_setProt ht fun q hall d hd => ?_
      rcases List.mem_append.mp hd with hd | hd
      · exact hall d hd
      · exact List.mem_singleton.mp hd ▸ hc
    · exact .refl

theorem coreGetProtocolInterface_none {h : EfiHandle} {g : Guid} {db : Database}
    (hn : coreGetProtocolInterface h g db = none) : ∀ x ∈ interfacesOf db h, x.1 ≠ g := by
  intro x hx he
  obtain ⟨p, hp, h1⟩ := List.mem_filterMap.mp hx
  obtain ⟨q, hq, rfl⟩ := Option.map_eq_some_iff.mp h1
  have h2 := List.find?_eq_none.mp hn p hp
  rw [hq, Option.any_some, beq_iff_eq] at h2
  exact h2 he

theorem scan_alreadyStarted {c : OpenCall} {l : List OpenProtocolData} {b x : Bool}
    (h : scan c l b x = .alreadyStarted) : c.entry.byDriver = true := by
  induction l generalizing b x with
  | nil => cases h
  | cons d rest ih =>
    rw [scan] at h
    split at h
    · rename_i hd
      rw [Bool.and_eq_true] at hd
      have h1 := ((exactMatch_iff c d).mp hd.2).2.2
      rw [← hd.1, OpenProtocolData.byDriver, OpenProtocolData.byDriver, h1]
    · split at h
      · exact ih h
      · split at h
        · cases h
        · exact ih h

/-- The call of `CoreHandleProtocol` fails only if the protocol is not there. -/
theorem coreHandleProtocol_spec {pool : Pool} {h : EfiHandle} {g : Guid} {db : Database} :
    Queried db (coreHandleProtocol pool h g db).2 ∧
      (pool.openData h = true → (coreHandleProtocol pool h g db).1.isError = true → ∀ x ∈ interfacesOf db h, x.1 ≠ g) ∧
      (coreValidateHandle h db = true → (∀ x ∈ interfacesOf db h, x.1 ≠ g) →
        (coreHandleProtocol pool h g db).1.isError = true) := by
  have hattr : (handleProtocolCall h g db).entry.isLookup = true := rfl
  have hcheck : checkOpen (handleProtocolCall h g db) db =
      if coreValidateHandle h db = false then .invalidParameter else .success := by
    rw [checkOpen, if_neg fun hx => Bool.noConfusion hx.2]
    rfl
  rw [coreHandleProtocol, coreOpenProtocol, hcheck]
  rcases hv : coreValidateHandle h db with _ | _
  · have hnone : interfacesOf db h = [] := by
      rw [coreValidateHandle, Option.isSome_eq_false_iff, Option.isNone_iff_eq_none] at hv
      rw [interfacesOf, protocolsOf, hv]
      rfl
    exact ⟨.refl, fun _ _ => by simp [hnone], fun hx => Bool.noConfusion hx⟩
  · have hg : ∀ p, coreGetProtocolInterface h g db = some p → ∃ q, db.prots p = some q ∧ q.protocol = g ∧
        p ∈ protocolsOf db h := by
      intro p hp
      have h1 := List.find?_some hp
      rcases hq : db.prots p with _ | q
      · rw [hq] at h1
        cases h1
      · rw [hq] at h1
        exact ⟨q, rfl, by simpa using h1, List.mem_of_find?_eq_some hp⟩
    simp only [Bool.true_eq_false, if_false, ne_eq, not_true_eq_false]
    rcases hp : coreGetProtocolInterface h g db with _ | p
    · have h1 : coreGetProtocolInterface (handleProtocolCall h g db).userHandle (handleProtocolCall h g db).protocol db =
          none := hp
      rw [h1]
      exact ⟨.refl, fun _ _ => coreGetProtocolInterface_none hp, fun _ _ => rfl⟩
    · have h1 : coreGetProtocolInterface (handleProtocolCall h g db).userHandle (handleProtocolCall h g db).protocol db =
          some p := hp
      obtain ⟨q, hq, hqg, hmem⟩ := hg p hp
      have hno : ¬∀ x ∈ interfacesOf db h, x.1 ≠ g := by
        intro hall
        refine hall (q.protocol, q.interface) (List.mem_filterMap.mpr ⟨p, hmem, ?_⟩) hqg
        rw [hq, Option.map_some]
      rw [h1]
      simp only [hq, Option.map_some, Option.getD_some]
      rcases hs : scan (handleProtocolCall h g db) q.openList false false with _ | _ | ⟨b, x⟩
      · have h2 := scan_alreadyStarted hs
        simp only [OpenProtocolData.byDriver, OpenCall.entry, handleProtocolCall] at h2
        exact absurd h2 (by decide)
      · have ht : Tidy db (setProt p (fun q =>
            { q with openList := countOpen (handleProtocolCall h g db) q.openList }) db) :=
          tidy_setProt (fun _ => rfl) fun q hq => by rw [length_countOpen, hq]
        exact ⟨queried_setProt ht fun q hall => isLookup_countOpen hall, fun _ hx => Bool.noConfusion hx,
          fun _ hx => absurd hx hno⟩
      · have hne : ¬((handleProtocolCall h g db).attributes = efiOpenProtocolByDriver ∧ (x = true ∨ b = true)) := by
          rintro ⟨h2, _⟩
          exact absurd h2 (by decide : efiOpenProtocolByHandleProtocol ≠ efiOpenProtocolByDriver)
        have hne' : ¬((handleProtocolCall h g db).attributes = efiOpenProtocolByDriver ||| efiOpenProtocolExclusive ∨
            (handleProtocolCall h g db).attributes = efiOpenProtocolExclusive) := by
          simp only [handleProtocolCall]
          decide
        simp only [if_neg hne, if_neg hne']
        refine ⟨queried_newOpenEntry hattr, fun hpool hst => ?_, fun _ hx => absurd hx hno⟩
        rw [newOpenEntry, if_pos (show pool.openData (handleProtocolCall h g db).userHandle = true from hpool)] at hst
        split at hst <;> cases hst

theorem queried_locateDevicePath {pool : Pool} {g : Guid} {i : Interface} {db : Database} :
    Queried db (coreLocateDevicePath pool g i db).2 := by
  rw [coreLocateDevicePath]
  split
  · exact .refl
  · generalize (db.devicePathAt i).first.bytes = source
    have hround : ∀ (l : List EfiHandle) (best : Option (Nat × EfiHandle) × Database),
        Queried best.2 (l.foldl (locateRound pool source) best).2 := by
      intro l
      induction l with
      | nil => exact fun _ => .refl
      | cons a rest ih =>
        intro best
        have h1 : Queried best.2 (locateRound pool source best a).2 := by
          rw [locateRound]
          dsimp only
          split
          · exact coreHandleProtocol_spec.1
          · split <;> exact coreHandleProtocol_spec.1
        exact h1.trans (ih _)
    exact hround _ (none, db)

theorem queried_hasDevicePath {pool : Pool} {i : Interface} {db : Database} :
    Queried db (hasDevicePath pool i db).2 := queried_locateDevicePath

end Udk.Handle
