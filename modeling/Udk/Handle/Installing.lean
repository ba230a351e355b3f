import Udk.Handle.Interfaces

/-! # Installing and removing an interface -/

namespace Udk.Handle

/-! ## Installing -/

section
variable {db : Database} {h : EfiHandle} {g : Guid} {i : Interface} {prot : ProtAddress}

theorem Linked.createEntry (hw : Linked db) : Linked (createEntry g db) := by
  refine ⟨hw.null, hw.nodup, hw.owned, hw.listed, fun p q hq => ?_, hw.counted⟩
  simp only [Handle.createEntry]
  split
  · rfl
  · exact hw.known p q hq

theorem Linked.setEntry {f : ProtocolEntry → ProtocolEntry} (hw : Linked db) : Linked (setEntry g f db) := by
  refine ⟨hw.null, hw.nodup, hw.owned, hw.listed, fun p q hq => ?_, hw.counted⟩
  simp only [Handle.setEntry]
  split
  · rw [Option.isSome_map]
    exact hw.known p q hq
  · exact hw.known p q hq

/-- An interface is added to a handle. -/
structure Added (db db' : Database) (h : EfiHandle) (g : Guid) (i : Interface) : Prop where
  own : interfacesOf db' h = (g, i) :: interfacesOf db h
  others : ∀ a, a ≠ h → interfacesOf db' a = interfacesOf db a
  prots : ∀ p q, db'.prots p = some q → db.prots p = some q ∨ q.openList = []

theorem pairsOf_congr {db db' : Database} {l : List ProtAddress} (h : ∀ p ∈ l, db'.prots p = db.prots p) :
    pairsOf db' l = pairsOf db l := by
  refine List.filterMap_congr fun p hp => ?_
  rw [h p hp]

theorem protocolsOf_addInterface (a : EfiHandle) (hv : coreValidateHandle h db = true) :
    protocolsOf (addInterface prot ⟨h, g, i, [], 0⟩ db) a =
      if a = h then prot :: protocolsOf db a else protocolsOf db a := by
  obtain ⟨ih, hih⟩ := Option.isSome_iff_exists.mp hv
  simp only [protocolsOf, addInterface, setEntry]
  split
  · rename_i ha
    subst ha
    simp [hih]
  · rfl

theorem added_addInterface (hw : Linked db) (hp : db.prots prot = none) (hv : coreValidateHandle h db = true) :
    Added db (addInterface prot ⟨h, g, i, [], 0⟩ db) h g i := by
  have hsame : ∀ a, pairsOf (addInterface prot ⟨h, g, i, [], 0⟩ db) (protocolsOf db a) = interfacesOf db a := by
    intro a
    refine pairsOf_congr fun p hmem => ?_
    obtain ⟨q, hq, _⟩ := hw.owned a p hmem
    have hne : p ≠ prot := by
      rintro rfl
      rw [hp] at hq
      cases hq
    simp [addInterface, setEntry, hne]
  constructor
  · rw [interfacesOf_eq, protocolsOf_addInterface h hv, if_pos rfl, ← hsame h]
    simp [pairsOf, addInterface, setEntry]
  · intro a ha
    rw [interfacesOf_eq, protocolsOf_addInterface a hv, if_neg ha, hsame]
  · intro p q hq
    simp only [addInterface, setEntry] at hq
    split at hq
    · obtain rfl := Option.some.inj hq
      exact .inr rfl
    · exact .inl hq

theorem Linked.addInterface (hw : Linked db) (hp : db.prots prot = none) (hv : coreValidateHandle h db = true)
    (hg : (db.mProtocolDatabase g).isSome = true) : Linked (addInterface prot ⟨h, g, i, [], 0⟩ db) := by
  have hnew : ∀ a, prot ∉ protocolsOf db a := by
    intro a hmem
    obtain ⟨q, hq, _⟩ := hw.owned a prot hmem
    rw [hp] at hq
    cases hq
  have hprots : ∀ a, (Handle.addInterface prot ⟨h, g, i, [], 0⟩ db).prots a =
      if a = prot then some ⟨h, g, i, [], 0⟩ else db.prots a := fun _ => rfl
  constructor
  · have h1 : h ≠ 0 := by
      rintro rfl
      rw [coreValidateHandle, hw.null] at hv
      cases hv
    simpa [Handle.addInterface, Handle.setEntry, h1.symm] using hw.null
  · intro a
    rw [protocolsOf_addInterface a hv]
    split
    · exact List.nodup_cons.mpr ⟨hnew a, hw.nodup a⟩
    · exact hw.nodup a
  · intro a p hmem
    rw [protocolsOf_addInterface a hv] at hmem
    rw [hprots]
    by_cases hpp : p = prot
    · subst hpp
      refine ⟨_, if_pos rfl, ?_⟩
      split at hmem
      · exact Eq.symm ‹_›
      · exact absurd hmem (hnew a)
    · rw [if_neg hpp]
      refine hw.owned a p ?_
      split at hmem
      · exact (List.mem_cons.mp hmem).resolve_left hpp
      · exact hmem
  · intro p q hq
    rw [hprots] at hq
    rw [protocolsOf_addInterface _ hv]
    split at hq
    · obtain rfl := Option.some.inj hq
      rw [if_pos rfl]
      exact List.mem_cons.mpr (.inl ‹_›)
    · have h1 := hw.listed p q hq
      split
      · exact List.mem_cons_of_mem _ h1
      · exact h1
  · intro p q hq
    rw [hprots] at hq
    have hknown : ((Handle.addInterface prot ⟨h, g, i, [], 0⟩ db).mProtocolDatabase q.protocol).isSome =
        (db.mProtocolDatabase q.protocol).isSome := by
      simp only [Handle.addInterface, Handle.setEntry]
      split
      · rw [Option.isSome_map]
      · rfl
    rw [hknown]
    split at hq
    · obtain rfl := Option.some.inj hq
      exact hg
    · exact hw.known p q hq
  · intro p q hq
    rw [hprots] at hq
    split at hq
    · obtain rfl := Option.some.inj hq
      rfl
    · exact hw.counted p q hq

theorem protocolsOf_createHandle {a : EfiHandle} (hn : db.handles a = none) (b : EfiHandle) :
    protocolsOf (createHandle a db) b = protocolsOf db b := by
  simp only [protocolsOf, createHandle]
  split
  · rename_i hb
    rw [hb, hn]
    rfl
  · rfl

theorem Linked.createHandle {a : EfiHandle} (hw : Linked db) (ha : a ≠ 0) (hn : db.handles a = none) :
    Linked (createHandle a db) := by
  refine ⟨?_, fun b => ?_, fun b p hp => ?_, fun p q hq => ?_, hw.known, hw.counted⟩
  · simpa [Handle.createHandle, ha.symm] using hw.null
  · rw [protocolsOf_createHandle hn]
    exact hw.nodup b
  · rw [protocolsOf_createHandle hn] at hp
    exact hw.owned b p hp
  · rw [protocolsOf_createHandle hn]
    exact hw.listed p q hq

/-- The handle is in use, and every other handle is if it was before. -/
theorem used_addInterface (hv : coreValidateHandle h db = true)
    (hu : ∀ a, a ≠ h → (db.handles a).isSome = true → protocolsOf db a ≠ []) :
    ∀ a, ((Handle.addInterface prot ⟨h, g, i, [], 0⟩ db).handles a).isSome = true →
      protocolsOf (Handle.addInterface prot ⟨h, g, i, [], 0⟩ db) a ≠ [] := by
  intro a ha
  rw [protocolsOf_addInterface a hv]
  split
  · exact List.cons_ne_nil _ _
  · rename_i hne
    refine hu a hne ?_
    simpa [Handle.addInterface, Handle.setEntry, hne] using ha

theorem Wf.signal {db' : Database} (hw : Wf db') : Wf (coreNotifyProtocolEntry g db') :=
  ⟨⟨hw.null, hw.nodup, hw.owned, hw.listed, hw.known, hw.counted⟩, hw.used⟩

end

/-- The pool has all the memory that installing an interface on `h` takes. -/
def Pool.enoughFor (pool : Pool) (h : EfiHandle) : Bool :=
  pool.protEntry && pool.prot.isSome && pool.handle.isSome && pool.openData h

/-- How `CoreInstallProtocolInterfaceNotify` ends: with nothing installed, or with the interface on the handle. -/
def InstallEnds (pool : Pool) (db : Database) (h : EfiHandle) (g : Guid) (i : Interface) :
    EfiStatus × EfiHandle × Database → Prop
  | (st, h', db') =>
    Wf db' ∧
      (h' = h ∧ (∀ a, interfacesOf db' a = interfacesOf db a) ∧ db'.prots = db.prots ∧
          (pool.enoughFor h = true → st.isError = true ∧ h ≠ 0 ∧ coreValidateHandle h db = false) ∨
        st = .success ∧ (h ≠ 0 → h' = h) ∧ (h = 0 → interfacesOf db h' = []) ∧ Added db db' h' g i)

theorem installProtocolInterface_spec {pool : Pool} {h : EfiHandle} {g : Guid} {i : Interface} {st : EfiStatus}
    {db : Database} (hw : Wf db) (hf : pool.fresh db = true) :
    InstallEnds pool db h g i (installProtocolInterface pool h g i st db) := by
  rw [Pool.fresh, Bool.and_eq_true] at hf
  have h0 : Linked (createEntry g db) := hw.toLinked.createEntry
  have hg : ((createEntry g db).mProtocolDatabase g).isSome = true := by simp [createEntry]
  rw [installProtocolInterface]
  split
  · rename_i h1
    refine ⟨hw, .inl ⟨rfl, fun _ => rfl, rfl, fun h2 => ?_⟩⟩
    simp only [Bool.and_eq_true, Bool.not_eq_true'] at h1
    simp [Pool.enoughFor, h1.2] at h2
  · dsimp only
    rcases hp : pool.prot with _ | prot
    · refine ⟨⟨h0, hw.used⟩, .inl ⟨rfl, fun _ => rfl, rfl, fun h2 => ?_⟩⟩
      simp [Pool.enoughFor, hp] at h2
    · have hprot : db.prots prot = none := by simpa [hp] using hf.1
      dsimp only
      by_cases hz : h = 0
      · rw [if_pos hz]
        rcases hh : pool.handle with _ | a
        · refine ⟨⟨h0, hw.used⟩, .inl ⟨rfl, fun _ => rfl, rfl, fun h2 => ?_⟩⟩
          simp [Pool.enoughFor, hh] at h2
        · obtain ⟨ha, hn⟩ : a ≠ 0 ∧ db.handles a = none := by simpa [hh] using hf.2
          have hn' : (createEntry g db).handles a = none := hn
          have h1 : Linked (createHandle a (createEntry g db)) := h0.createHandle ha hn'
          have hv : coreValidateHandle a (createHandle a (createEntry g db)) = true := by
            simp [coreValidateHandle, createHandle]
          have hsame : ∀ b, interfacesOf (createHandle a (createEntry g db)) b = interfacesOf db b := by
            intro b
            rw [interfacesOf_eq, protocolsOf_createHandle hn']
            rfl
          have h2 := added_addInterface (g := g) (i := i) h1 hprot hv
          simp only [Option.map_some, hv, Bool.true_eq_false, if_false]
          refine ⟨.signal ⟨h1.addInterface hprot hv hg, used_addInterface hv fun b hb hs => ?_⟩, .inr ⟨rfl,
            fun hx => absurd hz hx, fun _ => ?_, ⟨?_, fun b hb => ?_, h2.prots⟩⟩⟩
          · rw [protocolsOf_createHandle hn']
            refine hw.used b ?_
            simpa [createHandle, createEntry, hb] using hs
          · rw [interfacesOf, protocolsOf, hn]
            rfl
          · exact (h2.own).trans (by rw [hsame])
          · exact (h2.others b hb).trans (hsame b)
      · rw [if_neg hz]
        dsimp only
        have hvv : coreValidateHandle h (createEntry g db) = coreValidateHandle h db := rfl
        rcases hv : coreValidateHandle h db with _ | _
        · rw [if_pos (hvv.trans hv)]
          exact ⟨⟨h0, hw.used⟩, .inl ⟨rfl, fun _ => rfl, rfl, fun _ => ⟨rfl, hz, hv⟩⟩⟩
        · have hv' := hvv.trans hv
          have h2 := added_addInterface (g := g) (i := i) h0 hprot hv'
          rw [if_neg (by simp [hv'])]
          exact ⟨.signal ⟨h0.addInterface hprot hv' hg, used_addInterface hv' fun b _ => hw.used b⟩,
            .inr ⟨rfl, fun _ => rfl, fun hx => absurd hx hz, ⟨h2.own, h2.others, h2.prots⟩⟩⟩

/-! ## Removing -/

section
variable {db : Database} {h : EfiHandle} {g : Guid} {i : Interface} {prot : ProtAddress}

theorem protocolsOf_touchHandle (a b : EfiHandle) : protocolsOf (touchHandle a db) b = protocolsOf db b := by
  simp only [protocolsOf, touchHandle]
  split
  · rw [Option.map_map]
    rfl
  · rfl

theorem protocolsOf_removeFromHandle (a : EfiHandle) :
    protocolsOf (removeFromHandle prot h db) a =
      if a = h then (protocolsOf db a).filter (· ≠ prot) else protocolsOf db a := by
  simp only [protocolsOf, removeFromHandle]
  split
  · rcases db.handles a with _ | ih <;> rfl
  · rfl

/-- Taking the interface that was found from a list takes the pair from it. -/
theorem pairsOf_erase {l : List ProtAddress} (hl : l.Nodup)
    (hf : l.find? (fun p => (db.prots p).any fun q => q.interface == i && q.protocol == g) = some prot) :
    pairsOf db (l.filter (· ≠ prot)) = (pairsOf db l).erase (g, i) ∧ (g, i) ∈ pairsOf db l := by
  induction l with
  | nil => cases hf
  | cons a rest ih =>
    obtain ⟨hna, hrest⟩ := List.nodup_cons.mp hl
    rw [List.find?_cons] at hf
    rcases hq : db.prots a with _ | q
    · rw [hq] at hf
      have h1 := ih hrest hf
      have hne : a ≠ prot := by
        rintro rfl
        exact hna (List.mem_of_find?_eq_some hf)
      simpa [pairsOf, hq, hne] using h1
    · rw [hq, Option.any_some] at hf
      rcases hm : q.interface == i && q.protocol == g with _ | _
      · rw [hm] at hf
        obtain ⟨h1, h2⟩ := ih hrest hf
        have hne : a ≠ prot := by
          rintro rfl
          exact hna (List.mem_of_find?_eq_some hf)
        have hpair : (q.protocol, q.interface) ≠ (g, i) := by
          intro he
          obtain ⟨rfl, rfl⟩ := Prod.mk.inj he
          simp at hm
        constructor
        · rw [List.filter_cons_of_pos (by simpa using hne)]
          simp only [pairsOf, List.filterMap_cons, hq, Option.map_some] at h1 ⊢
          rw [h1, List.erase_cons_tail (by simpa using hpair)]
        · simp only [pairsOf, List.filterMap_cons, hq, Option.map_some]
          exact List.mem_cons_of_mem _ h2
      · rw [hm] at hf
        obtain rfl := Option.some.inj hf
        simp only [Bool.and_eq_true, beq_iff_eq] at hm
        have hfilter : rest.filter (· ≠ a) = rest := by
          refine List.filter_eq_self.mpr fun p hp => ?_
          rw [decide_eq_true_eq]
          rintro rfl
          exact hna hp
        constructor
        · rw [List.filter_cons_of_neg (by simp), hfilter]
          simp [pairsOf, hq, hm.1, hm.2]
        · simp [pairsOf, hq, hm.1, hm.2]

theorem coreFindProtocolInterface_none (hw : Linked db) (hn : coreFindProtocolInterface h g i db = none) :
    (g, i) ∉ interfacesOf db h := by
  intro hmem
  obtain ⟨p, hp, h1⟩ := List.mem_filterMap.mp hmem
  obtain ⟨q, hq, he⟩ := Option.map_eq_some_iff.mp h1
  obtain ⟨rfl, rfl⟩ := Prod.mk.inj he
  obtain ⟨entry, hentry⟩ := Option.isSome_iff_exists.mp (hw.known p q hq)
  rw [coreFindProtocolInterface, hentry] at hn
  have h2 := List.find?_eq_none.mp hn p hp
  simp [hq] at h2

theorem coreFindProtocolInterface_some (hf : coreFindProtocolInterface h g i db = some prot) :
    (protocolsOf db h).find? (fun p => (db.prots p).any fun q => q.interface == i && q.protocol == g) = some prot := by
  rw [coreFindProtocolInterface] at hf
  split at hf
  · cases hf
  · exact hf

/-- An interface is taken from a handle. -/
structure Removed (db db' : Database) (h : EfiHandle) (g : Guid) (i : Interface) : Prop where
  present : (g, i) ∈ interfacesOf db h
  own : interfacesOf db' h = (interfacesOf db h).erase (g, i)
  others : ∀ a, a ≠ h → interfacesOf db' a = interfacesOf db a
  prots : ∀ p q', db'.prots p = some q' →
    ∃ q, db.prots p = some q ∧ q'.ident = q.ident ∧ ∀ d ∈ q'.openList, d ∈ q.openList

theorem removed_removeFromHandle (hw : Linked db) (hf : coreFindProtocolInterface h g i db = some prot) :
    Removed db (removeFromHandle prot h db) h g i := by
  have hfind := coreFindProtocolInterface_some hf
  obtain ⟨h1, h2⟩ := pairsOf_erase (hw.nodup h) hfind
  have hsame : ∀ l, prot ∉ l → pairsOf (removeFromHandle prot h db) l = pairsOf db l := by
    intro l hl
    refine pairsOf_congr fun p hp => ?_
    have hne : p ≠ prot := fun he => hl (he ▸ hp)
    simp [removeFromHandle, hne]
  refine ⟨h2, ?_, fun a ha => ?_, fun p q hq => ?_⟩
  · rw [interfacesOf_eq, protocolsOf_removeFromHandle, if_pos rfl, hsame _ (by simp), h1]
    rfl
  · rw [interfacesOf_eq, protocolsOf_removeFromHandle, if_neg ha, hsame]
    · rfl
    · intro hmem
      obtain ⟨q, hq, hqa⟩ := hw.owned a prot hmem
      obtain ⟨q', hq', hqh⟩ := hw.owned h prot (List.mem_of_find?_eq_some hfind)
      obtain rfl := Option.some.inj (hq.symm.trans hq')
      exact ha (hqa.symm.trans hqh)
  · simp only [removeFromHandle] at hq
    split at hq
    · cases hq
    · exact ⟨q, hq, rfl, fun _ => id⟩

theorem Linked.removeFromHandle (hw : Linked db) (hp : prot ∈ protocolsOf db h) :
    Linked (removeFromHandle prot h db) := by
  have hprots : ∀ p q, (Handle.removeFromHandle prot h db).prots p = some q → db.prots p = some q ∧ p ≠ prot := by
    intro p q hq
    simp only [Handle.removeFromHandle] at hq
    split at hq
    · cases hq
    · exact ⟨hq, ‹_›⟩
  obtain ⟨q0, hq0, hqh⟩ := hw.owned h prot hp
  refine ⟨?_, fun a => ?_, fun a p hmem => ?_, fun p q hq => ?_, fun p q hq => ?_, fun p q hq => ?_⟩
  · simp only [Handle.removeFromHandle]
    split
    · rw [hw.null]
      rfl
    · exact hw.null
  · rw [protocolsOf_removeFromHandle]
    split
    · exact (hw.nodup a).filter _
    · exact hw.nodup a
  · rw [protocolsOf_removeFromHandle] at hmem
    have h1 : p ∈ protocolsOf db a ∧ p ≠ prot := by
      split at hmem
      · simpa using hmem
      · refine ⟨hmem, fun he => ?_⟩
        obtain ⟨q, hq, hqa⟩ := hw.owned a p hmem
        rw [he, hq0] at hq
        obtain rfl := Option.some.inj hq
        exact absurd (hqa.symm.trans hqh) ‹_›
    obtain ⟨q, hq, hqa⟩ := hw.owned a p h1.1
    exact ⟨q, by simpa [Handle.removeFromHandle, h1.2] using hq, hqa⟩
  · obtain ⟨h1, h2⟩ := hprots p q hq
    rw [protocolsOf_removeFromHandle]
    have h3 := hw.listed p q h1
    split
    · simpa [h2] using h3
    · exact h3
  · exact hw.known p q (hprots p q hq).1
  · exact hw.counted p q (hprots p q hq).1

theorem Linked.touchHandle {a : EfiHandle} (hw : Linked db) : Linked (touchHandle a db) := by
  refine ⟨?_, fun b => ?_, fun b p hp => ?_, fun p q hq => ?_, hw.known, hw.counted⟩
  · simp only [Handle.touchHandle]
    split
    · rw [hw.null]
      rfl
    · exact hw.null
  · rw [protocolsOf_touchHandle]
    exact hw.nodup b
  · rw [protocolsOf_touchHandle] at hp
    exact hw.owned b p hp
  · rw [protocolsOf_touchHandle]
    exact hw.listed p q hq

theorem protocolsOf_freeIfEmpty (a : EfiHandle) : protocolsOf (freeIfEmpty h db) a = protocolsOf db a := by
  rw [freeIfEmpty]
  split
  · rename_i he
    simp only [protocolsOf]
    split
    · rename_i ha
      rw [ha, Option.map_none, Option.getD_none]
      exact he.symm
    · rfl
  · rfl

theorem interfacesOf_freeIfEmpty (a : EfiHandle) : interfacesOf (freeIfEmpty h db) a = interfacesOf db a := by
  rw [interfacesOf_eq, interfacesOf_eq, protocolsOf_freeIfEmpty]
  exact pairsOf_congr fun p _ => congrFun (freeIfEmpty_prots db h) p

theorem Linked.freeIfEmpty (hw : Linked db) : Linked (freeIfEmpty h db) := by
  have hprots := freeIfEmpty_prots db h
  refine ⟨?_, fun b => ?_, fun b p hp => ?_, fun p q hq => ?_, fun p q hq => ?_, fun p q hq => ?_⟩
  · rw [Handle.freeIfEmpty]
    split
    · simp only
      split
      · rfl
      · exact hw.null
    · exact hw.null
  · rw [protocolsOf_freeIfEmpty]
    exact hw.nodup b
  · rw [protocolsOf_freeIfEmpty] at hp
    rw [hprots]
    exact hw.owned b p hp
  · rw [hprots] at hq
    rw [protocolsOf_freeIfEmpty]
    exact hw.listed p q hq
  · rw [hprots] at hq
    have h1 : (Handle.freeIfEmpty h db).mProtocolDatabase = db.mProtocolDatabase := by
      rw [Handle.freeIfEmpty]
      split <;> rfl
    rw [h1]
    exact hw.known p q hq
  · rw [hprots] at hq
    exact hw.counted p q hq

/-- No handle is left without an interface. -/
theorem used_freeIfEmpty (hu : ∀ a, a ≠ h → (db.handles a).isSome = true → protocolsOf db a ≠ []) :
    ∀ a, ((Handle.freeIfEmpty h db).handles a).isSome = true → protocolsOf (Handle.freeIfEmpty h db) a ≠ [] := by
  intro a ha
  rw [protocolsOf_freeIfEmpty]
  rw [Handle.freeIfEmpty] at ha
  split at ha
  · simp only at ha
    split at ha
    · cases ha
    · exact hu a ‹_› ha
  · by_cases hah : a = h
    · rw [hah]
      assumption
    · exact hu a hah ha

end

/-- How `CoreUninstallProtocolInterface` ends once the drivers are disconnected. -/
theorem removeProtocolInterface_spec {h : EfiHandle} {g : Guid} {i : Interface} {db : Database} (hw : Wf db) :
    Wf (removeProtocolInterface h g i db).2 ∧
      ((removeProtocolInterface h g i db).1 = .notFound ∧ (g, i) ∉ interfacesOf db h ∧
          (∀ a, interfacesOf (removeProtocolInterface h g i db).2 a = interfacesOf db a) ∨
        (removeProtocolInterface h g i db).1 = .success ∧ Removed db (removeProtocolInterface h g i db).2 h g i) := by
  rcases hf : coreFindProtocolInterface h g i db with _ | prot
  · simp only [removeProtocolInterface, hf]
    exact ⟨⟨hw.toLinked.freeIfEmpty, used_freeIfEmpty fun a _ => hw.used a⟩,
      .inl ⟨trivial, coreFindProtocolInterface_none hw.toLinked hf, interfacesOf_freeIfEmpty⟩⟩
  · have h0 : Linked (touchHandle h (removeFromEntry prot g db)) := hw.toLinked.setEntry.touchHandle
    have hlist : ∀ a, protocolsOf (touchHandle h (removeFromEntry prot g db)) a = protocolsOf db a :=
      protocolsOf_touchHandle h
    have hfound : coreFindProtocolInterface h g i (touchHandle h (removeFromEntry prot g db)) = some prot := by
      have h1 : ((touchHandle h (removeFromEntry prot g db)).mProtocolDatabase g).isSome = true := by
        rw [coreFindProtocolInterface] at hf
        rcases hg : db.mProtocolDatabase g with _ | entry
        · rw [hg] at hf
          cases hf
        · simp [touchHandle, removeFromEntry, setEntry, hg]
      obtain ⟨entry, hentry⟩ := Option.isSome_iff_exists.mp h1
      rw [coreFindProtocolInterface, hentry]
      simp only [hlist]
      exact coreFindProtocolInterface_some hf
    have hmem : prot ∈ protocolsOf db h := List.mem_of_find?_eq_some (coreFindProtocolInterface_some hf)
    have h1 := removed_removeFromHandle h0 hfound
    have hsame : ∀ a, interfacesOf (touchHandle h (removeFromEntry prot g db)) a = interfacesOf db a := by
      intro a
      rw [interfacesOf_eq, hlist]
      rfl
    simp only [removeProtocolInterface, hf]
    refine ⟨⟨(h0.removeFromHandle (by rw [hlist]; exact hmem)).freeIfEmpty, used_freeIfEmpty fun a ha hs => ?_⟩,
      .inr ⟨trivial, ⟨?_, ?_, fun a ha => ?_, fun p q hq => ?_⟩⟩⟩
    · rw [protocolsOf_removeFromHandle, if_neg ha, hlist]
      refine hw.used a ?_
      simpa [removeFromHandle, touchHandle, removeFromEntry, setEntry, ha] using hs
    · rw [← hsame]
      exact h1.present
    · rw [interfacesOf_freeIfEmpty, h1.own, hsame]
    · rw [interfacesOf_freeIfEmpty, h1.others a ha, hsame]
    · rw [freeIfEmpty_prots] at hq
      exact h1.prots p q hq

/-! ## Replacing and registering -/

section
variable {db : Database} {h : EfiHandle} {g : Guid} {prot : ProtAddress}

theorem Linked.setProt {f : ProtocolInterface → ProtocolInterface} (hw : Linked db)
    (hf : ∀ q, (f q).handle = q.handle ∧ (f q).protocol = q.protocol)
    (hc : ∀ q, q.openListCount = q.openList.length → (f q).openListCount = (f q).openList.length) :
    Linked (setProt prot f db) := by
  refine ⟨hw.null, hw.nodup, fun a p hp => ?_, fun p q' hq' => ?_, fun p q' hq' => ?_, fun p q' hq' => ?_⟩
  · obtain ⟨q, hq, ha⟩ := hw.owned a p hp
    by_cases hpp : p = prot
    · subst hpp
      exact ⟨f q, by simp [Handle.setProt, hq], (hf q).1.trans ha⟩
    · exact ⟨q, by simp [Handle.setProt, hpp, hq], ha⟩
  · rcases setProt_some hq' with ⟨h1, _⟩ | ⟨rfl, q, h1, rfl⟩
    · exact hw.listed p q' h1
    · rw [(hf q).1]
      exact hw.listed p q h1
  · rcases setProt_some hq' with ⟨h1, _⟩ | ⟨rfl, q, h1, rfl⟩
    · exact hw.known p q' h1
    · rw [(hf q).2]
      exact hw.known p q h1
  · rcases setProt_some hq' with ⟨h1, _⟩ | ⟨rfl, q, h1, rfl⟩
    · exact hw.counted p q' h1
    · exact hc q (hw.counted p q h1)

theorem Wf.replaceProtocolInterface {i j : Interface} (hw : Wf db) :
    Wf (replaceProtocolInterface h g i j db).2 := by
  rw [Handle.replaceProtocolInterface]
  split
  · exact hw
  · rename_i prot _
    dsimp only
    have h1 : Linked (Handle.setProt prot ({ · with interface := j }) (removeFromEntry prot g db)) :=
      hw.toLinked.setEntry.setProt (fun _ => ⟨rfl, rfl⟩) fun _ hq => hq
    refine ⟨h1.setEntry.touchHandle, fun a ha => ?_⟩
    rw [protocolsOf_touchHandle]
    refine hw.used a ?_
    simp only [Handle.touchHandle] at ha
    split at ha
    · rw [Option.isSome_map] at ha
      exact ha
    · exact ha

theorem Wf.registerProtocolNotify {pool : Pool} {e : EventId} (hw : Wf db) :
    Wf (coreRegisterProtocolNotify pool g e db).2 ∧
      ∀ a, interfacesOf (coreRegisterProtocolNotify pool g e db).2 a = interfacesOf db a := by
  rw [coreRegisterProtocolNotify]
  split
  · exact ⟨hw, fun _ => rfl⟩
  · dsimp only
    split
    · exact ⟨⟨hw.toLinked.createEntry.setEntry, hw.used⟩, fun _ => rfl⟩
    · exact ⟨⟨hw.toLinked.createEntry, hw.used⟩, fun _ => rfl⟩

end

end Udk.Handle
