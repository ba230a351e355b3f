import Udk.Handle.Notify

/-! # What a registration returns -/

namespace Udk.Handle

open QueueEvent

/-- The entry of a protocol; one that is not there yet is empty. -/
def entryOf (db : Database) (g : Guid) : ProtocolEntry := (db.mProtocolDatabase g).getD ⟨[], []⟩

/-- What a registration has not returned. One that is not made yet has returned nothing. -/
def unseen (e : ProtocolEntry) (index : Nat) : List ProtAddress :=
  match e.notify[index]? with
  | some n => Cursor.behind n.position e.protocols
  | none => e.protocols

structure EntryInv (prots : ProtAddress → Option ProtocolInterface) (log : Registration → List (QueueEvent ProtAddress))
    (g : Guid) (e : ProtocolEntry) : Prop where
  nodup : e.protocols.Nodup
  installed : ∀ p, p ∈ e.protocols ↔ ∃ q, prots p = some q ∧ q.protocol = g
  position : ∀ n ∈ e.notify, Cursor.Valid n.position e.protocols
  waiting : ∀ index, waiting (log ⟨g, index⟩) 0 = unseen e index

structure NotifyInv (s : NotifyState) : Prop where
  entries : ∀ g, EntryInv s.db.prots s.log g (entryOf s.db g)
  served : ∀ r, FirstComeFirstServed (s.log r)

/-! ## Edits of an entry -/

/-- `CoreRemoveInterfaceFromProtocol`, for the entry. -/
def ProtocolEntry.remove (e : ProtocolEntry) (p : ProtAddress) : ProtocolEntry where
  protocols := e.protocols.filter (· ≠ p)
  notify := e.notify.map fun n => if n.position = some p then { n with position := backLink p e.protocols } else n

def ProtocolEntry.append (e : ProtocolEntry) (p : ProtAddress) : ProtocolEntry :=
  { e with protocols := e.protocols ++ [p] }

section
variable {e : ProtocolEntry} {p : ProtAddress} {index : Nat}

theorem backLink_none {l : List ProtAddress} (h : p ∉ l.tail) : backLink p l = none := by
  induction l with
  | nil => rfl
  | cons a l ih =>
    cases l with
    | nil => rfl
    | cons b l =>
      obtain ⟨hb, hl⟩ := not_or.mp fun hor => h (List.mem_cons.mpr hor)
      rw [backLink, if_neg fun heq => hb heq.symm]
      exact ih hl

theorem backLink_eq {pre post : List ProtAddress} (hn : (pre ++ p :: post).Nodup) :
    backLink p (pre ++ p :: post) = pre.getLast? := by
  induction pre with
  | nil => exact backLink_none (List.nodup_cons.mp hn).1
  | cons a pre ih =>
    have ih' := ih (List.nodup_cons.mp hn).2
    cases pre with
    | nil => exact if_pos rfl
    | cons b pre =>
      have hb : b ≠ p := by
        rintro rfl
        exact (List.nodup_cons.mp (List.nodup_cons.mp hn).2).1 (by simp)
      rw [List.cons_append, List.cons_append, backLink, if_neg hb, ← List.cons_append, ih', List.getLast?_cons_cons]

theorem pending_subset (hv : ∀ n ∈ e.notify, Cursor.Valid n.position e.protocols) {a : ProtAddress}
    (h : a ∈ unseen e index) : a ∈ e.protocols := by
  unfold unseen at h
  split at h
  · rename_i n hn
    cases hp : n.position with
    | none =>
      rw [hp] at h
      exact h
    | some c =>
      obtain ⟨pre, post, hl, -, hbehind⟩ := Cursor.Valid.split (hp ▸ hv n (List.mem_of_getElem? hn))
      rw [hp, hbehind] at h
      rw [hl]
      exact List.mem_append_right _ (List.mem_cons_of_mem _ h)
  · exact h

theorem pending_append (hv : ∀ n ∈ e.notify, Cursor.Valid n.position e.protocols) (p : ProtAddress) :
    unseen (e.append p) index = unseen e index ++ [p] := by
  unfold unseen
  simp only [ProtocolEntry.append]
  cases hn : e.notify[index]? with
  | none => rfl
  | some n => exact Cursor.behind_append (hv n (List.mem_of_getElem? hn)) [p]

/-- The cursor at the element that is removed moves back, the other ones stay. -/
theorem remove_position (hn : e.protocols.Nodup) (hp : p ∈ e.protocols) {n : ProtocolNotify}
    (hv : Cursor.Valid n.position e.protocols) :
    let position := if n.position = some p then backLink p e.protocols else n.position
    Cursor.Valid position (e.protocols.filter (· ≠ p)) ∧
      Cursor.behind position (e.protocols.filter (· ≠ p)) = (Cursor.behind n.position e.protocols).filter (· ≠ p) := by
  by_cases hpos : n.position = some p
  · obtain ⟨pre, post, hl, hpre⟩ := List.eq_append_cons_of_mem hp
    rw [hl] at hn
    have hsub : (pre ++ post).Nodup := hn.sublist ((List.sublist_cons_self p post).append_left pre)
    have hpost : post.filter (· ≠ p) = post :=
      List.filter_eq_self.mpr fun a ha => by
        have hne : a ≠ p := fun heq => (List.nodup_cons.mp (List.nodup_append.mp hn).2.1).1 (heq ▸ ha)
        simpa using hne
    simp only [hpos, if_true, hl]
    rw [backLink_eq hn, Cursor.filter_split hn, Cursor.behind_split hpre, hpost]
    exact ⟨Cursor.valid_getLast? pre post, Cursor.behind_getLast? hsub⟩
  · simp only [hpos, if_false]
    exact ⟨hv.filter hpos, Cursor.behind_filter hv hpos⟩

theorem remove_notify {n : ProtocolNotify} (h : n ∈ (e.remove p).notify) :
    ∃ n' ∈ e.notify, n = if n'.position = some p then { n' with position := backLink p e.protocols } else n' := by
  obtain ⟨n', hn', heq⟩ := List.mem_map.mp h
  exact ⟨n', hn', heq.symm⟩

theorem pending_remove (hn : e.protocols.Nodup) (hp : p ∈ e.protocols)
    (hv : ∀ n ∈ e.notify, Cursor.Valid n.position e.protocols) :
    unseen (e.remove p) index = (unseen e index).filter (· ≠ p) := by
  unfold unseen
  simp only [ProtocolEntry.remove, List.getElem?_map]
  cases hget : e.notify[index]? with
  | none => rfl
  | some n =>
    have h := (remove_position hn hp (hv n (List.mem_of_getElem? hget))).2
    simp only [Option.map_some]
    split
    · rename_i hpos
      rw [if_pos hpos] at h
      exact h
    · rename_i hpos
      rw [if_neg hpos] at h
      exact h

theorem remove_valid (hn : e.protocols.Nodup) (hp : p ∈ e.protocols)
    (hv : ∀ n ∈ e.notify, Cursor.Valid n.position e.protocols) :
    ∀ n ∈ (e.remove p).notify, Cursor.Valid n.position (e.remove p).protocols := by
  intro n hmem
  obtain ⟨n', hn', rfl⟩ := remove_notify hmem
  have h := (remove_position hn hp (hv n' hn')).1
  split
  · rename_i hpos
    rw [if_pos hpos] at h
    exact h
  · rename_i hpos
    rw [if_neg hpos] at h
    exact h

end

/-! ## Logs -/

theorem logFor_self (g : Guid) (x : QueueEvent ProtAddress) (log : Registration → List (QueueEvent ProtAddress))
    (index : Nat) : logFor g (some x) log ⟨g, index⟩ = x :: log ⟨g, index⟩ := if_pos rfl

theorem logFor_other {g g' : Guid} (h : g' ≠ g) (x : Option (QueueEvent ProtAddress))
    (log : Registration → List (QueueEvent ProtAddress)) (index : Nat) :
    logFor g x log ⟨g', index⟩ = log ⟨g', index⟩ := if_neg h

theorem logFor_none (g : Guid) (log : Registration → List (QueueEvent ProtAddress)) : logFor g none log = log := by
  funext r
  simp [logFor]

theorem logTaken_other {r r' : Registration} (h : r' ≠ r) (p : Option ProtAddress)
    (log : Registration → List (QueueEvent ProtAddress)) : logTaken r p log r' = log r' := if_neg h

theorem logTaken_none (r : Registration) (log : Registration → List (QueueEvent ProtAddress)) :
    logTaken r none log = log := by
  funext r'
  simp [logTaken]

theorem served_logFor {g : Guid} {x : QueueEvent ProtAddress} {log : Registration → List (QueueEvent ProtAddress)}
    (h : ∀ r, FirstComeFirstServed (log r)) (hx : ∀ l, FirstComeFirstServed l → FirstComeFirstServed (x :: l))
    (r : Registration) : FirstComeFirstServed (logFor g (some x) log r) := by
  unfold logFor
  split
  · exact hx _ (h r)
  · exact h r

section
variable {prots prots' : ProtAddress → Option ProtocolInterface} {log : Registration → List (QueueEvent ProtAddress)}
  {g : Guid} {e : ProtocolEntry} {p : ProtAddress}

/-- An interface is installed. -/
theorem EntryInv.install (h : EntryInv prots log g e) (hp : prots p = none) {q : ProtocolInterface} (hq : q.protocol = g)
    (hprots : prots' = fun a => if a = p then some q else prots a) :
    EntryInv prots' (logFor g (some (.queued p 0)) log) g (e.append p) := by
  have hnew : p ∉ e.protocols := fun hmem => by
    obtain ⟨q', hq', -⟩ := (h.installed p).mp hmem
    rw [hp] at hq'
    cases hq'
  refine ⟨?_, fun a => ?_, fun n hn => (h.position n hn).append [p], fun index => ?_⟩
  · refine List.nodup_append.mpr ⟨h.nodup, by simp, fun a ha b hb heq => hnew ?_⟩
    obtain rfl := List.mem_singleton.mp hb
    exact heq ▸ ha
  · rw [hprots]
    simp only [ProtocolEntry.append, List.mem_append, List.mem_singleton]
    by_cases ha : a = p
    · rw [if_pos ha]
      exact ⟨fun _ => ⟨q, rfl, hq⟩, fun _ => .inr ha⟩
    · rw [if_neg ha, ← h.installed a]
      exact ⟨fun hor => hor.resolve_right ha, .inl⟩
  · have hw : (unseen e index).filter (· ≠ p) = unseen e index :=
      List.filter_eq_self.mpr fun a ha => by
        have hne : a ≠ p := fun heq => hnew (heq ▸ pending_subset h.position ha)
        simpa using hne
    rw [logFor_self, QueueEvent.waiting, if_pos rfl, h.waiting index, hw, pending_append h.position]

/-- An interface is uninstalled. -/
theorem EntryInv.uninstall (h : EntryInv prots log g e) (hp : p ∈ e.protocols)
    (hprots : prots' = fun a => if a = p then none else prots a) :
    EntryInv prots' (logFor g (some (.dropped p)) log) g (e.remove p) := by
  refine ⟨h.nodup.filter _, fun a => ?_, remove_valid h.nodup hp h.position, fun index => ?_⟩
  · rw [hprots]
    simp only [ProtocolEntry.remove, List.mem_filter]
    by_cases ha : a = p
    · simp [ha]
    · simpa [ha] using h.installed a
  · rw [logFor_self, QueueEvent.waiting, h.waiting index, pending_remove h.nodup hp h.position]

/-- An interface is reinstalled. -/
theorem EntryInv.reinstall (h : EntryInv prots log g e) (hp : p ∈ e.protocols)
    (hprots : ∀ a, (prots' a).map ProtocolInterface.protocol = (prots a).map ProtocolInterface.protocol) :
    EntryInv prots' (logFor g (some (.queued p 0)) log) g ((e.remove p).append p) := by
  have hv := remove_valid h.nodup hp h.position
  refine ⟨?_, fun a => ?_, fun n hn => (hv n hn).append [p], fun index => ?_⟩
  · refine List.nodup_append.mpr ⟨h.nodup.filter _, by simp, fun a ha b hb => ?_⟩
    obtain rfl := List.mem_singleton.mp hb
    simpa using (List.mem_filter.mp ha).2
  · have hsome : ∀ f : ProtAddress → Option ProtocolInterface,
        (∃ q, f a = some q ∧ q.protocol = g) ↔ (f a).map ProtocolInterface.protocol = some g := fun f =>
      Option.map_eq_some_iff.symm
    rw [hsome, hprots, ← hsome, ← h.installed a]
    simp only [ProtocolEntry.append, ProtocolEntry.remove, List.mem_append, List.mem_filter, List.mem_singleton]
    by_cases ha : a = p
    · rw [ha]
      exact ⟨fun _ => hp, fun _ => .inr rfl⟩
    · simp [ha]
  · rw [logFor_self, QueueEvent.waiting, if_pos rfl, h.waiting index, pending_append hv,
      pending_remove h.nodup hp h.position]

/-- A record is added at the head of the list. -/
theorem EntryInv.register (h : EntryInv prots log g e) (event : EventId) :
    EntryInv prots log g { e with notify := e.notify ++ [⟨event, none⟩] } := by
  refine ⟨h.nodup, h.installed, fun n hn => ?_, fun index => ?_⟩
  · rcases List.mem_append.mp hn with hn | hn
    · exact h.position n hn
    · obtain rfl := List.mem_singleton.mp hn
      exact Cursor.valid_none _
  · rw [h.waiting index]
    unfold unseen
    simp only
    rcases Nat.lt_or_ge index e.notify.length with hlt | hge
    · rw [List.getElem?_append_left hlt]
    · rw [List.getElem?_append_right hge, List.getElem?_eq_none hge]
      cases index - e.notify.length with
      | zero => rfl
      | succ k => rfl

/-- The log of another protocol grows. -/
theorem EntryInv.other {g' : Guid} (h : EntryInv prots log g' e) (hne : g' ≠ g) {x : Option (QueueEvent ProtAddress)}
    (hprots : ∀ a, (∃ q, prots' a = some q ∧ q.protocol = g') ↔ ∃ q, prots a = some q ∧ q.protocol = g') :
    EntryInv prots' (logFor g x log) g' e :=
  ⟨h.nodup, fun a => (h.installed a).trans (hprots a).symm, h.position, fun index => by
    rw [logFor_other hne, h.waiting index]⟩

end

/-! ## The database -/

theorem entryOf_createEntry (g g' : Guid) (db : Database) : entryOf (createEntry g db) g' = entryOf db g' := by
  unfold entryOf createEntry
  simp only
  split
  · rename_i h
    rw [h]
    rfl
  · rfl

theorem createEntry_isSome (g : Guid) (db : Database) : ((createEntry g db).mProtocolDatabase g).isSome := by
  simp [createEntry]

theorem entryOf_setEntry {g : Guid} {db : Database} (h : (db.mProtocolDatabase g).isSome)
    (f : ProtocolEntry → ProtocolEntry) (g' : Guid) :
    entryOf (setEntry g f db) g' = if g' = g then f (entryOf db g') else entryOf db g' := by
  unfold entryOf setEntry
  simp only
  split
  · rename_i hg
    obtain ⟨e, he⟩ := Option.isSome_iff_exists.mp h
    rw [hg, he]
    rfl
  · rfl

theorem find_spec {h : EfiHandle} {g : Guid} {i : Interface} {db : Database} {p : ProtAddress}
    (hf : coreFindProtocolInterface h g i db = some p) :
    (db.mProtocolDatabase g).isSome ∧ ∃ q, db.prots p = some q ∧ q.protocol = g := by
  unfold coreFindProtocolInterface at hf
  split at hf
  · cases hf
  · rename_i e he
    have hp := List.find?_some hf
    cases hq : db.prots p with
    | none => simp [hq] at hp
    | some q =>
      simp only [hq, Option.any_some, Bool.and_eq_true, beq_iff_eq] at hp
      exact ⟨by rw [he]; rfl, q, rfl, hp.2⟩

/-- Nothing changes that a registration looks at. -/
structure SameEntries (db db' : Database) : Prop where
  prots : db'.prots = db.prots
  entries : ∀ g, entryOf db' g = entryOf db g

theorem SameEntries.createEntry (g : Guid) (db : Database) : SameEntries db (createEntry g db) :=
  ⟨rfl, fun g' => entryOf_createEntry g g' db⟩

/-- The entry of one protocol is edited. -/
structure EntryEdited (g : Guid) (f : ProtocolEntry → ProtocolEntry) (db db' : Database) : Prop where
  self : entryOf db' g = f (entryOf db g)
  other : ∀ g', g' ≠ g → entryOf db' g' = entryOf db g'

theorem setEntry_edited {g : Guid} {db : Database} (h : (db.mProtocolDatabase g).isSome)
    (f : ProtocolEntry → ProtocolEntry) : EntryEdited g f db (setEntry g f db) :=
  ⟨by rw [entryOf_setEntry h, if_pos rfl], fun g' hne => by rw [entryOf_setEntry h, if_neg hne]⟩

theorem install_spec {pool : Pool} {userHandle : EfiHandle} {g : Guid} {i : Interface} {status : EfiStatus}
    {db : Database} (hstatus : status.isError = true) :
    ((installProtocolInterface pool userHandle g i status db).1.isError = true ∧
      SameEntries db (installProtocolInterface pool userHandle g i status db).2.2) ∨
    ((installProtocolInterface pool userHandle g i status db).1.isError = false ∧ ∃ p q, pool.prot = some p ∧
      q.protocol = g ∧
      (installProtocolInterface pool userHandle g i status db).2.2.prots = (fun a => if a = p then some q else db.prots a) ∧
      EntryEdited g (·.append p) db (installProtocolInterface pool userHandle g i status db).2.2) := by
  have hsame := SameEntries.createEntry g db
  unfold installProtocolInterface
  split
  · refine .inl ⟨?_, rfl, fun _ => rfl⟩
    simp only
    split
    · rfl
    · exact hstatus
  · cases hprot : pool.prot with
    | none => exact .inl ⟨rfl, hsame⟩
    | some p =>
      simp only
      split
      · exact .inl ⟨rfl, hsame⟩
      · rename_i handle db₁ hhandle
        -- A new handle changes no entry.
        have h1 : db₁.prots = db.prots ∧ db₁.mProtocolDatabase = (createEntry g db).mProtocolDatabase := by
          split at hhandle
          · obtain ⟨h, -, heq⟩ := Option.map_eq_some_iff.mp hhandle
            rw [← (Prod.mk.inj heq).2]
            exact ⟨rfl, rfl⟩
          · rw [← (Prod.mk.inj (Option.some.inj hhandle)).2]
            exact ⟨rfl, rfl⟩
        have h2 : ∀ g', entryOf db₁ g' = entryOf db g' := fun g' => by
          rw [← hsame.entries g', entryOf, h1.2]
          rfl
        split
        · exact .inl ⟨rfl, h1.1, h2⟩
        · refine .inr ⟨rfl, p, ⟨handle, g, i, [], 0⟩, rfl, rfl, ?_, ?_⟩
          · funext a
            simp only [coreNotifyProtocolEntry, addInterface, setEntry, h1.1]
          · have hsome : (db₁.mProtocolDatabase g).isSome := by
              rw [h1.2]
              exact createEntry_isSome g db
            have hedit := @setEntry_edited g
              { db₁ with
                prots := fun a => if a = p then some ⟨handle, g, i, [], 0⟩ else db₁.prots a
                handles := fun a =>
                  if a = handle then (db₁.handles a).map fun ih => { ih with protocols := p :: ih.protocols }
                  else db₁.handles a } hsome (·.append p)
            refine ⟨?_, fun g' hne => (hedit.other g' hne).trans (h2 g')⟩
            rw [← h2 g]
            exact hedit.self

theorem remove_spec {userHandle : EfiHandle} {g : Guid} {i : Interface} {db : Database} {p : ProtAddress}
    (hf : coreFindProtocolInterface userHandle g i db = some p) :
    (removeProtocolInterface userHandle g i db).2.prots = (fun a => if a = p then none else db.prots a) ∧
      EntryEdited g (·.remove p) db (removeProtocolInterface userHandle g i db).2 := by
  have hedit := setEntry_edited (find_spec hf).1 (·.remove p)
  have hfree : ∀ db : Database, (freeIfEmpty userHandle db).prots = db.prots ∧
      (freeIfEmpty userHandle db).mProtocolDatabase = db.mProtocolDatabase := by
    intro db
    unfold freeIfEmpty
    split
    · exact ⟨rfl, rfl⟩
    · exact ⟨rfl, rfl⟩
  unfold removeProtocolInterface
  rw [hf]
  refine ⟨?_, ?_, fun g' hne => ?_⟩
  · rw [(hfree _).1]
    rfl
  · rw [entryOf, (hfree _).2]
    exact hedit.self
  · rw [entryOf, (hfree _).2]
    exact hedit.other g' hne

theorem remove_none {userHandle : EfiHandle} {g : Guid} {i : Interface} {db : Database}
    (hf : coreFindProtocolInterface userHandle g i db = none) :
    SameEntries db (removeProtocolInterface userHandle g i db).2 := by
  unfold removeProtocolInterface
  rw [hf]
  simp only [freeIfEmpty]
  split
  · exact ⟨rfl, fun _ => rfl⟩
  · exact ⟨rfl, fun _ => rfl⟩

theorem replace_spec {userHandle : EfiHandle} {g : Guid} {i j : Interface} {db : Database} {p : ProtAddress}
    (hf : coreFindProtocolInterface userHandle g i db = some p) :
    (∀ a, ((replaceProtocolInterface userHandle g i j db).2.prots a).map ProtocolInterface.protocol =
        (db.prots a).map ProtocolInterface.protocol) ∧
      EntryEdited g (fun e => (e.remove p).append p) db (replaceProtocolInterface userHandle g i j db).2 := by
  have hsome := (find_spec hf).1
  have hedit := setEntry_edited hsome (·.remove p)
  have hsome' : ((setProt p ({ · with interface := j }) (removeFromEntry p g db)).mProtocolDatabase g).isSome := by
    simpa [setProt, removeFromEntry, setEntry] using hsome
  have hedit' := setEntry_edited hsome' (·.append p)
  unfold replaceProtocolInterface
  rw [hf]
  refine ⟨fun a => ?_, ?_, fun g' hne => ?_⟩
  · simp only [touchHandle, setEntry, setProt, removeFromEntry]
    split
    · rw [Option.map_map]
      rfl
    · rfl
  · exact hedit'.self.trans (congrArg (·.append p) hedit.self)
  · exact (hedit'.other g' hne).trans (hedit.other g' hne)

theorem register_spec (pool : Pool) (g : Guid) (event : EventId) (db : Database) :
    (coreRegisterProtocolNotify pool g event db).2.prots = db.prots ∧
      (SameEntries db (coreRegisterProtocolNotify pool g event db).2 ∨
        EntryEdited g (fun e => { e with notify := e.notify ++ [⟨event, none⟩] }) db
          (coreRegisterProtocolNotify pool g event db).2) := by
  have hsame := SameEntries.createEntry g db
  unfold coreRegisterProtocolNotify
  split
  · exact ⟨rfl, .inl ⟨rfl, fun _ => rfl⟩⟩
  · simp only
    split
    · have hedit := setEntry_edited (createEntry_isSome g db) fun e => { e with notify := e.notify ++ [⟨event, none⟩] }
      exact ⟨rfl, .inr ⟨hedit.self.trans (by rw [hsame.entries]), fun g' hne =>
        (hedit.other g' hne).trans (hsame.entries g')⟩⟩
    · exact ⟨rfl, .inl hsame⟩

/-! ## One step -/

section
variable {s s' : NotifyState} {e : NotifyEvent}

theorem NotifyInv.same {db' : Database} (h : NotifyInv s) (hs : SameEntries s.db db') :
    NotifyInv { s with db := db' } :=
  ⟨fun g => by
    rw [hs.entries g]
    show EntryInv db'.prots s.log g _
    rw [hs.prots]
    exact h.entries g, h.served⟩

/-- The entry of one protocol changes with its log. -/
theorem NotifyInv.edit {db' : Database} {g : Guid} {f : ProtocolEntry → ProtocolEntry} {x : QueueEvent ProtAddress}
    (h : NotifyInv s) (hedit : EntryEdited g f s.db db')
    (hself : EntryInv db'.prots (logFor g (some x) s.log) g (f (entryOf s.db g)))
    (hprots : ∀ g', g' ≠ g → ∀ a, (∃ q, db'.prots a = some q ∧ q.protocol = g') ↔
      ∃ q, s.db.prots a = some q ∧ q.protocol = g')
    (hserved : ∀ l, FirstComeFirstServed l → FirstComeFirstServed (x :: l)) :
    NotifyInv ⟨db', logFor g (some x) s.log⟩ := by
  refine ⟨fun g' => ?_, served_logFor h.served hserved⟩
  by_cases hg : g' = g
  · subst hg
    show EntryInv _ _ _ (entryOf db' g')
    rw [hedit.self]
    exact hself
  · show EntryInv _ _ _ (entryOf db' g')
    rw [hedit.other g' hg]
    exact (h.entries g').other hg (hprots g' hg)

theorem install_inv {pool : Pool} {userHandle : EfiHandle} {g : Guid} {i : Interface} {status : EfiStatus}
    (h : NotifyInv s) (hs : NotifyState.step s (.install pool userHandle g i status) = some s') : NotifyInv s' := by
  simp only [NotifyState.step] at hs
  split at hs
  · cases hs
  · rename_i hok
    obtain ⟨hfresh, hstatus⟩ := not_or.mp hok
    have hfresh' : pool.fresh s.db = true := by simpa using hfresh
    obtain rfl := Option.some.inj hs
    rcases @install_spec pool userHandle g i status s.db (by simpa using hstatus) with
      ⟨herr, hsame⟩ | ⟨herr, p, q, hp, hq, hprots, hedit⟩
    · rw [if_pos herr, logFor_none]
      exact h.same hsame
    · have hnone : s.db.prots p = none := by
        simp only [Pool.fresh, Bool.and_eq_true, hp, Option.all_some] at hfresh'
        exact Option.isNone_iff_eq_none.mp hfresh'.1
      simp only [herr, hp, Bool.false_eq_true, if_false, Option.map_some]
      refine h.edit hedit ((h.entries g).install hnone hq hprots) (fun g' hne a => ?_) fun l hl => hl
      rw [hprots]
      simp only
      split
      · rename_i ha
        rw [ha, hnone]
        simp only [Option.some.injEq, exists_eq_left', hq, reduceCtorEq, false_and, exists_false, iff_false]
        exact fun heq => hne heq.symm
      · exact Iff.rfl

theorem uninstall_inv {userHandle : EfiHandle} {g : Guid} {i : Interface}
    (h : NotifyInv s) (hs : NotifyState.step s (.uninstall userHandle g i) = some s') : NotifyInv s' := by
  simp only [NotifyState.step] at hs
  split at hs
  · cases hs
  · obtain rfl := Option.some.inj hs
    cases hf : coreFindProtocolInterface userHandle g i s.db with
    | none =>
      rw [Option.map_none, logFor_none]
      exact h.same (remove_none hf)
    | some p =>
      obtain ⟨-, q, hq, hqg⟩ := find_spec hf
      obtain ⟨hprots, hedit⟩ := remove_spec hf
      rw [Option.map_some]
      refine h.edit hedit ((h.entries g).uninstall (((h.entries g).installed p).mpr ⟨q, hq, hqg⟩) hprots)
        (fun g' hne a => ?_) fun l hl => hl
      rw [hprots]
      simp only
      split
      · rename_i ha
        rw [ha, hq]
        simp only [Option.some.injEq, exists_eq_left', hqg, reduceCtorEq, false_and, exists_false, false_iff]
        exact fun heq => hne heq.symm
      · exact Iff.rfl

theorem reinstall_inv {userHandle : EfiHandle} {g : Guid} {i j : Interface}
    (h : NotifyInv s) (hs : NotifyState.step s (.reinstall userHandle g i j) = some s') : NotifyInv s' := by
  simp only [NotifyState.step] at hs
  split at hs
  · cases hs
  · obtain rfl := Option.some.inj hs
    cases hf : coreFindProtocolInterface userHandle g i s.db with
    | none =>
      rw [Option.map_none, logFor_none]
      have hsame : (replaceProtocolInterface userHandle g i j s.db).2 = s.db := by
        unfold replaceProtocolInterface
        rw [hf]
      rw [hsame]
      exact h
    | some p =>
      obtain ⟨-, q, hq, hqg⟩ := find_spec hf
      obtain ⟨hprots, hedit⟩ := @replace_spec userHandle g i j s.db p hf
      rw [Option.map_some]
      refine h.edit hedit ((h.entries g).reinstall (((h.entries g).installed p).mpr ⟨q, hq, hqg⟩) hprots)
        (fun g' _ a => ?_) fun l hl => hl
      have hsome : ∀ f : ProtAddress → Option ProtocolInterface,
          (∃ q, f a = some q ∧ q.protocol = g') ↔ (f a).map ProtocolInterface.protocol = some g' := fun f =>
        Option.map_eq_some_iff.symm
      rw [hsome, hsome, hprots]

theorem register_inv {pool : Pool} {g : Guid} {event : EventId} (h : NotifyInv s) :
    NotifyInv { s with db := (coreRegisterProtocolNotify pool g event s.db).2 } := by
  obtain ⟨hprots, hsame | hedit⟩ := register_spec pool g event s.db
  · exact h.same hsame
  · refine ⟨fun g' => ?_, h.served⟩
    show EntryInv _ _ _ (entryOf _ g')
    rw [hprots]
    by_cases hg : g' = g
    · subst hg
      rw [hedit.self]
      exact (h.entries g').register event
    · rw [hedit.other g' hg]
      exact h.entries g'

/-! ## Locating -/

/-- What has waited longest is behind the position. -/
theorem forwardLink_eq (h : NotifyInv s) {r : Registration} (hr : (protNotify r s.db).isSome) :
    forwardLink r s.db = (waiting (s.log r) 0).head? := by
  rw [(h.entries r.protocol).waiting r.index]
  unfold forwardLink unseen entryOf
  unfold protNotify at hr
  cases he : s.db.mProtocolDatabase r.protocol with
  | none => simp [he] at hr
  | some entry =>
    rw [he, Option.bind_some] at hr
    obtain ⟨n, hn⟩ := Option.isSome_iff_exists.mp hr
    simp only [Option.bind_some, Option.getD_some, hn]

/-- The position moves on, and what is there is taken from the log. -/
theorem advance_inv (h : NotifyInv s) {r : Registration} (hr : (protNotify r s.db).isSome) {p : ProtAddress}
    (hp : (waiting (s.log r) 0).head? = some p) :
    NotifyInv ⟨advancePosition r s.db, logTaken r (some p) s.log⟩ ∧
      waiting (logTaken r (some p) s.log r) 0 = (waiting (s.log r) 0).tail := by
  have hinv := h.entries r.protocol
  obtain ⟨rest, hrest⟩ : ∃ rest, waiting (s.log r) 0 = p :: rest := ⟨_, List.eq_cons_of_mem_head? hp⟩
  have hself : logTaken r (some p) s.log r = .taken p 0 :: s.log r := if_pos rfl
  have htaken : waiting (logTaken r (some p) s.log r) 0 = rest := by
    rw [hself, QueueEvent.waiting, if_pos rfl, hrest, List.erase_cons_head]
  unfold protNotify at hr
  cases he : s.db.mProtocolDatabase r.protocol with
  | none => simp [he] at hr
  | some entry =>
    rw [he, Option.bind_some] at hr
    obtain ⟨n, hn⟩ := Option.isSome_iff_exists.mp hr
    have hentry : entryOf s.db r.protocol = entry := by rw [entryOf, he]; rfl
    rw [hentry] at hinv
    have hpending : Cursor.behind n.position entry.protocols = p :: rest := by
      rw [← hrest, hinv.waiting r.index, unseen, hn]
    obtain ⟨hmem, hbehind⟩ :=
      Cursor.behind_next hinv.nodup (hinv.position n (List.mem_of_getElem? hn)) hpending
    have hedit := setEntry_edited (show (s.db.mProtocolDatabase r.protocol).isSome by rw [he]; rfl) fun entry =>
      { entry with
        notify := entry.notify.modify r.index fun notify =>
          { notify with position := (Cursor.behind notify.position entry.protocols).head? } }
    refine ⟨⟨fun g => ?_, fun r' => ?_⟩, by rw [htaken, hrest, List.tail_cons]⟩
    · show EntryInv _ _ _ (entryOf (advancePosition r s.db) g)
      by_cases hg : g = r.protocol
      · subst hg
        rw [advancePosition, hedit.self, hentry]
        refine ⟨hinv.nodup, hinv.installed, fun m hm => ?_, fun index => ?_⟩
        · obtain ⟨k, hk⟩ := List.getElem?_of_mem hm
          simp only [List.getElem?_modify] at hk
          obtain ⟨m', hm', rfl⟩ := Option.map_eq_some_iff.mp hk
          split
          · rename_i hidx
            rw [← hidx, hn] at hm'
            obtain rfl := Option.some.inj hm'
            intro a ha
            simp only [hpending, List.head?_cons, Option.some.injEq] at ha
            exact ha ▸ hmem
          · exact hinv.position m' (List.mem_of_getElem? hm')
        · by_cases hidx : index = r.index
          · subst hidx
            rw [htaken]
            unfold unseen
            simp only [List.getElem?_modify, hn, Option.map_eq_map, Option.map_some, if_true, hpending, List.head?_cons]
            exact hbehind.symm
          · have hne : (⟨r.protocol, index⟩ : Registration) ≠ r := fun heq => hidx (congrArg Registration.index heq)
            have hidx' : ¬r.index = index := fun heq => hidx heq.symm
            show waiting (logTaken r (some p) s.log ⟨r.protocol, index⟩) 0 = _
            rw [logTaken_other hne, hinv.waiting index]
            unfold unseen
            simp [hidx']
      · rw [advancePosition, hedit.other g hg]
        have hold := h.entries g
        refine ⟨hold.nodup, hold.installed, hold.position, fun index => ?_⟩
        have hne : (⟨g, index⟩ : Registration) ≠ r := fun heq => hg (congrArg Registration.protocol heq)
        show waiting (logTaken r (some p) s.log ⟨g, index⟩) 0 = _
        rw [logTaken_other hne, hold.waiting index]
    · show FirstComeFirstServed (logTaken r (some p) s.log r')
      by_cases heq : r' = r
      · rw [heq, hself]
        exact ⟨hp, h.served r⟩
      · rw [logTaken_other heq]
        exact h.served r'

/-- What the two services do for a registration. -/
theorem locate_spec (h : NotifyInv s) {r : Registration} (hr : (protNotify r s.db).isSome) :
    ((waiting (s.log r) 0).head? = none ∧ coreLocateProtocol r s.db = some (.notFound, 0, s.db) ∧
      ∀ bufferSize, coreLocateHandle r bufferSize s.db = some (.notFound, s.db)) ∨
    ∃ p q, (waiting (s.log r) 0).head? = some p ∧ s.db.prots p = some q ∧ q.protocol = r.protocol ∧
      coreLocateProtocol r s.db = some (.success, q.interface, advancePosition r s.db) ∧
      ∀ bufferSize, coreLocateHandle r bufferSize s.db =
        some (if bufferSize < sizeofHandle then (.bufferTooSmall sizeofHandle, s.db)
          else (.success sizeofHandle [q.handle], advancePosition r s.db)) := by
  have hlink := forwardLink_eq h hr
  have hnext : coreGetNextLocateByRegisterNotify (some r) s.db = (waiting (s.log r) 0).head? := hlink
  cases hp : (waiting (s.log r) 0).head? with
  | none =>
    rw [hp] at hnext
    refine .inl ⟨rfl, ?_, fun bufferSize => ?_⟩
    · rw [coreLocateProtocol, hnext]
    · rw [coreLocateHandle, hnext]
  | some p =>
    rw [hp] at hnext
    have hinv := h.entries r.protocol
    have hmem : p ∈ unseen (entryOf s.db r.protocol) r.index := by
      rw [← hinv.waiting r.index]
      exact List.mem_of_head? hp
    obtain ⟨q, hq, hqr⟩ := (hinv.installed p).mp (pending_subset hinv.position hmem)
    refine .inr ⟨p, q, rfl, hq, hqr, ?_, fun bufferSize => ?_⟩
    · rw [coreLocateProtocol, hnext]
      simp only [hq, Option.map_some]
    · rw [coreLocateHandle, hnext]
      simp only [hq, Option.map_some]

theorem locateProtocol_step (h : NotifyInv s) {r : Registration} (hr : (protNotify r s.db).isSome) :
    ∃ s', NotifyState.step s (.locateProtocol r) = some s' ∧ NotifyInv s' ∧
      s'.log r = ((waiting (s.log r) 0).head?.map fun p => .taken p 0).toList ++ s.log r ∧
      waiting (s'.log r) 0 = (waiting (s.log r) 0).tail := by
  have hlink := forwardLink_eq h hr
  have hsome : (protNotify r s.db).isNone = false := by simp [Option.isNone_eq_false_iff.mpr hr]
  simp only [NotifyState.step, hsome, Bool.false_eq_true, if_false, hlink]
  rcases locate_spec h hr with ⟨hp, hlocate, -⟩ | ⟨p, q, hp, -, -, hlocate, -⟩
  · rw [hlocate, hp, Option.map_some]
    refine ⟨_, rfl, ?_, by simp [logTaken], ?_⟩
    · rw [logTaken_none]
      exact h
    · rw [logTaken_none, List.head?_eq_none_iff.mp hp]
      rfl
  · rw [hlocate, hp, Option.map_some]
    obtain ⟨hinv, hwait⟩ := advance_inv h hr hp
    exact ⟨_, rfl, hinv, if_pos rfl, hwait⟩

theorem locateHandle_inv {r : Registration} {bufferSize : Nat} (h : NotifyInv s)
    (hs : NotifyState.step s (.locateHandle r bufferSize) = some s') : NotifyInv s' := by
  simp only [NotifyState.step] at hs
  split at hs
  · cases hs
  · rename_i hr
    have hr' : (protNotify r s.db).isSome := Option.isSome_iff_ne_none.mpr (by simpa using hr)
    rw [forwardLink_eq h hr'] at hs
    rcases locate_spec h hr' with ⟨hp, -, hlocate⟩ | ⟨p, q, hp, -, -, -, hlocate⟩
    · rw [hlocate, hp, Option.map_some, ite_self, logTaken_none] at hs
      obtain rfl := Option.some.inj hs
      exact h
    · rw [hlocate, hp, Option.map_some] at hs
      obtain rfl := Option.some.inj hs
      split
      · rw [logTaken_none]
        exact h
      · exact (advance_inv h hr' hp).1

theorem step_notifyInv (h : NotifyInv s) (hs : NotifyState.step s e = some s') : NotifyInv s' := by
  cases e with
  | install => exact install_inv h hs
  | uninstall => exact uninstall_inv h hs
  | reinstall => exact reinstall_inv h hs
  | register =>
    obtain rfl := Option.some.inj hs
    exact register_inv h
  | locateProtocol r =>
    have hr : (protNotify r s.db).isSome := by
      simp only [NotifyState.step] at hs
      split at hs
      · cases hs
      · rename_i hr
        exact Option.isSome_iff_ne_none.mpr (by simpa using hr)
    obtain ⟨s₁, hs₁, hinv, -⟩ := locateProtocol_step h hr
    rw [hs] at hs₁
    exact Option.some.inj hs₁ ▸ hinv
  | locateHandle => exact locateHandle_inv h hs

theorem init_notifyInv (devicePathAt : Interface → DevicePath) : NotifyInv (NotifyState.init devicePathAt) :=
  ⟨fun _ => ⟨List.nodup_nil, fun _ => ⟨nofun, nofun⟩, nofun, fun _ => rfl⟩, fun _ => trivial⟩

end

end Udk.Handle
