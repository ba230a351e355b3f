import Udk.Handle.Notified

/-! # Every interface is returned once -/

namespace Udk.Handle

open QueueEvent

/-- The last thing that happened to an interface, for a registration. -/
def lastEvent (log : List (QueueEvent ProtAddress)) (p : ProtAddress) : Option (QueueEvent ProtAddress) :=
  log.find? fun x => x.item = p

/-- The outcome of the next call with a registration. -/
inductive Locates (s : NotifyState) (r : Registration) : Prop
  | none (hw : waiting (s.log r) 0 = []) (hp : coreLocateProtocol r s.db = some (.notFound, 0, s.db))
      (hh : ∀ size, coreLocateHandle r size s.db = some (.notFound, s.db))
  | some (p : ProtAddress) (rest : List ProtAddress) (q : ProtocolInterface) (hw : waiting (s.log r) 0 = p :: rest)
      (hq : s.db.prots p = some q) (hg : q.protocol = r.protocol)
      (hp : coreLocateProtocol r s.db = some (.success, q.interface, advancePosition r s.db))
      (hh : ∀ size, coreLocateHandle r size s.db =
        some (if size < sizeofHandle then (.bufferTooSmall sizeofHandle, s.db)
          else (.success sizeofHandle [q.handle], advancePosition r s.db)))

structure Complete (s : NotifyState) : Prop where
  position : ∀ g e, s.db.mProtocolDatabase g = some e → ∀ n ∈ e.notify,
    n.position = none ∨ ∃ p ∈ e.protocols, n.position = some p
  /-- What was returned had waited longest. -/
  served : ∀ r, FirstComeFirstServed (s.log r)
  /-- What is installed waits, or was returned since it was installed last. -/
  installed : ∀ r p q, s.db.prots p = some q → q.protocol = r.protocol →
    (p ∈ waiting (s.log r) 0 ∧ lastEvent (s.log r) p = some (.queued p 0)) ∨ lastEvent (s.log r) p = some (.taken p 0)
  locates : ∀ r, (protNotify r s.db).isSome → Locates s r
  /-- Calls until `EFI_NOT_FOUND` return all that waits, in this order. -/
  repeated : ∀ r, (protNotify r s.db).isSome →
    ∃ s', (List.replicate (waiting (s.log r) 0).length (.locateProtocol r)).foldlM NotifyState.step s = some s' ∧
      s'.log r = ((waiting (s.log r) 0).map fun p => .taken p 0).reverse ++ s.log r ∧
      coreLocateProtocol r s'.db = some (.notFound, 0, s'.db)

section
variable {s s' : NotifyState} {e : NotifyEvent} {r : Registration}

/-! ## The last event of what is installed -/

/-- What is installed was queued, and at most taken since then. -/
def Logged (s : NotifyState) : Prop := ∀ r p q, s.db.prots p = some q → q.protocol = r.protocol →
  lastEvent (s.log r) p = some (.queued p 0) ∨ lastEvent (s.log r) p = some (.taken p 0)

theorem lastEvent_cons_other {x : QueueEvent ProtAddress} {p : ProtAddress} (h : x.item ≠ p)
    (log : List (QueueEvent ProtAddress)) : lastEvent (x :: log) p = lastEvent log p :=
  List.find?_cons_of_neg fun heq => h (of_decide_eq_true heq)

theorem lastEvent_cons_self {x : QueueEvent ProtAddress} {p : ProtAddress} (h : x.item = p)
    (log : List (QueueEvent ProtAddress)) : lastEvent (x :: log) p = some x :=
  List.find?_cons_of_pos (decide_eq_true h)

theorem waiting_of_lastEvent {log : List (QueueEvent ProtAddress)} {p : ProtAddress}
    (h : lastEvent log p = some (.queued p 0)) : p ∈ waiting log 0 := by
  obtain ⟨-, newer, older, hlog, hnewer⟩ := List.find?_eq_some_iff_append.mp h
  refine waiting_of_queued hlog fun x hx heq => ?_
  have hx' := hnewer x hx
  rw [decide_eq_true heq] at hx'
  cases hx'

/-- An interface is queued for its protocol, and others keep what is logged of them. -/
theorem Logged.queued {db : Database} {g : Guid} {p : ProtAddress} (h : Logged s)
    (hprots : ∀ a q, db.prots a = some q → a ≠ p → ∃ q', s.db.prots a = some q' ∧ q'.protocol = q.protocol)
    (hp : ∀ q, db.prots p = some q → q.protocol = g) : Logged ⟨db, logFor g (some (.queued p 0)) s.log⟩ := by
  rintro ⟨g', index⟩ a q hq hg
  show lastEvent (logFor _ _ _ _) a = _ ∨ lastEvent (logFor _ _ _ _) a = _
  by_cases ha : a = p
  · subst ha
    obtain rfl : g' = g := hg.symm.trans (hp q hq)
    rw [logFor_self]
    exact .inl (lastEvent_cons_self rfl _)
  · obtain ⟨q', hq', hsame⟩ := hprots a q hq ha
    have hold := h ⟨g', index⟩ a q' hq' (hsame.trans hg)
    by_cases hgg : g' = g
    · subst hgg
      rw [logFor_self, @lastEvent_cons_other (.queued p 0) a fun heq => ha heq.symm]
      exact hold
    · rw [logFor_other hgg]
      exact hold

theorem Logged.dropped {db : Database} {g : Guid} {p : ProtAddress} (h : Logged s)
    (hprots : db.prots = fun a => if a = p then none else s.db.prots a) :
    Logged ⟨db, logFor g (some (.dropped p)) s.log⟩ := by
  rintro ⟨g', index⟩ a q hq hg
  show lastEvent (logFor _ _ _ _) a = _ ∨ lastEvent (logFor _ _ _ _) a = _
  simp only [hprots] at hq
  split at hq
  · cases hq
  · rename_i ha
    have hold := h ⟨g', index⟩ a q hq hg
    by_cases hgg : g' = g
    · subst hgg
      rw [logFor_self, @lastEvent_cons_other (.dropped p) a fun heq => ha heq.symm]
      exact hold
    · rw [logFor_other hgg]
      exact hold

theorem Logged.same {db : Database} (h : Logged s) (hprots : db.prots = s.db.prots) : Logged { s with db := db } :=
  fun r p q hq hg => h r p q (hprots ▸ hq) hg

theorem Logged.taken {p : ProtAddress} (h : Logged s) : Logged ⟨advancePosition r s.db, logTaken r (some p) s.log⟩ := by
  intro r' a q hq hg
  have hold := h r' a q hq hg
  show lastEvent (logTaken _ _ _ _) a = _ ∨ lastEvent (logTaken _ _ _ _) a = _
  by_cases hr : r' = r
  · have hself : logTaken r (some p) s.log r' = .taken p 0 :: s.log r' := by rw [hr]; exact if_pos rfl
    rw [hself]
    by_cases ha : p = a
    · exact .inr (by rw [@lastEvent_cons_self (.taken p 0) a ha, ha])
    · rw [@lastEvent_cons_other (.taken p 0) a ha]
      exact hold
  · rw [logTaken_other hr]
    exact hold

theorem step_logged (hi : NotifyInv s) (h : Logged s) (hs : NotifyState.step s e = some s') : Logged s' := by
  cases e with
  | install pool userHandle g i status =>
    simp only [NotifyState.step] at hs
    split at hs
    · cases hs
    · rename_i hok
      obtain rfl := Option.some.inj hs
      rcases @install_spec pool userHandle g i status s.db (by simpa using (not_or.mp hok).2) with
        ⟨herr, hsame⟩ | ⟨herr, p, q, hp, hq, hprots, -⟩
      · rw [if_pos herr, logFor_none]
        exact h.same hsame.prots
      · simp only [herr, hp, Bool.false_eq_true, if_false, Option.map_some]
        refine h.queued (fun a q' hq' ha => ?_) fun q' hq' => ?_
        · rw [hprots] at hq'
          simp only [if_neg ha] at hq'
          exact ⟨q', hq', rfl⟩
        · rw [hprots] at hq'
          simp only [if_true] at hq'
          exact Option.some.inj hq' ▸ hq
  | uninstall userHandle g i =>
    simp only [NotifyState.step] at hs
    split at hs
    · cases hs
    · obtain rfl := Option.some.inj hs
      cases hf : coreFindProtocolInterface userHandle g i s.db with
      | none =>
        rw [Option.map_none, logFor_none]
        exact h.same (remove_none hf).prots
      | some p => exact h.dropped (remove_spec hf).1
  | reinstall userHandle g i j =>
    simp only [NotifyState.step] at hs
    split at hs
    · cases hs
    · obtain rfl := Option.some.inj hs
      cases hf : coreFindProtocolInterface userHandle g i s.db with
      | none =>
        rw [Option.map_none, logFor_none]
        refine h.same ?_
        unfold replaceProtocolInterface
        rw [hf]
      | some p =>
        obtain ⟨hprots, -⟩ := @replace_spec userHandle g i j s.db p hf
        obtain ⟨-, q₀, hq₀, hg₀⟩ := find_spec hf
        refine h.queued (fun a q hq _ => ?_) fun q hq => ?_
        · have ha := hprots a
          rw [hq, Option.map_some, eq_comm] at ha
          exact Option.map_eq_some_iff.mp ha
        · have hp := hprots p
          rw [hq, hq₀, Option.map_some, Option.map_some] at hp
          exact (Option.some.inj hp).trans hg₀
  | register pool g event =>
    obtain rfl := Option.some.inj hs
    exact h.same (register_spec pool g event s.db).1
  | locateProtocol r =>
    simp only [NotifyState.step] at hs
    split at hs
    · cases hs
    · rename_i hr
      have hr' : (protNotify r s.db).isSome := Option.isSome_iff_ne_none.mpr (by simpa using hr)
      rw [forwardLink_eq hi hr'] at hs
      rcases locate_spec hi hr' with ⟨hp, hlocate, -⟩ | ⟨p, q, hp, -, -, hlocate, -⟩
      · rw [hlocate, hp, Option.map_some, logTaken_none] at hs
        obtain rfl := Option.some.inj hs
        exact h
      · rw [hlocate, hp, Option.map_some] at hs
        obtain rfl := Option.some.inj hs
        exact h.taken
  | locateHandle r bufferSize =>
    simp only [NotifyState.step] at hs
    split at hs
    · cases hs
    · rename_i hr
      have hr' : (protNotify r s.db).isSome := Option.isSome_iff_ne_none.mpr (by simpa using hr)
      rw [forwardLink_eq hi hr'] at hs
      rcases locate_spec hi hr' with ⟨hp, -, hlocate⟩ | ⟨p, q, hp, -, -, -, hlocate⟩
      · rw [hlocate, hp, Option.map_some, ite_self, logTaken_none] at hs
        obtain rfl := Option.some.inj hs
        exact h
      · rw [hlocate, hp, Option.map_some] at hs
        obtain rfl := Option.some.inj hs
        split
        · rw [logTaken_none]
          exact h
        · exact h.taken

/-! ## Calls until nothing is found -/

theorem protNotify_advance (r r' : Registration) (db : Database) :
    (protNotify r' (advancePosition r db)).isSome = (protNotify r' db).isSome := by
  unfold protNotify advancePosition setEntry
  simp only
  split
  · cases db.mProtocolDatabase r'.protocol with
    | none => rfl
    | some entry =>
      simp only [Option.map_some, Option.bind_some, List.getElem?_modify]
      cases entry.notify[r'.index]? with
      | none => rfl
      | some n => rfl
  · rfl

theorem locateProtocol_repeated {l : List ProtAddress} (h : NotifyInv s) (hr : (protNotify r s.db).isSome)
    (hw : waiting (s.log r) 0 = l) :
    ∃ s', (List.replicate l.length (.locateProtocol r)).foldlM NotifyState.step s = some s' ∧
      s'.log r = (l.map fun p => .taken p 0).reverse ++ s.log r ∧
      coreLocateProtocol r s'.db = some (.notFound, 0, s'.db) := by
  induction l generalizing s with
  | nil =>
    rcases locate_spec h hr with ⟨-, hlocate, -⟩ | ⟨p, q, hp, -⟩
    · exact ⟨s, rfl, rfl, hlocate⟩
    · rw [hw] at hp
      cases hp
  | cons p l ih =>
    obtain ⟨s₁, hs₁, hinv, hlog, htail⟩ := locateProtocol_step h hr
    have hr₁ : (protNotify r s₁.db).isSome := by
      simp only [NotifyState.step] at hs₁
      split at hs₁
      · cases hs₁
      · rcases locate_spec h hr with ⟨-, hlocate, -⟩ | ⟨_, _, -, -, -, hlocate, -⟩
        · rw [hlocate] at hs₁
          obtain rfl := Option.some.inj hs₁
          exact hr
        · rw [hlocate] at hs₁
          obtain rfl := Option.some.inj hs₁
          exact (protNotify_advance r r s.db).trans hr
    obtain ⟨s', hs', hlog', hlocate⟩ := ih hinv hr₁ (by rw [htail, hw, List.tail_cons])
    refine ⟨s', ?_, ?_, hlocate⟩
    · rw [List.length_cons, List.replicate_succ, List.foldlM_cons, hs₁]
      exact hs'
    · rw [hlog', hlog, hw]
      simp

theorem NotifyInv.complete (h : NotifyInv s) (hl : Logged s) : Complete s := by
  refine ⟨fun g e he n hn => ?_, h.served, fun r p q hq hg => ?_, fun r hr => ?_, fun r hr => ?_⟩
  · have hinv := h.entries g
    rw [entryOf, he, Option.getD_some] at hinv
    cases hp : n.position with
    | none => exact .inl rfl
    | some p => exact .inr ⟨p, hinv.position n hn p hp, rfl⟩
  · exact (hl r p q hq hg).imp_left fun hlast => ⟨waiting_of_lastEvent hlast, hlast⟩
  · rcases locate_spec h hr with ⟨hw, hp, hh⟩ | ⟨p, q, hw, hq, hg, hp, hh⟩
    · exact .none (List.head?_eq_none_iff.mp hw) hp hh
    · exact .some p _ q (List.eq_cons_of_mem_head? hw) hq hg hp hh
  · exact locateProtocol_repeated h hr rfl

/-- In every run a registration returns whatever is installed once, in the order of the installations, and its
position stays in the list. -/
theorem notification_complete (devicePathAt : Interface → DevicePath) (es : List NotifyEvent) (s : NotifyState)
    (h : Run NotifyState.step (fun _ _ => True) (NotifyState.init devicePathAt) es s) : Complete s := by
  have hinv : NotifyInv s ∧ Logged s :=
    h.invariant (fun s => NotifyInv s ∧ Logged s) ⟨init_notifyInv devicePathAt, nofun⟩
      fun s e s' hi _ hs => ⟨step_notifyInv hi.1 hs, step_logged hi.1 hi.2 hs⟩
  exact hinv.1.complete hinv.2

end

/-! ## A run with two interfaces -/

def notifyPool (a : Nat) : Pool where
  protEntry := true
  prot := some (100 + a)
  handle := some (200 + a)
  openData := fun _ => true
  handleBuffer := true
  notify := true

/-- The first interface is returned and installed again; the second one goes before it is returned. -/
def notifyEvents : List NotifyEvent :=
  [.install (notifyPool 1) 0 7 11 .outOfResources, .register (notifyPool 2) 7 5, .locateProtocol ⟨7, 0⟩,
    .install (notifyPool 3) 0 7 12 .outOfResources, .reinstall 201 7 11 13, .uninstall 203 7 12,
    .locateHandle ⟨7, 0⟩ 4, .locateHandle ⟨7, 0⟩ 8]

theorem notification_complete_sample :
    ∃ s, notifyEvents.foldlM NotifyState.step (NotifyState.init fun _ => []) = some s ∧ Complete s ∧
      s.log ⟨7, 0⟩ = [.taken 101 0, .dropped 103, .queued 101 0, .queued 103 0, .taken 101 0, .queued 101 0] := by
  obtain ⟨s, hs, hlog⟩ := Option.map_eq_some_iff.mp
    (show (notifyEvents.foldlM NotifyState.step (NotifyState.init fun _ => [])).map (fun s => s.log ⟨7, 0⟩) =
      some [.taken 101 0, .dropped 103, .queued 101 0, .queued 103 0, .taken 101 0, .queued 101 0] by decide +kernel)
  exact ⟨s, hs, notification_complete _ _ s (Run.of_foldlM (fun _ _ _ => trivial) hs), hlog⟩

end Udk.Handle
