import Udk.Handle.Calls
import Udk.Handle.Exclusivity

/-! # Calls for many interfaces

A call that fails takes back what it did. `CoreUninstallMultipleProtocolInterfaces` cannot when the handle is
gone with its last interface, or when another interface of the same protocol is in the way.
-/

namespace Udk.Handle

/-- A call that returned an error changed nothing. -/
def Returned.AllOrNothing : Returned → Prop
  | .install call status handle after => status.isError = true → after = call.before ∧ handle = call.handle
  | .uninstall call status after =>
    status.isError = true → ∀ pair ∈ call.before call.handle, pair ∈ after call.handle

/-! ## What is done so far -/

/-- The interfaces `done` were installed, in this order, and nothing else changed. -/
structure Installed (call : MultipleCall) (handle : EfiHandle) (done : List Pair) (db : Database) : Prop where
  others : ∀ a, a ≠ handle → interfacesOf db a = call.before a
  own : interfacesOf db handle = done.reverse ++ call.before handle
  distinct : (done.map Prod.fst).Nodup
  apart : ∀ x ∈ done, ∀ y ∈ call.before handle, y.1 ≠ x.1
  lookups : ∀ p q, db.prots p = some q → q.handle = handle → (q.protocol, q.interface) ∈ done →
    ∀ d ∈ q.openList, d.isLookup = true
  handle_eq : handle = call.handle ∨ call.handle = 0

/-- The interfaces `done` were uninstalled, and can be installed again. -/
structure Uninstalled (call : MultipleCall) (done : List Pair) (db : Database) : Prop where
  present : ∀ x ∈ done, x ∈ call.before call.handle
  own : ∀ x, x ∈ interfacesOf db call.handle ↔ x ∈ call.before call.handle ∧ x ∉ done
  distinct : (done.map Prod.fst).Nodup
  apart : ∀ x ∈ interfacesOf db call.handle, ∀ y ∈ done, x.1 ≠ y.1

theorem mem_interfacesOf {db : Database} (hw : Linked db) {p : ProtAddress} {q : ProtocolInterface}
    (hq : db.prots p = some q) : (q.protocol, q.interface) ∈ interfacesOf db q.handle :=
  List.mem_filterMap.mpr ⟨p, hw.listed p q hq, by rw [hq, Option.map_some]⟩

theorem nodup_fst_snoc {l : List Pair} {x : Pair} (hl : (l.map Prod.fst).Nodup) (hx : ∀ y ∈ l, y.1 ≠ x.1) :
    ((l ++ [x]).map Prod.fst).Nodup := by
  rw [List.map_append, List.nodup_append]
  refine ⟨hl, by simp, fun a ha b hb => ?_⟩
  obtain ⟨y, hy, rfl⟩ := List.mem_map.mp ha
  rw [List.map_singleton, List.mem_singleton] at hb
  rw [hb]
  exact hx y hy

namespace Installed
variable {call : MultipleCall} {handle : EfiHandle} {done : List Pair} {db db' : Database}

theorem nil (db : Database) (h : EfiHandle) (pairs : List Pair) : Installed ⟨h, pairs, interfacesOf db⟩ h [] db where
  others _ _ := rfl
  own := rfl
  distinct := List.nodup_nil
  apart _ hx := by cases hx
  lookups _ _ _ _ hx := by cases hx
  handle_eq := .inl rfl

theorem queried (h : Installed call handle done db) (hq : Queried db db') : Installed call handle done db' := by
  refine ⟨fun a ha => ?_, ?_, h.distinct, h.apart, fun p q' hq' hh hd => ?_, h.handle_eq⟩
  · rw [hq.tidy.1.interfacesOf]
    exact h.others a ha
  · rw [hq.tidy.1.interfacesOf]
    exact h.own
  · obtain ⟨q, hp, hi⟩ := hq.tidy.1.of_some hq'
    have h1 : q'.handle = q.handle := congrArg Prod.fst hi
    have h2 : (q'.protocol, q'.interface) = (q.protocol, q.interface) := congrArg Prod.snd hi
    exact hq.lookups p q q' hp hq' (h.lookups p q hp (h1 ▸ hh) (h2 ▸ hd))

/-- One more interface is installed. -/
theorem snoc {h' : EfiHandle} {g : Guid} {i : Interface} (hw : Linked db) (h : Installed call handle done db)
    (hg : ∀ x ∈ interfacesOf db handle, x.1 ≠ g) (hkeep : handle ≠ 0 → h' = handle)
    (hnew : handle = 0 → interfacesOf db h' = []) (ha : Added db db' h' g i) :
    Installed call h' (done ++ [(g, i)]) db' := by
  have hzero : handle = 0 → done = [] ∧ call.before handle = [] := by
    rintro rfl
    have h1 := h.own
    rw [interfacesOf, protocolsOf, hw.null] at h1
    have h2 := List.append_eq_nil_iff.mp h1.symm
    exact ⟨List.reverse_eq_nil_iff.mp h2.1, h2.2⟩
  have hown : interfacesOf db h' = done.reverse ++ call.before h' := by
    by_cases hz : handle = 0
    · rw [hnew hz, (hzero hz).1]
      by_cases hh : h' = handle
      · rw [hh, (hzero hz).2]
        rfl
      · rw [← h.others h' hh, hnew hz]
        rfl
    · rw [hkeep hz]
      exact h.own
  have hgone : ∀ x ∈ interfacesOf db h', x.1 ≠ g := by
    by_cases hz : handle = 0
    · simp [hnew hz]
    · rw [hkeep hz]
      exact hg
  rw [hown] at hgone
  refine ⟨fun a hne => ?_, ?_, nodup_fst_snoc h.distinct fun x hx => hgone x (by simp [hx]), fun x hx y hy => ?_,
    fun p q hq hh hd => ?_, ?_⟩
  · rw [ha.others a hne]
    by_cases hah : a = handle
    · by_cases hz : handle = 0
      · rw [hah, h.own, (hzero hz).1]
        rfl
      · exact absurd (hah.trans (hkeep hz).symm) hne
    · exact h.others a hah
  · rw [ha.own, hown]
    simp
  · rcases List.mem_append.mp hx with hx | hx
    · by_cases hz : handle = 0
      · rw [(hzero hz).1] at hx
        cases hx
      · exact h.apart x hx y (hkeep hz ▸ hy)
    · rw [List.mem_singleton.mp hx]
      exact hgone y (by simp [hy])
  · rcases ha.prots p q hq with h1 | h1
    · have h2 := mem_interfacesOf hw h1
      rw [hh, hown] at h2
      rcases List.mem_append.mp hd with hd | hd
      · by_cases hz : handle = 0
        · rw [(hzero hz).1] at hd
          cases hd
        · exact h.lookups p q h1 (hh.trans (hkeep hz)) hd
      · rw [List.mem_singleton.mp hd] at h2
        exact absurd rfl (hgone _ h2)
    · simp [h1]
  · by_cases hz : handle = 0
    · rcases h.handle_eq with h1 | h1
      · exact .inr (h1.symm.trans hz)
      · exact .inr h1
    · rw [hkeep hz]
      exact h.handle_eq

/-- The first of the interfaces is uninstalled again. -/
theorem tail {g : Guid} {i : Interface} (h : Installed call handle ((g, i) :: done) db)
    (hr : Removed db db' handle g i) : Installed call handle done db' := by
  obtain ⟨hg, hdist⟩ := List.nodup_cons.mp h.distinct
  have hmem : (g, i) ∉ done.reverse := by
    rw [List.mem_reverse]
    exact fun hx => hg (List.mem_map_of_mem hx)
  refine ⟨fun a ha => (hr.others a ha).trans (h.others a ha), ?_, hdist,
    fun x hx => h.apart x (List.mem_cons_of_mem _ hx), fun p q' hq' hh hd d hmd => ?_, h.handle_eq⟩
  · rw [hr.own, h.own, List.reverse_cons, List.append_assoc, List.erase_append_right _ hmem, List.singleton_append,
      List.erase_cons_head]
  · obtain ⟨q, hq, hid, hsub⟩ := hr.prots p q' hq'
    have h1 : q'.handle = q.handle := congrArg Prod.fst hid
    have h2 : (q'.protocol, q'.interface) = (q.protocol, q.interface) := congrArg Prod.snd hid
    exact h.lookups p q hq (h1 ▸ hh) (List.mem_cons_of_mem _ (h2 ▸ hd)) d (hsub d hmd)

end Installed

namespace Uninstalled
variable {call : MultipleCall} {done : List Pair} {db db' : Database} {g : Guid} {i : Interface}

theorem nil (db : Database) (h : EfiHandle) (pairs : List Pair) :
    Uninstalled ⟨h, pairs, interfacesOf db⟩ [] db where
  present _ hx := by cases hx
  own x := by simp
  distinct := List.nodup_nil
  apart _ _ _ hy := by cases hy

theorem same (h : Uninstalled call done db) (hs : interfacesOf db' call.handle = interfacesOf db call.handle) :
    Uninstalled call done db' := by
  refine ⟨h.present, ?_, h.distinct, ?_⟩
  · rw [hs]
    exact h.own
  · rw [hs]
    exact h.apart

/-- One more interface is uninstalled, the only one of its protocol. -/
theorem snoc (h : Uninstalled call done db) (hr : Removed db db' call.handle g i)
    (honly : ∀ x ∈ (interfacesOf db call.handle).erase (g, i), x.1 ≠ g) : Uninstalled call (done ++ [(g, i)]) db' := by
  obtain ⟨hb, hd⟩ := (h.own (g, i)).mp hr.present
  refine ⟨fun x hx => ?_, fun x => ?_, nodup_fst_snoc h.distinct fun x hx => (h.apart (g, i) hr.present x hx).symm,
    fun x hx y hy => ?_⟩
  · rcases List.mem_append.mp hx with hx | hx
    · exact h.present x hx
    · rw [List.mem_singleton.mp hx]
      exact hb
  · rw [hr.own, List.mem_append, List.mem_singleton, not_or, ← and_assoc, ← h.own]
    constructor
    · intro hx
      exact ⟨List.mem_of_mem_erase hx, fun he => honly x hx (congrArg Prod.fst he)⟩
    · rintro ⟨hx, hne⟩
      exact (List.mem_erase_of_ne hne).mpr hx
  · rw [hr.own] at hx
    rcases List.mem_append.mp hy with hy | hy
    · exact h.apart x (List.mem_of_mem_erase hx) y hy
    · rw [List.mem_singleton.mp hy]
      exact honly x hx

/-- The first of the interfaces is installed again. -/
theorem tail (h : Uninstalled call ((g, i) :: done) db) (ha : Added db db' call.handle g i) :
    Uninstalled call done db' := by
  obtain ⟨hg, hdist⟩ := List.nodup_cons.mp h.distinct
  have hmem : (g, i) ∉ done := fun hx => hg (List.mem_map_of_mem hx)
  refine ⟨fun x hx => h.present x (List.mem_cons_of_mem _ hx), fun x => ?_, hdist, fun x hx y hy => ?_⟩
  · rw [ha.own, List.mem_cons, h.own]
    constructor
    · rintro (rfl | ⟨hb, hn⟩)
      · exact ⟨h.present _ List.mem_cons_self, hmem⟩
      · exact ⟨hb, fun hx => hn (List.mem_cons_of_mem _ hx)⟩
    · rintro ⟨hb, hn⟩
      by_cases he : x = (g, i)
      · exact .inl he
      · exact .inr ⟨hb, fun hx => (List.mem_cons.mp hx).elim he hn⟩
  · rw [ha.own] at hx
    rcases List.mem_cons.mp hx with rfl | hx
    · exact fun he => hg (he ▸ List.mem_map_of_mem hy)
    · exact h.apart x hx y (List.mem_cons_of_mem _ hy)

end Uninstalled

/-! ## The stack -/

/-- How far a call for many interfaces is when its loop goes on with this status. -/
def doneAt (status : EfiStatus) (index : Nat) : Nat := if status.isError then index - 1 else index

/-- An interface that is uninstalled could be installed again: it is the only one of its protocol, and not the
last one of the handle unless it is the last one of the call. -/
def CanRestore (call : MultipleCall) (index : Nat) (pair : Pair) (db : Database) : Prop :=
  pair ∈ interfacesOf db call.handle →
    (∀ x ∈ (interfacesOf db call.handle).erase pair, x.1 ≠ pair.1) ∧
      (index + 1 < call.pairs.length → (interfacesOf db call.handle).erase pair ≠ [])

/-- What is above a frame. -/
inductive Above
  | returned (status : EfiStatus)
  | callee (frame : Frame)

def Above.isCode : Above → Bool
  | .returned _ => true
  | .callee frame => frame.isCode

/-- The interfaces of the first `n` pairs are uninstalled, and some interface is left. -/
structure Uninstalling (call : MultipleCall) (n : Nat) (db : Database) : Prop where
  done : Uninstalled call (call.pairs.take n) db
  left : n < call.pairs.length → n ≠ 0 → interfacesOf db call.handle ≠ []

/-- What holds while a frame is on the stack. The calls that run at `TPL_NOTIFY` use the register `userHandle`,
which code above a frame may change. -/
def Frame.Ok (db : Database) (userHandle : Option EfiHandle) (above : Above) : Frame → Prop
  | .code => True
  | .interrupted _ => True
  | .openProtocol _ _ => above.isCode = true
  | .disconnect _ _ => above.isCode = true
  | .reconnect => above.isCode = true
  | .reinstall _ => above.isCode = true
  | .install _ _ _ _ => ∃ status, above = .returned status
  | .installMultiple call index =>
    ∃ handle, userHandle = some handle ∧
      match above with
      | .returned status => Installed call handle (call.pairs.take (doneAt status index)) db
      | .callee (.install h g i _) =>
        h = handle ∧ index ≠ 0 ∧ call.pairs[index - 1]? = some (g, i) ∧
          Installed call handle (call.pairs.take (index - 1)) db ∧ ∀ x ∈ interfacesOf db h, x.1 ≠ g
      | .callee _ => False
  | .installRollback call remaining _ =>
    ∃ handle, userHandle = some handle ∧ (∃ status, above = .returned status) ∧ Installed call handle remaining db
  | .uninstallMultiple call index =>
    index ≤ call.pairs.length ∧
      match above with
      | .returned status => Uninstalling call (doneAt status index) db
      | .callee (.disconnect _ removal) =>
        ∃ g i, removal = .uninstall call.handle g i ∧ index ≠ 0 ∧ call.pairs[index - 1]? = some (g, i) ∧
          Uninstalling call (index - 1) db ∧ CanRestore call (index - 1) (g, i) db
      | .callee .reconnect => Uninstalling call (index - 1) db
      | .callee _ => False
  | .uninstallRollback call remaining _ =>
    match above with
    | .returned _ => Uninstalled call remaining db ∧ (remaining ≠ [] → interfacesOf db call.handle ≠ [])
    | .callee (.install h g i _) =>
      h = call.handle ∧ Uninstalled call ((g, i) :: remaining) db ∧ interfacesOf db call.handle ≠ []
    | .callee _ => False

/-- What the frame below sees. -/
def Frame.toAbove : Frame → Above
  | .interrupted status => .returned status
  | frame => .callee frame

/-- Only `CoreInstallProtocolInterfaceNotify` is called at `TPL_NOTIFY` and goes on later. -/
def Frame.register (userHandle : Option EfiHandle) : Frame → Option EfiHandle
  | .install _ _ _ _ => userHandle
  | _ => none

def StackOk (db : Database) : Option EfiHandle → Above → List Frame → Prop
  | _, _, [] => True
  | userHandle, above, frame :: rest =>
    frame.Ok db userHandle above ∧ StackOk db (frame.register userHandle) frame.toAbove rest

/-- The handle that a call for many interfaces takes interfaces from. -/
def Frame.uninstallsFrom : Frame → Option EfiHandle
  | .uninstallMultiple call _ => some call.handle
  | .uninstallRollback call _ _ => some call.handle
  | _ => none

def handlesBelow (stack : List Frame) : List EfiHandle := stack.filterMap Frame.uninstallsFrom

/-- The handles of the calls that wait for code to return. -/
def pending (stack : List Frame) : List EfiHandle := handlesBelow (stack.dropWhile (!·.isCode))

section
variable {db db' : Database} {u : Option EfiHandle} {above : Above} {rest : List Frame}

theorem Frame.Ok.of_none {f : Frame} (h : f.Ok db none above) : f.Ok db u above := by
  rcases f with _ | _ | _ | _ | _ | _ | _ | _ | _ | _ | _
  case installMultiple =>
    obtain ⟨_, h1, _⟩ := h
    cases h1
  case installRollback =>
    obtain ⟨_, h1, _⟩ := h
    cases h1
  all_goals exact h

theorem StackOk.of_none (h : StackOk db none above rest) : StackOk db u above rest := by
  induction rest generalizing above u with
  | nil => trivial
  | cons f rest ih =>
    obtain ⟨h1, h2⟩ := h
    refine ⟨h1.of_none, ih ?_⟩
    rcases f with _ | _ | _ | _ | _ | _ | _ | _ | _ | _ | _ <;> exact h2

theorem Uninstalling.same {call : MultipleCall} {n : Nat} (h : Uninstalling call n db)
    (hs : interfacesOf db' call.handle = interfacesOf db call.handle) : Uninstalling call n db' :=
  ⟨h.done.same hs, by rw [hs]; exact h.left⟩

/-- Frames below code only depend on the interfaces of their handles. -/
theorem Frame.Ok.transfer {f : Frame} (h : f.Ok db none above)
    (hs : ∀ a, f.uninstallsFrom = some a → interfacesOf db' a = interfacesOf db a) : f.Ok db' none above := by
  rcases f with _ | _ | _ | _ | _ | _ | _ | _ | _ | ⟨call, index⟩ | ⟨call, remaining, st⟩
  case installMultiple =>
    obtain ⟨_, h1, _⟩ := h
    cases h1
  case installRollback =>
    obtain ⟨_, h1, _⟩ := h
    cases h1
  case uninstallMultiple =>
    have h1 := hs call.handle rfl
    obtain ⟨h2, h3⟩ := h
    refine ⟨h2, ?_⟩
    rcases above with st | f
    · exact h3.same h1
    · rcases f with _ | _ | _ | _ | ⟨prot, removal⟩ | _ | _ | _ | _ | _ | _
      case disconnect =>
        obtain ⟨g, i, h4, h5, h6, h7, h8⟩ := h3
        refine ⟨g, i, h4, h5, h6, h7.same h1, ?_⟩
        rw [CanRestore, h1]
        exact h8
      case reconnect => exact h3.same h1
      all_goals exact h3
  case uninstallRollback =>
    have h1 := hs call.handle rfl
    rcases above with st | f
    · exact ⟨h.1.same h1, by rw [h1]; exact h.2⟩
    · rcases f with _ | _ | _ | ⟨a, g, i, st⟩ | _ | _ | _ | _ | _ | _ | _
      case install => exact ⟨h.1, h.2.1.same h1, by rw [h1]; exact h.2.2⟩
      all_goals exact h
  all_goals exact h

theorem StackOk.transfer (h : StackOk db none above rest)
    (hs : ∀ a ∈ handlesBelow rest, interfacesOf db' a = interfacesOf db a) : StackOk db' none above rest := by
  induction rest generalizing above with
  | nil => trivial
  | cons f rest ih =>
    obtain ⟨h1, h2⟩ := h
    have hnone : f.register none = none := by cases f <;> rfl
    rw [hnone] at h2
    refine ⟨h1.transfer fun a ha => hs a (List.mem_filterMap.mpr ⟨f, List.mem_cons_self, ha⟩), ?_⟩
    rw [hnone]
    refine ih h2 fun a ha => hs a ?_
    obtain ⟨f', hf', ha'⟩ := List.mem_filterMap.mp ha
    exact List.mem_filterMap.mpr ⟨f', List.mem_cons_of_mem _ hf', ha'⟩

/-- What is below code stays as it is whatever happens above. -/
theorem StackOk.below_code {f : Frame} {u' : Option EfiHandle} {above' : Above} (hf : f.isCode = true)
    (h : StackOk db u above (f :: rest)) (hs : ∀ a ∈ handlesBelow rest, interfacesOf db' a = interfacesOf db a) :
    StackOk db' u' above' (f :: rest) := by
  obtain ⟨_, h2⟩ := h
  rcases f with _ | _ | _ | _ | _ | _ | _ | _ | _ | _ | _
  case code => exact ⟨trivial, StackOk.transfer h2 hs⟩
  case interrupted => exact ⟨trivial, StackOk.transfer h2 hs⟩
  all_goals cases hf

end

end Udk.Handle
