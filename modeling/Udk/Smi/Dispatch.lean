import Mathlib.Data.List.Count
import Mathlib.Data.List.Nodup
import Udk.Smi.Manage

/-! # A dispatch tolerates changes of the registrations -/

namespace Udk.Smi

variable {s s' : State} {l l' : List SmiHandler} {n n' : Nat} {f : Frame} {a : Activation}

/-- What is expected of a dispatch. Allocations are numbered, so the registration order is that of the numbers. -/
structure Returned.Correct (r : Returned) : Prop where
  order : (r.activation.called.map (·.handler.allocation)).Pairwise (· > ·)
  registered : ∀ c ∈ r.activation.called, c.handler ∈ c.registered
  once : ∀ h ∈ r.activation.start, h ∈ r.registered →
    (r.stopped = false ∨ ∃ c ∈ r.activation.called.head?, h.allocation ≤ c.handler.allocation) →
      (r.activation.called.map (·.handler)).count h = 1

/-- Dispatches that have returned are correct, those under way call in order, no dispatch has read a freed handler, and
the entries are distinct and not empty. -/
structure DispatchOk (s : State) : Prop where
  returned : ∀ r ∈ s.returned, r.Correct
  underWay : ∀ f ∈ s.stack, (f.activation.called.map (·.handler.allocation)).Pairwise (· > ·) ∧
    ∀ c ∈ f.activation.called, c.handler ∈ c.registered
  intact : s.touchedFreed = false
  types : (s.mSmiEntryList.map (·.handlerType)).Nodup
  nonempty : ∀ e ∈ s.mSmiEntryList, e.smiHandlers ≠ []

/-- A handler whose status lets the dispatch go on is still registered. -/
def StaysLinked (s : State) : Event → Prop
  | .handlerReturns status =>
    ∀ f ∈ s.stack.head?, stopStatus f.activation.head status = none → f.link ∈ handlersOf s f.activation.head
  | _ => True

instance (e : Event) : Decidable (StaysLinked s e) :=
  match e with
  | .handlerReturns _ => inferInstanceAs (Decidable (∀ f ∈ s.stack.head?, _ = none → _))
  | .register .. | .unregister _ | .manage _ => inferInstanceAs (Decidable True)

/-! ## The invariant -/

structure ListOk (n : Nat) (l : List SmiHandler) : Prop where
  sorted : l.Pairwise (·.allocation < ·.allocation)
  allocated : ∀ h ∈ l, h.allocation < n

/-- A dispatch that waits below its last handler. -/
structure Dispatching (l : List SmiHandler) (n : Nat) (f : Frame) : Prop where
  order : (f.activation.called.map (·.handler.allocation)).Pairwise (· > ·)
  registered : ∀ c ∈ f.activation.called, c.handler ∈ c.registered
  last : f.activation.called.head?.map (·.handler) = some f.link
  allocated : f.link.allocation < n
  complete : ∀ h ∈ l, h.allocation ≤ f.link.allocation → h ∈ f.activation.called.map (·.handler)

structure Inv (s : State) : Prop where
  root : ListOk s.allocations s.mRootSmiHandlerList
  entries : ∀ e ∈ s.mSmiEntryList, ListOk s.allocations e.smiHandlers
  allocated : ∀ e ∈ s.mSmiEntryList, e.allocation < s.allocations
  nonempty : ∀ e ∈ s.mSmiEntryList, e.smiHandlers ≠ []
  types : (s.mSmiEntryList.map (·.handlerType)).Nodup
  distinct : (s.mSmiEntryList.map (·.allocation)).Nodup
  frames : ∀ f ∈ s.stack, Dispatching (handlersOf s f.activation.head) s.allocations f
  returned : ∀ r ∈ s.returned, r.Correct
  intact : s.touchedFreed = false

theorem handlersOf_some (s : State) (entry : Nat) :
    handlersOf s (some entry) = ((s.mSmiEntryList.find? (·.allocation = entry)).map (·.smiHandlers)).getD [] := rfl

theorem mem_handlersOf {entry : Nat} {h : SmiHandler} (hh : h ∈ handlersOf s (some entry)) :
    ∃ e ∈ s.mSmiEntryList, e.allocation = entry ∧ h ∈ e.smiHandlers := by
  rw [handlersOf_some] at hh
  cases hfind : s.mSmiEntryList.find? (·.allocation = entry) with
  | none =>
    rw [hfind] at hh
    exact absurd hh List.not_mem_nil
  | some e =>
    rw [hfind] at hh
    exact ⟨e, List.mem_of_find?_eq_some hfind, by simpa using List.find?_some hfind, hh⟩

theorem handlersOf_entry (hd : (s.mSmiEntryList.map (·.allocation)).Nodup) {e : SmiEntry} (he : e ∈ s.mSmiEntryList) :
    handlersOf s (some e.allocation) = e.smiHandlers := by
  rw [handlersOf_some]
  cases hfind : s.mSmiEntryList.find? (·.allocation = e.allocation) with
  | none =>
    have hne := List.find?_eq_none.mp hfind e he
    exact absurd (decide_eq_true rfl) hne
  | some e' =>
    have heq : e'.allocation = e.allocation := by simpa using List.find?_some hfind
    rw [List.inj_on_of_nodup_map hd (List.mem_of_find?_eq_some hfind) he heq]
    rfl

theorem Inv.listOk (h : Inv s) (head : Option Nat) : ListOk s.allocations (handlersOf s head) := by
  cases head with
  | none => exact h.root
  | some entry =>
    rw [handlersOf_some]
    cases hfind : s.mSmiEntryList.find? (·.allocation = entry) with
    | none => exact ⟨List.Pairwise.nil, nofun⟩
    | some e => exact h.entries e (List.mem_of_find?_eq_some hfind)

/-- Handlers that are added are new, and the others were there. -/
def OnlyNew (n : Nat) (l l' : List SmiHandler) : Prop := ∀ h ∈ l', h ∈ l ∨ n ≤ h.allocation

theorem Dispatching.edit (hf : Dispatching l n f) (hl : OnlyNew n l l') (hn : n ≤ n') : Dispatching l' n' f where
  order := hf.order
  registered := hf.registered
  last := hf.last
  allocated := Nat.lt_of_lt_of_le hf.allocated hn
  complete h hh hle := by
    obtain hold | hnew := hl h hh
    · exact hf.complete h hold hle
    · exact absurd (Nat.lt_of_le_of_lt hle hf.allocated) (Nat.not_lt.mpr hnew)

theorem Inv.dispatching_edit (h : Inv s) (hl : ∀ head, OnlyNew s.allocations (handlersOf s head) (handlersOf s' head))
    (hn : s.allocations ≤ s'.allocations) (hstack : s'.stack = s.stack) :
    ∀ f ∈ s'.stack, Dispatching (handlersOf s' f.activation.head) s'.allocations f := by
  intro f hf
  rw [hstack] at hf
  exact (h.frames f hf).edit (hl _) hn

/-! ## Handlers come and go -/

theorem ListOk.later (h : ListOk n l) (hn : n ≤ n') : ListOk n' l :=
  ⟨h.sorted, fun x hx => Nat.lt_of_lt_of_le (h.allocated x hx) hn⟩

theorem ListOk.snoc (h : ListOk n l) (handler : Nat) (entry : Option Nat) : ListOk (n + 1) (l ++ [⟨n, handler, entry⟩]) := by
  constructor
  · refine List.pairwise_append.mpr ⟨h.sorted, List.pairwise_singleton _ _, fun x hx y hy => ?_⟩
    obtain rfl := List.mem_singleton.mp hy
    exact h.allocated x hx
  · intro x hx
    rcases List.mem_append.mp hx with hold | hnew
    · exact Nat.lt_succ_of_lt (h.allocated x hold)
    · obtain rfl := List.mem_singleton.mp hnew
      exact Nat.lt_succ_self n

theorem ListOk.filter (h : ListOk n l) (p : SmiHandler → Bool) : ListOk n (l.filter p) :=
  ⟨h.sorted.filter p, fun x hx => h.allocated x (List.mem_filter.mp hx).1⟩

theorem onlyNew_snoc (n handler : Nat) (entry : Option Nat) (l : List SmiHandler) :
    OnlyNew n l (l ++ [⟨n, handler, entry⟩]) := by
  intro h hh
  rcases List.mem_append.mp hh with hold | hnew
  · exact .inl hold
  · obtain rfl := List.mem_singleton.mp hnew
    exact .inr (Nat.le_refl n)

theorem onlyNew_refl (n : Nat) (l : List SmiHandler) : OnlyNew n l l := fun _ hh => .inl hh

theorem Inv.insertRoot (h : Inv s) (handler : Nat) : Inv (insertRoot handler s) where
  root := h.root.snoc handler none
  entries e he := (h.entries e he).later (Nat.le_succ _)
  allocated e he := Nat.lt_succ_of_lt (h.allocated e he)
  nonempty := h.nonempty
  types := h.types
  distinct := h.distinct
  frames := by
    refine h.dispatching_edit (fun head => ?_) (Nat.le_succ _) rfl
    cases head with
    | none => exact onlyNew_snoc _ _ _ _
    | some entry => exact onlyNew_refl _ _
  returned := h.returned
  intact := h.intact

/-- Entries that are edited keep their types and allocations. -/
theorem map_of_edit {β : Type} (entries : List SmiEntry) (entry : Nat) (edit : SmiEntry → List SmiHandler)
    (g : SmiEntry → β) (hg : ∀ e l, g { e with smiHandlers := l } = g e) :
    (entries.map fun e => if e.allocation = entry then { e with smiHandlers := edit e } else e).map g = entries.map g := by
  rw [List.map_map]
  refine List.map_congr_left fun e _ => ?_
  dsimp only [Function.comp]
  split
  · exact hg e _
  · rfl

theorem mem_edit {entries : List SmiEntry} {entry : Nat} {edit : SmiEntry → SmiEntry} {e' : SmiEntry}
    (h : e' ∈ entries.map fun e => if e.allocation = entry then edit e else e) :
    ∃ e ∈ entries, (e.allocation = entry ∧ e' = edit e) ∨ (e.allocation ≠ entry ∧ e' = e) := by
  obtain ⟨e, he, rfl⟩ := List.mem_map.mp h
  refine ⟨e, he, ?_⟩
  by_cases heq : e.allocation = entry
  · exact .inl ⟨heq, if_pos heq⟩
  · exact .inr ⟨heq, if_neg heq⟩

theorem Inv.insertInto (h : Inv s) {entry : SmiEntry} (handler : Nat) : Inv (insertInto entry handler s) where
  root := h.root.later (Nat.le_succ _)
  entries e' he' := by
    obtain ⟨e, he, ⟨-, rfl⟩ | ⟨-, rfl⟩⟩ := mem_edit he'
    · exact (h.entries e he).snoc handler _
    · exact (h.entries _ he).later (Nat.le_succ _)
  allocated e' he' := by
    obtain ⟨e, he, ⟨-, rfl⟩ | ⟨-, rfl⟩⟩ := mem_edit he'
    · exact Nat.lt_succ_of_lt (h.allocated e he)
    · exact Nat.lt_succ_of_lt (h.allocated _ he)
  nonempty e' he' := by
    obtain ⟨e, he, ⟨-, rfl⟩ | ⟨-, rfl⟩⟩ := mem_edit he'
    · exact List.append_ne_nil_of_right_ne_nil _ (List.cons_ne_nil _ _)
    · exact h.nonempty _ he
  types := by
    unfold Smi.insertInto
    dsimp only
    rw [map_of_edit s.mSmiEntryList entry.allocation _ _ fun _ _ => rfl]
    exact h.types
  distinct := by
    unfold Smi.insertInto
    dsimp only
    rw [map_of_edit s.mSmiEntryList entry.allocation _ _ fun _ _ => rfl]
    exact h.distinct
  frames := by
    refine h.dispatching_edit (fun head => ?_) (Nat.le_succ _) rfl
    cases head with
    | none => exact onlyNew_refl _ _
    | some id =>
      intro x hx
      obtain ⟨e', he', rfl, hmem⟩ := mem_handlersOf hx
      obtain ⟨e, he, ⟨-, rfl⟩ | ⟨-, rfl⟩⟩ := mem_edit he'
      · dsimp only
        rw [handlersOf_entry h.distinct he]
        exact onlyNew_snoc _ _ _ _ x hmem
      · rw [handlersOf_entry h.distinct he]
        exact .inl hmem
  returned := h.returned
  intact := h.intact

theorem Inv.insertNew (h : Inv s) {handlerType : Guid} (handler : Nat) (hnew : smmCoreFindSmiEntry handlerType s = none) :
    Inv (insertNew handlerType handler s) where
  root := h.root.later (Nat.le_add_right _ 2)
  entries e he := by
    rcases List.mem_append.mp he with hold | hnew
    · exact (h.entries e hold).later (Nat.le_add_right _ 2)
    · obtain rfl := List.mem_singleton.mp hnew
      refine ⟨List.pairwise_singleton _ _, fun x hx => ?_⟩
      obtain rfl := List.mem_singleton.mp hx
      exact Nat.lt_add_of_pos_right (by decide)
  allocated e he := by
    rcases List.mem_append.mp he with hold | hnew
    · exact Nat.lt_of_lt_of_le (h.allocated e hold) (Nat.le_add_right _ 2)
    · obtain rfl := List.mem_singleton.mp hnew
      exact Nat.lt_succ_self _
  nonempty e he := by
    rcases List.mem_append.mp he with hold | hnew
    · exact h.nonempty e hold
    · obtain rfl := List.mem_singleton.mp hnew
      exact List.cons_ne_nil _ _
  types := by
    unfold Smi.insertNew
    dsimp only
    rw [List.map_append]
    refine List.nodup_append.mpr ⟨h.types, List.nodup_singleton _, fun t ht t' ht' => ?_⟩
    obtain rfl := List.mem_singleton.mp ht'
    obtain ⟨e, he, rfl⟩ := List.mem_map.mp ht
    simpa using List.find?_eq_none.mp hnew e he
  distinct := by
    unfold Smi.insertNew
    dsimp only
    rw [List.map_append]
    refine List.nodup_append.mpr ⟨h.distinct, List.nodup_singleton _, fun t ht t' ht' => ?_⟩
    obtain rfl := List.mem_singleton.mp ht'
    obtain ⟨e, he, rfl⟩ := List.mem_map.mp ht
    exact Nat.ne_of_lt (Nat.lt_succ_of_lt (h.allocated e he))
  frames := by
    refine h.dispatching_edit (fun head => ?_) (Nat.le_add_right _ 2) rfl
    cases head with
    | none => exact onlyNew_refl _ _
    | some id =>
      intro x hx
      obtain ⟨e, he, rfl, hmem⟩ := mem_handlersOf hx
      rcases List.mem_append.mp he with hold | hnew
      · rw [handlersOf_entry h.distinct hold]
        exact .inl hmem
      · obtain rfl := List.mem_singleton.mp hnew
        obtain rfl := List.mem_singleton.mp hmem
        exact .inr (Nat.le_refl _)
  returned := h.returned
  intact := h.intact

theorem Inv.later (h : Inv s) : Inv { s with allocations := s.allocations + 1 } where
  root := h.root.later (Nat.le_succ _)
  entries e he := (h.entries e he).later (Nat.le_succ _)
  allocated e he := Nat.lt_succ_of_lt (h.allocated e he)
  nonempty := h.nonempty
  types := h.types
  distinct := h.distinct
  frames := h.dispatching_edit (fun _ => onlyNew_refl _ _) (Nat.le_succ _) rfl
  returned := h.returned
  intact := h.intact

theorem Inv.register (h : Inv s) (handler : Option Nat) (handlerType : Option Guid) (handlerPool entryPool : Bool) :
    Inv (smiHandlerRegister handler handlerType handlerPool entryPool s).2 := by
  unfold smiHandlerRegister
  split
  · exact h
  split
  · exact h
  split
  · exact h.insertRoot _
  split
  · exact h.insertInto _
  rename_i hfind
  split
  · exact h.later
  · exact h.insertNew _ hfind

theorem mem_removeFromEntry {entries : List SmiEntry} {entry : Nat} {x : SmiHandler} {e' : SmiEntry}
    (h : e' ∈ removeFromEntry entry x entries) : ∃ e ∈ entries, e'.allocation = e.allocation ∧
      ((e.allocation = entry ∧ e'.smiHandlers = e.smiHandlers.filter (· ≠ x) ∧ e'.smiHandlers ≠ []) ∨
        e'.smiHandlers = e.smiHandlers) := by
  obtain ⟨hedit, hkept⟩ := List.mem_filter.mp h
  obtain ⟨e, he, ⟨heq, rfl⟩ | ⟨-, rfl⟩⟩ := mem_edit hedit
  · refine ⟨e, he, rfl, .inl ⟨heq, rfl, fun hnil => ?_⟩⟩
    exact (of_decide_eq_true hkept) ⟨heq, hnil⟩
  · exact ⟨_, he, rfl, .inr rfl⟩

theorem Inv.removeFromEntry (h : Inv s) (entry : Nat) (x : SmiHandler) :
    Inv { s with mSmiEntryList := removeFromEntry entry x s.mSmiEntryList } where
  root := h.root
  entries e' he' := by
    obtain ⟨e, he, -, ⟨-, hl, -⟩ | hl⟩ := mem_removeFromEntry he'
    · rw [hl]
      exact (h.entries e he).filter _
    · rw [hl]
      exact h.entries e he
  allocated e' he' := by
    obtain ⟨e, he, heq, -⟩ := mem_removeFromEntry he'
    rw [heq]
    exact h.allocated e he
  nonempty e' he' := by
    obtain ⟨e, he, -, ⟨-, -, hne⟩ | hl⟩ := mem_removeFromEntry he'
    · exact hne
    · rw [hl]
      exact h.nonempty e he
  types := by
    refine List.Nodup.sublist (List.Sublist.map _ List.filter_sublist) ?_
    rw [map_of_edit s.mSmiEntryList entry _ _ fun _ _ => rfl]
    exact h.types
  distinct := by
    refine List.Nodup.sublist (List.Sublist.map _ List.filter_sublist) ?_
    rw [map_of_edit s.mSmiEntryList entry _ _ fun _ _ => rfl]
    exact h.distinct
  frames := by
    refine h.dispatching_edit (fun head => ?_) (Nat.le_refl _) rfl
    cases head with
    | none => exact onlyNew_refl _ _
    | some id =>
      intro y hy
      obtain ⟨e', he', rfl, hmem⟩ := mem_handlersOf hy
      obtain ⟨e, he, heq, ⟨-, hl, -⟩ | hl⟩ := mem_removeFromEntry he'
      · rw [heq, handlersOf_entry h.distinct he]
        exact .inl (List.mem_filter.mp (hl ▸ hmem)).1
      · rw [heq, handlersOf_entry h.distinct he]
        exact .inl (hl ▸ hmem)
  returned := h.returned
  intact := h.intact

theorem Inv.unregister (h : Inv s) (dispatchHandle : Option SmiHandler) : Inv (smiHandlerUnRegister dispatchHandle s).2 := by
  unfold smiHandlerUnRegister
  split
  · exact h
  split
  · refine { h with root := h.root.filter _, frames := h.dispatching_edit (fun head => ?_) (Nat.le_refl _) rfl }
    cases head with
    | none => exact fun y hy => .inl (List.mem_filter.mp hy).1
    | some id => exact onlyNew_refl _ _
  · exact h.removeFromEntry _ _

/-! ## Dispatches -/

theorem count_called {called : List Call} {x : SmiHandler} (ho : (called.map (·.handler.allocation)).Pairwise (· > ·))
    (hx : x ∈ called.map (·.handler)) : (called.map (·.handler)).count x = 1 := by
  refine List.count_eq_one_of_mem ?_ hx
  refine List.pairwise_map.mpr ((List.pairwise_map.mp ho).imp fun hgt heq => ?_)
  rw [heq] at hgt
  exact Nat.lt_irrefl _ hgt

theorem Inv.returnManage (h : Inv s) {stopped : Bool} {status : EfiStatus}
    (hr : Returned.Correct ⟨a, status, stopped, handlersOf s a.head⟩) : Inv (returnManage s a stopped status) := by
  refine { h with returned := fun r hmem => ?_ }
  rcases List.mem_cons.mp hmem with rfl | hmem
  · exact hr
  · exact h.returned r hmem

theorem Inv.callHandler (h : Inv s) {link : SmiHandler}
    (hf : Dispatching (handlersOf s a.head) s.allocations
      ⟨{ a with called := ⟨link, handlersOf s a.head⟩ :: a.called }, link⟩) :
    Inv (callHandler s a link) := by
  refine { h with frames := fun f hmem => ?_ }
  rcases List.mem_cons.mp hmem with rfl | hmem
  · exact hf
  · exact h.frames f hmem

/-- The loop goes on: what comes before was called, and what was called comes before. -/
theorem Inv.dispatchFrom (h : Inv s) (pre : List SmiHandler) {rest : List SmiHandler}
    (hl : handlersOf s a.head = pre ++ rest)
    (hpre : ∀ x ∈ pre, x ∈ a.called.map (·.handler))
    (hrest : ∀ c ∈ a.called, ∀ x ∈ rest, c.handler.allocation < x.allocation)
    (horder : (a.called.map (·.handler.allocation)).Pairwise (· > ·))
    (hregistered : ∀ c ∈ a.called, c.handler ∈ c.registered) : Inv (dispatchFrom s a rest) := by
  have hok := h.listOk a.head
  rw [hl] at hok
  cases rest with
  | nil =>
    refine h.returnManage ⟨horder, hregistered, fun x _ hx _ => count_called horder (hpre x ?_)⟩
    rw [hl, List.append_nil] at hx
    exact hx
  | cons link rest =>
    have hlink : link ∈ handlersOf s a.head := hl ▸ List.mem_append_right pre List.mem_cons_self
    refine h.callHandler ⟨?_, ?_, rfl, (h.listOk a.head).allocated link hlink, fun x hx hle => ?_⟩
    · rw [List.map_cons]
      refine List.pairwise_cons.mpr ⟨fun n hn => ?_, horder⟩
      obtain ⟨c, hc, rfl⟩ := List.mem_map.mp hn
      exact hrest c hc link List.mem_cons_self
    · rintro c hc
      rcases List.mem_cons.mp hc with rfl | hc
      · exact hlink
      · exact hregistered c hc
    · rw [hl] at hx
      rcases List.mem_append.mp hx with hx | hx
      · exact List.mem_cons_of_mem _ (hpre x hx)
      rcases List.mem_cons.mp hx with rfl | hx
      · exact List.mem_cons_self
      · have hlt := (List.pairwise_cons.mp (List.pairwise_append.mp hok.sorted).2.1).1 x hx
        exact absurd hle (Nat.not_le.mpr hlt)

theorem Inv.manage (h : Inv s) (handlerType : Option Guid) : Inv (smiManage handlerType s) := by
  unfold smiManage
  split
  · exact h.dispatchFrom [] rfl nofun nofun List.Pairwise.nil nofun
  split
  · exact h.returnManage ⟨List.Pairwise.nil, nofun, nofun⟩
  · rename_i entry hfind
    refine h.dispatchFrom [] ?_ nofun nofun List.Pairwise.nil nofun
    exact handlersOf_entry h.distinct (List.mem_of_find?_eq_some hfind)

/-- The last handler called comes behind all others. -/
theorem Dispatching.le_link (hf : Dispatching l n f) :
    ∀ c ∈ f.activation.called, c.handler.allocation ≤ f.link.allocation := by
  have hlast := hf.last
  have horder := hf.order
  intro c hc
  cases hcalled : f.activation.called with
  | nil =>
    rw [hcalled] at hc
    exact absurd hc List.not_mem_nil
  | cons d rest =>
    rw [hcalled] at hc hlast horder
    have hlink : d.handler = f.link := Option.some.inj hlast
    rw [← hlink]
    rcases List.mem_cons.mp hc with rfl | hc
    · exact Nat.le_refl _
    · exact Nat.le_of_lt ((List.pairwise_cons.mp horder).1 _ (List.mem_map_of_mem hc))

theorem Inv.handlerReturned (h : Inv s) (hf : Dispatching (handlersOf s f.activation.head) s.allocations f)
    {status : EfiStatus} (hlinked : stopStatus f.activation.head status = none → f.link ∈ handlersOf s f.activation.head) :
    Inv (handlerReturned s f status) := by
  have hsorted := (h.listOk f.activation.head).sorted
  unfold Smi.handlerReturned
  dsimp only [Activation.note]
  split
  · refine h.returnManage ⟨hf.order, hf.registered, fun x _ hx hstop => ?_⟩
    obtain hgoes | ⟨c, hc, hle⟩ := hstop
    · cases hgoes
    · have hlink : c.handler = f.link := by
        have hlast := hf.last
        rw [Option.mem_def.mp hc] at hlast
        exact Option.some.inj hlast
      exact count_called hf.order (hf.complete x hx (hlink ▸ hle))
  · rename_i hgoes
    have hmem := hlinked hgoes
    have hvalid : Cursor.Valid (some f.link) (handlersOf s f.activation.head) := by
      rintro p hp
      exact Option.some.inj hp ▸ hmem
    obtain ⟨pre, post, hl, -, hbehind⟩ := hvalid.split
    rw [if_neg (not_not_intro hmem), hbehind]
    rw [hl] at hsorted
    obtain ⟨-, hpost, hpre⟩ := List.pairwise_append.mp hsorted
    refine h.dispatchFrom (pre ++ [f.link]) (hl.trans (List.append_cons pre f.link post)) ?_ ?_ hf.order hf.registered
    · intro x hx
      refine hf.complete x ?_ ?_
      · rw [hl, List.append_cons]
        exact List.mem_append_left post hx
      · rcases List.mem_append.mp hx with hx | hx
        · exact Nat.le_of_lt (hpre x hx f.link List.mem_cons_self)
        · exact Nat.le_of_eq (congrArg _ (List.mem_singleton.mp hx))
    · intro c hc x hx
      exact Nat.lt_of_le_of_lt (hf.le_link c hc) ((List.pairwise_cons.mp hpost).1 x hx)

theorem step_inv {e : Event} (h : Inv s) (hlinked : StaysLinked s e) (hs : step s e = some s') : Inv s' := by
  unfold step at hs
  rw [if_neg (by simp [h.intact])] at hs
  cases e with
  | register handler handlerType handlerPool entryPool =>
    obtain rfl := Option.some.inj hs
    exact h.register _ _ _ _
  | unregister dispatchHandle =>
    dsimp only at hs
    split at hs
    · obtain rfl := Option.some.inj hs
      exact h.unregister _
    · cases hs
  | manage handlerType =>
    obtain rfl := Option.some.inj hs
    exact h.manage _
  | handlerReturns status =>
    dsimp only at hs
    split at hs
    · cases hs
    · rename_i f stack hstack
      obtain rfl := Option.some.inj hs
      have hinv : Inv { s with stack } :=
        { h with frames := fun f' hf' => h.frames f' (hstack ▸ List.mem_cons_of_mem _ hf') }
      refine hinv.handlerReturned (h.frames f (hstack ▸ List.mem_cons_self)) (hlinked f ?_)
      rw [hstack]
      rfl

theorem init_inv : Inv init where
  root := ⟨List.Pairwise.nil, nofun⟩
  entries := nofun
  allocated := nofun
  nonempty := nofun
  types := List.nodup_nil
  distinct := List.nodup_nil
  frames := nofun
  returned := nofun
  intact := rfl

/-- The first handler of type 5 registers a third one, unregisters the second one and manages the root handlers. -/
def nestedEvents : List Event :=
  [.register (some 10) (some 5) true true, .register (some 11) (some 5) true true, .register (some 20) none true true,
    .manage (some 5), .register (some 12) (some 5) true true, .unregister (some ⟨2, 11, some 1⟩), .manage none,
    .handlerReturns .warnInterruptSourceQuiesced, .handlerReturns .warnInterruptSourceQuiesced,
    .unregister (some ⟨4, 12, some 1⟩), .handlerReturns .success]

/-- A handler that unregisters itself, and lets the dispatch go on. -/
def selfEvents : List Event :=
  [.register (some 10) (some 5) true true, .manage (some 5), .unregister (some ⟨0, 10, some 1⟩),
    .handlerReturns .warnInterruptSourceQuiesced]

end Udk.Smi
