import Udk.Ppi.Pairs

/-! # Each notify is called once for each PPI

A pair of a notify and a PPI is due from the moment on that both are there. It has been called, or a call of
`DispatchNotify` that has not returned has it ahead.
-/

namespace Udk.Ppi

variable {maxPpiSupported : Nat} {p r : PpiData} {l : List Descriptor} {stack : List Dispatch}
  {calls due : List (Descriptor × Int)} {reinstalled : List Int}

/-! ## Callback notifies -/

/-- A call of `DispatchNotify` by a service: its PPIs and its notifies are there. -/
structure Nested (p : PpiData) (d : Dispatch) : Prop where
  installs : d.installStopIndex ≤ p.ppiListEnd
  order : d.installStartIndex ≤ d.index2
  stop : p.notifyListEnd ≤ d.notifyStopIndex
  rest : ∀ n ∈ notifies p.ppiListPtrs (d.index1 - 1) d.notifyStopIndex, n.has descriptorNotifyDispatch = false
  current : d.notifyStopIndex < d.index1 → d.notifyDescriptor.has descriptorNotifyDispatch = false

/-- What is due has been called or is ahead. -/
structure CallbackOk (p : PpiData) (stack : List Dispatch) (calls due : List (Descriptor × Int))
    (reinstalled : List Int) : Prop where
  nested : ∀ d ∈ stack, Nested p d
  owed : ∀ n k, n.has descriptorNotifyDispatch = false →
    due.count (n, k) = calls.count (n, k) + (stack.map (ahead p.ppiListPtrs n k)).sum
  once : ∀ n k, k ∉ reinstalled →
    due.count (n, k) = (callbackNotifies p).count n * meets p.ppiListPtrs n k 0 p.ppiListEnd

/-- A new call of `DispatchNotify` over the notifies from `s` down to the end. -/
theorem dispatchNotify_nested {a b s : Int} (hb : b ≤ p.ppiListEnd)
    (hcallbacks : ∀ n ∈ notifies p.ppiListPtrs s p.notifyListEnd, n.has descriptorNotifyDispatch = false) :
    Nested p (dispatchNotify p a b s p.notifyListEnd) where
  installs := hb
  order := Int.le_refl _
  stop := Int.le_refl _
  rest n hn := by
    obtain ⟨i, h1, h2, rfl⟩ := mem_notifies.mp hn
    simp only [dispatchNotify, Dispatch.enter] at h1 h2
    exact hcallbacks _ (mem_notifies.mpr ⟨i, h1, by omega, rfl⟩)
  current h := by
    simp only [dispatchNotify, Dispatch.enter] at h ⊢
    rw [if_pos h]
    exact hcallbacks _ (mem_notifies.mpr ⟨s, h, Int.le_refl _, rfl⟩)

/-- What was ahead stays ahead, and the new call has ahead what is newly due. -/
theorem CallbackOk.push {p' : PpiData} {d : Dispatch} {added : List (Descriptor × Int)} {reinstalled' : List Int}
    (h : CallbackOk p stack calls due reinstalled) (hnested : ∀ e ∈ stack, Nested p' e) (hd : Nested p' d)
    (hahead : ∀ n k, ∀ e ∈ stack, ahead p'.ppiListPtrs n k e = ahead p.ppiListPtrs n k e)
    (hadded : ∀ n k, added.count (n, k) = ahead p'.ppiListPtrs n k d)
    (honce : ∀ n k, k ∉ reinstalled' → k ∉ reinstalled ∧
      (callbackNotifies p).count n * meets p.ppiListPtrs n k 0 p.ppiListEnd + added.count (n, k) =
        (callbackNotifies p').count n * meets p'.ppiListPtrs n k 0 p'.ppiListEnd) :
    CallbackOk p' (d :: stack) calls (due ++ added) reinstalled' where
  nested e he := by
    rcases List.mem_cons.mp he with rfl | he
    · exact hd
    · exact hnested e he
  owed n k hn := by
    rw [List.count_append, h.owed n k hn, hadded, List.map_cons, List.sum_cons,
      List.map_congr_left fun e he => hahead n k e he]
    omega
  once n k hk := by
    obtain ⟨h1, h2⟩ := honce n k hk
    rw [List.count_append, h.once n k h1, h2]

theorem CallbackOk.install (h : CallbackOk p stack calls due reinstalled) (ho : Ordered maxPpiSupported p)
    (hcallbacks : ∀ n ∈ callbackNotifies p, n.has descriptorNotifyDispatch = false) (hle : l.length ≤ p.free) :
    CallbackOk (p.installed l)
      (dispatchNotify (p.installed l) p.ppiListEnd (p.installed l).ppiListEnd (p.installed l).dispatchListEnd
        (p.installed l).notifyListEnd :: stack) calls
      (due ++ pairs (p.installed l).ppiListPtrs (callbackNotifies (p.installed l))
        (installs p.ppiListEnd (p.installed l).ppiListEnd)) reinstalled := by
  have hfree : (l.length : Int) ≤ p.notifyListEnd + 1 - p.ppiListEnd := by
    have h1 := ho.room
    simp only [PpiData.free] at hle
    omega
  have hsame : callbackNotifies (p.installed l) = callbackNotifies p := ho.callbacks_installed hle
  have hptrs : ∀ i, i < p.ppiListEnd ∨ p.notifyListEnd < i → (p.installed l).ppiListPtrs i = p.ppiListPtrs i :=
    fun i hi => place_outside (by omega)
  refine h.push (fun e he => ?_) (dispatchNotify_nested (Int.le_refl _) ?_) (fun n k e he => ?_) (fun n k => ?_)
    fun n k hk => ⟨hk, ?_⟩
  · obtain ⟨h1, h2, h3, h4, h5⟩ := h.nested e he
    refine ⟨?_, h2, h3, ?_, h5⟩
    · simp only [PpiData.installed]
      omega
    · rw [notifies_congr fun i hi _ => hptrs i (.inr (by omega))]
      exact h4
  · intro n hn
    exact hcallbacks n (hsame ▸ hn)
  · have hn := h.nested e he
    have h1 := hn.stop
    have h2 := hn.installs
    exact ahead_congr n (fun i hi _ => hptrs i (.inr (by omega))) fun hk => by rw [hptrs k (.inl (by omega))]
  · rw [count_pairs_installs, ahead_dispatchNotify]
    rfl
  · rw [count_pairs_installs, hsame, ← Nat.mul_add,
      meets_split (p.installed l).ppiListPtrs n k ho.nonneg (show p.ppiListEnd ≤ (p.installed l).ppiListEnd by
        simp only [PpiData.installed]; omega)]
    congr 2
    exact (meets_congr n fun _ hk => by rw [hptrs k (.inl hk)]).symm

theorem CallbackOk.reinstall (h : CallbackOk p stack calls due reinstalled) (ho : Ordered maxPpiSupported p)
    (hcallbacks : ∀ n ∈ callbackNotifies p, n.has descriptorNotifyDispatch = false) {index : Int} {new : Descriptor}
    (hlt : index < p.ppiListEnd) (hclear : ∀ d ∈ stack, Undisturbed p.ppiListPtrs index new d) :
    CallbackOk (p.replaced index new)
      (dispatchNotify (p.replaced index new) index (index + 1) (p.replaced index new).dispatchListEnd
        (p.replaced index new).notifyListEnd :: stack) calls
      (due ++ pairs (p.replaced index new).ppiListPtrs (callbackNotifies (p.replaced index new)) [index])
      (index :: reinstalled) := by
  have hroom := ho.room
  have hsame : callbackNotifies (p.replaced index new) = callbackNotifies p := ho.callbacks_replaced hlt new
  refine h.push (fun e he => ?_) (dispatchNotify_nested (by simp only [PpiData.replaced]; omega) ?_)
    (fun n k e he => ?_) (fun n k => ?_) fun n k hk => ?_
  · obtain ⟨h1, h2, h3, h4, h5⟩ := h.nested e he
    refine ⟨h1, h2, h3, ?_, h5⟩
    rw [notifies_congr fun i hi _ => show (p.replaced index new).ppiListPtrs i = p.ppiListPtrs i from
      Function.update_of_ne (by omega) _ _]
    exact h4
  · intro n hn
    exact hcallbacks n (hsame ▸ hn)
  · have hn := h.nested e he
    have h1 := hn.stop
    exact ahead_update hn.order (by omega) (hclear e he)
  · rw [← installs_singleton, count_pairs_installs, ahead_dispatchNotify]
    rfl
  · have hne : k ≠ index := fun heq => hk (heq ▸ List.mem_cons_self)
    refine ⟨fun hin => hk (List.mem_cons_of_mem _ hin), ?_⟩
    rw [← installs_singleton, count_pairs_installs, hsame, show meets _ n k index (index + 1) = 0 from if_neg (by omega),
      Nat.mul_zero, Nat.add_zero]
    congr 1
    exact (meets_congr n fun _ _ => by rw [show (p.replaced index new).ppiListPtrs k = p.ppiListPtrs k from
      Function.update_of_ne hne _ _]).symm

/-- The notifies that a successful `PeiNotifyPpi` goes through. -/
theorem Registered.new_callbacks (hr : Registered p r l) (ho : Ordered maxPpiSupported p) :
    notifies r.ppiListPtrs (p.notifyListEnd - ((l.filter (·.has descriptorNotifyDispatch)).length : Int))
      r.notifyListEnd = l.filter (¬·.has descriptorNotifyDispatch) ∧
    notifies r.ppiListPtrs r.dispatchListEnd
      (p.notifyListEnd - ((l.filter (·.has descriptorNotifyDispatch)).length : Int)) = callbackNotifies p := by
  have h1 := hr.notifyListEnd
  have h2 := hr.dispatchListEnd
  have h3 := ho.callbacks
  have h4 : (l.filter (·.has descriptorNotifyDispatch)).length ≤ l.length := List.length_filter_le _ _
  have hsplit := hr.callbacks
  rw [callbackNotifies, notifies_append (show p.notifyListEnd - ((l.filter (·.has descriptorNotifyDispatch)).length : Int) ≤
    r.dispatchListEnd by omega) (show r.notifyListEnd ≤ _ by omega)] at hsplit
  have hparts := List.append_inj hsplit (by
    rw [notifies_length, callbackNotifies, notifies_length]
    omega)
  exact ⟨hparts.2, hparts.1⟩

/-- A notify keeps its place if no dispatch notify comes. -/
theorem Registered.stays (hr : Registered p r l) (ho : Ordered maxPpiSupported p)
    (hl : ∀ n ∈ l, n.has descriptorNotifyDispatch = false) {i : Int} (hi : p.notifyListEnd < i) :
    r.ppiListPtrs i = p.ppiListPtrs i := by
  by_cases hd : p.dispatchListEnd < i
  · exact hr.frame i (.inr hd)
  · have hnil : l.filter (·.has descriptorNotifyDispatch) = [] :=
      List.filter_eq_nil_iff.mpr fun n hn => by simp [hl n hn]
    have hsame := (hr.new_callbacks ho).2
    rw [hr.dispatchListEnd, hnil, List.length_nil] at hsame
    simp only [Int.natCast_zero, Int.sub_zero] at hsame
    exact notifies_inj hsame hi (by omega)

theorem CallbackOk.notify (h : CallbackOk p stack calls due reinstalled) (ho : Ordered maxPpiSupported p)
    (hr : Registered p r l) (hle : l.length ≤ p.free)
    (hstay : (∀ n ∈ l, n.has descriptorNotifyDispatch = false) ∨ ∀ d ∈ stack, d.index1 ≤ d.notifyStopIndex + 1) :
    CallbackOk r
      (dispatchNotify r 0 r.ppiListEnd
        (p.notifyListEnd - ((l.filter (·.has descriptorNotifyDispatch)).length : Int)) r.notifyListEnd :: stack) calls
      (due ++ pairs r.ppiListPtrs (l.filter (¬·.has descriptorNotifyDispatch)) (installs 0 r.ppiListEnd)) reinstalled := by
  have hroom := ho.room
  have hend := hr.notifyListEnd
  have hppis := hr.ppiListEnd
  have hfree : (l.length : Int) ≤ p.notifyListEnd + 1 - p.ppiListEnd := by
    simp only [PpiData.free] at hle
    omega
  have hlow : ∀ k, k < p.ppiListEnd → r.ppiListPtrs k = p.ppiListPtrs k := fun k hk => hr.frame k (.inl (by omega))
  have hkept : ∀ d ∈ stack, ∀ i, d.notifyStopIndex < i → i < d.index1 → r.ppiListPtrs i = p.ppiListPtrs i := by
    intro d hd i h1 h2
    rcases hstay with hl | hlast
    · exact hr.stays ho hl (by have := (h.nested d hd).stop; omega)
    · have := hlast d hd
      omega
  have hnew := (hr.new_callbacks ho).1
  refine h.push (fun e he => ?_) (dispatchNotify_nested (Int.le_refl _) fun n hn => ?_) (fun n k e he => ?_)
    (fun n k => ?_) fun n k hk => ⟨hk, ?_⟩
  · obtain ⟨h1, h2, h3, h4, h5⟩ := h.nested e he
    refine ⟨by omega, h2, by omega, ?_, h5⟩
    rw [notifies_congr fun i hi1 hi2 => hkept e he i hi1 (by omega)]
    exact h4
  · rw [hnew] at hn
    simpa using (List.mem_filter.mp hn).2
  · have hinstalls := (h.nested e he).installs
    exact ahead_congr n (hkept e he) fun hk => by rw [hlow k (by omega)]
  · rw [count_pairs_installs, ahead_dispatchNotify, hnew]
  · rw [count_pairs_installs, hr.callbacks, List.count_append, Nat.add_mul, hppis]
    congr 1
    congr 1
    exact (meets_congr n fun _ hk => by rw [hlow k hk]).symm

/-- One step of the innermost call. -/
theorem CallbackOk.tick {d d' : Dispatch} {c : List (Descriptor × Int)} (h : CallbackOk p (d :: stack) calls due reinstalled)
    (ht : d.tick p.ppiListPtrs = some (d', c)) : CallbackOk p (d' :: stack) (calls ++ c) due reinstalled where
  nested e he := by
    rcases List.mem_cons.mp he with rfl | he
    · obtain ⟨h1, h2, h3, h4, h5⟩ := h.nested d List.mem_cons_self
      obtain ⟨-, m2, m3, m4, m5⟩ := tick_moves ht
      refine ⟨by omega, m4 h2, by omega, fun n hn => ?_, fun hlt => ?_⟩
      · obtain ⟨i, hi1, hi2, rfl⟩ := mem_notifies.mp hn
        exact h4 _ (mem_notifies.mpr ⟨i, by omega, by omega, rfl⟩)
      · rcases m5 with ⟨m5, m6⟩ | ⟨m5, m6⟩
        · rw [m6]
          exact h5 (by omega)
        · rw [m6 hlt]
          exact h4 _ (mem_notifies.mpr ⟨_, by omega, by omega, rfl⟩)
    · exact h.nested e (List.mem_cons_of_mem _ he)
  owed n k hn := by
    rw [h.owed n k hn, List.map_cons, List.map_cons, List.sum_cons, List.sum_cons, List.count_append, tick_ahead n k ht]
    omega
  once := h.once

theorem CallbackOk.pop {d : Dispatch} (h : CallbackOk p (d :: stack) calls due reinstalled)
    (ht : d.tick p.ppiListPtrs = none) : CallbackOk p stack calls due reinstalled where
  nested e he := h.nested e (List.mem_cons_of_mem _ he)
  owed n k hn := by
    rw [h.owed n k hn, List.map_cons, List.sum_cons, tick_none n k ht, Nat.zero_add]
  once := h.once

/-- Calls of dispatch notifies do not matter. -/
theorem CallbackOk.called (h : CallbackOk p stack calls due reinstalled) {c : List (Descriptor × Int)}
    (hc : ∀ x ∈ c, x.1.has descriptorNotifyDispatch = true) : CallbackOk p stack (calls ++ c) due reinstalled where
  nested := h.nested
  owed n k hn := by
    have hzero : c.count (n, k) = 0 := List.count_eq_zero.mpr fun hin => by
      have := hc _ hin
      rw [hn] at this
      cases this
    rw [h.owed n k hn, List.count_append, hzero, Nat.add_zero]
  once := h.once

theorem CallbackOk.done (h : CallbackOk p stack calls due reinstalled) (proc : Process) :
    CallbackOk (proc.done p) stack calls due reinstalled := by
  obtain ⟨loop, temp, d⟩ := proc
  cases loop <;> exact ⟨fun e he => ⟨(h.nested e he).installs, (h.nested e he).order, (h.nested e he).stop,
    (h.nested e he).rest, (h.nested e he).current⟩, h.owed, h.once⟩

end Udk.Ppi
