import Mathlib.Data.List.Count
import Mathlib.Data.List.Nodup
import Udk.Ppi.Survival

/-! # Pairs of notifies and PPIs

What a call of `DispatchNotify` has ahead, counted for one notify and one PPI.
-/

namespace Udk.Ppi

variable {P Q : Int → Descriptor}

/-! ## Counting pairs -/

/-- 1 if the PPI at `k` is one of those from `lo` up to below `hi` and has the GUID of `n`. -/
def meets (P : Int → Descriptor) (n : Descriptor) (k lo hi : Int) : Nat :=
  if lo ≤ k ∧ k < hi ∧ (P k).guid = n.guid then 1 else 0

theorem meets_split (P : Int → Descriptor) (n : Descriptor) (k : Int) {lo mid hi : Int} (h1 : lo ≤ mid) (h2 : mid ≤ hi) :
    meets P n k lo hi = meets P n k lo mid + meets P n k mid hi := by
  unfold meets
  by_cases hg : (P k).guid = n.guid
  · simp only [hg, and_true]
    split <;> split <;> split <;> omega
  · simp [hg]

theorem meets_empty (P : Int → Descriptor) (n : Descriptor) (k : Int) {lo hi : Int} (h : hi ≤ lo) :
    meets P n k lo hi = 0 := if_neg (by omega)

theorem meets_congr (n : Descriptor) {k lo hi : Int} (h : lo ≤ k → k < hi → (Q k).guid = (P k).guid) :
    meets Q n k lo hi = meets P n k lo hi := by
  unfold meets
  by_cases hk : lo ≤ k ∧ k < hi
  · rw [h hk.1 hk.2]
  · rw [if_neg (by tauto), if_neg (by tauto)]

/-- How often the pair of `n` and the PPI at `k` is ahead of a call of `DispatchNotify`. -/
def ahead (P : Int → Descriptor) (n : Descriptor) (k : Int) (d : Dispatch) : Nat :=
  if d.notifyStopIndex < d.index1 then
    (if d.notifyDescriptor = n then meets P n k d.index2 d.installStopIndex else 0) +
      (notifies P (d.index1 - 1) d.notifyStopIndex).count n * meets P n k d.installStartIndex d.installStopIndex
  else 0

theorem count_notifies (P : Int → Descriptor) (n : Descriptor) {a b : Int} (h : b < a) :
    (notifies P a b).count n = (if P a = n then 1 else 0) + (notifies P (a - 1) b).count n := by
  rw [notifies_cons h, List.count_cons]
  simp only [beq_iff_eq]
  omega

theorem ahead_enter (P : Int → Descriptor) (n : Descriptor) (k : Int) (d : Dispatch) (i : Int) :
    ahead P n k (d.enter P i) =
      (notifies P i d.notifyStopIndex).count n * meets P n k d.installStartIndex d.installStopIndex := by
  unfold ahead Dispatch.enter
  simp only
  by_cases hi : d.notifyStopIndex < i
  · rw [if_pos hi, if_pos hi, count_notifies P n hi, Nat.add_mul]
    congr 1
    split <;> simp
  · rw [if_neg hi, notifies_nil (by omega), List.count_nil, Nat.zero_mul]

theorem ahead_dispatchNotify (n : Descriptor) (k : Int) (p : PpiData) (a b s t : Int) :
    ahead p.ppiListPtrs n k (dispatchNotify p a b s t) =
      (notifies p.ppiListPtrs s t).count n * meets p.ppiListPtrs n k a b :=
  ahead_enter _ _ _ _ _

/-- One step calls a pair that was ahead, or leaves out one that does not match. -/
theorem tick_ahead {d d' : Dispatch} {calls : List (Descriptor × Int)} (n : Descriptor) (k : Int)
    (h : d.tick P = some (d', calls)) : ahead P n k d = calls.count (n, k) + ahead P n k d' := by
  unfold Dispatch.tick at h
  split at h
  · rename_i hstop
    split at h
    · rename_i hinstall
      have hsplit := meets_split P n k (show d.index2 ≤ d.index2 + 1 by omega)
        (show d.index2 + 1 ≤ d.installStopIndex by omega)
      split at h
      · rename_i hguid
        obtain ⟨rfl, rfl⟩ := Prod.mk.inj (Option.some.inj h)
        have hone : List.count (n, k) [(d.notifyDescriptor, d.index2)] =
            if d.notifyDescriptor = n then meets P n k d.index2 (d.index2 + 1) else 0 := by
          rw [List.count_singleton]
          unfold meets
          by_cases hn : d.notifyDescriptor = n
          · subst hn
            by_cases hk : d.index2 = k
            · subst hk
              rw [if_pos (by simp), if_pos rfl, if_pos ⟨Int.le_refl _, Int.lt_succ _, hguid⟩]
            · rw [if_pos rfl, if_neg (by simpa using hk), if_neg fun h => hk (by omega)]
          · rw [if_neg hn, if_neg (by simpa using fun h => absurd h hn)]
        rw [hone]
        unfold ahead
        simp only [if_pos hstop]
        split <;> omega
      · rename_i hguid
        obtain ⟨rfl, rfl⟩ := Prod.mk.inj (Option.some.inj h)
        have hzero : d.notifyDescriptor = n → meets P n k d.index2 (d.index2 + 1) = 0 := by
          rintro rfl
          refine if_neg ?_
          rintro ⟨h1, h2, h3⟩
          obtain rfl : k = d.index2 := by omega
          exact hguid h3
        unfold ahead
        simp only [if_pos hstop, List.count_nil]
        split
        · have := hzero ‹_›
          omega
        · omega
    · rename_i hinstall
      obtain ⟨rfl, rfl⟩ := Prod.mk.inj (Option.some.inj h)
      rw [ahead_enter, ahead, if_pos hstop, meets_empty P n k (show d.installStopIndex ≤ d.index2 by omega), ite_self]
      simp
  · cases h

theorem tick_none {d : Dispatch} (n : Descriptor) (k : Int) (h : d.tick P = none) : ahead P n k d = 0 := by
  unfold Dispatch.tick at h
  split at h
  · split at h
    · split at h <;> cases h
    · cases h
  · rename_i hstop
    exact if_neg hstop

theorem count_pairs (P : Int → Descriptor) (n : Descriptor) (k : Int) (ns : List Descriptor) (ks : List Int) :
    (pairs P ns ks).count (n, k) = ns.count n * (ks.filter fun k => (P k).guid = n.guid).count k := by
  induction ns with
  | nil => simp [pairs]
  | cons m ns ih =>
    rw [pairs, List.flatMap_cons, List.count_append, ← pairs, ih, List.count_cons, Nat.add_mul, Nat.add_comm]
    congr 1
    by_cases hm : m = n
    · subst hm
      rw [if_pos (by simp), Nat.one_mul]
      exact List.count_map_of_injective _ _ (fun _ _ h => (Prod.mk.inj h).2) _
    · rw [if_neg (by simpa using hm), Nat.zero_mul]
      refine List.count_eq_zero.mpr fun hin => ?_
      obtain ⟨x, -, hx⟩ := List.mem_map.mp hin
      exact hm (Prod.mk.inj hx).1

theorem installs_nodup (a b : Int) : (installs a b).Nodup :=
  List.nodup_range.map fun _ _ h => Int.ofNat.inj (Int.add_left_cancel h)

theorem count_pairs_installs (P : Int → Descriptor) (n : Descriptor) (k : Int) (ns : List Descriptor) (a b : Int) :
    (pairs P ns (installs a b)).count (n, k) = ns.count n * meets P n k a b := by
  rw [count_pairs]
  congr 1
  have hnodup := (installs_nodup a b).filter fun k => decide ((P k).guid = n.guid)
  unfold meets
  split
  · rename_i hk
    exact List.count_eq_one_of_mem hnodup
      (List.mem_filter.mpr ⟨mem_installs.mpr ⟨hk.1, hk.2.1⟩, by simpa using hk.2.2⟩)
  · rename_i hk
    refine List.count_eq_zero.mpr fun hin => hk ?_
    obtain ⟨h1, h2⟩ := List.mem_filter.mp hin
    obtain ⟨h3, h4⟩ := mem_installs.mp h1
    exact ⟨h3, h4, by simpa using h2⟩

theorem installs_singleton (i : Int) : installs i (i + 1) = [i] := by
  rw [installs_cons (by omega), installs_nil (Int.le_refl _)]

/-- The same notifies ahead, and the same GUID at `k`. -/
theorem ahead_congr (n : Descriptor) {k : Int} {d : Dispatch}
    (hn : ∀ i, d.notifyStopIndex < i → i < d.index1 → Q i = P i)
    (hk : k < d.installStopIndex → (Q k).guid = (P k).guid) : ahead Q n k d = ahead P n k d := by
  unfold ahead
  rw [meets_congr n fun _ h => hk h, meets_congr n fun _ h => hk h,
    notifies_congr fun i h1 h2 => hn i h1 (by omega)]

/-- The PPI at `index` becomes `new`, and no notify ahead of it has the GUID of either one. -/
def Undisturbed (P : Int → Descriptor) (index : Int) (new : Descriptor) (d : Dispatch) : Prop :=
  index < d.installStartIndex ∨ d.installStopIndex ≤ index ∨
    ((index < d.index2 ∨ d.notifyDescriptor.guid ≠ (P index).guid ∧ d.notifyDescriptor.guid ≠ new.guid) ∧
      ∀ n ∈ notifies P (d.index1 - 1) d.notifyStopIndex, n.guid ≠ (P index).guid ∧ n.guid ≠ new.guid)

theorem meets_update_of_ne {n new : Descriptor} {index : Int} (k lo hi : Int) (h1 : n.guid ≠ (P index).guid)
    (h2 : n.guid ≠ new.guid) : meets (Function.update P index new) n k lo hi = meets P n k lo hi := by
  unfold meets
  by_cases hk : k = index
  · subst hk
    rw [Function.update_self, if_neg fun h => h2 h.2.2.symm, if_neg fun h => h1 h.2.2.symm]
  · rw [Function.update_of_ne hk]

theorem meets_update_outside {n new : Descriptor} {index lo hi : Int} (k : Int) (h : index < lo ∨ hi ≤ index) :
    meets (Function.update P index new) n k lo hi = meets P n k lo hi :=
  meets_congr n fun h1 h2 => by rw [Function.update_of_ne (by omega)]

theorem ahead_update {n new : Descriptor} {k index : Int} {d : Dispatch} (horder : d.installStartIndex ≤ d.index2)
    (hindex : index ≤ d.notifyStopIndex) (h : Undisturbed P index new d) :
    ahead (Function.update P index new) n k d = ahead P n k d := by
  have hsegment : notifies (Function.update P index new) (d.index1 - 1) d.notifyStopIndex =
      notifies P (d.index1 - 1) d.notifyStopIndex :=
    notifies_congr fun i hi _ => Function.update_of_ne (by omega) _ _
  unfold ahead
  rw [hsegment]
  rcases h with h | h | ⟨hrow, hrest⟩
  · rw [meets_update_outside k (.inl (by omega)), meets_update_outside k (.inl h)]
  · rw [meets_update_outside k (.inr h), meets_update_outside k (.inr h)]
  · have hfirst : (if d.notifyDescriptor = n then
        meets (Function.update P index new) n k d.index2 d.installStopIndex else 0) =
        if d.notifyDescriptor = n then meets P n k d.index2 d.installStopIndex else 0 := by
      split
      · rename_i heq
        subst heq
        rcases hrow with hlt | ⟨h1, h2⟩
        · exact meets_update_outside k (.inl hlt)
        · exact meets_update_of_ne k _ _ h1 h2
      · rfl
    have hsecond : (notifies P (d.index1 - 1) d.notifyStopIndex).count n *
          meets (Function.update P index new) n k d.installStartIndex d.installStopIndex =
        (notifies P (d.index1 - 1) d.notifyStopIndex).count n * meets P n k d.installStartIndex d.installStopIndex := by
      by_cases hin : n ∈ notifies P (d.index1 - 1) d.notifyStopIndex
      · rw [meets_update_of_ne k _ _ (hrest n hin).1 (hrest n hin).2]
      · rw [List.count_eq_zero_of_not_mem hin, Nat.zero_mul, Nat.zero_mul]
    rw [hfirst, hsecond]

/-- A call is one of the notify that the loop is at. -/
theorem tick_calls {d d' : Dispatch} {calls : List (Descriptor × Int)} (h : d.tick P = some (d', calls)) :
    d.notifyStopIndex < d.index1 ∧ ∀ c ∈ calls, c.1 = d.notifyDescriptor := by
  unfold Dispatch.tick at h
  split at h
  · rename_i hstop
    refine ⟨hstop, ?_⟩
    split at h
    · split at h
      · obtain ⟨-, rfl⟩ := Prod.mk.inj (Option.some.inj h)
        exact fun c hc => by rw [List.mem_singleton.mp hc]
      · obtain ⟨-, rfl⟩ := Prod.mk.inj (Option.some.inj h)
        exact fun c hc => nomatch hc
    · obtain ⟨-, rfl⟩ := Prod.mk.inj (Option.some.inj h)
      exact fun c hc => nomatch hc
  · cases h

/-- A step stays at its notify or goes on to the next one. -/
theorem tick_moves {d d' : Dispatch} {calls : List (Descriptor × Int)} (h : d.tick P = some (d', calls)) :
    d'.installStartIndex = d.installStartIndex ∧ d'.installStopIndex = d.installStopIndex ∧
      d'.notifyStopIndex = d.notifyStopIndex ∧ (d.installStartIndex ≤ d.index2 → d'.installStartIndex ≤ d'.index2) ∧
      (d'.index1 = d.index1 ∧ d'.notifyDescriptor = d.notifyDescriptor ∨
        d'.index1 = d.index1 - 1 ∧ (d'.notifyStopIndex < d'.index1 → d'.notifyDescriptor = P d'.index1)) := by
  unfold Dispatch.tick at h
  split at h
  · split at h
    · split at h
      · obtain ⟨rfl, -⟩ := Prod.mk.inj (Option.some.inj h)
        exact ⟨rfl, rfl, rfl, fun h => Int.le_trans h (Int.le_add_one (Int.le_refl _)), .inl ⟨rfl, rfl⟩⟩
      · obtain ⟨rfl, -⟩ := Prod.mk.inj (Option.some.inj h)
        exact ⟨rfl, rfl, rfl, fun h => Int.le_trans h (Int.le_add_one (Int.le_refl _)), .inl ⟨rfl, rfl⟩⟩
    · obtain ⟨rfl, -⟩ := Prod.mk.inj (Option.some.inj h)
      exact ⟨rfl, rfl, rfl, fun _ => Int.le_refl _, .inr ⟨rfl, fun hlt => if_pos hlt⟩⟩
  · cases h

theorem notifies_inj {a b i : Int} (h : notifies P a b = notifies Q a b) (h1 : b < i) (h2 : i ≤ a) : P i = Q i := by
  have hmap := List.map_inj_left.mp h (a - i).toNat (List.mem_range.mpr (by omega))
  rwa [show a - ((a - i).toNat : Int) = i by omega] at hmap

end Udk.Ppi
