import Mathlib.Data.List.Pairwise
import Mathlib.Data.List.Perm.Basic
import Udk.Ip4.Route

/-! # The route cache is transparent

The cache is right as long as no edit of the tables changes the next hop of a destination that stays in it. Only the
cache of the edited table is purged.
-/

namespace Udk.Ip4.Route

/-! ## The longest match -/

def RouteEntry.matches (r : RouteEntry) (dst : UInt32) : Bool := ip4NetEqual r.dest dst r.netmask

def RouteEntry.length (r : RouteEntry) : Nat := netGetMaskLength r.netmask

/-- A match with a longer mask is better. -/
def better (dst : UInt32) (best : Option RouteEntry) (r : RouteEntry) : Option RouteEntry :=
  if r.matches dst ∧ best.all (·.length < r.length) then some r else best

/-- The first one of the routes that match with the longest mask. -/
def longestMatch (routes : List RouteEntry) (dst : UInt32) : Option RouteEntry := routes.foldl (better dst) none

/-- The routes of a table and of those behind it. -/
def State.routes (s : State) (w : Which) : List RouteEntry := (s.table w :: s.behind w).flatMap RouteTable.routes

/-- The next hop that the tables give. -/
def State.answer (s : State) (w : Which) (dst : UInt32) : Option UInt32 :=
  (longestMatch (s.routes w) dst).map (·.hop dst)

theorem longest_keeps {r : RouteEntry} {dst : UInt32} {l : List RouteEntry}
    (h : ∀ r' ∈ l, r'.matches dst → r'.length ≤ r.length) :
    l.foldl (better dst) (some r) =
      some r := by
  induction l with
  | nil => rfl
  | cons x l ih =>
    rw [List.foldl_cons, better, if_neg, ih fun r' hr' => h r' (List.mem_cons_of_mem _ hr')]
    rintro ⟨hx, hlt⟩
    have := h x List.mem_cons_self hx
    simp only [Option.all_some, decide_eq_true_eq] at hlt
    omega

theorem longest_before {dst : UInt32} {n : Nat} {l : List RouteEntry} (best : Option RouteEntry)
    (hbest : ∀ b, best = some b → b.length < n) (h : ∀ r ∈ l, r.matches dst → r.length < n) :
    ∀ b, l.foldl (better dst) best =
      some b → b.length < n := by
  induction l generalizing best with
  | nil => exact hbest
  | cons x l ih =>
    rw [List.foldl_cons]
    refine ih _ (fun b hb => ?_) fun r hr => h r (List.mem_cons_of_mem _ hr)
    unfold better at hb
    split at hb
    · rename_i hx
      obtain rfl := Option.some.inj hb
      exact h _ List.mem_cons_self hx.1
    · exact hbest b hb

theorem longestMatch_split {r : RouteEntry} {dst : UInt32} {l₁ l₂ : List RouteEntry} (hr : r.matches dst)
    (h₁ : ∀ r' ∈ l₁, r'.matches dst → r'.length < r.length) (h₂ : ∀ r' ∈ l₂, r'.matches dst → r'.length ≤ r.length) :
    longestMatch (l₁ ++ r :: l₂) dst = some r := by
  rw [longestMatch, List.foldl_append, List.foldl_cons, better, if_pos, longest_keeps h₂]
  refine ⟨hr, ?_⟩
  have hbefore := longest_before none nofun h₁
  generalize l₁.foldl _ none = best at hbefore
  cases best with
  | none => rfl
  | some b => simpa using hbefore b rfl

theorem longest_mem {dst : UInt32} {l : List RouteEntry} (best : Option RouteEntry) :
    ∀ r, l.foldl (better dst) best = some r →
      best = some r ∨ r ∈ l ∧ r.matches dst := by
  induction l generalizing best with
  | nil => exact fun r hr => .inl hr
  | cons x l ih =>
    intro r hr
    rcases ih _ r hr with hbest | ⟨hin, hm⟩
    · unfold better at hbest
      split at hbest
      · rename_i hx
        obtain rfl := Option.some.inj hbest
        exact .inr ⟨List.mem_cons_self, hx.1⟩
      · exact .inl hbest
    · exact .inr ⟨List.mem_cons_of_mem _ hin, hm⟩

theorem longestMatch_some {dst : UInt32} {l : List RouteEntry} {r : RouteEntry} (h : longestMatch l dst = some r) :
    r ∈ l ∧ r.matches dst := (longest_mem none r h).resolve_left nofun

theorem longestMatch_none {dst : UInt32} {l : List RouteEntry} (h : ∀ r ∈ l, r.matches dst = false) :
    longestMatch l dst = none := by
  unfold longestMatch
  induction l with
  | nil => rfl
  | cons x l ih =>
    rw [List.foldl_cons, better, if_neg (by simp [h x List.mem_cons_self]), ih fun r hr => h r (List.mem_cons_of_mem _ hr)]

theorem longest_isSome {dst : UInt32} (l : List RouteEntry) (r : RouteEntry) :
    l.foldl (better dst) (some r) ≠ none := by
  induction l generalizing r with
  | nil => exact nofun
  | cons x l ih =>
    rw [List.foldl_cons, better]
    split
    · exact ih x
    · exact ih r

theorem longestMatch_isSome {dst : UInt32} {l : List RouteEntry} {r : RouteEntry} (hr : r ∈ l) (hm : r.matches dst) :
    longestMatch l dst ≠ none := by
  unfold longestMatch
  induction l with
  | nil => cases hr
  | cons x l ih =>
    rw [List.foldl_cons, better]
    split
    · exact longest_isSome l x
    · rename_i hx
      rcases List.mem_cons.mp hr with rfl | hr
      · exact absurd ⟨hm, rfl⟩ hx
      · exact ih hr

/-! ## The search of the areas -/

/-- Each route is in the area of its mask. -/
def InAreas (t : RouteTable) : Prop := ∀ i, ∀ r ∈ t.routeArea i, r.length = i

theorem mem_routes {t : RouteTable} {r : RouteEntry} : r ∈ t.routes ↔ ∃ i < ip4MaskNum, r ∈ t.routeArea i := by
  simp only [RouteTable.routes, List.mem_flatMap, List.mem_range]

/-- The areas around one. -/
theorem routes_split (t : RouteTable) {i : Nat} (hi : i < ip4MaskNum) :
    ∃ above, t.routes = (List.range i).flatMap t.routeArea ++ (t.routeArea i ++ above) ∧
      ∀ r ∈ above, ∃ j, i < j ∧ j < ip4MaskNum ∧ r ∈ t.routeArea j := by
  obtain ⟨n, hn⟩ : ∃ n, ip4MaskNum = i + (n + 1) := ⟨ip4MaskNum - i - 1, by omega⟩
  refine ⟨((List.range n).map (i + 1 + ·)).flatMap t.routeArea, ?_, fun r hr => ?_⟩
  · have hmap : ((List.range n).map Nat.succ).map (i + ·) = (List.range n).map (i + 1 + ·) := by
      rw [List.map_map]
      refine List.map_congr_left fun x _ => ?_
      simp only [Function.comp, Nat.succ_eq_add_one]
      omega
    rw [RouteTable.routes, hn, List.range_add, List.flatMap_append, List.range_succ_eq_map, List.map_cons, hmap,
      List.flatMap_cons, Nat.add_zero]
  · obtain ⟨j, hj, hr⟩ := List.mem_flatMap.mp hr
    obtain ⟨x, hx, rfl⟩ := List.mem_map.mp hj
    have := List.mem_range.mp hx
    exact ⟨_, by omega, by omega, hr⟩

theorem findRouteEntry_none {chain : List RouteTable} {dst : UInt32} (h : ip4FindRouteEntry chain dst = none) :
    ∀ r ∈ chain.flatMap RouteTable.routes, r.matches dst = false := by
  intro r hr
  obtain ⟨t, ht, hr⟩ := List.mem_flatMap.mp hr
  obtain ⟨i, hi, hr⟩ := mem_routes.mp hr
  have harea := List.findSome?_eq_none_iff.mp h i (by simpa using hi)
  have htable := List.findSome?_eq_none_iff.mp harea t ht
  have hmatch := List.find?_eq_none.mp htable r hr
  simpa [RouteEntry.matches] using hmatch

/-- What the search finds is the longest match. -/
theorem findRouteEntry_eq {chain : List RouteTable} (hareas : ∀ t ∈ chain, InAreas t) (dst : UInt32) :
    ip4FindRouteEntry chain dst = longestMatch (chain.flatMap RouteTable.routes) dst := by
  cases hfind : ip4FindRouteEntry chain dst with
  | none => exact (longestMatch_none (findRouteEntry_none hfind)).symm
  | some r =>
    obtain ⟨above, i, below, hrange, hi, habove⟩ := List.findSome?_eq_some_iff.mp hfind
    obtain ⟨pre, t, post, rfl, ht, hpre⟩ := List.findSome?_eq_some_iff.mp hi
    obtain ⟨hr, l₁, l₂, harea, hl₁⟩ := List.find?_eq_some_iff_append.mp ht
    have hlt : i < ip4MaskNum := by
      have : i ∈ (List.range ip4MaskNum).reverse := by rw [hrange]; simp
      simpa using this
    -- the indexes above `i` have been searched in all tables
    have hlonger : ∀ j, i < j → j < ip4MaskNum → ∀ t' ∈ pre ++ t :: post, ∀ r' ∈ t'.routeArea j, r'.matches dst = false := by
      intro j hij hj t' ht' r' hr'
      have hmem : j ∈ above := by
        have hin : j ∈ above ++ i :: below := by rw [← hrange]; simpa using hj
        rcases List.mem_append.mp hin with hin | hin
        · exact hin
        · have hsorted : (above ++ i :: below).Pairwise (· > ·) := by
            rw [← hrange, List.pairwise_reverse]
            exact List.pairwise_lt_range
          have hbelow := (List.pairwise_cons.mp (List.pairwise_append.mp hsorted).2.1).1
          rcases List.mem_cons.mp hin with rfl | hin
          · omega
          · have := hbelow j hin
            omega
      have hnone := List.find?_eq_none.mp (List.findSome?_eq_none_iff.mp (habove j hmem) t' ht') r' hr'
      simpa [RouteEntry.matches] using hnone
    have hlen : r.length = i := hareas t (by simp) i r (by rw [harea]; simp)
    obtain ⟨rest, hroutes, hrest⟩ := routes_split t hlt
    -- a route of any table that matches is not longer
    have hshort : ∀ t' ∈ pre ++ t :: post, ∀ r' ∈ t'.routes, r'.matches dst → r'.length ≤ i := by
      intro t' ht' r' hr' hm
      obtain ⟨j, hj, hr'⟩ := mem_routes.mp hr'
      rw [hareas t' ht' j r' hr']
      by_contra hgt
      rw [hlonger j (by omega) hj t' ht' r' hr'] at hm
      cases hm
    have hsplit : (pre ++ t :: post).flatMap RouteTable.routes =
        (pre.flatMap RouteTable.routes ++ ((List.range i).flatMap t.routeArea ++ l₁)) ++
          r :: (l₂ ++ rest ++ post.flatMap RouteTable.routes) := by
      rw [List.flatMap_append, List.flatMap_cons, hroutes, harea]
      simp
    rw [hsplit]
    refine (longestMatch_split (by simpa [RouteEntry.matches] using hr) (fun r' hr' hm => ?_) fun r' hr' hm => ?_).symm
    · rw [hlen]
      rcases List.mem_append.mp hr' with hr' | hr'
      · obtain ⟨t', ht', hr'⟩ := List.mem_flatMap.mp hr'
        have hle := hshort t' (List.mem_append_left _ ht') r' hr' hm
        obtain ⟨j, hj, hin⟩ := mem_routes.mp hr'
        have hj' := hareas t' (List.mem_append_left _ ht') j r' hin
        by_contra hge
        obtain rfl : i = j := by omega
        have hnone := List.find?_eq_none.mp (hpre t' ht') r' hin
        rw [RouteEntry.matches] at hm
        simp [hm] at hnone
      · rcases List.mem_append.mp hr' with hr' | hr'
        · obtain ⟨j, hj, hr'⟩ := List.mem_flatMap.mp hr'
          rw [hareas t (by simp) j r' hr']
          exact List.mem_range.mp hj
        · have hnone := hl₁ r' hr'
          rw [RouteEntry.matches] at hm
          simp [hm] at hnone
    · rw [hlen]
      rcases List.mem_append.mp hr' with hr' | hr'
      · rcases List.mem_append.mp hr' with hr' | hr'
        · exact Nat.le_of_eq (hareas t (by simp) i r' (by rw [harea]; simp [hr']))
        · obtain ⟨j, hij, hj, hr'⟩ := hrest r' hr'
          rw [hlonger j hij hj t (by simp) r' hr'] at hm
          cases hm
      · obtain ⟨t', ht', hr'⟩ := List.mem_flatMap.mp hr'
        exact hshort t' (by simp [ht']) r' hr' hm

/-! ## Edits of a table -/

/-- One part of a concatenation gets an element more. -/
theorem flatMap_perm {α β : Type} {f g : α → List β} {l : List α} {i : α} {x : β} (hnodup : l.Nodup) (hi : i ∈ l)
    (hg : (g i).Perm (x :: f i)) (hother : ∀ j, j ≠ i → g j = f j) : (l.flatMap g).Perm (x :: l.flatMap f) := by
  induction l with
  | nil => cases hi
  | cons j l ih =>
    obtain ⟨hj, hl⟩ := List.nodup_cons.mp hnodup
    rw [List.flatMap_cons, List.flatMap_cons]
    by_cases hji : j = i
    · subst hji
      have hsame : l.flatMap g = l.flatMap f := by
        rw [List.flatMap_def, List.flatMap_def]
        exact congrArg List.flatten (List.map_congr_left fun k hk => hother k fun h => hj (h ▸ hk))
      rw [hsame]
      exact (hg.append_right _)
    · rw [hother j hji]
      have hin := (List.mem_cons.mp hi).resolve_left fun h => hji h.symm
      exact ((ih hl hin).append_left (f j)).trans List.perm_middle

theorem find_perm {p : RouteEntry → Bool} {l : List RouteEntry} {r : RouteEntry} (h : l.find? p = some r) :
    l.Perm (r :: l.eraseP p) := by
  obtain ⟨hr, l₁, l₂, rfl, hl₁⟩ := List.find?_eq_some_iff_append.mp h
  have hnot : ∀ b ∈ l₁, ¬p b = true := fun b hb => by simpa using hl₁ b hb
  rw [List.eraseP_append_right _ hnot, List.eraseP_cons_of_pos hr]
  exact List.perm_middle

/-- The outcomes of `Ip4AddRoute`. -/
theorem addRoute_cases (t : RouteTable) (address number : Nat) (dest : UInt32) {netmask : UInt32} (gateway : UInt32)
    (hmask : netmask ∈ gIp4AllMasks) :
    ip4AddRoute t address number dest netmask gateway = (.accessDenied, t) ∨
    ∃ r t', ip4AddRoute t address number dest netmask gateway = (.success, t') ∧ r.address = address ∧
      r.number = number ∧ t'.cacheBucket = t.cacheBucket ∧ t'.routes.Perm (r :: t.routes) ∧
      (InAreas t → InAreas t') := by
  unfold ip4AddRoute
  simp only
  split
  · exact .inl rfl
  · have hi : netGetMaskLength netmask < ip4MaskNum := List.findIdx_lt_length_of_exists ⟨netmask, hmask, by simp⟩
    refine .inr ⟨if gateway = 0 then
        { ip4CreateRouteEntry address number dest netmask gateway with flag := ip4DirectRoute }
      else ip4CreateRouteEntry address number dest netmask gateway, _, rfl, ?_, ?_, rfl, ?_, fun h i x hx => ?_⟩
    · split <;> rfl
    · split <;> rfl
    · refine flatMap_perm List.nodup_range (List.mem_range.mpr hi) ?_ fun j hj => Function.update_of_ne hj _ _
      simp only [Function.update_self]
      exact List.Perm.refl _
    · by_cases heq : i = netGetMaskLength netmask
      · subst heq
        simp only [Function.update_self] at hx
        rcases List.mem_cons.mp hx with rfl | hx
        · split <;> rfl
        · exact h _ x hx
      · simp only [Function.update_of_ne heq] at hx
        exact h i x hx

/-- The outcomes of `Ip4DelRoute`. -/
theorem delRoute_cases (t : RouteTable) (dest : UInt32) {netmask : UInt32} (gateway : UInt32)
    (hmask : netmask ∈ gIp4AllMasks) :
    ip4DelRoute t dest netmask gateway = (.notFound, none, t) ∨
    ∃ r t', ip4DelRoute t dest netmask gateway = (.success, some r, t') ∧
      t'.cacheBucket = ip4PurgeRouteCache t.cacheBucket r.address ∧ t.routes.Perm (r :: t'.routes) ∧
      (InAreas t → InAreas t') := by
  unfold ip4DelRoute
  simp only
  split
  · rename_i r hr
    have hi : netGetMaskLength netmask < ip4MaskNum := List.findIdx_lt_length_of_exists ⟨netmask, hmask, by simp⟩
    refine .inr ⟨r, _, rfl, rfl, ?_, fun h i x hx => ?_⟩
    · refine flatMap_perm List.nodup_range (List.mem_range.mpr hi) ?_ fun j hj => (Function.update_of_ne hj _ _).symm
      simp only [Function.update_self]
      exact find_perm hr
    · by_cases heq : i = netGetMaskLength netmask
      · subst heq
        simp only [Function.update_self] at hx
        exact h _ x (List.mem_of_mem_eraseP hx)
      · simp only [Function.update_of_ne heq] at hx
        exact h i x hx
  · exact .inl rfl

theorem trimBucket_eq (count : Nat) (l : List RouteCacheEntry) :
    trimBucket count l = l.take (ip4RouteCacheMax - 1 - count) := by
  induction l generalizing count with
  | nil => rw [trimBucket, List.take_nil]
  | cons e l ih =>
    rw [trimBucket, ih]
    split
    · rename_i hlt
      obtain ⟨n, hn⟩ : ∃ n, ip4RouteCacheMax - 1 - count = n + 1 := ⟨ip4RouteCacheMax - 1 - count - 1, by omega⟩
      rw [hn, List.take_succ_cons, show ip4RouteCacheMax - 1 - (count + 1) = n by omega]
    · rw [show ip4RouteCacheMax - 1 - (count + 1) = 0 by omega, show ip4RouteCacheMax - 1 - count = 0 by omega,
        List.take_zero, List.take_zero]

/-! ## The invariant -/

theorem hash_lt (dst src : UInt32) : ip4RouteCacheHash dst src < 31 := by
  unfold ip4RouteCacheHash
  rw [UInt32.toNat_mod]
  exact Nat.mod_lt _ (by decide)

/-- The cache of a table is right for the table and those behind it. -/
structure CacheOk (s : State) (w : Which) : Prop where
  hop : ∀ b < 31, ∀ e ∈ (s.table w).cacheBucket b, s.answer w e.dest = some e.nextHop
  live : ∀ b < 31, ∀ e ∈ (s.table w).cacheBucket b, ∃ r ∈ s.routes w, r.address = e.tag ∧ r.number = e.spawnedFrom
  room : ∀ b < 31, ((s.table w).cacheBucket b).length < ip4RouteCacheMax

structure Inv (s : State) : Prop where
  areas : ∀ w, InAreas (s.table w)
  distinct : (s.own.routes ++ s.shared.routes).Pairwise fun r r' => r.address ≠ r'.address ∧ r.number ≠ r'.number
  numbered : ∀ r ∈ s.own.routes ++ s.shared.routes, r.number < s.added
  cache : ∀ w, CacheOk s w

/-- Masks are contiguous, and an edit changes the answer for no entry of a cache, except for those that it purges. -/
def Allowed (s : State) : Event → Prop
  | .add w address dest netmask gateway =>
    netmask ∈ gIp4AllMasks ∧ ∀ s' ∈ step s (.add w address dest netmask gateway),
      ∀ v ∈ [Which.own, Which.shared], ∀ b < 31, ∀ e ∈ (s.table v).cacheBucket b, s'.answer v e.dest = s.answer v e.dest
  | .delete w dest netmask gateway =>
    netmask ∈ gIp4AllMasks ∧ ∀ s' ∈ step s (.delete w dest netmask gateway),
      ∀ r ∈ (ip4DelRoute (s.table w) dest netmask gateway).2.1,
        ∀ v ∈ [Which.own, Which.shared], ∀ b < 31, ∀ e ∈ (s.table v).cacheBucket b,
          (e.tag = r.address → v = w) ∧ (e.tag ≠ r.address → s'.answer v e.dest = s.answer v e.dest)
  | .route _ _ _ => True

/-! ## Each step -/

theorem table_setTable (s : State) (w v : Which) (t : RouteTable) :
    (s.setTable w t).table v = if v = w then t else s.table v := by
  cases w <;> cases v <;> rfl

theorem mem_all {s : State} {w : Which} {r : RouteEntry} (hr : r ∈ s.routes w) :
    r ∈ s.own.routes ++ s.shared.routes := by
  cases w with
  | own => simpa [State.routes, State.table, State.behind] using hr
  | shared => exact List.mem_append_right _ (by simpa [State.routes, State.table, State.behind] using hr)

/-- A table with the same routes. -/
theorem routes_setTable {s : State} {w : Which} {t : RouteTable} (h : t.routes = (s.table w).routes) (v : Which) :
    (s.setTable w t).routes v = s.routes v := by
  cases w <;> cases v <;>
    simp only [State.routes, State.setTable, State.table, State.behind, List.flatMap_cons, List.flatMap_nil] at h ⊢ <;>
    simp only [h]

theorem all_setTable {s : State} {w : Which} {t : RouteTable} (h : t.routes = (s.table w).routes) :
    (s.setTable w t).own.routes ++ (s.setTable w t).shared.routes = s.own.routes ++ s.shared.routes := by
  cases w <;> simp only [State.setTable, State.table] at h ⊢ <;> rw [h]

/-- One route more, or one less. -/
theorem all_perm {s : State} {w : Which} {t : RouteTable} {r : RouteEntry} (h : t.routes.Perm (r :: (s.table w).routes)) :
    ((s.setTable w t).own.routes ++ (s.setTable w t).shared.routes).Perm (r :: (s.own.routes ++ s.shared.routes)) := by
  cases w with
  | own => exact h.append_right _
  | shared => exact (h.append_left _).trans List.perm_middle

theorem mem_routes_setTable {s : State} {w v : Which} {t : RouteTable} {r : RouteEntry}
    (h : ∀ x ∈ (s.table w).routes, x ≠ r → x ∈ t.routes) {x : RouteEntry} (hx : x ∈ s.routes v) (hne : x ≠ r) :
    x ∈ (s.setTable w t).routes v := by
  cases w <;> cases v <;>
    simp only [State.routes, State.setTable, State.table, State.behind, List.flatMap_cons, List.flatMap_nil,
      List.mem_append, List.append_nil] at h hx ⊢
  · exact hx.imp (fun hx => h x hx hne) id
  · exact hx
  · exact hx.imp id fun hx => h x hx hne
  · exact h x hx hne

theorem areas_setTable {s : State} {w : Which} {t : RouteTable} (hs : ∀ v, InAreas (s.table v)) (ht : InAreas t)
    (v : Which) : InAreas ((s.setTable w t).table v) := by
  rw [table_setTable]
  split
  · exact ht
  · exact hs v

theorem distinct_symm {r r' : RouteEntry} (h : r.address ≠ r'.address ∧ r.number ≠ r'.number) :
    r'.address ≠ r.address ∧ r'.number ≠ r.number := ⟨fun he => h.1 he.symm, fun he => h.2 he.symm⟩

/-- Two routes at one address, or with one number, are the same. -/
theorem Inv.unique {s : State} (h : Inv s) {r r' : RouteEntry} (hr : r ∈ s.own.routes ++ s.shared.routes)
    (hr' : r' ∈ s.own.routes ++ s.shared.routes) (heq : r.address = r'.address ∨ r.number = r'.number) : r = r' := by
  have : Std.Symm fun r r' : RouteEntry => r.address ≠ r'.address ∧ r.number ≠ r'.number := ⟨fun _ _ => distinct_symm⟩
  by_contra hne
  obtain ⟨h1, h2⟩ := h.distinct.forall hr hr' hne
  exact heq.elim h1 h2

theorem Inv.start_inv : Inv start := by
  have hnil : ip4CreateRouteTable.routes = [] := by
    unfold RouteTable.routes ip4CreateRouteTable
    simp
  have hareas : InAreas ip4CreateRouteTable := fun _ _ hr => nomatch hr
  refine ⟨fun w => by cases w <;> exact hareas, ?_, ?_, fun w => ?_⟩
  · simp only [start, hnil]
    exact .nil
  · simp only [start, hnil]
    exact nofun
  · have hempty : ∀ b, (start.table w).cacheBucket b = [] := fun b => by cases w <;> rfl
    refine ⟨fun b _ e he => ?_, fun b _ e he => ?_, fun b _ => ?_⟩
    · rw [hempty] at he
      cases he
    · rw [hempty] at he
      cases he
    · rw [hempty]
      exact Nat.zero_lt_succ _

theorem Inv.add {s s' : State} (h : Inv s) {w : Which} {address : Nat} {dest netmask gateway : UInt32}
    (hok : Allowed s (.add w address dest netmask gateway))
    (hs : step s (.add w address dest netmask gateway) = some s') : Inv s' := by
  obtain ⟨hmask, hkept⟩ := hok
  have hanswers := hkept s' hs
  simp only [step] at hs
  split at hs
  · cases hs
  · rename_i hfree
    rcases addRoute_cases (s.table w) address s.added dest gateway hmask with
      hcall | ⟨r, t, hcall, haddress, hnumber, hcache, hperm, hareas⟩
    · rw [hcall] at hs
      have hsame : s.setTable w (s.table w) = s := by cases w <;> rfl
      obtain rfl := Option.some.inj hs
      simp only [hsame]
      refine ⟨fun v => ?_, h.distinct, fun r hr => Nat.lt_succ_of_lt (h.numbered r hr), fun v => ?_⟩
      · have := h.areas v
        cases v <;> exact this
      · obtain ⟨h1, h2, h3⟩ := h.cache v
        cases v <;> exact ⟨h1, h2, h3⟩
    · rw [hcall] at hs
      obtain rfl := Option.some.inj hs
      have hall := all_perm hperm
      have hareas' : ∀ v, InAreas ((s.setTable w t).table v) := areas_setTable h.areas (hareas (h.areas w))
      refine ⟨fun v => ?_, ?_, fun x hx => ?_, fun v => ?_⟩
      · have := hareas' v
        cases v <;> exact this
      · refine (hall.pairwise_iff fun h => distinct_symm h).mpr (List.pairwise_cons.mpr ⟨fun x hx => ⟨?_, ?_⟩, h.distinct⟩)
        · rw [haddress]
          exact fun heq => hfree (List.mem_map.mpr ⟨x, hx, heq.symm⟩)
        · have := h.numbered x hx
          omega
      · rcases List.mem_cons.mp (hall.mem_iff.mp hx) with rfl | hx
        · exact hnumber ▸ Nat.lt_succ_self _
        · exact Nat.lt_succ_of_lt (h.numbered x hx)
      · have hbucket : ∀ b, (({ s.setTable w t with added := s.added + 1 } : State).table v).cacheBucket b =
            (s.table v).cacheBucket b := by
          intro b
          have ht : ((s.setTable w t).table v).cacheBucket = (s.table v).cacheBucket := by
            rw [table_setTable]
            split
            · rename_i heq
              rw [hcache, heq]
            · rfl
          cases v <;> exact congrFun ht b
        obtain ⟨h1, h2, h3⟩ := h.cache v
        refine ⟨fun b hb e he => ?_, fun b hb e he => ?_, fun b hb => ?_⟩
        · rw [hbucket] at he
          rw [hanswers v (by cases v <;> simp) b hb e he]
          exact h1 b hb e he
        · rw [hbucket] at he
          obtain ⟨x, hx, htag⟩ := h2 b hb e he
          have hne : x ≠ r := fun heq => hfree (List.mem_map.mpr ⟨x, mem_all hx, heq ▸ haddress⟩)
          have hin := mem_routes_setTable (t := t) (fun y hy _ => hperm.mem_iff.mpr (List.mem_cons_of_mem _ hy)) hx hne
          exact ⟨x, by cases v <;> exact hin, htag⟩
        · rw [hbucket]
          exact h3 b hb

/-- A deleted route leaves no entry behind, and takes none of another route with it. -/
theorem Inv.delete {s s' : State} (h : Inv s) {w : Which} {dest netmask gateway : UInt32}
    (hok : Allowed s (.delete w dest netmask gateway)) (hs : step s (.delete w dest netmask gateway) = some s') :
    Inv s' ∧ ∀ r ∈ (ip4DelRoute (s.table w) dest netmask gateway).2.1, ∀ v, ∀ b < 31,
      (∀ e ∈ (s'.table v).cacheBucket b, e.spawnedFrom ≠ r.number) ∧
      ∀ e ∈ (s.table v).cacheBucket b, e.spawnedFrom ≠ r.number → e ∈ (s'.table v).cacheBucket b := by
  obtain ⟨hmask, hkept⟩ := hok
  have hanswers := hkept s' hs
  simp only [step] at hs
  rcases delRoute_cases (s.table w) dest gateway hmask with
    hcall | ⟨r, t, hcall, hcache, hperm, hareas⟩
  · rw [hcall] at hs ⊢
    have hsame : s.setTable w (s.table w) = s := by cases w <;> rfl
    obtain rfl := Option.some.inj hs
    simp only [hsame]
    exact ⟨h, nofun⟩
  · rw [hcall] at hs hanswers ⊢
    obtain rfl := Option.some.inj hs
    have hspared := hanswers r rfl
    have hall : (s.own.routes ++ s.shared.routes).Perm
        (r :: ((s.setTable w t).own.routes ++ (s.setTable w t).shared.routes)) := by
      cases w with
      | own => exact hperm.append_right _
      | shared => exact (hperm.append_left _).trans List.perm_middle
    have hr : r ∈ s.own.routes ++ s.shared.routes := hall.mem_iff.mpr List.mem_cons_self
    -- an entry has the number of the route if it has its tag
    have htag : ∀ v, ∀ b < 31, ∀ e ∈ (s.table v).cacheBucket b, e.tag = r.address ↔ e.spawnedFrom = r.number := by
      intro v b hb e he
      obtain ⟨x, hx, hxtag, hxnumber⟩ := (h.cache v).live b hb e he
      constructor
      · intro heq
        rw [← hxnumber, h.unique (mem_all hx) hr (.inl (hxtag.trans heq))]
      · intro heq
        rw [← hxtag, h.unique (mem_all hx) hr (.inr (hxnumber.trans heq))]
    have hbucket : ∀ v, ∀ b < 31, ∀ e, e ∈ ((s.setTable w t).table v).cacheBucket b ↔
        e ∈ (s.table v).cacheBucket b ∧ e.tag ≠ r.address := by
      intro v b hb e
      rw [table_setTable]
      split
      · rename_i heq
        subst heq
        rw [hcache]
        simp only [ip4PurgeRouteCache, List.mem_filter, decide_eq_true_eq]
      · rename_i hne
        exact ⟨fun he => ⟨he, fun heq => hne ((hspared v (by cases v <;> simp) b hb e he).1 heq)⟩, fun he => he.1⟩
    refine ⟨⟨areas_setTable h.areas (hareas (h.areas w)), ?_, fun x hx => ?_, fun v => ?_⟩, fun r' hr' v b hb => ?_⟩
    · exact (List.pairwise_cons.mp ((hall.pairwise_iff fun h => distinct_symm h).mp h.distinct)).2
    · have := h.numbered x (hall.mem_iff.mpr (List.mem_cons_of_mem _ hx))
      cases w <;> exact this
    · obtain ⟨h1, h2, h3⟩ := h.cache v
      refine ⟨fun b hb e he => ?_, fun b hb e he => ?_, fun b hb => ?_⟩
      · obtain ⟨he, hne⟩ := (hbucket v b hb e).mp he
        rw [(hspared v (by cases v <;> simp) b hb e he).2 hne]
        exact h1 b hb e he
      · obtain ⟨he, hne⟩ := (hbucket v b hb e).mp he
        obtain ⟨x, hx, hxtag, hxnumber⟩ := h2 b hb e he
        refine ⟨x, mem_routes_setTable (fun y hy hyr => ?_) hx fun heq => hne (hxtag ▸ heq ▸ rfl), hxtag, hxnumber⟩
        exact (List.mem_cons.mp (hperm.mem_iff.mp hy)).resolve_left hyr
      · refine Nat.lt_of_le_of_lt ?_ (h3 b hb)
        rw [table_setTable]
        split
        · rename_i heq
          subst heq
          rw [hcache]
          exact List.length_filter_le _ _
        · exact Nat.le_refl _
    · obtain rfl := Option.some.inj hr'
      refine ⟨fun e he heq => ?_, fun e he hne => ?_⟩
      · obtain ⟨he, hne⟩ := (hbucket v b hb e).mp he
        exact hne ((htag v b hb e he).mpr heq)
      · exact (hbucket v b hb e).mpr ⟨he, fun heq => hne ((htag v b hb e he).mp heq)⟩

/-- A bucket of a cache changes. -/
theorem Inv.cached {s : State} (h : Inv s) {w : Which} {head : Nat} {l : List RouteCacheEntry}
    (hhop : ∀ e ∈ l, s.answer w e.dest = some e.nextHop)
    (hlive : ∀ e ∈ l, ∃ r ∈ s.routes w, r.address = e.tag ∧ r.number = e.spawnedFrom)
    (hroom : l.length < ip4RouteCacheMax) :
    Inv (s.setTable w { s.table w with cacheBucket := Function.update (s.table w).cacheBucket head l }) := by
  have hroutes := routes_setTable
    (t := { s.table w with cacheBucket := Function.update (s.table w).cacheBucket head l }) (s := s) (w := w) rfl
  have hall := all_setTable
    (t := { s.table w with cacheBucket := Function.update (s.table w).cacheBucket head l }) (s := s) (w := w) rfl
  refine ⟨areas_setTable h.areas (h.areas w), hall ▸ h.distinct, fun r hr => ?_, fun v => ?_⟩
  · have := h.numbered r (hall ▸ hr)
    cases w <;> exact this
  · have hbucket : ∀ b, ((s.setTable w { s.table w with
          cacheBucket := Function.update (s.table w).cacheBucket head l }).table v).cacheBucket b =
        if v = w ∧ b = head then l else (s.table v).cacheBucket b := by
      intro b
      rw [table_setTable]
      by_cases hv : v = w
      · subst hv
        by_cases hb : b = head
        · simp [hb]
        · simp [hb]
      · simp [hv]
    refine ⟨fun b hb e he => ?_, fun b hb e he => ?_, fun b hb => ?_⟩
    · rw [State.answer, hroutes, ← State.answer]
      rw [hbucket] at he
      split at he
      · rename_i hv
        exact hv.1 ▸ hhop e he
      · exact (h.cache v).hop b hb e he
    · rw [hroutes]
      rw [hbucket] at he
      split at he
      · rename_i hv
        exact hv.1 ▸ hlive e he
      · exact (h.cache v).live b hb e he
    · rw [hbucket]
      split
      · exact hroom
      · exact (h.cache v).room b hb

/-- A lookup gives what the tables give, from the cache or not, and keeps the cache right. -/
theorem Inv.route {s : State} (h : Inv s) (w : Which) (dest src : UInt32) :
    (ip4Route (s.table w) (s.behind w) dest src).1.map (·.nextHop) = s.answer w dest ∧
      Inv (s.setTable w (ip4Route (s.table w) (s.behind w) dest src).2) := by
  obtain ⟨hhop, hlive, hroom⟩ := h.cache w
  have hhead := hash_lt dest src
  unfold ip4Route
  cases hcache : ip4FindRouteCache (s.table w) dest src with
  | some e =>
    have hin : e ∈ (s.table w).cacheBucket (ip4RouteCacheHash dest src) := List.mem_of_find?_eq_some hcache
    have hsame : e.dest = dest := by
      have := List.find?_some hcache
      simp only [Bool.and_eq_true, decide_eq_true_eq] at this
      exact this.1
    have hmem : ∀ x ∈ e :: ((s.table w).cacheBucket (ip4RouteCacheHash dest src)).eraseP
        (fun e => e.dest = dest && e.src = src), x ∈ (s.table w).cacheBucket (ip4RouteCacheHash dest src) := by
      intro x hx
      rcases List.mem_cons.mp hx with rfl | hx
      · exact hin
      · exact List.mem_of_mem_eraseP hx
    refine ⟨?_, h.cached (fun x hx => hhop _ hhead x (hmem x hx)) (fun x hx => hlive _ hhead x (hmem x hx)) ?_⟩
    · simp only [Option.map_some]
      exact (hsame ▸ hhop _ hhead e hin).symm
    · have hlen := List.length_eraseP_of_mem hin (List.find?_some hcache)
      have := List.length_pos_of_mem hin
      have := hroom _ hhead
      simp only [List.length_cons, hlen]
      omega
  | none =>
    have hfind : ip4FindRouteEntry (s.table w :: s.behind w) dest = longestMatch (s.routes w) dest := by
      refine findRouteEntry_eq (fun t ht => ?_) dest
      cases w with
      | own => exact (List.mem_pair.mp ht).elim (fun ht => ht ▸ h.areas .own) fun ht => ht ▸ h.areas .shared
      | shared => exact List.mem_singleton.mp ht ▸ h.areas .shared
    simp only [hfind]
    cases hmatch : longestMatch (s.routes w) dest with
    | none =>
      refine ⟨by rw [State.answer, hmatch]; rfl, ?_⟩
      have hsame : s.setTable w (s.table w) = s := by cases w <;> rfl
      simp only [hsame]
      exact h
    | some r =>
      have hanswer : s.answer w dest = some (r.hop dest) := by
        rw [State.answer, hmatch]
        rfl
      have hr : r ∈ s.routes w := (longestMatch_some hmatch).1
      refine ⟨by rw [hanswer]; rfl, ?_⟩
      have hmem : ∀ x ∈ trimBucket 0 (⟨dest, src, r.hop dest, r.address, r.number⟩ ::
            (s.table w).cacheBucket (ip4RouteCacheHash dest src)),
          x = ⟨dest, src, r.hop dest, r.address, r.number⟩ ∨
            x ∈ (s.table w).cacheBucket (ip4RouteCacheHash dest src) := by
        intro x hx
        rw [trimBucket_eq] at hx
        exact List.mem_cons.mp (List.mem_of_mem_take hx)
      refine h.cached (fun x hx => ?_) (fun x hx => ?_) ?_
      · rcases hmem x hx with rfl | hx
        · exact hanswer
        · exact hhop _ hhead x hx
      · rcases hmem x hx with rfl | hx
        · exact ⟨r, hr, rfl, rfl⟩
        · exact hlive _ hhead x hx
      · rw [trimBucket_eq, List.length_take]
        exact Nat.lt_of_le_of_lt (Nat.min_le_left _ _) (by decide)

theorem Inv.step {s s' : State} (h : Inv s) {event : Event} (hok : Allowed s event)
    (hs : Route.step s event = some s') : Inv s' := by
  cases event with
  | add w address dest netmask gateway => exact h.add hok hs
  | delete w dest netmask gateway => exact (h.delete hok hs).1
  | route w dest src =>
    obtain rfl := Option.some.inj hs
    exact (h.route w dest src).2

/-! ## Every run -/

structure Transparent (s : State) : Prop where
  nextHop : ∀ w dest src, (ip4Route (s.table w) (s.behind w) dest src).1.map (·.nextHop) = s.answer w dest
  null : ∀ w dest src, (ip4Route (s.table w) (s.behind w) dest src).1 = none ↔
    ∀ r ∈ s.routes w, r.matches dest = false
  bucket : ∀ w, ∀ b < 31, ((s.table w).cacheBucket b).length ≤ ip4RouteCacheMax

/-- No entry spawned from the deleted route stays, and no other one goes. -/
def PurgedExactly (s s' : State) (r : RouteEntry) : Prop :=
  ∀ w, ∀ b < 31, (∀ e ∈ (s'.table w).cacheBucket b, e.spawnedFrom ≠ r.number) ∧
    ∀ e ∈ (s.table w).cacheBucket b, e.spawnedFrom ≠ r.number → e ∈ (s'.table w).cacheBucket b

theorem Inv.transparent {s : State} (h : Inv s) : Transparent s where
  nextHop w dest src := (h.route w dest src).1
  null w dest src := by
    have hhop := (h.route w dest src).1
    rw [← Option.map_eq_none_iff (f := (·.nextHop)), hhop, State.answer, Option.map_eq_none_iff]
    refine ⟨fun hnone => ?_, longestMatch_none⟩
    by_contra hmatch
    simp only [not_forall, Bool.not_eq_false] at hmatch
    obtain ⟨r, hr, hm⟩ := hmatch
    exact longestMatch_isSome hr hm hnone
  bucket w b hb := Nat.le_of_lt ((h.cache w).room b hb)

theorem cache_transparent {events : List Event} {s : State} (hrun : Run step Allowed start events s) :
    Transparent s ∧ ∀ w dest netmask gateway, Allowed s (.delete w dest netmask gateway) →
      ∀ s' ∈ step s (.delete w dest netmask gateway),
        ∀ r ∈ (ip4DelRoute (s.table w) dest netmask gateway).2.1, PurgedExactly s s' r := by
  have hinv : Inv s := hrun.invariant Inv Inv.start_inv fun _ _ _ h hok hs => h.step hok hs
  exact ⟨hinv.transparent, fun w dest netmask gateway hok s' hs' r hr v => (hinv.delete hok hs').2 r hr v⟩

instance (s : State) (event : Event) : Decidable (Allowed s event) :=
  match event with
  | .add w address dest netmask gateway =>
    inferInstanceAs (Decidable (netmask ∈ gIp4AllMasks ∧ ∀ s' ∈ step s (.add w address dest netmask gateway),
      ∀ v ∈ [Which.own, Which.shared], ∀ b < 31, ∀ e ∈ (s.table v).cacheBucket b, s'.answer v e.dest = s.answer v e.dest))
  | .delete w dest netmask gateway =>
    inferInstanceAs (Decidable (netmask ∈ gIp4AllMasks ∧ ∀ s' ∈ step s (.delete w dest netmask gateway),
      ∀ r ∈ (ip4DelRoute (s.table w) dest netmask gateway).2.1,
        ∀ v ∈ [Which.own, Which.shared], ∀ b < 31, ∀ e ∈ (s.table v).cacheBucket b,
          (e.tag = r.address → v = w) ∧ (e.tag ≠ r.address → s'.answer v e.dest = s.answer v e.dest)))
  | .route _ _ _ => isTrue trivial

/-- A default route, a network of the instance in front of it, and lookups of both. -/
def sampleEvents : List Event :=
  [.add .shared 0x1000 0 0 0x0A000001, .add .own 0x2000 0x0A000000 0xFF000000 0, .route .own 0x0A000005 0x0A000002,
    .route .own 0x08080808 0x0A000002, .add .own 0x3000 0xC0A80000 0xFFFF0000 0x0A000009,
    .route .own 0x0A000005 0x0A000002, .delete .own 0x0A000000 0xFF000000 0, .route .own 0x0A000005 0x0A000002]

theorem cache_transparent_sample :
    ∃ s, Run step Allowed start sampleEvents s ∧ s.answer .own 0x0A000005 = some 0x0A000001 ∧
      Transparent s ∧ ∀ w dest netmask gateway, Allowed s (.delete w dest netmask gateway) →
        ∀ s' ∈ step s (.delete w dest netmask gateway),
          ∀ r ∈ (ip4DelRoute (s.table w) dest netmask gateway).2.1, PurgedExactly s s' r := by
  obtain ⟨s, hs, hanswer⟩ := Option.map_eq_some_iff.mp
    (show (sampleEvents.foldlM (fun s e => if Allowed s e then step s e else none) start).map
        (·.answer .own 0x0A000005) = some (some 0x0A000001) by decide +kernel)
  obtain ⟨-, hrun⟩ := Run.of_guarded hs
  exact ⟨s, hrun, hanswer, cache_transparent hrun⟩

/-- An edit with a contiguous mask, or a lookup. -/
def Proper (_ : State) : Event → Prop
  | .add _ _ _ netmask _ => netmask ∈ gIp4AllMasks
  | .delete _ _ netmask _ => netmask ∈ gIp4AllMasks
  | .route _ _ _ => True

/-- The entry of a deleted default route stays in the cache of the instance. -/
theorem deleted_default_stays :
    ∃ s, Run step Proper start [.add .shared 0x1000 0 0 0x0A000001, .route .own 0x08080808 0x0A000002,
        .delete .shared 0 0 0x0A000001] s ∧
      s.answer .own 0x08080808 = none ∧
      (ip4Route s.own [s.shared] 0x08080808 0x0A000002).1.map (·.nextHop) = some 0x0A000001 ∧ ¬Transparent s := by
  obtain ⟨s, hs, hboth⟩ := Option.map_eq_some_iff.mp
    (show ([Event.add .shared 0x1000 0 0 0x0A000001, .route .own 0x08080808 0x0A000002,
        .delete .shared 0 0 0x0A000001].foldlM step start).map (fun s => (s.answer .own 0x08080808,
          (ip4Route s.own [s.shared] 0x08080808 0x0A000002).1.map (·.nextHop))) = some (none, some 0x0A000001) by
      decide +kernel)
  obtain ⟨hanswer, hhop⟩ := Prod.mk.inj hboth
  refine ⟨s, Run.of_foldlM ?_ hs, hanswer, hhop, fun h => ?_⟩
  · intro s e he
    simp only [List.mem_cons, List.not_mem_nil, or_false] at he
    rcases he with rfl | rfl | rfl
    · exact (by decide : (0 : UInt32) ∈ gIp4AllMasks)
    · trivial
    · exact (by decide : (0 : UInt32) ∈ gIp4AllMasks)
  · have hsame := h.nextHop .own 0x08080808 0x0A000002
    rw [hanswer] at hsame
    cases hhop.symm.trans hsame

end Udk.Ip4.Route
