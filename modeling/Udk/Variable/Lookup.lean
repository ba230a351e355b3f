import Udk.Variable.Copies
import Udk.Variable.Store

/-! # What `FindVariable` finds -/

open Udk.Bytes

namespace Udk.Variable

/-- `r` is the last copy of `k` in the store that can be seen. -/
structure IsFound (atRuntime : Bool) (k : Key) (recs pre : List Record) (r : Record) (post : List Record) :
    Prop where
  split : recs = pre ++ r :: post
  live : r.isLive = true
  visible : r.isVisible atRuntime = true
  has : r.has k = true
  last : ∀ q ∈ post, q.isLive = true → q.isVisible atRuntime = true → q.has k = false

/-- No copy of `k` can be seen. -/
def NotFound (atRuntime : Bool) (k : Key) (recs : List Record) : Prop :=
  ∀ r ∈ recs, r.isLive = true → r.isVisible atRuntime = true → r.has k = false

theorem IsFound.found_eq {atRuntime : Bool} {k : Key} {recs pre post : List Record} {r : Record}
    (h : IsFound atRuntime k recs pre r post) : found atRuntime k recs = some r := by
  have hpost : (copies k post).filter (·.isVisible atRuntime) = [] := by
    rw [List.filter_eq_nil_iff]
    intro q hq hv
    obtain ⟨hq, hl, hk⟩ := mem_copies.mp hq
    rw [h.last q hq hl hv] at hk; cases hk
  rw [found, h.split, copies_append, copies_cons_pos k r post h.live h.has, List.filter_append,
    List.filter_cons_of_pos (by simpa using h.visible), hpost, List.getLast?_append]
  simp

theorem NotFound.found_eq {atRuntime : Bool} {k : Key} {recs : List Record} (h : NotFound atRuntime k recs) :
    found atRuntime k recs = none := by
  rw [found, List.getLast?_eq_none_iff, List.filter_eq_nil_iff]
  intro q hq hv
  obtain ⟨hq, hl, hk⟩ := mem_copies.mp hq
  rw [h q hq hl hv] at hk; cases hk

/-! ## One store -/

section
variable {m : Memory} {k : Key}

theorem findInStore_spec (atRuntime : Bool) {recs : List Record} {a : Nat} (acc : Option Nat)
    (h : Holds m a recs) (hg : Good recs)
    (hk : k.1.chars ≠ []) :
    (NotFound atRuntime k recs ∧ findInStore m atRuntime k.1 k.2 (addresses a recs) acc = acc) ∨
      ∃ pre r post, IsFound atRuntime k recs pre r post ∧
        findInStore m atRuntime k.1 k.2 (addresses a recs) acc = some (a + total pre) := by
  induction recs generalizing a acc with
  | nil => exact .inl ⟨by intro r hr; simp at hr, rfl⟩
  | cons r rs ih =>
    have hrs := (good_cons.mp hg).2.1
    rw [addresses, findInStore, isAdded_of_at h.1, isInDeletedTransition_of_at h.1, isVisible_of_at h.1]
    have hempty : k.1.chars.isEmpty = false := by simpa using hk
    rw [hempty, Bool.false_or]
    by_cases hm : r.isLive = true ∧ r.isVisible atRuntime = true ∧ r.has k = true
    · obtain ⟨hl, hv, hh⟩ := hm
      have hname : nameMatches m k.1 k.2 a = true := by
        rw [nameMatches_of_at h.1 (r.not_erased_of_live hl) (hg.named r (by simp) hl)]; exact hh
      have hl' : (r.isAdded || r.isInDeleted) = true := hl
      rw [hl', hv, hname]
      simp only [Bool.and_self, if_true]
      cases hd : r.isInDeleted with
      | true =>
        rcases ih (some a) h.2 hrs with ⟨hno, he⟩ | ⟨pre, q, post, hf, he⟩
        · exact .inr ⟨[], r, rs, ⟨rfl, hl, hv, hh, hno⟩, by simpa using he⟩
        · refine .inr ⟨r :: pre, q, post, ⟨by rw [hf.split]; rfl, hf.live, hf.visible, hf.has, hf.last⟩, ?_⟩
          simpa [Nat.add_assoc] using he
      | false =>
        have ha : r.isAdded = true := by
          rw [hd, Bool.or_false] at hl'; exact hl'
        refine .inr ⟨[], r, rs, ⟨rfl, hl, hv, hh, ?_⟩, by simp⟩
        intro q hq hql _
        have := (good_cons.mp hg).2.2 q hq ha hql
        rwa [Record.sameAs_of_has hh] at this
    · have hskip : (if ((r.isAdded || r.isInDeleted) && r.isVisible atRuntime && nameMatches m k.1 k.2 a) = true then
            if r.isInDeleted = true then findInStore m atRuntime k.1 k.2 (addresses (a + r.size) rs) (some a)
            else some a
          else findInStore m atRuntime k.1 k.2 (addresses (a + r.size) rs) acc) =
          findInStore m atRuntime k.1 k.2 (addresses (a + r.size) rs) acc := by
        rw [if_neg]
        intro hc
        rw [Bool.and_eq_true, Bool.and_eq_true] at hc
        obtain ⟨⟨hl, hv⟩, hn⟩ := hc
        rw [nameMatches_of_at h.1 (r.not_erased_of_live hl) (hg.named r (by simp) hl)] at hn
        exact hm ⟨hl, hv, hn⟩
      rw [hskip]
      rcases ih acc h.2 hrs with ⟨hno, he⟩ | ⟨pre, q, post, hf, he⟩
      · refine .inl ⟨?_, he⟩
        intro q hq hl hv
        rcases List.mem_cons.mp hq with rfl | hq
        · by_contra hk'
          exact hm ⟨hl, hv, by simpa using hk'⟩
        · exact hno q hq hl hv
      · refine .inr ⟨r :: pre, q, post, ⟨by rw [hf.split]; rfl, hf.live, hf.visible, hf.has, hf.last⟩, ?_⟩
        simpa [Nat.add_assoc] using he

end

/-! ## Both stores -/

/-- Where `FindVariable` finds `k`, and what `v` then says. -/
inductive Finds (P : Platform) (atRuntime : Bool) (k : Key) (vol nv : List Record) : VariablePointerTrack → Prop
  | volatile {v : VariablePointerTrack} {pre r post} (h : IsFound atRuntime k vol pre r post)
      (hp : v.currPtr = recordAt P.volatileVariableBase pre) (hv : v.isVolatile = true) :
      Finds P atRuntime k vol nv v
  | nonVolatile {v : VariablePointerTrack} {pre r post} (h : IsFound atRuntime k nv pre r post)
      (hno : NotFound atRuntime k vol) (hp : v.currPtr = recordAt P.nonVolatileVariableBase pre)
      (hv : v.isVolatile = false) : Finds P atRuntime k vol nv v
  | none {v : VariablePointerTrack} (hv : NotFound atRuntime k vol) (hn : NotFound atRuntime k nv)
      (hp : v.currPtr = 0) (hf : v.isVolatile = false) : Finds P atRuntime k vol nv v

/-- The records of both stores. -/
structure Stores (P : Platform) (m : Memory) (vol nv : List Record) : Prop where
  volatile : StoreHolds m P.volatileVariableBase P.pcdVariableStoreSize vol
  nonVolatile : StoreHolds m P.nonVolatileVariableBase P.nonVolatileStoreSize nv
  volatile_good : Good vol
  nonVolatile_good : Good nv

theorem findVariable_spec {P : Platform} {s : State} {vol nv : List Record} {k : Key}
    (h : Stores P s.mem vol nv) (hk : k.1.chars ≠ []) :
    (findVariable P k.1 k.2 s).1 =
        (if (findVariable P k.1 k.2 s).2.currPtr = 0 then EfiStatus.notFound else EfiStatus.success) ∧
      Finds P s.atRuntime k vol nv (findVariable P k.1 k.2 s).2 := by
  have hvol := h.volatile.storeHeaders_eq P.volatileArea
  have hnv := h.nonVolatile.storeHeaders_eq P.nonVolatileArea
  have hpos := P.volatile_pos
  have hpos' := P.nonVolatile_pos
  unfold findVariable
  rw [hvol, hnv]
  rcases findInStore_spec s.atRuntime none h.volatile.records h.volatile_good hk with
    ⟨hno, he⟩ | ⟨pre, r, post, hf, he⟩
  · rw [he]
    rcases findInStore_spec s.atRuntime none h.nonVolatile.records h.nonVolatile_good hk with
      ⟨hno', he'⟩ | ⟨pre, r, post, hf, he'⟩
    · rw [he']
      exact ⟨rfl, .none hno hno' rfl rfl⟩
    · rw [he']
      refine ⟨?_, .nonVolatile hf hno rfl rfl⟩
      rw [if_neg]; simp only [pointerTrack]; omega
  · rw [he]
    refine ⟨?_, .volatile hf rfl rfl⟩
    rw [if_neg]; simp only [pointerTrack]; omega

end Udk.Variable
