import Udk.Variable.Enumerate

/-! # What the enumeration lists -/

open Udk.Bytes

namespace Udk.Variable

/-! ## The lookup of the empty name -/

/-- The copies in delete transition that can be seen. -/
def leaving (atRuntime : Bool) (recs : List Record) : List Record :=
  recs.filter fun r => r.isInDeleted && r.isVisible atRuntime

/-- What the lookup of the empty name takes in a store. -/
def anyRecord (atRuntime : Bool) (recs : List Record) : Option Record :=
  (listed atRuntime recs).head?.or (leaving atRuntime recs).getLast?

/-- `r` is what the lookup of the empty name takes in `recs`, and no listed record lies before it. -/
structure IsAny (atRuntime : Bool) (recs pre : List Record) (r : Record) (post : List Record) : Prop where
  split : recs = pre ++ r :: post
  any : anyRecord atRuntime recs = some r
  listed_pre : listed atRuntime pre = []
  live : r.isLive = true

theorem findInStore_empty {m : Memory} {b : Bool} {n : Name} {g : Guid} (hn : n.chars = []) {recs : List Record}
    {a : Nat} (acc : Option Nat) (h : Holds m a recs) :
    (anyRecord b recs = none ∧ findInStore m b n g (addresses a recs) acc = acc) ∨
      ∃ pre r post, IsAny b recs pre r post ∧ findInStore m b n g (addresses a recs) acc = some (a + total pre) := by
  induction recs generalizing a acc with
  | nil => exact .inl ⟨rfl, rfl⟩
  | cons r rs ih =>
    have hempty : n.chars.isEmpty = true := by rw [hn]; rfl
    rw [addresses, findInStore, isAdded_of_at h.1, isInDeletedTransition_of_at h.1, isVisible_of_at h.1, hempty,
      Bool.true_or, Bool.and_true]
    cases hv : r.isVisible b with
    | false =>
      have hl : r.isListed b = false := by rw [Record.isListed, hv, Bool.and_false]
      have hd : leaving b (r :: rs) = leaving b rs := List.filter_cons_of_neg (by simp [hv])
      have hany : anyRecord b (r :: rs) = anyRecord b rs := by unfold anyRecord; rw [listed_cons_neg hl, hd]
      rw [Bool.and_false]
      simp only [Bool.false_eq_true, if_false, hany]
      rcases ih acc h.2 with ⟨hno, he⟩ | ⟨pre, q, post, hf, he⟩
      · exact .inl ⟨hno, he⟩
      · refine .inr ⟨r :: pre, q, post, ⟨by rw [hf.split]; rfl, hany.trans hf.any, ?_, hf.live⟩, ?_⟩
        · rw [listed_cons_neg hl]; exact hf.listed_pre
        · rw [he, total_cons, Nat.add_assoc]
    | true =>
      rw [Bool.and_true]
      cases ha : r.isAdded with
      | true =>
        have hd : r.isInDeleted = false := by
          by_contra hd
          rw [r.inDeleted_not_added (by simpa using hd)] at ha
          cases ha
        have hl : r.isListed b = true := by rw [Record.isListed, ha, hv]; rfl
        rw [hd]
        simp only [Bool.true_or, if_true, Bool.false_eq_true, if_false]
        refine .inr ⟨[], r, rs, ⟨rfl, ?_, rfl, isLive_of_added ha⟩, rfl⟩
        unfold anyRecord
        rw [listed_cons_pos hl]; rfl
      | false =>
        have hl : r.isListed b = false := by rw [Record.isListed, ha, Bool.false_and]
        cases hd : r.isInDeleted with
        | false =>
          have hany : anyRecord b (r :: rs) = anyRecord b rs := by
            unfold anyRecord
            rw [listed_cons_neg hl, show leaving b (r :: rs) = leaving b rs from
              List.filter_cons_of_neg (by simp [hd])]
          simp only [Bool.or_self, Bool.false_eq_true, if_false, hany]
          rcases ih acc h.2 with ⟨hno, he⟩ | ⟨pre, q, post, hf, he⟩
          · exact .inl ⟨hno, he⟩
          · refine .inr ⟨r :: pre, q, post, ⟨by rw [hf.split]; rfl, hany.trans hf.any, ?_, hf.live⟩, ?_⟩
            · rw [listed_cons_neg hl]; exact hf.listed_pre
            · rw [he, total_cons, Nat.add_assoc]
        | true =>
          have hcons : leaving b (r :: rs) = r :: leaving b rs := List.filter_cons_of_pos (by simp [hd, hv])
          simp only [Bool.or_true, if_true]
          rcases ih (some a) h.2 with ⟨hno, he⟩ | ⟨pre, q, post, hf, he⟩
          · -- nothing behind it
            refine .inr ⟨[], r, rs, ⟨rfl, ?_, rfl, isLive_of_inDeleted hd⟩, by rw [he]; rfl⟩
            unfold anyRecord at hno ⊢
            rw [listed_cons_neg hl, hcons]
            rw [Option.or_eq_none_iff] at hno
            rw [hno.1, List.getLast?_eq_none_iff.mp hno.2]
            rfl
          · refine .inr ⟨r :: pre, q, post, ⟨by rw [hf.split]; rfl, ?_, ?_, hf.live⟩, ?_⟩
            · have hany := hf.any
              unfold anyRecord at hany ⊢
              rw [listed_cons_neg hl, hcons, List.getLast?_cons]
              cases hh : (listed b rs).head? with
              | some x => rw [hh] at hany; exact hany
              | none =>
                rw [hh, Option.none_or] at hany
                rw [hany]; rfl
            · rw [listed_cons_neg hl]; exact hf.listed_pre
            · rw [he, total_cons, Nat.add_assoc]

theorem listed_of_any_none {b : Bool} {recs : List Record} (h : anyRecord b recs = none) : listed b recs = [] := by
  unfold anyRecord at h
  rw [Option.or_eq_none_iff] at h
  exact List.head?_eq_none_iff.mp h.1

/-- Where `FindVariable` looks for the empty name. -/
inductive FindsAny (P : Platform) (s : State) (vol nv : List Record) : EfiStatus × VariablePointerTrack → Prop
  | volatile {v : VariablePointerTrack} {pre r post} (h : IsAny s.atRuntime vol pre r post)
      (hp : v.currPtr = recordAt P.volatileVariableBase pre)
      (he : v.endPtr = P.volatileVariableBase + P.pcdVariableStoreSize) (hv : v.isVolatile = true) :
      FindsAny P s vol nv (.success, v)
  | nonVolatile {v : VariablePointerTrack} {pre r post} (h : IsAny s.atRuntime nv pre r post)
      (hno : anyRecord s.atRuntime vol = none) (hp : v.currPtr = recordAt P.nonVolatileVariableBase pre)
      (he : v.endPtr = P.nonVolatileVariableBase + P.nonVolatileStoreSize) (hv : v.isVolatile = false) :
      FindsAny P s vol nv (.success, v)
  | none {v : VariablePointerTrack} (hv : anyRecord s.atRuntime vol = none)
      (hn : anyRecord s.atRuntime nv = none) : FindsAny P s vol nv (.notFound, v)

section
variable {P : Platform} {s : State} {vol nv : List Record} {n : Name} {g : Guid} {size : Nat}

theorem findVariable_empty (h : Settled P s vol nv) (hn : n.chars = []) (g : Guid) :
    FindsAny P s vol nv (findVariable P n g s) := by
  have hvol := h.holding.volatile
  have hnv := h.holding.nonVolatile.holds
  unfold findVariable
  rw [hvol.storeHeaders_eq P.volatileArea, hnv.storeHeaders_eq P.nonVolatileArea]
  rcases findInStore_empty (b := s.atRuntime) (g := g) hn none hvol.records with ⟨hno, he⟩ | ⟨pre, r, post, hf, he⟩
  · rw [he]
    rcases findInStore_empty (b := s.atRuntime) (g := g) hn none hnv.records with ⟨hno', he'⟩ | ⟨pre, r, post, hf, he'⟩
    · rw [he']; exact .none hno hno'
    · rw [he']; exact .nonVolatile hf hno rfl (hnv.getEndPointer_eq P.nonVolatileArea) rfl
  · rw [he]; exact .volatile hf rfl (hvol.getEndPointer_eq P.volatileArea) rfl

/-- The records that the enumeration goes through. -/
def listing (atRuntime : Bool) (vol nv : List Record) : List Record := listed atRuntime vol ++ listed atRuntime nv

/-- The enumeration starts with the first listed record. -/
theorem getNext_empty (h : Settled P s vol nv) (hn : n.chars = []) (hsize : LargeEnough size vol)
    (hsize' : LargeEnough size nv) :
    runtimeServiceGetNextVariableName P (some size) (some n) (some g) s =
      nextResult size (listing s.atRuntime vol nv).head? := by
  have hempty : n.chars.isEmpty = true := by rw [hn]; rfl
  have hf := findVariable_empty h hn g
  unfold listing
  generalize hx : findVariable P n g s = x at hf
  cases hf with
  | @volatile v pre r post hf hp he hv =>
    rw [getNext_of_found hx, hempty, if_pos rfl, resultAt_volatile h hsize hsize' pre hf.split hp he hv]
    conv_rhs => rw [hf.split, listed_append, hf.listed_pre, List.nil_append]
  | @nonVolatile v pre r post hf hno hp he hv =>
    rw [getNext_of_found hx, hempty, if_pos rfl, resultAt_nonVolatile h hsize' pre hf.split hp he hv,
      listed_of_any_none hno, List.nil_append]
    conv_rhs => rw [hf.split, listed_append, hf.listed_pre, List.nil_append]
  | none hv hn' =>
    rw [listed_of_any_none hv, listed_of_any_none hn']
    unfold runtimeServiceGetNextVariableName
    simp only [hx]
    rfl

/-- The pointer behind the record that is found. -/
theorem findVariable_endPtr (h : Settled P s vol nv) (v : VariablePointerTrack)
    (hf : findVariable P n g s = (.success, v)) :
    v.endPtr = if v.isVolatile then P.volatileVariableBase + P.pcdVariableStoreSize
      else P.nonVolatileVariableBase + P.nonVolatileStoreSize := by
  unfold findVariable at hf
  split at hf
  · obtain rfl := (Prod.mk.inj hf).2
    exact h.holding.volatile.getEndPointer_eq P.volatileArea
  · split at hf
    · obtain rfl := (Prod.mk.inj hf).2
      exact h.holding.nonVolatile.holds.getEndPointer_eq P.nonVolatileArea
    · cases (Prod.mk.inj hf).1

/-- The enumeration goes on with the listed record behind the one it was at. -/
theorem getNext_listed (h : Settled P s vol nv) (hsize : LargeEnough size vol) (hsize' : LargeEnough size nv)
    (before : List Record) {after : List Record} {r : Record} (hl : listing s.atRuntime vol nv = before ++ r :: after) :
    runtimeServiceGetNextVariableName P (some size) (some r.key.1) (some r.key.2) s = nextResult size after.head? := by
  have hvol := h.holding.volatile
  have hnv := h.holding.nonVolatile.holds
  have hgood := h.holding.volatile_good
  have hgood' := h.holding.nonVolatile.good
  have hmem : r ∈ vol ∨ r ∈ nv := by
    have : r ∈ listing s.atRuntime vol nv := by rw [hl]; simp
    unfold listing at this
    rw [List.mem_append, mem_listed, mem_listed] at this
    exact this.imp And.left And.left
  have hlisted : r.isAdded = true ∧ r.isVisible s.atRuntime = true := by
    have : r ∈ listing s.atRuntime vol nv := by rw [hl]; simp
    unfold listing at this
    rw [List.mem_append, mem_listed, mem_listed] at this
    rcases this with h | h <;> exact h.2
  obtain ⟨ha, hv⟩ := hlisted
  have hlive := isLive_of_added ha
  obtain ⟨hk, hne⟩ : r.has r.key = true ∧ r.key.1.chars ≠ [] := by
    rcases hmem with hm | hm
    · exact (hgood.named r hm hlive).has_key
    · exact (hgood'.named r hm hlive).has_key
  have hnotempty : r.key.1.chars.isEmpty = false := by simpa using hne
  obtain ⟨hst, hf⟩ := findVariable_spec (s := s) h.holding.stores hne
  -- the record is in one of the stores, and what lies behind it there is listed next
  have hwhere : (∃ pre post rest, vol = pre ++ r :: post ∧ listed s.atRuntime post = rest ∧
      after = rest ++ listed s.atRuntime nv) ∨ ∃ pre post, nv = pre ++ r :: post ∧ listed s.atRuntime post = after := by
    unfold listing at hl
    rcases List.append_eq_append_iff.mp hl with ⟨zs, -, hz⟩ | ⟨zs, hz, hz'⟩
    · obtain ⟨pre, rest, hs, -, hrest⟩ := List.filter_eq_append_iff.mp hz
      obtain ⟨pre', post, hs', -, -, hpost⟩ := List.filter_eq_cons_iff.mp hrest
      exact .inr ⟨pre ++ pre', post, by rw [hs, hs']; simp, hpost⟩
    · cases zs with
      | nil =>
        obtain ⟨pre', post, hs', -, -, hpost⟩ := List.filter_eq_cons_iff.mp hz'.symm
        exact .inr ⟨pre', post, hs', hpost⟩
      | cons z zs =>
        obtain ⟨rfl, hafter⟩ := List.cons.inj hz'
        obtain ⟨pre, rest, hs, -, hrest⟩ := List.filter_eq_append_iff.mp hz
        obtain ⟨pre', post, hs', -, -, hpost⟩ := List.filter_eq_cons_iff.mp hrest
        exact .inl ⟨pre ++ pre', post, zs, by rw [hs, hs']; simp, hpost, hafter⟩
  rcases hwhere with ⟨pre, post, rest, hs, hpost, rfl⟩ | ⟨pre, post, hs, hpost⟩
  · generalize hx : findVariable P r.key.1 r.key.2 s = x at hst hf
    obtain ⟨st, v⟩ := x
    simp only at hst hf
    cases hf with
    | @volatile pre' q post' hf hp hvol' =>
      obtain ⟨rfl, rfl, rfl⟩ := hf.unique hgood hs ha hv hk
      have hat : At s.mem v.currPtr q.bytes := by rw [hp]; exact isFound_at hvol hf
      have hmod := recordAt_mod P.volatileArea pre'
      rw [if_neg (hp ▸ hmod.1)] at hst
      subst hst
      rw [getNext_of_found hx, hnotempty, if_neg (by simp), ← hpost]
      refine resultAt_volatile h hsize hsize' (pre' ++ [q]) (by rw [hs]; simp) ?_ ?_ hvol'
      · rw [getNextVariablePtr_of_at (hp ▸ hmod.1) (hp ▸ hmod.2) hat, hp]
        simp [recordAt, Nat.add_assoc]
      · have := findVariable_endPtr h v hx
        rwa [hvol', if_pos rfl] at this
    | nonVolatile hf hno =>
      have := hno r (by rw [hs]; simp) hlive hv
      rw [hk] at this; cases this
    | none hno =>
      have := hno r (by rw [hs]; simp) hlive hv
      rw [hk] at this; cases this
  · generalize hx : findVariable P r.key.1 r.key.2 s = x at hst hf
    obtain ⟨st, v⟩ := x
    simp only at hst hf
    cases hf with
    | @volatile pre' q post' hf =>
      -- a variable does not have copies in both stores
      exfalso
      rcases h.apart r.key with h0 | h0
      · rw [hf.split, copies_mid hf.live hf.has] at h0; simp at h0
      · rw [hs, copies_mid hlive hk] at h0; simp at h0
    | @nonVolatile pre' q post' hf hno hp hvol' =>
      obtain ⟨rfl, rfl, rfl⟩ := hf.unique hgood' hs ha hv hk
      have hat : At s.mem v.currPtr q.bytes := by rw [hp]; exact isFound_at hnv hf
      have hmod := recordAt_mod P.nonVolatileArea pre'
      rw [if_neg (hp ▸ hmod.1)] at hst
      subst hst
      rw [getNext_of_found hx, hnotempty, if_neg (by simp), ← hpost]
      refine resultAt_nonVolatile h hsize' (pre' ++ [q]) (by rw [hs]; simp) ?_ ?_ hvol'
      · rw [getNextVariablePtr_of_at (hp ▸ hmod.1) (hp ▸ hmod.2) hat, hp]
        simp [recordAt, Nat.add_assoc]
      · have := findVariable_endPtr h v hx
        rwa [hvol', if_neg (by simp)] at this
    | none _ hno =>
      have := hno r (by rw [hs]; simp) hlive hv
      rw [hk] at this; cases this

end

end Udk.Variable
