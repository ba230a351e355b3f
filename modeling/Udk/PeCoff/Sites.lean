import Udk.PeCoff.Relocate

/-! # Relocated locations and the log of their values

What the walks over the relocation directory come to: a list of locations, each with its slot in the log.
-/

namespace Udk.PeCoff

open Bytes

/-- A location that a relocation applies to. -/
structure Site where
  address : Nat
  width : Nat
  isWidth : width = 4 ∨ width = 8

def Site.Has (s : Site) (i : Nat) : Prop := s.address ≤ i ∧ i < s.address + s.width

def Site.Apart (s t : Site) : Prop := ∀ i, s.Has i → ¬t.Has i

def Site.value (s : Site) (m : Memory) : Nat := readLE m s.address s.width

/-- The aligned place for the value of a site in a log from `p` on. -/
def Site.slot (s : Site) (p : Nat) : Site := ⟨alignPointer p s.width, s.width, s.isWidth⟩

def Site.behind (s : Site) (p : Nat) : Nat := alignPointer p s.width + s.width

/-- The sites with their slots. -/
def slots : Nat → List Site → List (Site × Site)
  | _, [] => []
  | p, s :: rest => (s, s.slot p) :: slots (s.behind p) rest

def logEnd : Nat → List Site → Nat
  | p, [] => p
  | p, s :: rest => logEnd (s.behind p) rest

/-- What the log of the sites takes up, if there is one. -/
def LogHas (log : Option Nat) (sites : List Site) (i : Nat) : Prop := ∃ p ∈ log, p ≤ i ∧ i < logEnd p sites

def relocateSite (adjust : Nat) (st : Fixing) (s : Site) : Fixing :=
  applyFixup s.width s.width s.address (s.value st.memory + adjust) st

def relocateSites (adjust : Nat) (sites : List Site) (st : Fixing) : Fixing := sites.foldl (relocateSite adjust) st

def reapplySite (delta : Nat) (st : Reapplying) (s : Site) : Reapplying := reapplyFixup s.width s.width s.address delta st

def reapplySites (delta : Nat) (sites : List Site) (st : Reapplying) : Reapplying := sites.foldl (reapplySite delta) st

variable {m m' : Memory} {s t : Site} {sites : List Site} {adjust delta p i : Nat} {st : Fixing} {rt : Reapplying}
  {log : Option Nat}

/-! ## Values -/

theorem fromLE_toLE_mod (k n : Nat) : fromLE (toLE k n) = n % 256 ^ k := by
  induction k generalizing n with
  | zero => simp [toLE, fromLE, Nat.mod_one]
  | succ k ih =>
    rw [toLE, fromLE, ih, Nat.pow_succ, Nat.mul_comm _ 256, Nat.mod_mul]
    simp

theorem readLE_write_mod (m : Memory) (a k n : Nat) : readLE (write m a (toLE k n)) a k = n % 256 ^ k := by
  have hat := write_at m a (toLE k n)
  rw [At, toLE_length] at hat
  rw [readLE, hat, fromLE_toLE_mod]

theorem Site.value_congr (h : ∀ i, s.Has i → m' i = m i) : s.value m' = s.value m :=
  readLE_congr m m' _ _ fun i h₁ h₂ => h i ⟨h₁, h₂⟩

theorem Site.value_lt (s : Site) (m : Memory) : s.value m < 256 ^ s.width := readLE_lt _ _ _

theorem Site.write_outside (h : ¬s.Has i) (n : Nat) : write m s.address (toLE s.width n) i = m i := by
  refine Bytes.write_outside m _ _ i ?_
  unfold Site.Has at h
  rw [toLE_length]
  omega

theorem Site.value_write (s : Site) (m : Memory) (n : Nat) :
    s.value (write m s.address (toLE s.width n)) = n % 256 ^ s.width := readLE_write_mod m _ _ n

/-! ## Places in the log -/

theorem Site.width_pos (s : Site) : 0 < s.width := by
  have := s.isWidth
  omega

theorem le_alignPointer (p : Nat) {n : Nat} (hn : 0 < n) : p ≤ alignPointer p n := by
  unfold alignPointer
  have h := Nat.div_add_mod (p + (n - 1)) n
  have hlt := Nat.mod_lt (p + (n - 1)) hn
  rw [Nat.mul_comm] at h
  omega

/-- Nothing that is aligned lies between an address and what it is aligned to. -/
theorem alignPointer_le {p q n : Nat} (hn : 0 < n) (hd : n ∣ q) (hpq : p ≤ q) : alignPointer p n ≤ q := by
  obtain ⟨c, rfl⟩ := hd
  unfold alignPointer
  rw [Nat.mul_comm n c]
  refine Nat.mul_le_mul_right n (Nat.lt_succ_iff.mp ?_)
  rw [Nat.div_lt_iff_lt_mul hn, Nat.succ_mul, Nat.mul_comm c n]
  omega

theorem Site.width_dvd (s : Site) : s.width ∣ 8 := by
  rcases s.isWidth with h | h
  · exact ⟨2, by omega⟩
  · exact ⟨1, by omega⟩

theorem Site.le_slot (s : Site) (p : Nat) : p ≤ (s.slot p).address := le_alignPointer p s.width_pos

theorem Site.le_behind (s : Site) (p : Nat) : p ≤ s.behind p :=
  Nat.le_trans (s.le_slot p) (Nat.le_add_right _ _)

theorem le_logEnd (p : Nat) (sites : List Site) : p ≤ logEnd p sites := by
  induction sites generalizing p with
  | nil => exact Nat.le_refl p
  | cons s rest ih => exact Nat.le_trans (s.le_behind p) (ih _)

/-- A slot takes up no more than 8 bytes, behind the first aligned address. -/
theorem logEnd_le {p q : Nat} (sites : List Site) (hq : 8 ∣ q) (hpq : p ≤ q) : logEnd p sites ≤ q + 8 * sites.length := by
  induction sites generalizing p q with
  | nil => exact hpq
  | cons s rest ih =>
    have hslot : alignPointer p s.width ≤ q := alignPointer_le s.width_pos (Nat.dvd_trans s.width_dvd hq) hpq
    have hwidth : s.width ≤ 8 := Nat.le_of_dvd (by decide) s.width_dvd
    have hrest : logEnd (s.behind p) rest ≤ q + 8 + 8 * rest.length :=
      ih (Nat.dvd_add hq (Nat.dvd_refl 8)) (Nat.add_le_add hslot hwidth)
    rw [logEnd, List.length_cons]
    omega

theorem Site.slot_logged (s : Site) (hp : p ∈ log) (hi : (s.slot p).Has i) : LogHas log (s :: sites) i := by
  refine ⟨p, hp, Nat.le_trans (s.le_slot p) hi.1, ?_⟩
  have hlt : i < s.behind p := hi.2
  exact Nat.lt_of_lt_of_le hlt (le_logEnd _ _)

theorem LogHas.tail (hi : LogHas (log.map s.behind) sites i) : LogHas log (s :: sites) i := by
  obtain ⟨q, hq, hle, hlt⟩ := hi
  obtain ⟨p, hp, rfl⟩ := Option.map_eq_some_iff.mp hq
  exact ⟨p, hp, Nat.le_trans (s.le_behind p) hle, hlt⟩

/-! ## One site is relocated -/

theorem relocateSite_fixupData (adjust : Nat) (st : Fixing) (s : Site) :
    (relocateSite adjust st s).fixupData = st.fixupData.map s.behind := by
  unfold relocateSite applyFixup
  cases st.fixupData <;> rfl

/-- Nothing changes but the site and its slot. -/
theorem relocateSite_outside (hs : ¬s.Has i) (hslot : ∀ p ∈ st.fixupData, ¬(s.slot p).Has i) :
    (relocateSite adjust st s).memory i = st.memory i := by
  unfold relocateSite applyFixup
  cases hlog : st.fixupData with
  | none => exact s.write_outside hs _
  | some p =>
    have hout := hslot p hlog
    refine (Bytes.write_outside _ _ _ i ?_).trans (s.write_outside hs _)
    unfold Site.Has at hout
    rw [read_length]
    simp only [Site.slot] at hout
    omega

theorem relocateSite_value (hslot : ∀ p ∈ st.fixupData, s.Apart (s.slot p)) :
    s.value (relocateSite adjust st s).memory = (s.value st.memory + adjust) % 256 ^ s.width := by
  rw [← s.value_write st.memory]
  unfold relocateSite applyFixup
  cases hlog : st.fixupData with
  | none => rfl
  | some p =>
    refine Site.value_congr fun i hi => Bytes.write_outside _ _ _ i ?_
    have hout := hslot p hlog i hi
    unfold Site.Has at hout
    rw [read_length]
    simp only [Site.slot] at hout
    omega

/-- The slot holds the value of the site. -/
theorem relocateSite_slot (hp : p ∈ st.fixupData) (hslot : s.Apart (s.slot p)) :
    (s.slot p).value (relocateSite adjust st s).memory = s.value (relocateSite adjust st s).memory := by
  have hvalue : s.value (relocateSite adjust st s).memory = (s.value st.memory + adjust) % 256 ^ s.width := by
    refine relocateSite_value fun q hq => ?_
    rwa [Option.some.inj ((Option.mem_def.mp hq).symm.trans (Option.mem_def.mp hp))]
  rw [hvalue, ← s.value_write st.memory]
  unfold relocateSite applyFixup
  rw [Option.mem_def.mp hp]
  have hat := write_at (write st.memory s.address (toLE s.width (s.value st.memory + adjust))) (alignPointer p s.width)
    (read (write st.memory s.address (toLE s.width (s.value st.memory + adjust))) s.address s.width)
  rw [At, read_length] at hat
  simp only [Site.value, Site.slot, readLE]
  exact congrArg fromLE hat

/-! ## All sites are relocated -/

theorem relocateSites_cons (adjust : Nat) (s : Site) (rest : List Site) (st : Fixing) :
    relocateSites adjust (s :: rest) st = relocateSites adjust rest (relocateSite adjust st s) := rfl

/-- Nothing changes but the sites and their log. -/
theorem relocateSites_outside (hsites : ∀ s ∈ sites, ¬s.Has i) (hlog : ¬LogHas st.fixupData sites i) :
    (relocateSites adjust sites st).memory i = st.memory i := by
  induction sites generalizing st with
  | nil => rfl
  | cons s rest ih =>
    rw [relocateSites_cons]
    refine (ih (fun t ht => hsites t (List.mem_cons_of_mem s ht)) fun hi => ?_).trans ?_
    · rw [relocateSite_fixupData] at hi
      exact hlog hi.tail
    · exact relocateSite_outside (hsites s List.mem_cons_self) fun p hp hi => hlog (s.slot_logged hp hi)

/-- The sites are apart from one another and from their log. -/
structure Separate (log : Option Nat) (sites : List Site) : Prop where
  pairwise : sites.Pairwise Site.Apart
  log : ∀ s ∈ sites, ∀ i, s.Has i → ¬LogHas log sites i

namespace Separate

theorem tail (h : Separate log (s :: sites)) : Separate (log.map s.behind) sites where
  pairwise := (List.pairwise_cons.mp h.pairwise).2
  log t ht i hi hlog := h.log t (List.mem_cons_of_mem s ht) i hi hlog.tail

theorem slot (h : Separate log (s :: sites)) (ht : t ∈ s :: sites) (hp : p ∈ log) : t.Apart (s.slot p) :=
  fun i hi hslot => h.log t ht i hi (s.slot_logged hp hslot)

/-- What comes behind leaves a site alone. -/
theorem head_kept (h : Separate st.fixupData (s :: sites)) :
    s.value (relocateSites adjust sites (relocateSite adjust st s)).memory = s.value (relocateSite adjust st s).memory := by
  refine Site.value_congr fun i hi => relocateSites_outside ?_ ?_
  · exact fun t ht => (List.pairwise_cons.mp h.pairwise).1 t ht i hi
  · rw [relocateSite_fixupData]
    exact fun hlog => h.log s List.mem_cons_self i hi hlog.tail

/-- What comes behind leaves a slot alone. -/
theorem slot_kept (h : Separate st.fixupData (s :: sites)) (hp : p ∈ st.fixupData) :
    (s.slot p).value (relocateSites adjust sites (relocateSite adjust st s)).memory =
      (s.slot p).value (relocateSite adjust st s).memory := by
  refine Site.value_congr fun i hi => relocateSites_outside ?_ ?_
  · exact fun t ht hti => h.slot (List.mem_cons_of_mem s ht) hp i hti hi
  · rw [relocateSite_fixupData]
    rintro ⟨q, hq, hle, -⟩
    rw [Option.mem_def.mp hp, Option.map_some, Option.mem_some_iff] at hq
    have hlt : i < s.behind p := hi.2
    omega

end Separate

/-- Each site has its value adjusted once. -/
theorem relocateSites_value (h : Separate st.fixupData sites) (hs : s ∈ sites) :
    s.value (relocateSites adjust sites st).memory = (s.value st.memory + adjust) % 256 ^ s.width := by
  induction sites generalizing st with
  | nil => exact absurd hs List.not_mem_nil
  | cons t rest ih =>
    rw [relocateSites_cons]
    obtain rfl | hmem := List.mem_cons.mp hs
    · rw [h.head_kept]
      exact relocateSite_value fun p hp => h.slot List.mem_cons_self hp
    · rw [ih (by rw [relocateSite_fixupData]; exact h.tail) hmem]
      have hsame : s.value (relocateSite adjust st t).memory = s.value st.memory := by
        refine Site.value_congr fun i hi => relocateSite_outside ?_ fun p hp => h.slot hs hp i hi
        exact fun hti => (List.pairwise_cons.mp h.pairwise).1 s hmem i hti hi
      rw [hsame]

/-- Each slot has the value of its site. -/
theorem relocateSites_log (h : Separate st.fixupData sites) (hp : p ∈ st.fixupData) {x : Site × Site}
    (hx : x ∈ slots p sites) :
    x.2.value (relocateSites adjust sites st).memory = x.1.value (relocateSites adjust sites st).memory := by
  induction sites generalizing st p with
  | nil => exact absurd hx List.not_mem_nil
  | cons s rest ih =>
    rw [relocateSites_cons]
    obtain rfl | hmem := List.mem_cons.mp hx
    · dsimp only
      rw [h.slot_kept hp, h.head_kept]
      exact relocateSite_slot hp (h.slot List.mem_cons_self hp)
    · refine ih (p := s.behind p) ?_ ?_ hmem
      · rw [relocateSite_fixupData]
        exact h.tail
      · rw [relocateSite_fixupData, Option.mem_def.mp hp]
        rfl

/-! ## The log is read back -/

theorem slots_fst (p : Nat) (sites : List Site) : (slots p sites).map Prod.fst = sites := by
  induction sites generalizing p with
  | nil => rfl
  | cons s rest ih => rw [slots, List.map_cons, ih]

theorem reapplySites_cons (delta : Nat) (s : Site) (rest : List Site) (rt : Reapplying) :
    reapplySites delta (s :: rest) rt = reapplySites delta rest (reapplySite delta rt s) := rfl

/-- A value is moved on if it is the one in the slot. -/
def moved (delta : Nat) (m : Memory) (x : Site × Site) : Nat :=
  if x.2.value m = x.1.value m then (x.1.value m + delta) % 256 ^ x.1.width else x.1.value m

theorem moved_of_eq {x : Site × Site} (h : x.2.value m = x.1.value m) :
    moved delta m x = (x.1.value m + delta) % 256 ^ x.1.width := if_pos h

theorem moved_of_ne {x : Site × Site} (h : x.2.value m ≠ x.1.value m) : moved delta m x = x.1.value m := if_neg h

theorem reapplySite_outside (hs : ¬s.Has i) : (reapplySite delta rt s).memory i = rt.memory i := by
  unfold reapplySite reapplyFixup
  dsimp only
  split
  · exact s.write_outside hs _
  · rfl

theorem reapplySite_value (delta : Nat) (rt : Reapplying) (s : Site) :
    s.value (reapplySite delta rt s).memory = moved delta rt.memory (s, s.slot rt.fixupData) := by
  unfold reapplySite reapplyFixup
  dsimp only
  by_cases heq : (s.slot rt.fixupData).value rt.memory = s.value rt.memory
  · rw [moved_of_eq (x := (s, s.slot rt.fixupData)) heq]
    simp only [Site.value, Site.slot] at heq
    rw [if_pos heq]
    exact s.value_write rt.memory _
  · rw [moved_of_ne (x := (s, s.slot rt.fixupData)) heq]
    simp only [Site.value, Site.slot] at heq
    rw [if_neg heq]

theorem reapplySites_outside (hsites : ∀ s ∈ sites, ¬s.Has i) : (reapplySites delta sites rt).memory i = rt.memory i := by
  induction sites generalizing rt with
  | nil => rfl
  | cons s rest ih =>
    rw [reapplySites_cons, ih fun t ht => hsites t (List.mem_cons_of_mem s ht)]
    exact reapplySite_outside (hsites s List.mem_cons_self)

theorem moved_congr {x : Site × Site} (h₁ : x.1.value m' = x.1.value m) (h₂ : x.2.value m' = x.2.value m) :
    moved delta m' x = moved delta m x := by
  rw [moved, h₁, h₂, moved]

theorem slots_mem {p : Nat} {sites : List Site} {x : Site × Site} (hx : x ∈ slots p sites) : x.1 ∈ sites := by
  rw [← slots_fst p sites]
  exact List.mem_map_of_mem hx

theorem slots_logged {p : Nat} {sites : List Site} {x : Site × Site} (hx : x ∈ slots p sites) (hi : x.2.Has i) :
    LogHas (some p) sites i := by
  induction sites generalizing p with
  | nil => exact absurd hx List.not_mem_nil
  | cons s rest ih =>
    obtain rfl | hmem := List.mem_cons.mp hx
    · exact s.slot_logged rfl hi
    · have htail : LogHas ((some p).map s.behind) rest i := ih hmem
      exact htail.tail

/-- Each site is compared with its own slot. -/
theorem reapplySites_value (h : Separate (some rt.fixupData) sites) {x : Site × Site} (hx : x ∈ slots rt.fixupData sites) :
    x.1.value (reapplySites delta sites rt).memory = moved delta rt.memory x := by
  induction sites generalizing rt with
  | nil => exact absurd hx List.not_mem_nil
  | cons s rest ih =>
    rw [reapplySites_cons]
    have hfirst := (List.pairwise_cons.mp h.pairwise).1
    obtain rfl | hmem := List.mem_cons.mp hx
    · refine Eq.trans ?_ (reapplySite_value delta rt s)
      exact Site.value_congr fun i hi => reapplySites_outside fun t ht => hfirst t ht i hi
    · refine (@ih (reapplySite delta rt s) h.tail hmem).trans (moved_congr ?_ ?_)
      · exact Site.value_congr fun i hi => reapplySite_outside fun hsi => hfirst x.1 (slots_mem hmem) i hsi hi
      · refine Site.value_congr fun i hi => reapplySite_outside fun hsi => ?_
        exact h.log s List.mem_cons_self i hsi (slots_logged hx hi)

end Udk.PeCoff
