import Udk.Gcd.Service

/-! # The initial memory region of the DXE core

`CoreInitializeMemoryServices` looks through the resource descriptor HOBs for the highest tested memory that is
large enough, and goes on below the last descriptor of the list when the highest one is not.
-/

namespace Udk.Gcd

/-- `EFI_HOB_RESOURCE_DESCRIPTOR`. -/
structure ResourceDescriptor where
  resourceType : Nat
  resourceAttribute : Nat
  physicalStart : Nat
  resourceLength : Nat
  deriving DecidableEq

/-- A HOB of the list, before its end. -/
inductive Hob
  | resourceDescriptor (r : ResourceDescriptor)
  | other

/-- What the search reads of the handoff information table. -/
structure PhitHob where
  efiFreeMemoryBottom : Nat
  efiFreeMemoryTop : Nat

def minimumInitialMemorySize : Nat := 0x10000
def memoryAttributeMask : Nat := 0x1C387
def testedMemoryAttributes : Nat := 7
def efiResourceSystemMemory : Nat := 0

def ResourceDescriptor.isTested (r : ResourceDescriptor) : Bool :=
  r.resourceType = efiResourceSystemMemory ∧ r.resourceAttribute &&& memoryAttributeMask = testedMemoryAttributes

/-- `PhysicalStart + ResourceLength`. -/
def ResourceDescriptor.last (r : ResourceDescriptor) : Nat := uint64 (r.physicalStart + r.resourceLength)

/-- The first loop: the place of the PHIT's descriptor in the list and the descriptor looked at last. -/
def findPhit (phit : PhitHob) : Nat → List Hob → Option ResourceDescriptor → Option Nat × Option ResourceDescriptor
  | _, [], resourceHob => (none, resourceHob)
  | i, .other :: l, resourceHob => findPhit phit (i + 1) l resourceHob
  | i, .resourceDescriptor r :: l, _ =>
    if r.isTested ∧ r.physicalStart ≤ phit.efiFreeMemoryBottom ∧ phit.efiFreeMemoryTop ≤ r.last then (some i, some r)
    else findPhit phit (i + 1) l (some r)

structure Search where
  resourceHob : Option ResourceDescriptor
  maxResourceHob : Option ResourceDescriptor
  found : Bool
  highAddress : Nat

/-- A descriptor that does not contain the PHIT. -/
def visit (maxAddress : Nat) (s : Search) (r : ResourceDescriptor) : Search :=
  if r.isTested ∧ r.last ≤ maxAddress ∧ r.physicalStart > s.highAddress then
    { resourceHob := some r, maxResourceHob := some r, found := true, highAddress := r.physicalStart }
  else { s with resourceHob := some r }

/-- The scan for the highest tested memory below `maxAddress`; `i` is the place of the next HOB. -/
def scanHobs (phitResourceHob : Option Nat) (maxAddress : Nat) : Nat → List Hob → Search → Search
  | _, [], s => s
  | i, .other :: l, s => scanHobs phitResourceHob maxAddress (i + 1) l s
  | i, .resourceDescriptor r :: l, s =>
    scanHobs phitResourceHob maxAddress (i + 1) l (if some i ≠ phitResourceHob then visit maxAddress s r else s)

/-- `MaxMemoryBaseAddress`, `MaxMemoryLength` and `MaxMemoryAttributes`. -/
structure Region where
  baseAddress : Nat
  length : Nat
  attributes : Nat

def regionOf (r : ResourceDescriptor) : Region :=
  let baseAddress := alignUp r.physicalStart 12
  { baseAddress, length := alignDown (uint64 (r.last + (2 ^ 64 - baseAddress))) 12, attributes := r.resourceAttribute }

/-- The `do … while` loop. Without any descriptor `ResourceHob` is NULL, and the address read through it is not used. -/
def searchBelow (phitResourceHob : Option Nat) (hobs : List Hob) : Nat → Nat → Option ResourceDescriptor →
    Option ResourceDescriptor → Region → Option Region
  | 0, _, _, _, _ => none
  | fuel + 1, maxAddress, resourceHob, maxResourceHob, region =>
    let s := scanHobs phitResourceHob maxAddress 0 hobs { resourceHob, maxResourceHob, found := false, highAddress := 0 }
    let region := match s.found, s.maxResourceHob with
      | true, some r => regionOf r
      | _, _ => region
    let maxAddress := match s.resourceHob with
      | some r => r.physicalStart
      | none => 0
    if s.found ∧ region.length < minimumInitialMemorySize then
      searchBelow phitResourceHob hobs fuel maxAddress s.resourceHob s.maxResourceHob region
    else some region

/-- The search of `CoreInitializeMemoryServices`. -/
def searchMemory (fuel maxAddress : Nat) (phit : PhitHob) (hobs : List Hob) : Option Region :=
  let (phitResourceHob, resourceHob) := findPhit phit 0 hobs none
  searchBelow phitResourceHob hobs fuel maxAddress resourceHob none { baseAddress := 0, length := 0, attributes := 0 }

/-! ## The descriptors that take part -/

/-- The descriptors other than the PHIT's, in the order of the list. -/
def others (phitResourceHob : Option Nat) : Nat → List Hob → List ResourceDescriptor
  | _, [] => []
  | i, .other :: l => others phitResourceHob (i + 1) l
  | i, .resourceDescriptor r :: l =>
    if some i ≠ phitResourceHob then r :: others phitResourceHob (i + 1) l else others phitResourceHob (i + 1) l

theorem scanHobs_eq (phitResourceHob : Option Nat) (maxAddress i : Nat) (hobs : List Hob) (s : Search) :
    scanHobs phitResourceHob maxAddress i hobs s = (others phitResourceHob i hobs).foldl (visit maxAddress) s := by
  induction hobs generalizing i s with
  | nil => rfl
  | cons h l ih =>
    cases h with
    | other => exact ih (i + 1) s
    | resourceDescriptor r =>
      rw [scanHobs, ih, others]
      split <;> rfl

/-- Tested memory that ends by `maxAddress`. -/
def Fits (maxAddress : Nat) (r : ResourceDescriptor) : Prop := r.isTested = true ∧ r.last ≤ maxAddress

/-- The descriptor that fits at the highest address, the first one in the list if there are several. -/
def Top (l : List ResourceDescriptor) (maxAddress : Nat) (r : ResourceDescriptor) : Prop :=
  ∃ before after, l = before ++ r :: after ∧ Fits maxAddress r ∧
    (∀ x ∈ before, Fits maxAddress x → x.physicalStart < r.physicalStart) ∧
    ∀ x ∈ after, Fits maxAddress x → x.physicalStart ≤ r.physicalStart

section
variable {l : List ResourceDescriptor} {maxAddress : Nat} {r : ResourceDescriptor}

theorem Top.mem (h : Top l maxAddress r) : r ∈ l := by
  obtain ⟨before, after, rfl, -⟩ := h
  simp

theorem Top.fits (h : Top l maxAddress r) : Fits maxAddress r := by
  obtain ⟨before, after, -, hfits, -⟩ := h
  exact hfits

theorem Top.le (h : Top l maxAddress r) {x : ResourceDescriptor} (hx : x ∈ l) (hf : Fits maxAddress x) :
    x.physicalStart ≤ r.physicalStart := by
  obtain ⟨before, after, rfl, -, hbefore, hafter⟩ := h
  rcases List.mem_append.mp hx with hx | hx
  · exact Nat.le_of_lt (hbefore x hx hf)
  · rcases List.mem_cons.mp hx with rfl | hx
    · exact Nat.le_refl _
    · exact hafter x hx hf

theorem Top.unique {r' : ResourceDescriptor} (h : Top l maxAddress r) (h' : Top l maxAddress r') : r = r' := by
  obtain ⟨b, a, hl, hf, hb, ha⟩ := h
  obtain ⟨b', a', hl', hf', hb', ha'⟩ := h'
  rcases List.append_eq_append_iff.mp (hl.symm.trans hl') with ⟨m, hm, hm'⟩ | ⟨m, hm, hm'⟩
  · cases m with
    | nil => exact (List.cons.inj hm').1
    | cons y m =>
      obtain ⟨rfl, rfl⟩ := List.cons.inj hm'
      have h1 := hb' r (by rw [hm]; simp) hf
      have h2 := ha r' (by simp) hf'
      omega
  · cases m with
    | nil => exact (List.cons.inj hm').1.symm
    | cons y m =>
      obtain ⟨rfl, rfl⟩ := List.cons.inj hm'
      have h1 := hb r' (by rw [hm]; simp) hf'
      have h2 := ha' r (by simp) hf
      omega

theorem foldl_visit_resourceHob (l : List ResourceDescriptor) (maxAddress : Nat) (s : Search) :
    (l.foldl (visit maxAddress) s).resourceHob = l.getLast?.or s.resourceHob := by
  induction l using List.reverseRecOn with
  | nil => rfl
  | append_singleton l x ih =>
    rw [List.foldl_append, List.foldl_cons, List.foldl_nil, visit, List.getLast?_concat]
    split <;> rfl

/-- What one scan finds. -/
theorem foldl_visit (maxAddress : Nat) (hpos : ∀ x ∈ l, x.isTested = true → 0 < x.physicalStart) {s : Search}
    (hf : s.found = false)
    (hh : s.highAddress = 0) :
    ((l.foldl (visit maxAddress) s).found = false ∧ (l.foldl (visit maxAddress) s).highAddress = 0 ∧
        ∀ x ∈ l, ¬Fits maxAddress x) ∨
      ∃ r, (l.foldl (visit maxAddress) s).found = true ∧ (l.foldl (visit maxAddress) s).maxResourceHob = some r ∧
        (l.foldl (visit maxAddress) s).highAddress = r.physicalStart ∧ Top l maxAddress r := by
  induction l using List.reverseRecOn with
  | nil => exact Or.inl ⟨hf, hh, fun x hx => absurd hx List.not_mem_nil⟩
  | append_singleton l x ih =>
    rw [List.foldl_append, List.foldl_cons, List.foldl_nil, visit]
    have hx := hpos x (by simp)
    rcases ih fun y hy => hpos y (List.mem_append_left _ hy) with ⟨hfound, hhigh, hnone⟩ | ⟨r, hfound, hmax, hhigh, htop⟩
    · split
      · rename_i hfit
        refine Or.inr ⟨x, rfl, rfl, rfl, l, [], rfl, ⟨hfit.1, hfit.2.1⟩, fun y hy hyf => absurd hyf (hnone y hy), ?_⟩
        exact fun y hy => absurd hy List.not_mem_nil
      · rename_i hfit
        refine Or.inl ⟨hfound, hhigh, fun y hy hyf => ?_⟩
        rcases List.mem_append.mp hy with hy | hy
        · exact hnone y hy hyf
        · obtain rfl := List.mem_singleton.mp hy
          exact hfit ⟨hyf.1, hyf.2, by rw [hhigh]; exact hx hyf.1⟩
    · have htop' := htop
      obtain ⟨before, after, hl, hfits, hbefore, hafter⟩ := htop
      split
      · rename_i hfit
        rw [hhigh] at hfit
        refine Or.inr ⟨x, rfl, rfl, rfl, l, [], rfl, ⟨hfit.1, hfit.2.1⟩, fun y hy hyf => ?_,
          fun y hy => absurd hy List.not_mem_nil⟩
        exact Nat.lt_of_le_of_lt (htop'.le hy hyf) hfit.2.2
      · rename_i hfit
        refine Or.inr ⟨r, hfound, hmax, hhigh, before, after ++ [x], by rw [hl, List.append_assoc, List.cons_append], hfits,
          hbefore, fun y hy hyf => ?_⟩
        rcases List.mem_append.mp hy with hy | hy
        · exact hafter y hy hyf
        · obtain rfl := List.mem_singleton.mp hy
          rw [hhigh] at hfit
          by_contra hlt
          exact hfit ⟨hyf.1, hyf.2, by omega⟩

end

/-! ## How large a region is -/

/-- The pages inside the descriptor are enough for the DXE core. -/
def Roomy (r : ResourceDescriptor) : Prop :=
  (r.physicalStart + 4095) / 4096 * 4096 + minimumInitialMemorySize ≤ r.physicalStart + r.resourceLength

/-- The descriptor ends before the first page boundary in it, so the length computed for it wraps around. -/
def LengthWraps (r : ResourceDescriptor) : Prop :=
  r.physicalStart + r.resourceLength < (r.physicalStart + 4095) / 4096 * 4096

/-- The region in numbers: the first page boundary wraps to 0 when it lies at the end of the address space. -/
theorem regionOf_eq {r : ResourceDescriptor} (hend : r.physicalStart + r.resourceLength < 2 ^ 64) :
    (regionOf r).baseAddress = (r.physicalStart + 4095) / 4096 * 4096 % 2 ^ 64 ∧
      (regionOf r).length =
        (r.physicalStart + r.resourceLength + (2 ^ 64 - (regionOf r).baseAddress)) % 2 ^ 64 / 4096 * 4096 := by
  have hlast : r.last = r.physicalStart + r.resourceLength := Nat.mod_eq_of_lt hend
  refine ⟨?_, ?_⟩
  · change (r.physicalStart + 4095) % 2 ^ 64 / 4096 * 4096 = _
    omega
  · rw [← hlast]
    rfl

theorem regionOf_small {r : ResourceDescriptor} (hend : r.physicalStart + r.resourceLength < 2 ^ 64) :
    (regionOf r).length < minimumInitialMemorySize ↔ ¬Roomy r ∧ ¬LengthWraps r := by
  obtain ⟨hbase, hlength⟩ := regionOf_eq hend
  have hmin : minimumInitialMemorySize = 65536 := rfl
  rw [Roomy, LengthWraps, hlength, hbase, hmin]
  omega

theorem regionOf_roomy {r : ResourceDescriptor} (hend : r.physicalStart + r.resourceLength < 2 ^ 64) (h : Roomy r) :
    r.physicalStart ≤ (regionOf r).baseAddress ∧ 4096 ∣ (regionOf r).baseAddress ∧
      (regionOf r).baseAddress + (regionOf r).length ≤ r.physicalStart + r.resourceLength := by
  obtain ⟨hbase, hlength⟩ := regionOf_eq hend
  rw [Roomy] at h
  rw [hlength, hbase]
  omega

/-- A wrapped region lies in no descriptor. -/
theorem regionOf_wraps {r x : ResourceDescriptor} (hend : r.physicalStart + r.resourceLength < 2 ^ 64)
    (hx : 0 < x.physicalStart) (hxend : x.physicalStart + x.resourceLength < 2 ^ 64) (h : LengthWraps r)
    (hle : x.physicalStart ≤ (regionOf r).baseAddress) :
    x.physicalStart + x.resourceLength < (regionOf r).baseAddress + (regionOf r).length := by
  obtain ⟨hbase, hlength⟩ := regionOf_eq hend
  rw [LengthWraps] at h
  rw [hlength]
  rw [hbase] at hle ⊢
  omega

/-! ## The search -/

section
variable {phitResourceHob : Option Nat} {hobs : List Hob} {maxAddress fuel : Nat} {region : Region}
variable {resourceHob maxResourceHob : Option ResourceDescriptor}

/-- The tested memory is as the firmware reports it: above 0, below `maxAddress`, and disjoint. -/
structure Reported (l : List ResourceDescriptor) (maxAddress : Nat) : Prop where
  pos : ∀ x ∈ l, x.isTested = true → 0 < x.physicalStart
  lt : maxAddress < 2 ^ 64
  le : ∀ x ∈ l, x.isTested = true → x.physicalStart + x.resourceLength ≤ maxAddress
  disjoint : ∀ x ∈ l, ∀ y ∈ l, x.isTested = true → y.isTested = true → x ≠ y →
    x.physicalStart + x.resourceLength ≤ y.physicalStart ∨ y.physicalStart + y.resourceLength ≤ x.physicalStart

theorem searchBelow_none (hpos : ∀ x ∈ others phitResourceHob 0 hobs, x.isTested = true → 0 < x.physicalStart)
    (hnone : ∀ x ∈ others phitResourceHob 0 hobs, ¬Fits maxAddress x) :
    searchBelow phitResourceHob hobs (fuel + 1) maxAddress resourceHob maxResourceHob region = some region := by
  rw [searchBelow]
  simp only [scanHobs_eq]
  rcases foldl_visit maxAddress hpos
    (s := { resourceHob, maxResourceHob, found := false, highAddress := 0 }) rfl rfl with ⟨hfound, -⟩ | ⟨r, -, -, -, htop⟩
  · simp only [hfound, Bool.false_eq_true, false_and, if_false]
  · exact absurd htop.fits (hnone r htop.mem)

theorem searchBelow_top (fuel : Nat) (resourceHob maxResourceHob : Option ResourceDescriptor) (region : Region)
    {r last : ResourceDescriptor}
    (hpos : ∀ x ∈ others phitResourceHob 0 hobs, x.isTested = true → 0 < x.physicalStart)
    (hlast : (others phitResourceHob 0 hobs).getLast? = some last)
    (htop : Top (others phitResourceHob 0 hobs) maxAddress r) :
    searchBelow phitResourceHob hobs (fuel + 1) maxAddress resourceHob maxResourceHob region
      = if (regionOf r).length < minimumInitialMemorySize then
          searchBelow phitResourceHob hobs fuel last.physicalStart (some last) (some r) (regionOf r)
        else some (regionOf r) := by
  rw [searchBelow]
  simp only [scanHobs_eq]
  have hrh := foldl_visit_resourceHob (others phitResourceHob 0 hobs) maxAddress
    { resourceHob, maxResourceHob, found := false, highAddress := 0 }
  rw [hlast, Option.some_or] at hrh
  rcases foldl_visit maxAddress hpos
    (s := { resourceHob, maxResourceHob, found := false, highAddress := 0 }) rfl rfl with ⟨-, -, hnone⟩ |
    ⟨r', hfound, hmax, -, htop'⟩
  · exact absurd htop.fits (hnone r htop.mem)
  · rw [htop.unique htop']
    simp only [hfound, hmax, hrh, true_and]

/-- From the second turn on the address stays the start of the last descriptor, so a small find repeats for ever. -/
theorem searchBelow_stuck {r last : ResourceDescriptor}
    (hpos : ∀ x ∈ others phitResourceHob 0 hobs, x.isTested = true → 0 < x.physicalStart)
    (hlast : (others phitResourceHob 0 hobs).getLast? = some last)
    (htop : Top (others phitResourceHob 0 hobs) last.physicalStart r)
    (hsmall : (regionOf r).length < minimumInitialMemorySize) :
    searchBelow phitResourceHob hobs fuel last.physicalStart resourceHob maxResourceHob region = none := by
  induction fuel generalizing resourceHob maxResourceHob region with
  | zero => rfl
  | succ fuel ih =>
    rw [searchBelow_top fuel _ _ _ hpos hlast htop, if_pos hsmall]
    exact ih

/-- What the search is for: the region inside the highest descriptor with enough pages, or a length that is too small
when there is none. -/
structure Chosen (l : List ResourceDescriptor) (region : Region) : Prop where
  none : region.length < minimumInitialMemorySize → ∀ x ∈ l, x.isTested = true → ¬Roomy x
  some : minimumInitialMemorySize ≤ region.length → ∃ r ∈ l, r.isTested = true ∧ r.physicalStart ≤ region.baseAddress ∧
    4096 ∣ region.baseAddress ∧ region.baseAddress + region.length ≤ r.physicalStart + r.resourceLength ∧
    region.attributes = r.resourceAttribute ∧ ∀ x ∈ l, x.isTested = true → Roomy x → x.physicalStart ≤ r.physicalStart

/-- The descriptors for which the search does its work. -/
def Searchable (l : List ResourceDescriptor) (maxAddress : Nat) : Prop :=
  (∀ x ∈ l, x.isTested = false) ∨
    ∃ r, Top l maxAddress r ∧
      (Roomy r ∨ ¬LengthWraps r ∧ ∃ last, l.getLast? = some last ∧
        ((∀ x ∈ l, x.isTested = true → ¬Roomy x) ∧ (∀ x ∈ l, ¬Fits last.physicalStart x) ∨
          ∃ r', Top l last.physicalStart r' ∧ Roomy r' ∧
            ∀ x ∈ l, x.isTested = true → Roomy x → x.physicalStart ≤ r'.physicalStart))

theorem Reported.fits {l : List ResourceDescriptor} (h : Reported l maxAddress) {x : ResourceDescriptor} (hx : x ∈ l)
    (ht : x.isTested = true) : Fits maxAddress x := by
  have hle := h.le x hx ht
  have hlt := h.lt
  refine ⟨ht, ?_⟩
  rw [ResourceDescriptor.last, uint64, Nat.mod_eq_of_lt (by omega)]
  exact hle

theorem Reported.small {l : List ResourceDescriptor} (h : Reported l maxAddress) {x : ResourceDescriptor} (hx : x ∈ l)
    (ht : x.isTested = true) : (regionOf x).length < minimumInitialMemorySize ↔ ¬Roomy x ∧ ¬LengthWraps x :=
  regionOf_small (Nat.lt_of_le_of_lt (h.le x hx ht) h.lt)

/-- A region that the search takes is a good choice exactly when it comes from a roomy descriptor above all others. -/
theorem chosen_regionOf {l : List ResourceDescriptor} (h : Reported l maxAddress) {r : ResourceDescriptor} (hr : r ∈ l)
    (ht : r.isTested = true) (hlarge : minimumInitialMemorySize ≤ (regionOf r).length) :
    Chosen l (regionOf r) ↔ Roomy r ∧ ∀ x ∈ l, x.isTested = true → Roomy x → x.physicalStart ≤ r.physicalStart := by
  have hlt := h.lt
  have hend : r.physicalStart + r.resourceLength < 2 ^ 64 := Nat.lt_of_le_of_lt (h.le r hr ht) hlt
  have hmin : minimumInitialMemorySize = 65536 := rfl
  constructor
  · rintro ⟨-, hsome⟩
    obtain ⟨y, hy, hty, hlo, -, hhi, -, habove⟩ := hsome hlarge
    have hyend : y.physicalStart + y.resourceLength < 2 ^ 64 := Nat.lt_of_le_of_lt (h.le y hy hty) hlt
    have hroomy : Roomy r := by
      by_contra hno
      have hwraps : LengthWraps r := by
        by_contra hw
        have := (h.small hr ht).mpr ⟨hno, hw⟩
        omega
      have := regionOf_wraps hend (h.pos y hy hty) hyend hwraps hlo
      omega
    obtain ⟨hlo', -, hhi'⟩ := regionOf_roomy hend hroomy
    -- both descriptors contain the region, so they are the same one
    have heq : y = r := by
      by_contra hne
      rcases h.disjoint y hy r hr hty ht hne with hd | hd <;> omega
    subst heq
    exact ⟨hroomy, habove⟩
  · rintro ⟨hroomy, habove⟩
    obtain ⟨hlo, hdvd, hhi⟩ := regionOf_roomy hend hroomy
    exact ⟨fun hsmall => absurd hsmall (by omega), fun _ => ⟨r, hr, ht, hlo, hdvd, hhi, rfl, habove⟩⟩

theorem exists_top {l : List ResourceDescriptor} (hpos : ∀ x ∈ l, x.isTested = true → 0 < x.physicalStart)
    (hex : ∃ x ∈ l, Fits maxAddress x) : ∃ r, Top l maxAddress r := by
  obtain ⟨x, hx, hf⟩ := hex
  rcases foldl_visit maxAddress hpos
    (s := { resourceHob := none, maxResourceHob := none, found := false, highAddress := 0 }) rfl rfl
    with ⟨-, -, hnone⟩ | ⟨r, -, -, -, htop⟩
  · exact absurd hf (hnone x hx)
  · exact ⟨r, htop⟩

/-- A search that gives `found` after `n` turns and nothing before. -/
theorem exists_run_iff {l : List ResourceDescriptor} {run : Nat → Option Region} {n : Nat} {found : Region}
    (hrun : ∀ fuel, run (fuel + n) = some found) (hless : ∀ fuel < n, run fuel = none) :
    (∃ fuel x, run fuel = some x ∧ Chosen l x) ↔ Chosen l found := by
  constructor
  · rintro ⟨fuel, x, hx, hc⟩
    rcases Nat.lt_or_ge fuel n with h | h
    · rw [hless fuel h] at hx
      contradiction
    · obtain ⟨k, rfl⟩ := Nat.exists_eq_add_of_le' h
      rw [hrun] at hx
      exact Option.some.inj hx ▸ hc
  · exact fun hc => ⟨0 + n, found, hrun 0, hc⟩

theorem searchBelow_chosen_iff (h : Reported (others phitResourceHob 0 hobs) maxAddress) (hregion : region.length = 0) :
    (∃ fuel found, searchBelow phitResourceHob hobs fuel maxAddress resourceHob maxResourceHob region = some found ∧
      Chosen (others phitResourceHob 0 hobs) found) ↔ Searchable (others phitResourceHob 0 hobs) maxAddress := by
  have hpos := h.pos
  have hmin : minimumInitialMemorySize = 65536 := rfl
  generalize hl : others phitResourceHob 0 hobs = l at *
  have hone : ∀ fuel < 1, searchBelow phitResourceHob hobs fuel maxAddress resourceHob maxResourceHob region = none :=
    fun fuel hf => by rw [show fuel = 0 by omega]; rfl
  by_cases hex : ∃ x ∈ l, Fits maxAddress x
  case neg =>
    -- no tested memory at all
    have hnone : ∀ x ∈ l, x.isTested = false := fun x hx => by
      by_contra ht
      exact hex ⟨x, hx, h.fits hx (by simpa using ht)⟩
    have hrun : ∀ fuel, searchBelow phitResourceHob hobs (fuel + 1) maxAddress resourceHob maxResourceHob region
        = some region := fun fuel => searchBelow_none (hl ▸ hpos) (by rw [hl]; exact fun x hx hf => hex ⟨x, hx, hf⟩)
    rw [exists_run_iff hrun hone]
    exact iff_of_true ⟨fun _ x hx ht => absurd ht (by simp [hnone x hx]), fun hge => by omega⟩ (Or.inl hnone)
  obtain ⟨r, htop⟩ := exists_top hpos hex
  obtain ⟨last, hlast⟩ : ∃ last, l.getLast? = some last := by
    obtain ⟨x, hx, -⟩ := hex
    exact ⟨_, List.getLast?_eq_some_getLast (List.ne_nil_of_mem hx)⟩
  have htested : r.isTested = true := htop.fits.1
  have hsome : ¬∀ x ∈ l, x.isTested = false := fun hno => by simp [hno r htop.mem] at htested
  have hfirst := fun fuel => searchBelow_top fuel resourceHob maxResourceHob region (hl ▸ hpos) (hl ▸ hlast) (hl ▸ htop)
  have hsmall := h.small htop.mem htested
  have habove : ∀ x ∈ l, x.isTested = true → Roomy x → x.physicalStart ≤ r.physicalStart := fun x hx ht _ =>
    htop.le hx (h.fits hx ht)
  by_cases hlt : (regionOf r).length < minimumInitialMemorySize
  case neg =>
    have hrun : ∀ fuel, searchBelow phitResourceHob hobs (fuel + 1) maxAddress resourceHob maxResourceHob region
        = some (regionOf r) := fun fuel => by rw [hfirst, if_neg hlt]
    rw [exists_run_iff hrun hone, chosen_regionOf h htop.mem htested (by omega)]
    constructor
    · rintro ⟨hroomy, -⟩
      exact Or.inr ⟨r, htop, Or.inl hroomy⟩
    · rintro (hno | ⟨r', htop', hr'⟩)
      · exact absurd hno hsome
      · obtain rfl := htop.unique htop'
        refine ⟨?_, habove⟩
        by_contra hno
        rcases hr' with hroomy | ⟨hwraps, -⟩
        · exact hno hroomy
        · exact hlt (hsmall.mpr ⟨hno, hwraps⟩)
  case pos =>
    obtain ⟨hnroomy, hnwraps⟩ := hsmall.mp hlt
    have hiff : Searchable l maxAddress ↔
        (∀ x ∈ l, x.isTested = true → ¬Roomy x) ∧ (∀ x ∈ l, ¬Fits last.physicalStart x) ∨
          ∃ r', Top l last.physicalStart r' ∧ Roomy r' ∧
            ∀ x ∈ l, x.isTested = true → Roomy x → x.physicalStart ≤ r'.physicalStart := by
      constructor
      · rintro (hno | ⟨r', htop', hr'⟩)
        · exact absurd hno hsome
        · obtain rfl := htop.unique htop'
          rcases hr' with hroomy | ⟨-, last', hlast', hcond⟩
          · exact absurd hroomy hnroomy
          · rw [hlast] at hlast'
            exact Option.some.inj hlast' ▸ hcond
      · exact fun hcond => Or.inr ⟨r, htop, Or.inr ⟨hnwraps, last, hlast, hcond⟩⟩
    rw [hiff]
    have hless : ∀ fuel < 2, searchBelow phitResourceHob hobs fuel maxAddress resourceHob maxResourceHob region = none := by
      intro fuel hf
      rcases Nat.lt_or_ge fuel 1 with h1 | h1
      · rw [show fuel = 0 by omega]
        rfl
      · rw [show fuel = 0 + 1 by omega, hfirst, if_pos hlt]
        rfl
    by_cases hex' : ∃ x ∈ l, Fits last.physicalStart x
    case neg =>
      have hrun : ∀ fuel, searchBelow phitResourceHob hobs (fuel + 2) maxAddress resourceHob maxResourceHob region
          = some (regionOf r) := fun fuel => by
        rw [hfirst, if_pos hlt]
        exact searchBelow_none (hl ▸ hpos) (by rw [hl]; exact fun x hx hf => hex' ⟨x, hx, hf⟩)
      rw [exists_run_iff hrun hless]
      constructor
      · exact fun hc => Or.inl ⟨hc.none hlt, fun x hx hf => hex' ⟨x, hx, hf⟩⟩
      · rintro (⟨hno, -⟩ | ⟨r', htop', -⟩)
        · exact ⟨fun _ => hno, fun hge => by omega⟩
        · exact absurd ⟨r', htop'.mem, htop'.fits⟩ hex'
    case pos =>
      obtain ⟨r', htop'⟩ := exists_top hpos hex'
      have hsmall' := h.small htop'.mem htop'.fits.1
      have hsecond := fun fuel => searchBelow_top fuel (some last) (some r) (regionOf r) (hl ▸ hpos)
        (hl ▸ hlast) (hl ▸ htop')
      by_cases hlt' : (regionOf r').length < minimumInitialMemorySize
      case pos =>
        -- the search goes on for ever
        refine iff_of_false ?_ ?_
        · rintro ⟨fuel, found, hrun, -⟩
          cases fuel with
          | zero => cases hrun
          | succ fuel =>
            rw [hfirst, if_pos hlt, searchBelow_stuck (hl ▸ hpos) (hl ▸ hlast) (hl ▸ htop') hlt'] at hrun
            cases hrun
        · rintro (⟨-, hno⟩ | ⟨r'', htop'', hroomy, -⟩)
          · exact hno r' htop'.mem htop'.fits
          · obtain rfl := htop'.unique htop''
            exact (hsmall'.mp hlt').1 hroomy
      case neg =>
        have hrun : ∀ fuel, searchBelow phitResourceHob hobs (fuel + 2) maxAddress resourceHob maxResourceHob region
            = some (regionOf r') := fun fuel => (hfirst (fuel + 1)).trans (by rw [if_pos hlt, hsecond, if_neg hlt'])
        rw [exists_run_iff hrun hless, chosen_regionOf h htop'.mem htop'.fits.1 (by omega)]
        constructor
        · exact fun hgood => Or.inr ⟨r', htop', hgood⟩
        · rintro (⟨-, hno⟩ | ⟨r'', htop'', hgood⟩)
          · exact absurd htop'.fits (hno r' htop'.mem)
          · obtain rfl := htop'.unique htop''
            exact hgood

end

/-- The search of `CoreInitializeMemoryServices` ends with the highest memory that is large enough exactly when the
highest tested memory already is, or what it finds below the last descriptor of the list makes up for it. -/
theorem searchMemory_chosen_iff {maxAddress : Nat} (phit : PhitHob) (hobs : List Hob)
    (h : Reported (others (findPhit phit 0 hobs none).1 0 hobs) maxAddress) :
    (∃ fuel found, searchMemory fuel maxAddress phit hobs = some found ∧
      Chosen (others (findPhit phit 0 hobs none).1 0 hobs) found) ↔
      Searchable (others (findPhit phit 0 hobs none).1 0 hobs) maxAddress :=
  searchBelow_chosen_iff h rfl

/-- Tested memory. -/
def memoryHob (physicalStart resourceLength : Nat) : Hob :=
  .resourceDescriptor { resourceType := efiResourceSystemMemory, resourceAttribute := testedMemoryAttributes,
                        physicalStart, resourceLength }

def samplePhit : PhitHob := { efiFreeMemoryBottom := 0x1100000, efiFreeMemoryTop := 0x1F00000 }

/-- The PHIT's memory and a large one. -/
def sampleHobs : List Hob := [.other, memoryHob 0x1000000 0x1000000, memoryHob 0x4000000 0x4000000]

theorem searchMemory_chosen_sample :
    ∃ fuel found, searchMemory fuel (2 ^ 64 - 1) samplePhit sampleHobs = some found ∧
      Chosen (others (findPhit samplePhit 0 sampleHobs none).1 0 sampleHobs) found := by
  refine (searchMemory_chosen_iff samplePhit sampleHobs ⟨?_, by decide, ?_, ?_⟩).mpr ?_
  · decide +kernel
  · decide +kernel
  · decide +kernel
  · refine Or.inr ⟨{ resourceType := 0, resourceAttribute := 7, physicalStart := 0x4000000, resourceLength := 0x4000000 },
      ⟨[], [], rfl, ⟨rfl, by decide +kernel⟩, by simp, by simp⟩, Or.inl ?_⟩
    unfold Roomy
    decide

/-- The PHIT's memory, a large one, a small one above it, and another small one at the end of the list. -/
def skippedHobs : List Hob :=
  [.other, memoryHob 0x1000000 0x1000000, memoryHob 0x4000000 0x4000000, memoryHob 0x10000000 0x8000,
    memoryHob 0x100000 0x8000]

/-- The small memory at the top is found first, and the search goes on below the last descriptor, under the large one. -/
theorem skippedHobs_not_chosen :
    Reported (others (findPhit samplePhit 0 skippedHobs none).1 0 skippedHobs) (2 ^ 64 - 1) ∧
      ¬∃ fuel found, searchMemory fuel (2 ^ 64 - 1) samplePhit skippedHobs = some found ∧
        Chosen (others (findPhit samplePhit 0 skippedHobs none).1 0 skippedHobs) found := by
  refine ⟨⟨by decide +kernel, by decide, by decide +kernel, by decide +kernel⟩, ?_⟩
  rintro ⟨fuel, found, hrun, hchosen⟩
  match fuel with
  | 0 => cases hrun
  | 1 => cases hrun
  | fuel + 2 =>
    obtain rfl : { baseAddress := 0x10000000, length := 0x8000, attributes := 7 } = found := Option.some.inj hrun
    refine hchosen.none (by decide)
      { resourceType := 0, resourceAttribute := 7, physicalStart := 0x4000000, resourceLength := 0x4000000 } ?_ rfl ?_
    · decide +kernel
    · unfold Roomy
      decide

end Udk.Gcd
